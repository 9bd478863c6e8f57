import TypeGrammar.Proofs.Runs
import TypeGrammar.Proofs.Spelling

/-!
# What printing changes

A node is printed almost as it was read. Four forms come back in another order or with fewer trees:
the colon of a lifetime definition without bounds is left out, a binder in front of `dyn` moves
behind it (and replaces the binder that stands there), a binder in front of a macro call is dropped,
and `((?A)) + B` loses a pair of parentheses. `Reprints qs ps` says that `ps` are the chunks `qs`
with such changes. Where both are spelled, what a parser asks of the trees ahead has the same
answers; `Alike` collects these answers.
-/

namespace TypeGrammar

open TokenTree

/-! ## Binders as they are read -/

/-- A lifetime definition in the chunks from which it is read, with its colon. -/
def LifetimeDef.source (d : LifetimeDef) : List Chunk :=
  d.attributes.flatMap Attribute.chunks ++
    (d.lifetime.chunks ++ (markChunks d.colon ++ d.bounds.chunks Lifetime.chunks))

/-- A binder in the chunks from which it is read. -/
def Binder.source (b : Binder) : List Chunk :=
  .word b.forToken :: .mark b.lt false ::
    (b.lifetimes.chunks LifetimeDef.source ++ [.mark b.gt false])

/-- True of the word `w`, be it a keyword or an identifier. -/
def Token.IsWord (w : String) (t : Token) : Prop :=
  (t.kind = .keyword ∨ t.kind = .identifier) ∧ t.text = w

/-! ## Changes -/

/-- The chunks from which a node is read, and the chunks in which it is printed. -/
inductive Reprints : List Chunk → List Chunk → Prop
  | nil : Reprints [] []
  | same {qs ps : List Chunk} (p : Chunk) : Reprints qs ps → Reprints (p :: qs) (p :: ps)
  | inside {qs ps qs' ps' : List Chunk} (d : Delim) :
      Reprints qs' ps' → Reprints qs ps → Reprints (.group d qs' :: qs) (.group d ps' :: ps)
  | binder {qs ps : List Chunk} (b : Binder) :
      b.forToken.IsWord "for" → b.lt.text = "<" →
      Reprints qs ps → Reprints (b.source ++ qs) (b.chunks ++ ps)
  | moved {qs ps : List Chunk} {dynToken : Token} {modifier : Option Token} (b : Binder)
      (b' : Option Binder) :
      b.forToken.IsWord "for" → b.lt.text = "<" → dynToken.IsWord "dyn" →
      (∀ m ∈ modifier, m.text = "?") →
      Reprints qs (.word dynToken :: (markChunks modifier ++ (binderChunks b' ++ ps))) →
      Reprints (b.source ++ qs) (.word dynToken :: (markChunks modifier ++ (b.chunks ++ ps)))
  | movedInside {qs ps inner : List Chunk} {dynToken : Token} {modifier : Option Token} {d : Delim}
      (b : Binder) (b' : Option Binder) :
      b.forToken.IsWord "for" → b.lt.text = "<" → dynToken.IsWord "dyn" →
      Reprints qs
        (.word dynToken :: .group d (markChunks modifier ++ (binderChunks b' ++ inner)) :: ps) →
      Reprints (b.source ++ qs)
        (.word dynToken :: .group d (markChunks modifier ++ (b.chunks ++ inner)) :: ps)
  | dropped {qs ps : List Chunk} {word mark : Token} (b : Binder) :
      b.forToken.IsWord "for" → b.lt.text = "<" → word.IsWord word.text →
      (word.kind = .identifier ∨ word.text ∈ pathRoots) →
      mark.text = "::" ∨ mark.text = "!" →
      Reprints qs (.word word :: .mark mark false :: ps) →
      Reprints (b.source ++ qs) (.word word :: .mark mark false :: ps)
  | unwrapped {qs ps qs' ps' : List Chunk} {outer inner : Delim} {modifier : Token} :
      outer.delimiter = .paren → inner.delimiter = .paren → modifier.text = "?" →
      Reprints qs' ps' → Reprints qs ps →
      Reprints (.group outer [.group inner (.mark modifier false :: qs')] :: qs)
        (.group outer (.mark modifier false :: ps') :: ps)

namespace Reprints

variable {qs ps qs' ps' : List Chunk}

theorem refl (ps : List Chunk) : Reprints ps ps := by
  induction ps with
  | nil => exact .nil
  | cons p ps ih => exact .same p ih

theorem append (h : Reprints qs ps) (h' : Reprints qs' ps') :
    Reprints (qs ++ qs') (ps ++ ps') := by
  induction h with
  | nil => exact h'
  | same p _ ih => exact .same p ih
  | inside d inner _ _ ih => exact .inside d inner ih
  | binder b forToken lt _ ih =>
    simp only [List.append_assoc]
    exact .binder b forToken lt ih
  | moved b b' forToken lt dyn modifier _ ih =>
    simp only [List.append_assoc, List.cons_append] at ih ⊢
    exact .moved b b' forToken lt dyn modifier ih
  | movedInside b b' forToken lt dyn _ ih =>
    simp only [List.append_assoc, List.cons_append] at ih ⊢
    exact .movedInside b b' forToken lt dyn ih
  | dropped b forToken lt word root mark _ ih =>
    simp only [List.append_assoc, List.cons_append] at ih ⊢
    exact .dropped b forToken lt word root mark ih
  | unwrapped outer inner modifier body _ _ ih => exact .unwrapped outer inner modifier body ih

/-- What is printed as an operator was read as one. -/
theorem of_mark {m : Token} {binary : Bool} (h : Reprints qs (.mark m binary :: ps)) :
    ∃ qs', qs = .mark m binary :: qs' ∧ Reprints qs' ps := by
  generalize eq : Chunk.mark m binary :: ps = xs at h
  cases h with
  | same p h =>
    cases eq
    exact ⟨_, rfl, h⟩
  | binder b => simp [Binder.chunks] at eq
  | nil | inside | moved | movedInside | dropped | unwrapped => cases eq

end Reprints

/-! ## The same answers -/

/-- What stands at the front of some trees. -/
inductive Shape where
  | nothing
  | token (kind : TokenKind) (text : String)
  | group (d : Delimiter)
  deriving DecidableEq

namespace TokenTree

/-- What stands at the front. -/
def shape : List TokenTree → Shape
  | [] => .nothing
  | .token t :: _ => .token t.kind t.text
  | .group d .. :: _ => .group d

end TokenTree

/-- Operators that are asked for right after a word. -/
def tailSigns : List String :=
  ["=", ":", "::", "+"]

/-- The same answers to what a parser asks of the trees ahead. -/
structure SameAhead (r r' : List TokenTree) : Prop where
  front : shape r = shape r'
  long : ∀ op ∈ longSigns, startsPunct op r = startsPunct op r'
  tail : ∀ t us, r = .token t :: us → t.kind ≠ .punct →
    ∀ op ∈ tailSigns, startsPunct op us = startsPunct op (r'.drop 1)
  bracket : startsPunct "#" r = true →
    startsGroup .bracket (r.drop 1) = startsGroup .bracket (r'.drop 1)
  turbofish : startsPunct "::" r = true → startsPunct "<" (r.drop 2) = startsPunct "<" (r'.drop 2)

/-- True if a single colon is at the front. -/
def startsColon (ts : List TokenTree) : Bool :=
  startsPunct ":" ts && !startsPunct "::" ts

/-- A binder in front of a type on the one hand, the same type without it, or with it further
inside, on the other. -/
def BinderChanged (r r' : List TokenTree) : Prop :=
  ∃ t s us t' us', r = .token t :: .token s :: us ∧ t.IsWord "for" ∧ s.text = "<" ∧
    r' = .token t' :: us' ∧ t'.IsWord t'.text ∧ t'.text ∉ ["for", "mut"] ∧
    startsPunct "=" us' = false ∧ startsColon us' = false

/-- The same answers, but for a binder that changes its place. -/
def Alike (r r' : List TokenTree) : Prop :=
  SameAhead r r' ∨ BinderChanged r r'

/-! ### Answers that the front decides -/

section Shape

variable {r r' : List TokenTree}

/-- Two lists of trees with the same front. -/
theorem shape_cases (h : shape r = shape r') :
    (r = [] ∧ r' = []) ∨
      (∃ t us t' us', r = .token t :: us ∧ r' = .token t' :: us' ∧ t.kind = t'.kind ∧
        t.text = t'.text) ∨
      ∃ d ts o e us ts' o' e' us', r = .group d ts o e :: us ∧ r' = .group d ts' o' e' :: us' := by
  cases r with
  | nil =>
    cases r' with
    | nil => exact .inl ⟨rfl, rfl⟩
    | cons tree' us' => cases tree' <;> cases h
  | cons tree us =>
    cases r' with
    | nil => cases tree <;> cases h
    | cons tree' us' =>
      cases tree <;> cases tree' <;> simp only [shape, reduceCtorEq, Shape.token.injEq] at h
      case token.token t t' => exact .inr (.inl ⟨t, us, t', us', rfl, rfl, h⟩)
      case group.group d ts o e d' ts' o' e' =>
        cases h
        exact .inr (.inr ⟨d, ts, o, e, us, ts', o', e', us', rfl, rfl⟩)

theorem startsChars_of_shape (h : shape r = shape r') (c : Char) :
    startsChars [c] r = startsChars [c] r' := by
  obtain ⟨rfl, rfl⟩ | ⟨t, us, t', us', rfl, rfl, kind, text⟩ |
    ⟨d, ts, o, e, us, ts', o', e', us', rfl, rfl⟩ := shape_cases h
  · rfl
  · simp [startsChars, kind, text]
  · rfl

theorem startsKind_of_shape (h : shape r = shape r') (p : TokenKind → Bool) :
    startsKind p r = startsKind p r' := by
  obtain ⟨rfl, rfl⟩ | ⟨t, us, t', us', rfl, rfl, kind, text⟩ |
    ⟨d, ts, o, e, us, ts', o', e', us', rfl, rfl⟩ := shape_cases h
  · rfl
  · simp [startsKind, token?, kind]
  · rfl

theorem startsWord_of_shape (h : shape r = shape r') (w : String) :
    startsWord w r = startsWord w r' := by
  obtain ⟨rfl, rfl⟩ | ⟨t, us, t', us', rfl, rfl, kind, text⟩ |
    ⟨d, ts, o, e, us, ts', o', e', us', rfl, rfl⟩ := shape_cases h
  · rfl
  · simp [startsWord, token?, kind, text]
  · rfl

theorem startsGroup_of_shape (h : shape r = shape r') (d : Delimiter) :
    startsGroup d r = startsGroup d r' := by
  obtain ⟨rfl, rfl⟩ | ⟨t, us, t', us', rfl, rfl, kind, text⟩ |
    ⟨d, ts, o, e, us, ts', o', e', us', rfl, rfl⟩ := shape_cases h <;> rfl

theorem isEmpty_of_shape (h : shape r = shape r') : r.isEmpty = r'.isEmpty := by
  obtain ⟨rfl, rfl⟩ | ⟨t, us, t', us', rfl, rfl, kind, text⟩ |
    ⟨d, ts, o, e, us, ts', o', e', us', rfl, rfl⟩ := shape_cases h <;> rfl

end Shape

theorem Token.IsWord.kind_ne {w : String} {t : Token} (h : t.IsWord w) : t.kind ≠ .punct := by
  obtain h | h := h.1 <;> simp [h]

theorem startsWord_of_isWord {w : String} {t : Token} (h : t.IsWord w) (ts : List TokenTree) :
    startsWord w (.token t :: ts) = true := by
  obtain ⟨kind | kind, text⟩ := h <;> simp [startsWord, token?, kind, text]

theorem Token.IsWord.of_starts {w : String} {t : Token} {ts : List TokenTree}
    (h : startsWord w (.token t :: ts) = true) : t.IsWord w := by
  simpa [startsWord, token?, Token.IsWord] using h

theorem startsWord_token {w : String} {r : List TokenTree} (h : startsWord w r = true) :
    ∃ t us, r = .token t :: us ∧ t.IsWord w := by
  cases r with
  | nil => cases h
  | cons tree us =>
    cases tree with
    | token t => exact ⟨t, us, rfl, .of_starts h⟩
    | group => cases h

theorem startsKind_token {p : TokenKind → Bool} {r : List TokenTree}
    (h : startsKind p r = true) : ∃ t us, r = .token t :: us ∧ p t.kind = true := by
  cases r with
  | nil => cases h
  | cons tree us =>
    cases tree with
    | token t => exact ⟨t, us, rfl, h⟩
    | group => cases h

theorem startsPunct_word {t : Token} {ts : List TokenTree} {op : String} (h : t.kind ≠ .punct)
    (nonempty : op.toList ≠ []) : startsPunct op (.token t :: ts) = false := by
  obtain ⟨c, cs, eq⟩ := List.exists_cons_of_ne_nil nonempty
  simp [startsPunct, eq, startsChars, h]

theorem startsPunct_group {d : Delimiter} {us ts : List TokenTree} {o e : Span} {op : String}
    (nonempty : op.toList ≠ []) : startsPunct op (.group d us o e :: ts) = false := by
  obtain ⟨c, cs, eq⟩ := List.exists_cons_of_ne_nil nonempty
  rw [startsPunct, eq]
  rfl

theorem longSigns_nonempty : ∀ op ∈ longSigns, op.toList ≠ [] := by
  decide

theorem signs_nonempty : ∀ op ∈ signs, op.toList ≠ [] := by
  decide

theorem pound_of_isPrefixOf :
    ∀ op ∈ signs, "#".toList.isPrefixOf op.toList = true → op = "#" := by
  decide

theorem colons_of_isPrefixOf :
    ∀ op ∈ signs, "::".toList.isPrefixOf op.toList = true → op = "::" := by
  decide

theorem tailSigns_known : ∀ op ∈ tailSigns, op ∈ longSigns ∨ op.toList.length = 1 := by
  decide

/-! ### Answers about a word and what follows it -/

theorem startsPunct_angle {s : Token} {us : List TokenTree} (text : s.text = "<") :
    ∀ op ∈ tailSigns, startsPunct op (.token s :: us) = false := by
  simp [tailSigns, startsPunct, startsChars, text]

namespace SameAhead

variable {r r' : List TokenTree}

/-- The same operators after a token that is no operator. -/
theorem after (h : SameAhead r r') {p : TokenKind → Bool} (word : p .punct = false)
    (starts : startsKind p r = true) {op : String} (mem : op ∈ tailSigns) :
    startsPunct op (r.drop 1) = startsPunct op (r'.drop 1) := by
  obtain ⟨t, us, rfl, known⟩ := startsKind_token starts
  refine h.tail t us rfl (fun punct => ?_) op mem
  simp [punct, word] at known

theorem startsLoneLifetime (h : SameAhead r r') :
    TypeGrammar.startsLoneLifetime r = TypeGrammar.startsLoneLifetime r' := by
  have front : startsLifetime r = startsLifetime r' := startsKind_of_shape h.front _
  unfold TypeGrammar.startsLoneLifetime
  cases on : startsLifetime r with
  | false => rw [← front, on, Bool.false_and, Bool.false_and]
  | true => rw [← front, on, h.after rfl on (by decide)]

theorem startsBinding (h : SameAhead r r') :
    TypeGrammar.startsBinding r = TypeGrammar.startsBinding r' := by
  have front : startsIdentifier r = startsIdentifier r' := startsKind_of_shape h.front _
  unfold TypeGrammar.startsBinding
  cases on : startsIdentifier r with
  | false => rw [← front, on, Bool.false_and, Bool.false_and]
  | true => rw [← front, on, h.after rfl on (by decide)]

theorem startsConstraint (h : SameAhead r r') :
    TypeGrammar.startsConstraint r = TypeGrammar.startsConstraint r' := by
  have front : startsIdentifier r = startsIdentifier r' := startsKind_of_shape h.front _
  unfold TypeGrammar.startsConstraint
  rw [← front, Bool.and_assoc, Bool.and_assoc]
  cases on : startsIdentifier r with
  | false => rw [Bool.false_and, Bool.false_and]
  | true => rw [h.after rfl on (by decide), h.after rfl on (by decide)]

theorem startsFnName (h : SameAhead r r') :
    TypeGrammar.startsFnName r = TypeGrammar.startsFnName r' := by
  have front : startsIdentifier r = startsIdentifier r' := startsKind_of_shape h.front _
  have front' := startsWord_of_shape h.front "_"
  unfold TypeGrammar.startsFnName
  rw [← front, ← front', Bool.and_assoc, Bool.and_assoc]
  cases on : startsIdentifier r || startsWord "_" r with
  | false => rw [Bool.false_and, Bool.false_and]
  | true =>
    have word : startsKind (fun k => k == .identifier || k == .keyword) r = true := by
      obtain identifier | hole := Bool.or_eq_true_iff.1 on
      · obtain ⟨t, us, rfl, kind⟩ := startsKind_token identifier
        simpa [startsKind, token?] using .inl (beq_iff_eq.1 kind)
      · obtain ⟨t, us, rfl, isWord⟩ := startsWord_token hole
        simpa [startsKind, token?] using isWord.1.symm
    rw [h.after rfl word (by decide), h.after rfl word (by decide)]

theorem startsAttribute (h : SameAhead r r') :
    TypeGrammar.startsAttribute r = TypeGrammar.startsAttribute r' := by
  have front : startsPunct "#" r = startsPunct "#" r' := startsChars_of_shape h.front _
  unfold TypeGrammar.startsAttribute
  cases on : startsPunct "#" r with
  | false => rw [← front, on, Bool.false_and, Bool.false_and]
  | true => rw [← front, on, h.bracket on]

end SameAhead

namespace Alike

variable {r r' : List TokenTree}

/-- Operators that are asked for in types. -/
theorem startsPunct (h : Alike r r') {op : String}
    (known : op ∈ longSigns ∨ op.toList.length = 1) :
    TokenTree.startsPunct op r = TokenTree.startsPunct op r' := by
  obtain same | ⟨t, s, us, t', us', rfl, word, -, rfl, word', -⟩ := h
  · obtain long | single := known
    · exact same.long op long
    · obtain ⟨c, eq⟩ := List.length_eq_one_iff.1 single
      rw [TokenTree.startsPunct, TokenTree.startsPunct, eq, startsChars_of_shape same.front]
  · have nonempty : op.toList ≠ [] := by
      obtain long | single := known
      · exact longSigns_nonempty op long
      · intro eq
        simp [eq] at single
    rw [startsPunct_word word.kind_ne nonempty, startsPunct_word word'.kind_ne nonempty]

theorem startsGroup (h : Alike r r') (d : Delimiter) :
    TokenTree.startsGroup d r = TokenTree.startsGroup d r' := by
  obtain same | ⟨t, s, us, t', us', rfl, -, -, rfl, -⟩ := h
  · exact startsGroup_of_shape same.front d
  · rfl

theorem isEmpty (h : Alike r r') : r.isEmpty = r'.isEmpty := by
  obtain same | ⟨t, s, us, t', us', rfl, -, -, rfl, -⟩ := h
  · exact isEmpty_of_shape same.front
  · rfl

/-- Kinds of tokens other than words. -/
theorem startsKind (h : Alike r r') {p : TokenKind → Bool} (keyword : p .keyword = false)
    (identifier : p .identifier = false) :
    TokenTree.startsKind p r = TokenTree.startsKind p r' := by
  obtain same | ⟨t, s, us, t', us', rfl, ⟨kind, -⟩, -, rfl, ⟨kind', -⟩, -⟩ := h
  · exact startsKind_of_shape same.front p
  · obtain kind | kind := kind <;> obtain kind' | kind' := kind' <;>
      simp [TokenTree.startsKind, token?, kind, kind', keyword, identifier]

theorem startsMut (h : Alike r r') : startsWord "mut" r = startsWord "mut" r' := by
  obtain same | ⟨t, s, us, t', us', rfl, ⟨-, text⟩, -, rfl, -, ne, -⟩ := h
  · exact startsWord_of_shape same.front "mut"
  · simp only [List.mem_cons, not_or] at ne
    simp [startsWord, token?, text, ne]

theorem startsLoneLifetime (h : Alike r r') :
    TypeGrammar.startsLoneLifetime r = TypeGrammar.startsLoneLifetime r' := by
  obtain same | ⟨t, s, us, t', us', rfl, ⟨kind, -⟩, -, rfl, ⟨kind', -⟩, -⟩ := h
  · exact same.startsLoneLifetime
  · obtain kind | kind := kind <;> obtain kind' | kind' := kind' <;>
      simp [TypeGrammar.startsLoneLifetime, startsLifetime, TokenTree.startsKind, token?, kind,
        kind', (by decide : (TokenKind.keyword == .lifetime) = false),
        (by decide : (TokenKind.identifier == .lifetime) = false)]

theorem startsBinding (h : Alike r r') :
    TypeGrammar.startsBinding r = TypeGrammar.startsBinding r' := by
  obtain same | ⟨t, s, us, t', us', rfl, -, text, rfl, -, -, equals, -⟩ := h
  · exact same.startsBinding
  · simp [TypeGrammar.startsBinding, startsPunct_angle text "=" (by decide), equals]

theorem startsConstraint (h : Alike r r') :
    TypeGrammar.startsConstraint r = TypeGrammar.startsConstraint r' := by
  obtain same | ⟨t, s, us, t', us', rfl, -, text, rfl, -, -, -, colon⟩ := h
  · exact same.startsConstraint
  · rw [startsColon] at colon
    simp [TypeGrammar.startsConstraint, startsPunct_angle text ":" (by decide), Bool.and_assoc,
      colon]

theorem startsFnName (h : Alike r r') :
    TypeGrammar.startsFnName r = TypeGrammar.startsFnName r' := by
  obtain same | ⟨t, s, us, t', us', rfl, -, text, rfl, -, -, -, colon⟩ := h
  · exact same.startsFnName
  · rw [startsColon] at colon
    simp [TypeGrammar.startsFnName, startsPunct_angle text ":" (by decide), Bool.and_assoc, colon]

theorem startsAttribute (h : Alike r r') :
    TypeGrammar.startsAttribute r = TypeGrammar.startsAttribute r' := by
  obtain same | ⟨t, s, us, t', us', rfl, word, -, rfl, word', -⟩ := h
  · exact same.startsAttribute
  · simp [TypeGrammar.startsAttribute, startsPunct_word word.kind_ne (by decide : "#".toList ≠ []),
      startsPunct_word word'.kind_ne (by decide : "#".toList ≠ [])]

theorem startsArguments (h : Alike r r') (inExpr : Bool) :
    Parse.startsArguments inExpr r = Parse.startsArguments inExpr r' := by
  unfold Parse.startsArguments
  rw [h.startsPunct (.inr rfl : "<" ∈ longSigns ∨ _), h.startsPunct (.inl (by decide : "<=" ∈ _)),
    h.startsPunct (.inl (by decide : "::" ∈ _))]
  obtain same | ⟨t, s, us, t', us', rfl, -, -, rfl, word', -⟩ := h
  · have colons := same.long "::" (by decide)
    cases on : TokenTree.startsPunct "::" r' with
    | false => simp
    | true => rw [same.turbofish (colons.trans on)]
  · simp [startsPunct_word word'.kind_ne (by decide : "::".toList ≠ [])]

/-- A binder changes its place only if there is one. -/
theorem same (h : Alike r r') (off : startsWord "for" r = false) : SameAhead r r' := by
  obtain same | ⟨t, s, us, t', us', rfl, ⟨kind, text⟩, -⟩ := h
  · exact same
  · obtain kind | kind := kind <;> simp [startsWord, token?, kind, text] at off

/-- A binder that changes its place leaves another word at the front. -/
theorem sameFront (h : Alike r r') (front : shape r = shape r') : SameAhead r r' := by
  obtain same | ⟨t, s, us, t', us', rfl, ⟨-, text⟩, -, rfl, -, ne, -⟩ := h
  · exact same
  · simp only [shape, Shape.token.injEq] at front
    simp [← front.2, text] at ne

end Alike

/-! ### Answers that spelled chunks give -/

section Spelled

variable {u v : View} {qs ps : List Chunk}
  {ts ts' r r' : List TokenTree}

theorem erase_eq_iff {t t' : Token} :
    t.erase = t'.erase ↔ t.kind = t'.kind ∧ t.text = t'.text ∧ t.joint = t'.joint := by
  cases t
  cases t'
  simp [Token.erase]

/-- A word in front of trees with the same operators. -/
theorem SameAhead.word {t t' : Token} (kind : t.kind ≠ .punct) (same : t'.erase = t.erase)
    (h : ∀ op ∈ tailSigns, startsPunct op r = startsPunct op r') :
    SameAhead (.token t :: r) (.token t' :: r') := by
  obtain ⟨kinds, text, -⟩ := erase_eq_iff.1 same
  have kind' : t'.kind ≠ .punct := kinds ▸ kind
  refine ⟨by simp [shape, kinds, text], ?_, ?_, ?_, ?_⟩
  · intro op long
    have nonempty := longSigns_nonempty op long
    rw [startsPunct_word kind nonempty, startsPunct_word kind' nonempty]
  · intro s us eq _ op tail
    cases eq
    exact h op tail
  · rw [startsPunct_word kind (by decide)]
    exact nofun
  · rw [startsPunct_word kind (by decide)]
    exact nofun

/-- A group in front of any trees. -/
theorem SameAhead.group {d : Delimiter} {us us' : List TokenTree} {o e o' e' : Span} :
    SameAhead (.group d us o e :: r) (.group d us' o' e' :: r') := by
  refine ⟨rfl, ?_, ?_, ?_, ?_⟩
  · intro op long
    simp only [longSigns, List.mem_cons, List.not_mem_nil, or_false] at long
    obtain rfl | rfl | rfl | rfl | rfl := long <;> rfl
  · simp
  · simp [startsPunct, startsChars]
  · simp [startsPunct, startsChars]

theorem startsPunct_spelled {binary : Bool} {op : String} (sign : op ∈ signs)
    (h : SpellsChars (extensions binary op) op.toList ts r) {long : String}
    (known : long ∈ longSigns ∨ long.toList.length = 1) :
    startsPunct long (ts ++ r) = long.toList.isPrefixOf op.toList := by
  have nonempty := signs_nonempty op sign
  refine h.starts nonempty long.toList ?_
  obtain mem | single := known
  · exact guarded_long binary op sign long mem
  · obtain ⟨c, eq⟩ := List.length_eq_one_iff.1 single
    obtain ⟨d, ds, eq'⟩ := List.exists_cons_of_ne_nil nonempty
    rw [eq, eq']
    cases ds <;> simp [guarded, List.isPrefixOf]

/-- An operator in front of trees with the same answers. They matter only after `#` and `::`. -/
theorem SameAhead.mark {binary : Bool} {op : String} {us us' : List TokenTree} (sign : op ∈ signs)
    (hq : SpellsChars (extensions binary op) op.toList us r)
    (hp : SpellsChars (extensions binary op) op.toList us' r')
    (h : op = "#" ∨ op = "::" → Alike r r') :
    SameAhead (us ++ r) (us' ++ r') := by
  obtain ⟨c, cs, eq⟩ := List.exists_cons_of_ne_nil (signs_nonempty op sign)
  have starts := fun long => @startsPunct_spelled _ _ _ _ sign hq long
  have starts' := fun long => @startsPunct_spelled _ _ _ _ sign hp long
  rw [eq] at hq hp
  obtain ⟨t, ws, rfl, kind, text, -, tail⟩ := hq
  obtain ⟨t', ws', rfl, kind', text', -, tail'⟩ := hp
  refine ⟨by simp [shape, kind, text, kind', text'], ?_, ?_, ?_, ?_⟩
  · intro long mem
    rw [starts _ (.inl mem), starts' _ (.inl mem)]
  · intro s xs eq off
    cases eq
    exact absurd kind off
  · intro pound
    rw [starts _ (.inr rfl)] at pound
    obtain rfl := pound_of_isPrefixOf op sign pound
    cases eq
    cases tail
    cases tail'
    exact (h (.inl rfl)).startsGroup .bracket
  · intro colons
    rw [starts _ (.inl (by decide))] at colons
    obtain rfl := colons_of_isPrefixOf op sign colons
    cases eq
    obtain ⟨s, xs, rfl, -, -, -, tail⟩ := tail
    obtain ⟨s', xs', rfl, -, -, -, tail'⟩ := tail'
    cases tail
    cases tail'
    exact (h (.inr rfl)).startsPunct (.inr rfl)

/-- The front of a spelled binder. -/
theorem spells_binder {b : Binder} {more : List Chunk} (lt : b.lt.text = "<")
    (h : Spells v (.word b.forToken :: .mark b.lt false :: more) ts r) :
    ∃ t s us, ts = .token t :: .token s :: us ∧ b.forToken.kind ≠ .punct ∧
      t.erase = b.forToken.erase ∧ s.text = "<" := by
  obtain ⟨⟨kind, -⟩, t, _, rfl, same, h⟩ := spells_word.1 h
  obtain ⟨-, _, us, rfl, chars, -⟩ := spells_mark.1 h
  rw [lt] at chars
  obtain ⟨s, _, rfl, -, text, -⟩ := chars
  exact ⟨t, s, _, rfl, kind, same, text⟩

theorem Token.IsWord.of_erase {w : String} {t t' : Token} (h : t.IsWord w)
    (same : t'.erase = t.erase) : t'.IsWord w := by
  obtain ⟨kind, text, -⟩ := erase_eq_iff.1 same
  rw [IsWord, kind, text]
  exact h

/-- A view without identifiers that are spelled like the keywords `for` and `mut`. -/
def View.Proper (v : View) : Prop :=
  ∀ t, v.word t → t.kind = .identifier → t.text ≠ "for" ∧ t.text ≠ "mut"

/-- Where chunks and what they are printed as are both spelled, the same is ahead. -/
theorem Reprints.alike (proper : v.Proper) (h : Reprints qs ps) (hq : Spells u qs ts r)
    (hp : Spells v ps ts' r') (rest : Alike r r') : Alike (ts ++ r) (ts' ++ r') := by
  induction h generalizing ts ts' with
  | nil =>
    cases spells_nil.1 hq
    cases spells_nil.1 hp
    exact rest
  | same p _ ih =>
    cases p with
    | word t =>
      obtain ⟨⟨kind, -⟩, s, us, rfl, same, hq⟩ := spells_word.1 hq
      obtain ⟨-, s', us', rfl, same', hp⟩ := spells_word.1 hp
      refine .inl (SameAhead.word ?_ (same'.trans same.symm) fun op tail => ?_)
      · rwa [(erase_eq_iff.1 same).1]
      · exact (ih hq hp).startsPunct (tailSigns_known op tail)
    | mark t binary =>
      obtain ⟨⟨-, -, sign⟩, xs, us, rfl, chars, hq⟩ := spells_mark.1 hq
      obtain ⟨-, xs', us', rfl, chars', hp⟩ := spells_mark.1 hp
      rw [List.append_assoc, List.append_assoc]
      exact .inl (SameAhead.mark sign chars chars' fun _ => ih hq hp)
    | group d inner =>
      obtain ⟨xs, o, e, us, rfl, -, hq⟩ := spells_group.1 hq
      obtain ⟨xs', o', e', us', rfl, -, hp⟩ := spells_group.1 hp
      exact .inl SameAhead.group
    | raw d tokens =>
      obtain ⟨xs, o, e, us, rfl, -, hq⟩ := spells_raw.1 hq
      obtain ⟨xs', o', e', us', rfl, -, hp⟩ := spells_raw.1 hp
      exact .inl SameAhead.group
    | verbatim tree => exact absurd (spells_cons.1 hq) (by simp [Chunk.Spelled])
  | inside d _ _ _ ih =>
    obtain ⟨xs, o, e, us, rfl, -, hq⟩ := spells_group.1 hq
    obtain ⟨xs', o', e', us', rfl, -, hp⟩ := spells_group.1 hp
    exact .inl SameAhead.group
  | unwrapped outer inner modifier _ _ ih =>
    obtain ⟨xs, o, e, us, rfl, -, hq⟩ := spells_group.1 hq
    obtain ⟨xs', o', e', us', rfl, -, hp⟩ := spells_group.1 hp
    exact .inl SameAhead.group
  | binder b forToken lt _ ih =>
    obtain ⟨t, s, us, rfl, kind, same, text⟩ := spells_binder lt hq
    obtain ⟨t', s', us', rfl, -, same', text'⟩ := spells_binder lt hp
    refine .inl (SameAhead.word ?_ (same'.trans same.symm) fun op tail => ?_)
    · rwa [(erase_eq_iff.1 same).1]
    · exact (startsPunct_angle text op tail).trans (startsPunct_angle text' op tail).symm
  | @moved _ _ _ modifier b b' forToken lt dyn query _ ih =>
    obtain ⟨t, s, us, rfl, kind, same, text⟩ := spells_binder lt hq
    obtain ⟨-, t', ws, rfl, same', hp⟩ := spells_word.1 hp
    have word := dyn.of_erase same'
    have tail : startsPunct "=" (ws ++ r') = false ∧ startsColon (ws ++ r') = false := by
      cases modifier with
      | none =>
        obtain ⟨t₂, s₂, us, rfl, -, same₂, -⟩ := spells_binder lt hp
        have off := (forToken.of_erase same₂).kind_ne
        exact ⟨startsPunct_word off (by decide),
          by simp [startsColon, startsPunct_word off (by decide : ":".toList ≠ [])]⟩
      | some m =>
        obtain ⟨-, _, us, rfl, chars, -⟩ := spells_mark.1 hp
        rw [query m rfl] at chars
        obtain ⟨s₂, _, rfl, -, text₂, -⟩ := chars
        replace text₂ : s₂.text = "?" := text₂
        simp [startsColon, startsPunct, startsChars, text₂]
    exact .inr ⟨t, s, _, t', _, rfl, forToken.of_erase same, text, rfl, ⟨word.1, rfl⟩,
      by simp [word.2], tail⟩
  | movedInside b b' forToken lt dyn _ ih =>
    obtain ⟨t, s, us, rfl, kind, same, text⟩ := spells_binder lt hq
    obtain ⟨-, t', _, rfl, same', hp⟩ := spells_word.1 hp
    obtain ⟨xs', o', e', us', rfl, -, hp⟩ := spells_group.1 hp
    have word := dyn.of_erase same'
    exact .inr ⟨t, s, _, t', _, rfl, forToken.of_erase same, text, rfl, ⟨word.1, rfl⟩,
      by simp [word.2], rfl, rfl⟩
  | @dropped _ _ word mark b forToken lt isWord root sign _ ih =>
    obtain ⟨t, s, us, rfl, kind, same, text⟩ := spells_binder lt hq
    obtain ⟨⟨-, allowed⟩, t', _, rfl, same', hp⟩ := spells_word.1 hp
    obtain ⟨⟨-, -, known⟩, xs', us', rfl, chars, hp⟩ := spells_mark.1 hp
    have isWord' := isWord.of_erase same'
    have ne : t'.text ∉ ["for", "mut"] := by
      rw [isWord'.2]
      obtain identifier | root := root
      · simpa using proper word allowed identifier
      · simp only [pathRoots, List.mem_cons, List.not_mem_nil, or_false] at root
        obtain root | root | root | root | root := root <;> rw [root] <;> decide
    have tail : startsPunct "=" (xs' ++ (us' ++ r')) = false ∧
        startsColon (xs' ++ (us' ++ r')) = false := by
      rw [startsColon, startsPunct_spelled known chars (.inr rfl),
        startsPunct_spelled known chars (.inr rfl),
        startsPunct_spelled known chars (.inl (by decide))]
      obtain sign | sign := sign <;> rw [sign] <;> decide
    rw [← List.append_assoc] at tail
    exact .inr ⟨t, s, _, t', _, rfl, forToken.of_erase same, text, rfl, ⟨isWord'.1, rfl⟩, ne, tail⟩

end Spelled

end TypeGrammar
