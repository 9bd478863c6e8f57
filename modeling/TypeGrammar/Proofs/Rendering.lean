import Mathlib.Data.List.Chain
import TypeGrammar.Proofs.Lexemes
import TypeGrammar.Proofs.Nesting
import TypeGrammar.TokenTree.Render

/-!
# Canonical text is read again

The canonical text of token trees has tokens, and they have the same flat view. Two atoms that stand
next to each other without a blank are read apart: what follows a word, a number or a literal is a
stop, and what follows an operator begins no comment with it. The characters of operators are tokens
of their own, so for the flat view it does not matter if two operators stand next to each other; the
last character of the first is joint to the second, then.
-/

namespace TypeGrammar

open TokenTree

/-! ## Texts that are divided into tokens -/

theorem tokensAt_known (limit : Nat) (cs : List Char) (file : String) (p : Place) :
    ∀ t ∈ tokensAt file p (piecesUpTo limit cs), t.kind ≠ .eof := by
  induction limit generalizing cs p with
  | zero => cases cs <;> exact fun _ mem => absurd mem List.not_mem_nil
  | succ limit ih =>
    cases cs with
    | nil => exact fun _ mem => absurd mem List.not_mem_nil
    | cons c cs =>
      cases scanned : Lexeme.scan c cs with
      | mk sort n =>
      simp only [piecesUpTo, scanned, tokensAt_cons]
      cases sort with
      | gap | fault => exact ih _ _
      | token kind => exact List.forall_mem_cons.2 ⟨(Lexeme.scan_token scanned).1, ih _ _⟩

/-- A text has trees if no piece of it is faulty and its tokens nest. -/
theorem tokenize_ok {source file : String} {line : Int} {ts : List TokenTree} :
    tokenize source file line = .ok ts ↔
      faultsAt file ⟨line, 1⟩ (pieces source.toList) = [] ∧
        Nests (tokensAt file ⟨line, 1⟩ (pieces source.toList)) ts := by
  have known : ∀ t ∈ tokensAt file ⟨line, 1⟩ (pieces source.toList), t.kind ≠ .eof :=
    tokensAt_known _ _ _ _
  unfold tokenize lex
  simp only
  split
  · rename_i quiet
    have read (tokens : List Token) : (Except.ok tokens >>= nest) = nest tokens := rfl
    unfold tokensAt at known ⊢
    rw [read, nest_ok, List.takeWhile_append_of_pos fun t mem => bne_iff_ne.2 (known t mem),
      List.takeWhile_cons_of_neg (by simp), List.append_nil]
    exact (and_iff_right quiet).symm
  · rename_i loud
    constructor
    · intro h
      cases h
    · exact fun h => absurd h.1 loud

/-- A text that is divided into gaps and into the given tokens, which stand outside any file. -/
inductive Scanned : List Char → List Token → Prop
  | nil : Scanned [] []
  | gap {c : Char} {cs : List Char} {n : Nat} {tokens : List Token} :
      Lexeme.scan c cs = ⟨.gap, n⟩ → Scanned (cs.drop n) tokens → Scanned (c :: cs) tokens
  | token {c : Char} {cs : List Char} {kind : TokenKind} {n : Nat} {tokens : List Token} :
      Lexeme.scan c cs = ⟨.token kind, n⟩ → Scanned (cs.drop n) tokens →
      Scanned (c :: cs) (⟨kind, String.ofList (c :: cs.take n), .callSite,
        kind == .punct && (cs.drop n).head?.any isPunctChar⟩ :: tokens)

theorem Scanned.pieces {cs : List Char} {tokens : List Token} (h : Scanned cs tokens) {limit : Nat}
    (enough : cs.length ≤ limit) (file : String) (p : Place) :
    faultsAt file p (piecesUpTo limit cs) = [] ∧
      (tokensAt file p (piecesUpTo limit cs)).map Token.erase = tokens := by
  induction h generalizing limit p with
  | nil => cases limit <;> exact ⟨rfl, rfl⟩
  | @gap c cs n tokens scanned _ ih | @token c cs kind n tokens scanned _ ih =>
    obtain ⟨limit, rfl⟩ : ∃ l, limit = l + 1 := ⟨limit - 1, by simp at enough; omega⟩
    have short : (cs.drop n).length ≤ limit := by
      simp only [List.length_cons, List.length_drop] at enough ⊢
      omega
    obtain ⟨quiet, same⟩ := ih short (p.after (c :: cs.take n))
    simp only [piecesUpTo, scanned, faultsAt_cons, tokensAt_cons]
    first | exact ⟨quiet, same⟩ | exact ⟨quiet, congrArg _ same⟩

/-- A text that is divided into tokens with the items of some trees has trees, which are those of
the tokens. -/
theorem Scanned.tokenize_ok {source : String} {tokens : List Token} {ts : List TokenTree}
    (h : Scanned source.toList tokens) (items : tokens.map Token.item = flatten ts) (file : String)
    (line : Int) : ∃ us, tokenize source file line = .ok us ∧ flatten us = flatten ts ∧
      Nests tokens (eraseAll us) := by
  obtain ⟨quiet, same⟩ := h.pieces (Nat.le_refl _) file ⟨line, 1⟩
  have items' : (tokensAt file ⟨line, 1⟩ (TypeGrammar.pieces source.toList)).map Token.item =
      flatten ts := by
    rw [← items, ← same, List.map_map]
    rfl
  obtain ⟨us, nested, flat⟩ := nests_flatten ts items'
  exact ⟨us, TypeGrammar.tokenize_ok.2 ⟨quiet, nested⟩, flat, same ▸ nested.erase⟩

/-! ## Atoms of marks -/

/-- The atom of a mark that stands alone. -/
def Mark.atom : Mark → Atom
  | .token t => .token t.kind t.text
  | .edge text => .delimiter text

/-- What the characters of an operator give one by one, an operator gives as a whole. -/
structure Additive {β : Type} (f : Atom → List β) : Prop where
  nothing : f (.token .punct "") = []
  append : ∀ a b, f (.token .punct (a ++ b)) = f (.token .punct a) ++ f (.token .punct b)
  noEdge : f (.delimiter "") = []

namespace Additive

variable {β : Type} {f : Atom → List β}

theorem pendingAtom (h : Additive f) (pending : String) :
    (TypeGrammar.pendingAtom pending).flatMap f = f (.token .punct pending) := by
  unfold TypeGrammar.pendingAtom
  split
  · rename_i empty
    rw [empty, h.nothing]
    rfl
  · simp

theorem edge (h : Additive f) (text : String) :
    (if text = "" then [] else [Atom.delimiter text]).flatMap f = f (.delimiter text) := by
  split
  · rename_i empty
    rw [empty, h.noEdge]
    rfl
  · simp

/-- The atoms of some marks give what the marks give one by one. -/
theorem mergeAfter (h : Additive f) (pending : String) (ms : List Mark) :
    (TypeGrammar.mergeAfter pending ms).flatMap f =
      f (.token .punct pending) ++ ms.flatMap fun m => f m.atom := by
  fun_induction TypeGrammar.mergeAfter pending ms with
  | case1 pending => simp [h.pendingAtom]
  | case2 pending t ms punct joint ih => simp [ih, Mark.atom, punct, h.append]
  | case3 pending t ms punct apart ih => simp [ih, Mark.atom, punct, h.append, h.nothing]
  | case4 pending t ms other ih => simp [ih, Mark.atom, h.pendingAtom, h.nothing]
  | case5 pending text ms ih => simp [ih, Mark.atom, h.pendingAtom, h.edge, h.nothing]

end Additive

/-! ## Items of atoms -/

/-- The items of the characters of an operator. -/
def operatorItems (cs : List Char) : List FlatItem :=
  cs.map fun c => .token .punct (String.singleton c)

/-- The items of the edge of a group. -/
def edgeItems (text : String) : List FlatItem :=
  text.toList.flatMap fun c => ((Lexeme.bracketKind? c).map (itemOf · "")).toList

/-- The items of a token or of an edge. -/
def Mark.items : Mark → List FlatItem
  | .token t => t.flat
  | .edge text => edgeItems text

/-- The items of an atom. -/
def Atom.items : Atom → List FlatItem
  | .token kind text => if kind = .punct then operatorItems text.toList else [.token kind text]
  | .delimiter text => edgeItems text

theorem Token.flat_eq (t : Token) :
    t.flat = if t.kind = .punct then operatorItems t.text.toList else [.token t.kind t.text] := by
  unfold Token.flat
  split
  · rename_i punct
    rw [if_pos punct]
    rfl
  · rename_i other
    rw [if_neg other]

theorem edgeItems_opening (d : Delimiter) : edgeItems d.opening = flatDelimiter d d.opening := by
  cases d <;> rfl

theorem edgeItems_closing (d : Delimiter) : edgeItems d.closing = flatDelimiter d d.closing := by
  cases d <;> rfl

mutual

theorem flat_marks : (t : TokenTree) → (marks t).flatMap Mark.items = t.flat
  | .token t => by simp [marks, Mark.items, flat]
  | .group d ts o e => by
    simp [marks, Mark.items, flat, flatten_marks ts, edgeItems_opening, edgeItems_closing]

theorem flatten_marks : (ts : List TokenTree) → (marksAll ts).flatMap Mark.items = flatten ts
  | [] => rfl
  | t :: ts => by simp [marksAll, flatten, flat_marks t, flatten_marks ts]

end

theorem additive_items : Additive Atom.items where
  nothing := rfl
  append a b := by simp [Atom.items, operatorItems]
  noEdge := rfl

theorem Mark.items_eq (m : Mark) : m.items = m.atom.items := by
  cases m with
  | token t => exact t.flat_eq
  | edge => rfl

theorem items_atoms (ts : List TokenTree) : (atoms ts).flatMap Atom.items = flatten ts := by
  rw [atoms, additive_items.mergeAfter, ← flatten_marks, funext Mark.items_eq]
  rfl

/-! ## Atoms that can be read -/

/-- True of two characters that open a comment if they stand next to each other. -/
def OpensComment (c d : Char) : Prop :=
  c = '/' ∧ (d = '/' ∨ d = '*')

instance (c d : Char) : Decidable (OpensComment c d) :=
  inferInstanceAs (Decidable (_ ∧ _))

/-- Characters of an operator in which no comment opens. -/
structure OperatorChars (cs : List Char) : Prop where
  punct : ∀ c ∈ cs, isPunctChar c = true
  apart : cs.IsChain fun c d => ¬ OpensComment c d

/-- The text of a token of the given kind, in front of some text. -/
def IsLexeme (kind : TokenKind) (text : String) : Prop :=
  ∃ c cs n, Lexeme.scan c cs = ⟨.token kind, n⟩ ∧ text = String.ofList (c :: cs.take n)

/-- The text of a token that is neither a delimiter nor punctuation. -/
def IsWordText (kind : TokenKind) (text : String) : Prop :=
  kind.opens? = none ∧ kind.closes? = none ∧ IsLexeme kind text

/-- No identifier of a text is spelled like a keyword. -/
theorem IsWordText.not_keyword {kind : TokenKind} {text : String} (h : IsWordText kind text)
    (identifier : kind = .identifier) : text ∉ keywords := by
  obtain ⟨-, -, c, cs, n, scanned, rfl⟩ := h
  rw [identifier] at scanned
  exact Lexeme.scan_identifier scanned

/-- An atom that is read alone. -/
def Atom.Sound : Atom → Prop
  | .token kind text =>
    if kind = .punct then text ≠ "" ∧ OperatorChars text.toList else IsWordText kind text
  | .delimiter text => ∃ x ∈ Lexeme.brackets, text = String.singleton x.1

/-- A token or an edge that is read alone. -/
def Mark.Sound : Mark → Prop
  | .token t =>
    if t.kind = .punct then ∃ c, isPunctChar c = true ∧ t.text = String.singleton c
    else IsWordText t.kind t.text
  | .edge text => ∃ d : Delimiter, text = d.opening ∨ text = d.closing

/-- A mark that is no character with which `c` opens a comment. -/
def Mark.FreeAfter (c : Char) : Mark → Prop
  | .token t => t.kind = .punct → ∀ d, t.text = String.singleton d → ¬ OpensComment c d
  | .edge _ => True

/-- Punctuation that is joint to what follows opens no comment with it. -/
def Mark.Apart : Mark → Mark → Prop
  | .token t, m =>
    t.kind = .punct → t.joint = true → ∀ c, t.text = String.singleton c → m.FreeAfter c
  | .edge _, _ => True

/-- Trees whose tokens can be read one by one. -/
structure Renderable (ts : List TokenTree) : Prop where
  sound : ∀ m ∈ marksAll ts, m.Sound
  apart : (marksAll ts).IsChain Mark.Apart

theorem OperatorChars.nil : OperatorChars [] :=
  ⟨fun _ mem => absurd mem List.not_mem_nil, .nil⟩

theorem OperatorChars.concat {cs : List Char} {c : Char} (h : OperatorChars cs)
    (punct : isPunctChar c = true) (free : ∀ b ∈ cs.getLast?, ¬ OpensComment b c) :
    OperatorChars (cs ++ [c]) where
  punct d mem := by
    obtain mem | mem := List.mem_append.1 mem
    · exact h.punct d mem
    · rwa [List.mem_singleton.1 mem]
  apart := List.isChain_append.2 ⟨h.apart, .singleton c, fun b last d first => by
    cases Option.some.inj first
    exact free b last⟩

theorem sound_pendingAtom {pending : String} (h : OperatorChars pending.toList) :
    ∀ a ∈ pendingAtom pending, a.Sound := by
  unfold pendingAtom
  split
  · exact fun _ mem => absurd mem List.not_mem_nil
  · rename_i nonempty
    rintro a mem
    cases List.mem_singleton.1 mem
    exact ⟨nonempty, h⟩

theorem sound_edge {text : String} (h : (Mark.edge text).Sound) :
    ∀ a ∈ if text = "" then [] else [Atom.delimiter text], a.Sound := by
  split
  · exact fun _ mem => absurd mem List.not_mem_nil
  · rename_i nonempty
    rintro a mem
    cases List.mem_singleton.1 mem
    obtain ⟨d, rfl | rfl⟩ := h <;> cases d <;>
      first | exact absurd rfl nonempty | (simp only [Atom.Sound]; decide)

/-- An operator goes on with punctuation that is joint to it. -/
theorem OperatorChars.goesOn {pending : String} {t : Token} (h : OperatorChars pending.toList)
    (punct : t.kind = .punct) (sound : (Mark.token t).Sound)
    (free : ∀ c ∈ pending.toList.getLast?, (Mark.token t).FreeAfter c) :
    OperatorChars (pending ++ t.text).toList ∧
      ∃ c, t.text = String.singleton c ∧ (pending ++ t.text).toList.getLast? = some c := by
  obtain ⟨c, isPunct, text⟩ := (if_pos punct).mp sound
  rw [String.toList_append, text, String.toList_singleton, List.getLast?_concat]
  exact ⟨h.concat isPunct fun b last => free b last punct c text, c, rfl, rfl⟩

theorem sound_mergeAfter {pending : String} {ms : List Mark} (sound : ∀ m ∈ ms, m.Sound)
    (apart : ms.IsChain Mark.Apart) (chars : OperatorChars pending.toList)
    (free : ∀ c ∈ pending.toList.getLast?, ∀ m ∈ ms.head?, m.FreeAfter c) :
    ∀ a ∈ mergeAfter pending ms, a.Sound := by
  have nothing (ms : List Mark) : ∀ c ∈ "".toList.getLast?, ∀ m ∈ ms.head?, m.FreeAfter c :=
    fun _ last => absurd last (by simp)
  fun_induction mergeAfter pending ms with
  | case1 pending => exact sound_pendingAtom chars
  | case2 pending t ms punct joint ih =>
    obtain ⟨here, later⟩ := List.forall_mem_cons.1 sound
    obtain ⟨next, apart⟩ := List.isChain_cons.1 apart
    obtain ⟨longer, c, text, last⟩ := chars.goesOn punct here fun c last => free c last _ rfl
    refine ih later apart longer ?_
    rw [last]
    rintro _ ⟨⟩ m first
    exact next m first punct joint c text
  | case3 pending t ms punct alone ih =>
    obtain ⟨here, later⟩ := List.forall_mem_cons.1 sound
    obtain ⟨longer, c, text, last⟩ := chars.goesOn punct here fun c last => free c last _ rfl
    have nonempty : pending ++ t.text ≠ "" := by
      intro empty
      rw [empty] at last
      cases last
    exact List.forall_mem_cons.2
      ⟨⟨nonempty, longer⟩, ih later (List.isChain_cons.1 apart).2 .nil (nothing ms)⟩
  | case4 pending t ms other ih =>
    obtain ⟨here, later⟩ := List.forall_mem_cons.1 sound
    have word : (Atom.token t.kind t.text).Sound :=
      (if_neg other).mpr ((if_neg other).mp here)
    exact List.forall_mem_append.2 ⟨sound_pendingAtom chars, List.forall_mem_cons.2
      ⟨word, ih later (List.isChain_cons.1 apart).2 .nil (nothing ms)⟩⟩
  | case5 pending text ms ih =>
    obtain ⟨here, later⟩ := List.forall_mem_cons.1 sound
    exact List.forall_mem_append.2 ⟨List.forall_mem_append.2 ⟨sound_pendingAtom chars,
      sound_edge here⟩, ih later (List.isChain_cons.1 apart).2 .nil (nothing ms)⟩

theorem Renderable.atoms {ts : List TokenTree} (h : Renderable ts) : ∀ a ∈ atoms ts, a.Sound :=
  sound_mergeAfter h.sound h.apart .nil fun _ last => absurd last (by simp)

/-! ## Tokens of atoms -/

/-- The characters of an operator, each but the last joint to the next; `joint` tells if the last is
joint to what follows. -/
def operatorTokens (joint : Bool) : List Char → List Token
  | [] => []
  | c :: cs =>
    ⟨.punct, String.singleton c, .callSite, !cs.isEmpty || joint⟩ :: operatorTokens joint cs

/-- The delimiters in the text of the edge of a group. -/
def edgeTokens (text : String) : List Token :=
  text.toList.flatMap fun c =>
    ((Lexeme.bracketKind? c).map (Token.mk · (String.singleton c) .callSite false)).toList

/-- True of an operator. -/
def Atom.isPunct : Atom → Bool
  | token kind _ => kind == .punct
  | delimiter _ => false

/-- The tokens of an atom; `joint` tells if an operator is joint to what follows. -/
def Atom.tokens (joint : Bool) : Atom → List Token
  | .token kind text =>
    if kind = .punct then operatorTokens joint text.toList else [⟨kind, text, .callSite, false⟩]
  | .delimiter text => edgeTokens text

/-- True if an operator comes right after `prev`, without a blank. -/
def runsOn (before : Option Atom) (prev : Atom) (more : List Atom) : Bool :=
  more.head?.any fun cur => cur.isPunct && !needsBlank before prev cur

/-- The tokens of atoms that are laid out after `before`. -/
def layTokens (before : Option Atom) : List Atom → List Token
  | [] => []
  | prev :: more => prev.tokens (runsOn before prev more) ++ layTokens (some prev) more

/-- What the tokens of each atom give, joint or not, the tokens of all atoms give. -/
theorem map_layTokens {β : Type} {f : Token → β} {g : Atom → List β} {before : Option Atom}
    {as : List Atom} (same : ∀ a ∈ as, ∀ joint, (a.tokens joint).map f = g a) :
    (layTokens before as).map f = as.flatMap g := by
  induction as generalizing before with
  | nil => rfl
  | cons a as ih =>
    obtain ⟨here, later⟩ := List.forall_mem_cons.1 same
    rw [layTokens, List.map_append, here, ih later, List.flatMap_cons]

theorem Atom.tokens_word {a : Atom} (h : a.isPunct = false) (joint : Bool) :
    a.tokens joint = a.tokens false := by
  cases a with
  | delimiter => rfl
  | token kind text =>
    have word : kind ≠ .punct := by simpa [isPunct] using h
    rw [tokens, tokens, if_neg word, if_neg word]

/-! ### Items -/

theorem items_operatorTokens (joint : Bool) (cs : List Char) :
    (operatorTokens joint cs).map Token.item = operatorItems cs := by
  induction cs with
  | nil => rfl
  | cons c cs ih => exact congrArg (FlatItem.token .punct (String.singleton c) :: ·) ih

theorem items_edgeTokens (text : String) : (edgeTokens text).map Token.item = edgeItems text := by
  have item : ∀ x ∈ Lexeme.brackets, itemOf x.2 (String.singleton x.1) = itemOf x.2 "" := by
    decide
  rw [edgeTokens, edgeItems, List.map_flatMap]
  refine congrArg (text.toList.flatMap ·) (funext fun c => ?_)
  cases kind : Lexeme.bracketKind? c with
  | none => rfl
  | some k => exact congrArg (fun i => [i]) (item _ (Lexeme.bracketKind?_mem kind))

theorem items_atomTokens {a : Atom} (h : a.Sound) (joint : Bool) :
    (a.tokens joint).map Token.item = a.items := by
  cases a with
  | delimiter text => exact items_edgeTokens text
  | token kind text =>
    rw [Atom.tokens, Atom.items]
    split
    · exact items_operatorTokens joint _
    · rename_i word
      obtain ⟨opens, closes, -⟩ := (if_neg word).mp h
      exact congrArg (fun i => [i]) (itemOf_token opens closes)

theorem items_layTokens {before : Option Atom} {as : List Atom} (sound : ∀ a ∈ as, a.Sound) :
    (layTokens before as).map Token.item = as.flatMap Atom.items :=
  map_layTokens fun a mem => items_atomTokens (sound a mem)

/-! ## What may follow an atom -/

/-- A text that may stand right after an atom. -/
def Atom.Before : Atom → List Char → Prop
  | .token kind text, rest =>
    Stops rest ∨ kind = .punct ∧ ∀ c ∈ text.toList.getLast?, c ≠ '/'
  | .delimiter _, _ => True

theorem Atom.before_stop {rest : List Char} (stop : Stops rest) (a : Atom) : a.Before rest := by
  cases a with
  | token => exact .inl stop
  | delimiter => trivial

theorem OpensComment.not_stop {c d : Char} (h : OpensComment c d) : d ∉ stops := by
  obtain ⟨-, rfl | rfl⟩ := h <;> decide

/-- What is read first of an atom is punctuation if the atom is an operator. -/
theorem Atom.Sound.starts {a : Atom} (h : a.Sound) (rest : List Char) :
    (a.text.toList ++ rest).head?.any isPunctChar = a.isPunct := by
  cases a with
  | delimiter text =>
    obtain ⟨x, mem, rfl⟩ := h
    have word : ∀ x ∈ Lexeme.brackets, isPunctChar x.1 = false := by
      decide
    rw [Atom.text, String.toList_singleton]
    exact word x mem
  | token kind text =>
    by_cases punct : kind = .punct
    · subst punct
      obtain ⟨nonempty, chars⟩ : text ≠ "" ∧ OperatorChars text.toList := h
      obtain ⟨c, cs, eq⟩ :=
        List.exists_cons_of_ne_nil fun nil => nonempty (String.toList_eq_nil_iff.1 nil)
      simpa [Atom.text, Atom.isPunct, eq] using chars.punct c (eq ▸ List.mem_cons_self)
    · obtain ⟨-, -, c, cs, n, scanned, rfl⟩ := (if_neg punct).mp h
      have word : isPunctChar c = false := by
        by_contra on
        by_cases slash : c = '/'
        · subst slash
          exact punct (Lexeme.scan_slash_token scanned).1
        · rw [Lexeme.scan_punct (by simpa using on) fun eq => absurd eq slash] at scanned
          cases scanned
          exact punct rfl
      simpa [Atom.text, Atom.isPunct, word] using punct

theorem scanned_operator {cs rest : List Char} {tokens : List Token} (h : OperatorChars cs)
    (next : ∀ c ∈ cs.getLast?, ∀ d ∈ rest.head?, ¬ OpensComment c d) (more : Scanned rest tokens) :
    Scanned (cs ++ rest) (operatorTokens (rest.head?.any isPunctChar) cs ++ tokens) := by
  induction cs with
  | nil => exact more
  | cons c cs ih =>
    obtain ⟨punct, later⟩ := List.forall_mem_cons.1 h.punct
    obtain ⟨first, apart⟩ := List.isChain_cons.1 h.apart
    have free : ∀ d ∈ (cs ++ rest).head?, ¬ OpensComment c d := by
      cases cs with
      | nil => exact next c rfl
      | cons => exact first
    have scanned : Lexeme.scan c (cs ++ rest) = ⟨.token .punct, 0⟩ := by
      refine Lexeme.scan_punct punct fun slash d front => ?_
      exact ⟨fun eq => free d front ⟨slash, .inl eq⟩, fun eq => free d front ⟨slash, .inr eq⟩⟩
    have joint : (cs ++ rest).head?.any isPunctChar =
        (!cs.isEmpty || rest.head?.any isPunctChar) := by
      cases cs with
      | nil => rfl
      | cons d ds => simpa using later d List.mem_cons_self
    rw [operatorTokens, ← joint]
    refine .token scanned (ih ⟨later, apart⟩ fun b last => next b ?_)
    cases cs with
    | nil => cases last
    | cons => rwa [List.getLast?_cons_cons]

theorem scanned_word {kind : TokenKind} {text : String} {rest : List Char} {tokens : List Token}
    (h : IsWordText kind text) (word : kind ≠ .punct) (stop : Stops rest)
    (more : Scanned rest tokens) :
    Scanned (text.toList ++ rest) (⟨kind, text, .callSite, false⟩ :: tokens) := by
  obtain ⟨-, -, c, cs, n, scanned, rfl⟩ := h
  obtain ⟨le, -⟩ := Lexeme.scan_token_front scanned
  have length : (cs.take n).length = n := by rw [List.length_take, Nat.min_eq_left le]
  rw [String.toList_ofList, List.cons_append]
  have again := @Scanned.token _ _ _ _ tokens (Lexeme.scan_cut stop scanned)
    (by rwa [List.drop_left' length])
  rwa [List.take_left' length, beq_false_of_ne word, Bool.false_and] at again

theorem scanned_edge {text : String} {rest : List Char} {tokens : List Token}
    (h : (Atom.delimiter text).Sound) (more : Scanned rest tokens) :
    Scanned (text.toList ++ rest) (edgeTokens text ++ tokens) := by
  obtain ⟨x, mem, rfl⟩ := h
  have edge : edgeTokens (String.singleton x.1) =
      [⟨x.2, String.singleton x.1, .callSite, false⟩] := by
    simp [edgeTokens, Lexeme.bracketKind?_of_mem x mem]
  have word : (x.2 == TokenKind.punct) = false := by
    revert x
    decide
  have scanned : Lexeme.scan x.1 rest = ⟨.token x.2, 0⟩ := Lexeme.scan_bracket mem
  have again := @Scanned.token _ _ _ _ tokens scanned more
  rw [edge, String.toList_singleton]
  rwa [word, Bool.false_and] at again

theorem scanned_atom {a : Atom} {rest : List Char} {tokens : List Token} (h : a.Sound)
    (next : a.Before rest) (more : Scanned rest tokens) :
    Scanned (a.text.toList ++ rest) (a.tokens (rest.head?.any isPunctChar) ++ tokens) := by
  cases a with
  | delimiter text => exact scanned_edge h more
  | token kind text =>
    by_cases punct : kind = .punct
    · subst punct
      refine scanned_operator h.2 (fun c last d first opens => ?_) more
      obtain stop | ⟨-, off⟩ := next
      · exact opens.not_stop (stop d first)
      · exact off c last opens.1
    · obtain stop | ⟨eq, -⟩ := next
      · rw [Atom.tokens, if_neg punct]
        exact scanned_word ((if_neg punct).mp h) punct stop more
      · exact absurd eq punct

/-! ## Spacing -/

theorem stops_of_head {text : String} (h : text.toList.head?.any stops.contains = true)
    (rest : List Char) : Stops (text.toList ++ rest) := by
  cases eq : text.toList with
  | nil => simp [eq] at h
  | cons c cs => exact .cons (by simpa [eq] using h) _

theorem stops_operator {cur : Atom} {ops : List String} (h : cur.isOperator ops = true)
    (all : ∀ op ∈ ops, op.toList.head?.any stops.contains = true) (rest : List Char) :
    Stops (cur.text.toList ++ rest) := by
  unfold Atom.isOperator at h
  split at h
  · exact stops_of_head (all _ (List.contains_iff_mem.1 h)) rest
  · cases h

theorem stops_closingAngle {cur : Atom} (h : cur.isClosingAngle = true) (rest : List Char) :
    Stops (cur.text.toList ++ rest) := by
  unfold Atom.isClosingAngle at h
  split at h
  · rename_i text
    obtain ⟨nonempty, all⟩ := Bool.and_eq_true_iff.1 h
    refine stops_of_head ?_ rest
    cases eq : text.toList with
    | nil => simp [String.toList_eq_nil_iff.1 eq] at nonempty
    | cons c cs =>
      rw [eq, List.all_cons, Bool.and_eq_true_iff] at all
      rw [Atom.text, eq, beq_iff_eq.1 all.1]
      exact (by decide : stops.contains '>' = true)
  · cases h

theorem stops_closing {cur : Atom} (h : cur.isClosing = true) (brace : cur ≠ .delimiter "\x7d")
    (rest : List Char) : Stops (cur.text.toList ++ rest) := by
  unfold Atom.isClosing at h
  split at h
  · rename_i text
    refine stops_of_head ?_ rest
    have mem : text ∈ [")", "]", "\x7d"] := List.contains_iff_mem.1 h
    simp only [List.mem_cons, List.not_mem_nil, or_false] at mem
    obtain rfl | rfl | rfl := mem
    · decide
    · decide
    · exact absurd rfl brace
  · cases h

/-- A word, a number or a literal, or an operator that ends in `/`. -/
def Atom.Touchy : Atom → Prop
  | .token kind text => kind = .punct → text.toList.getLast? = some '/'
  | .delimiter _ => False

theorem Atom.Touchy.isOperator {a : Atom} (h : a.Touchy) {ops : List String}
    (others : ∀ op ∈ ops, op.toList.getLast? ≠ some '/') : a.isOperator ops = false := by
  cases a with
  | delimiter => rfl
  | token kind text =>
    unfold Atom.isOperator
    split
    · rename_i eq
      cases eq
      exact Bool.eq_false_iff.2 fun mem => others _ (List.contains_iff_mem.1 mem) (h rfl)
    · rfl

/-- Only a stop follows a touchy atom without a blank. -/
theorem stops_of_tight {before : Option Atom} {prev cur : Atom} (touchy : prev.Touchy)
    (tight : needsBlank before prev cur = false) (rest : List Char) :
    Stops (cur.text.toList ++ rest) := by
  have noDelimiter (text : String) : prev ≠ .delimiter text := by
    rintro rfl
    exact touchy
  have noOpening : prev.isOpening = false := by
    cases prev with
    | token => rfl
    | delimiter => exact touchy.elim
  unfold needsBlank at tight
  rw [if_neg (noDelimiter _)] at tight
  split at tight
  · cases tight
  rename_i brace
  rw [noOpening, Bool.false_or] at tight
  split at tight
  · rename_i closing
    exact stops_closing closing brace rest
  split at tight
  · rename_i colons
    exact stops_operator colons (by decide) rest
  split at tight
  · rename_i ends
    obtain separator | angle := Bool.or_eq_true_iff.1 ends
    · exact stops_operator separator (by decide) rest
    · exact stops_closingAngle angle rest
  split at tight
  · rename_i generics
    exact stops_operator (Bool.and_eq_true_iff.1 generics).1 (by decide) rest
  split at tight
  · rename_i bang
    exact stops_operator (Bool.and_eq_true_iff.1 bang).1 (by decide) rest
  rw [touchy.isOperator (by decide), touchy.isOperator (by decide)] at tight
  split at tight
  · rename_i off
    cases off
  split at tight
  · rename_i off
    cases off
  split at tight
  · rename_i inputs
    simp only [Bool.or_eq_true, decide_eq_true_eq] at inputs
    obtain rfl | rfl := inputs <;> exact stops_of_head (by decide) rest
  · cases tight

/-- What stands right after an atom without a blank may stand there. -/
theorem before_of_tight {before : Option Atom} {prev cur : Atom}
    (tight : needsBlank before prev cur = false) (rest : List Char) :
    prev.Before (cur.text.toList ++ rest) := by
  by_cases touchy : prev.Touchy
  · exact prev.before_stop (stops_of_tight touchy tight rest)
  · cases prev with
    | delimiter => trivial
    | token kind text =>
      simp only [Atom.Touchy, Classical.not_imp] at touchy
      refine .inr ⟨touchy.1, fun c last slash => touchy.2 ?_⟩
      rw [← slash]
      exact last

theorem scanned_layAfter {before : Option Atom} {prev : Atom} {more : List Atom}
    (sound : ∀ a ∈ prev :: more, a.Sound) :
    Scanned (prev.text.toList ++ (layAfter before prev more).flatMap String.toList)
      (layTokens before (prev :: more)) := by
  induction more generalizing before prev with
  | nil => exact scanned_atom (sound prev List.mem_cons_self) (prev.before_stop .nil) .nil
  | cons cur more ih =>
    obtain ⟨here, later⟩ := List.forall_mem_cons.1 sound
    have next := @ih (some prev) cur later
    rw [layTokens, layAfter]
    cases blank : needsBlank before prev cur with
    | true =>
      have apart : runsOn before prev (cur :: more) = false := by simp [runsOn, blank]
      simp only [if_true, List.cons_append, List.flatMap_cons, List.nil_append]
      rw [apart]
      exact scanned_atom here (prev.before_stop (.cons (by decide) _)) (.gap rfl next)
    | false =>
      have runs : runsOn before prev (cur :: more) = cur.isPunct := by simp [runsOn, blank]
      have read := scanned_atom here (before_of_tight blank _) next
      simp only [Bool.false_eq_true, if_false, List.cons_append, List.flatMap_cons,
        List.nil_append]
      rwa [(later cur List.mem_cons_self).starts, ← runs] at read

/-- The canonical text of trees whose tokens can be read one by one is read as the tokens of its
atoms, and as trees with the same flat view. -/
theorem Renderable.tokenize_laid {ts : List TokenTree} (h : Renderable ts) (file : String)
    (line : Int) :
    ∃ us, tokenize (render ts) file line = .ok us ∧ flatten us = flatten ts ∧
      Nests (layTokens none (TypeGrammar.atoms ts)) (eraseAll us) := by
  have scanned : Scanned (render ts).toList (layTokens none (TypeGrammar.atoms ts)) := by
    rw [render, String.toList_join]
    have sound := h.atoms
    revert sound
    cases TypeGrammar.atoms ts with
    | nil => exact fun _ => .nil
    | cons a more => exact scanned_layAfter
  exact scanned.tokenize_ok ((items_layTokens h.atoms).trans (items_atoms ts)) file line

/-- The canonical text of trees whose tokens can be read one by one is read as trees with the same
flat view. -/
theorem Renderable.read_again {ts : List TokenTree} (h : Renderable ts) (file : String)
    (line : Int) :
    ∃ us, tokenize (render ts) file line = .ok us ∧ flatten us = flatten ts := by
  obtain ⟨us, read, same, -⟩ := h.tokenize_laid file line
  exact ⟨us, read, same⟩

end TypeGrammar
