import TypeGrammar.Proofs.Building
import TypeGrammar.Proofs.RereadingExpressions

/-!
# Types that are read again

The parsers of types read again what they have read. A type may be printed behind its binder, or the
binder is printed further inside or not at all; so what follows a binder is read again behind the
binder that is left.
-/

namespace TypeGrammar

open TokenTree

/-! ## What is seen of a type -/

namespace Node

variable {s : Sight}

theorem isTrait_seen (b : Bound) : Parse.isTrait (b.seen s) = Parse.isTrait b := by
  cases b <;> rfl

theorem inParens_seen (paren : Delim) (b : Bound) :
    (Parse.inParens paren b).seen s = Parse.inParens paren.erase (b.seen s) := by
  cases b <;> rfl

theorem boundOfType?_seen (paren : Delim) (t : Ty) :
    Parse.boundOfType? paren.erase (t.seen s) = (Parse.boundOfType? paren t).map (Node.seen s) := by
  cases t with
  | pathType self p => cases self <;> rfl
  | traitObject dynToken bounds =>
    cases dynToken with
    | some d => rfl
    | none =>
      simp only [Node.seen, Option.map_none, Parse.boundOfType?, separated_seen]
      cases bounds.separated with
      | last b => simp [inParens_seen]
      | empty | cons => rfl
  | _ => rfl

end Node

namespace Separated

variable {α : Type} {p : Separated α} {v w : α}

theorem mapFirst_first (h : p.first? = some v) : p.mapFirst (fun _ => v) = p := by
  cases p <;> cases h <;> rfl

theorem mapFirst_eq (h : p.first? = some v) (f : α → α) :
    p.mapFirst f = p.mapFirst fun _ => f v := by
  cases p <;> cases h <;> rfl

theorem first?_mapFirst (h : p.first? = some v) : (p.mapFirst fun _ => w).first? = some w := by
  cases p <;> cases h <;> rfl

theorem any_first {f : α → Bool} (h : p.first? = some v) (on : f v = true) :
    p.toList.any f = true := by
  cases p <;> cases h <;> simp [toList, on]

end Separated

/-! ## The front of a type -/

/-- The same answers to what is asked in front of a type. -/
structure TypeAhead (r r' : List TokenTree) : Prop where
  front : shape r = shape r'
  path : Parse.startsPath r = Parse.startsPath r'
  bareFn : Parse.startsBareFn r = Parse.startsBareFn r'
  bang : Parse.startsBang r = Parse.startsBang r'

theorem SameAhead.startsBareFn {r r' : List TokenTree} (h : SameAhead r r') :
    Parse.startsBareFn r = Parse.startsBareFn r' := by
  have word (w : String) := startsWord_of_shape h.front w
  unfold Parse.startsBareFn
  rw [← word, ← word, ← word]
  cases on : startsWord "extern" r with
  | false => rw [Bool.false_and, Bool.false_and]
  | true =>
    have known : startsKind (fun k => k == .identifier || k == .keyword) r = true := by
      obtain ⟨t, us, rfl, isWord⟩ := startsWord_token on
      obtain kind | kind := isWord.1 <;> simp [startsKind, token?, kind]
    rw [h.after rfl known (by decide)]

theorem SameAhead.typeAhead {r r' : List TokenTree} (h : SameAhead r r') : TypeAhead r r' :=
  ⟨h.front, Parse.startsPath_same h, h.startsBareFn, Parse.startsBang_alike (.inl h)⟩

/-- A word decides alone what type it starts, unless it is `extern`. -/
theorem TypeAhead.ofWord {t : Token} {us r' : List TokenTree} (word : t.IsWord t.text)
    (ne : t.text ≠ "extern") (h : shape (.token t :: us) = shape r') :
    TypeAhead (.token t :: us) r' := by
  obtain ⟨⟨⟩, -⟩ | ⟨_, _, t', us', eq, rfl, kind, text⟩ | ⟨_, _, _, _, _, _, _, _, _, ⟨⟩, -⟩ :=
    shape_cases h
  cases eq
  have words (w : String) := startsWord_of_shape h w
  have identifier := startsKind_of_shape h fun k => k == .identifier
  have word' : t'.kind ≠ .punct := kind ▸ word.kind_ne
  have off {op : String} (nonempty : op.toList ≠ []) :
      startsPunct op (.token t :: us) = startsPunct op (.token t' :: us') := by
    rw [startsPunct_word word.kind_ne nonempty, startsPunct_word word' nonempty]
  refine ⟨h, ?_, ?_, ?_⟩
  · rw [Parse.startsPath, Parse.startsPath, startsPathRoot, startsPathRoot,
      funext words, startsIdentifier, startsIdentifier, identifier, off (by decide),
      off (by decide)]
  · have plain : startsWord "extern" (.token t :: us) = false := by
      simp [startsWord, token?, ne]
    rw [Parse.startsBareFn, Parse.startsBareFn, ← words, ← words, ← words, plain, Bool.false_and,
      Bool.false_and]
  · rw [Parse.startsBang, Parse.startsBang, off (by decide), off (by decide)]

namespace Parse

open TypeGrammar.Parser

variable {v : View} {keep : Bool} {w n : Nat} {g g' : Grammar} {c c' : Cursor}

/-- A list does not ask for its first value. -/
theorem listFrom_mapFirst {α : Type} {rule : ListRule} {item : Parser α} {limit : Nat} {x y : α}
    {p : Separated α} (h : listFrom rule item limit x c = .ok p c') :
    listFrom rule item limit y c = .ok (p.mapFirst fun _ => y) c' := by
  cases limit with
  | zero => simp [listFrom, fail_ok] at h
  | succ limit =>
    unfold listFrom at h ⊢
    simp only [↓look_ite_ok, bind_ok, pure_ok] at h ⊢
    obtain ⟨on, s, c₁, mark, ⟨go, z, c₂, next, q, _, rest, rfl, rfl⟩ | ⟨stop, rfl, rfl⟩⟩ |
      ⟨off, rfl, rfl⟩ := h
    · exact .inl ⟨on, s, c₁, mark, .inl ⟨go, z, c₂, next, q, _, rest, rfl, rfl⟩⟩
    · exact .inl ⟨on, s, c₁, mark, .inr ⟨stop, rfl, rfl⟩⟩
    · exact .inr ⟨off, rfl, rfl⟩

/-- A binder that was read again. -/
abbrev BinderAgain (v : View) (keep : Bool) (b b' : Option Binder) : Prop :=
  b'.map (Binder.seen (v.sight keep)) = b.map (Binder.seen (v.sight false))

theorem binderAgain_none {b' : Option Binder} (same : BinderAgain v keep none b') : b' = none :=
  Option.map_eq_none_iff.1 same

/-- A binder that is left in front of what is read next, or none where there is none in front. -/
def BinderLeft (v : View) (kept : Option Binder) (ps : List Chunk) (r r' : List TokenTree) : Prop :=
  match kept with
  | none => Carries v (.ask (startsWord "for")) Alike ps [] r'
  | some b => (∃ c₁ c₂, binder c₁ = .ok b c₂) ∧ (afterBinder.any fun e => e.isMet r) = true

/-- What is read again behind the binder `kept`, which is left in front of it. -/
structure Behind (v : View) (keep : Bool) (n : Nat) (p : Option Binder → Parser Ty) (t : Ty)
    (kept : Option Binder) (ps : List Chunk) (r r' : List TokenTree) : Prop where
  chunks : t.layout.chunks = binderChunks kept ++ ps
  binder : BinderLeft v kept ps r r'
  front : Carries v TypeAhead Alike ps r r'
  again : ∀ {w b'}, BinderAgain v keep kept b' →
    Rereads v Alike w n (p b') (t.Again v keep) ps r'

/-- What a path turns out to start: a trait object, a macro call, or a type that is the path. -/
def afterPath (g : Grammar) (b : Option Binder) (plus : Bool) (self : Node .selfType) (p : Path) :
    Parser Ty := do
  if self ≠ .unqualified then
    return .pathType self p
  else if ← look fun ts => startsBang ts && p.hasNoArguments then
    return .macroType (← invocation p)
  else if ← look fun ts => b.isSome || (plus && startsPunct "+" ts) then
    let first : Bound := .traitBound none none b p
    let bounds ← if plus then listAfter boundsBeforeAngle (bound g) first else pure (.last first)
    return .traitObject none (.ofSeparated bounds)
  else
    return .pathType self p

theorem pathLike_eq {plus : Bool} {b : Option Binder} : pathLike g b plus = (do
    if ← look (startsWord "dyn") then
      let object ← traitObject g plus
      b.elim (pure object) (withBinder · object)
    else
      let (self, p) ← qualifiedPathWithInputs g
      afterPath g b plus self p) := by
  cases b <;> rfl

/-- The contents of parentheses that were read again. -/
def Parenthesized.Again (v : View) (keep : Bool) : Parenthesized → Parenthesized → Prop
  | .tuple elems, x => ∃ elems', x = .tuple elems' ∧
      elems'.seen (Node.seen (v.sight keep)) = elems.seen (Node.seen (v.sight false))
  | .object t, x => ∃ t', x = .object t' ∧ t.Again v keep t'
  | .bound b, x => ∃ b', x = .bound b' ∧ b.Again v keep b'
  | .type t, x => ∃ t', x = .type t' ∧ t.Again v keep t'

section

variable (proper : v.Proper) (hf : g.Faithful) (hg : g.Rereads v keep n g')
include proper hf hg

/-! ## Trait objects -/

theorem bounds_items {rule : ListRule} (steady : rule.Steady) :
    Rereads.Items v Alike Alike (n + 1) rule (bound g) (bound g') (fun b => b.layout.chunks)
      (Node.seen (v.sight keep)) (Node.seen (v.sight false)) :=
  .ofReads proper steady id (fun _ => id) (bound_reads hf) (bound_rereads proper hf hg)

/-- The bounds of a trait object, the first of which may come back as another one. -/
theorem objectBounds_rereads {plus : Bool} {p : Separated Bound}
    (h : objectBounds g plus c = .ok p c') :
    ∃ first c₁, bound g c = .ok first c₁ ∧ p.first? = some first ∧
      ∀ {y : Bound} {w}, (∀ {w}, Rereads v Alike w (n + 1) (bound g') (y.Again v keep)
          y.layout.chunks c₁.rest) →
        Rereads v Alike w (n + 1) (objectBounds g' plus)
          (fun p' => p'.seen (Node.seen (v.sight keep)) =
            (p.mapFirst fun _ => y).seen (Node.seen (v.sight false)))
          ((p.mapFirst fun _ => y).chunks fun b => b.layout.chunks) c'.rest := by
  have items := bounds_items proper hf hg steady_boundsBeforeAngle
  unfold objectBounds at h
  cases plus with
  | true =>
    obtain ⟨first, c₁, run, rest⟩ := list1_ok h
    refine ⟨first, c₁, run, listFrom_first rest, fun {y} _ again => ?_⟩
    have changed := listFrom_mapFirst (y := y) rest
    rw [Separated.chunks_first (listFrom_first changed)]
    exact .bind (items.after changed) again fun y' same =>
      items.listAfter (Nat.le_refl _) same changed
  | false =>
    obtain ⟨b, run, rfl⟩ := map_ok.1 h
    refine ⟨b, c', run, rfl, fun {y} _ again => ?_⟩
    exact again.returning fun y' same => by
      rw [Separated.mapFirst, Separated.seen_last, Separated.seen_last, same]

omit proper hf hg in
/-- A trait among the bounds is found again. -/
theorem object_rereads {dynToken dynToken' : Option Token} {bounds : Separated Bound}
    {p : Parser (Separated Bound)} {ps : List Chunk} {r : List TokenTree}
    (same : dynToken'.map Token.erase = dynToken.map Token.erase)
    (traits : bounds.toList.any isTrait = true)
    (again : Rereads v Alike w n p
      (fun p' => p'.seen (Node.seen (v.sight keep)) = bounds.seen (Node.seen (v.sight false)))
      ps r) :
    Rereads v Alike w n
      (p >>= fun bounds' => if bounds'.toList.any isTrait = true then
        pure (.traitObject dynToken' (.ofSeparated bounds')) else fail .onlyLifetimes)
      ((Node.traitObject dynToken (.ofSeparated bounds)).Again v keep) ps r := by
  rw [← List.append_nil ps]
  refine .bind .nil again fun bounds' seen => ?_
  have traits' : bounds'.toList.any isTrait = true := by
    have lists := congrArg (fun q => q.toList.any isTrait) seen
    simp only [Separated.toList_seen, List.any_map] at lists
    have known (s : Sight) : isTrait ∘ Node.seen s = isTrait := funext Node.isTrait_seen
    rwa [known, known, traits] at lists
  rw [if_pos traits']
  exact .pure (by simp only [Node.Again, Node.seen, Node.seen_ofSeparated, same, seen])

theorem traitObject_rereads {plus : Bool} {t : Ty} (h : traitObject g plus c = .ok t c') :
    Rereads v Alike w (n + 1) (traitObject g' plus) (t.Again v keep) t.layout.chunks c'.rest := by
  unfold traitObject at h
  simp only [bind_ok] at h
  obtain ⟨dynToken, c₁, word, bounds, c₂, run, h⟩ := h
  split at h
  · rename_i traits
    obtain ⟨rfl, rfl⟩ := pure_ok.1 h
    obtain ⟨first, c₃, start, eq, again⟩ := objectBounds_rereads proper hf hg run
    have again := again (w := w) fun {w} => bound_rereads (w := w) proper hf hg start
    rw [Separated.mapFirst_first eq] at again
    have front {r' : List TokenTree} : Carries v .front Alike
        (bounds.chunks fun b => b.layout.chunks) c₁.rest r' := by
      rw [Separated.chunks_first eq]
      exact Link.front_append fun _ => bound_carries hf start
    simp only [Node.layout, ChunkLayout.chunks_whole, Node.chunks_ofSeparated]
    exact .optionalWord word (front.mono (startsWord_of_shape · _) id) fun dynToken' same =>
      object_rereads same traits again
  · simp [fail_ok] at h

/-- A trait object that gets the binder in front of `dyn` at its first bound. -/
theorem withBinder_rereads {plus : Bool} {b : Binder} {object t : Ty} {c₀ c₁ : Cursor}
    (front : binder c₀ = .ok b c) (dyn : startsWord "dyn" c.rest = true)
    (h : traitObject g plus c = .ok object c₁) (attach : withBinder b object c₁ = .ok t c') :
    (∀ {w}, Rereads v Alike w (n + 1) (traitObject g' plus) (t.Again v keep) t.layout.chunks
        c'.rest) ∧
      ∃ d us more, c.rest = .token d :: us ∧ d.IsWord "dyn" ∧
        t.layout.chunks = .word d :: more := by
  unfold traitObject at h
  simp only [bind_ok] at h
  obtain ⟨dynToken, c₂, query, bounds, c₃, run, h⟩ := h
  split at h
  · obtain ⟨rfl, rfl⟩ := pure_ok.1 h
    obtain ⟨-, off, -⟩ | ⟨d, rfl, word⟩ := keyword?_ok query
    · rw [dyn] at off
      cases off
    obtain ⟨first, c₄, start, eq, again⟩ := objectBounds_rereads proper hf hg run
    cases first with
    | traitBound paren modifier old p =>
      obtain ⟨attach', attached, result⟩ := @withBinder_eq b (some d) _ _ _ _ _ eq
      rw [result] at attach
      obtain ⟨rfl, rfl⟩ := pure_ok.1 attach
      rw [Separated.mapFirst_eq eq, attached]
      have again {w} :=
        again (w := w) fun {w} => bound_rereadsBinder (w := w) proper hf hg front start
      have traits := Separated.any_first (f := isTrait)
        (Separated.first?_mapFirst (w := .traitBound paren modifier (some b) p) eq) rfl
      simp only [Node.layout, ChunkLayout.chunks_whole, Node.chunks_ofSeparated]
      obtain ⟨ahead, isWord⟩ := keyword_ok word
      refine ⟨fun {w} => ?_, d, _, _, ahead, isWord, rfl⟩
      exact Rereads.withWord word fun d' same => object_rereads (by simp [same]) traits again
    | lifetimeBound l => simp [withBinder, eq, fail_ok] at attach
  · simp [fail_ok] at h

theorem implTrait_rereads {t : Ty} (h : implTrait g c = .ok t c') :
    Rereads v Alike w (n + 1) (implTrait g') (t.Again v keep) t.layout.chunks c'.rest := by
  simp only [implTrait, bind_ok, pure_ok] at h
  obtain ⟨word, c₁, impl, bounds, _, run, rfl, rfl⟩ := h
  simp only [Node.layout, ChunkLayout.chunks_whole, Node.chunks_ofSeparated]
  have items :=
    bounds_items proper hf hg (steady_joined (by decide) rfl (.inr rfl) : (joined "+").Steady)
  exact .free (a := [_]) (.token (takesToken_keyword impl)) fun word' same =>
    (items.list1 run).2.returning fun bounds' again => by
      simp only [Node.Again, Node.seen, Node.seen_ofSeparated, same, again]

/-! ## Function types -/

theorem fnArg_rereads {a : Node .fnArg} (h : fnArg g c = .ok a c') :
    Rereads v Alike w n (fnArg g') (a.Again v keep) a.layout.chunks c'.rest := by
  unfold fnArg at h
  simp only [↓look_ite_ok, bind_ok, pure_ok] at h
  obtain ⟨attrs, c₁, run, ⟨ahead, ident, c₂, name, colon, c₃, mark, t, _, type, rfl, rfl⟩ |
    ⟨off, t, _, type, rfl, rfl⟩⟩ := h <;> simp only [Node.layout, ChunkLayout.chunks_whole]
  · have reads := (fnName_takes ahead name mark).reads.append (hf.type type)
    refine .bind (reads.asks proper Alike.startsAttribute) (attributes_rereads (k := keep) run).2
      fun attrs' same => .yes (reads.asks proper Alike.startsFnName) ahead ?_
    exact .free (a := [_]) (.token (takesToken_anyWord name)) fun ident' same' =>
      .free (a := [_]) (.punct mark) fun colon' same'' =>
        (hg.type type).returning fun t' again => by
          simp only [Node.Again, Node.seen, same, same', same'', again, Option.map_some]
  · have reads := hf.type type
    refine .bind (reads.asks proper Alike.startsAttribute) (attributes_rereads (k := keep) run).2
      fun attrs' same => .no (reads.asks proper Alike.startsFnName) off ?_
    exact (hg.type type).returning fun t' again => by
      simp only [Node.Again, Node.seen, same, again, Option.map_none]

omit proper hf hg in
theorem steady_fnInputs : fnInputs.Steady where
  sign := by decide
  plain := rfl
  asks h := congrArg (!·) h.isEmpty
  again h := by
    simp only [fnInputs]
    rw [h.isEmpty, h.startsPunct (.inl (by decide : "..." ∈ longSigns))]

/-- The inputs of a function type are followed by nothing or by `...`. -/
theorem fnInputsAndDots_rereads {inputs : Separated (Node .fnArg)} {dots : Option Token}
    (h : fnInputsAndDots g c = .ok (inputs, dots) c') :
    Rereads v Alike w n (fnInputsAndDots g')
      (fun x => x.1.seen (Node.seen (v.sight keep)) = inputs.seen (Node.seen (v.sight false)) ∧
        x.2.map Token.erase = dots.map Token.erase)
      (inputs.chunks (fun a => a.layout.chunks) ++ Node.variadicChunks (.ofSeparated inputs) dots)
      c'.rest := by
  unfold fnInputsAndDots at h
  simp only [↓look_ite_ok, bind_ok, pure_ok] at h
  obtain ⟨p, c₁, run, h⟩ := h
  have items : Rereads.Items v Alike Alike n fnInputs (fnArg g) (fnArg g') _ _ _ :=
    .ofReads proper steady_fnInputs id (fun _ => id) (fnArg_reads hf) (fnArg_rereads proper hf hg)
  have accepts {p' : Separated (Node .fnArg)}
      (same : p'.seen (Node.seen (v.sight keep)) = p.seen (Node.seen (v.sight false))) :
      p'.acceptsValue = p.acceptsValue := by
    rw [← Separated.acceptsValue_seen p', same, Separated.acceptsValue_seen]
  have ends {r r' : List TokenTree} (link : Alike r r') :
      (p.acceptsValue && startsPunct "..." r) = (p.acceptsValue && startsPunct "..." r') := by
    rw [link.startsPunct (.inl (by decide : "..." ∈ longSigns))]
  obtain ⟨on, d, _, mark, eq, rfl⟩ | ⟨off, eq, rfl⟩ := h <;> cases eq
  · have last := on
    rw [Bool.and_eq_true] at last
    simp only [Node.variadicChunks, Node.acceptsValue, Node.separated_ofSeparated, last.1, if_true,
      List.nil_append]
    have reads := (Takes.sign (by decide) mark rfl).reads
    refine .bind (reads.carries proper) (items.list run).2 fun p' same => ?_
    rw [accepts same]
    exact .yes (reads.asks proper ends) on ((Rereads.punct mark).returning fun d' same' =>
      ⟨same, by simp [same']⟩)
  · refine .bind .nil (items.list run).2 fun p' same => ?_
    rw [accepts same]
    exact .no ((Reads.refl c₁).asks proper ends) off (.pure ⟨same, rfl⟩)

/-- The word `fn` with the inputs and the output after it. -/
theorem signature_rereads {b b' : Option Binder} {unsafety unsafety' : Option Token}
    {convention convention' : Option Abi} {fnToken : Token} {paren : Delim}
    {inputs : Separated (Node .fnArg)} {dots : Option Token} {o : Node .output} {c₁ c₂ : Cursor}
    (sameBinder : BinderAgain v keep b b')
    (sameUnsafety : unsafety'.map Token.erase = unsafety.map Token.erase)
    (sameAbi : convention'.map Abi.erase = convention.map Abi.erase)
    (fn : keyword "fn" c = .ok fnToken c₁)
    (group : inGroup .paren (fnInputsAndDots g) c₁ = .ok (paren, inputs, dots) c₂)
    (out : output g false c₂ = .ok o c') :
    Rereads v Alike w (n + 1)
      (keyword "fn" >>= fun fnToken' => inGroup .paren (fnInputsAndDots g') >>= fun x =>
        output g' false >>= fun o' => pure (.bareFn b' unsafety' convention' fnToken' x.1
          (.ofSeparated x.2.1) x.2.2 o'))
      ((Node.bareFn b unsafety convention fnToken paren (.ofSeparated inputs) dots o).Again v keep)
      (.word fnToken :: .group paren (inputs.chunks (fun a => a.layout.chunks) ++
        Node.variadicChunks (.ofSeparated inputs) dots) :: o.layout.chunks) c'.rest := by
  refine .free (a := [_]) (.token (takesToken_keyword fn)) fun fnToken' same => ?_
  refine .free (a := [_]) (inGroup_rereads (f := fun x =>
    x.1.chunks (fun a => a.layout.chunks) ++ Node.variadicChunks (.ofSeparated x.1) x.2) alike_nil
    (fun run => fnInputsAndDots_rereads proper hf hg run) group) ?_
  rintro ⟨paren', inputs', dots'⟩ ⟨same', again, again'⟩
  exact (output_rereads proper hf hg out).returning fun o' again'' => by
    simp only [Node.Again, Node.seen, Node.seen_ofSeparated, sameBinder, sameUnsafety, sameAbi,
      same, same', again, again', again'']

theorem bareFnAfter_rereads {b : Option Binder} {t : Ty} (h : bareFnAfter g b c = .ok t c') :
    ∃ ps, t.layout.chunks = binderChunks b ++ ps ∧ ∀ {w b'}, BinderAgain v keep b b' →
      Rereads v Alike w (n + 1) (bareFnAfter g' b') (t.Again v keep) ps c'.rest := by
  unfold bareFnAfter at h
  simp only [↓look_ite_ok, bind_ok, pure_ok, map_ok] at h
  obtain ⟨unsafety, c₁, word,
    ⟨on, _, c₂, ⟨a, convention, rfl⟩, fnToken, c₃, fn, ⟨paren, inputs, dots⟩,
      c₄, group, o, c', out, rfl, rfl⟩ |
    ⟨off, _, _, ⟨rfl, rfl⟩, fnToken, c₃, fn, ⟨paren, inputs, dots⟩,
      c₄, group, o, c', out, rfl, rfl⟩⟩ := h <;>
    simp only [Node.layout, ChunkLayout.chunks_whole, Node.chunks_ofSeparated] <;>
    refine ⟨_, rfl, fun sameBinder => ?_⟩ <;> obtain ⟨eq, -⟩ := keyword_ok fn
  · have front {ps : List Chunk} : Carries v .front Alike (a.chunks ++ ps) c₁.rest c'.rest :=
      abi_carries convention
    refine .optionalWord word (front.mono (startsWord_of_shape · _) id)
      fun unsafety' sameUnsafety =>
      .yes (front.mono (startsWord_of_shape · _) id) on ?_
    refine .bind ((Carries.word eq).mono (startsKind_of_shape · _) id)
      ((abi_rereads convention).returning (S := fun a' => a'.map Abi.erase = some a.erase)
        fun a' same => by simp [same]) fun a' sameAbi => ?_
    exact signature_rereads proper hf hg sameBinder sameUnsafety sameAbi fn group out
  · have front {ps : List Chunk} : Carries v .front Alike (.word fnToken :: ps) c₁.rest c'.rest :=
      .word eq
    refine .optionalWord word (front.mono (startsWord_of_shape · _) id)
      fun unsafety' sameUnsafety =>
      .no (front.mono (startsWord_of_shape · _) id) off (.free (a := []) (.pure rfl) ?_)
    rintro _ rfl
    exact signature_rereads proper hf hg sameBinder sameUnsafety rfl fn group out

/-! ## Forms with a type inside -/

omit proper hf in
theorem groupType_rereads {t : Ty} (h : groupType g c = .ok t c') :
    Rereads v Alike w (n + 1) (groupType g') (t.Again v keep) t.layout.chunks c'.rest := by
  simp only [groupType, bind_ok, pure_ok] at h
  obtain ⟨⟨delim, elem⟩, _, group, rfl, rfl⟩ := h
  simp only [Node.layout, ChunkLayout.chunks_whole]
  exact (inGroup_rereads (f := fun t : Ty => t.layout.chunks) alike_nil hg.type group).returning
    fun x again => by simp only [Node.Again, Node.seen] at again ⊢; rw [again.1, again.2]

/-- The contents of the brackets of an array or a slice. -/
theorem arrayOrSliceContents_rereads {elem : Ty} {length : Option (Token × Expr)}
    (h : arrayOrSliceContents g c = .ok (elem, length) c') :
    Rereads v Link.operand w n (arrayOrSliceContents g')
      (fun x => elem.Again v keep x.1 ∧
        x.2.map (fun y => (y.1.erase, y.2.seen (v.sight keep))) =
          length.map fun y => (y.1.erase, y.2.seen (v.sight false)))
      (elem.layout.chunks ++ lengthChunks length) c'.rest := by
  unfold arrayOrSliceContents at h
  simp only [↓look_ite_ok, bind_ok, pure_ok] at h
  have semicolon {r r' : List TokenTree} (link : Alike r r') :
      startsPunct ";" r = startsPunct ";" r' := link.startsPunct (.inr rfl)
  obtain ⟨elem, c₁, type, ⟨on, semi, c₂, mark, e, _, run, eq, rfl⟩ | ⟨off, eq, rfl⟩⟩ := h <;>
    cases eq
  · have reads := (Takes.sign (by decide) mark rfl).reads.append (hf.expr run)
    refine .bind ((reads.carries proper).mono id (.inl ·.1)) (hg.type type) fun elem' again =>
      .yes ((reads.asks proper semicolon).mono id (.inl ·.1)) on ?_
    exact .free (a := [_]) (.punct mark) fun semi' same => (hg.expr run).returning
      fun e' again' => ⟨again, by simp only [Option.map_some, same, again']⟩
  · have reads := (Reads.refl c₁).carries (v := v) proper
    refine .bind (reads.mono id (.inl ·.1)) (hg.type type) fun elem' again =>
      .no (reads.mono semicolon (.inl ·.1)) off (.pure ⟨again, rfl⟩)

theorem arrayOrSlice_rereads {t : Ty} (h : arrayOrSlice g c = .ok t c') :
    Rereads v Alike w (n + 1) (arrayOrSlice g') (t.Again v keep) t.layout.chunks c'.rest := by
  simp only [arrayOrSlice, bind_ok] at h
  obtain ⟨⟨bracket, elem, length⟩, c₁, group, h⟩ := h
  have inside := inGroup_rereads (w := w) (E := .any) (r := [])
    (f := fun (x : Ty × Option (Token × Expr)) => x.1.layout.chunks ++ lengthChunks x.2) operand_nil
    (fun run => arrayOrSliceContents_rereads proper hf hg run) group
  cases length with
  | some x =>
    obtain ⟨rfl, rfl⟩ := pure_ok.1 h
    simp only [Node.layout, ChunkLayout.chunks_whole]
    refine .free (b := []) inside ?_
    rintro ⟨bracket', elem', length'⟩ ⟨same, again, again'⟩
    obtain ⟨y, rfl, seen⟩ := Option.map_eq_some_iff.1 again'
    obtain ⟨semi, expr⟩ := Prod.mk.inj seen
    exact .pure (by simp only [Node.Again, Node.seen, same, semi, expr] at again ⊢; rw [again])
  | none =>
    obtain ⟨rfl, rfl⟩ := pure_ok.1 h
    simp only [lengthChunks, List.append_nil] at inside
    simp only [Node.layout, ChunkLayout.chunks_whole]
    refine .free (b := []) inside ?_
    rintro ⟨bracket', elem', length'⟩ ⟨same, again, again'⟩
    obtain rfl := Option.map_eq_none_iff.1 again'
    exact .pure (by simp only [Node.Again, Node.seen, same] at again ⊢; rw [again])

omit proper hf hg in
theorem never_rereads {t : Ty} (proper : v.Proper) (h : never c = .ok t c') :
    Rereads v Alike w n never (t.Again v keep) t.layout.chunks c'.rest := by
  have asks :=
    (never_reads h).asks proper (Alike.startsPunct · (.inl (by decide : "!=" ∈ longSigns)))
  unfold never at h
  simp only [↓look_ite_ok, bind_ok, pure_ok, fail_ok] at h
  obtain ⟨-, ⟨⟩⟩ | ⟨alone, bang, _, mark, rfl, rfl⟩ := h
  simp only [Node.layout, ChunkLayout.chunks_whole] at asks ⊢
  exact .no asks alone ((Rereads.punct mark).returning fun bang' same => by
    simp only [Node.Again, Node.seen, same])

omit proper hf hg in
theorem infer_rereads {t : Ty} (h : infer c = .ok t c') :
    Rereads v Alike w n infer (t.Again v keep) t.layout.chunks c'.rest := by
  simp only [infer, bind_ok, pure_ok] at h
  obtain ⟨word, _, run, rfl, rfl⟩ := h
  simp only [Node.layout, ChunkLayout.chunks_whole]
  exact (Rereads.token (takesToken_keyword run)).returning fun word' same => by
    simp only [Node.Again, Node.seen, same]

omit proper hf in
theorem pointer_rereads {t : Ty} (h : pointer g c = .ok t c') :
    Rereads v Alike w (n + 1) (pointer g') (t.Again v keep) t.layout.chunks c'.rest := by
  unfold pointer at h
  simp only [↓look_ite_ok, bind_ok, pure_ok, failNoneOf_ok] at h
  obtain ⟨star, c₁, sign, ⟨on, mark, c₂, word, t, _, type, rfl, rfl⟩ |
    ⟨off, ⟨on, mark, c₂, word, t, _, type, rfl, rfl⟩ | ⟨-, ⟨⟩⟩⟩⟩ := h <;>
    obtain ⟨eq, -⟩ := keyword_ok word <;>
    simp only [Node.layout, ChunkLayout.chunks_whole] <;>
    refine .mark sign fun star' same => ?_
  · refine .yes ((Carries.word eq).mono (startsWord_of_shape · _) id) on ?_
    exact .free (a := [_]) (.token (takesToken_keyword word)) fun mark'
      (same' : mark'.erase = mark.erase) => (hg.type type).returning fun t' again => by
        simp only [Node.Again, Node.seen, same, same', again, Option.map_some, Option.map_none]
  · refine .no ((Carries.word eq).mono (startsWord_of_shape · _) id) off
      (.yes ((Carries.word eq).mono (startsWord_of_shape · _) id) on ?_)
    exact .free (a := [_]) (.token (takesToken_keyword word)) fun mark'
      (same' : mark'.erase = mark.erase) => (hg.type type).returning fun t' again => by
        simp only [Node.Again, Node.seen, same, same', again, Option.map_some, Option.map_none]

theorem reference_rereads {t : Ty} (h : reference g c = .ok t c') :
    Rereads v Alike w (n + 1) (reference g') (t.Again v keep) t.layout.chunks c'.rest := by
  simp only [reference, bind_ok, pure_ok] at h
  obtain ⟨ampersand, c₁, sign, l, c₂, lifetime, mutability, c₃, word, t, _, type, rfl, rfl⟩ := h
  simp only [Node.layout, ChunkLayout.chunks_whole]
  have rest := (Takes.keyword? word).reads.append (hf.type type)
  exact .mark sign fun ampersand' same₁ => .bind (rest.carries proper) (lifetime?_rereads lifetime)
    fun l' same₂ => .optionalWord word ((hf.type type).asks proper Alike.startsMut)
    fun mutability' same₃ => (hg.type type).returning fun t' again => by
      simp only [Node.Again, Node.seen, same₁, same₂, same₃, again]

/-! ## Paths -/

/-! ## Paths -/

omit hf hg in
/-- What is printed as it was read, without a binder. -/
theorem Behind.plain {p : Option Binder → Parser Ty} {t : Ty} {m : Nat}
    (reads : Reads c t.layout.chunks c') (off : startsWord "for" c.rest = false)
    (again : ∀ w, Rereads v Alike w m (p none) (t.Again v keep) t.layout.chunks c'.rest) :
    Behind v keep m p t none t.layout.chunks c.rest c'.rest where
  chunks := rfl
  binder _ _ spelled link :=
    off.symm.trans (startsWord_of_shape (reads.carriesSame proper off spelled link).front _)
  front := (reads.carriesSame proper off).mono SameAhead.typeAhead id
  again same := by
    rw [binderAgain_none same]
    exact again _

omit proper hf hg in
/-- The first bound of the trait object that a path starts. -/
theorem first_again {b b' : Option Binder} {p p' : Path} (same : BinderAgain v keep b b')
    (again : p.Again v keep p') :
    (Node.traitBound none none b p).Again v keep (.traitBound none none b' p') := by
  simp only [Node.Again, Node.seen] at again ⊢
  rw [same, again, Option.map_none, Option.map_none]

/-- What a path turns out to start, where only a macro call drops the binder. -/
theorem afterPath_rereads {plus : Bool} {b : Option Binder} {self : Node .selfType} {p : Path}
    {t : Ty} (unqualified : b.isSome = true → self = .unqualified)
    (h : afterPath g b plus self p c = .ok t c') :
    ∃ kept qs, t.layout.chunks = binderChunks kept ++ ((Node.pathType self p).layout.chunks ++ qs) ∧
      (kept = b ∨ kept = none ∧ p.hasNoArguments = true ∧
        ∃ m, invocation p c = .ok m c' ∧ t.layout.chunks = m.layout.chunks) ∧
      Carries v Alike Alike qs c.rest c'.rest ∧
      ∀ {w b' self' p'}, BinderAgain v keep kept b' → self.Again v keep self' → p.Again v keep p' →
        Rereads v Alike w (n + 1) (afterPath g' b' plus self' p') (t.Again v keep) qs c'.rest := by
  unfold afterPath at h
  split at h
  · rename_i qualified
    obtain ⟨rfl, rfl⟩ := pure_ok.1 h
    have absent : b = none := by
      cases b with
      | none => rfl
      | some b => exact absurd (unqualified rfl) qualified
    refine ⟨b, [], by rw [absent, List.append_nil]; rfl, .inl rfl, .nil, fun _ again again' => ?_⟩
    rw [afterPath, if_pos (mt again.unqualified.1 qualified)]
    exact .pure (by simp only [Node.Again, Node.seen] at again again' ⊢; rw [again, again'])
  · rename_i plain
    obtain rfl : self = .unqualified := by simpa using plain
    rw [Node.chunks_unqualified]
    have bang {r r' : List TokenTree} (link : Alike r r') : (startsBang r && p.hasNoArguments) =
        (startsBang r' && p.hasNoArguments) := by rw [startsBang_alike link]
    simp only [↓look_ite_ok, bind_ok, pure_ok] at h
    obtain ⟨on, m, _, call, rfl, rfl⟩ | ⟨off, ⟨on, h⟩ | ⟨off', rfl, rfl⟩⟩ := h
    · obtain ⟨rest, chunks, reads, called⟩ :=
        invocation_rereads (v := v) (k := keep) (n := n + 1) call
      have plain := on
      rw [Bool.and_eq_true] at plain
      refine ⟨none, rest, ?_, .inr ⟨rfl, plain.2, m, call, ?_⟩, reads.carries proper,
        fun _ again again' => ?_⟩
      · simp only [Node.layout, ChunkLayout.chunks_whole, chunks]
        rfl
      · simp only [Node.layout, ChunkLayout.chunks_whole]
      · rw [afterPath, if_neg (fun ne => ne (again.unqualified.2 rfl)), again'.hasNoArguments]
        exact .yes (reads.asks proper bang) on ((called again').returning fun m' again'' => by
          simp only [Node.Again, Node.seen] at again'' ⊢
          rw [again''])
    · have first {bounds : Separated Bound}
          (eq : bounds.first? = some (.traitBound none none b p)) :
          (Node.traitObject none (.ofSeparated bounds)).layout.chunks =
            binderChunks b ++ (p.layout.chunks ++ bounds.chunksAfter fun b => b.layout.chunks) := by
        simp only [Node.layout, ChunkLayout.chunks_whole, Node.chunks_ofSeparated,
          Separated.chunks_first eq, wordChunks, markChunks, List.append_assoc]
        rfl
      have more {r r' : List TokenTree} (link : Alike r r') :
          (b.isSome || (plus && startsPunct "+" r)) =
            (b.isSome || (plus && startsPunct "+" r')) := by
        rw [link.startsPunct (.inr rfl)]
      have asked {b' : Option Binder} (same : BinderAgain v keep b b') : b'.isSome = b.isSome := by
        rw [← Option.isSome_map (f := Binder.seen (v.sight keep)), same, Option.isSome_map]
      cases plus with
      | true =>
        simp only [if_true, bind_ok, pure_ok] at h
        obtain ⟨bounds, _, run, rfl, rfl⟩ := h
        have items := bounds_items proper hf hg steady_boundsBeforeAngle
        have carry := items.after run
        refine ⟨b, _, first (listFrom_first run), .inl rfl, carry, fun same again again' => ?_⟩
        rw [afterPath, if_neg (fun ne => ne (again.unqualified.2 rfl)), again'.hasNoArguments,
          asked same]
        refine .no (carry.mono bang id) off (.yes (carry.mono more id) on ?_)
        exact (items.listAfter (Nat.le_refl _) (first_again same again') run).returning
          fun bounds' seen => by simp only [Node.Again, Node.seen, Node.seen_ofSeparated, seen,
            Option.map_none]
      | false =>
        simp only [Bool.false_eq_true, if_false, bind_ok, pure_ok] at h
        obtain ⟨_, _, ⟨rfl, rfl⟩, rfl, rfl⟩ := h
        refine ⟨b, _, first rfl, .inl rfl, .nil, fun same again again' => ?_⟩
        rw [afterPath, if_neg (fun ne => ne (again.unqualified.2 rfl)), again'.hasNoArguments,
          asked same]
        refine .no (Carries.nil.mono bang id) off (.yes (Carries.nil.mono more id) on ?_)
        exact .pure (by
          have seen := first_again same again'
          simp only [Node.Again, Node.seen, Node.ofSeparated] at seen ⊢
          rw [seen, Option.map_none, Option.map_none])
    · have absent : b = none := by
        cases b with
        | none => rfl
        | some b => cases off'
      subst absent
      rw [Option.isSome_none, Bool.false_or] at off'
      refine ⟨none, [], by rw [List.append_nil, Node.chunks_unqualified]; rfl, .inl rfl, .nil,
        fun same again again' => ?_⟩
      rw [binderAgain_none same, afterPath, if_neg (fun ne => ne (again.unqualified.2 rfl)),
        again'.hasNoArguments]
      have more {r r' : List TokenTree} (link : Alike r r') :
          (plus && startsPunct "+" r) = (plus && startsPunct "+" r') := by
        rw [link.startsPunct (.inr rfl)]
      exact .no (Carries.nil.mono bang id) off (.no (Carries.nil.mono more id) off'
        (.pure (by simp only [Node.Again, Node.seen] at again again' ⊢; rw [again, again'])))

/-- A binder in front of `dyn` is moved, and one in front of a macro call is dropped. -/
theorem pathLike_rereads {plus : Bool} {b : Option Binder} {t : Ty} {c₀ : Cursor}
    (run : BinderRun c₀ b c) (h : pathLike g b plus c = .ok t c') :
    ∃ kept ps, Behind v keep (n + 1) (fun b' => pathLike g' b' plus) t kept ps c.rest c'.rest := by
  rw [pathLike_eq] at h
  simp only [↓look_ite_ok, bind_ok] at h
  obtain ⟨dyn, object, c₁, inner, h⟩ | ⟨off, ⟨self, p⟩, c₁, path, h⟩ := h
  · cases b with
    | none =>
      obtain ⟨rfl, off⟩ := run
      obtain ⟨rfl, rfl⟩ := pure_ok.1 h
      have reads := (traitObject_reads hf inner).1
      refine ⟨none, _, .plain proper reads off fun w => ?_⟩
      rw [pathLike_eq]
      exact .yes ((reads.carriesSame proper off).mono (startsWord_of_shape ·.front _) id) dyn
        ((traitObject_rereads proper hf hg inner).returning fun _ same => same)
    | some b =>
      obtain ⟨again, d, us, more, ahead, isWord, chunks⟩ :=
        withBinder_rereads proper hf hg run.1 dyn inner h
      have front : Carries v .front Alike t.layout.chunks c.rest c'.rest := by
        rw [chunks]
        exact .word ahead
      refine ⟨none, t.layout.chunks, rfl, fun _ _ spelled link => ?_, fun _ _ spelled link => ?_,
        fun same => ?_⟩
      · rw [Link.ask, ← startsWord_of_shape (front spelled link), ahead]
        simp [startsWord, token?, isWord.2]
      · have same := front spelled link
        rw [ahead] at same ⊢
        exact .ofWord ⟨isWord.1, rfl⟩ (by rw [isWord.2]; decide) same
      · rw [binderAgain_none same, pathLike_eq]
        exact .yes (front.mono (startsWord_of_shape · _) id) dyn
          (again.returning fun _ same => same)
  · have unqualified : b.isSome = true → self = .unqualified := by
      cases b with
      | none =>
        intro off
        cases off
      | some b => exact fun _ => (qualifiedPathWithInputs_word run.2 path).1
    obtain ⟨kept, qs, chunks, left, rest, again⟩ :=
      afterPath_rereads (v := v) (n := n) proper hf hg unqualified h
    have front :
        Carries v .front Alike ((Node.pathType self p).layout.chunks ++ qs) c.rest c'.rest :=
      Link.front_append fun _ => qualifiedPathWithInputs_carries hf path
    have reads := qualifiedPathWithInputs_reads hf path
    refine ⟨kept, _, chunks, ?_, ?_, fun same => ?_⟩
    · have without (off : startsWord "for" c.rest = false) : BinderLeft v none _ c.rest c'.rest :=
        fun _ _ spelled link => off.symm.trans (startsWord_of_shape (front spelled link) _)
      cases b with
      | none =>
        obtain rfl : kept = none := left.elim id (·.1)
        exact without (run.1 ▸ run.2)
      | some b =>
        obtain rfl | ⟨rfl, plain, m, call, same⟩ := left
        · exact ⟨⟨c₀, c, run.1⟩, run.2⟩
        · obtain ⟨word, mark, more, eq, isWord, root, -⟩ := call_front hf run.2 path plain call
          replace chunks := chunks.symm.trans (same.trans eq)
          refine fun _ _ spelled _ => ?_
          rw [binderChunks, List.nil_append] at chunks
          rw [chunks] at spelled
          obtain ⟨⟨-, allowed⟩, t', _, rfl, same', -⟩ := spells_word.1 spelled
          have isWord' := isWord.of_erase same'
          have ne : t'.text ≠ "for" := by
            rw [isWord'.2]
            obtain identifier | root := root
            · exact (proper word allowed identifier).1
            · intro eq
              rw [eq] at root
              exact absurd root (by decide)
          simp [Link.ask, startsWord, token?, ne]
    · exact ((reads.carriesFront proper (qualifiedPathWithInputs_carries hf path)).append rest).mono
        SameAhead.typeAhead id
    · rw [pathLike_eq]
      refine .no (front.mono (startsWord_of_shape · _) id) off
        (.bind rest (qualifiedPathWithInputs_rereads proper hf hg path) ?_)
      rintro ⟨self', p'⟩ ⟨again₁, again₂⟩
      exact again same again₁ again₂

/-! ## Parentheses -/

theorem parenContents_rereads {x : Parenthesized} (h : parenContents g c = .ok x c') :
    Rereads v Alike w n (parenContents g') (x.Again v keep) x.chunks c'.rest := by
  have reads := parenContents_reads hf h
  have empty := reads.asks proper Alike.isEmpty
  have lifetime := reads.asks proper (Alike.startsKind (p := (· == .lifetime)) · rfl rfl)
  have query := reads.asks proper (Alike.startsPunct · (.inr rfl : "?" ∈ longSigns ∨ _))
  have comma {r r' : List TokenTree} (link : Alike r r') :
      startsPunct "," r = startsPunct "," r' := link.startsPunct (.inr rfl)
  unfold parenContents at h
  simp only [↓look_ite_ok, bind_ok, pure_ok] at h
  obtain ⟨on, rfl, rfl⟩ | ⟨off₁, ⟨on, t, _, run, rfl, rfl⟩ | ⟨off₂, ⟨on, b, _, run, rfl, rfl⟩ |
    ⟨off₃, first, c₁, type, h⟩⟩⟩ := h
  · exact .yes empty on (.pure ⟨.empty, rfl, rfl⟩)
  · exact .no empty off₁ (.yes lifetime on ((traitObject_rereads proper hf hg run).smaller.returning
      fun t' again => ⟨t', rfl, again⟩))
  · exact .no empty off₁ (.no lifetime off₂ (.yes query on
      ((traitBound_rereads proper hf hg run).smaller.returning fun b' again => ⟨b', rfl, again⟩)))
  · refine .no empty off₁ (.no lifetime off₂ (.no query off₃ ?_))
    obtain ⟨on, mark, c₂, sep, elems, _, run, rfl, rfl⟩ | ⟨off, rfl, rfl⟩ := h
    · have rest := (Takes.sign (by decide) sep rfl).reads.append (types_reads hf run)
      refine .bind (rest.carries proper) (hg.type type) fun first' again =>
        .yes (rest.asks proper comma) on ?_
      exact .free (a := [_]) (.punct sep) fun mark' same =>
        ((types_items proper hf hg true).list run).2.returning fun elems' again' =>
          ⟨_, rfl, by rw [Separated.seen_cons, Separated.seen_cons, again, same, again']⟩
    · rw [Parenthesized.chunks, ← List.append_nil first.layout.chunks]
      exact .bind .nil (hg.type type) fun first' again =>
        .no ((Reads.refl c₁).asks proper comma) off (.pure ⟨first', rfl, again⟩)

/-- A trait object goes on after its first bound. -/
theorem objectAfter_rereads {first : Bound} {t : Ty} (h : objectAfter g first c = .ok t c') :
    ∃ qs, t.layout.chunks = first.layout.chunks ++ qs ∧ Carries v Alike Alike qs c.rest c'.rest ∧
      ∀ {w first'}, first.Again v keep first' →
        Rereads v Alike w (n + 1) (objectAfter g' first') (t.Again v keep) qs c'.rest := by
  simp only [objectAfter, bind_ok, pure_ok] at h
  obtain ⟨bounds, c', run, rfl, rfl⟩ := h
  have items :=
    bounds_items proper hf hg (steady_joined (by decide) rfl (.inr rfl) : (joined "+").Steady)
  simp only [Node.layout, ChunkLayout.chunks_whole, Node.chunks_ofSeparated,
    Separated.chunks_first (listFrom_first run)]
  refine ⟨_, rfl, items.after run, fun again => ?_⟩
  exact (items.listAfter (Nat.le_refl _) again run).returning fun bounds' seen => by
    simp only [Node.Again, Node.seen, Node.seen_ofSeparated, seen, Option.map_none]

omit proper hf hg in
theorem boundOfType?_again {paren paren' : Delim} {t t' : Ty} (same : paren'.erase = paren.erase)
    (again : t.Again v keep t') :
    (boundOfType? paren' t').map (Node.seen (v.sight keep)) =
      (boundOfType? paren t).map (Node.seen (v.sight false)) := by
  rw [← Node.boundOfType?_seen, ← Node.boundOfType?_seen, same, again]

omit proper hf hg in
/-- The contents of parentheses from which the inner ones were removed. -/
theorem unwrapped_rereads {query : Token} {binder : Option Binder} {p : Path} {c₁ c₂ : Cursor}
    (mark : punct "?" c₁ = .ok query c₂)
    (again : Rereads v Alike w n (traitBound g')
      ((Node.traitBound none (some query) binder p).Again v keep)
      (Node.traitBound none (some query) binder p).layout.chunks []) :
    Rereads v Alike w n (parenContents g')
      ((Parenthesized.bound (.traitBound none (some query) binder p)).Again v keep)
      (Node.traitBound none (some query) binder p).layout.chunks [] := by
  have front : Carries v .front Alike (Node.traitBound none (some query) binder p).layout.chunks
      c₁.rest [] := by
    simp only [Node.layout, ChunkLayout.chunks_whole]
    exact .markFront (Takes.sign (by decide) mark rfl)
  obtain ⟨starts, -⟩ := punct_ok mark
  obtain ⟨t, us, eq, kind, -⟩ := startsChars_one.1 starts
  refine .no (front.mono isEmpty_of_shape id) (by rw [eq]; rfl)
    (.no (front.mono (startsKind_of_shape · _) id)
      (by simp [eq, startsLifetime, startsKind, token?, kind])
      (.yes (front.mono (startsChars_of_shape · _) id) starts ?_))
  exact again.returning fun b' again => ⟨b', rfl, again⟩

/-- A type in parentheses that is a bound is read again as that bound. -/
theorem promoted_rereads {plus : Bool} {paren : Delim} {elem t : Ty} {b : Bound} {c₁ : Cursor}
    (group : inGroup .paren (parenContents g) c = .ok (paren, .type elem) c₁)
    (promoted : boundOfType? paren elem = some b)
    (goesOn : (plus && startsPunct "+" c₁.rest) = true) (h : objectAfter g b c₁ = .ok t c') :
    Rereads v Alike w (n + 1) (parenthesized g' plus) (t.Again v keep) t.layout.chunks c'.rest := by
  obtain ⟨qs, chunks, carry, after⟩ := objectAfter_rereads (v := v) proper hf hg h
  rw [chunks]
  obtain ⟨us, o, e, c₂, -, rfl, run, -⟩ := inGroup_ok group
  have usual (same : b.layout.chunks = [.group ⟨.paren, o⟩ elem.layout.chunks]) :
      Rereads v Alike w (n + 1) (parenthesized g' plus) (t.Again v keep) (b.layout.chunks ++ qs)
        c'.rest := by
    have more {r r' : List TokenTree} (link : Alike r r') :
        (plus && startsPunct "+" r) = (plus && startsPunct "+" r') := by
      rw [link.startsPunct (.inr rfl)]
    rw [same]
    refine .free (a := [_]) (inGroup_rereads (f := Parenthesized.chunks) alike_nil
      (fun run => parenContents_rereads proper hf hg run) group) ?_
    rintro ⟨paren', x'⟩ ⟨sameParen, elem', rfl, again⟩
    refine .yes (carry.mono more id) goesOn ?_
    have bounds := boundOfType?_again sameParen again
    rw [promoted] at bounds
    obtain ⟨b', eq, again'⟩ := Option.map_eq_some_iff.1 bounds
    rw [eq]
    exact after again'
  obtain ⟨p, rfl, rfl⟩ | ⟨b', rfl, rfl⟩ := boundOfType?_ok promoted
  · exact usual (by simp only [Node.layout, ChunkLayout.chunks_whole]; rfl)
  · obtain ⟨modifier, binder, p, rfl⟩ | ⟨inner, query, binder, p, rfl, ⟨c₃, c₄, mark⟩, again⟩ :=
      hg.lone (parenContents_type run)
    · exact usual (by rw [chunks_inParens, Node.chunks_lone])
    · have unwrapped : (inParens ⟨.paren, o⟩
          (.traitBound (some inner) (some query) binder p)).layout.chunks =
            [.group ⟨.paren, o⟩ (Node.traitBound none (some query) binder p).layout.chunks] := by
        simp only [inParens, Node.layout, ChunkLayout.chunks_whole]
      rw [unwrapped]
      refine .free (a := [_]) (.group (k := ⟨.paren, o⟩) alike_nil fun w =>
        unwrapped_rereads mark (again w)) ?_
      rintro ⟨paren', x'⟩ ⟨sameParen, b', rfl, again'⟩
      exact after (inParens_again (b := .traitBound none (some query) binder p) sameParen again')

theorem parenthesized_rereads {plus : Bool} {t : Ty} (h : parenthesized g plus c = .ok t c') :
    Rereads v Alike w (n + 1) (parenthesized g' plus) (t.Again v keep) t.layout.chunks c'.rest := by
  simp only [parenthesized, bind_ok] at h
  obtain ⟨⟨paren, x⟩, c₁, group, h⟩ := h
  have inside := inGroup_rereads (w := w) (E := .any) (r := [])
    (f := Parenthesized.chunks) alike_nil (fun run => parenContents_rereads proper hf hg run) group
  have more {r r' : List TokenTree} (link : Alike r r') :
      (plus && startsPunct "+" r) = (plus && startsPunct "+" r') := by
    rw [link.startsPunct (.inr rfl)]
  cases x with
  | tuple elems =>
    obtain ⟨rfl, rfl⟩ := pure_ok.1 h
    simp only [Node.layout, ChunkLayout.chunks_whole, Node.chunks_ofSeparated]
    refine .free (b := []) inside ?_
    rintro ⟨paren', x'⟩ ⟨same, elems', rfl, again⟩
    exact .pure (by simp only [Node.Again, Node.seen, Node.seen_ofSeparated, same, again])
  | object elem =>
    obtain ⟨rfl, rfl⟩ := pure_ok.1 h
    simp only [Node.layout, ChunkLayout.chunks_whole]
    refine .free (b := []) inside ?_
    rintro ⟨paren', x'⟩ ⟨same, elem', rfl, again⟩
    exact .pure (by simp only [Node.Again, Node.seen, same] at again ⊢; rw [again])
  | bound b =>
    obtain ⟨qs, chunks, carry, after⟩ := objectAfter_rereads (v := v) proper hf hg h
    obtain ⟨us, o, e, c₂, -, rfl, run, -⟩ := inGroup_ok group
    obtain ⟨-, modifier, binder, p, rfl, -⟩ := traitBound_reads hf (parenContents_bound run).2
    rw [chunks, chunks_inParens]
    refine .free inside ?_
    rintro ⟨paren', x'⟩ ⟨same, b', rfl, again⟩
    exact after (inParens_again same again)
  | type elem =>
    simp only [↓look_ite_ok, pure_ok] at h
    obtain ⟨on, h⟩ | ⟨off, rfl, rfl⟩ := h
    · cases promoted : boundOfType? paren elem with
      | none =>
        simp only [promoted, pure_ok] at h
        obtain ⟨rfl, rfl⟩ := h
        simp only [Node.layout, ChunkLayout.chunks_whole]
        refine .free (b := []) inside ?_
        rintro ⟨paren', x'⟩ ⟨same, elem', rfl, again⟩
        refine .yes ((Reads.refl c₁).asks proper more) on ?_
        have bounds := boundOfType?_again same again
        rw [promoted] at bounds
        rw [Option.map_eq_none_iff.1 bounds]
        exact .pure (by simp only [Node.Again, Node.seen, same] at again ⊢; rw [again])
      | some b =>
        simp only [promoted] at h
        exact promoted_rereads proper hf hg group promoted on h
    · simp only [Node.layout, ChunkLayout.chunks_whole]
      refine .free (b := []) inside ?_
      rintro ⟨paren', x'⟩ ⟨same, elem', rfl, again⟩
      exact .no ((Reads.refl c₁).asks proper more) off
        (.pure (by simp only [Node.Again, Node.seen, same] at again ⊢; rw [again]))

/-! ## All types -/

omit proper hf hg in
theorem startsBareFn_word {r : List TokenTree} (h : startsBareFn r = true) :
    startsWord "for" r = false := by
  cases on : startsWord "for" r with
  | false => rfl
  | true =>
    obtain ⟨t, us, rfl, -, text⟩ := startsWord_token on
    simp [startsBareFn, startsWord, token?, text] at h

theorem bareFnAfter_behind {b : Option Binder} {t : Ty} {c₀ : Cursor} (run : BinderRun c₀ b c)
    (fn : startsBareFn c.rest = true) (h : bareFnAfter g b c = .ok t c') :
    ∃ ps, Behind v keep (n + 1) (bareFnAfter g') t b ps c.rest c'.rest := by
  obtain ⟨ps, chunks, again⟩ := bareFnAfter_rereads proper hf hg h
  obtain ⟨ps', chunks', reads⟩ := bareFnAfter_reads hf h
  rw [← List.append_cancel_left (chunks.symm.trans chunks')] at reads
  have same := reads.carriesSame proper (startsBareFn_word fn)
  refine ⟨ps, chunks, ?_, same.mono SameAhead.typeAhead id, again⟩
  cases b with
  | none => exact fun _ _ spelled link =>
      (startsBareFn_word fn).symm.trans (startsWord_of_shape (same spelled link).front _)
  | some b => exact ⟨⟨c₀, c, run.1⟩, run.2⟩

omit proper hf hg in
theorem Behind.bareFn {plus : Bool} {t : Ty} {kept : Option Binder} {ps : List Chunk}
    {r r' : List TokenTree} (h : Behind v keep n (bareFnAfter g') t kept ps r r')
    (paren : startsGroup .paren r = false) (fn : startsBareFn r = true) :
    Behind v keep n (fun b' => typeAfter g' b' plus) t kept ps r r' :=
  ⟨h.chunks, h.binder, h.front, fun same => .no (h.front.mono (startsGroup_of_shape ·.front _) id)
    paren (.yes (h.front.mono (·.bareFn) id) fn (h.again same))⟩

omit proper hf hg in
theorem Behind.path {plus : Bool} {t : Ty} {kept : Option Binder} {ps : List Chunk}
    {r r' : List TokenTree}
    (h : Behind v keep n (fun b' => pathLike g' b' plus) t kept ps r r')
    (paren : startsGroup .paren r = false) (fn : startsBareFn r = false)
    (path : startsPath r = true) :
    Behind v keep n (fun b' => typeAfter g' b' plus) t kept ps r r' :=
  ⟨h.chunks, h.binder, h.front, fun same => .no (h.front.mono (startsGroup_of_shape ·.front _) id)
    paren (.no (h.front.mono (·.bareFn) id) fn (.yes (h.front.mono (·.path) id) path
      (h.again same)))⟩

theorem typeAfter_rereads {plus : Bool} {b : Option Binder} {t : Ty} {c₀ : Cursor}
    (run : BinderRun c₀ b c) (h : typeAfter g b plus c = .ok t c') :
    ∃ kept ps, Behind v keep (n + 1) (fun b' => typeAfter g' b' plus) t kept ps c.rest c'.rest := by
  cases b with
  | none =>
    obtain ⟨rfl, off⟩ := run
    have reads := typeAfter_reads hf (b := none) ⟨rfl, off⟩ h
    have ahead := (reads.carriesSame proper off).mono SameAhead.typeAhead id
    have group {d : Delimiter} := ahead.mono (startsGroup_of_shape ·.front d) id
    have fn := ahead.mono (·.bareFn) id
    have path := ahead.mono (·.path) id
    have sign {op : Char} := ahead.mono (startsChars_of_shape ·.front op) id
    have bang := ahead.mono (·.bang) id
    have word {w : String} := ahead.mono (startsWord_of_shape ·.front w) id
    have lifetime := ahead.mono (startsKind_of_shape ·.front (· == .lifetime)) id
    unfold typeAfter at h
    simp only [↓look_ite_ok, failNoneOf_ok] at h
    obtain ⟨on, h⟩ | ⟨off₁, h⟩ := h
    · exact ⟨none, _, .plain proper reads off fun w =>
        .yes group on (parenthesized_rereads proper hf hg h)⟩
    obtain ⟨on, h⟩ | ⟨off₂, h⟩ := h
    · obtain ⟨ps, behind⟩ := bareFnAfter_behind proper hf hg (b := none) ⟨rfl, off⟩ on h
      exact ⟨none, ps, behind.bareFn off₁ on⟩
    obtain ⟨on, h⟩ | ⟨off₃, h⟩ := h
    · obtain ⟨kept, ps, behind⟩ := pathLike_rereads proper hf hg (b := none) ⟨rfl, off⟩ h
      exact ⟨kept, ps, behind.path off₁ off₂ on⟩
    -- the other types have no place for a binder
    refine ⟨none, _, .plain proper reads off fun w =>
      .no group off₁ (.no fn off₂ (.no path off₃ ?_))⟩
    obtain ⟨on, h⟩ | ⟨off₄, h⟩ := h
    · exact .yes group on (arrayOrSlice_rereads proper hf hg h)
    refine .no group off₄ ?_
    obtain ⟨on, h⟩ | ⟨off₅, h⟩ := h
    · exact .yes sign on (pointer_rereads hg h)
    refine .no sign off₅ ?_
    obtain ⟨on, h⟩ | ⟨off₆, h⟩ := h
    · exact .yes sign on (reference_rereads proper hf hg h)
    refine .no sign off₆ ?_
    obtain ⟨on, h⟩ | ⟨off₇, h⟩ := h
    · exact .yes bang on (never_rereads proper h)
    refine .no bang off₇ ?_
    obtain ⟨on, h⟩ | ⟨off₈, h⟩ := h
    · exact .yes word on (implTrait_rereads proper hf hg h)
    refine .no word off₈ ?_
    obtain ⟨on, h⟩ | ⟨off₉, ⟨on, h⟩ | ⟨-, ⟨⟩⟩⟩ := h
    · exact .yes word on (infer_rereads h)
    · exact .no word off₉ (.yes lifetime on (traitObject_rereads proper hf hg h))
  | some b =>
    unfold typeAfter at h
    simp only [↓look_ite_ok, failNoneOf_ok] at h
    cases fn : startsBareFn c.rest with
    | true =>
      obtain ⟨u, us, eq, -⟩ := afterBinder_word run.2
      have paren : startsGroup .paren c.rest = false := by
        rw [eq]
        rfl
      simp only [fn, paren, Bool.false_eq_true, false_and, false_or, true_and, reduceCtorEq,
        or_false] at h
      obtain ⟨ps, behind⟩ := bareFnAfter_behind proper hf hg run fn h
      exact ⟨some b, ps, behind.bareFn paren fn⟩
    | false =>
      obtain ⟨paren, path⟩ := afterBinder_path run.2 fn
      simp only [fn, paren, path, Bool.false_eq_true, false_and, false_or, true_and,
        reduceCtorEq, or_false] at h
      obtain ⟨kept, ps, behind⟩ := pathLike_rereads proper hf hg run h
      exact ⟨kept, ps, behind.path paren fn path⟩

omit proper hf hg in
theorem afterBinder_of_shape {r r' : List TokenTree} (h : shape r = shape r') :
    (afterBinder.any fun e => e.isMet r) = afterBinder.any fun e => e.isMet r' := by
  simp only [afterBinder, List.any_cons, List.any_nil, Expectation.isMet, startsIdentifier,
    startsKind_of_shape h, startsWord_of_shape h]

omit hf hg in
/-- The binder that is left is read again, and what is behind it. -/
theorem Behind.type {plus : Bool} {t : Ty} {kept : Option Binder} {ps : List Chunk}
    {r r' : List TokenTree} (h : Behind v keep n (fun b' => typeAfter g' b' plus) t kept ps r r')
    (visible : startsGroup .invisible r = false) :
    Rereads v Alike w n (type g' plus) (t.Again v keep) t.layout.chunks r' := by
  rw [h.chunks]
  cases kept with
  | none =>
    refine .no (h.front.mono (startsGroup_of_shape ·.front _) id) visible ?_
    exact .bind (x := []) (L := .ask (startsWord "for")) h.binder
      (R := BinderAgain v keep none) (.no (s := []) .nil rfl (.pure rfl)) fun b' => h.again
  | some b =>
    obtain ⟨⟨c₁, c₂, run⟩, follows⟩ := h.binder
    obtain ⟨_, _, _, forToken, -⟩ := binder_ok run
    obtain ⟨-, isFor⟩ := keyword_ok forToken
    have front {E : Link} {qs : List Chunk} {r' : List TokenTree} :
        Carries v .front E (binderChunks (some b) ++ qs) [.token b.forToken] r' := .word rfl
    refine .no (front.mono (startsGroup_of_shape · _) id) rfl ?_
    refine .bind (x := r) (L := .front) (h.front.mono (·.front) id)
      (R := BinderAgain v keep (some b)) ?_ fun b' => h.again
    rw [← List.append_nil (binderChunks (some b))]
    refine .yes (front.mono (startsWord_of_shape · _) id) (startsWord_of_isWord isFor _) ?_
    refine .bind .nil (binder_rereads (k := keep) proper run) fun b' same => ?_
    exact .yes (Carries.nil.mono afterBinder_of_shape id) follows
      (.pure (by rw [BinderAgain, Option.map_some, Option.map_some, same]))

theorem type_rereads {plus : Bool} {t : Ty} (h : type g plus c = .ok t c') :
    Rereads v Alike w (n + 1) (type g' plus) (t.Again v keep) t.layout.chunks c'.rest := by
  have asks := (type_reads hf h).asks proper (Alike.startsGroup · .invisible)
  unfold type at h
  simp only [↓look_ite_ok, bind_ok] at h
  obtain ⟨on, h⟩ | ⟨off, b, c₁, binder, h⟩ := h
  · exact .yes asks on (groupType_rereads hg h)
  · have run := typeBinder?_ok binder
    obtain ⟨kept, ps, behind⟩ := typeAfter_rereads proper hf hg run h
    refine behind.type proper ?_
    cases b with
    | none => exact run.1 ▸ off
    | some b =>
      obtain ⟨t, us, eq, -⟩ := afterBinder_word run.2
      rw [eq]
      rfl

/-! ### One level -/

omit proper hf hg in
/-- A lone bound in two pairs of parentheses is read again in one of them. -/
theorem type_loneRereads {plus : Bool} {b : Bound} {g'' : Grammar} {m : Nat}
    (again : ∀ {b c c' w}, traitBound g c = .ok b c' →
      Rereads v Alike w m (traitBound g'') (b.Again v keep) b.layout.chunks c'.rest)
    (h : type g plus c = .ok (.traitObject none (.last b)) c') :
    (∃ modifier binder p, b = .traitBound none modifier binder p) ∨
      ∃ paren query binder p, b = .traitBound (some paren) (some query) binder p ∧
        (∃ c₁ c₂, punct "?" c₁ = .ok query c₂) ∧
        ∀ w, Rereads v Alike w m (traitBound g'')
          ((Node.traitBound none (some query) binder p).Again v keep)
          (Node.traitBound none (some query) binder p).layout.chunks [] := by
  refine (type_lone h).imp id ?_
  rintro ⟨us, o, e, binder, query, p, c₁, -, -, done, run, rfl⟩
  refine ⟨⟨.paren, o⟩, query, binder, p, rfl, ?_, fun w => done ▸ again run⟩
  simp only [traitBound, bind_ok, pure_ok] at run
  obtain ⟨modifier, c₂, mark, _, _, -, _, _, -, eq, -⟩ := run
  cases eq
  obtain ⟨⟨⟩, -⟩ | ⟨_, eq, mark⟩ := punct?_ok mark
  cases eq
  exact ⟨_, _, mark⟩

theorem above_rereads (up : g.Rereads v keep n (Grammar.above g')) :
    (Grammar.above g).Rereads v keep (n + 1) (Grammar.above g') where
  type := type_rereads proper hf hg
  bound := bound_rereads proper hf hg
  expr := expr_rereads proper hf hg
  lone := type_loneRereads (traitBound_rereads proper hf up)

end

/-! ## All depths -/

theorem ofDepth_rereads (proper : v.Proper) (depth n : Nat) :
    (Grammar.ofDepth depth).Rereads v keep n (Grammar.ofDepth n) := by
  induction depth generalizing n with
  | zero =>
    have type : ∀ {plus t c c'}, (Grammar.ofDepth 0).type plus c = .ok t c' → False := fail_ok.1
    have bound : ∀ {b c c'}, (Grammar.ofDepth 0).bound c = .ok b c' → False := fail_ok.1
    have expr : ∀ {power e c c'}, (Grammar.ofDepth 0).expr power c = .ok e c' → False := fail_ok.1
    exact ⟨fun h => (type h).elim, fun h => (bound h).elim, fun h => (expr h).elim,
      fun h => (type h).elim⟩
  | succ depth ih =>
    have faithful := ofDepth_faithful depth
    cases n with
    | zero =>
      exact ⟨fun _ => .tiny, fun _ => .tiny, fun _ => .tiny, type_loneRereads fun _ => .tiny⟩
    | succ n => exact above_rereads proper faithful (ih n) (ih (n + 1)).smaller

end Parse

end TypeGrammar
