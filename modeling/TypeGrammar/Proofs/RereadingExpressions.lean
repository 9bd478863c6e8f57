import Mathlib.Data.List.Find
import TypeGrammar.Proofs.RereadingPaths

/-!
# Bounds and expressions that are read again

The parsers of bounds and expressions read again what they have read, one level above the parsers
for nested syntax. An expression is an operand with operators after it; the operator that is found
after an operand in the second reading is the one of the first, as no longer one can be read there.
-/

namespace TypeGrammar

open TokenTree

namespace Parse

open TypeGrammar.Parser

variable {v : View} {keep : Bool} {w n : Nat} {g g' : Grammar} {c c' : Cursor}

/-! ## Bounds -/

/-- A binder that was read somewhere, or none where none is at the front. -/
def BinderKnown (b : Option Binder) (ahead : List TokenTree) : Prop :=
  match b with
  | none => startsWord "for" ahead = false
  | some b => ∃ c₁ c₂, binder c₁ = .ok b c₂

theorem binderKnown {b : Option Binder} (h : binder? c = .ok b c') : BinderKnown b c'.rest := by
  obtain ⟨rfl, off, rfl⟩ | ⟨b', rfl, run⟩ := binder?_ok h
  · exact off
  · exact ⟨c, c', run⟩

/-- A word or a colon is at the front, as of a path or a binder. -/
def StartsPathLike (r : List TokenTree) : Prop :=
  ∃ t us, r = .token t :: us ∧
    (t.kind = .keyword ∨ t.kind = .identifier ∨ (t.kind = .punct ∧ t.text = ":"))

theorem StartsPathLike.off {r : List TokenTree} (h : StartsPathLike r) :
    startsPunct "?" r = false ∧ startsLifetime r = false ∧ startsGroup .paren r = false := by
  obtain ⟨t, us, rfl, kind | kind | ⟨kind, text⟩⟩ := h
  · simp [startsPunct, startsChars, startsLifetime, startsKind, token?, startsGroup, kind]
  · simp [startsPunct, startsChars, startsLifetime, startsKind, token?, startsGroup, kind]
  · simp [startsPunct, startsChars, startsLifetime, startsKind, token?, startsGroup, kind, text]

theorem path_starts {inExpr : Bool} {p : Path} (h : path g inExpr c = .ok p c') :
    StartsPathLike c.rest := by
  simp only [path, bind_ok, pure_ok] at h
  obtain ⟨leading, c₁, colons, s, _, run, rfl, rfl⟩ := h
  obtain ⟨rfl, -, rfl⟩ | ⟨t, rfl, mark⟩ := punct?_ok colons
  · obtain ⟨first, c₂, start, -⟩ := list1_ok run
    obtain ⟨ident, a, us, rfl, eq, word, -⟩ := segment_front start
    exact ⟨ident, us, eq, word.1.imp_right .inl⟩
  · obtain ⟨starts, -⟩ := punct_ok mark
    obtain ⟨t, us, eq, kind, text⟩ := startsChars_one.1 (startsChars_cons starts)
    exact ⟨t, us, eq, .inr (.inr ⟨kind, text⟩)⟩

theorem pathWithInputs_starts {p : Path} (h : pathWithInputs g c = .ok p c') :
    StartsPathLike c.rest := by
  unfold pathWithInputs at h
  simp only [↓look_ite_ok, bind_ok, pure_ok] at h
  obtain ⟨p, c₁, run, -⟩ := h
  exact path_starts run

/-- A binder that was read is at the front, or what comes after it. -/
theorem BinderKnown.carries {b : Option Binder} {E : Link} {ps : List Chunk}
    {r r' : List TokenTree} (known : BinderKnown b r) (front : Carries v .front E ps r r')
    (starts : StartsPathLike r) :
    ∃ s, Carries v .front E (binderChunks b ++ ps) s r' ∧ StartsPathLike s := by
  cases b with
  | none => exact ⟨r, front, starts⟩
  | some b =>
    obtain ⟨c₁, c₂, run⟩ := known
    obtain ⟨_, _, _, forToken, -⟩ := binder_ok run
    obtain ⟨-, isFor⟩ := keyword_ok forToken
    exact ⟨[.token b.forToken], .word rfl, _, _, rfl, isFor.1.imp_right .inl⟩

theorem binder?_rereadsKnown {k : Bool} {b : Option Binder} {r : List TokenTree} (proper : v.Proper)
    (known : BinderKnown b r) :
    Rereads v (.ask (startsWord "for")) w n binder?
      (fun b' => b'.map (Binder.seen (v.sight k)) = b.map (Binder.seen (v.sight false)))
      (binderChunks b) r := by
  cases b with
  | none => exact .no (s := r) .nil known (.pure rfl)
  | some b =>
    obtain ⟨c₁, c₂, run⟩ := known
    obtain ⟨_, _, _, forToken, -⟩ := binder_ok run
    obtain ⟨-, isFor⟩ := keyword_ok forToken
    exact .yes (s := [.token b.forToken])
      ((Carries.word rfl).mono (fun same => startsWord_of_shape same _) id)
      (startsWord_of_isWord isFor _)
      ((binder_rereads (k := k) proper run).returning fun b' same => by simp [same])

section

variable (proper : v.Proper) (hf : g.Faithful) (hg : g.Rereads v keep n g')
include proper hf hg

/-- A trait bound from a modifier, a binder and a path that were read. -/
theorem traitBound_rereadsParts {modifier : Option Token} {b : Option Binder} {p : Path}
    {c₁ c₂ : Cursor} (query : punct? "?" c = .ok modifier c₁) (known : BinderKnown b c₂.rest)
    (run : pathWithInputs g c₂ = .ok p c') :
    Rereads v Alike w (n + 1) (traitBound g') ((Node.traitBound none modifier b p).Again v keep)
      (Node.traitBound none modifier b p).layout.chunks c'.rest := by
  obtain ⟨s, front, starts⟩ :=
    known.carries (pathWithInputs_carries (v := v) (E := Alike) hf run) (pathWithInputs_starts run)
  have rest (modifier' : Option Token)
      (same : modifier'.map Token.erase = modifier.map Token.erase) :
      Rereads v Alike w (n + 1)
        (binder? >>= fun b' => pathWithInputs g' >>= fun p' =>
          pure (.traitBound none modifier' b' p'))
        ((Node.traitBound none modifier b p).Again v keep) (binderChunks b ++ p.layout.chunks)
        c'.rest := by
    refine .bind ((pathWithInputs_carries hf run).mono (startsWord_of_shape · _) id)
      (binder?_rereadsKnown (k := keep) proper known) fun b' same' => ?_
    exact (pathWithInputs_rereads proper hf hg run).returning fun p' again => by
      simp only [Node.Again, Node.seen, same, same', again, Option.map_none]
  simp only [Node.layout, ChunkLayout.chunks_whole]
  obtain ⟨rfl, -, rfl⟩ | ⟨t, rfl, mark⟩ := punct?_ok query
  · exact .withoutMark (front.mono (startsChars_of_shape · _) id) starts.off.1 (rest none rfl)
  · exact .withMark mark fun t' same => rest (some t') (by simp [same])

theorem traitBound_rereads {b : Bound} (h : traitBound g c = .ok b c') :
    Rereads v Alike w (n + 1) (traitBound g') (b.Again v keep) b.layout.chunks c'.rest := by
  simp only [traitBound, bind_ok, pure_ok] at h
  obtain ⟨modifier, c₁, query, b, c₂, lifetimes, p, _, run, rfl, rfl⟩ := h
  exact traitBound_rereadsParts proper hf hg query (binderKnown lifetimes) run

omit proper hf hg in
theorem inParens_again {b b' : Bound} {paren paren' : Delim} (same : paren'.erase = paren.erase)
    (again : b.Again v keep b') : (inParens paren b).Again v keep (inParens paren' b') := by
  cases b <;> cases b' <;> simp_all [Node.Again, Node.seen, inParens]

theorem bound_rereads {b : Bound} (h : bound g c = .ok b c') :
    Rereads v Alike w (n + 1) (bound g') (b.Again v keep) b.layout.chunks c'.rest := by
  have reads := bound_reads hf h
  have lifetime := reads.asks proper (Alike.startsKind (p := (· == .lifetime)) · rfl rfl)
  have paren := reads.asks proper (Alike.startsGroup · .paren)
  unfold bound at h
  simp only [↓look_ite_ok, bind_ok, pure_ok] at h
  obtain ⟨on, l, _, run, rfl, rfl⟩ |
    ⟨off, ⟨on, ⟨delim, b⟩, _, group, rfl, rfl⟩ | ⟨off', run⟩⟩ := h
  · refine .yes lifetime on ?_
    simp only [Node.layout, ChunkLayout.chunks_whole]
    exact (lifetime_rereads run).returning fun l' same => by simp only [Node.Again, Node.seen, same]
  · refine .no lifetime off (.yes paren on ?_)
    obtain ⟨us, o, e, c₁, -, rfl, run, done⟩ := inGroup_ok group
    obtain ⟨-, modifier, binder, p, rfl, -⟩ := traitBound_reads hf run
    rw [chunks_inParens]
    exact (Rereads.group (k := ⟨.paren, o⟩) alike_nil fun w =>
      done ▸ (traitBound_rereads proper hf hg run).smaller).returning fun x again =>
        inParens_again again.1 again.2
  · exact .no lifetime off (.no paren off' (traitBound_rereads proper hf hg run))

omit proper hg in
/-- With another binder a trait bound starts with neither a lifetime nor a parenthesis. -/
theorem traitBound_carriesBinder {E : Link} {modifier : Option Token} {old : Option Binder}
    {p : Path} {b : Binder} {c₁ c₂ : Cursor} {r' : List TokenTree}
    (front : binder c₁ = .ok b c₂) (h : traitBound g c = .ok (.traitBound none modifier old p) c') :
    ∃ s, Carries v .front E (Node.traitBound none modifier (some b) p).layout.chunks s r' ∧
      startsLifetime s = false ∧ startsGroup .paren s = false := by
  simp only [traitBound, bind_ok, pure_ok] at h
  obtain ⟨modifier, c₃, query, _, c₄, -, p, _, run, eq, rfl⟩ := h
  cases eq
  simp only [Node.layout, ChunkLayout.chunks_whole]
  obtain ⟨rfl, -, rfl⟩ | ⟨t, rfl, mark⟩ := punct?_ok query
  · have known : BinderKnown (some b) c₄.rest := ⟨c₁, c₂, front⟩
    obtain ⟨s, front, starts⟩ :=
      known.carries (pathWithInputs_carries (v := v) (E := E) hf run) (pathWithInputs_starts run)
    exact ⟨s, front, starts.off.2⟩
  · obtain ⟨t', us, eq, kind, -⟩ := startsChars_one.1 (punct_ok mark).1
    refine ⟨_, .markFront (Takes.sign (by decide) mark rfl), ?_⟩
    simp [eq, startsLifetime, startsKind, token?, startsGroup, kind]

theorem traitBound_rereadsBinder {modifier : Option Token} {old : Option Binder} {p : Path}
    {b : Binder} {c₁ c₂ : Cursor} (front : binder c₁ = .ok b c₂)
    (h : traitBound g c = .ok (.traitBound none modifier old p) c') :
    Rereads v Alike w (n + 1) (traitBound g')
      ((Node.traitBound none modifier (some b) p).Again v keep)
      (Node.traitBound none modifier (some b) p).layout.chunks c'.rest := by
  simp only [traitBound, bind_ok, pure_ok] at h
  obtain ⟨modifier, c₃, query, _, c₄, -, p, _, run, eq, rfl⟩ := h
  cases eq
  exact traitBound_rereadsParts proper hf hg query ⟨c₁, c₂, front⟩ run

/-- A bound is read again with another binder. -/
theorem bound_rereadsBinder {paren : Option Delim} {modifier : Option Token}
    {old : Option Binder} {p : Path} {b : Binder} {c₁ c₂ : Cursor}
    (front : binder c₁ = .ok b c₂) (h : bound g c = .ok (.traitBound paren modifier old p) c') :
    Rereads v Alike w (n + 1) (bound g')
      ((Node.traitBound paren modifier (some b) p).Again v keep)
      (Node.traitBound paren modifier (some b) p).layout.chunks c'.rest := by
  unfold bound at h
  simp only [↓look_ite_ok, bind_ok, pure_ok] at h
  obtain ⟨-, l, _, -, eq, -⟩ | ⟨-, ⟨-, ⟨delim, inner⟩, _, group, eq, rfl⟩ | ⟨-, run⟩⟩ := h
  · cases eq
  · obtain ⟨us, o, e, c₃, -, rfl, run, done⟩ := inGroup_ok group
    obtain ⟨-, m, old', q, rfl, -⟩ := traitBound_reads hf run
    cases eq
    have front' {E : Link} {r' : List TokenTree} : Carries v .front E
        [.group ⟨.paren, o⟩ (Node.traitBound none modifier (some b) p).layout.chunks]
        [.group .paren [] o o] r' := .group rfl
    have chunks : (Node.traitBound (some ⟨.paren, o⟩) modifier (some b) p).layout.chunks =
        [.group ⟨.paren, o⟩ (Node.traitBound none modifier (some b) p).layout.chunks] := by
      simp only [Node.layout, ChunkLayout.chunks_whole]
    rw [chunks]
    refine .no (front'.mono (startsKind_of_shape · _) id) rfl
      (.yes (front'.mono (startsGroup_of_shape · _) id) rfl ?_)
    exact (Rereads.group (k := ⟨.paren, o⟩) alike_nil fun w =>
      done ▸ (traitBound_rereadsBinder proper hf hg front run).smaller).returning fun x again =>
        inParens_again (b := .traitBound none modifier (some b) p) again.1 again.2
  · obtain ⟨-, m, old', q, eq, -⟩ := traitBound_reads hf run
    cases eq
    obtain ⟨s, front', lifetime, paren⟩ :=
      traitBound_carriesBinder (v := v) (E := Alike) hf front run
    exact .no (front'.mono (startsKind_of_shape · _) id) lifetime
      (.no (front'.mono (startsGroup_of_shape · _) id) paren
        (traitBound_rereadsBinder proper hf hg front run))

omit proper hg in
theorem traitBound_carries {E : Link} {b : Bound} {r' : List TokenTree}
    (h : traitBound g c = .ok b c') : Carries v .front E b.layout.chunks c.rest r' := by
  simp only [traitBound, bind_ok, pure_ok] at h
  obtain ⟨modifier, c₁, query, b, c₂, lifetimes, p, _, run, rfl, rfl⟩ := h
  simp only [Node.layout, ChunkLayout.chunks_whole]
  obtain ⟨rfl, -, rfl⟩ | ⟨t, rfl, mark⟩ := punct?_ok query
  · obtain ⟨rfl, -, rfl⟩ | ⟨b, rfl, front⟩ := binder?_ok lifetimes
    · exact pathWithInputs_carries hf run
    · obtain ⟨_, _, _, forToken, -⟩ := binder_ok front
      exact .word (keyword_ok forToken).1
  · exact .markFront (Takes.sign (by decide) mark rfl)

omit proper hg in
theorem bound_carries {E : Link} {b : Bound} {r' : List TokenTree} (h : bound g c = .ok b c') :
    Carries v .front E b.layout.chunks c.rest r' := by
  unfold bound at h
  simp only [↓look_ite_ok, bind_ok, pure_ok] at h
  obtain ⟨-, l, _, run, rfl, rfl⟩ | ⟨-, ⟨-, ⟨delim, b⟩, _, group, rfl, rfl⟩ | ⟨-, run⟩⟩ := h
  · simp only [Node.layout, ChunkLayout.chunks_whole]
    exact .word (Parser.lifetime_ok (lifetime_ok run)).1
  · obtain ⟨us, o, e, c₁, eq, rfl, run, -⟩ := inGroup_ok group
    obtain ⟨-, modifier, binder, p, rfl, -⟩ := traitBound_reads hf run
    rw [chunks_inParens]
    exact .group eq
  · exact traitBound_carries hf run

end

/-! ## Expressions -/

theorem operand_nil : Link.operand [] [] :=
  ⟨sameAhead_nil, rfl⟩

theorem unaryOperator?_alike {r r' : List TokenTree} (h : SameAhead r r') :
    unaryOperator? r = unaryOperator? r' := by
  have single : ∀ op ∈ unaryOperators, op.toList.length = 1 := by decide
  exact List.find?_congr fun op mem => Alike.startsPunct (.inl h) (.inr (single op mem))

/-- The binary operator of which all characters are at the front and no more. -/
theorem binaryOperators_find : ∀ op ∈ binaryOperators,
    (binaryOperators.find? fun op' => op'.text.toList.isPrefixOf op.text.toList) = some op ∧
      ∀ op' ∈ binaryOperators,
        guarded (extensions true op.text) op.text.toList op'.text.toList := by
  decide

theorem binaryOperator?_spelled {op : BinaryOperator} {ts rest : List TokenTree}
    (mem : op ∈ binaryOperators)
    (h : SpellsChars (extensions true op.text) op.text.toList ts rest) :
    binaryOperator? (ts ++ rest) = some op := by
  obtain ⟨found, bars⟩ := binaryOperators_find op mem
  rw [binaryOperator?, ← found]
  refine List.find?_congr fun op' mem' => ?_
  exact h.starts (signs_nonempty _ (binaryOperators_signs op mem)) _ (bars op' mem')

theorem binaryOperator?_none {t : TokenTree} {us : List TokenTree}
    (off : ∀ op, op.toList ≠ [] → startsPunct op (t :: us) = false) :
    binaryOperator? (t :: us) = none := by
  refine List.find?_eq_none.2 fun op mem => ?_
  rw [off _ (signs_nonempty _ (binaryOperators_signs op mem))]
  exact Bool.false_ne_true

/-- Arguments of a call after an operand. -/
theorem operand_group {E : Link} {d : Delim} {inner ps : List Chunk} {ts us : List TokenTree}
    {o e : Span} {r r' : List TokenTree} (eq : r = .group d.delimiter ts o e :: us) :
    Carries v Link.operand E (.group d inner :: ps) r r' := by
  intro ts rest spelled _
  obtain ⟨xs, o', e', ws, rfl, -, -⟩ := spells_group.1 spelled
  have absent {d : Delimiter} {ts us : List TokenTree} {o e : Span} :
      binaryOperator? (.group d ts o e :: us) = none :=
    binaryOperator?_none fun _ => startsPunct_group
  rw [eq]
  exact ⟨.group, absent.trans absent.symm⟩

/-- A comma after an operand. -/
theorem operand_comma {s : Token} (sep : punct "," c = .ok s c') :
    Carries v Link.operand Alike [.mark s false] c.rest c'.rest := by
  have absent {t : Token} {us : List TokenTree} (text : t.text = ",") :
      binaryOperator? (.token t :: us) = none := by
    simp [binaryOperator?, binaryOperators, startsPunct, startsChars, text]
  intro ts rest spelled _
  have took := Takes.sign (by decide) sep rfl
  have same : Carries v SameAhead .any [.mark s false] c.rest [] :=
    .mark (by decide) took (punct_text sep)
  refine ⟨same spelled trivial, ?_⟩
  obtain ⟨-, xs, ys, rfl, chars, -⟩ := spells_mark.1 spelled
  rw [punct_text sep] at chars
  obtain ⟨t', _, rfl, -, text', -⟩ := chars
  obtain ⟨t, us, eq, -, text⟩ := startsChars_one.1 (punct_ok sep).1
  rw [eq, absent (text.trans rfl)]
  exact (absent (text'.trans rfl)).symm

/-- A word after an operand. -/
theorem operand_word {ps : List Chunk} {t : Token} {us : List TokenTree} (proper : v.Proper)
    (eq : c.rest = .token t :: us) (word : t.kind ≠ .punct) (reads : Reads c (.word t :: ps) c') :
    Carries v Link.operand Alike (.word t :: ps) c.rest c'.rest := by
  intro ts rest spelled link
  refine ⟨reads.carriesFront proper (.word eq) spelled link, ?_⟩
  obtain ⟨-, t', ws, rfl, same, -⟩ := spells_word.1 spelled
  have word' : t'.kind ≠ .punct := (erase_eq_iff.1 same).1 ▸ word
  rw [eq, List.cons_append, binaryOperator?_none fun op => startsPunct_word word,
    binaryOperator?_none fun op => startsPunct_word word']

/-- A binary operator after an operand. -/
theorem operand_mark {E : Link} {ps : List Chunk} {op : BinaryOperator} {mark : Token}
    {r' : List TokenTree} (starts : binaryOperator? c.rest = some op)
    (took : Takes c [.mark mark true] c') (text : mark.text = op.text) :
    Carries v Link.operand E (.mark mark true :: ps) c.rest r' := by
  have mem := (binaryOperator?_ok starts).1
  have known : ∀ op ∈ binaryOperators, op.text ≠ "#" ∧ op.text ≠ "::" := by decide
  intro ts rest spelled link
  refine ⟨Carries.mark (known op mem) took text spelled link, ?_⟩
  obtain ⟨-, xs, ys, rfl, chars, -⟩ := spells_mark.1 spelled
  rw [text] at chars
  rw [starts, List.append_assoc, binaryOperator?_spelled mem chars]

section

variable (proper : v.Proper) (hf : g.Faithful) (hg : g.Rereads v keep n g')
include proper hf hg

omit proper hf hg in
theorem startsBang_alike {r r' : List TokenTree} (link : Alike r r') :
    startsBang r = startsBang r' := by
  rw [startsBang, startsBang, link.startsPunct (.inr rfl : "!" ∈ longSigns ∨ _),
    link.startsPunct (.inl (by decide : "!=" ∈ longSigns))]

theorem pathOrMacro_rereads {e : Expr} (h : pathOrMacro g c = .ok e c') :
    Rereads v Alike w (n + 1) (pathOrMacro g') (e.Again v keep) e.layout.chunks c'.rest := by
  unfold pathOrMacro at h
  simp only [↓look_ite_ok, bind_ok, pure_ok] at h
  obtain ⟨⟨self, p⟩, c₁, run, h⟩ := h
  have bang {r r' : List TokenTree} (link : Alike r r') :
      (decide (self = .unqualified) && startsBang r && p.hasNoArguments) =
        (decide (self = .unqualified) && startsBang r' && p.hasNoArguments) := by
    rw [startsBang_alike link]
  have path := qualifiedPath_rereads (w := w) proper hf hg run
  obtain ⟨on, m, _, call, rfl, rfl⟩ | ⟨off, rfl, rfl⟩ := h
  · have unqualified := on
    simp only [Bool.and_eq_true, decide_eq_true_eq] at unqualified
    obtain ⟨⟨rfl, -⟩, -⟩ := unqualified
    obtain ⟨rest, chunks, reads, called⟩ :=
      invocation_rereads (v := v) (k := keep) (n := n + 1) call
    rw [Node.chunks_unqualified] at path
    simp only [Node.layout, ChunkLayout.chunks_whole, chunks]
    refine .bind (reads.carries proper) path ?_
    rintro ⟨self', p'⟩ ⟨again, again'⟩
    simp only [again.unqualified, again'.hasNoArguments]
    exact .yes (reads.asks proper bang) on ((called again').returning fun m' again'' => by
      simp only [Node.Again, Node.seen] at again'' ⊢
      rw [again''])
  · rw [Node.chunks_pathExpr, ← List.append_nil (Node.layout _).chunks]
    refine .bind .nil path ?_
    rintro ⟨self', p'⟩ ⟨again, again'⟩
    simp only [again.unqualified, again'.hasNoArguments]
    exact .no ((Reads.refl c₁).asks proper bang) off (.pure (by
      simp only [Node.Again, Node.seen] at again again' ⊢
      rw [again, again']))

omit proper hg in
theorem pathOrMacro_carries {E : Link} {e : Expr} {r' : List TokenTree}
    (h : pathOrMacro g c = .ok e c') : Carries v .front E e.layout.chunks c.rest r' := by
  unfold pathOrMacro at h
  simp only [↓look_ite_ok, bind_ok, pure_ok] at h
  obtain ⟨⟨self, p⟩, c₁, run, h⟩ := h
  obtain ⟨on, m, _, call, rfl, rfl⟩ | ⟨-, rfl, rfl⟩ := h
  · simp only [Bool.and_eq_true, decide_eq_true_eq] at on
    obtain ⟨⟨rfl, -⟩, -⟩ := on
    obtain ⟨rest, chunks, -⟩ := invocation_rereads (v := v) (k := true) (n := 0) call
    simp only [Node.layout, ChunkLayout.chunks_whole, chunks]
    rw [← Node.chunks_unqualified]
    exact Link.front_append fun _ => qualifiedPath_carries hf run
  · rw [Node.chunks_pathExpr]
    exact qualifiedPath_carries hf run

omit proper hg in
/-- The same stands at the front of an operand in both readings. -/
theorem operand_carries {E : Link} {e : Expr} {r' : List TokenTree}
    (h : operand g c = .ok e c') : Carries v .front E e.layout.chunks c.rest r' := by
  unfold operand at h
  rw [look_bind_ok] at h
  cases starts : unaryOperator? c.rest with
  | some op =>
    simp only [starts, bind_ok, pure_ok] at h
    obtain ⟨mark, c₁, sign, e, _, run, rfl, rfl⟩ := h
    simp only [Node.layout, ChunkLayout.chunks_whole]
    exact .markFront (unary_takes hf starts sign run)
  | none =>
    simp only [starts] at h
    simp only [↓look_ite_ok, bind_ok, pure_ok, failNoneOf_ok] at h
    obtain ⟨-, t, _, run, rfl, rfl⟩ | ⟨-, ⟨-, t, _, run, rfl, rfl⟩ | ⟨-, ⟨-, t, _, run, rfl, rfl⟩ |
      ⟨-, ⟨-, ⟨paren, e⟩, _, run, rfl, rfl⟩ | ⟨-, ⟨-, ⟨brace, tokens⟩, _, run, rfl, rfl⟩ |
      ⟨-, ⟨-, run⟩ | ⟨-, ⟨⟩⟩⟩⟩⟩⟩⟩ := h
    · simp only [Node.layout, ChunkLayout.chunks_whole]
      exact .word (literal_ok run).1
    · simp only [Node.layout, ChunkLayout.chunks_whole]
      exact .word (keyword_ok run).1
    · simp only [Node.layout, ChunkLayout.chunks_whole]
      exact .word (keyword_ok run).1
    · obtain ⟨us, o, e, _, eq, rfl, -⟩ := inGroup_ok run
      simp only [Node.layout, ChunkLayout.chunks_whole]
      exact .group eq
    · obtain ⟨o, e, eq, rfl⟩ := rawGroup_ok run
      simp only [Node.layout, ChunkLayout.chunks_whole]
      exact .raw eq
    · exact pathOrMacro_carries hf run

omit proper hf hg in
theorem startsPath_same {r r' : List TokenTree} (h : SameAhead r r') :
    startsPath r = startsPath r' := by
  have words : (fun word => startsWord word r) = fun word => startsWord word r' :=
    funext (startsWord_of_shape h.front)
  have alike : Alike r r' := .inl h
  rw [startsPath, startsPath, startsPathRoot, startsPathRoot, words, startsIdentifier,
    startsIdentifier, startsKind_of_shape h.front, alike.startsPunct (.inl (by decide : "::" ∈ _)),
    alike.startsPunct (.inr rfl : "<" ∈ longSigns ∨ _)]

theorem operand_rereads {e : Expr} (h : operand g c = .ok e c') :
    Rereads v Link.operand w (n + 1) (operand g') (e.Again v keep) e.layout.chunks c'.rest := by
  have same : Carries v SameAhead Link.operand e.layout.chunks c.rest c'.rest :=
    ((operand_reads hf h).carriesFront proper (operand_carries hf h)).mono id
      fun link => .inl link.1
  have kind {p : TokenKind → Bool} : Carries v (.ask (startsKind p)) Link.operand e.layout.chunks
      c.rest c'.rest := same.mono (startsKind_of_shape ·.front _) id
  have word {text : String} : Carries v (.ask (startsWord text)) Link.operand e.layout.chunks
      c.rest c'.rest := same.mono (startsWord_of_shape ·.front _) id
  have group {d : Delimiter} : Carries v (.ask (startsGroup d)) Link.operand e.layout.chunks
      c.rest c'.rest := same.mono (startsGroup_of_shape ·.front _) id
  have path := same.mono startsPath_same id
  refine .look (same.mono unaryOperator?_alike id) ?_
  unfold operand at h
  rw [look_bind_ok] at h
  cases starts : unaryOperator? c.rest with
  | some op =>
    simp only [starts, bind_ok, pure_ok] at h
    obtain ⟨mark, c₁, sign, e, _, run, rfl, rfl⟩ := h
    simp only [Node.layout, ChunkLayout.chunks_whole]
    exact .mark sign fun mark' same => (hg.expr run).returning fun e' again => by
      simp only [Node.Again, Node.seen, same, again]
  | none =>
    simp only [starts] at h
    simp only [↓look_ite_ok, bind_ok, pure_ok, failNoneOf_ok] at h
    obtain ⟨on, t, _, run, rfl, rfl⟩ | ⟨off₁, ⟨on, t, _, run, rfl, rfl⟩ |
      ⟨off₂, ⟨on, t, _, run, rfl, rfl⟩ | ⟨off₃, ⟨on, ⟨paren, e⟩, _, run, rfl, rfl⟩ |
      ⟨off₄, ⟨on, ⟨brace, tokens⟩, _, run, rfl, rfl⟩ | ⟨off₅, ⟨on, run⟩ | ⟨-, ⟨⟩⟩⟩⟩⟩⟩⟩ := h
    · refine .yes kind on ?_
      simp only [Node.layout, ChunkLayout.chunks_whole]
      exact (Rereads.token (takesToken_literal run)).returning fun t' same => by
        simp only [Node.Again, Node.seen, same]
    · refine .no kind off₁ (.yes word on ?_)
      simp only [Node.layout, ChunkLayout.chunks_whole]
      exact (Rereads.token (takesToken_keyword run)).returning fun t' same => by
        simp only [Node.Again, Node.seen, same]
    · refine .no kind off₁ (.no word off₂ (.yes word on ?_))
      simp only [Node.layout, ChunkLayout.chunks_whole]
      exact (Rereads.token (takesToken_keyword run)).returning fun t' same => by
        simp only [Node.Again, Node.seen, same]
    · refine .no kind off₁ (.no word off₂ (.no word off₃ (.yes group on ?_)))
      simp only [Node.layout, ChunkLayout.chunks_whole]
      exact (inGroup_rereads operand_nil hg.expr run).returning fun x again => by
        simp only [Node.Again, Node.seen] at again ⊢
        rw [again.1, again.2]
    · refine .no kind off₁ (.no word off₂ (.no word off₃ (.no group off₄ (.yes group on ?_))))
      obtain ⟨o, e, -, rfl⟩ := rawGroup_ok run
      simp only [Node.layout, ChunkLayout.chunks_whole]
      exact (Rereads.raw (k := ⟨.brace, o⟩)).returning fun x again => by
        simp only [Node.Again, Node.seen, View.sight_raw, again.1, again.2]
    · exact .no kind off₁ (.no word off₂ (.no word off₃ (.no group off₄ (.no group off₅
        (.yes path on ((pathOrMacro_rereads proper hf hg run).linked fun link => .inl link.1))))))

/-- What is read again after an operand, in chunks that go on from those of the operand. -/
structure Continues (v : View) (keep : Bool) (n : Nat) (g' : Grammar) (power : Nat) (left e : Expr)
    (r r' : List TokenTree) (more : List Chunk) : Prop where
  chunks : e.layout.chunks = left.layout.chunks ++ more
  carry : Carries v Link.operand Link.operand more r r'
  again : ∀ {w m limit left'}, w ≤ limit → m ≤ n + 1 → left.Again v keep left' →
    Rereads v Link.operand w m (operatorsAfter g' power limit left') (e.Again v keep) more r'

omit proper hf hg in
/-- A step of the loop, when there are trees and turns left. -/
theorem operatorsAfter_rereadsStep {power : Nat} {e : Expr} {left : Expr} {more : List Chunk}
    {r : List TokenTree}
    (step : ∀ {w m limit left'}, w ≤ limit + 1 → m ≤ n → left.Again v keep left' →
      Rereads v Link.operand w (m + 1) (operatorsAfter g' power (limit + 1) left') (e.Again v keep)
        more r)
    {w m limit : Nat} {left' : Expr} (wide : w ≤ limit) (small : m ≤ n + 1)
    (same : left.Again v keep left') :
    Rereads v Link.operand w m (operatorsAfter g' power limit left') (e.Again v keep) more r := by
  cases limit with
  | zero =>
    obtain rfl := Nat.le_zero.1 wide
    exact .narrow
  | succ limit =>
    cases m with
    | zero => exact .tiny
    | succ m => exact step wide (Nat.le_of_succ_le_succ small) same

omit hg in
/-- The arguments of a call. -/
theorem arguments_items (rereads : ∀ {w e c c'}, g.expr 0 c = .ok e c' →
      Rereads v Link.operand w n (g'.expr 0) (e.Again v keep) e.layout.chunks c'.rest) :
    Rereads.Items v Alike Link.operand n (filling ",") (g.expr 0) (g'.expr 0)
      (fun e => e.layout.chunks) (Node.seen (v.sight keep)) (Node.seen (v.sight false)) where
  asks link := congrArg (!·) (isEmpty_of_shape link.1.front)
  again link := congrArg (!·) link.isEmpty
  stop link := .inl link.1
  separator := operand_comma
  value run := ((hf.expr run).carries proper).mono id fun link => .inl link.1
  rereads := rereads

/-- The operators after an operand; each takes a tree. -/
theorem operatorsAfter_rereads {power limit : Nat} {left e : Expr}
    (h : operatorsAfter g power limit left c = .ok e c') :
    ∃ more, Continues v keep n g' power left e c.rest c'.rest more := by
  induction limit generalizing left c with
  | zero => simp [operatorsAfter, fail_ok] at h
  | succ limit ih =>
    have reads {more : List Chunk} (chunks : e.layout.chunks = left.layout.chunks ++ more) :
        Reads c more c' := by
      obtain ⟨more', eq, reads⟩ := operatorsAfter_reads hf h
      rwa [List.append_cancel_left (chunks.symm.trans eq)]
    have paren {more : List Chunk}
        (carry : Carries v Link.operand Link.operand more c.rest c'.rest) :
        Carries v (.ask (startsGroup .paren)) Link.operand more c.rest c'.rest :=
      carry.mono (startsGroup_of_shape ·.1.front _) id
    have cast {more : List Chunk}
        (carry : Carries v Link.operand Link.operand more c.rest c'.rest) :
        Carries v (.ask (startsWord "as")) Link.operand more c.rest c'.rest :=
      carry.mono (startsWord_of_shape ·.1.front _) id
    unfold operatorsAfter at h
    simp only [↓look_ite_ok] at h
    obtain ⟨on, h⟩ | ⟨off, ⟨on, h⟩ | ⟨off', h⟩⟩ := h
    · split at h
      · rename_i tight
        obtain ⟨rfl, rfl⟩ := pure_ok.1 h
        refine ⟨[], (List.append_nil _).symm, .nil,
          operatorsAfter_rereadsStep fun wide small same => ?_⟩
        exact .yes (paren .nil) on (by rw [if_pos tight]; exact .pure same)
      · rename_i loose
        obtain ⟨⟨delim, args⟩, c₁, group, h⟩ := bind_ok.1 h
        obtain ⟨more, chunks, carry, again⟩ := ih h
        simp only [Node.layout, ChunkLayout.chunks_whole, Node.chunks_ofSeparated,
          List.append_assoc, List.singleton_append] at chunks
        obtain ⟨us, o, d, _, eq, rfl, -⟩ := inGroup_ok group
        have front {inner : List Chunk} : Carries v Link.operand Link.operand
            (.group ⟨.paren, o⟩ inner :: more) c.rest c'.rest := operand_group eq
        refine ⟨_, chunks, front, operatorsAfter_rereadsStep fun wide small same => ?_⟩
        refine .yes (paren front) on ?_
        rw [if_neg loose]
        refine .groupNext (inGroup_rereads operand_nil (fun run =>
          ((arguments_items proper hf fun run =>
            (hg.expr run).mono (Nat.le_refl _) small id id).list run).2) group) ?_
        rintro ⟨delim', args'⟩ ⟨same', same''⟩
        exact again (Nat.sub_le_of_le_add wide) (Nat.le_succ_of_le small) (by
          simp only [Node.Again, Node.seen, Node.seen_ofSeparated, same', same''] at same ⊢
          rw [same])
    · split at h
      · rename_i tight
        obtain ⟨rfl, rfl⟩ := pure_ok.1 h
        refine ⟨[], (List.append_nil _).symm, .nil,
          operatorsAfter_rereadsStep fun wide small same => ?_⟩
        exact .no (paren .nil) off (.yes (cast .nil) on (by rw [if_pos tight]; exact .pure same))
      · rename_i loose
        simp only [bind_ok] at h
        obtain ⟨asToken, c₁, word, t, c₂, type, h⟩ := h
        obtain ⟨more, chunks, carry, again⟩ := ih h
        simp only [Node.layout, ChunkLayout.chunks_whole, List.append_assoc,
          List.cons_append] at chunks
        obtain ⟨eq, isWord⟩ := keyword_ok word
        have front := (operand_word proper eq isWord.kind_ne (reads chunks)).mono
          (F := Link.operand) id fun link => .inl link.1
        refine ⟨_, chunks, front, operatorsAfter_rereadsStep fun wide small same => ?_⟩
        refine .no (paren front) off (.yes (cast front) on ?_)
        rw [if_neg loose]
        refine .word (takesToken_keyword word) fun as' same' => .bind
          (carry.mono (fun link => .inl link.1) id)
          ((hg.type type).mono (Nat.le_refl _) small id id) fun t' same'' => ?_
        exact again (Nat.sub_le_of_le_add wide) (Nat.le_succ_of_le small) (by
          simp only [Node.Again, Node.seen, same'] at same same'' ⊢
          rw [same, same''])
    · rw [look_bind_ok] at h
      have operator {more : List Chunk}
          (carry : Carries v Link.operand Link.operand more c.rest c'.rest) :
          Carries v (.ask binaryOperator?) Link.operand more c.rest c'.rest :=
        carry.mono (·.2) id
      cases starts : binaryOperator? c.rest with
      | none =>
        simp only [starts] at h
        obtain ⟨rfl, rfl⟩ := pure_ok.1 h
        refine ⟨[], (List.append_nil _).symm, .nil,
          operatorsAfter_rereadsStep fun wide small same => ?_⟩
        refine .no (paren .nil) off (.no (cast .nil) off' (.look (operator .nil) ?_))
        simp only [starts]
        exact .pure same
      | some op =>
        simp only [starts] at h
        split at h
        · rename_i tight
          obtain ⟨rfl, rfl⟩ := pure_ok.1 h
          refine ⟨[], (List.append_nil _).symm, .nil,
            operatorsAfter_rereadsStep fun wide small same => ?_⟩
          refine .no (paren .nil) off (.no (cast .nil) off' (.look (operator .nil) ?_))
          simp only [starts]
          rw [if_pos tight]
          exact .pure same
        · rename_i loose
          simp only [bind_ok] at h
          obtain ⟨mark, c₁, sign, right, c₂, run, h⟩ := h
          obtain ⟨more, chunks, carry, again⟩ := ih h
          simp only [Node.layout, ChunkLayout.chunks_whole, List.append_assoc,
            List.cons_append] at chunks
          have front : Carries v Link.operand Link.operand
              (.mark mark true :: (right.layout.chunks ++ more)) c.rest c'.rest :=
            operand_mark starts (operator_takes hf starts sign run) (punct_text sign)
          refine ⟨_, chunks, front, operatorsAfter_rereadsStep fun wide small same => ?_⟩
          refine .no (paren front) off (.no (cast front) off' (.look (operator front) ?_))
          simp only [starts]
          rw [if_neg loose]
          refine .mark sign fun mark' same' => .bind carry
            ((hg.expr run).mono (Nat.le_refl _) small id id) fun right' same'' => ?_
          exact again (Nat.sub_le_of_le_add wide) (Nat.le_succ_of_le small) (by
            simp only [Node.Again, Node.seen, same'] at same same'' ⊢
            rw [same, same''])

theorem expr_rereads {power : Nat} {e : Expr} (h : expr g power c = .ok e c') :
    Rereads v Link.operand w (n + 1) (expr g' power) (e.Again v keep) e.layout.chunks c'.rest := by
  obtain ⟨left, c₁, first, rest⟩ := bind_ok.1 h
  obtain ⟨more, eq, carry, again⟩ :=
    operatorsAfter_rereads proper hf hg rest
  rw [eq]
  refine .bind carry (operand_rereads proper hf hg first) fun left' same => ?_
  intro d ts rest eq spelled link narrow small
  have length : ts.length + 1 ≤ d.rest.length + 1 := by
    rw [eq, List.length_append]
    omega
  exact again length (Nat.le_refl _) same eq spelled link (Nat.lt_succ_self _) small

end

end Parse

end TypeGrammar
