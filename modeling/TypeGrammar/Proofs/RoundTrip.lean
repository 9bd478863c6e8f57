import TypeGrammar.Proofs.Binders
import TypeGrammar.Proofs.Regular
import TypeGrammar.Proofs.RereadingTypes

/-!
# Types that are printed and read again

The trees of a type that was read are read as the same type. They spell the chunks of the type, as
the trees do from which it was read; so the parser reads them again, and takes them all.
-/

namespace TypeGrammar

open TokenTree
open Chunk (treesAll)

/-! ## Trees of regular chunks -/

theorem spellsChars_go {t : Token} {bars cs : List Char} {rest : List TokenTree} :
    SpellsChars bars cs ((Token.split.go t cs).map .token) rest := by
  induction cs with
  | nil => rfl
  | cons c cs ih =>
    refine ⟨_, _, rfl, rfl, rfl, ?_, ih⟩
    cases cs <;> simp

/-- The characters of an operator spell it, in front of any trees. -/
theorem spellsChars_trees {t : Token} {bars : List Char} {rest : List TokenTree}
    (kind : t.kind = .punct) (free : t.joint = false) (sign : t.text ∈ signs) :
    SpellsChars bars t.text.toList t.trees rest := by
  unfold Token.trees
  split
  · exact spellsChars_go
  · rename_i short
    obtain ⟨c, text⟩ := sign_of_short sign fun long => short ⟨kind, long⟩
    rw [text, String.toList_singleton]
    exact ⟨t, [], rfl, kind, text, by simp [free], rfl⟩

mutual

theorem Chunk.Regular.spelled {v : View} {body : List TokenTree → Prop} : {p : Chunk} →
    p.Regular v.word body → (rest : List TokenTree) → p.Spelled v p.trees rest
  | .word t, h, rest => ⟨h, t, by simp [Token.trees, h.1], rfl⟩
  | .mark t binary, h, rest => ⟨h.1, h.2.1, h.2.2, spellsChars_trees h.1 h.2.1 h.2.2⟩
  | .group d inner, h, rest => ⟨_, _, _, rfl, RegularAll.spells h []⟩
  | .raw d tokens, h, rest => ⟨_, _, _, rfl, rfl⟩

/-- Regular chunks are spelled by their own trees. -/
theorem RegularAll.spells {v : View} {body : List TokenTree → Prop} : {ps : List Chunk} →
    RegularAll v.word body ps → (rest : List TokenTree) → Spells v ps (treesAll ps) rest
  | [], _, _ => spells_nil.2 rfl
  | p :: ps, h, rest => spells_cons.2 ⟨p.trees, treesAll ps, rfl, h.1.spelled _, h.2.spells rest⟩

end

/-! ## Words that look like keywords -/

/-- The view that sees all contents, of words that are spelled `for` or `mut` only as keywords. -/
def View.strict : View :=
  ⟨id, fun t => t.kind = .identifier → t.text ≠ "for" ∧ t.text ≠ "mut"⟩

theorem View.proper_strict : View.strict.Proper :=
  fun _ allowed => allowed

/-- No identifier is spelled like one of the keywords `for` and `mut`. -/
def TokenTree.KeywordsKept (ts : List TokenTree) : Prop :=
  ∀ text ∈ ["for", "mut"], FlatItem.token .identifier text ∉ flatten ts

theorem TokenTree.keywordsKept_append {ts us : List TokenTree} :
    KeywordsKept (ts ++ us) ↔ KeywordsKept ts ∧ KeywordsKept us := by
  simp only [KeywordsKept, flatten_append, List.mem_append, not_or]
  exact ⟨fun h => ⟨fun text mem => (h text mem).1, fun text mem => (h text mem).2⟩,
    fun h text mem => ⟨h.1 text mem, h.2 text mem⟩⟩

/-- The words among trees that keep the keywords are allowed. -/
theorem TokenTree.keywordsKept_inherited :
    Inherited KeywordsKept View.strict.word fun _ => True where
  append := keywordsKept_append.1
  group kept text mem item := kept text mem (by simp [flatten, flat, item])
  word {t u} kept other same identifier := by
    obtain ⟨kind, text, -⟩ := erase_eq_iff.1 same
    have item : FlatItem.token .identifier u.text ∈ flatten [.token t] := by
      simp [flatten, flat, Token.flat, kind, identifier, text]
    exact ⟨fun eq => kept _ (by decide) (eq ▸ item), fun eq => kept _ (by decide) (eq ▸ item)⟩
  body _ _ := trivial

/-! ## Round trip -/

/-- A type that was read to the end is read again from all trees that spell it. -/
theorem parseType_rereads {v : View} (proper : v.Proper) {plus : Bool} {t : Ty} {c c' d : Cursor}
    (h : parseType plus c = .ok t c') (done : c'.rest = [])
    (spelled : Spells v t.layout.chunks d.rest []) :
    ∃ t' d', parseType plus d = .ok t' d' ∧ d'.rest = [] ∧ t.Again v true t' := by
  have again : Rereads v Alike (d.rest.length + 1) (d.size + 2) _
      (t.Again v true) t.layout.chunks c'.rest :=
    Parse.type_rereads proper (Parse.ofDepth_faithful _)
      (Parse.ofDepth_rereads proper _ (d.size + 1)) h
  exact again (List.append_nil _).symm spelled (done ▸ alike_nil) (Nat.lt_succ_self _)
    (Nat.lt_succ_of_lt (Nat.lt_succ_self _))

/-- A type that was read to the end is read again from its trees, to their end. -/
theorem parseType_trees {plus : Bool} {t : Ty} {c c' d : Cursor} (kept : KeywordsKept c.rest)
    (h : parseType plus c = .ok t c') (done : c'.rest = []) (printed : d.rest = t.trees) :
    ∃ t' d', parseType plus d = .ok t' d' ∧ d'.rest = [] ∧ t'.erase = t.settled := by
  obtain ⟨qs, ⟨ts, eq, spelled⟩, same⟩ := parseType_reads h
  rw [done, List.append_nil] at eq
  rw [done] at spelled
  have regular := same.regular (spelled.regular keywordsKept_inherited (eq ▸ kept))
  have own : Spells .strict t.layout.chunks d.rest [] := by
    rw [printed, Node.trees_eq]
    exact regular.spells []
  obtain ⟨t', d', run, rest, value⟩ := parseType_rereads View.proper_strict h done own
  refine ⟨t', d', run, rest, ?_⟩
  rw [← Node.seen_full]
  exact value

/-- The colon of `for<'a:> A` is left out. -/
theorem parseType_trees_colon :
    ∃ plus t c c' d, KeywordsKept c.rest ∧ parseType plus c = .ok t c' ∧ c'.rest = [] ∧
      d.rest = t.trees ∧ t.erase ≠ t.settled ∧
      ∃ t' d', parseType plus d = .ok t' d' ∧ d'.rest = [] ∧ t'.erase = t.settled := by
  let binder : Binder := ⟨.keyword "for" .callSite, .punct "<" .callSite,
    .last ⟨[], ⟨.lifetime "'a" .callSite⟩, some (.punct ":" .callSite), .empty⟩,
    .punct ">" .callSite⟩
  let name : Token := ⟨.identifier, "A", .callSite, false⟩
  let t : Ty := .traitObject none (.last (.traitBound none none (some binder)
    (.path none (.last (.segment name .noArguments)))))
  let c : Cursor := .ofTrees ([.keyword "for" .callSite, .punct "<" .callSite,
    .lifetime "'a" .callSite, .punct ":" .callSite, .punct ">" .callSite, name].map .token)
    .callSite
  have kept : KeywordsKept c.rest := by
    unfold KeywordsKept
    decide
  have run : parseType true c = .ok t ⟨6, [], .callSite⟩ := by rfl
  refine ⟨true, t, c, _, .ofTrees t.trees .callSite, kept, run, rfl, rfl, ?_,
    parseType_trees kept run rfl rfl⟩
  decide

/-- Without its binder, the name of a macro is read as a keyword if it is spelled like one. -/
theorem parseType_trees_keyword :
    ¬ ∀ (plus : Bool) (t : Ty) (c c' : Cursor), parseType plus c = .ok t c' → c'.rest = [] →
      ∃ t' d', parseType plus (Cursor.ofTrees t.trees .callSite) = .ok t' d' ∧ d'.rest = [] ∧
        t'.erase = t.settled := by
  intro claim
  let name : Token := ⟨.identifier, "mut", .callSite, false⟩
  let call : List TokenTree := [.token name, .token (.punct "!" .callSite),
    .group .paren [] .callSite .callSite]
  let c : Cursor := .ofTrees (.token (.punct "&" .callSite) ::
    ((Binder.ofName "'a").trees ++ call)) .callSite
  let t : Ty := .reference (.punct "&" .callSite) none none (.macroType (.invocation
    (.path none (.last (.segment name .noArguments))) (.punct "!" .callSite)
    ⟨.paren, .callSite⟩ []))
  have run : parseType true c = .ok t ⟨8, [], .callSite⟩ := by rfl
  have printed : t.trees = .token (.punct "&" .callSite) :: call := by rfl
  have misread : parseType true (.ofTrees (.token (.punct "&" .callSite) :: call) .callSite) =
      .ok (.reference (.punct "&" .callSite) none (some name) (.never (.punct "!" .callSite)))
        ⟨3, [.group .paren [] .callSite .callSite], .callSite⟩ := by rfl
  obtain ⟨t', d', again, rest, -⟩ := claim true t c _ run rfl
  rw [printed, misread] at again
  cases again
  cases rest

end TypeGrammar
