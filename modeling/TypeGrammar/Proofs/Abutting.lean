import TypeGrammar.Proofs.Loosening
import TypeGrammar.Proofs.Matching
import TypeGrammar.Proofs.Payload

/-!
# Operators that abut

Canonical text writes some operators right after each other. The parser tells them apart unless the
second starts with a character with which it reads a longer operator in the place of the first: then
the first is glued to the second. Chunks without such operators are legible. They spell the trees
that are read of their canonical text, so a type of legible chunks is read again from its text.
-/

namespace TypeGrammar

open TokenTree
open Chunk (treesAll)

/-! ## Legible chunks -/

/-- True if an operator is read as a longer one right in front of `next`. -/
def lengthens (binary : Bool) (op next : String) : Bool :=
  next.toList.head?.any fun c => (extensions binary op).contains c

/-- The operator `t` is written right in front of `next` after the atom `before`, and a longer
operator is read there in its place. -/
def Glued (before : Option Atom) (t : Token) (binary : Bool) (next : Option Token) : Prop :=
  ∃ u ∈ next, needsBlank before (.token .punct t.text) (.token .punct u.text) = false ∧
    lengthens binary t.text u.text = true

/-- The operator that a chunk is. -/
def Chunk.sign? : Chunk → Option Token
  | .mark t _ => some t
  | _ => none

/-- The last atom of a tree, or the last character of an operator. -/
def TokenTree.final : TokenTree → Atom
  | .token t => t.atom
  | .group d _ _ _ => .delimiter d.closing

/-- The last atom of a chunk. -/
def Chunk.final : Chunk → Atom
  | .word t | .mark t _ => t.atom
  | .group d _ | .raw d _ => .delimiter d.delimiter.closing
  | .verbatim tree => tree.final

/-- The operator at the front of some chunks, or else what follows them. -/
def nextSign (next : Option Token) : List Chunk → Option Token
  | [] => next
  | p :: _ => p.sign?

mutual

/-- A chunk between the atom `before` and the operator `next` that can be told from what follows it.
-/
def Chunk.Legible (before : Option Atom) (next : Option Token) : Chunk → Prop
  | .word _ => True
  | .mark t binary => ¬ Glued before t binary next
  | .group d inner =>
    d.delimiter ≠ .invisible ∧ LegibleAll (some (.delimiter d.delimiter.opening)) none inner
  | .raw d _ => d.delimiter ≠ .invisible
  | .verbatim _ => False

/-- Chunks between the atom `before` and the operator `next` that can be told apart. -/
def LegibleAll (before : Option Atom) (next : Option Token) : List Chunk → Prop
  | [] => True
  | p :: ps => p.Legible before (nextSign next ps) ∧ LegibleAll (some p.final) next ps

end

/-! ## Atoms of chunks -/

theorem Delimiter.visible_text {d : Delimiter} (visible : d ≠ .invisible) :
    d.opening ≠ "" ∧ d.closing ≠ "" := by
  revert visible
  cases d <;> decide

theorem mergeAfter_around {d : Delim} (visible : d.delimiter ≠ .invisible) (ts : List TokenTree)
    (ms : List Mark) : mergeAfter "" (marksAll (d.around ts) ++ ms) =
      .delimiter d.delimiter.opening ::
        (atoms ts ++ .delimiter d.delimiter.closing :: mergeAfter "" ms) := by
  obtain ⟨opening, closing⟩ := Delimiter.visible_text visible
  rw [Delim.around, marksAll_group, List.cons_append, List.append_assoc, mergeAfter,
    if_neg opening, List.singleton_append, mergeAfter_edge closing]
  rfl

theorem atoms_around {d : Delim} (visible : d.delimiter ≠ .invisible) (ts : List TokenTree) :
    atoms (d.around ts) = .delimiter d.delimiter.opening ::
      (atoms ts ++ [.delimiter d.delimiter.closing]) := by
  rw [atoms, ← List.append_nil (marksAll _), mergeAfter_around visible]
  rfl

section

variable {before : Option Atom} {next : Option Token} {p : Chunk} {ps : List Chunk}

theorem Chunk.Regular.leaf_mark {t : Token} {binary : Bool}
    (h : (Chunk.mark t binary).Regular IsPlainWord IsTextual) :
    t.Leaf ∧ t.atom = .token .punct t.text :=
  ⟨⟨h.2.1, fun _ => h.2.2, fun word => absurd h.1 word⟩, by rw [Token.atom, h.1]⟩

theorem atoms_leaf {t : Token} (h : t.Leaf) : atoms t.trees = [t.atom] := by
  rw [atoms, ← List.append_nil (marksAll _), h.mergeAfter_trees]
  rfl

/-- No operator goes on beyond a chunk. -/
theorem mergeAfter_chunk (regular : p.Regular IsPlainWord IsTextual)
    (legible : p.Legible before next) (ms : List Mark) :
    mergeAfter "" (marksAll p.trees ++ ms) = atoms p.trees ++ mergeAfter "" ms := by
  cases p with
  | word t =>
    obtain ⟨leaf, -⟩ := leaf_word regular
    rw [Chunk.trees_word, leaf.mergeAfter_trees, atoms_leaf leaf, List.singleton_append]
  | mark t binary =>
    obtain ⟨leaf, -⟩ := regular.leaf_mark
    rw [Chunk.trees_mark, leaf.mergeAfter_trees, atoms_leaf leaf, List.singleton_append]
  | group d inner =>
    rw [Chunk.trees_group, mergeAfter_around legible.1, atoms_around legible.1, List.cons_append,
      List.append_assoc, List.singleton_append]
  | raw d tokens =>
    rw [Chunk.trees_raw, mergeAfter_around legible, atoms_around legible, List.cons_append,
      List.append_assoc, List.singleton_append]
  | verbatim => exact legible.elim

theorem atoms_cons (regular : p.Regular IsPlainWord IsTextual) (legible : p.Legible before next) :
    atoms (treesAll (p :: ps)) = atoms p.trees ++ atoms (treesAll ps) := by
  rw [atoms, Chunk.treesAll_cons, marksAll_append, mergeAfter_chunk regular legible]
  rfl

theorem atoms_final (regular : p.Regular IsPlainWord IsTextual) (legible : p.Legible before next) :
    (atoms p.trees).getLast? = some p.final := by
  cases p with
  | word t => rw [Chunk.trees_word, atoms_leaf (leaf_word regular).1]; rfl
  | mark t binary =>
    rw [Chunk.trees_mark, atoms_leaf regular.leaf_mark.1]
    rfl
  | group d inner =>
    rw [Chunk.trees_group, atoms_around legible.1, ← List.cons_append, List.getLast?_concat]
    rfl
  | raw d tokens =>
    rw [Chunk.trees_raw, atoms_around legible, ← List.cons_append, List.getLast?_concat]
    rfl
  | verbatim => exact legible.elim

end

/-! ## Atoms in front of others -/

/-- The tokens of atoms that are laid out after `before` and in front of `more`. -/
def layFront (more : List Atom) (before : Option Atom) : List Atom → List Token
  | [] => []
  | a :: as => a.tokens (runsOn before a (as ++ more)) ++ layFront more (some a) as

theorem layFront_nil (before : Option Atom) (as : List Atom) :
    layFront [] before as = layTokens before as := by
  induction as generalizing before with
  | nil => rfl
  | cons a as ih => rw [layFront, layTokens, List.append_nil, ih]

theorem layFront_append (more : List Atom) (before : Option Atom) (as bs : List Atom) :
    layFront more before (as ++ bs) =
      layFront (bs ++ more) before as ++ layFront more (as.getLast?.or before) bs := by
  induction as generalizing before with
  | nil => rfl
  | cons a as ih =>
    have last : (a :: as).getLast?.or before = as.getLast?.or (some a) := by
      rw [List.getLast?_cons]
      cases as.getLast? <;> rfl
    rw [List.cons_append, layFront, layFront, ih, last, List.append_assoc, List.append_assoc]

theorem runsOn_edge (before : Option Atom) (a : Atom) (as more : List Atom) (text : String) :
    runsOn before a (as ++ .delimiter text :: more) = runsOn before a as := by
  cases as <;> rfl

theorem layFront_edge (text : String) (more : List Atom) (before : Option Atom) (as : List Atom) :
    layFront (.delimiter text :: more) before as = layTokens before as := by
  induction as generalizing before with
  | nil => rfl
  | cons a as ih => rw [layFront, layTokens, runsOn_edge, ih]

/-- Visible delimiters around atoms make a group of what the atoms are. -/
theorem nests_around {d : Delimiter} (visible : d ≠ .invisible) {as : List Atom}
    {us : List TokenTree} (nested : Nests (layTokens (some (.delimiter d.opening)) as) us)
    (more : List Atom) (before : Option Atom) :
    Nests (layFront more before (.delimiter d.opening :: (as ++ [.delimiter d.closing])))
      [.group d us .callSite .callSite] := by
  rw [layFront, layFront_append, List.singleton_append, layFront_edge, layFront, layFront,
    List.append_nil]
  exact nests_group visible nested

/-! ## Legible chunks are read again -/

/-- What follows some chunks: the operator `next` is the first of the atoms, and of the trees. -/
structure Ahead (next : Option Token) (more : List Atom) (rest : List TokenTree) : Prop where
  atom : ∀ a ∈ more.head?, a.isPunct = true → ∃ u ∈ next, a = .token .punct u.text
  tree : ∀ c, startsChars [c] rest = true → ∃ u ∈ next, u.text.toList.head? = some c

theorem Ahead.nothing : Ahead none [] [] :=
  ⟨by rintro _ ⟨⟩, by rintro _ ⟨⟩⟩

theorem Ahead.around {d : Delim} (visible : d.delimiter ≠ .invisible) (ts us rest : List TokenTree)
    (more : List Atom) : Ahead none (atoms (d.around ts) ++ more)
      (.group d.delimiter us .callSite .callSite :: rest) := by
  rw [atoms_around visible]
  exact ⟨by rintro _ ⟨⟩ ⟨⟩, by rintro _ ⟨⟩⟩

/-- An operator that is not glued to what follows is spelled there. -/
theorem spellsChars_of_not_glued {before : Option Atom} {t : Token} {binary : Bool}
    {next : Option Token} {more : List Atom} {rest : List TokenTree}
    (apart : ¬ Glued before t binary next) (ahead : Ahead next more rest) (cs : List Char) :
    SpellsChars (extensions binary t.text) cs
      ((operatorTokens (runsOn before (.token .punct t.text) more) cs).map .token) rest := by
  induction cs with
  | nil => rfl
  | cons c cs ih =>
    refine ⟨_, _, rfl, rfl, rfl, ?_, ih⟩
    cases cs with
    | cons => simp
    | nil =>
      -- the last character is joint to what follows if there is no blank
      rintro runs b bar
      by_contra on
      obtain ⟨u, follows, first⟩ := ahead.tree b (by simpa using on)
      obtain ⟨a, front, tight⟩ :=
        Option.any_eq_true _ _ |>.1 (show runsOn _ _ more = true from runs)
      obtain ⟨punct, tight⟩ := Bool.and_eq_true_iff.1 tight
      obtain ⟨u', follows', rfl⟩ := ahead.atom a front punct
      obtain rfl := Option.some.inj (follows.symm.trans follows')
      exact apart ⟨u, follows, by simpa using tight, by simp [lengthens, first, bar]⟩

mutual

/-- A legible chunk is spelled by the trees that are read of its atoms. -/
theorem Chunk.Legible.laid {before : Option Atom} {next : Option Token} {more : List Atom}
    {rest : List TokenTree} : {p : Chunk} → p.Regular IsPlainWord IsTextual →
    p.Legible before next → Ahead next more rest →
    ∃ us, Nests (layFront more before (atoms p.trees)) us ∧ p.Spelled .loose us rest ∧
      Ahead p.sign? (atoms p.trees ++ more) (us ++ rest)
  | .word t, regular, _, _ => by
    obtain ⟨leaf, word, -⟩ := leaf_word regular
    obtain ⟨opens, closes, -⟩ := leaf.word word
    have laid : layFront more before (atoms t.trees) = [t.erase] := by
      rw [atoms_leaf leaf, layFront, layFront, Token.atom, Atom.tokens, if_neg word, Token.erase,
        leaf.alone]
      rfl
    refine ⟨[.token t.erase], ?_, ⟨⟨word, (leaf.word word).strict⟩, t.erase, rfl, rfl⟩, ?_, ?_⟩
    · rw [Chunk.trees_word, laid]
      exact .token opens closes .nil
    · rw [Chunk.trees_word, atoms_leaf leaf]
      rintro _ ⟨⟩ punct
      exact absurd (beq_iff_eq.1 punct) word
    · intro c starts
      simp [startsChars, Token.erase, word] at starts
  | .mark t binary, regular, legible, ahead => by
    obtain ⟨leaf, atom⟩ := regular.leaf_mark
    obtain ⟨punct, alone, sign⟩ := regular
    have laid : layFront more before (atoms t.trees) =
        operatorTokens (runsOn before (.token .punct t.text) more) t.text.toList := by
      rw [atoms_leaf leaf, atom, layFront, layFront, Atom.tokens, if_pos rfl, List.append_nil]
      rfl
    have chars := spellsChars_of_not_glued legible ahead t.text.toList
    refine ⟨_, ?_, ⟨punct, alone, sign, chars⟩, ?_, ?_⟩
    · rw [Chunk.trees_mark, laid]
      exact nests_plain (plain_operatorTokens _ _)
    · rw [Chunk.trees_mark, atoms_leaf leaf, atom]
      rintro _ ⟨⟩ _
      exact ⟨t, rfl, rfl⟩
    · intro c starts
      refine ⟨t, rfl, ?_⟩
      obtain ⟨d, ds, eq⟩ := List.exists_cons_of_ne_nil (signs_nonempty _ sign)
      simp only [eq, operatorTokens, List.map_cons, List.cons_append, startsChars,
        String.toList_singleton, List.isEmpty_nil, Bool.true_or, Bool.and_true, beq_self_eq_true,
        Bool.true_and, beq_iff_eq, List.cons.injEq, and_true] at starts
      rw [eq, starts, List.head?_cons]
  | .group d inner, regular, legible, ahead => by
    obtain ⟨us, nested, spelled, -⟩ := LegibleAll.laid regular legible.2 .nothing
    rw [layFront_nil] at nested
    refine ⟨[.group d.delimiter us .callSite .callSite], ?_, ⟨us, _, _, rfl, spelled⟩,
      .around legible.1 _ us rest more⟩
    rw [Chunk.trees_group, atoms_around legible.1]
    exact nests_around legible.1 nested more before
  | .raw d tokens, regular, legible, ahead => by
    obtain ⟨renderable, lexical⟩ := (regular : IsTextual tokens)
    obtain ⟨us, nested, -⟩ := nests_flatten tokens
      ((@items_layTokens (some (.delimiter d.delimiter.opening)) _ renderable.atoms).trans
        (items_atoms tokens))
    have same := loosenAll_of_laid renderable.sound lexical nested
    refine ⟨[.group d.delimiter us .callSite .callSite], ?_, ⟨us, _, _, rfl, ?_⟩,
      .around legible _ us rest more⟩
    · rw [Chunk.trees_raw, atoms_around legible]
      exact nests_around legible nested more before
    · change eraseAll (loosenAll us) = eraseAll (loosenAll tokens)
      rw [same, loosenAll_eraseAll, eraseAll_eraseAll]
  | .verbatim _, _, legible, _ => legible.elim

/-- Legible chunks are spelled by the trees that are read of their atoms. -/
theorem LegibleAll.laid {before : Option Atom} {next : Option Token} {more : List Atom}
    {rest : List TokenTree} : {ps : List Chunk} → RegularAll IsPlainWord IsTextual ps →
    LegibleAll before next ps → Ahead next more rest →
    ∃ us, Nests (layFront more before (atoms (treesAll ps))) us ∧ Spells .loose ps us rest ∧
      Ahead (nextSign next ps) (atoms (treesAll ps) ++ more) (us ++ rest)
  | [], _, _, ahead => ⟨[], .nil, spells_nil.2 rfl, ahead⟩
  | p :: ps, regular, legible, ahead => by
    obtain ⟨ws, nested', spelled', ahead'⟩ := LegibleAll.laid regular.2 legible.2 ahead
    obtain ⟨us, nested, spelled, ahead⟩ := Chunk.Legible.laid regular.1 legible.1 ahead'
    refine ⟨us ++ ws, ?_, spells_cons.2 ⟨us, ws, rfl, spelled, spelled'⟩, ?_⟩
    · rw [atoms_cons regular.1 legible.1, layFront_append, atoms_final regular.1 legible.1]
      exact nested.append nested'
    · rw [atoms_cons regular.1 legible.1, List.append_assoc, List.append_assoc]
      exact ahead

end

/-! ## Trees outside any file -/

theorem SpellsChars.of_eraseAll {bars cs : List Char} {ts rest : List TokenTree}
    (h : SpellsChars bars cs (eraseAll ts) (eraseAll rest)) : SpellsChars bars cs ts rest := by
  induction cs generalizing ts with
  | nil =>
    have nothing : ts.map erase = [] := (eraseAll_eq_map ts).symm.trans h
    exact List.map_eq_nil_iff.1 nothing
  | cons c cs ih =>
    obtain ⟨t, us, eq, kind, text, joint, more⟩ := h
    obtain ⟨xs, ys, rfl, first, later⟩ :=
      eraseAll_eq_append (show eraseAll ts = [.token t] ++ us from eq)
    obtain ⟨u, rfl, rfl⟩ := eraseAll_eq_token first
    simp only [startsChars_eraseAll] at joint
    exact ⟨u, ys, rfl, kind, text, joint, ih (later ▸ more)⟩

mutual

theorem Chunk.Spelled.of_eraseAll : {p : Chunk} → {ts rest : List TokenTree} →
    p.Spelled .loose (eraseAll ts) (eraseAll rest) → p.Spelled .loose ts rest
  | .word t, ts, rest, h => by
    obtain ⟨word, t', eq, same⟩ := h
    obtain ⟨u, rfl, rfl⟩ := eraseAll_eq_token eq
    exact ⟨word, u, rfl, same⟩
  | .mark t binary, ts, rest, h => ⟨h.1, h.2.1, h.2.2.1, h.2.2.2.of_eraseAll⟩
  | .group d inner, ts, rest, h => by
    obtain ⟨us, _, _, eq, inside⟩ := h
    obtain ⟨ws, o, e, rfl, rfl⟩ := eraseAll_eq_group eq
    replace inside : Spells .loose inner (eraseAll ws) (eraseAll []) := inside
    exact ⟨ws, o, e, rfl, Spells.of_eraseAll inside⟩
  | .raw d tokens, ts, rest, h => by
    obtain ⟨us, _, _, eq, same⟩ := h
    obtain ⟨ws, o, e, rfl, rfl⟩ := eraseAll_eq_group eq
    refine ⟨ws, o, e, rfl, .trans ?_ same⟩
    change eraseAll (loosenAll ws) = eraseAll (loosenAll (eraseAll ws))
    rw [loosenAll_eraseAll, eraseAll_eraseAll]
  | .verbatim _, _, _, h => h.elim

/-- It does not matter where the trees stand that spell some chunks. -/
theorem Spells.of_eraseAll : {ps : List Chunk} → {ts rest : List TokenTree} →
    Spells .loose ps (eraseAll ts) (eraseAll rest) → Spells .loose ps ts rest
  | [], ts, rest, h => by
    have nothing : ts.map erase = [] := (eraseAll_eq_map ts).symm.trans (spells_nil.1 h)
    exact spells_nil.2 (List.map_eq_nil_iff.1 nothing)
  | p :: ps, ts, rest, h => by
    obtain ⟨us, ws, eq, first, more⟩ := spells_cons.1 h
    obtain ⟨xs, ys, rfl, rfl, rfl⟩ := eraseAll_eq_append eq
    rw [← eraseAll_append] at first
    exact spells_cons.2 ⟨xs, ys, rfl, Chunk.Spelled.of_eraseAll first, Spells.of_eraseAll more⟩

end

/-! ## Types that are read again -/

/-- A type of legible chunks is read again from its text, but for the joining of payloads. -/
theorem parseText_of_legible {text file : String} {line : Int} {plus : Bool} {t : Ty}
    (h : parseText text file line plus = .ok t) (legible : LegibleAll none none t.layout.chunks)
    (file' : String) (line' : Int) :
    ∃ t', parseText t.text file' line' plus = .ok t' ∧ t.Again .loose true t' := by
  obtain ⟨us, read, -, laid⟩ := (Renderable.of_parseText h).tokenize_laid file' line'
  have regular := regularAll_of_parseText textual_inherited h fun _ => textual_of_tokenize
  obtain ⟨ws, nested, spelled, -⟩ := LegibleAll.laid regular legible .nothing
  rw [layFront_nil, ← Node.trees_eq] at nested
  obtain rfl := laid.unique nested
  replace spelled : Spells .loose t.layout.chunks us [] := Spells.of_eraseAll spelled
  obtain ⟨_, _, _, -, -, run, done⟩ := parseText_ok.1 h
  obtain ⟨tokens, lexed, nested⟩ := tokenize_eq_ok.1 read
  obtain ⟨t', c', run', done', again⟩ := parseType_rereads (d := .ofTrees us (endOf tokens))
    View.proper_loose run done spelled
  exact ⟨t', parseText_ok.2 ⟨tokens, us, c', lexed, nested, run', done'⟩, again⟩

end TypeGrammar
