import TypeGrammar.Node.Text
import TypeGrammar.Proofs.Joining
import TypeGrammar.Proofs.Matching
import TypeGrammar.Proofs.Outcomes
import TypeGrammar.Proofs.RoundTrip

/-!
# Macro calls that are printed and read again

A macro call is printed as the words and operators of its path, a `!`, and a group with its payload.
The path and the `!` are always read again as they were. The payload comes back with the same
tokens, and with the same joining exactly if it keeps its joints.
-/

namespace TypeGrammar

open Text TokenTree

theorem IsWordText.strict {t : Token} (h : IsWordText t.kind t.text) : View.strict.word t := by
  intro identifier
  have off := h.not_keyword identifier
  constructor <;> intro eq <;> rw [eq] at off <;> exact off (by decide)

/-! ## Words and operators that are laid out -/

/-- A token of a path: a word as it stands in a text, or an operator. -/
structure Token.Leaf (t : Token) : Prop where
  alone : t.joint = false
  sign : t.kind = .punct → t.text ∈ signs
  word : t.kind ≠ .punct → IsWordText t.kind t.text

/-- The chunk of a token of a path. -/
def Token.chunk (t : Token) : Chunk :=
  if t.kind = .punct then .mark t false else .word t

/-- The atom of a token of a path. -/
def Token.atom (t : Token) : Atom :=
  .token t.kind t.text

/-- Tokens of which no two operators stand next to each other. -/
def Alternating (ts : List Token) : Prop :=
  ts.IsChain fun t u => t.kind = .punct → u.kind ≠ .punct

theorem mergeAfter_go (t : Token) {cs : List Char} (nonempty : cs ≠ []) (pending : String)
    (ms : List Mark) :
    mergeAfter pending (marksAll ((Token.split.go t cs).map .token) ++ ms) =
      .token .punct (pending ++ String.ofList cs) :: mergeAfter "" ms := by
  induction cs generalizing pending with
  | nil => exact absurd rfl nonempty
  | cons c cs ih =>
    cases cs with
    | nil => simp [Token.split.go, marksAll, marks, mergeAfter]
    | cons d ds =>
      have next := ih (List.cons_ne_nil d ds) (pending ++ String.singleton c)
      rw [String.append_assoc, ← String.ofList_cons] at next
      exact next

namespace Token.Leaf

variable {t : Token}

theorem sign_ne (h : t.Leaf) (punct : t.kind = .punct) : t.text.toList ≠ [] :=
  signs_nonempty _ (h.sign punct)

/-- A token of a path is one atom. -/
theorem mergeAfter_trees (h : t.Leaf) (ms : List Mark) :
    mergeAfter "" (marksAll t.trees ++ ms) = t.atom :: mergeAfter "" ms := by
  unfold Token.trees
  split
  · rename_i long
    rw [Token.split, mergeAfter_go t (h.sign_ne long.1), String.empty_append, String.ofList_toList,
      Token.atom, long.1]
  · by_cases punct : t.kind = .punct
    · simp [marksAll, marks, mergeAfter, punct, h.alone, Token.atom]
    · simp [marksAll, marks, mergeAfter, punct, Token.atom, pendingAtom]

/-- The tokens of the atom are no delimiters. -/
theorem plain_atom (h : t.Leaf) : ∀ u ∈ t.atom.tokens false, u.bracket? = none := by
  rw [Token.atom, Atom.tokens]
  split
  · exact plain_operatorTokens false _
  · rename_i word
    obtain ⟨opens, closes, -⟩ := h.word word
    exact List.forall_mem_singleton.2 (Token.bracket?_eq_none.2 ⟨opens, closes⟩)

end Token.Leaf

theorem mergeAfter_leaves {ts : List Token} (leaves : ∀ t ∈ ts, t.Leaf) (ms : List Mark) :
    mergeAfter "" (marksAll (ts.flatMap Token.trees) ++ ms) =
      ts.map Token.atom ++ mergeAfter "" ms := by
  induction ts with
  | nil => rfl
  | cons t ts ih =>
    obtain ⟨here, later⟩ := List.forall_mem_cons.1 leaves
    rw [List.flatMap_cons, marksAll_append, List.append_assoc, here.mergeAfter_trees, ih later]
    rfl

/-- Between words no operator runs on into another. -/
theorem layTokens_leaves {ts : List Token} (alternating : Alternating ts) (before : Option Atom)
    (text : String) (more : List Atom) :
    ∃ before', layTokens before (ts.map Token.atom ++ .delimiter text :: more) =
      ts.flatMap (·.atom.tokens false) ++ layTokens before' (.delimiter text :: more) := by
  induction ts generalizing before with
  | nil => exact ⟨before, rfl⟩
  | cons t ts ih =>
    obtain ⟨first, later⟩ := List.isChain_cons.1 alternating
    obtain ⟨before', next⟩ := ih later (some t.atom)
    refine ⟨before', ?_⟩
    have here :
        t.atom.tokens (runsOn before t.atom (ts.map Token.atom ++ .delimiter text :: more)) =
          t.atom.tokens false := by
      by_cases punct : t.kind = .punct
      · have ends :
            runsOn before t.atom (ts.map Token.atom ++ .delimiter text :: more) = false := by
          cases ts with
          | nil => rfl
          | cons u us => simp [runsOn, Token.atom, Atom.isPunct, first u rfl punct]
        rw [ends]
      · exact Atom.tokens_word (by simpa [Token.atom, Atom.isPunct] using punct) _
    rw [List.map_cons, List.cons_append, layTokens, here, next, List.flatMap_cons,
      List.append_assoc]

/-! ## Groups that are laid out -/

theorem mergeAfter_edge {text : String} (visible : text ≠ "") (pending : String)
    (ms ns : List Mark) :
    mergeAfter pending (ms ++ .edge text :: ns) =
      mergeAfter pending ms ++ .delimiter text :: mergeAfter "" ns := by
  fun_induction mergeAfter pending ms <;>
    simp_all [mergeAfter, pendingAtom]

theorem layTokens_edge (before : Option Atom) (as : List Atom) (text : String) :
    layTokens before (as ++ [.delimiter text]) = layTokens before as ++ edgeTokens text := by
  induction as generalizing before with
  | nil => simp [layTokens, Atom.tokens]
  | cons a as ih =>
    have same : runsOn before a (as ++ [.delimiter text]) = runsOn before a as := by
      cases as <;> rfl
    rw [List.cons_append, layTokens, layTokens, same, ih, List.append_assoc]

/-- What is laid out between visible delimiters nests as a group. -/
theorem nests_group {d : Delimiter} (visible : d ≠ .invisible) {inner : List Token}
    {us : List TokenTree} (nested : Nests inner us) :
    Nests (edgeTokens d.opening ++ (inner ++ edgeTokens d.closing))
      [.group d us .callSite .callSite] := by
  cases d with
  | paren =>
    exact .group (o := ⟨.openParen, "(", .callSite, false⟩)
      (c := ⟨.closeParen, ")", .callSite, false⟩) rfl rfl nested .nil
  | bracket =>
    exact .group (o := ⟨.openBracket, "[", .callSite, false⟩)
      (c := ⟨.closeBracket, "]", .callSite, false⟩) rfl rfl nested .nil
  | brace =>
    exact .group (o := ⟨.openBrace, "\x7b", .callSite, false⟩)
      (c := ⟨.closeBrace, "\x7d", .callSite, false⟩) rfl rfl nested .nil
  | invisible => exact absurd rfl visible

section

variable {ts : List Token} {d : Delim} {body us : List TokenTree} (leaves : ∀ t ∈ ts, t.Leaf)
  (visible : d.delimiter ≠ .invisible)
include leaves visible

theorem atoms_call : atoms (ts.flatMap Token.trees ++ d.around body) =
    ts.map Token.atom ++ .delimiter d.delimiter.opening ::
      (atoms body ++ [.delimiter d.delimiter.closing]) := by
  have opening : d.delimiter.opening ≠ "" := by
    revert visible
    cases d.delimiter <;> decide
  have closing : d.delimiter.closing ≠ "" := by
    revert visible
    cases d.delimiter <;> decide
  rw [atoms, marksAll_append, mergeAfter_leaves leaves, Delim.around, marksAll_group, mergeAfter,
    mergeAfter_edge closing, if_neg opening]
  rfl

/-- A call nests as its path and a group, whose trees are those of the payload where it is laid
out. -/
theorem nests_call (alternating : Alternating ts)
    (nested : Nests (layTokens (some (.delimiter d.delimiter.opening)) (atoms body)) us) :
    Nests (layTokens none (atoms (ts.flatMap Token.trees ++ d.around body)))
      ((ts.flatMap (·.atom.tokens false)).map .token ++
        [.group d.delimiter us .callSite .callSite]) := by
  have plain : ∀ u ∈ ts.flatMap (·.atom.tokens false), u.bracket? = none := by
    intro u mem
    obtain ⟨t, inside, mem⟩ := List.mem_flatMap.1 mem
    exact (leaves t inside).plain_atom u mem
  rw [atoms_call leaves visible]
  obtain ⟨before, laid⟩ := layTokens_leaves alternating none d.delimiter.opening
    (atoms body ++ [.delimiter d.delimiter.closing])
  rw [laid, layTokens, layTokens_edge]
  exact (nests_plain plain).append (nests_group visible nested)

end

/-! ## Calls that are spelled -/

/-- The view that sees nothing of payloads. -/
def View.blind : View :=
  ⟨fun _ => [], View.strict.word⟩

theorem View.proper_blind : View.blind.Proper :=
  View.proper_strict

theorem spellsChars_operator {bars cs : List Char} {ts : List Token} {rest : List TokenTree}
    (same : ts.map Token.erase = operatorTokens false cs) :
    SpellsChars bars cs (ts.map .token) rest := by
  induction cs generalizing ts with
  | nil => rw [List.map_eq_nil_iff.1 same]; rfl
  | cons c cs ih =>
    obtain ⟨t, us, rfl, first, later⟩ := List.map_eq_cons_iff.1 same
    have kind : t.kind = .punct := congrArg Token.kind first
    have text : t.text = String.singleton c := congrArg Token.text first
    have joint : t.joint = (!cs.isEmpty || false) := congrArg Token.joint first
    refine ⟨t, us.map .token, rfl, kind, text, ?_, ih later⟩
    cases cs <;> simp [joint]

theorem Token.Leaf.spelled {t : Token} (h : t.Leaf) {us : List Token}
    (same : us.map Token.erase = t.atom.tokens false) (rest : List TokenTree) :
    t.chunk.Spelled .blind (us.map .token) rest := by
  rw [Token.atom, Atom.tokens] at same
  unfold Token.chunk
  split
  · rename_i punct
    rw [if_pos punct] at same
    exact ⟨punct, h.alone, h.sign punct, spellsChars_operator same⟩
  · rename_i word
    rw [if_neg word] at same
    obtain ⟨u, rfl, only⟩ := List.map_eq_singleton_iff.1 same
    refine ⟨⟨word, (h.word word).strict⟩, u, rfl, ?_⟩
    rw [only, Token.erase, h.alone]

theorem spells_leaves {ts us : List Token} (leaves : ∀ t ∈ ts, t.Leaf)
    (same : us.map Token.erase = ts.flatMap (·.atom.tokens false)) (rest : List TokenTree) :
    Spells .blind (ts.map Token.chunk) (us.map .token) rest := by
  induction ts generalizing us with
  | nil => rw [List.map_eq_nil_iff.1 same]; exact spells_nil.2 rfl
  | cons t ts ih =>
    obtain ⟨here, later⟩ := List.forall_mem_cons.1 leaves
    obtain ⟨xs, ys, rfl, first, more⟩ := List.map_eq_append_iff.1 same
    rw [List.map_append]
    exact spells_cons.2 ⟨_, _, rfl, here.spelled first _, ih later more⟩

/-! ## The path of a call -/

/-- A word as it stands in a text. -/
def IsPlainWord (t : Token) : Prop :=
  IsWordText t.kind t.text ∧ t.joint = false

theorem segment_of_isPlain {s : Segment} (h : s.isPlain = true) :
    ∃ ident, s = .segment ident .noArguments := by
  cases s with
  | segment ident arguments =>
    cases arguments with
    | noArguments => exact ⟨ident, rfl⟩
    | angle | parenthesized => cases h

section

variable {body : List TokenTree → Prop} {t : Token}

theorem leaf_word (h : (Chunk.word t).Regular IsPlainWord body) :
    t.Leaf ∧ t.kind ≠ .punct ∧ .word t = t.chunk :=
  ⟨⟨h.2.2, fun punct => absurd punct h.1, fun _ => h.2.1⟩, h.1, (if_neg h.1).symm⟩

theorem leaf_mark (h : (Chunk.mark t false).Regular IsPlainWord body) :
    t.Leaf ∧ .mark t false = t.chunk :=
  ⟨⟨h.2.1, fun _ => h.2.2, fun word => absurd h.1 word⟩, (if_pos h.1).symm⟩

theorem Separated.leaves {p : Separated Segment} {bang : Token} (ends : p.acceptsValue = false)
    (plain : p.toList.all Node.isPlain = true)
    (regular : RegularAll IsPlainWord body
      (p.chunks (fun n => n.layout.chunks) ++ [.mark bang false])) :
    ∃ ts : List Token,
      p.chunks (fun n => n.layout.chunks) ++ [.mark bang false] = ts.map Token.chunk ∧
      (∀ t ∈ ts, t.Leaf) ∧ Alternating ts ∧ ∀ t ∈ ts.head?, t.kind ≠ .punct := by
  induction p with
  | empty => cases ends
  | last v =>
    obtain ⟨ident, rfl⟩ := segment_of_isPlain (by simpa [toList] using plain)
    rw [chunks, Node.chunks_segment, Node.chunks_noArguments] at regular ⊢
    obtain ⟨first, word, eq⟩ := leaf_word regular.1
    obtain ⟨second, eq'⟩ := leaf_mark regular.2.1
    refine ⟨[ident, bang], by rw [eq, eq']; rfl, by simp [first, second], ?_, by simp [word]⟩
    exact .cons_cons (fun punct => absurd punct word) (.singleton _)
  | cons v s rest ih =>
    obtain ⟨here, later⟩ := Bool.and_eq_true_iff.1 plain
    obtain ⟨ident, rfl⟩ := segment_of_isPlain here
    rw [chunks, Node.chunks_segment, Node.chunks_noArguments, List.append_assoc,
      List.singleton_append, List.cons_append] at regular ⊢
    obtain ⟨first, word, eq⟩ := leaf_word regular.1
    obtain ⟨second, eq'⟩ := leaf_mark regular.2.1
    obtain ⟨ts, same, leaves, alternating, front⟩ := ih ends later regular.2.2
    refine ⟨ident :: s :: ts, by rw [eq, eq', same]; rfl, by simpa [first, second] using leaves, ?_,
      by simp [word]⟩
    exact .cons_cons (fun punct => absurd punct word)
      (List.isChain_cons.2 ⟨fun t first _ => front t first, alternating⟩)

/-- A path without arguments and the `!` after it are words with operators between them. -/
theorem Path.leaves {p : Path} {bang : Token} (wellFormed : p.WellFormed)
    (plain : p.hasNoArguments = true)
    (regular : RegularAll IsPlainWord body (p.layout.chunks ++ [.mark bang false])) :
    ∃ ts : List Token, p.layout.chunks ++ [.mark bang false] = ts.map Token.chunk ∧
      (∀ t ∈ ts, t.Leaf) ∧ Alternating ts := by
  cases p with
  | path leading xs =>
  rw [← Node.ofSeparated_separated xs] at wellFormed regular ⊢
  obtain ⟨ends, -, -⟩ := Node.wellFormed_path.1 wellFormed
  rw [Node.chunks_path, List.append_assoc] at regular ⊢
  obtain ⟨front, back⟩ := regularAll_append.1 regular
  obtain ⟨ts, same, leaves, alternating, starts⟩ := Separated.leaves ends plain back
  rw [same]
  cases leading with
  | none => exact ⟨ts, rfl, leaves, alternating⟩
  | some t =>
    obtain ⟨first, eq⟩ := leaf_mark front.1
    refine ⟨t :: ts, by rw [List.map_cons, ← eq]; rfl, List.forall_mem_cons.2 ⟨first, leaves⟩, ?_⟩
    exact List.isChain_cons.2 ⟨fun u first _ => starts u first, alternating⟩

end

theorem Separated.seen_congr {α β : Type} {f g : α → β} {p : Separated α}
    (h : ∀ x ∈ p.toList, f x = g x) : p.seen f = p.seen g := by
  induction p with
  | empty => rfl
  | last v => rw [seen_last, seen_last, h v List.mem_cons_self]
  | cons v s rest ih =>
    obtain ⟨here, later⟩ := List.forall_mem_cons.1 h
    rw [seen_cons, seen_cons, here, ih later]

/-- Without arguments nothing of a path is hidden. -/
theorem seen_of_hasNoArguments {p : Path} (plain : p.hasNoArguments = true) (s : Sight) :
    p.seen s = p.erase := by
  cases p with
  | path leading xs =>
  rw [Node.hasNoArguments, Node.segments, List.all_eq_true] at plain
  have same : xs.separated.seen (Node.seen s) = xs.separated.seen (Node.seen .full) := by
    refine Separated.seen_congr fun x mem => ?_
    obtain ⟨ident, rfl⟩ := segment_of_isPlain (plain x mem)
    rfl
  rw [← Node.seen_full, ← Node.ofSeparated_separated xs]
  simp only [Node.seen, Node.seen_ofSeparated, same]

/-! ## The payload of a call -/

namespace Reprints

theorem eq_nil {qs : List Chunk} (h : Reprints qs []) : qs = [] := by
  generalize nothing : ([] : List Chunk) = ps at h
  cases h <;> simp_all [Binder.chunks]

/-- What is printed as a payload at the end was read as one. -/
theorem ends_raw {qs ps : List Chunk} {d : Delim} {tokens : List TokenTree} (h : Reprints qs ps)
    (last : ps.getLast? = some (.raw d tokens)) : qs.getLast? = some (.raw d tokens) := by
  have extend (front : List Chunk) {back : List Chunk}
      (h : back.getLast? = some (.raw d tokens)) :
      (front ++ back).getLast? = some (.raw d tokens) := by
    rw [List.getLast?_append, h]
    rfl
  have strip (front : List Chunk) {back : List Chunk}
      (other : front.getLast? ≠ some (.raw d tokens))
      (h : (front ++ back).getLast? = some (.raw d tokens)) :
      back.getLast? = some (.raw d tokens) := by
    rw [List.getLast?_append] at h
    obtain last | ⟨-, last⟩ := Option.or_eq_some_iff.1 h
    · exact last
    · exact absurd last other
  -- a binder ends in `>`, whatever payloads its attributes have
  have binder (front : List Chunk) (b : Binder) :
      (front ++ b.chunks).getLast? ≠ some (.raw d tokens) := by
    simp [Binder.chunks, List.getLast?_append, List.getLast?_cons]
  induction h with
  | nil => cases last
  | @same qs ps p h ih =>
    cases ps with
    | nil => rwa [h.eq_nil]
    | cons => exact extend [p] (ih last)
  | inside d' _ _ _ ih => exact extend [_] (ih (strip [_] (by simp) last))
  | binder b _ _ _ ih => exact extend _ (ih (strip b.chunks (binder [] b) last))
  | @moved qs ps word modifier b b' _ _ _ _ _ ih =>
    refine extend _ (ih (extend [_] (extend _ (extend _ ?_))))
    refine strip (.word word :: markChunks modifier ++ b.chunks) (binder _ b) ?_
    simpa using last
  | movedInside _ _ _ _ _ _ ih => exact extend _ (ih (extend [_, _] (strip [_, _] (by simp) last)))
  | dropped _ _ _ _ _ _ _ ih => exact extend _ (ih last)
  | unwrapped _ _ _ _ _ _ ih => exact extend [_] (ih (strip [_] (by simp) last))

end Reprints

theorem Spells.ends_raw {v : View} {qs : List Chunk} {ts : List TokenTree} {d : Delim}
    {tokens : List TokenTree} (h : Spells v qs ts []) (last : qs.getLast? = some (.raw d tokens)) :
    ∃ front us o e, ts = front ++ [.group d.delimiter us o e] ∧
      eraseAll (v.raw us) = eraseAll (v.raw tokens) := by
  obtain ⟨front, rfl⟩ := List.getLast?_eq_some_iff.1 last
  obtain ⟨us, ws, rfl, -, h⟩ := spells_append.1 h
  obtain ⟨xs, o, e, ws, rfl, same, nothing⟩ := spells_raw.1 h
  cases spells_nil.1 nothing
  exact ⟨us, xs, o, e, rfl, same⟩

theorem Mark.lexical_erase (m : Mark) : m.erase.Lexical ↔ m.Lexical := by
  cases m <;> rfl

theorem lexical_inherited :
    Inherited (fun ts => ∀ m ∈ marksAll ts, m.Lexical) (fun t => t.joint = false)
      fun ts => ∀ m ∈ marksAll ts, m.Lexical where
  append h := by
    rw [marksAll_append] at h
    exact List.forall_mem_append.1 h
  group h := by
    rw [marksAll_group] at h
    exact (List.forall_mem_append.1 (List.forall_mem_cons.1 h).2).1
  word {t u} h other same := by
    obtain ⟨-, -, joint⟩ := erase_eq_iff.1 same
    exact joint.symm.trans ((h (.token t) List.mem_cons_self).2 other)
  body {ts us} h same := by
    have known : ∀ m ∈ marksAll (eraseAll ts), m.Lexical := by
      rw [marksAll_eraseAll]
      exact List.forall_mem_map.2 fun m mem => m.lexical_erase.2 (h m mem)
    rw [same, marksAll_eraseAll] at known
    exact fun m mem => m.lexical_erase.1 (List.forall_mem_map.1 known m mem)

/-- Trees as they stand in a text: their tokens can be read one by one, and no group is invisible.
-/
def IsTextual (ts : List TokenTree) : Prop :=
  Renderable ts ∧ ∀ m ∈ marksAll ts, m.Lexical

theorem textual_of_tokenize {source file : String} {line : Int} {ts : List TokenTree}
    (h : tokenize source file line = .ok ts) : IsTextual ts :=
  ⟨.of_tokenize h, lexical_of_tokenize h⟩

theorem textual_inherited : Inherited IsTextual IsPlainWord IsTextual :=
  Renderable.inherited.and lexical_inherited

/-! ## Calls that are read again -/

theorem chunks_call (p : Path) (bang : Token) (d : Delim) (body : List TokenTree) :
    (Node.macroType (.invocation p bang d body)).layout.chunks =
      p.layout.chunks ++ [.mark bang false] ++ [.raw d body] := by
  simp only [Node.layout, ChunkLayout.chunks_whole, List.append_assoc, List.singleton_append]

theorem treesAll_leaves (ts : List Token) :
    Chunk.treesAll (ts.map Token.chunk) = ts.flatMap Token.trees := by
  induction ts with
  | nil => rfl
  | cons t ts ih =>
    rw [List.map_cons, Chunk.treesAll_cons, ih, List.flatMap_cons, Token.chunk]
    split <;> rfl

/-- Trees that are tokens in front of a group, outside any file. -/
theorem eraseAll_eq_call {us ws : List TokenTree} {ts : List Token} {d : Delimiter}
    (h : eraseAll us = ts.map .token ++ [.group d ws .callSite .callSite]) :
    ∃ (xs : List Token) (inner : List TokenTree) (o e : Span),
      us = xs.map .token ++ [.group d inner o e] ∧ xs.map Token.erase = ts ∧
        eraseAll inner = ws := by
  obtain ⟨front, back, rfl, heads, last⟩ := eraseAll_eq_append h
  obtain ⟨inner, o, e, rfl, inside⟩ := eraseAll_eq_group last
  obtain ⟨xs, rfl, same⟩ := eraseAll_eq_tokens heads
  exact ⟨xs, inner, o, e, rfl, same, inside⟩

section

variable {text file : String} {line : Int} {plus : Bool} {p : Path} {bang : Token} {d : Delim}
  {body : List TokenTree}

/-- What a macro call consists of that was read from a text. -/
structure IsCall (p : Path) (bang : Token) (d : Delim) (body : List TokenTree) (ts : List Token) :
    Prop where
  chunks : p.layout.chunks ++ [.mark bang false] = ts.map Token.chunk
  leaves : ∀ t ∈ ts, t.Leaf
  alternating : Alternating ts
  plain : p.hasNoArguments = true
  visible : d.delimiter ≠ .invisible
  renderable : Renderable body
  lexical : ∀ m ∈ marksAll body, m.Lexical

theorem isCall_of_parseText
    (h : parseText text file line plus = .ok (.macroType (.invocation p bang d body))) :
    ∃ ts, IsCall p bang d body ts := by
  obtain ⟨stream, e, c', source, run, done⟩ := tokenize_of_parseText h
  have lexical := lexical_of_tokenize source
  obtain ⟨-, -, -, -, -, plain, wellFormed⟩ := settled_of_parseType run
  obtain ⟨qs, spelled, same⟩ := reprints_of_parseType run done
  have regular := same.regular (spelled.regular textual_inherited (textual_of_tokenize source))
  rw [chunks_call] at regular same
  obtain ⟨front, payload, -⟩ := regularAll_append.1 regular
  obtain ⟨ks, chunks, leaves, alternating⟩ := Path.leaves wellFormed plain front
  refine ⟨ks, chunks, leaves, alternating, plain, ?_, payload.1, payload.2⟩
  obtain ⟨xs, us, o, close, rfl, -⟩ := spelled.ends_raw (same.ends_raw List.getLast?_concat)
  rw [marksAll_append, marksAll_group] at lexical
  have opening := (List.forall_mem_append.1 lexical).2 _ List.mem_cons_self
  intro invisible
  rw [invisible] at opening
  exact opening rfl

theorem IsCall.trees_eq {ts : List Token} (call : IsCall p bang d body ts) :
    (Node.macroType (.invocation p bang d body)).trees =
      ts.flatMap Token.trees ++ d.around body := by
  rw [Node.trees_eq, chunks_call, call.chunks, Chunk.treesAll_append, treesAll_leaves]
  simp

/-- A node in which the same is seen as in a macro call, except for the payload. -/
theorem call_of_again {t : Ty} (plain : p.hasNoArguments = true)
    (again : (Node.macroType (.invocation p bang d body)).Again .blind true t) :
    ∃ p' bang' d' body', t = .macroType (.invocation p' bang' d' body') ∧ p'.erase = p.erase ∧
      bang'.erase = bang.erase ∧ d'.erase = d.erase := by
  cases t with
  | macroType m =>
    cases m with
    | invocation p' bang' d' body' =>
    simp only [Node.Again, Node.seen, Node.macroType.injEq, Node.invocation.injEq] at again
    obtain ⟨path, bang, delim, -⟩ := again
    have plain' := (Node.Again.hasNoArguments path).trans plain
    rw [seen_of_hasNoArguments plain, seen_of_hasNoArguments plain'] at path
    exact ⟨p', bang', d', body', rfl, path, bang, delim⟩
  | _ => cases again

/-- A macro call that is printed is read again, with the tokens of its payload. -/
theorem parseText_payload
    (h : parseText text file line plus = .ok (.macroType (.invocation p bang d body)))
    (file' : String) (line' : Int) :
    ∃ t body',
      parseText (Node.macroType (.invocation p bang d body)).text file' line' plus = .ok t ∧
      t.erase = (Node.macroType (.invocation p bang d body')).erase ∧
      flatten body' = flatten body ∧
      (t.erase = (Node.macroType (.invocation p bang d body)).erase ↔
        KeepsJoints (some (.delimiter d.delimiter.opening)) body) := by
  obtain ⟨ks, call⟩ := isCall_of_parseText h
  obtain ⟨us, read, -, laid⟩ := (Renderable.of_parseText h).tokenize_laid file' line'
  obtain ⟨ws, inside, flat⟩ := nests_flatten body
    ((@items_layTokens (some (.delimiter d.delimiter.opening)) _ call.renderable.atoms).trans
      (items_atoms body))
  rw [call.trees_eq] at laid
  obtain ⟨xs, inner, o, e, eq, heads, contents⟩ := eraseAll_eq_call
    (laid.unique (nests_call call.leaves call.visible call.alternating inside))
  have spelled :
      Spells .blind (Node.macroType (.invocation p bang d body)).layout.chunks us [] := by
    rw [chunks_call, call.chunks, eq]
    exact spells_append.2 ⟨_, _, rfl, spells_leaves call.leaves heads _,
      spells_raw.2 ⟨inner, o, e, [], rfl, rfl, spells_nil.2 rfl⟩⟩
  obtain ⟨_, _, _, -, -, run, done⟩ := parseText_ok.1 h
  obtain ⟨tokens, lexed, nested⟩ := tokenize_eq_ok.1 read
  obtain ⟨t, c', run', done', again⟩ := parseType_rereads (d := .ofTrees us (endOf tokens))
    View.proper_blind run done spelled
  obtain ⟨p', bang', d', body', rfl, path, mark, delim⟩ := call_of_again call.plain again
  have payload : eraseAll body' = ws := by
    obtain ⟨qs, ⟨ts, all, took⟩, same⟩ := parseType_reads run'
    rw [done'] at all took
    rw [chunks_call] at same
    obtain ⟨front, us', o', e', rfl, same'⟩ := took.ends_raw (same.ends_raw List.getLast?_concat)
    simp only [Cursor.ofTrees, List.append_nil, eq] at all
    obtain ⟨-, last⟩ := List.append_inj' all rfl
    obtain ⟨-, rfl, -⟩ := TokenTree.group.inj (List.cons.inj last).1
    exact same'.symm.trans contents
  refine ⟨_, body', parseText_ok.2 ⟨tokens, us, c', lexed, nested, run', done'⟩, ?_, ?_, ?_⟩
  · simp only [Node.erase, path, mark, delim]
  · rw [← flatten_eraseAll body', payload, flat]
  · simp only [Node.erase, path, mark, delim, Node.macroType.injEq, Node.invocation.injEq, true_and,
      payload]
    exact eq_of_laid call.renderable inside call.lexical

end

/-- The arrow in `m!(a->b)` stays one. -/
theorem parseText_payload_arrow :
    ∃ p bang d body t,
      parseText "m!(a->b)" "" 1 true = .ok (.macroType (.invocation p bang d body)) ∧
      (Node.macroType (.invocation p bang d body)).text = "m!(a -> b)" ∧
      parseText (Node.macroType (.invocation p bang d body)).text "" 1 true = .ok t ∧
      t.erase = (Node.macroType (.invocation p bang d body)).erase := by
  let place (col : Int) : Span := ⟨"", 1, col, 1, col⟩
  let name (text : String) (col : Int) : Token := ⟨.identifier, text, place col, false⟩
  let body : List TokenTree := [.token (name "a" 4), .token ⟨.punct, "-", place 5, true⟩,
    .token ⟨.punct, ">", place 6, false⟩, .token (name "b" 7)]
  have run : parseText "m!(a->b)" "" 1 true = .ok (.macroType (.invocation
      (.path none (.last (.segment (name "m" 1) .noArguments))) (.punct "!" (place 2))
      ⟨.paren, place 3⟩ body)) := by rfl
  obtain ⟨t, body', read, -, -, same⟩ := parseText_payload run "" 1
  exact ⟨_, _, _, body, t, run, by decide, read, same.2 (by decide)⟩

/-- The two colons in `m!(a: :b)` become one operator. -/
theorem payload_glued :
    ¬ ∀ (text : String) (call : Node .invocation),
      parseText text "" 1 true = .ok (.macroType call) →
      ∃ t, parseText (Node.macroType call).text "" 1 true = .ok t ∧
        t.erase = (Node.macroType call).erase := by
  intro claim
  let place (col : Int) : Span := ⟨"", 1, col, 1, col⟩
  let name (text : String) (col : Int) : Token := ⟨.identifier, text, place col, false⟩
  let body : List TokenTree := [.token (name "a" 4), .token ⟨.punct, ":", place 5, false⟩,
    .token ⟨.punct, ":", place 7, false⟩, .token (name "b" 8)]
  have run : parseText "m!(a: :b)" "" 1 true = .ok (.macroType (.invocation
      (.path none (.last (.segment (name "m" 1) .noArguments))) (.punct "!" (place 2))
      ⟨.paren, place 3⟩ body)) := by rfl
  obtain ⟨t, read, same⟩ := claim _ _ run
  let body' : List TokenTree := [.token (name "a" 4), .token ⟨.punct, ":", place 5, true⟩,
    .token ⟨.punct, ":", place 6, false⟩, .token (name "b" 8)]
  have again : parseText "m!(a:: b)" "" 1 true = .ok (.macroType (.invocation
      (.path none (.last (.segment (name "m" 1) .noArguments))) (.punct "!" (place 2))
      ⟨.paren, place 3⟩ body')) := by rfl
  rw [show Node.text _ = "m!(a:: b)" by decide, again] at read
  cases read
  exact absurd same (by decide)

end TypeGrammar
