import TypeGrammar.Proofs.Outcomes
import TypeGrammar.Proofs.Places
import TypeGrammar.Proofs.Retokenizing
import TypeGrammar.Proofs.Skipping
import TypeGrammar.Run

/-!
# Formatting keeps the lines

A listing is formatted as a whole or not at all. What was a line with a type is a line with this
type in canonical form, and all other lines stay. For the canonical form of a type that was read
from a line has no line boundary: its tokens are parts of the line or operators. And it is neither
blank nor a comment: it has tokens.
-/

namespace TypeGrammar

open Text TokenTree
open Chunk (treesAll)

/-! ## Trees on one line -/

/-- The text of a token or of an edge. -/
def Mark.text : Mark → String
  | .token t => t.text
  | .edge text => text

/-- Trees whose tokens hold no line boundary. -/
def OneLine (ts : List TokenTree) : Prop :=
  ∀ m ∈ marksAll ts, Unbroken m.text.toList

theorem oneLine_nil : OneLine [] :=
  fun _ mem => absurd mem List.not_mem_nil

theorem oneLine_append {ts us : List TokenTree} : OneLine (ts ++ us) ↔ OneLine ts ∧ OneLine us := by
  rw [OneLine, marksAll_append]
  exact List.forall_mem_append

theorem unbroken_edge (d : Delimiter) : Unbroken d.opening.toList ∧ Unbroken d.closing.toList := by
  cases d <;> decide

theorem oneLine_group {d : Delimiter} {ts : List TokenTree} {o e : Span} :
    OneLine [.group d ts o e] ↔ OneLine ts := by
  obtain ⟨opening, closing⟩ := unbroken_edge d
  rw [OneLine, marksAll_group, List.forall_mem_cons, List.forall_mem_append,
    List.forall_mem_singleton]
  exact ⟨fun h => h.2.1, fun h => ⟨opening, h, closing⟩⟩

theorem oneLine_singleton {t : Token} : OneLine [.token t] ↔ Unbroken t.text.toList :=
  List.forall_mem_singleton

theorem oneLine_eraseAll {ts : List TokenTree} : OneLine (eraseAll ts) ↔ OneLine ts := by
  have text (m : Mark) : m.erase.text = m.text := by
    cases m <;> rfl
  simp only [OneLine, marksAll_eraseAll, List.forall_mem_map, text]

theorem oneLine_go (t : Token) {cs : List Char} (h : Unbroken cs) :
    OneLine ((Token.split.go t cs).map .token) := by
  induction cs with
  | nil => exact oneLine_nil
  | cons c cs ih =>
    obtain ⟨first, more⟩ := unbroken_cons.1 h
    have single : OneLine [.token ⟨.punct, String.singleton c, t.span, !cs.isEmpty⟩] := by
      rw [oneLine_singleton, String.toList_singleton]
      exact unbroken_cons.2 ⟨first, .nil⟩
    exact oneLine_append.2 ⟨single, ih more⟩

theorem oneLine_trees {t : Token} (h : Unbroken t.text.toList) : OneLine t.trees := by
  unfold Token.trees
  split
  · exact oneLine_go t h
  · exact oneLine_singleton.2 h

theorem unbroken_signs : ∀ op ∈ signs, Unbroken op.toList := by
  decide

/-- What is read from trees on one line is made of parts on one line. -/
theorem oneLine_inherited : Inherited OneLine (fun t => Unbroken t.text.toList) OneLine where
  append h := oneLine_append.1 h
  group h := oneLine_group.1 h
  word {t u} h _ same := by
    obtain ⟨-, text, -⟩ := erase_eq_iff.1 same
    rw [← text]
    exact oneLine_singleton.1 h
  body h same := by
    rw [← oneLine_eraseAll, ← same, oneLine_eraseAll]
    exact h

mutual

theorem Chunk.Regular.oneLine : {p : Chunk} →
    p.Regular (fun t => Unbroken t.text.toList) OneLine → OneLine p.trees
  | .word _, h => oneLine_trees h.2
  | .mark _ _, h => oneLine_trees (unbroken_signs _ h.2.2)
  | .group _ _, h => oneLine_group.2 (RegularAll.oneLine h)
  | .raw _ _, h => oneLine_group.2 h

theorem RegularAll.oneLine : {ps : List Chunk} →
    RegularAll (fun t => Unbroken t.text.toList) OneLine ps → OneLine (treesAll ps)
  | [], _ => oneLine_nil
  | _ :: _, h => oneLine_append.2 ⟨h.1.oneLine, h.2.oneLine⟩

end

/-! ## The tokens of a line -/

/-- A token of a text is a part of it. -/
theorem Tiled.text {file : String} {line : Int} {before cs : List Char} {tokens : List Token}
    (h : Tiled file line before tokens cs) :
    ∀ t ∈ tokens, t.text.toList ≠ [] ∧ t.text.toList ⊆ cs := by
  induction h with
  | gap => exact fun _ mem => absurd mem List.not_mem_nil
  | @token before gap rest t ts _ visible _ _ ih =>
    refine List.forall_mem_cons.2 ⟨⟨visible, fun c mem => by simp [mem]⟩, fun u mem => ?_⟩
    obtain ⟨visible', inside⟩ := ih u mem
    exact ⟨visible', fun c mem => by simp [inside mem]⟩

/-- The trees of a text are those of its tokens, which are parts of it. -/
theorem nests_of_tokenize {source file : String} {line : Int} {ts : List TokenTree}
    (h : tokenize source file line = .ok ts) :
    ∃ tokens, Nests tokens ts ∧
      ∀ t ∈ tokens, t.text.toList ≠ [] ∧ t.text.toList ⊆ source.toList := by
  obtain ⟨quiet, nested⟩ := tokenize_ok.1 h
  have start : faultsAt file ((⟨line, 1⟩ : Place).after []) (pieces source.toList) = [] := quiet
  exact ⟨_, nested, (tiled_piecesUpTo (Nat.le_refl _) start).2.text⟩

theorem OneLine.of_tokenize {source file : String} {line : Int} {ts : List TokenTree}
    (oneLine : Unbroken source.toList) (h : tokenize source file line = .ok ts) : OneLine ts := by
  obtain ⟨tokens, nested, texts⟩ := nests_of_tokenize h
  rw [OneLine, nested.marksAll_eq, List.forall_mem_map]
  intro t mem
  cases opens : t.kind.opens? with
  | some d => exact Token.mark_opens opens ▸ (unbroken_edge d).1
  | none =>
    cases closes : t.kind.closes? with
    | some d => exact Token.mark_closes closes ▸ (unbroken_edge d).2
    | none => exact Token.mark_token opens closes ▸ oneLine.of_subset (texts t mem).2

theorem OneLine.of_parseText {text file : String} {line : Int} {plus : Bool} {t : Ty}
    (oneLine : Unbroken text.toList) (h : parseText text file line plus = .ok t) :
    OneLine t.trees := by
  rw [Node.trees_eq]
  exact (regularAll_of_parseText oneLine_inherited h fun _ => OneLine.of_tokenize oneLine).oneLine

/-! ## Canonical text on one line -/

theorem unbroken_pendingAtom {pending : String} (h : Unbroken pending.toList) :
    ∀ a ∈ pendingAtom pending, Unbroken a.text.toList := by
  unfold pendingAtom
  split
  · exact fun _ mem => absurd mem List.not_mem_nil
  · exact List.forall_mem_singleton.2 h

theorem unbroken_mergeAfter {pending : String} {ms : List Mark} (h : Unbroken pending.toList)
    (marks : ∀ m ∈ ms, Unbroken m.text.toList) :
    ∀ a ∈ mergeAfter pending ms, Unbroken a.text.toList := by
  fun_induction mergeAfter pending ms with
  | case1 pending => exact unbroken_pendingAtom h
  | case2 pending t ms punct joint ih =>
    obtain ⟨here, later⟩ := List.forall_mem_cons.1 marks
    refine ih ?_ later
    rw [String.toList_append]
    exact unbroken_append.2 ⟨h, here⟩
  | case3 pending t ms punct alone ih =>
    obtain ⟨here, later⟩ := List.forall_mem_cons.1 marks
    refine List.forall_mem_cons.2 ⟨?_, ih .nil later⟩
    rw [Atom.text, String.toList_append]
    exact unbroken_append.2 ⟨h, here⟩
  | case4 pending t ms other ih =>
    obtain ⟨here, later⟩ := List.forall_mem_cons.1 marks
    exact List.forall_mem_append.2
      ⟨unbroken_pendingAtom h, List.forall_mem_cons.2 ⟨here, ih .nil later⟩⟩
  | case5 pending text ms ih =>
    obtain ⟨here, later⟩ := List.forall_mem_cons.1 marks
    have edge : ∀ a ∈ if text = "" then [] else [Atom.delimiter text], Unbroken a.text.toList := by
      split
      · exact fun _ mem => absurd mem List.not_mem_nil
      · exact List.forall_mem_singleton.2 here
    exact List.forall_mem_append.2
      ⟨List.forall_mem_append.2 ⟨unbroken_pendingAtom h, edge⟩, ih .nil later⟩

theorem unbroken_layAfter {before : Option Atom} {prev : Atom} {as : List Atom}
    (h : ∀ a ∈ as, Unbroken a.text.toList) : ∀ s ∈ layAfter before prev as, Unbroken s.toList := by
  induction as generalizing before prev with
  | nil => exact fun _ mem => absurd mem List.not_mem_nil
  | cons a as ih =>
    obtain ⟨here, later⟩ := List.forall_mem_cons.1 h
    rw [layAfter]
    refine List.forall_mem_append.2 ⟨?_, ih later⟩
    split
    · exact List.forall_mem_cons.2 ⟨by decide, List.forall_mem_singleton.2 here⟩
    · exact List.forall_mem_singleton.2 here

/-- The canonical text of trees on one line is on one line. -/
theorem unbroken_render {ts : List TokenTree} (h : OneLine ts) : Unbroken (render ts).toList := by
  have texts : ∀ a ∈ atoms ts, Unbroken a.text.toList := unbroken_mergeAfter .nil h
  have parts : ∀ s ∈ lay (atoms ts), Unbroken s.toList := by
    revert texts
    cases atoms ts with
    | nil => exact fun _ _ mem => absurd mem List.not_mem_nil
    | cons a as =>
      intro texts
      obtain ⟨first, more⟩ := List.forall_mem_cons.1 texts
      exact List.forall_mem_cons.2 ⟨first, unbroken_layAfter more⟩
  rw [render, String.toList_join]
  intro c mem
  obtain ⟨s, part, inside⟩ := List.mem_flatMap.1 mem
  exact parts s part c inside

/-! ## Types have tokens -/

theorem flatten_ne_nil_of_nests {tokens : List Token} {ts : List TokenTree} (h : Nests tokens ts)
    (texts : ∀ t ∈ tokens, t.text.toList ≠ []) (nonempty : ts ≠ []) : flatten ts ≠ [] := by
  cases h with
  | nil => exact absurd rfl nonempty
  | @token t tokens ts _ _ _ =>
    have visible := texts t List.mem_cons_self
    rw [flatten, flat, Token.flat_eq]
    split <;> simp [operatorItems, visible]
  | @group o c d inner tokens body ts opens _ _ _ =>
    have visible : d ≠ .invisible := by
      rintro rfl
      revert opens
      cases o.kind <;> simp [TokenKind.opens?]
    cases d <;> first | exact absurd rfl visible | simp [flatten, flat, flatDelimiter]

theorem flatten_word_ne_nil {t : Token} (h : t.kind ≠ .punct) (ps : List Chunk) :
    flatten (treesAll (.word t :: ps)) ≠ [] := by
  simp [flatten_append, Token.flatten_trees, Token.flat_eq, h]

/-- What is printed without tokens was read from none. -/
theorem Reprints.flatten_eq_nil {qs ps : List Chunk} (h : Reprints qs ps) :
    flatten (treesAll ps) = [] → flatten (treesAll qs) = [] := by
  induction h with
  | nil => exact id
  | same p _ ih =>
    simp only [Chunk.treesAll_cons, flatten_append, List.append_eq_nil_iff]
    exact fun bare => ⟨bare.1, ih bare.2⟩
  | inside d _ _ inner ih =>
    simp only [Chunk.treesAll_cons, Chunk.trees_group, Delim.around, flatten_append, flatten, flat,
      List.append_eq_nil_iff]
    exact fun bare => ⟨⟨⟨⟨bare.1.1.1.1, inner bare.1.1.1.2⟩, bare.1.1.2⟩, bare.1.2⟩, ih bare.2⟩
  | binder b word _ _ _ => exact fun bare => absurd bare (flatten_word_ne_nil word.kind_ne _)
  | moved _ _ _ _ word _ _ _ | movedInside _ _ _ _ word _ _ | dropped _ _ _ word _ _ _ _ =>
    exact fun bare => absurd bare (flatten_word_ne_nil word.kind_ne _)
  | unwrapped outer _ _ _ _ _ _ => simp [flatten, flat, flatDelimiter, outer, Delim.around]

/-- A type that was read from a text is printed with some tokens. -/
theorem flatten_trees_ne_nil {text file : String} {line : Int} {plus : Bool} {t : Ty}
    (h : parseText text file line plus = .ok t) : flatten t.trees ≠ [] := by
  obtain ⟨stream, e, c', source, run, done⟩ := tokenize_of_parseText h
  obtain ⟨qs, spelled, same⟩ := reprints_of_parseType run done
  obtain ⟨words, nested, texts⟩ := nests_of_tokenize source
  have nonempty : stream ≠ [] := by
    rintro rfl
    have shorter := (settled_of_parseType run).length
    simp [Cursor.ofTrees] at shorter
  intro bare
  rw [Node.trees_eq] at bare
  have bare' := same.flatten_eq_nil bare
  rw [← spelled.flatten] at bare'
  exact flatten_ne_nil_of_nests nested (fun t mem => (texts t mem).1) nonempty bare'

/-! ## Lines that are formatted -/

namespace Listing

/-- A line that holds no type has no trees, unless it is faulty. -/
theorem eq_nil_of_holdsNoType {line file : String} {number : Int} {ts : List TokenTree}
    (oneLine : Unbroken line.toList) (skipped : holdsNoType line = true)
    (h : tokenize line file number = .ok ts) : ts = [] := by
  obtain ⟨quiet, nested⟩ := tokenize_ok.1 h
  have scanned : Scanned line.toList
      ((tokensAt file ⟨number, 1⟩ (pieces line.toList)).map Token.erase) :=
    .of_quiet (Nat.le_refl _) quiet
  rw [← List.takeWhile_append_dropWhile (p := isBlank) (l := line.toList),
    Scanned.blank_append fun c mem => List.mem_takeWhile_imp mem,
    List.takeWhile_append_dropWhile] at scanned
  have more := oneLine.of_subset (List.dropWhile_sublist isBlank).subset
  have empty := (scanned_comment (holdsNoType_iff.1 skipped) more).1 scanned.2
  rw [List.map_eq_nil_iff.1 empty] at nested
  cases nested
  rfl

/-- The canonical form of a type that was read from a line is no blank line and no comment. -/
theorem holdsNoType_text {line file : String} {number : Int} {plus : Bool} {t : Ty}
    (oneLine : Unbroken line.toList) (h : parseText line file number plus = .ok t) :
    holdsNoType t.text = false := by
  obtain ⟨us, again, same⟩ := (Renderable.of_parseText h).read_again file number
  rw [Bool.eq_false_iff]
  intro skipped
  have empty := eq_nil_of_holdsNoType (unbroken_render (.of_parseText oneLine h)) skipped again
  subst empty
  exact flatten_trees_ne_nil h same.symm

/-! ## Listings -/

/-- The entry of each line, with its number. -/
theorem getElem?_entriesFrom (file : String) (plus : Bool) (number : Nat) (lines : List String)
    (i : Nat) : (entriesFrom file plus number lines)[i]? =
      lines[i]?.map fun line => (number + i, readEntry file plus (number + i) line) := by
  induction lines generalizing number i with
  | nil => simp [entriesFrom]
  | cons line rest ih =>
    cases i with
    | zero => rfl
    | succ i => simp [entriesFrom, ih, Nat.add_assoc, Nat.add_comm 1 i]

theorem length_entriesFrom (file : String) (plus : Bool) (number : Nat) (lines : List String) :
    (entriesFrom file plus number lines).length = lines.length := by
  induction lines generalizing number with
  | nil => rfl
  | cons line rest ih => simp [entriesFrom, ih]

/-- Some line of a listing is not skipped and is no type. -/
def IsFaulty (text file : String) (plus : Bool) : Prop :=
  ∃ i line, (Text.lines text)[i]? = some line ∧ holdsNoType line = false ∧
    ∃ e, parseText line file (i + 1 : Nat) plus = .error e

/-- A line, and the same line of the listing in canonical form. -/
structure Formatted (file : String) (plus : Bool) (number : Nat) (line line' : String) : Prop where
  skipped : holdsNoType line = true → line' = line
  type : holdsNoType line = false → ∃ t, parseText line file number plus = .ok t ∧ line' = t.text
  oneLine : Unbroken line'.toList
  again : holdsNoType line' = holdsNoType line

theorem readEntry_isFaulty {file : String} {plus : Bool} {number : Nat} {line : String} :
    (readEntry file plus number line).isFaulty = true ↔
      holdsNoType line = false ∧ ∃ e, parseText line file number plus = .error e := by
  unfold readEntry
  cases holdsNoType line with
  | true => simp [Entry.isFaulty]
  | false => cases parseText line file number plus <;> simp [Entry.isFaulty]

theorem formatted_of_readEntry {file : String} {plus : Bool} {number : Nat} {line : String}
    (oneLine : Unbroken line.toList) (h : (readEntry file plus number line).isFaulty = false) :
    Formatted file plus number line (formatLine line (readEntry file plus number line)) := by
  cases skipped : holdsNoType line with
  | true =>
    have entry : readEntry file plus number line = .skipped := by
      simp [readEntry, skipped]
    rw [entry]
    refine ⟨fun _ => rfl, fun type => ?_, oneLine, rfl⟩
    cases skipped.symm.trans type
  | false =>
    cases read : parseText line file number plus with
    | error e => simp [readEntry, skipped, read, Entry.isFaulty] at h
    | ok t =>
      have entry : readEntry file plus number line = .type t := by
        simp [readEntry, skipped, read]
      rw [entry]
      refine ⟨fun skipped' => ?_, fun _ => ⟨t, read, rfl⟩,
        unbroken_render (.of_parseText oneLine read),
        (holdsNoType_text oneLine read).trans skipped.symm⟩
      cases skipped.symm.trans skipped'

theorem any_isFaulty {text file : String} {plus : Bool} :
    ((entries file plus (Text.lines text)).any fun x => x.2.isFaulty) = true ↔
      IsFaulty text file plus := by
  rw [List.any_eq_true]
  constructor
  · rintro ⟨x, mem, faulty⟩
    obtain ⟨i, at'⟩ := List.mem_iff_getElem?.1 mem
    rw [entries, getElem?_entriesFrom] at at'
    obtain ⟨line, here, rfl⟩ := Option.map_eq_some_iff.1 at'
    rw [Nat.add_comm 1 i] at faulty
    exact ⟨i, line, here, readEntry_isFaulty.1 faulty⟩
  · rintro ⟨i, line, here, faulty⟩
    refine ⟨(1 + i, readEntry file plus (1 + i) line), List.mem_iff_getElem?.2 ⟨i, ?_⟩, ?_⟩
    · rw [entries, getElem?_entriesFrom, here]
      rfl
    · rw [Nat.add_comm 1 i]
      exact readEntry_isFaulty.2 faulty

theorem format_eq (text file : String) (plus : Bool) :
    (IsFaulty text file plus → ∃ ds, format text file plus = .error ds) ∧
      (¬ IsFaulty text file plus → format text file plus =
        .ok (unlines (((Text.lines text).zip (entries file plus (Text.lines text))).map
          fun x => formatLine x.1 x.2.2))) := by
  rw [← any_isFaulty]
  unfold format
  constructor
  · intro faulty
    exact ⟨_, if_pos faulty⟩
  · exact fun sound => if_neg sound

theorem format_error_iff {text file : String} {plus : Bool} :
    (∃ ds, format text file plus = .error ds) ↔ IsFaulty text file plus := by
  refine ⟨fun ⟨ds, error⟩ => ?_, (format_eq text file plus).1⟩
  by_contra sound
  cases error.symm.trans ((format_eq text file plus).2 sound)

/-- What formatting makes of a listing are its lines, each formatted and closed by a line feed. -/
theorem unlines_of_format {text file out : String} {plus : Bool}
    (h : format text file plus = .ok out) :
    ∃ ls, out = unlines ls ∧ ls.length = (Text.lines text).length ∧
      ∀ i line, (Text.lines text)[i]? = some line →
        ∃ line', ls[i]? = some line' ∧ Formatted file plus (i + 1) line line' := by
  have sound : ¬ IsFaulty text file plus := by
    intro faulty
    obtain ⟨ds, error⟩ := format_error_iff.2 faulty
    cases h.symm.trans error
  cases ((format_eq text file plus).2 sound).symm.trans h
  refine ⟨_, rfl, by simp [entries, length_entriesFrom], fun i line here => ?_⟩
  have line' : (((Text.lines text).zip (entries file plus (Text.lines text))).map
      fun x => formatLine x.1 x.2.2)[i]? =
        some (formatLine line (readEntry file plus (i + 1) line)) := by
    rw [List.map_zip_eq_zipWith, List.getElem?_zipWith, entries, getElem?_entriesFrom, here]
    simp [Function.curry, Nat.add_comm 1 i]
  refine ⟨_, line', formatted_of_readEntry ?_ ?_⟩
  · exact unbroken_lines text line (List.mem_iff_getElem?.2 ⟨i, here⟩)
  · rw [Bool.eq_false_iff]
    exact fun faulty => sound ⟨i, line, here, readEntry_isFaulty.1 faulty⟩

/-- Each line that is made by formatting comes from a line of the listing. -/
theorem formatted_of_mem {text file : String} {plus : Bool} {ls : List String}
    (length : ls.length = (Text.lines text).length)
    (each : ∀ i line, (Text.lines text)[i]? = some line →
      ∃ line', ls[i]? = some line' ∧ Formatted file plus (i + 1) line line') :
    ∀ l ∈ ls, ∃ number line, Formatted file plus number line l := by
  intro l mem
  obtain ⟨i, inside, here⟩ := List.mem_iff_getElem.1 mem
  have source := List.getElem?_eq_getElem (length ▸ inside)
  obtain ⟨line', here', formatted⟩ := each i _ source
  rw [List.getElem?_eq_getElem inside, here] at here'
  cases here'
  exact ⟨_, _, formatted⟩

/-- Formatting keeps the number of the lines, and formats each of them. -/
theorem lines_of_format {text file out : String} {plus : Bool}
    (h : format text file plus = .ok out) :
    (Text.lines out).length = (Text.lines text).length ∧
      ∀ i line, (Text.lines text)[i]? = some line →
        ∃ line', (Text.lines out)[i]? = some line' ∧ Formatted file plus (i + 1) line line' := by
  obtain ⟨ls, rfl, length, each⟩ := unlines_of_format h
  have oneLine : ∀ l ∈ ls, Unbroken l.toList := fun l mem => by
    obtain ⟨_, _, formatted⟩ := formatted_of_mem length each l mem
    exact formatted.oneLine
  rw [lines_unlines oneLine]
  exact ⟨length, each⟩

theorem isFaulty_of_name {text file : String} {plus : Bool} (h : IsFaulty text file plus)
    (file' : String) : IsFaulty text file' plus := by
  obtain ⟨i, line, here, type, e, read⟩ := h
  refine ⟨i, line, here, type, ?_⟩
  have same := parseText_anywhere line file file' (i + 1 : Nat) (i + 1 : Nat) plus
  rw [read] at same
  cases read' : parseText line file' (i + 1 : Nat) plus with
  | error e' => exact ⟨e', rfl⟩
  | ok t =>
    rw [read'] at same
    cases same

end Listing

/-! ## Files that are formatted -/

namespace Run

theorem written_foldl (r : Record) (rs : List Record) :
    (rs.foldl Record.append r).written = r.written ++ rs.flatMap (·.written) := by
  induction rs generalizing r with
  | nil => simp
  | cons r' rs ih => simp [ih, Record.append]

theorem target_eq {fs : Files} {name : String} {path : FilePath} {t : Target}
    (h : target fs name path = .ok t) :
    ∃ content, fs.content? path = some content ∧ t = ⟨name, path, Files.readText content⟩ := by
  unfold target at h
  split at h
  · rename_i content found
    cases h
    exact ⟨content, found, rfl⟩
  · cases h

theorem bind_eq_ok {ε α β : Type} {x : Except ε α} {f : α → Except ε β} {b : β} :
    (x >>= f) = .ok b ↔ ∃ a, x = .ok a ∧ f a = .ok b := by
  cases x with
  | error e => exact ⟨(by cases ·), fun ⟨a, eq, _⟩ => by cases eq⟩
  | ok a => exact ⟨fun h => ⟨a, rfl, h⟩, fun ⟨_, eq, h⟩ => by cases eq; exact h⟩

/-- A run with a known result has an outcome. -/
theorem ok_of_map {ε α β : Type} {x : Except ε α} {f : α → β} {b : β}
    (h : x.toOption.map f = some b) : ∃ a, x = .ok a ∧ f a = b := by
  cases x with
  | error e => cases h
  | ok a => exact ⟨a, rfl, Option.some.inj h⟩

theorem exists_of_mem_mapM {α β ε : Type} {f : α → Except ε β} {xs : List α} {ys : List β}
    (h : xs.mapM f = .ok ys) : ∀ y ∈ ys, ∃ x, f x = .ok y := by
  induction xs generalizing ys with
  | nil =>
    cases h
    exact fun _ mem => absurd mem List.not_mem_nil
  | cons x xs ih =>
    rw [List.mapM_cons] at h
    obtain ⟨y, first, h⟩ := bind_eq_ok.1 h
    obtain ⟨ys, more, h⟩ := bind_eq_ok.1 h
    cases h
    exact List.forall_mem_cons.2 ⟨⟨x, first⟩, ih more⟩

/-- The listings that a path names are files with the texts that are read from them. -/
theorem content_of_mem_targets {fs : Files} {path : String} {located : FilePath}
    {ts : List Target} (h : targets fs path located = .ok ts) :
    ∀ t ∈ ts, ∃ content, fs.content? t.path = some content ∧ t.text = Files.readText content := by
  intro t mem
  obtain ⟨name, file, found⟩ : ∃ name file, target fs name file = .ok t := by
    unfold targets at h
    split at h
    · obtain ⟨relative, found⟩ := exists_of_mem_mapM h t mem
      exact ⟨_, _, found⟩
    · obtain ⟨only, found, h⟩ := bind_eq_ok.1 h
      cases h
      obtain rfl := List.mem_singleton.1 mem
      exact ⟨_, _, found⟩
  obtain ⟨content, at', rfl⟩ := target_eq found
  exact ⟨content, at', rfl⟩

/-- Only a listing that could be formatted is written. -/
theorem written_formatTarget {fs : Files} {settings : Settings} {options : FormatOptions}
    {t : Target} {w : FilePath × String} (h : w ∈ (formatTarget fs settings options t).1.written) :
    w.1 = t.path ∧ ¬ Listing.IsFaulty t.text t.name settings.allowPlus.truth := by
  rw [← Listing.format_error_iff]
  unfold formatTarget at h
  dsimp only at h
  split at h
  · cases h
  · rename_i formatted sound
    refine ⟨?_, fun ⟨ds, faulty⟩ => by cases sound.symm.trans faulty⟩
    split at h
    · cases h
    split at h
    · cases h
    · cases List.mem_singleton.1 h
      rfl

theorem written_formatInput (fs : Files) (settings : Settings) (options : FormatOptions)
    (input : String) : (formatInput fs settings options input).written = [] := by
  unfold formatInput
  dsimp only
  split
  · rfl
  · split <;> rfl

/-- What a run of `format` writes are listings that a path names and that could be formatted. -/
theorem written_format {fs : Files} {path input : String} {located : FilePath}
    {options : FormatOptions} {outcome : Outcome} {settings : Settings}
    (known : settingsFor fs path = .ok settings)
    (h : format fs path located options input = .ok outcome) :
    ∀ w ∈ outcome.written, ∃ content, fs.content? w.1 = some content ∧
      ∀ file, ¬ Listing.IsFaulty (Files.readText content) file settings.allowPlus.truth := by
  intro w mem
  obtain ⟨settings', known', h⟩ := bind_eq_ok.1 h
  cases known.symm.trans known'
  split at h
  · cases h
    exact absurd mem (by rw [written_formatInput]; exact List.not_mem_nil)
  · obtain ⟨ts, named, h⟩ := bind_eq_ok.1 h
    split at h
    · cases h
      cases mem
    · cases h
      rw [Record.finish, written_foldl, List.map_map, List.flatMap_map] at mem
      obtain ⟨t, target, mem⟩ := List.mem_flatMap.1 mem
      obtain ⟨at', sound⟩ := written_formatTarget mem
      obtain ⟨content, found, text⟩ := content_of_mem_targets named t target
      rw [text] at sound
      exact ⟨content, at' ▸ found, fun file faulty => sound (Listing.isFaulty_of_name faulty _)⟩

end Run

/-- Formatting a listing is all or nothing. It fails exactly if a line that is not skipped is
faulty, and then a run leaves the file as it is; else it keeps the lines and formats each of them.
-/
theorem format_all_or_nothing (text file : String) (plus : Bool) :
    ((∃ ds, Listing.format text file plus = .error ds) ↔ Listing.IsFaulty text file plus) ∧
    (∀ out, Listing.format text file plus = .ok out →
      (Text.lines out).length = (Text.lines text).length ∧
        ∀ i line, (Text.lines text)[i]? = some line → ∃ line', (Text.lines out)[i]? = some line' ∧
          Listing.Formatted file plus (i + 1) line line') ∧
    ∀ fs input path options settings outcome p content,
      Run.perform fs input (.format path options) = .ok outcome →
      Run.settingsFor fs path = .ok settings → settings.allowPlus.truth = plus →
      fs.content? p = some content → Files.readText content = text →
      Listing.IsFaulty text file plus → ∀ w ∈ outcome.written, w.1 ≠ p := by
  refine ⟨Listing.format_error_iff, fun _ => Listing.lines_of_format, ?_⟩
  rintro fs input path options settings outcome p content run known rfl found rfl faulty w mem rfl
  obtain ⟨located, -, run⟩ := Run.bind_eq_ok.1 run
  obtain ⟨content', found', sound⟩ := Run.written_format known run w mem
  cases found.symm.trans found'
  exact sound file faulty

/-- A listing with a comment, one with a faulty second line, and a directory with the faulty one and
another, of which a run writes only the other. -/
theorem format_all_or_nothing_comment :
    (∃ out, Listing.format "[ u8]\n // c" "f" true = .ok out ∧ (Text.lines out).length = 2 ∧
      ∃ line, (Text.lines out)[0]? = some line ∧ Listing.Formatted "f" true 1 "[ u8]" line) ∧
    (∃ ds, Listing.format "u8\n\"" "f" true = .error ds) ∧
    let fs : Files := ⟨["w"], [⟨["w", "a.ty"], some "u8\n\""⟩, ⟨["w", "b.ty"], some "[ u8]"⟩]⟩
    ∃ outcome, Run.perform fs "" (.format "." ⟨false, false, none⟩) = .ok outcome ∧
      outcome.written = [(["w", "b.ty"], "[u8]\n")] ∧
      ∀ w ∈ outcome.written, w.1 ≠ ["w", "a.ty"] := by
  have unclosed : parseText "\"" "f" 2 true = .error (.compile ⟨[⟨"E100",
      "unterminated string literal", [⟨⟨"f", 2, 1, 2, 1⟩, ""⟩], []⟩]⟩) := by
    rfl
  have faulty : Listing.IsFaulty "u8\n\"" "f" true := ⟨1, "\"", by rfl, by decide, _, unclosed⟩
  refine ⟨?_, (format_all_or_nothing "u8\n\"" "f" true).1.2 faulty, ?_⟩
  · have run : Listing.format "[ u8]\n // c" "f" true = .ok "[u8]\n // c\n" := by
      decide +kernel
    obtain ⟨length, lines⟩ := (format_all_or_nothing "[ u8]\n // c" "f" true).2.1 _ run
    exact ⟨_, run, length, lines 0 "[ u8]" (by rfl)⟩
  · intro fs
    obtain ⟨outcome, run, written⟩ := Run.ok_of_map (show
      (Run.perform fs "" (.format "." ⟨false, false, none⟩)).toOption.map (·.written) =
        some [(["w", "b.ty"], "[u8]\n")] by decide +kernel)
    have untouched := (format_all_or_nothing "u8\n\"" "f" true).2.2 fs "" "." _ .standard outcome
      ["w", "a.ty"] "u8\n\"" run (by rfl) (by rfl) (by rfl) (by decide +kernel) faulty
    exact ⟨outcome, run, written, untouched⟩

end TypeGrammar
