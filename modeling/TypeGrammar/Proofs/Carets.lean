import Mathlib.Data.List.Basic
import TypeGrammar.Diagnostic

/-!
# Where carets stand

A source line stands behind its number, which is at least four columns wide, and the row of carets
behind a bar that is as wide as two columns. So a caret does not stand under the character it marks:
it stands as many columns further left as the number is wider than two.
-/

namespace TypeGrammar

namespace Layout

/-- What stands in front of a source line. -/
def sourceFront (number : Int) : String :=
  "  " ++ gutter number ++ " | "

/-- The columns of the carets in a row, counted from zero. -/
def caretColumns (row : String) : List Nat :=
  row.toList.idxsOf '^'

theorem length_gutter (number : Int) : (gutter number).length = max 4 (toString number).length := by
  simp only [gutter, String.length_append, String.length_ofList, List.length_replicate]
  omega

theorem idxsOf_replicate (c : Char) (n start : Nat) :
    (List.replicate n c).idxsOf c start = List.range' start n := by
  induction n generalizing start with
  | zero => rfl
  | succ n ih => simp [List.replicate_succ, List.range'_succ, ih]

/-- The row of carets of a label, without colours. -/
def markRow (s : Span) : String :=
  "     | " ++ String.ofList (padding s) ++ String.ofList (carets s)

theorem caretColumns_markRow (s : Span) :
    caretColumns (markRow s) = List.range' (7 + (s.startCol - 1).toNat) (carets s).length := by
  have blanks : (padding s).idxsOf '^' 7 = [] := by
    refine List.idxsOf_eq_nil_iff.2 fun c mem => ?_
    rw [List.eq_of_mem_replicate mem]
    rfl
  have width : (padding s).length = (s.startCol - 1).toNat := List.length_replicate
  have row : (markRow s).toList = "     | ".toList ++ (padding s ++ carets s) := by
    simp [markRow]
  have bar : "     | ".toList.idxsOf '^' = [] := by decide
  rw [caretColumns, row, List.idxsOf_append, List.idxsOf_append, bar, List.nil_append]
  change (padding s).idxsOf '^' 7 ++ (carets s).idxsOf '^' (7 + (padding s).length) = _
  rw [blanks, List.nil_append, width, carets, idxsOf_replicate, List.length_replicate]

/-- The rows of a label on one line of a known source, without colours. -/
theorem labelRows_eq {l : Layout} {label : Label} {line : String} (plain : l.color = false)
    (oneLine : label.span.startLine = label.span.endLine)
    (known : l.sourceLine? label.span.file label.span.startLine = some line) :
    ∃ above below, l.labelRows label =
      above ++ (sourceFront label.span.startLine ++ line) :: markRow label.span :: below := by
  have unpainted (sequence : String) : l.paint sequence = "" := by
    simp [paint, plain]
  have source : "  " ++ "" ++ gutter label.span.startLine ++ " |" ++ "" ++ " " ++ line =
      sourceFront label.span.startLine ++ line := by
    simp [sourceFront, String.append_assoc]
  have marks : "  " ++ "" ++ "   |" ++ "" ++ " " ++ String.ofList (padding label.span) ++ "" ++
      String.ofList (carets label.span) ++ "" = markRow label.span := by
    simp [markRow]
  simp only [labelRows, red, blue, reset, unpainted, known, if_pos oneLine, source, marks]
  rw [List.append_assoc, List.append_assoc]
  exact ⟨_, _, rfl⟩

/-- Each caret stands further left than the character it marks, by as many columns as the number of
the line is wider than two. -/
theorem carets_left_of_characters {l : Layout} {d : Diagnostic} {label : Label} {line : String}
    (plain : l.color = false) (mem : label ∈ d.labels)
    (oneLine : label.span.startLine = label.span.endLine)
    (known : l.sourceLine? label.span.file label.span.startLine = some line) :
    (∃ above below, l.render d = String.intercalate "\n"
        (above ++ (sourceFront label.span.startLine ++ line) :: markRow label.span :: below)) ∧
      ∀ k : Nat, k < label.span.endCol - label.span.startCol + 1 →
        ∃ column, (caretColumns (markRow label.span))[k]? = some column ∧
          column + ((gutter label.span.startLine).length - 2) =
            (sourceFront label.span.startLine).length + (label.span.startCol - 1).toNat + k := by
  constructor
  · obtain ⟨front, back, rows⟩ := labelRows_eq plain oneLine known
    obtain ⟨before, after, split⟩ := List.append_of_mem mem
    rw [render, Layout.rows, split, List.flatMap_append, List.flatMap_cons, rows]
    simp only [List.append_assoc, List.cons_append]
    rw [← List.cons_append, ← List.append_assoc, ← List.append_assoc]
    exact ⟨_, _, rfl⟩
  · intro k inside
    have wide := length_gutter label.span.startLine
    have front : (sourceFront label.span.startLine).length =
        (gutter label.span.startLine).length + 5 := by
      simp only [sourceFront, String.length_append]
      rw [show "  ".length = 2 from rfl, show " | ".length = 3 from rfl]
      omega
    have many : k < (carets label.span).length := by
      rw [carets, List.length_replicate]
      omega
    rw [caretColumns_markRow, List.getElem?_range' many]
    refine ⟨_, rfl, ?_⟩
    omega

/-- The second character of a line is at column ten, and the caret that marks it at column eight. -/
theorem carets_left_of_characters_second :
    let l : Layout := ⟨false, fun _ => ["abc"]⟩
    let s : Span := ⟨"f", 1, 2, 1, 2⟩
    (∃ above below, l.render ⟨"E200", "m", [⟨s, ""⟩], []⟩ = String.intercalate "\n"
        (above ++ (sourceFront 1 ++ "abc") :: markRow s :: below)) ∧
      ∃ column, (caretColumns (markRow s))[0]? = some column ∧ column + 2 = 10 := by
  intro l s
  have known : l.sourceLine? s.file s.startLine = some "abc" := rfl
  obtain ⟨rows, carets⟩ := carets_left_of_characters (l := l) (d := ⟨"E200", "m", [⟨s, ""⟩], []⟩)
    rfl List.mem_cons_self rfl known
  obtain ⟨column, at', left⟩ := carets 0 (by decide)
  have wide : (gutter 1).length = 4 := by decide +kernel
  have front : (sourceFront 1).length = 9 := by decide +kernel
  have ten : column + ((gutter 1).length - 2) =
      (sourceFront 1).length + (2 - 1 : Int).toNat + 0 := left
  rw [wide, front] at ten
  exact ⟨rows, column, at', ten⟩

/-- A caret and the character that it marks. -/
theorem caret_not_under_character :
    (⟨false, fun _ => ["abc"]⟩ : Layout).render
        ⟨"E200", "m", [⟨⟨"f", 1, 2, 1, 2⟩, ""⟩], []⟩ =
      "error[E200]: m\n  --> f:1:2\n     |\n     1 | abc\n     |  ^" ∧
    "     1 | abc".toList[10]? = some 'b' ∧ caretColumns "     |  ^" = [8] := by
  decide +kernel

end Layout

end TypeGrammar
