import TypeGrammar.Listing

/-!
# The lines of a text

No line of a text holds a line boundary, and a text whose lines are each closed by a line feed has
just these lines.
-/

namespace TypeGrammar

namespace Text

/-- A text on one line. -/
def Unbroken (cs : List Char) : Prop :=
  ∀ c ∈ cs, isLineBreak c = false

instance (cs : List Char) : Decidable (Unbroken cs) :=
  List.decidableBAll (isLineBreak · = false) cs

theorem Unbroken.nil : Unbroken [] :=
  fun _ mem => absurd mem List.not_mem_nil

theorem unbroken_append {cs ds : List Char} : Unbroken (cs ++ ds) ↔ Unbroken cs ∧ Unbroken ds :=
  List.forall_mem_append

theorem unbroken_cons {c : Char} {cs : List Char} :
    Unbroken (c :: cs) ↔ isLineBreak c = false ∧ Unbroken cs :=
  List.forall_mem_cons

theorem Unbroken.of_subset {cs ds : List Char} (h : Unbroken ds) (sub : cs ⊆ ds) : Unbroken cs :=
  fun c mem => h c (sub mem)

/-! ## Cutting -/

/-- The lines of a text with their ends make up the text. -/
theorem flatMap_cutLines (cs : List Char) : (cutLines cs).flatMap Line.whole = cs := by
  fun_induction cutLines cs with
  | case1 => rfl
  | case2 cs ih => simp [Line.whole, ih]
  | case3 c cs _ ends ih => simp [Line.whole, ih]
  | case4 c cs _ goesOn ended ih =>
    rw [ended] at ih
    simp [Line.whole, ← ih]
  | case5 c cs _ goesOn l ls more ih =>
    rw [more] at ih
    simp [Line.whole, ← ih]

/-- A text whose only line ends are line feeds is read as it stands. -/
theorem unifyBreaks_eq {cs : List Char} (h : '\r' ∉ cs) : unifyBreaks cs = cs := by
  fun_induction unifyBreaks cs with
  | case1 => rfl
  | case2 cs ih => exact absurd List.mem_cons_self h
  | case3 c cs _ ih =>
    obtain ⟨other, more⟩ := not_or.1 (mt List.mem_cons.2 h)
    rw [ih more, if_neg (by simpa using Ne.symm other)]

theorem unbroken_cutLines (cs : List Char) : ∀ l ∈ cutLines cs, Unbroken l.content := by
  fun_induction cutLines cs with
  | case1 => exact fun _ mem => absurd mem List.not_mem_nil
  | case2 cs ih => exact List.forall_mem_cons.2 ⟨.nil, ih⟩
  | case3 c cs _ ends ih => exact List.forall_mem_cons.2 ⟨.nil, ih⟩
  | case4 c cs _ goesOn ended ih =>
    exact List.forall_mem_singleton.2 (unbroken_cons.2 ⟨by simpa using goesOn, .nil⟩)
  | case5 c cs _ goesOn l ls more ih =>
    rw [more] at ih
    obtain ⟨first, others⟩ := List.forall_mem_cons.1 ih
    exact List.forall_mem_cons.2 ⟨unbroken_cons.2 ⟨by simpa using goesOn, first⟩, others⟩

theorem unbroken_lines (text : String) : ∀ line ∈ lines text, Unbroken line.toList := by
  intro line mem
  obtain ⟨l, cut, rfl⟩ := List.mem_map.1 mem
  rw [String.toList_ofList]
  exact unbroken_cutLines _ l cut

theorem cutLines_cons {c : Char} (goesOn : isLineBreak c = false) {cs : List Char} {l : Line}
    {ls : List Line} (h : cutLines cs = l :: ls) :
    cutLines (c :: cs) = ⟨c :: l.content, l.ending⟩ :: ls := by
  have noReturn : c ≠ '\r' := by
    rintro rfl
    cases goesOn
  rw [cutLines]
  · simp [goesOn, h]
  · rintro cs rfl
    exact absurd rfl noReturn

/-- A line feed closes the line in front of it. -/
theorem cutLines_feed {cs : List Char} (h : Unbroken cs) (rest : List Char) :
    cutLines (cs ++ '\n' :: rest) = ⟨cs, ['\n']⟩ :: cutLines rest := by
  induction cs with
  | nil => simp [cutLines, isLineBreak]
  | cons c cs ih =>
    obtain ⟨goesOn, more⟩ := unbroken_cons.1 h
    exact cutLines_cons goesOn (ih more)

end Text

namespace Listing

open Text

theorem unlines_cons (l : String) (ls : List String) :
    unlines (l :: ls) = l ++ "\n" ++ unlines ls := by
  cases ls with
  | nil => simp [unlines]
  | cons l' ls => simp [unlines, String.intercalate_cons_cons, String.append_assoc]

/-- Lines that are each closed by a line feed are the lines of their text. -/
theorem lines_unlines {ls : List String} (h : ∀ l ∈ ls, Unbroken l.toList) :
    lines (unlines ls) = ls := by
  induction ls with
  | nil => rfl
  | cons l ls ih =>
    obtain ⟨first, others⟩ := List.forall_mem_cons.1 h
    have cut : cutLines (unlines (l :: ls)).toList =
        ⟨l.toList, ['\n']⟩ :: cutLines (unlines ls).toList := by
      rw [unlines_cons, String.toList_append, String.toList_append, List.append_assoc]
      exact cutLines_feed first _
    rw [lines, cut, List.map_cons, String.ofList_toList]
    exact congrArg (l :: ·) (ih others)

end Listing

end TypeGrammar
