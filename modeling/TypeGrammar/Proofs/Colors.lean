import Mathlib.Data.List.DropRight
import TypeGrammar.Proofs.Formatting
import TypeGrammar.Proofs.Highlighting

/-!
# A text in colour

Colouring puts escape sequences into a text and changes nothing else in it: the pieces that are
coloured make up the text, and each piece is painted line by line. But before it is cut into pieces,
a text loses the line feeds at its two ends, except for one at its end. So a listing, which
formatting may leave with empty lines at both ends, is shown in colour without them.
-/

namespace TypeGrammar

open Text

/-! ## The lines of a coloured text -/

namespace Listing

/-- The lines without the empty ones at both ends, or one empty line if there are no others. -/
def innerLines (ls : List String) : List String :=
  let inner := (ls.dropWhile (· == "")).rdropWhile (· == "")
  if inner.isEmpty then [""] else inner

/-- What holds of the lines and of an empty one holds of those that are left. -/
theorem forall_innerLines {P : String → Prop} {ls : List String} (empty : P "")
    (h : ∀ l ∈ ls, P l) : ∀ l ∈ innerLines ls, P l := by
  unfold innerLines
  dsimp only
  split
  · exact List.forall_mem_singleton.2 empty
  · exact fun l mem => h l ((List.dropWhile_sublist _).subset
      ((List.rdropWhile_prefix _ _).subset mem))

theorem toList_unlines_cons (l : String) (ls : List String) :
    (unlines (l :: ls)).toList = l.toList ++ '\n' :: (unlines ls).toList := by
  simp [unlines_cons, String.toList_append]

theorem toList_unlines_append (ls ms : List String) :
    (unlines (ls ++ ms)).toList = (unlines ls).toList ++ (unlines ms).toList := by
  induction ls with
  | nil => rfl
  | cons l ls ih => simp [toList_unlines_cons, ih]

theorem not_mem_unlines {d : Char} (other : d ≠ '\n') {ls : List String} :
    d ∉ (unlines ls).toList ↔ ∀ l ∈ ls, d ∉ l.toList := by
  induction ls with
  | nil => simp [unlines]
  | cons l ls ih => simp [toList_unlines_cons, other, ih]

theorem unlines_inj {ls ms : List String} (h : ∀ l ∈ ls, Unbroken l.toList)
    (h' : ∀ l ∈ ms, Unbroken l.toList) : unlines ls = unlines ms ↔ ls = ms := by
  refine ⟨fun same => ?_, fun same => by rw [same]⟩
  rw [← lines_unlines h, same, lines_unlines h']

theorem dropWhile_unlines {ls : List String} (h : ∀ l ∈ ls, Unbroken l.toList) :
    (unlines ls).toList.dropWhile (· == '\n') = (unlines (ls.dropWhile (· == ""))).toList := by
  induction ls with
  | nil => rfl
  | cons l ls ih =>
    obtain ⟨here, later⟩ := List.forall_mem_cons.1 h
    rw [toList_unlines_cons]
    by_cases empty : l = ""
    · subst empty
      simpa using ih later
    · rw [List.dropWhile_cons_of_neg (by simpa using empty), toList_unlines_cons]
      obtain ⟨c, cs, front⟩ := List.exists_cons_of_ne_nil (l := l.toList) (by simpa using empty)
      have visible : c ≠ '\n' := by
        rintro rfl
        cases here '\n' (front ▸ List.mem_cons_self)
      rw [front, List.cons_append, List.dropWhile_cons_of_neg (by simpa using visible)]

theorem rdropWhile_unlines {ls : List String} (h : ∀ l ∈ ls, Unbroken l.toList) :
    (unlines ls).toList.rdropWhile (· == '\n') ++ ['\n'] =
      (unlines (if (ls.rdropWhile (· == "")).isEmpty then [""]
        else ls.rdropWhile (· == ""))).toList := by
  induction ls using List.reverseRecOn with
  | nil => rfl
  | append_singleton ls l ih =>
    obtain ⟨others, last⟩ := List.forall_mem_append.1 h
    have here := last l List.mem_cons_self
    have text : (unlines (ls ++ [l])).toList = (unlines ls).toList ++ l.toList ++ ['\n'] := by
      rw [toList_unlines_append, toList_unlines_cons]
      exact (List.append_assoc _ _ _).symm
    by_cases empty : l = ""
    · subst empty
      rw [text, List.rdropWhile_concat_pos _ _ _ (by rfl),
        List.rdropWhile_concat_pos _ _ _ (by rfl), ← ih others]
      simp
    · obtain nothing | ⟨front, c, ends⟩ := List.eq_nil_or_concat' l.toList
      · exact absurd (by simpa using nothing) empty
      have visible : c ≠ '\n' := by
        rintro rfl
        cases here '\n' (by simp [ends])
      rw [List.rdropWhile_concat_neg _ _ _ (by simpa using empty), if_neg (by simp), text,
        List.rdropWhile_concat_pos _ _ _ (by rfl), ends, ← List.append_assoc,
        List.rdropWhile_concat_neg _ _ _ (by simpa using visible)]

theorem stripLineEnds_unlines {ls : List String} (h : ∀ l ∈ ls, Unbroken l.toList) :
    Highlighter.stripLineEnds (unlines ls).toList = (unlines (innerLines ls)).toList := by
  have inner : ∀ l ∈ ls.dropWhile (· == ""), Unbroken l.toList := fun l mem =>
    h l ((List.dropWhile_sublist _).subset mem)
  rw [innerLines, ← rdropWhile_unlines inner, ← dropWhile_unlines h]
  rfl

/-- No line is dropped at an end if the lines at both ends are not empty. -/
theorem dropWhile_both_eq_iff {ls : List String} :
    (ls.dropWhile (· == "")).rdropWhile (· == "") = ls ↔
      ls.head? ≠ some "" ∧ ls.getLast? ≠ some "" := by
  have front : ls.dropWhile (· == "") = ls ↔ ls.head? ≠ some "" := by
    rw [List.dropWhile_eq_self_iff]
    cases ls <;> simp
  have ends : ls.rdropWhile (· == "") = ls ↔ ls.getLast? ≠ some "" := by
    rw [List.rdropWhile_eq_self_iff]
    cases ls using List.reverseRecOn <;> simp
  rw [← front, ← ends]
  constructor
  · intro same
    have shorter := (List.rdropWhile_prefix (· == "") (l := ls.dropWhile (· == ""))).length_le
    rw [same] at shorter
    have whole := (List.dropWhile_suffix (· == "") (l := ls)).eq_of_length_le shorter
    rw [whole] at same
    exact ⟨whole, same⟩
  · rintro ⟨whole, same⟩
    rw [whole, same]

theorem innerLines_eq_iff {ls : List String} :
    innerLines ls = ls ↔ ls = [""] ∨ ls ≠ [] ∧ ls.head? ≠ some "" ∧ ls.getLast? ≠ some "" := by
  rw [← dropWhile_both_eq_iff, innerLines]
  split
  · rename_i empty
    rw [List.isEmpty_iff.1 empty]
    exact ⟨fun same => .inl same.symm, fun h => h.elim Eq.symm fun h => absurd h.2.symm h.1⟩
  · rename_i nonempty
    constructor
    · exact fun same => .inr ⟨fun empty => nonempty (by rw [same, empty]; rfl), same⟩
    · rintro (rfl | ⟨-, same⟩)
      · exact absurd (by rfl) nonempty
      · exact same

/-- A byte order mark is a fault. -/
theorem scan_byteOrderMark (cs : List Char) :
    Lexeme.scan '\ufeff' cs = ⟨.fault (.unexpectedCharacter '\ufeff'), 0⟩ := by
  have digit : isDigit '\ufeff' = false := by decide +kernel
  have word : isWordStart '\ufeff' = false := by decide +kernel
  have punct : isPunctChar '\ufeff' = false := by decide
  have gap : Lexeme.isGapChar '\ufeff' = false := by decide
  rw [Lexeme.scan_solid gap (by decide), Lexeme.letteredLiteral?_other (by decide) (by decide)]
  simp [Lexeme.plain, digit, word, punct, Lexeme.bracketKind?]

/-- A formatted line does not start with a byte order mark. -/
theorem Formatted.front {file line line' : String} {plus : Bool} {number : Nat}
    (h : Formatted file plus number line line') : line'.toList.head? ≠ some '\ufeff' := by
  intro mark
  obtain ⟨cs, front⟩ := List.head?_eq_some_iff.1 mark
  cases skipped : holdsNoType line with
  | true =>
    have dropped : line'.toList.dropWhile isBlank = '\ufeff' :: cs := by
      rw [front]
      exact List.dropWhile_cons_of_neg (by decide)
    have blank := holdsNoType_iff.1 (h.again.trans skipped)
    rw [dropped] at blank
    obtain nothing | slashes := blank
    · cases nothing
    · cases List.head_eq_of_cons_eq (List.prefix_iff_eq_append.1 slashes)
  | false =>
    -- The text of a type is read again, so no character of it is a fault.
    obtain ⟨t, read, rfl⟩ := h.type skipped
    obtain ⟨us, again, -⟩ := (Renderable.of_parseText read).read_again file number
    have scanned : Scanned t.text.toList _ :=
      .of_quiet (Nat.le_refl _) (tokenize_ok.1 again).1
    rw [front] at scanned
    exact Scanned.not_fault (scan_byteOrderMark cs) scanned

/-- A formatted text has one character that ends its lines, and no byte order mark at its front. -/
theorem plain_of_format {text file out : String} {plus : Bool}
    (h : format text file plus = .ok out) :
    '\r' ∉ out.toList ∧ out.toList.head? ≠ some '\ufeff' := by
  obtain ⟨ls, rfl, length, each⟩ := unlines_of_format h
  have formatted := formatted_of_mem length each
  constructor
  · refine (not_mem_unlines (by decide)).2 fun l mem return' => ?_
    obtain ⟨_, _, line⟩ := formatted l mem
    cases line.oneLine _ return'
  · intro mark
    cases ls with
    | nil => cases mark
    | cons l ls =>
      obtain ⟨_, _, line⟩ := formatted l List.mem_cons_self
      rw [toList_unlines_cons, List.head?_append] at mark
      cases first : l.toList.head? with
      | none =>
        rw [first] at mark
        cases mark
      | some c =>
        rw [first] at mark
        cases mark
        exact line.front first

/-- A formatted text is its lines with their ends. -/
theorem eq_unlines_of_format {text file out : String} {plus : Bool}
    (h : format text file plus = .ok out) : out = unlines (Text.lines out) := by
  obtain ⟨ls, rfl, length, each⟩ := unlines_of_format h
  rw [lines_unlines fun l mem => ?_]
  obtain ⟨_, _, line⟩ := formatted_of_mem length each l mem
  exact line.oneLine

end Listing

/-! ## Listings in colour -/

/-- What is shown of a text of lines in colour: escape sequences, and the lines without the empty
ones at both ends. So nothing is lost only of a text with other lines at both ends, or one empty
line. -/
structure ShownInColor (out : String) : Prop where
  plain : colored out false = out
  decorated : Decorated (Listing.unlines (Listing.innerLines (lines out))).toList
    (colored out true).toList
  dropped : escape ∉ out.toList →
    withoutEscapes (colored out true) = Listing.unlines (Listing.innerLines (lines out))
  same : escape ∉ out.toList → (withoutEscapes (colored out true) = out ↔
    lines out = [""] ∨
      lines out ≠ [] ∧ (lines out).head? ≠ some "" ∧ (lines out).getLast? ≠ some "")

theorem ShownInColor.of_format {text file out : String} {plus : Bool}
    (h : Listing.format text file plus = .ok out) : ShownInColor out := by
  obtain ⟨noReturn, noMark⟩ := Listing.plain_of_format h
  have whole := Listing.eq_unlines_of_format h
  have oneLine := unbroken_lines out
  have stripped := Listing.stripLineEnds_unlines oneLine
  rw [← whole] at stripped
  have decorated : Decorated (Listing.unlines (Listing.innerLines (lines out))).toList
      (colored out true).toList := by
    rw [← stripped, colored, if_pos rfl]
    exact Highlighter.lawful_terminal.decorated Coloring.rules .plain noReturn noMark
  have dropped (quiet : escape ∉ out.toList) :
      withoutEscapes (colored out true) = Listing.unlines (Listing.innerLines (lines out)) := by
    -- Only the formatted text may hold no escape character; the sequences put into it are dropped.
    have inner : escape ∉ (Listing.unlines (Listing.innerLines (lines out))).toList := by
      rw [whole] at quiet
      rw [Listing.not_mem_unlines (by decide)] at quiet ⊢
      exact Listing.forall_innerLines (by decide) quiet
    rw [withoutEscapes, decorated.dropEscapes_eq inner, String.ofList_toList]
  refine ⟨rfl, decorated, dropped, fun quiet => ?_⟩
  rw [dropped quiet, ← Listing.innerLines_eq_iff,
    ← Listing.unlines_inj (Listing.forall_innerLines .nil oneLine) oneLine, ← whole]

namespace Run

theorem formatInput_ok {fs : Files} {settings : Settings} {options : FormatOptions}
    {input out : String} (write : options.check = false)
    (h : Listing.format (Files.readText input) "<stdin>" settings.allowPlus.truth = .ok out) :
    (formatInput fs settings options input).stdout =
      if options.color.getD settings.color.truth then colored out true else withoutEscapes out := by
  unfold formatInput
  dsimp only
  rw [h]
  dsimp only
  rw [write, if_neg Bool.false_ne_true]
  cases options.color.getD settings.color.truth <;> simp [Record.finish, Record.emit, colored]

theorem perform_stdin {fs : Files} {input path : String} {options : FormatOptions}
    {settings : Settings} {outcome : Outcome} (stdin : options.stdin = true)
    (known : settingsFor fs path = .ok settings)
    (h : perform fs input (.format path options) = .ok outcome) :
    outcome = formatInput fs settings options input := by
  rw [perform] at h
  obtain ⟨located, -, run⟩ := bind_eq_ok.1 h
  rw [format] at run
  obtain ⟨settings', known', run⟩ := bind_eq_ok.1 run
  obtain rfl : settings = settings' := Except.ok.inj (known.symm.trans known')
  rw [if_pos stdin] at run
  exact (Except.ok.inj run).symm

end Run

/-- A text that formatting can return is shown in colour line by line, but without the empty lines
at both ends; so `format` prints the same lines with and without colour, apart from these. -/
theorem colored_format {text file out : String} {plus : Bool}
    (h : Listing.format text file plus = .ok out) :
    ShownInColor out ∧
    ∀ fs input path settings on off, file = "<stdin>" → Files.readText input = text →
      Run.settingsFor fs path = .ok settings → settings.allowPlus.truth = plus →
      Run.perform fs input (.format path ⟨false, true, some true⟩) = .ok on →
      Run.perform fs input (.format path ⟨false, true, some false⟩) = .ok off →
      escape ∉ out.toList → off.stdout = out ∧
        withoutEscapes on.stdout = Listing.unlines (Listing.innerLines (lines out)) := by
  have shown := ShownInColor.of_format h
  refine ⟨shown, ?_⟩
  rintro fs input path settings on off rfl rfl known rfl runOn runOff quiet
  have plain : withoutEscapes out = out := by
    rw [withoutEscapes, (Decorated.refl out.toList).dropEscapes_eq quiet, String.ofList_toList]
  rw [Run.perform_stdin rfl known runOn, Run.formatInput_ok rfl h,
    Run.perform_stdin rfl known runOff, Run.formatInput_ok rfl h]
  exact ⟨plain, shown.dropped quiet⟩

/-- A listing with a comment and an empty line between other lines, and the runs that print it with
and without colour. -/
theorem colored_format_comment :
    ∃ out, Listing.format "// c\n\n& u8\n" "<stdin>" true = .ok out ∧ ShownInColor out ∧
      withoutEscapes (colored out true) = out ∧
      ∃ on off, Run.perform ⟨["w"], []⟩ "// c\n\n& u8\n" (.format "." ⟨false, true, some true⟩) =
          .ok on ∧
        Run.perform ⟨["w"], []⟩ "// c\n\n& u8\n" (.format "." ⟨false, true, some false⟩) =
          .ok off ∧
        on.stdout = "\x1b[37m// c\x1b[39;49;00m\n\n&\x1b[36mu8\x1b[39;49;00m\n" ∧
        off.stdout = out ∧ withoutEscapes on.stdout = off.stdout := by
  have run : Listing.format "// c\n\n& u8\n" "<stdin>" true = .ok "// c\n\n&u8\n" := by
    decide +kernel
  obtain ⟨shown, printed⟩ := colored_format run
  have quiet : escape ∉ "// c\n\n&u8\n".toList := by decide
  have same := (shown.same quiet).2 (.inr (by decide))
  obtain ⟨on, runOn, colours⟩ := Run.ok_of_map (show
    (Run.perform ⟨["w"], []⟩ "// c\n\n& u8\n" (.format "." ⟨false, true, some true⟩)).toOption.map
      (·.stdout) = some "\x1b[37m// c\x1b[39;49;00m\n\n&\x1b[36mu8\x1b[39;49;00m\n"
    by decide +kernel)
  obtain ⟨off, runOff, -⟩ := Run.ok_of_map (show
    (Run.perform ⟨["w"], []⟩ "// c\n\n& u8\n" (.format "." ⟨false, true, some false⟩)).toOption.map
      (·.exit) = some 0 by decide +kernel)
  obtain ⟨plain, lines⟩ := printed ⟨["w"], []⟩ "// c\n\n& u8\n" "." .standard on off rfl
    (by decide +kernel) (by rfl) (by rfl) runOn runOff quiet
  rw [← shown.dropped quiet, same] at lines
  exact ⟨_, run, shown, same, on, off, runOn, runOff, colours, plain, lines.trans plain.symm⟩

/-- An empty line at the start of a listing is kept by formatting and is not shown in colour. -/
theorem colored_drops_line :
    Listing.format "\nu8\n" "<stdin>" true = .ok "\nu8\n" ∧
      withoutEscapes (colored "\nu8\n" true) ≠ "\nu8\n" := by
  decide +kernel

end TypeGrammar
