import Mathlib.Data.List.DropRight
import TypeGrammar.Proofs.Lines
import TypeGrammar.Proofs.Rendering

/-!
# Lines without a type

A line of a listing holds no type if it is blank or a line comment, where any white space may stand
in front. Such a line has no tokens, and it is faulty exactly if some of that white space is no
blank of a source. Conversely a line without tokens holds no type, unless it starts with a block
comment.
-/

namespace TypeGrammar

open Text

/-! ## White space in a source -/

/-- The code points of white space. -/
def blankCodes : List Nat :=
  blankRanges.flatMap fun r => List.range' r.1 (r.2 + 1 - r.1)

theorem mem_blankCodes {c : Char} (h : isBlank c = true) : c.toNat ∈ blankCodes := by
  obtain ⟨r, mem, inside⟩ := List.any_eq_true.1 h
  obtain ⟨low, high⟩ := Bool.and_eq_true_iff.1 inside
  rw [decide_eq_true_eq] at low high
  exact List.mem_flatMap.2 ⟨r, mem, List.mem_range'_1.2 ⟨low, by omega⟩⟩

/-- What holds of every white space character can be computed. -/
theorem forall_isBlank {p : Char → Bool} (h : (blankCodes.map Char.ofNat).all p = true) {c : Char}
    (blank : isBlank c = true) : p c = true := by
  have mem := List.mem_map_of_mem (f := Char.ofNat) (mem_blankCodes blank)
  rw [Char.ofNat_toNat] at mem
  exact List.all_eq_true.1 h c mem

namespace Lexeme

theorem isBlank_of_isGapChar {c : Char} (h : isGapChar c = true) : isBlank c = true := by
  simp only [isGapChar, Bool.or_eq_true, beq_iff_eq, or_assoc] at h
  obtain rfl | rfl | rfl | rfl := h <;> rfl

/-- White space that is no blank of a source is a fault. -/
theorem scan_isBlank {c : Char} (h : isBlank c = true) (cs : List Char) :
    scan c cs = ⟨if isGapChar c then .gap else .fault (.unexpectedCharacter c), 0⟩ := by
  have other : (!isDigit c && !isWordStart c && (bracketKind? c).isNone && !isPunctChar c &&
      c != '/' && c != 'r' && c != 'b' && c != '"' && c != '\'') = true :=
    forall_isBlank (p := fun c => !isDigit c && !isWordStart c && (bracketKind? c).isNone &&
      !isPunctChar c && c != '/' && c != 'r' && c != 'b' && c != '"' && c != '\'')
      (by decide +kernel) h
  cases gap : isGapChar c with
  | true => simp [scan, gap]
  | false => simp_all [scan, letteredLiteral?_other, plain]

end Lexeme

/-! ## Texts without tokens -/

/-- A text without faults is divided into gaps and its tokens. -/
theorem Scanned.of_quiet {limit : Nat} {cs : List Char} (enough : cs.length ≤ limit) {file : String}
    {p : Place} (quiet : faultsAt file p (piecesUpTo limit cs) = []) :
    Scanned cs ((tokensAt file p (piecesUpTo limit cs)).map Token.erase) := by
  induction limit generalizing cs p with
  | zero =>
    obtain rfl := List.length_eq_zero_iff.1 (Nat.le_zero.1 enough)
    exact .nil
  | succ limit ih =>
    cases cs with
    | nil => exact .nil
    | cons c cs =>
      cases scanned : Lexeme.scan c cs with
      | mk sort n =>
      have short : (cs.drop n).length ≤ limit := by
        simp only [List.length_cons, List.length_drop] at enough ⊢
        omega
      simp only [piecesUpTo, scanned, faultsAt_cons, tokensAt_cons] at quiet ⊢
      obtain ⟨here, later⟩ := List.append_eq_nil_iff.1 quiet
      cases sort with
      | gap => exact .gap scanned (ih short later)
      | token kind => exact .token scanned (ih short later)
      | fault cause => simp [Piece.fault?] at here

namespace Scanned

variable {c : Char} {cs front rest : List Char} {tokens : List Token} {n : Nat}

theorem gap_iff (h : Lexeme.scan c cs = ⟨.gap, n⟩) :
    Scanned (c :: cs) tokens ↔ Scanned (cs.drop n) tokens := by
  constructor
  · intro scanned
    cases scanned with
    | gap first more =>
      cases h.symm.trans first
      exact more
    | token first more => cases h.symm.trans first
  · exact .gap h

theorem not_fault {cause : LexicalFault} (h : Lexeme.scan c cs = ⟨.fault cause, n⟩) :
    ¬ Scanned (c :: cs) tokens := by
  intro scanned
  cases scanned with
  | gap first more | token first more => cases h.symm.trans first

/-- In front of a text there may be blanks, and no other white space. -/
theorem blank_append (blank : ∀ c ∈ front, isBlank c = true) :
    Scanned (front ++ rest) tokens ↔
      (∀ c ∈ front, Lexeme.isGapChar c = true) ∧ Scanned rest tokens := by
  induction front with
  | nil => simp
  | cons c front ih =>
    obtain ⟨here, later⟩ := List.forall_mem_cons.1 blank
    have first := Lexeme.scan_isBlank here (front ++ rest)
    rw [List.cons_append, List.forall_mem_cons, and_assoc, ← ih later]
    cases gap : Lexeme.isGapChar c with
    | true =>
      rw [gap] at first
      simp [gap_iff first]
    | false =>
      rw [gap] at first
      simp [not_fault first]

/-- A line comment that goes up to the end of a text is a gap. -/
theorem comment_iff (oneLine : Unbroken rest) :
    Scanned ('/' :: '/' :: rest) tokens ↔ tokens = [] := by
  have all : ∀ c ∈ '/' :: rest, (c != '\n') = true := by
    refine List.forall_mem_cons.2 ⟨rfl, fun c mem => bne_iff_ne.2 ?_⟩
    rintro rfl
    cases oneLine _ mem
  have first : Lexeme.scan '/' ('/' :: rest) = ⟨.gap, ('/' :: rest).length⟩ := by
    have whole : Lexeme.run (· != '\n') ('/' :: rest) = ('/' :: rest).length := by
      rw [Lexeme.run, List.takeWhile_eq_self_iff.2 all]
    rw [← whole]
    rfl
  rw [gap_iff first, List.drop_length]
  constructor
  · rintro ⟨⟩
    rfl
  · rintro rfl
    exact .nil

end Scanned

/-- A text that has no tokens but the end marker, and no faults. -/
def LexesEmpty (source file : String) (line : Int) : Prop :=
  ∃ last, lex source file line = .ok [last] ∧ last.kind = .eof

theorem lexesEmpty_iff {source file : String} {line : Int} :
    LexesEmpty source file line ↔ Scanned source.toList [] := by
  constructor
  · rintro ⟨last, lexed, -⟩
    obtain ⟨quiet, empty⟩ : faultsAt file ⟨line, 1⟩ (pieces source.toList) = [] ∧
        tokensAt file ⟨line, 1⟩ (pieces source.toList) = [] := by
      unfold lex at lexed
      dsimp only at lexed
      split at lexed
      · rename_i quiet
        refine ⟨quiet, ?_⟩
        have single := congrArg List.length (Except.ok.inj lexed)
        rw [List.length_append] at single
        exact List.length_eq_zero_iff.1 (Nat.succ.inj single)
      · cases lexed
    have scanned : Scanned source.toList
        ((tokensAt file ⟨line, 1⟩ (pieces source.toList)).map Token.erase) :=
      .of_quiet (Nat.le_refl _) quiet
    rwa [empty] at scanned
  · intro scanned
    obtain ⟨quiet, same⟩ := scanned.pieces (Nat.le_refl _) file ⟨line, 1⟩
    have empty := List.map_eq_nil_iff.1 same
    unfold faultsAt at quiet
    unfold tokensAt at empty
    refine ⟨⟨.eof, "", ((⟨line, 1⟩ : Place).after source.toList).spanOf file [], false⟩, ?_, rfl⟩
    simp only [lex, pieces, quiet, empty, List.nil_append]

namespace Listing

variable {line : String}

theorem prefix_rdropWhile {p : Char → Bool} {front : List Char} (h : front.rdropWhile p = front)
    (rest : List Char) : front <+: (front ++ rest).rdropWhile p := by
  induction rest using List.reverseRecOn with
  | nil => exact ⟨[], by rw [List.append_nil, h]⟩
  | append_singleton rest c ih =>
    rw [← List.append_assoc]
    by_cases last : p c = true
    · rwa [List.rdropWhile_concat_pos _ _ _ last]
    · rw [List.rdropWhile_concat_neg _ _ _ last, List.append_assoc]
      exact List.prefix_append _ _

theorem holdsNoType_iff : holdsNoType line = true ↔
    line.toList.dropWhile isBlank = [] ∨ ['/', '/'] <+: line.toList.dropWhile isBlank := by
  have front := List.head?_dropWhile_not isBlank line.toList
  unfold holdsNoType
  rw [show trim line.toList = (line.toList.dropWhile isBlank).rdropWhile isBlank from rfl]
  generalize line.toList.dropWhile isBlank = rest at front ⊢
  rw [Bool.or_eq_true, List.isEmpty_iff, List.isPrefixOf_iff_prefix]
  refine or_congr ?_ ⟨fun h => h.trans (List.rdropWhile_prefix isBlank rest), ?_⟩
  · rw [List.rdropWhile_eq_nil_iff]
    constructor
    · intro all
      cases rest with
      | nil => rfl
      | cons c cs => simp [all c List.mem_cons_self] at front
    · rintro rfl
      exact fun _ mem => absurd mem List.not_mem_nil
  · rintro ⟨body, rfl⟩
    exact prefix_rdropWhile (by decide) body

/-- White space in front of a text without tokens is made of blanks. -/
theorem lexesEmpty_iff_dropWhile {file : String} {number : Int} : LexesEmpty line file number ↔
    (∀ c ∈ line.toList.takeWhile isBlank, Lexeme.isGapChar c = true) ∧
      Scanned (line.toList.dropWhile isBlank) [] := by
  rw [lexesEmpty_iff, ← Scanned.blank_append fun c mem => List.mem_takeWhile_imp mem,
    List.takeWhile_append_dropWhile]

theorem scanned_comment {rest : List Char} {tokens : List Token}
    (h : rest = [] ∨ ['/', '/'] <+: rest) (oneLine : Unbroken rest) :
    Scanned rest tokens ↔ tokens = [] := by
  obtain rfl | ⟨body, rfl⟩ := h
  · constructor
    · rintro ⟨⟩
      rfl
    · rintro rfl
      exact .nil
  · exact Scanned.comment_iff (unbroken_append.1 oneLine).2

/-- What stands first in a text without tokens is a blank or a comment. -/
theorem comment_of_scanned {rest : List Char} (h : Scanned rest [])
    (visible : ∀ c ∈ rest.head?, isBlank c = false) (noBlock : ¬ ['/', '*'] <+: rest) :
    rest = [] ∨ ['/', '/'] <+: rest := by
  cases h with
  | nil => exact .inl rfl
  | @gap c cs n _ first _ =>
    have starts {d : Char} {body : List Char} (eq : cs.take n = d :: body) :
        ['/', d] <+: '/' :: cs := by
      have whole := List.take_append_drop n cs
      rw [eq] at whole
      exact ⟨_, congrArg ('/' :: ·) whole⟩
    cases first ▸ Lexeme.scan_first c cs with
    | blank gap =>
      exact absurd (Lexeme.isBlank_of_isGapChar gap) (Bool.eq_false_iff.1 (visible c rfl))
    | line slash eq =>
      subst slash
      exact .inr (starts eq)
    | block slash eq =>
      subst slash
      exact absurd (starts eq) noBlock
    | solid solid => exact solid.elim

/-- A line that holds no type has no tokens exactly if the white space in front of it is made of
blanks; and a line without tokens that does not start with a block comment holds no type. -/
theorem holdsNoType_lexesEmpty {line : String} (oneLine : Unbroken line.toList) (file : String)
    (number : Int) :
    (holdsNoType line = true → (LexesEmpty line file number ↔
      ∀ c ∈ line.toList.takeWhile isBlank, Lexeme.isGapChar c = true)) ∧
    (LexesEmpty line file number → ¬ ['/', '*'] <+: line.toList.dropWhile isBlank →
      holdsNoType line = true) := by
  rw [holdsNoType_iff, lexesEmpty_iff_dropWhile]
  constructor
  · intro skipped
    have more : Unbroken (line.toList.dropWhile isBlank) :=
      oneLine.of_subset (List.dropWhile_sublist _).subset
    exact and_iff_left ((scanned_comment skipped more).2 rfl)
  · rintro ⟨-, scanned⟩ noBlock
    refine comment_of_scanned scanned (fun c first => ?_) noBlock
    have front := List.head?_dropWhile_not isBlank line.toList
    rwa [first] at front

/-- A line comment after blanks. -/
theorem holdsNoType_lexesEmpty_comment :
    Unbroken " \t// u8".toList ∧ holdsNoType " \t// u8" = true ∧ LexesEmpty " \t// u8" "f" 3 := by
  have oneLine : Unbroken " \t// u8".toList := by decide
  have skipped : holdsNoType " \t// u8" = true := by decide
  have blanks : (" \t// u8".toList.takeWhile isBlank).all Lexeme.isGapChar = true := by decide
  exact ⟨oneLine, skipped,
    ((holdsNoType_lexesEmpty oneLine "f" 3).1 skipped).2 (List.all_eq_true.1 blanks)⟩

/-- A line of white space that is no blank of a source, and a line of a block comment. -/
theorem holdsNoType_ne_lexesEmpty :
    (Unbroken "\u00a0".toList ∧ holdsNoType "\u00a0" = true ∧ ¬ LexesEmpty "\u00a0" "" 1) ∧
      Unbroken "/* c */".toList ∧ holdsNoType "/* c */" = false ∧ LexesEmpty "/* c */" "" 1 := by
  refine ⟨⟨by decide, by decide, ?_⟩, by decide, by decide,
    ⟨.eof, "", ⟨"", 1, 8, 1, 7⟩, false⟩, by rfl, rfl⟩
  rintro ⟨last, lexed, -⟩
  have faulty : lex "\u00a0" "" 1 = .error ⟨[⟨"E100", "unexpected character '\\xa0'",
    [⟨⟨"", 1, 1, 1, 1⟩, ""⟩], []⟩]⟩ := by
    decide +kernel
  rw [faulty] at lexed
  cases lexed

end Listing

end TypeGrammar
