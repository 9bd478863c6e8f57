import TypeGrammar.Proofs.Walking

/-!
# A walk finds the tokens of a text

Each round of a walk takes the first lexeme of the text that is left, which has at least one
character and is inside the text, also if it is a fault. So a walk comes to the end of every text;
it finds the tokens of the text, or its faults, and each fault is at a character of the text.
-/

namespace TypeGrammar

open Text

namespace Walk

variable {s : State} {c : Char} {cs : List Char}

/-! ## Numbers -/

theorem digits_eq (s : State) : digits s = .ok () (s.forward (Lexeme.digitRun s.ahead)) :=
  skip_eq _ s

theorem fraction_eq (s : State) :
    fraction s =
      .ok (decide (0 < Lexeme.fraction s.ahead)) (s.forward (Lexeme.fraction s.ahead)) := by
  rw [fraction, get_bind, State.peek_beq (by decide), State.peek_isDigit]
  cases left : s.ahead with
  | nil => rfl
  | cons c cs =>
    by_cases point : c = '.'
    · subst point
      have behind := At.first left
      rw [Lexeme.fraction_point]
      cases number : cs.head?.any isDigit with
      | true =>
        rw [if_pos (by simpa using number), discard_advance left, bind_of_ok (digits_eq _),
          behind.ahead_eq, State.forward_forward, if_pos rfl, decide_eq_true (by omega)]
        rfl
      | false =>
        rw [if_neg (by simpa using number)]
        rfl
    · rw [Lexeme.fraction_other point, if_neg (by simp [point])]
      rfl

/-- A digit is no sign. -/
theorem exponentSign_of_digit (h : cs.head?.any isDigit = true) :
    cs.head?.any Lexeme.isExponentSign = false := by
  obtain ⟨d, first, digit⟩ := (Option.any_eq_true _ _).1 h
  rw [first, Option.any_some, Lexeme.isExponentSign, Bool.or_eq_false_iff]
  constructor
  all_goals
    refine beq_eq_false_iff_ne.2 ?_
    rintro rfl
    exact absurd digit (by decide +kernel)

theorem exponent_eq (s : State) :
    exponent s =
      .ok (decide (0 < Lexeme.exponent s.ahead)) (s.forward (Lexeme.exponent s.ahead)) := by
  have power (s : State) : (do digits; return true : Walk Bool) s =
      .ok true (s.forward (Lexeme.digitRun s.ahead)) := bind_of_ok (digits_eq s) _
  rw [exponent, get_bind, State.peek_exponentMark, State.peek_isDigit, State.peek_exponentSign,
    State.peek_isDigit]
  cases left : s.ahead with
  | nil => rfl
  | cons e cs =>
    have behind := At.first left
    rw [List.drop_zero, List.head?_cons, Option.any_some, List.drop_succ_cons, List.drop_succ_cons,
      List.drop_zero, List.drop_one]
    cases mark : Lexeme.isExponentMark e with
    | false =>
      rw [Lexeme.exponent_other mark, Bool.false_and, if_neg Bool.false_ne_true]
      rfl
    | true =>
      rw [Lexeme.exponent_mark mark, Bool.true_and]
      cases number : cs.head?.any isDigit with
      | true =>
        -- Behind the letter the walk looks for a sign once more, where it has just seen a digit.
        rw [Bool.true_or, if_pos rfl, discard_advance left, get_bind, State.peek_exponentSign,
          behind.ahead_eq, List.drop_zero, exponentSign_of_digit number, if_neg Bool.false_ne_true]
        refine (power _).trans ?_
        rw [behind.ahead_eq, State.forward_forward, if_pos rfl, decide_eq_true (by omega)]
      | false =>
        rw [Bool.false_or]
        cases sign : cs.head?.any Lexeme.isExponentSign && cs.tail.head?.any isDigit with
        | true =>
          obtain ⟨d, ds, rfl⟩ : ∃ d ds, cs = d :: ds := by
            cases cs with
            | nil => cases sign
            | cons d ds => exact ⟨d, ds, rfl⟩
          have signed := (Bool.and_eq_true_iff.1 sign).1
          rw [if_pos rfl, discard_advance left, get_bind, State.peek_exponentSign, behind.ahead_eq,
            List.drop_zero, signed, if_pos rfl, behind.discard_advance]
          refine (power _).trans ?_
          rw [behind.next.ahead_eq, State.forward_forward, State.forward_forward,
            if_neg Bool.false_ne_true, if_pos rfl, List.tail_cons, decide_eq_true (by omega),
            ← Nat.add_assoc]
        | false => rfl

theorem numberBody_eq (h : s.ahead = c :: cs) (digit : isDigit c = true) :
    numberBody s = .ok (Lexeme.numberBody c cs).1 (s.forward ((Lexeme.numberBody c cs).2 + 1)) := by
  rw [numberBody, get_bind, State.peek_baseMark, State.peek_beq (by decide), h, List.drop_zero,
    List.head?_cons, List.drop_succ_cons, List.drop_zero]
  change (if c == '0' && cs.head?.any Lexeme.isBaseMark then _ else _ : Walk TokenKind) s = _
  cases based : c == '0' && cs.head?.any Lexeme.isBaseMark with
  | true =>
    obtain ⟨b, bs, rfl⟩ : ∃ b bs, cs = b :: bs := by
      cases cs with
      | nil => simp at based
      | cons b bs => exact ⟨b, bs, rfl⟩
    have behind := At.first h
    rw [Lexeme.numberBody_based based, if_pos rfl, discard_advance h, behind.discard_advance,
      bind_of_ok (skip_eq _ _), behind.next.ahead_eq, State.forward_forward, State.forward_forward,
      List.tail_cons, Nat.add_comm _ 1]
    rfl
  | false =>
    have whole : Lexeme.digitRun (c :: cs) = Lexeme.digitRun cs + 1 := by
      simp [Lexeme.digitRun, Lexeme.run, digit]
    rw [Lexeme.numberBody_plain based, if_neg Bool.false_ne_true, bind_of_ok (digits_eq _),
      bind_of_ok (fraction_eq _), bind_of_ok (exponent_eq _), State.forward_forward,
      State.forward_forward, State.ahead_forward, State.ahead_forward, h, whole,
      Nat.add_right_comm _ 1, List.drop_succ_cons, List.drop_succ_cons, Nat.add_right_comm _ 1]
    dsimp only
    generalize Lexeme.fraction (cs.drop (Lexeme.digitRun cs)) = part
    generalize Lexeme.exponent (cs.drop (Lexeme.digitRun cs + part)) = power
    have kind : (if decide (0 < part) || decide (0 < power) then TokenKind.float else .integer) =
        if part + power = 0 then .integer else .float := by
      by_cases none : part + power = 0
      · obtain ⟨rfl, rfl⟩ := Nat.add_eq_zero_iff.1 none
        rfl
      · rw [if_neg none, if_pos]
        simp only [Bool.or_eq_true, decide_eq_true_eq]
        omega
    rw [← kind]
    rfl

theorem number_eq (h : s.ahead = c :: cs) (digit : isDigit c = true) :
    number s = .ok () (s.took (Lexeme.number c cs)) := by
  have body := numberBody_eq h digit
  have known : (Lexeme.numberBody c cs).1 ≠ .punct := fun punct =>
    absurd (punct ▸ Lexeme.numberBody_token c cs) (by decide)
  have behind := (At.first h).forward (Lexeme.numberBody c cs).2
  rw [State.forward_forward, Nat.add_comm 1] at behind
  rw [number, get_bind, bind_of_ok body, get_bind, State.peek_isWordStart, List.drop_zero,
    behind.ahead_eq]
  cases suffix : (cs.drop (Lexeme.numberBody c cs).2).head?.any isWordStart with
  | true =>
    obtain ⟨d, first, -⟩ := (Option.any_eq_true _ _).1 suffix
    obtain ⟨ds, rest⟩ := List.head?_eq_some_iff.1 first
    rw [if_pos rfl, bind_of_ok (current_eq (behind.ahead_eq.trans rest)), bind_of_ok (skip_eq _ _),
      behind.ahead_eq, State.forward_forward, Lexeme.number_suffixed suffix, first,
      Nat.add_right_comm _ 1]
    refine emit_took ?_ _ _
    split
    · decide
    · exact known
  | false =>
    rw [if_neg Bool.false_ne_true, Lexeme.number_bare suffix]
    exact emit_took known _ _

/-! ## Words and punctuation -/

theorem word_eq (h : s.ahead = c :: cs) (first : isWordChar c = true) :
    word s = .ok () (s.took (Lexeme.word c cs)) := by
  have more : Lexeme.run isWordChar (c :: cs) = Lexeme.run isWordChar cs + 1 := by
    simp [Lexeme.run, first]
  rw [word, get_bind, bind_of_ok (skip_eq _ _), get_bind, State.textFrom_forward, h, more]
  exact emit_took (by split <;> decide) _ _

theorem rawIdentifier_eq (h : s.ahead = 'r' :: '#' :: cs) :
    rawIdentifier s = .ok () (s.took ⟨.token .identifier, 1 + Lexeme.run isWordChar cs⟩) := by
  have opened := (At.first h).next
  rw [rawIdentifier, get_bind, discard_advance h, (At.first h).discard_advance,
    bind_of_ok (skip_eq _ _), opened.ahead_eq, (opened.forward _).state, Nat.zero_add]
  exact emit_took (by decide) _ _

theorem bracket_eq {kind : TokenKind} (other : kind ≠ .punct) (h : s.ahead = c :: cs) :
    bracket kind s = .ok () (s.took ⟨.token kind, 0⟩) := by
  rw [bracket, get_bind, discard_advance h]
  exact emit_took other _ _

theorem punct_eq (h : s.ahead = c :: cs) : punct s = .ok () (s.took ⟨.token .punct, 0⟩) := by
  rw [punct, get_bind, discard_advance h, get_bind, emit_forward,
    State.peek_isPunctChar, State.ahead_forward]
  simp [State.took, Piece.token?, Piece.fault?, State.forward]

/-! ## What a quote or a letter starts -/

theorem quoteMark_eq (h : s.ahead = '\'' :: cs) :
    quoteMark s = .ok () (s.took (Lexeme.quoteMark cs)) := by
  have literal : characterLiteral s .character s =
      .ok () (s.took (Lexeme.characterLiteral .character cs)) := by
    have whole := characterLiteral_eq (by decide : TokenKind.character ≠ .punct) h (At.first h)
    rwa [Lexeme.after, Nat.zero_add] at whole
  rw [quoteMark, get_bind, bne, bne, State.peek_beq (by decide), State.peek_beq (by decide),
    State.peek_isWordStart, h, List.drop_succ_cons, List.drop_zero, List.drop_succ_cons]
  cases cs with
  | nil => exact literal
  | cons d ds =>
    have name : (!((d :: ds).head? == some '\\') && !(((d :: ds).drop 1).head? == some '\'') &&
        (d :: ds).head?.any isWordStart) = (isWordStart d && ds.head? != some '\'') := by
      by_cases back : d = '\\'
      · subst back
        have : isWordStart '\\' = false := by decide +kernel
        simp [this]
      · simp [bne, beq_eq_false_iff_ne.2 back, Bool.and_comm]
    rw [name, Lexeme.quoteMark]
    cases isWordStart d && ds.head? != some '\'' with
    | true =>
      rw [if_pos rfl, discard_advance h, bind_of_ok (skip_eq _ _), (At.first h).ahead_eq,
        State.forward_forward, if_pos rfl, Nat.add_comm 1]
      exact emit_took (by decide) _ _
    | false => exact literal

/-- What the letter `b` starts. -/
theorem letteredLiteral?_b (cs : List Char) :
    Lexeme.letteredLiteral? 'b' cs = match cs with
      | '"' :: cs => some ((Lexeme.stringLiteral .byteString cs).after 1)
      | '\'' :: cs => some ((Lexeme.characterLiteral .byte cs).after 1)
      | 'r' :: cs => (Lexeme.rawString? .byteString cs).map (·.after 1)
      | _ => none :=
  rfl

theorem atLetteredLiteral_eq (h : s.ahead = c :: cs) (letter : c = 'r' ∨ c = 'b') :
    atLetteredLiteral s = .ok (Lexeme.letteredLiteral? c cs).isSome s := by
  have raw (kind : TokenKind) (cs : List Char) :
      opensRawString cs = (Lexeme.rawString? kind cs).isSome := by
    rw [Bool.eq_iff_iff, Option.isSome_iff_ne_none, Ne, Lexeme.rawString?_eq_none_iff,
      Bool.not_eq_false]
    rfl
  rw [atLetteredLiteral, get_bind, State.peek_beq (by decide), State.peek_beq (by decide),
    State.peek_beq (by decide), State.peek_beq (by decide), h, List.drop_zero, List.head?_cons,
    List.drop_succ_cons, List.drop_zero]
  obtain rfl | rfl := letter
  · rw [if_neg (by decide), rawStringFollows_eq, h, raw .string]
    rfl
  · have lettered := letteredLiteral?_b cs
    rw [if_pos (by decide)]
    split at lettered <;> rw [lettered]
    · rfl
    · rfl
    · rw [if_neg (by simp), if_pos (by rfl), rawStringFollows_eq, h, List.drop_succ_cons,
        List.drop_succ_cons, List.drop_zero, raw .byteString, Option.isSome_map]
    · rename_i string byte letter
      have starts {d : Char} (other : ∀ ds, cs ≠ d :: ds) : (cs.head? == some d) = false :=
        beq_eq_false_iff_ne.2 fun first => (List.head?_eq_some_iff.1 first).elim other
      rw [starts string, starts byte, starts letter]
      rfl

theorem letteredLiteral_eq {l : Lexeme} (h : s.ahead = c :: cs) (letter : c = 'r' ∨ c = 'b')
    (found : Lexeme.letteredLiteral? c cs = some l) : letteredLiteral s = .ok () (s.took l) := by
  have behind := At.first h
  rw [letteredLiteral, get_bind, State.peek_beq (by decide), h, List.drop_zero, List.head?_cons]
  obtain rfl | rfl := letter
  · have literal := rawString_eq (by decide : TokenKind.string ≠ .punct) behind found
    rw [Lexeme.after, Nat.zero_add] at literal
    rw [if_neg (by decide)]
    beta_reduce
    rw [get_bind, State.peek_beq (by decide), h, List.drop_zero, if_pos (by rfl), discard_advance h]
    exact literal
  · rw [if_pos (by decide), discard_advance h]
    beta_reduce
    rw [get_bind, behind.peek_beq (by decide), behind.peek_beq (by decide), List.drop_zero]
    rw [letteredLiteral?_b] at found
    split at found
    · cases found
      exact stringLiteral_eq (by decide) behind.ahead_eq behind.next
    · cases found
      exact characterLiteral_eq (by decide) behind.ahead_eq behind.next
    · obtain ⟨l, raw, rfl⟩ := Option.map_eq_some_iff.1 found
      rw [if_pos (by rfl), behind.discard_advance]
      exact rawString_eq (by decide) behind.next raw
    · cases found

/-! ## Lexemes -/

theorem plain_eq (h : s.ahead = c :: cs) :
    plain c s = .ok () (s.took (if c == '"' then Lexeme.stringLiteral .string cs
      else if c == '\'' then Lexeme.quoteMark cs else Lexeme.plain c cs)) := by
  rw [plain, get_bind]
  split
  · have literal := stringLiteral_eq (by decide : TokenKind.string ≠ .punct) h (At.first h)
    rwa [Lexeme.after, Nat.zero_add] at literal
  split
  · rename_i quote
    exact quoteMark_eq (by rw [h, beq_iff_eq.1 quote])
  unfold Lexeme.plain
  split
  · rename_i digit
    exact number_eq h digit
  split
  · rename_i start
    exact word_eq h (isWordChar_of_start start)
  cases bracketed : Lexeme.bracketKind? c with
  | some kind =>
    refine bracket_eq ?_ h
    rintro rfl
    simpa [Lexeme.brackets] using Lexeme.bracketKind?_mem bracketed
  | none =>
    dsimp only
    split
    · exact punct_eq h
    · -- The fault is reported in front of the step over its character, at the same place.
      rw [bind_of_ok (report_eq _ s s)]
      refine (discard_of_ok (@advance_eq _ c cs ?left)).trans ?_
      case left => exact h
      simp [State.took, Piece.token?, Piece.fault?, State.forward, State.ahead]

theorem continuesRawIdentifier_eq (cs : List Char) :
    Lexeme.continuesRawIdentifier cs = (cs.head? == some '#' && cs.tail.head?.any isWordStart) := by
  cases cs with
  | nil => rfl
  | cons c cs =>
    by_cases hash : c = '#'
    · subst hash
      rw [Lexeme.continuesRawIdentifier_hash]
      rfl
    · simp [Lexeme.continuesRawIdentifier, hash]

/-- A round of the walk takes the first lexeme of the text that is left. -/
theorem lexeme_eq (h : s.ahead = c :: cs) : lexeme s = .ok () (s.took (Lexeme.scan c cs)) := by
  rw [lexeme, bind_of_ok (current_eq h), get_bind, State.peek_beq (by decide),
    State.peek_beq (by decide), State.peek_beq (by decide), State.peek_isWordStart, h,
    List.drop_succ_cons, List.drop_zero, List.drop_succ_cons, List.drop_one]
  unfold Lexeme.scan
  split
  · rw [State.took_gap]
    exact discard_of_ok (advance_eq h)
  split
  · rename_i line
    have slash := beq_iff_eq.1 (Bool.and_eq_true_iff.1 line).1
    have more : Lexeme.run (· != '\n') (c :: cs) = Lexeme.run (· != '\n') cs + 1 := by
      simp [Lexeme.run, slash]
    rw [State.took_gap, skip_eq, h, more]
  split
  · rename_i block
    obtain ⟨slash, star⟩ := Bool.and_eq_true_iff.1 block
    obtain rfl := beq_iff_eq.1 slash
    obtain ⟨ds, rfl⟩ := List.head?_eq_some_iff.1 (beq_iff_eq.1 star)
    exact blockComment_eq h
  rw [continuesRawIdentifier_eq, ← Bool.and_assoc]
  split
  · rename_i raw
    simp only [Bool.and_eq_true, beq_iff_eq] at raw
    obtain ⟨⟨rfl, mark⟩, -⟩ := raw
    obtain ⟨ds, rfl⟩ := List.head?_eq_some_iff.1 mark
    exact rawIdentifier_eq h
  have rest := plain_eq h
  by_cases letter : c = 'r' ∨ c = 'b'
  · have quote : (c == '"') = false ∧ (c == '\'') = false := by
      obtain rfl | rfl := letter <;> decide
    rw [quote.1, quote.2, if_neg Bool.false_ne_true, if_neg Bool.false_ne_true] at rest ⊢
    rw [if_pos (by simpa using letter), bind_of_ok (atLetteredLiteral_eq h letter)]
    cases found : Lexeme.letteredLiteral? c cs with
    | some l => exact letteredLiteral_eq h letter found
    | none => exact rest
  · rw [if_neg (by simpa using letter), rest, Lexeme.letteredLiteral?_other]
    · exact fun r => letter (.inl r)
    · exact fun b => letter (.inr b)

end Walk

namespace Lexeme

variable {cs : List Char}

theorem stringLiteral_le (kind : TokenKind) (cs : List Char) :
    (stringLiteral kind cs).extra ≤ cs.length := by
  unfold stringLiteral
  split
  · rename_i closed
    exact closeString?_le closed
  · exact Nat.le_refl _

theorem characterWidth_le (cs : List Char) : characterWidth cs ≤ cs.length := by
  fun_cases characterWidth cs with
  | case1 cs =>
    simp only [List.length_cons]
    omega
  | case2 | case3 => simp
  | case4 => exact Nat.le_refl 0

theorem characterLiteral_le (kind : TokenKind) (cs : List Char) :
    (characterLiteral kind cs).extra ≤ cs.length := by
  unfold characterLiteral
  dsimp only
  split
  · rename_i closed
    have literal : characterLiteral kind cs = ⟨.token kind, characterWidth cs + 1⟩ := if_pos closed
    exact (characterLiteral_token literal).2
  · exact characterWidth_le cs

theorem quoteMark_le (cs : List Char) : (quoteMark cs).extra ≤ cs.length := by
  unfold quoteMark
  split
  · split
    · exact run_le _ _
    · exact characterLiteral_le _ _
  · exact characterLiteral_le _ []

theorem rawString?_le {kind : TokenKind} {l : Lexeme} (h : rawString? kind cs = some l) :
    l.extra ≤ cs.length := by
  have whole := h
  unfold rawString? at h
  dsimp only at h
  split at h
  · split at h
    · cases h
      exact (rawString?_token whole).2
    · cases h
      exact Nat.le_refl _
  · cases h

theorem letteredLiteral?_le {c : Char} {l : Lexeme} (h : letteredLiteral? c cs = some l) :
    l.extra ≤ cs.length := by
  have after {l : Lexeme} {cs : List Char} (le : l.extra ≤ cs.length) :
      (l.after 1).extra ≤ cs.length + 1 := by
    rw [Lexeme.after, Nat.add_comm]
    exact Nat.succ_le_succ le
  unfold letteredLiteral? at h
  split at h
  · exact rawString?_le h
  split at h
  · split at h
    · cases h
      exact after (stringLiteral_le _ _)
    · cases h
      exact after (characterLiteral_le _ _)
    · obtain ⟨l, raw, rfl⟩ := Option.map_eq_some_iff.1 h
      exact after (rawString?_le raw)
    · cases h
  · cases h

theorem plain_fault_le {c : Char} {cause : LexicalFault} {n : Nat}
    (h : plain c cs = ⟨.fault cause, n⟩) : n ≤ cs.length := by
  unfold plain at h
  split at h
  · unfold number at h
    dsimp only at h
    split at h <;> cases h
  split at h
  · cases h
  split at h
  · cases h
  split at h <;> cases h
  exact Nat.zero_le _

/-- A lexeme is at the front of the text, also if it is a fault. -/
theorem scan_le (c : Char) (cs : List Char) : (scan c cs).extra ≤ cs.length := by
  cases scanned : scan c cs with
  | mk sort n =>
  cases sort with
  | gap => exact (scan_gap_front scanned).1
  | token kind => exact (scan_token_front scanned).1
  | fault cause =>
    unfold scan at scanned
    split at scanned
    · cases scanned
    split at scanned
    · cases scanned
    split at scanned
    · rename_i block
      have star := (Bool.and_eq_true_iff.1 block).2
      obtain ⟨ds, rfl⟩ := List.head?_eq_some_iff.1 (beq_iff_eq.1 star)
      obtain ⟨m, comment, rfl⟩ := after_eq scanned
      unfold blockComment at comment
      split at comment <;> cases comment
      exact Nat.le_refl _
    split at scanned
    · cases scanned
    split at scanned
    · exact scanned ▸ stringLiteral_le _ cs
    split at scanned
    · exact scanned ▸ quoteMark_le cs
    split at scanned
    · rename_i lettered
      exact scanned ▸ letteredLiteral?_le lettered
    · exact plain_fault_le scanned

end Lexeme

/-- A text has no tokens exactly if a piece of it is faulty, and then all faults are reported. -/
theorem lex_eq_error {source file : String} {line : Int} {e : CompileError} :
    lex source file line = .error e ↔ faultsAt file ⟨line, 1⟩ (pieces source.toList) ≠ [] ∧
      e = ⟨faultsAt file ⟨line, 1⟩ (pieces source.toList)⟩ := by
  unfold lex
  dsimp only
  split
  · rename_i quiet
    exact ⟨nofun, fun eq => absurd quiet eq.1⟩
  · rename_i loud
    rw [Except.error.injEq]
    exact ⟨fun eq => ⟨loud, eq.symm⟩, fun eq => eq.2.symm⟩

namespace Walk

/-! ## The whole text -/

variable {s : State} {c : Char} {cs : List Char} {limit : Nat}

namespace State

/-- The state after all lexemes of the text that is left. -/
def tookAll (s : State) : State :=
  { s.forward s.ahead.length with
    tokens := s.tokens ++ tokensAt s.file s.place (pieces s.ahead)
    diagnostics := s.diagnostics ++ faultsAt s.file s.place (pieces s.ahead) }

theorem ahead_took (s : State) (l : Lexeme) : (s.took l).ahead = s.ahead.drop (l.extra + 1) :=
  ahead_forward s (l.extra + 1)

theorem tookAll_nil (h : s.ahead = []) : s.tookAll = s := by
  simp [tookAll, h, pieces, piecesUpTo, tokensAt, faultsAt, locate, forward, Place.after]

theorem tookAll_cons (h : s.ahead = c :: cs) : s.tookAll = (s.took (Lexeme.scan c cs)).tookAll := by
  -- A lexeme that were longer than the text would take the walk past its end.
  have inside := Lexeme.scan_le c cs
  have file : (s.took (Lexeme.scan c cs)).file = s.file := rfl
  have place : (s.took (Lexeme.scan c cs)).place =
      s.place.after (c :: cs.take (Lexeme.scan c cs).extra) := by
    rw [← List.take_succ_cons, ← h]
    rfl
  have whole : s.forward (cs.length + 1) =
      (s.forward ((Lexeme.scan c cs).extra + 1)).forward
        (cs.drop (Lexeme.scan c cs).extra).length := by
    rw [forward_forward, List.length_drop]
    congr 1
    omega
  rw [tookAll, tookAll, ahead_took, file, place, h, List.drop_succ_cons, List.length_cons, whole,
    pieces_cons, tokensAt_cons, faultsAt_cons, ← List.append_assoc, ← List.append_assoc]
  simp only [took, h, List.take_succ_cons, List.drop_succ_cons]
  rfl

end State

theorem lexemesUpTo_eq (enough : s.ahead.length < limit) :
    lexemesUpTo limit s = .ok () s.tookAll := by
  induction left : s.ahead using lexeme_induction generalizing s limit with
  | nil =>
    obtain ⟨limit, rfl⟩ := Nat.exists_eq_add_one.2 (Nat.zero_lt_of_lt enough)
    rw [lexemesUpTo, get_bind, State.atEnd_eq, left, if_pos (by rfl), State.tookAll_nil left]
    rfl
  | cons c cs ih =>
    obtain ⟨limit, rfl⟩ := Nat.exists_eq_add_one.2 (Nat.zero_lt_of_lt enough)
    have later : (s.took (Lexeme.scan c cs)).ahead = cs.drop (Lexeme.scan c cs).extra := by
      rw [State.ahead_took, left, List.drop_succ_cons]
    have short : (s.took (Lexeme.scan c cs)).ahead.length < limit := by
      rw [left, List.length_cons] at enough
      rw [later, List.length_drop]
      omega
    rw [lexemesUpTo, get_bind, State.atEnd_eq, left, if_neg (by simp), bind_of_ok (lexeme_eq left),
      ih short later, State.tookAll_cons left]

theorem tokens_eq (s : State) :
    tokens s = .ok () { s.tookAll with
      tokens := s.tookAll.tokens ++
        [⟨.eof, "", s.tookAll.place.spanOf s.file [], false⟩] } := by
  have enough : s.ahead.length < s.limit := ahead_lt_limit s 0
  rw [tokens, get_bind, bind_of_ok (lexemesUpTo_eq enough), get_bind]
  exact emit_forward .eof false s.tookAll 0

theorem lex_eq (source file : String) (line : Int) :
    Walk.lex source file line = .ok (TypeGrammar.lex source file line) := by
  have place : (State.start source.toList file line).tookAll.place =
      (⟨line, 1⟩ : Place).after source.toList :=
    congrArg (Place.after _) List.take_length
  rw [Walk.lex, tokens_eq, place]
  change Except.ok (if (faultsAt file ⟨line, 1⟩ (pieces source.toList)).isEmpty then _ else _) = _
  refine congrArg Except.ok ?_
  split
  · rename_i quiet
    exact (lex_eq_ok.2 ⟨faultsAt_eq_nil.1 (List.isEmpty_iff.1 quiet), rfl⟩).symm
  · rename_i loud
    exact (lex_eq_error.2 ⟨fun quiet => loud (List.isEmpty_iff.2 quiet), rfl⟩).symm

end Walk

/-! ## Faults -/

/-- A diagnostic that is about a character of a source. -/
def FaultIn (source : List Char) (file : String) (line : Int) (d : Diagnostic) : Prop :=
  ∃ before c after cause, source = before ++ c :: after ∧
    d = ⟨"E100", LexicalFault.message cause, [⟨⟨file, lineAfter line before, colAfter before,
      lineAfter line before, colAfter before⟩, ""⟩], []⟩

theorem faultIn_pieces {file : String} {line : Int} {before cs : List Char} :
    ∀ d ∈ faultsAt file ((⟨line, 1⟩ : Place).after before) (pieces cs),
      FaultIn (before ++ cs) file line d := by
  induction cs using lexeme_induction generalizing before with
  | nil => exact fun _ mem => absurd mem List.not_mem_nil
  | cons c cs ih =>
    intro d mem
    rw [pieces_cons, faultsAt_cons, ← Place.after_append, List.mem_append] at mem
    obtain here | later := mem
    · unfold Piece.fault? at here
      split at here
      · rename_i cause _
        refine ⟨before, c, cs, cause, rfl, ?_⟩
        rw [List.mem_singleton.1 here, Place.after_eq]
      · exact absurd here List.not_mem_nil
    · have more := ih d later
      rwa [List.append_assoc, List.cons_append, List.take_append_drop] at more

/-- Wherever a character is left, a round of a walk takes at least one character and stays inside
the source. A walk through a text does not break off and finds what is there: tokens and one end
marker behind them, or faults, each at a character of the text. -/
theorem walk_lex (source file : String) (line : Int) :
    (∀ s : Walk.State, s.pos < s.source.length → ∃ s', Walk.lexeme s = .ok () s' ∧
      s'.source = s.source ∧ s.pos < s'.pos ∧ s'.pos ≤ s.source.length) ∧
    Walk.lex source file line = .ok (lex source file line) ∧
    (∀ tokens, lex source file line = .ok tokens → ∃ marks last, tokens = marks ++ [last] ∧
      last.kind = .eof ∧ ∀ t ∈ marks, t.kind ≠ .eof) ∧
    ∀ e, lex source file line = .error e → e.diagnostics ≠ [] ∧
      ∀ d ∈ e.diagnostics, FaultIn source.toList file line d := by
  refine ⟨fun s inside => ?_, Walk.lex_eq source file line, fun tokens ok => ?_, fun e faulty => ?_⟩
  · obtain ⟨c, cs, left⟩ : ∃ c cs, s.ahead = c :: cs :=
      List.exists_cons_of_length_pos (by rw [Walk.State.ahead, List.length_drop]; omega)
    have short := Lexeme.scan_le c cs
    have length : s.source.length - s.pos = cs.length + 1 := by
      rw [← List.length_drop, ← List.length_cons, ← left]
      rfl
    have pos : (s.took (Lexeme.scan c cs)).pos = s.pos + ((Lexeme.scan c cs).extra + 1) := rfl
    exact ⟨_, Walk.lexeme_eq left, rfl, by omega, by omega⟩
  · obtain ⟨-, rfl⟩ := lex_eq_ok.1 ok
    exact ⟨_, _, rfl, rfl, tokensAt_known _ _ _ _⟩
  · obtain ⟨loud, rfl⟩ := lex_eq_error.1 faulty
    exact ⟨loud, @faultIn_pieces file line [] source.toList⟩

/-- A byte that breaks off in an escape, after a character with the code zero. -/
theorem walk_lex_escape :
    ∃ e, lex "\x00b'\\u\x7b7" "f" 1 = .error e ∧
      (∃ s', Walk.lexeme (Walk.State.start "\x00b'\\u\x7b7".toList "f" 1) = .ok () s' ∧
        s'.source = "\x00b'\\u\x7b7".toList ∧ 0 < s'.pos ∧ s'.pos ≤ 7) ∧
      Walk.lex "\x00b'\\u\x7b7" "f" 1 = .ok (.error e) ∧
      e.diagnostics ≠ [] ∧ ∀ d ∈ e.diagnostics, FaultIn "\x00b'\\u\x7b7".toList "f" 1 d := by
  obtain ⟨round, walk, -, faulty⟩ := walk_lex "\x00b'\\u\x7b7" "f" 1
  have faults : lex "\x00b'\\u\x7b7" "f" 1 = .error
      ⟨[⟨"E100", "unexpected character '\\x00'", [⟨⟨"f", 1, 1, 1, 1⟩, ""⟩], []⟩,
        ⟨"E100", "unterminated character literal", [⟨⟨"f", 1, 2, 1, 2⟩, ""⟩], []⟩]⟩ := rfl
  exact ⟨_, faults, round _ (by decide), walk.trans (congrArg _ faults), faulty _ faults⟩

end TypeGrammar
