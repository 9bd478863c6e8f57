import TypeGrammar.Proofs.Tiling

/-!
# Lexemes that are cut out of a text

The text of a token is read as the same token wherever it stands, if what follows it is a stop: the
end of the text, or a character that goes on with no word and no number, and with which no literal
and no comment begins.
-/

namespace TypeGrammar

open Text

/-! ## Stops -/

/-- The characters that may follow any token. -/
def stops : List Char :=
  [' ', '\n', ':', ',', ';', '>', '<', '!', '(', '[', ')', ']']

/-- A text that is empty or starts with a stop. -/
def Stops (rest : List Char) : Prop :=
  ∀ c ∈ rest.head?, c ∈ stops

theorem Stops.nil : Stops [] := by
  simp [Stops]

theorem Stops.cons {c : Char} (h : c ∈ stops) (rest : List Char) : Stops (c :: rest) := by
  simpa [Stops] using h

/-- The first character of a stop does not go on with what the stops do not go on with. -/
theorem Stops.off {p : Char → Bool} {rest : List Char} (h : Stops rest)
    (off : stops.any p = false) : ∀ c ∈ rest.head?, p c = false :=
  fun c first => Bool.eq_false_iff.2 (List.any_eq_false.1 off c (h c first))

theorem isWordChar_stop : stops.any isWordChar = false := by
  decide +kernel

theorem isWordStart_stop : stops.any isWordStart = false := by
  decide +kernel

theorem isDigit_stop : stops.any isDigit = false := by
  decide +kernel

theorem isWordChar_of_start {c : Char} (h : isWordStart c = true) : isWordChar c = true := by
  simp only [isWordStart, isWordChar, Bool.or_eq_true] at h ⊢
  exact h.imp_left Or.inl

namespace Lexeme

variable {cs rest : List Char} {n : Nat}

/-! ## Runs -/

theorem run_le (p : Char → Bool) (cs : List Char) : run p cs ≤ cs.length :=
  (List.takeWhile_prefix p).length_le

/-- A run is found again in a text that is cut off behind it. What follows the cut matters only if
the run goes up to it. -/
theorem run_cut {p : Char → Bool} (le : run p cs ≤ n)
    (off : n ≤ run p cs ∨ cs.length ≤ run p cs → ∀ c ∈ rest.head?, p c = false) :
    run p (cs.take n ++ rest) = run p cs := by
  induction cs generalizing n with
  | nil =>
    have off := off (.inr (Nat.zero_le _))
    cases rest <;> simp_all [run]
  | cons c cs ih =>
    by_cases goes : p c = true
    · have more (ds : List Char) : run p (c :: ds) = run p ds + 1 := by simp [run, goes]
      rw [more] at le off
      obtain ⟨m, rfl⟩ := Nat.exists_eq_add_of_le' (Nat.le_trans (Nat.le_add_left 1 _) le)
      rw [List.take_succ_cons, List.cons_append, more, more]
      refine congrArg (· + 1) (ih (Nat.le_of_succ_le_succ le) fun stop => off ?_)
      exact stop.imp Nat.succ_le_succ Nat.succ_le_succ
    · have stops (ds : List Char) : run p (c :: ds) = 0 := by simp [run, goes]
      rw [stops] at off ⊢
      cases n with
      | zero =>
        have off := off (.inl (Nat.le_refl _))
        cases rest <;> simp_all [run]
      | succ m => rw [List.take_succ_cons, List.cons_append, stops]

theorem run_append_of_all {p : Char → Bool} (all : ∀ c ∈ cs, p c = true) (rest : List Char) :
    run p (cs ++ rest) = cs.length + run p rest := by
  rw [run, List.takeWhile_append_of_pos all, List.length_append, run]

/-- What follows a part of a text that is cut off behind it. -/
theorem drop_cut {m : Nat} (le : m ≤ n) (inside : m ≤ cs.length) :
    (cs.take n ++ rest).drop m = (cs.drop m).take (n - m) ++ rest := by
  rw [List.drop_append_of_le_length (by rw [List.length_take]; omega), List.drop_take]

/-- A text starts as before if it is cut off behind its first character, or before one that tells as
little as a stop. -/
theorem head?_cut {p : Char → Bool} (off : ∀ c ∈ rest.head?, p c = false)
    (inside : cs.head?.any p = true → 0 < n) :
    (cs.take n ++ rest).head?.any p = cs.head?.any p := by
  have stopped : rest.head?.any p = false := by
    cases rest with
    | nil => rfl
    | cons d ds => exact off d rfl
  cases cs with
  | nil => simpa using stopped
  | cons c cs =>
    cases n with
    | zero =>
      have stays : p c = false :=
        Bool.eq_false_iff.2 fun goes => absurd (inside goes) (Nat.lt_irrefl 0)
      simpa [stays] using stopped
    | succ m => rfl

/-! ## Strings and characters -/

theorem closeString?_cut (h : closeString? cs = some n) :
    closeString? (cs.take n ++ rest) = some n := by
  fun_induction closeString? cs generalizing n with
  | case1 c cs ih =>
    obtain ⟨m, run, rfl⟩ := Option.map_eq_some_iff.1 h
    simp [closeString?, ih run]
  | case2 =>
    cases h
    rfl
  | case3 c cs escape quote ih =>
    obtain ⟨m, run, rfl⟩ := Option.map_eq_some_iff.1 h
    have plain : c ≠ '\\' := by
      rintro rfl
      cases cs with
      | nil => cases run
      | cons d ds => exact escape d ds rfl rfl
    rw [List.take_succ_cons, List.cons_append, closeString?, ih run, Option.map_some]
    · exact fun d ds eq => absurd eq plain
    · exact quote
  | case4 => cases h

/-- The hash marks at the front of a raw string end before its closing quote. -/
theorem run_lt_closeRawString? {hashes : Nat} (h : closeRawString? hashes cs = some n) :
    run (· == '#') cs < n ∧ run (· == '#') cs < cs.length := by
  fun_induction closeRawString? hashes cs generalizing n with
  | case1 cs enough =>
    cases h
    simp [run]
  | case2 cs few ih =>
    obtain ⟨m, eq, rfl⟩ := Option.map_eq_some_iff.1 h
    simp [run]
  | case3 c cs quote ih =>
    obtain ⟨m, eq, rfl⟩ := Option.map_eq_some_iff.1 h
    obtain ⟨before, inside⟩ := ih eq
    by_cases hash : (c == '#') = true <;> simp_all [run]
  | case4 => cases h

theorem closeRawString?_cut {hashes : Nat} (h : closeRawString? hashes cs = some n) :
    closeRawString? hashes (cs.take n ++ rest) = some n := by
  fun_induction closeRawString? hashes cs generalizing n with
  | case1 cs enough =>
    cases h
    have front : hashes ≤ run (· == '#') (cs.take hashes ++ rest) := by
      have all : ∀ c ∈ cs.take hashes, (c == '#') = true := fun c mem => by
        have mem := List.take_subset_take_left cs enough mem
        rw [take_run] at mem
        exact List.mem_takeWhile_imp (p := (· == '#')) mem
      rw [run_append_of_all all, List.length_take,
        Nat.min_eq_left (Nat.le_trans enough (run_le _ cs))]
      exact Nat.le_add_right _ _
    simp [closeRawString?, front]
  | case2 cs few ih =>
    obtain ⟨m, eq, rfl⟩ := Option.map_eq_some_iff.1 h
    have within := run_lt_closeRawString? eq
    have same : run (· == '#') (cs.take m ++ rest) = run (· == '#') cs :=
      run_cut (Nat.le_of_lt within.1) fun stop => absurd stop (by omega)
    simp [closeRawString?, same, few, ih eq]
  | case3 c cs quote ih =>
    obtain ⟨m, eq, rfl⟩ := Option.map_eq_some_iff.1 h
    rw [List.take_succ_cons, List.cons_append, closeRawString?, ih eq, Option.map_some]
    exact quote
  | case4 => cases h

theorem rawString?_cut {kind k : TokenKind} (h : rawString? kind cs = some ⟨.token k, n⟩) :
    rawString? kind (cs.take n ++ rest) = some ⟨.token k, n⟩ := by
  unfold rawString? at h
  dsimp only at h
  split at h
  · rename_i body start
    split at h
    · rename_i m closed
      cases h
      let front := cs.takeWhile (· == '#')
      have whole : cs = front ++ '"' :: body := by
        rw [← start, drop_run, List.takeWhile_append_dropWhile]
      have hashes (ds : List Char) : run (· == '#') (front ++ '"' :: ds) = front.length := by
        rw [run_append_of_all fun c => List.mem_takeWhile_imp]
        rfl
      have text : cs.take (run (· == '#') cs + 1 + m) ++ rest =
          front ++ '"' :: (body.take m ++ rest) := by
        rw [whole, hashes, Nat.add_assoc, List.take_length_add_append, Nat.add_comm 1,
          List.take_succ_cons, List.append_assoc, List.cons_append]
      rw [text, rawString?, hashes, List.drop_left]
      have closed : closeRawString? front.length (body.take m ++ rest) = some m :=
        closeRawString?_cut closed
      simp only [closed]
      rfl
    · cases h
  · cases h

theorem characterWidth_cut (closed : (cs.drop (characterWidth cs)).head? = some '\'') :
    characterWidth (cs.take (characterWidth cs + 1) ++ rest) = characterWidth cs ∧
      characterWidth cs ≤ cs.length := by
  have inside : characterWidth cs < cs.length := by
    refine Nat.lt_of_not_le fun le => ?_
    rw [List.drop_eq_nil_of_le le] at closed
    cases closed
  refine ⟨?_, Nat.le_of_lt inside⟩
  clear closed
  fun_cases characterWidth cs with
  | case1 ds =>
    simp only [characterWidth, List.length_cons] at inside
    have ends : run (· != '}') ds + 1 < ds.length := by omega
    rw [Nat.min_eq_left (Nat.le_of_lt ends),
      show 3 + (run (· != '}') ds + 1) + 1 = run (· != '}') ds + 2 + 3 by omega]
    simp only [List.take_succ_cons, List.cons_append, characterWidth]
    rw [run_cut (Nat.le_add_right _ 2) fun stop => absurd stop (by omega), List.length_append,
      List.length_take]
    omega
  | case2 d ds plain =>
    cases ds with
    | nil => simp [characterWidth] at inside
    | cons e es =>
      refine characterWidth.eq_2 d (e :: rest) fun es' eq eq' => ?_
      obtain ⟨rfl, rfl⟩ := List.cons.inj eq'
      exact plain es eq rfl
  | case3 d ds plain escape =>
    have other : d ≠ '\\' := by
      rintro rfl
      cases ds with
      | nil => simp [characterWidth] at inside
      | cons e es => exact escape e es rfl rfl
    rw [List.take_succ_cons, List.cons_append, characterWidth.eq_3]
    · exact fun _ eq => absurd eq other
    · exact fun _ _ eq => absurd eq other
  | case4 => cases inside

theorem characterLiteral_cut {kind k : TokenKind} (h : characterLiteral kind cs = ⟨.token k, n⟩) :
    characterLiteral kind (cs.take n ++ rest) = ⟨.token k, n⟩ := by
  unfold characterLiteral at h
  dsimp only at h
  split at h
  · rename_i closed
    cases h
    simp only [Bool.and_eq_true, decide_eq_true_eq, beq_iff_eq] at closed
    obtain ⟨width, inside⟩ := @characterWidth_cut _ rest closed.2
    rw [characterLiteral]
    simp only [width]
    rw [drop_cut (Nat.le_succ _) inside, Nat.succ_sub (Nat.le_refl _), Nat.sub_self,
      List.take_one, closed.2, if_pos]
    simp [closed.1]
  · cases h

theorem characterLiteral_extra {kind k : TokenKind}
    (h : characterLiteral kind cs = ⟨.token k, n⟩) : n = characterWidth cs + 1 := by
  unfold characterLiteral at h
  dsimp only at h
  split at h <;> cases h
  rfl

theorem stringLiteral_cut {kind k : TokenKind} (h : stringLiteral kind cs = ⟨.token k, n⟩) :
    stringLiteral kind (cs.take n ++ rest) = ⟨.token k, n⟩ := by
  unfold stringLiteral at h
  split at h
  · rename_i m closed
    cases h
    simp only [stringLiteral, closeString?_cut closed]
  · cases h

/-- No literal starts behind a word that is cut off, and none with the rest of it. -/
theorem head?_word (stop : Stops rest) :
    ∀ d ∈ (cs.take (run isWordChar cs) ++ rest).head?, d ≠ '#' ∧ d ≠ '"' ∧ d ≠ '\'' := by
  intro d first
  have known : isWordChar d = true ∨ d ∈ stops := by
    cases cs with
    | nil => exact .inr (stop d (by simpa using first))
    | cons c cs =>
      by_cases goes : isWordChar c = true
      · left
        simp_all [run]
      · exact .inr (stop d (by simpa [run, goes] using first))
  refine ⟨?_, ?_, ?_⟩ <;> rintro rfl <;> revert known <;> decide +kernel

theorem quoteMark_cut {k : TokenKind} (stop : Stops rest) (h : quoteMark cs = ⟨.token k, n⟩) :
    quoteMark (cs.take n ++ rest) = ⟨.token k, n⟩ := by
  cases cs with
  | nil => cases h
  | cons c cs =>
    simp only [quoteMark] at h
    split at h
    · rename_i name
      simp only [Bool.and_eq_true, bne_iff_ne, ne_eq] at name
      have more (ds : List Char) : run isWordChar (c :: ds) = run isWordChar ds + 1 := by
        simp [run, isWordChar_of_start name.1]
      rw [more] at h
      cases h
      have last : (cs.take (run isWordChar cs) ++ rest).head? ≠ some '\'' :=
        fun quote => (head?_word stop _ quote).2.2 rfl
      have same : run isWordChar (cs.take (run isWordChar cs) ++ rest) = run isWordChar cs :=
        run_cut (Nat.le_refl _) fun _ => stop.off isWordChar_stop
      rw [List.take_succ_cons, List.cons_append, quoteMark, more, same, if_pos]
      simp only [name.1, Bool.true_and, bne_iff_ne, ne_eq, last, not_false_eq_true]
    · rename_i quoted
      have literal := @characterLiteral_cut _ rest _ _ _ h
      obtain rfl := characterLiteral_extra h
      rw [List.take_succ_cons, List.cons_append] at literal ⊢
      rw [quoteMark, if_neg, literal]
      intro name
      simp only [Bool.and_eq_true, bne_iff_ne, ne_eq, not_and, not_not] at name quoted
      have next := quoted name.1
      have width : characterWidth (c :: cs) = 1 := by
        rw [characterWidth.eq_3]
        · rintro _ rfl
          exact absurd name.1 (by decide)
        · rintro _ _ rfl
          exact absurd name.1 (by decide)
      refine name.2 ?_
      rw [width, List.take_one, next]
      rfl

theorem after_eq {l : Lexeme} {sort : LexemeSort} (h : l.after 1 = ⟨sort, n⟩) :
    ∃ m, l = ⟨sort, m⟩ ∧ n = m + 1 := by
  obtain ⟨s, m⟩ := l
  cases h
  exact ⟨m, rfl, Nat.add_comm 1 m⟩

theorem letteredLiteral?_cut {c : Char} {k : TokenKind}
    (h : letteredLiteral? c cs = some ⟨.token k, n⟩) :
    letteredLiteral? c (cs.take n ++ rest) = some ⟨.token k, n⟩ := by
  unfold letteredLiteral? at h ⊢
  split at h
  · rename_i r
    rw [if_pos r]
    exact rawString?_cut h
  · rename_i r
    rw [if_neg r]
    split at h
    · rename_i b
      rw [if_pos b]
      split at h
      · obtain ⟨m, literal, rfl⟩ := after_eq (Option.some.inj h)
        simp [stringLiteral_cut literal, Lexeme.after, Nat.add_comm]
      · obtain ⟨m, literal, rfl⟩ := after_eq (Option.some.inj h)
        simp [characterLiteral_cut literal, Lexeme.after, Nat.add_comm]
      · obtain ⟨l, literal, eq⟩ := Option.map_eq_some_iff.1 h
        obtain ⟨m, rfl, rfl⟩ := after_eq eq
        simp [rawString?_cut literal, Lexeme.after, Nat.add_comm]
      · cases h
    · cases h

/-! ## Words -/

theorem rawString?_none {kind : TokenKind} (h : ∀ d ∈ cs.head?, d ≠ '#' ∧ d ≠ '"') :
    rawString? kind cs = none := by
  cases cs with
  | nil => rfl
  | cons c cs =>
    obtain ⟨hash, quote⟩ := h c rfl
    have unhashed : run (· == '#') (c :: cs) = 0 := by simp [run, hash]
    simp only [rawString?, unhashed, List.drop_zero]
    split
    · rename_i eq
      exact absurd (List.cons.inj eq).1 quote
    · rfl

/-- No literal starts with the letters of a word. -/
theorem letteredLiteral?_word (c : Char) (stop : Stops rest) :
    letteredLiteral? c (cs.take (run isWordChar cs) ++ rest) = none := by
  have raw (kind : TokenKind) (cs : List Char) :
      rawString? kind (cs.take (run isWordChar cs) ++ rest) = none :=
    rawString?_none fun d first => ⟨(head?_word stop d first).1, (head?_word stop d first).2.1⟩
  unfold letteredLiteral?
  split
  · exact raw _ _
  · split
    · split
      · rename_i eq
        exact absurd rfl (head?_word stop '"' (by rw [eq]; rfl)).2.1
      · rename_i eq
        exact absurd rfl (head?_word stop '\'' (by rw [eq]; rfl)).2.2
      · rename_i ds eq
        have off (eq : rest = 'r' :: ds) : False := by
          have := stop 'r' (by rw [eq]; rfl)
          revert this
          decide
        cases cs with
        | nil => exact (off (by simpa using eq)).elim
        | cons e es =>
          by_cases goes : isWordChar e = true
          · have more : run isWordChar (e :: es) = run isWordChar es + 1 := by simp [run, goes]
            rw [more, List.take_succ_cons, List.cons_append] at eq
            rw [← (List.cons.inj eq).2, raw]
            rfl
          · exact (off (by simpa [run, goes] using eq)).elim
      · rfl
    · rfl

theorem word_cut (c : Char) (stop : Stops rest) :
    word c (cs.take (run isWordChar cs) ++ rest) = word c cs := by
  have same : run isWordChar (cs.take (run isWordChar cs) ++ rest) = run isWordChar cs :=
    run_cut (Nat.le_refl _) fun _ => stop.off isWordChar_stop
  rw [word, same, List.take_append_of_le_length, List.take_take, Nat.min_self]
  · rfl
  · rw [List.length_take, Nat.min_eq_left (run_le _ _)]

/-! ## Numbers -/

theorem digitRun_cut (stop : Stops rest) (le : digitRun cs ≤ n) :
    digitRun (cs.take n ++ rest) = digitRun cs :=
  run_cut le fun _ => stop.off (by decide +kernel)

theorem digitRun_le (cs : List Char) : digitRun cs ≤ cs.length :=
  run_le _ cs

theorem digitRun_pos (h : cs.head?.any isDigit = true) : 0 < digitRun cs := by
  cases cs with
  | nil => cases h
  | cons c cs =>
    have digit : isDigit c = true := h
    simp [digitRun, run, digit]

theorem fraction_point (cs : List Char) :
    fraction ('.' :: cs) = if cs.head?.any isDigit then 1 + digitRun cs else 0 := by
  cases cs <;> rfl

theorem fraction_other {c : Char} (h : c ≠ '.') (cs : List Char) : fraction (c :: cs) = 0 := by
  unfold fraction
  split
  · rename_i eq
    exact absurd (List.cons.inj eq).1 h
  · rfl

theorem fraction_le (cs : List Char) : fraction cs ≤ cs.length := by
  unfold fraction
  split
  · rename_i c cs
    have := digitRun_le (c :: cs)
    split
    · rw [List.length_cons]
      omega
    · exact Nat.zero_le _
  · exact Nat.zero_le _

theorem fraction_stop (stop : Stops rest) : fraction rest = 0 := by
  cases rest with
  | nil => rfl
  | cons c cs =>
    refine fraction_other ?_ cs
    rintro rfl
    exact absurd (stop _ rfl) (by decide)

theorem fraction_cut (stop : Stops rest) (le : fraction cs ≤ n) :
    fraction (cs.take n ++ rest) = fraction cs := by
  cases cs with
  | nil => rw [List.take_nil, List.nil_append, fraction_stop stop]; rfl
  | cons c cs =>
    cases n with
    | zero => rw [List.take_zero, List.nil_append, fraction_stop stop, Nat.le_zero.1 le]
    | succ m =>
      rw [List.take_succ_cons, List.cons_append]
      by_cases point : c = '.'
      · subst point
        rw [fraction_point] at le ⊢
        rw [fraction_point, head?_cut (stop.off isDigit_stop)]
        · split
          · rename_i digits
            rw [if_pos digits] at le
            rw [digitRun_cut stop (by omega)]
          · rfl
        · intro digits
          have := digitRun_pos digits
          rw [if_pos digits] at le
          omega
      · rw [fraction_other point, fraction_other point]

/-- True of the letters that mark an exponent. -/
def isExponentMark (c : Char) : Bool :=
  c == 'e' || c == 'E'

/-- True of the sign of an exponent. -/
def isExponentSign (c : Char) : Bool :=
  c == '+' || c == '-'

theorem exponent_mark {e : Char} (mark : isExponentMark e = true) (cs : List Char) :
    exponent (e :: cs) =
      if cs.head?.any isDigit then 1 + digitRun cs
      else if cs.head?.any isExponentSign && cs.tail.head?.any isDigit then 2 + digitRun cs.tail
      else 0 := by
  refine (if_pos mark).trans ?_
  cases cs <;> rfl

theorem exponent_other {e : Char} (h : isExponentMark e = false) (cs : List Char) :
    exponent (e :: cs) = 0 := by
  unfold isExponentMark at h
  simp [exponent, h]

theorem exponent_le (cs : List Char) : exponent cs ≤ cs.length := by
  unfold exponent
  split
  · split
    · split
      · rename_i c cs
        have := digitRun_le (c :: cs)
        have := digitRun_le cs
        split
        · rw [List.length_cons]
          omega
        split
        · simp only [List.length_cons]
          omega
        · exact Nat.zero_le _
      · exact Nat.zero_le _
    · exact Nat.zero_le _
  · exact Nat.zero_le _

theorem exponent_stop (stop : Stops rest) : exponent rest = 0 := by
  cases rest with
  | nil => rfl
  | cons c cs =>
    have off : stops.any isExponentMark = false := by decide
    exact exponent_other (stop.off off c rfl) cs

/-- A sign with digits after it is cut off behind the digits, or there is none. -/
theorem signed_cut (stop : Stops rest)
    (le : (if cs.head?.any isExponentSign && cs.tail.head?.any isDigit then 2 + digitRun cs.tail
      else 0) ≤ n + 1) :
    (if (cs.take n ++ rest).head?.any isExponentSign && (cs.take n ++ rest).tail.head?.any isDigit
      then 2 + digitRun (cs.take n ++ rest).tail else 0) =
      if cs.head?.any isExponentSign && cs.tail.head?.any isDigit then 2 + digitRun cs.tail
      else 0 := by
  have stopped : rest.head?.any isExponentSign = false := by
    cases rest with
    | nil => rfl
    | cons c cs => exact stop.off (by decide : stops.any isExponentSign = false) c rfl
  cases cs with
  | nil => simp [stopped]
  | cons c cs =>
    cases n with
    | zero =>
      split at le
      · omega
      · rename_i unsigned
        rw [if_neg unsigned]
        simp [stopped]
    | succ m =>
      simp only [List.take_succ_cons, List.cons_append, List.head?_cons, List.tail_cons] at le ⊢
      by_cases sign : (some c).any isExponentSign = true
      case neg => simp [sign]
      case pos =>
        simp only [sign, Bool.true_and] at le ⊢
        rw [head?_cut (stop.off isDigit_stop)]
        · split
          · rename_i digits
            rw [if_pos digits] at le
            rw [digitRun_cut stop (by omega)]
          · rfl
        · intro digits
          have := digitRun_pos digits
          rw [if_pos digits] at le
          omega

theorem exponent_cut (stop : Stops rest) (le : exponent cs ≤ n) :
    exponent (cs.take n ++ rest) = exponent cs := by
  cases cs with
  | nil => rw [List.take_nil, List.nil_append, exponent_stop stop]; rfl
  | cons e cs =>
    cases n with
    | zero => rw [List.take_zero, List.nil_append, exponent_stop stop, Nat.le_zero.1 le]
    | succ m =>
      rw [List.take_succ_cons, List.cons_append]
      cases mark : isExponentMark e with
      | false => rw [exponent_other mark, exponent_other mark]
      | true =>
        rw [exponent_mark mark] at le ⊢
        rw [exponent_mark mark, head?_cut (stop.off isDigit_stop)]
        · split
          · rename_i digits
            rw [if_pos digits] at le
            rw [digitRun_cut stop (by omega)]
          · rename_i digits
            rw [if_neg digits] at le
            exact signed_cut stop le
        · intro digits
          have := digitRun_pos digits
          rw [if_pos digits] at le
          omega

/-- True of the letters that mark the base of a number. -/
def isBaseMark (c : Char) : Bool :=
  c == 'x' || c == 'o' || c == 'b'

theorem numberBody_based {c : Char} (h : (c == '0' && cs.head?.any isBaseMark) = true) :
    numberBody c cs = (.integer, 1 + run isBaseDigit cs.tail) :=
  if_pos h

theorem numberBody_plain {c : Char} (h : (c == '0' && cs.head?.any isBaseMark) = false) :
    numberBody c cs =
      let whole := digitRun cs
      let part := fraction (cs.drop whole)
      let power := exponent (cs.drop (whole + part))
      (if part + power = 0 then .integer else .float, whole + part + power) :=
  if_neg (Bool.eq_false_iff.1 h)

theorem numberBody_le (c : Char) (cs : List Char) : (numberBody c cs).2 ≤ cs.length := by
  cases based : c == '0' && cs.head?.any isBaseMark with
  | true =>
    cases cs with
    | nil => simp at based
    | cons b cs =>
      have := run_le isBaseDigit cs
      simp only [numberBody_based based, List.tail_cons, List.length_cons]
      omega
  | false =>
    have whole := digitRun_le cs
    have part := fraction_le (cs.drop (digitRun cs))
    have power := exponent_le (cs.drop (digitRun cs + fraction (cs.drop (digitRun cs))))
    simp only [numberBody_plain based, List.length_drop] at part power ⊢
    omega

theorem numberBody_cut (c : Char) (stop : Stops rest) (le : (numberBody c cs).2 ≤ n) :
    numberBody c (cs.take n ++ rest) = numberBody c cs := by
  have same : (c == '0' && (cs.take n ++ rest).head?.any isBaseMark) =
      (c == '0' && cs.head?.any isBaseMark) := by
    cases zero : c == '0' with
    | false => rfl
    | true =>
      rw [Bool.true_and, Bool.true_and, head?_cut (stop.off (by decide))]
      intro mark
      rw [numberBody_based (by rw [zero]; exact mark)] at le
      exact Nat.lt_of_lt_of_le (Nat.lt_add_right _ Nat.one_pos) le
  cases based : c == '0' && cs.head?.any isBaseMark with
  | true =>
    rw [numberBody_based based] at le ⊢
    rw [numberBody_based (same.trans based)]
    cases cs with
    | nil => simp at based
    | cons b cs =>
      obtain ⟨m, rfl⟩ : ∃ m, n = m + 1 := ⟨n - 1, by dsimp only at le; omega⟩
      simp only [List.take_succ_cons, List.cons_append, List.tail_cons] at le ⊢
      rw [run_cut (by omega) fun _ => stop.off (by decide)]
  | false =>
    rw [numberBody_plain based] at le ⊢
    rw [numberBody_plain (same.trans based)]
    dsimp only at le ⊢
    have whole := digitRun_le cs
    have part := fraction_le (cs.drop (digitRun cs))
    rw [List.length_drop] at part
    rw [digitRun_cut stop (by omega), drop_cut (by omega) whole, fraction_cut stop (by omega),
      drop_cut (by omega) (by omega), exponent_cut stop (by omega)]

theorem number_suffixed {c : Char}
    (h : (cs.drop (numberBody c cs).2).head?.any isWordStart = true) :
    number c cs = ⟨.token (if (cs.drop (numberBody c cs).2).head? == some 'f' then .float
      else (numberBody c cs).1),
      (numberBody c cs).2 + run isWordChar (cs.drop (numberBody c cs).2)⟩ :=
  if_pos h

theorem number_bare {c : Char}
    (h : (cs.drop (numberBody c cs).2).head?.any isWordStart = false) :
    number c cs = ⟨.token (numberBody c cs).1, (numberBody c cs).2⟩ :=
  if_neg (Bool.eq_false_iff.1 h)

/-- A word that is cut off behind its characters starts with the same one. -/
theorem head?_wordStart (h : cs.head?.any isWordStart = true) :
    (cs.take (run isWordChar cs) ++ rest).head? = cs.head? := by
  cases cs with
  | nil => cases h
  | cons c cs =>
    have more : run isWordChar (c :: cs) = run isWordChar cs + 1 := by
      simp [run, isWordChar_of_start h]
    rw [more]
    rfl

theorem number_cut {c : Char} (stop : Stops rest) (h : (number c cs).extra = n) :
    number c (cs.take n ++ rest) = number c cs := by
  have inside := numberBody_le c cs
  cases suffix : (cs.drop (numberBody c cs).2).head?.any isWordStart with
  | true =>
    rw [number_suffixed suffix] at h ⊢
    subst h
    have body := @numberBody_cut cs rest _ c stop
      (Nat.le_add_right (numberBody c cs).2 (run isWordChar (cs.drop (numberBody c cs).2)))
    have tail := @drop_cut cs rest _ _
      (Nat.le_add_right (numberBody c cs).2 (run isWordChar (cs.drop (numberBody c cs).2))) inside
    rw [Nat.add_sub_cancel_left] at tail
    have front := @head?_wordStart _ rest suffix
    rw [number_suffixed (by rw [body, tail, front]; exact suffix), body, tail, front,
      run_cut (Nat.le_refl _) fun _ => stop.off isWordChar_stop]
  | false =>
    rw [number_bare suffix] at h ⊢
    subst h
    have body := @numberBody_cut cs rest _ c stop (Nat.le_refl (numberBody c cs).2)
    have tail := @drop_cut cs rest _ _ (Nat.le_refl (numberBody c cs).2) inside
    rw [Nat.sub_self, List.take_zero, List.nil_append] at tail
    have stopped : rest.head?.any isWordStart = false := by
      cases rest with
      | nil => rfl
      | cons d ds => exact stop.off isWordStart_stop d rfl
    rw [number_bare (by rw [body, tail]; exact stopped), body]

/-! ## Tokens -/

/-- The lexemes that are neither gaps nor start with `/`. -/
theorem scan_solid {c : Char} (gap : isGapChar c = false) (slash : c ≠ '/') (cs : List Char) :
    scan c cs =
      if c == 'r' && continuesRawIdentifier cs then
        ⟨.token .identifier, 1 + run isWordChar cs.tail⟩
      else if c == '"' then stringLiteral .string cs
      else if c == '\'' then quoteMark cs
      else (letteredLiteral? c cs).getD (plain c cs) := by
  simp only [scan, gap, beq_eq_false_iff_ne.2 slash, Bool.false_and, Bool.false_eq_true, if_false]
  cases letteredLiteral? c cs <;> rfl

theorem scan_slash (h : ∀ d ∈ cs.head?, d ≠ '/' ∧ d ≠ '*') :
    scan '/' cs = ⟨.token .punct, 0⟩ := by
  have line : (cs.head? == some '/') = false :=
    beq_eq_false_iff_ne.2 fun first => (h _ first).1 rfl
  have block : (cs.head? == some '*') = false :=
    beq_eq_false_iff_ne.2 fun first => (h _ first).2 rfl
  unfold scan
  rw [if_neg (by decide), line, block]
  rfl

theorem scan_slash_token {k : TokenKind} (h : scan '/' cs = ⟨.token k, n⟩) :
    k = .punct ∧ n = 0 ∧ ∀ d ∈ cs.head?, d ≠ '/' ∧ d ≠ '*' := by
  have free : ∀ d ∈ cs.head?, d ≠ '/' ∧ d ≠ '*' := by
    intro d first
    cases cs with
    | nil => cases first
    | cons e cs =>
      obtain rfl := Option.some.inj first
      constructor
      · rintro rfl
        cases h
      · rintro rfl
        have comment : scan '/' ('*' :: cs) = (blockComment cs).after 1 := rfl
        rw [comment, blockComment] at h
        split at h <;> cases h
  rw [scan_slash free] at h
  cases h
  exact ⟨rfl, rfl, free⟩

theorem letteredLiteral?_other {c : Char} (r : c ≠ 'r') (b : c ≠ 'b') (cs : List Char) :
    letteredLiteral? c cs = none := by
  simp [letteredLiteral?, r, b]

theorem continuesRawIdentifier_hash (cs : List Char) :
    continuesRawIdentifier ('#' :: cs) = cs.head?.any isWordStart := by
  cases cs <;> rfl

theorem continuesRawIdentifier_word (stop : Stops rest) :
    continuesRawIdentifier (cs.take (run isWordChar cs) ++ rest) = false := by
  unfold continuesRawIdentifier
  split
  · rename_i eq
    exact absurd rfl (head?_word stop '#' (by rw [eq]; rfl)).1
  · rfl

/-- A raw string does not start like a raw identifier. -/
theorem continuesRawIdentifier_string {kind : TokenKind} {l : Lexeme}
    (h : rawString? kind cs = some l) : continuesRawIdentifier cs = false := by
  unfold continuesRawIdentifier
  split
  · rename_i c cs
    by_cases hash : c = '#'
    · subst hash
      decide
    · have one : run (· == '#') ('#' :: c :: cs) = 1 := by simp [run, hash]
      simp only [rawString?, one] at h
      split at h
      · rename_i eq
        rw [(List.cons.inj eq).1]
        decide
      · cases h
  · rfl

theorem rawIdentifier_cut (stop : Stops rest) (h : continuesRawIdentifier cs = true) :
    continuesRawIdentifier (cs.take (1 + run isWordChar cs.tail) ++ rest) = true ∧
      run isWordChar (cs.take (1 + run isWordChar cs.tail) ++ rest).tail =
        run isWordChar cs.tail := by
  obtain ⟨ds, rfl⟩ : ∃ ds, cs = '#' :: ds := by
    unfold continuesRawIdentifier at h
    split at h
    · exact ⟨_, rfl⟩
    · cases h
  rw [continuesRawIdentifier_hash] at h
  rw [Nat.add_comm, List.take_succ_cons, List.cons_append, continuesRawIdentifier_hash,
    List.tail_cons, List.tail_cons, head?_wordStart h]
  exact ⟨h, run_cut (Nat.le_refl _) fun _ => stop.off isWordChar_stop⟩

/-- What follows the first character of a number, a word, a bracket or punctuation. -/
theorem plain_cut {c : Char} {k : TokenKind} (stop : Stops rest)
    (h : plain c cs = ⟨.token k, n⟩) :
    plain c (cs.take n ++ rest) = ⟨.token k, n⟩ ∧
      letteredLiteral? c (cs.take n ++ rest) = none ∧
      (c == 'r' && continuesRawIdentifier (cs.take n ++ rest)) = false := by
  by_cases start : isDigit c = false ∧ isWordStart c = true
  · simp only [plain, start, Bool.false_eq_true, if_false, if_true] at h ⊢
    cases h
    refine ⟨by rw [word_cut c stop]; rfl, letteredLiteral?_word c stop, ?_⟩
    rw [continuesRawIdentifier_word stop, Bool.and_false]
  · have r : c ≠ 'r' := by
      rintro rfl
      exact start (by decide)
    have b : c ≠ 'b' := by
      rintro rfl
      exact start (by decide)
    refine ⟨?_, letteredLiteral?_other r b _, by rw [beq_eq_false_iff_ne.2 r, Bool.false_and]⟩
    unfold plain at h ⊢
    split at h
    · rename_i digit
      rw [if_pos digit, number_cut stop (by rw [h]), h]
    · rename_i digit
      split at h
      · rename_i word
        exact absurd ⟨Bool.eq_false_iff.2 digit, word⟩ start
      · rename_i word
        rw [if_neg digit, if_neg word]
        exact h

theorem not_gap_of_token {c : Char} {k : TokenKind} (h : scan c cs = ⟨.token k, n⟩) :
    isGapChar c = false := by
  refine Bool.eq_false_iff.2 fun gap => ?_
  rw [scan, if_pos gap] at h
  cases h

/-- The text of a token is read as the same token in front of any stop. -/
theorem scan_cut {c : Char} {k : TokenKind} (stop : Stops rest)
    (h : scan c cs = ⟨.token k, n⟩) : scan c (cs.take n ++ rest) = ⟨.token k, n⟩ := by
  have gap := not_gap_of_token h
  by_cases slash : c = '/'
  · subst slash
    obtain ⟨rfl, rfl, -⟩ := scan_slash_token h
    refine scan_slash fun d first => ?_
    have mem := stop d first
    constructor <;> rintro rfl <;> revert mem <;> decide
  rw [scan_solid gap slash] at h ⊢
  split at h
  · rename_i raw
    obtain ⟨r, goes⟩ := Bool.and_eq_true_iff.1 raw
    cases h
    obtain ⟨goes, same⟩ := rawIdentifier_cut stop goes
    rw [if_pos (by rw [r, goes]; rfl), same]
  split at h
  · rename_i string
    obtain rfl := beq_iff_eq.1 string
    exact stringLiteral_cut h
  split at h
  · rename_i quote
    obtain rfl := beq_iff_eq.1 quote
    exact quoteMark_cut stop h
  rename_i string quote
  cases lettered : letteredLiteral? c cs with
  | none =>
    rw [lettered, Option.getD_none] at h
    obtain ⟨plain, literal, raw⟩ := plain_cut stop h
    rw [raw, if_neg Bool.false_ne_true, if_neg string, if_neg quote, literal, Option.getD_none,
      plain]
  | some l =>
    rw [lettered, Option.getD_some] at h
    subst h
    have literal := @letteredLiteral?_cut _ rest _ _ _ lettered
    have raw : (c == 'r' && continuesRawIdentifier (cs.take n ++ rest)) = false := by
      by_cases r : c = 'r'
      · subst r
        exact continuesRawIdentifier_string literal
      · rw [beq_eq_false_iff_ne.2 r, Bool.false_and]
    rw [raw, if_neg Bool.false_ne_true, if_neg string, if_neg quote, literal, Option.getD_some]

/-! ## The length of a token -/

theorem closeString?_le (h : closeString? cs = some n) : n ≤ cs.length := by
  fun_induction closeString? cs generalizing n with
  | case1 c cs ih | case3 c cs escape quote ih =>
    obtain ⟨m, run, rfl⟩ := Option.map_eq_some_iff.1 h
    have := ih run
    simp only [List.length_cons]
    omega
  | case2 =>
    cases h
    exact Nat.le_add_left 1 _
  | case4 => cases h

theorem closeRawString?_le {hashes : Nat} (h : closeRawString? hashes cs = some n) :
    n ≤ cs.length := by
  fun_induction closeRawString? hashes cs generalizing n with
  | case1 cs enough =>
    cases h
    exact Nat.succ_le_succ (Nat.le_trans enough (run_le _ cs))
  | case2 cs few ih | case3 c cs quote ih =>
    obtain ⟨m, eq, rfl⟩ := Option.map_eq_some_iff.1 h
    exact Nat.succ_le_succ (ih eq)
  | case4 => cases h

theorem stringLiteral_token {kind k : TokenKind} (h : stringLiteral kind cs = ⟨.token k, n⟩) :
    k = kind ∧ n ≤ cs.length := by
  unfold stringLiteral at h
  split at h
  · rename_i closed
    cases h
    exact ⟨rfl, closeString?_le closed⟩
  · cases h

theorem characterLiteral_token {kind k : TokenKind}
    (h : characterLiteral kind cs = ⟨.token k, n⟩) : k = kind ∧ n ≤ cs.length := by
  unfold characterLiteral at h
  dsimp only at h
  split at h
  · rename_i closed
    cases h
    simp only [Bool.and_eq_true, beq_iff_eq] at closed
    refine ⟨rfl, Nat.lt_of_not_le fun le => ?_⟩
    rw [List.drop_eq_nil_of_le le] at closed
    cases closed.2
  · cases h

theorem rawString?_token {kind k : TokenKind} (h : rawString? kind cs = some ⟨.token k, n⟩) :
    k = kind ∧ n ≤ cs.length := by
  unfold rawString? at h
  dsimp only at h
  split at h
  · rename_i body start
    split at h
    · rename_i m closed
      cases h
      have front := congrArg List.length start
      have := closeRawString?_le closed
      rw [List.length_drop, List.length_cons] at front
      exact ⟨rfl, by omega⟩
    · cases h
  · cases h

theorem letteredLiteral?_token {c : Char} {k : TokenKind}
    (h : letteredLiteral? c cs = some ⟨.token k, n⟩) :
    k ∈ [.string, .byteString, .byte] ∧ n ≤ cs.length := by
  unfold letteredLiteral? at h
  split at h
  · obtain ⟨rfl, le⟩ := rawString?_token h
    exact ⟨by decide, le⟩
  · split at h
    · split at h
      · obtain ⟨m, literal, rfl⟩ := after_eq (Option.some.inj h)
        obtain ⟨rfl, le⟩ := stringLiteral_token literal
        exact ⟨by decide, Nat.succ_le_succ le⟩
      · obtain ⟨m, literal, rfl⟩ := after_eq (Option.some.inj h)
        obtain ⟨rfl, le⟩ := characterLiteral_token literal
        exact ⟨by decide, Nat.succ_le_succ le⟩
      · obtain ⟨l, literal, eq⟩ := Option.map_eq_some_iff.1 h
        obtain ⟨m, rfl, rfl⟩ := after_eq eq
        obtain ⟨rfl, le⟩ := rawString?_token literal
        exact ⟨by decide, Nat.succ_le_succ le⟩
      · cases h
    · cases h

theorem quoteMark_token {k : TokenKind} (h : quoteMark cs = ⟨.token k, n⟩) :
    k ∈ [.lifetime, .character] ∧ n ≤ cs.length := by
  unfold quoteMark at h
  split at h
  · split at h
    · cases h
      exact ⟨by decide, run_le _ _⟩
    · obtain ⟨rfl, le⟩ := characterLiteral_token h
      exact ⟨by decide, le⟩
  · cases h

theorem numberBody_token (c : Char) (cs : List Char) :
    (numberBody c cs).1 ∈ [.integer, .float] := by
  cases based : c == '0' && cs.head?.any isBaseMark with
  | true =>
    rw [numberBody_based based]
    exact List.mem_cons_self
  | false =>
    rw [numberBody_plain based]
    dsimp only
    split <;> decide

theorem number_token {c : Char} {k : TokenKind} (h : number c cs = ⟨.token k, n⟩) :
    k ∈ [.integer, .float] ∧ n ≤ cs.length := by
  have body := numberBody_token c cs
  have inside := numberBody_le c cs
  cases suffix : (cs.drop (numberBody c cs).2).head?.any isWordStart with
  | true =>
    have word := run_le isWordChar (cs.drop (numberBody c cs).2)
    rw [number_suffixed suffix] at h
    cases h
    rw [List.length_drop] at word
    refine ⟨?_, by omega⟩
    split
    · decide
    · exact body
  | false =>
    rw [number_bare suffix] at h
    cases h
    exact ⟨body, inside⟩

/-- The characters that are brackets, with the kinds of their tokens. -/
def brackets : List (Char × TokenKind) :=
  [('(', .openParen), (')', .closeParen), ('[', .openBracket), (']', .closeBracket),
   ('\x7b', .openBrace), ('\x7d', .closeBrace)]

theorem bracketKind?_mem {c : Char} {k : TokenKind} (h : bracketKind? c = some k) :
    (c, k) ∈ brackets := by
  unfold bracketKind? at h
  split_ifs at h <;> simp_all [brackets]

theorem bracketKind?_of_mem : ∀ x ∈ brackets, bracketKind? x.1 = some x.2 := by
  decide

theorem plain_token {c : Char} {k : TokenKind} (h : plain c cs = ⟨.token k, n⟩) :
    n ≤ cs.length ∧ (k = .punct → n = 0 ∧ isPunctChar c = true) := by
  unfold plain at h
  split at h
  · obtain ⟨kind, le⟩ := number_token h
    exact ⟨le, fun punct => absurd (punct ▸ kind) (by decide)⟩
  split at h
  · cases h
    refine ⟨run_le _ cs, fun punct => ?_⟩
    split at punct <;> cases punct
  split at h
  · rename_i kind bracket
    cases h
    refine ⟨Nat.zero_le _, fun punct => ?_⟩
    subst punct
    simpa [brackets] using bracketKind?_mem bracket
  · split at h
    · rename_i punct
      cases h
      exact ⟨Nat.zero_le _, fun _ => ⟨rfl, punct⟩⟩
    · cases h

/-- The characters of a token are at the front of the text, and only a character of an operator is
punctuation. -/
theorem scan_token_front {c : Char} {k : TokenKind} (h : scan c cs = ⟨.token k, n⟩) :
    n ≤ cs.length ∧ (k = .punct → n = 0 ∧ isPunctChar c = true) := by
  have gap := not_gap_of_token h
  by_cases slash : c = '/'
  · subst slash
    obtain ⟨rfl, rfl, -⟩ := scan_slash_token h
    exact ⟨Nat.zero_le _, fun _ => ⟨rfl, rfl⟩⟩
  rw [scan_solid gap slash] at h
  split at h
  · rename_i raw
    cases h
    refine ⟨?_, fun punct => by cases punct⟩
    cases cs with
    | nil => simp [continuesRawIdentifier] at raw
    | cons d ds =>
      rw [List.length_cons, Nat.add_comm]
      exact Nat.succ_le_succ (run_le _ ds)
  split at h
  · obtain ⟨rfl, le⟩ := stringLiteral_token h
    exact ⟨le, fun punct => by cases punct⟩
  split at h
  · obtain ⟨kind, le⟩ := quoteMark_token h
    exact ⟨le, fun punct => absurd (punct ▸ kind) (by decide)⟩
  cases lettered : letteredLiteral? c cs with
  | none =>
    rw [lettered, Option.getD_none] at h
    exact plain_token h
  | some l =>
    rw [lettered, Option.getD_some] at h
    subst h
    obtain ⟨kind, le⟩ := letteredLiteral?_token lettered
    exact ⟨le, fun punct => absurd (punct ▸ kind) (by decide)⟩

/-- No identifier of a text is spelled like a keyword. -/
theorem scan_identifier {c : Char}
    (h : scan c cs = ⟨.token .identifier, n⟩) : String.ofList (c :: cs.take n) ∉ keywords := by
  have gap := not_gap_of_token h
  by_cases slash : c = '/'
  · subst slash
    cases (scan_slash_token h).1
  rw [scan_solid gap slash] at h
  split at h
  · rename_i raw
    cases h
    -- a raw identifier keeps its `#`
    have plain : ∀ word ∈ keywords, '#' ∉ word.toList := by
      decide
    intro mem
    refine plain _ mem ?_
    obtain ⟨ds, rfl⟩ : ∃ ds, cs = '#' :: ds := by
      cases cs with
      | nil => simp [continuesRawIdentifier] at raw
      | cons d ds =>
        by_cases hash : d = '#'
        · exact ⟨ds, by rw [hash]⟩
        · simp [continuesRawIdentifier, hash] at raw
    rw [String.toList_ofList, Nat.add_comm, List.take_succ_cons]
    exact List.mem_cons_of_mem _ List.mem_cons_self
  split at h
  · cases (stringLiteral_token h).1
  split at h
  · exact absurd (quoteMark_token h).1 (by decide)
  cases lettered : letteredLiteral? c cs with
  | some l =>
    rw [lettered, Option.getD_some] at h
    subst h
    exact absurd (letteredLiteral?_token lettered).1 (by decide)
  | none =>
    rw [lettered, Option.getD_none] at h
    unfold plain at h
    split at h
    · exact absurd (number_token h).1 (by decide)
    split at h
    · obtain ⟨kind, rfl⟩ : (if keywords.contains (String.ofList (c :: cs.take (run isWordChar cs)))
          then TokenKind.keyword else .identifier) = .identifier ∧ run isWordChar cs = n := by
        simpa [word] using h
      intro mem
      rw [if_pos (List.contains_iff_mem.2 mem)] at kind
      cases kind
    split at h
    · rename_i kind bracket
      cases h
      simpa [brackets] using bracketKind?_mem bracket
    · split at h <;> cases h

/-! ## Tokens of one character -/

theorem scan_punct {c : Char} (punct : isPunctChar c = true)
    (apart : c = '/' → ∀ d ∈ cs.head?, d ≠ '/' ∧ d ≠ '*') : scan c cs = ⟨.token .punct, 0⟩ := by
  by_cases slash : c = '/'
  · subst slash
    exact scan_slash (apart rfl)
  · have alone : (punctChars.all fun c => isGapChar c = false ∧ c ≠ 'r' ∧ c ≠ 'b' ∧ c ≠ '"' ∧
        c ≠ '\'' ∧ isDigit c = false ∧ isWordStart c = false ∧ bracketKind? c = none) = true := by
      decide
    obtain ⟨gap, r, b, string, quote, digit, start, bracket⟩ :=
      of_decide_eq_true (List.all_eq_true.1 alone c (List.contains_iff_mem.1 punct))
    rw [scan_solid gap slash, letteredLiteral?_other r b]
    simp [r, string, quote, plain, digit, start, bracket, punct]

theorem scan_bracket {x : Char × TokenKind} (mem : x ∈ brackets) :
    scan x.1 cs = ⟨.token x.2, 0⟩ := by
  have alone : ∀ x ∈ brackets, isGapChar x.1 = false ∧ x.1 ≠ '/' ∧ x.1 ≠ 'r' ∧ x.1 ≠ 'b' ∧
      x.1 ≠ '"' ∧ x.1 ≠ '\'' ∧ isDigit x.1 = false ∧ isWordStart x.1 = false := by
    decide
  obtain ⟨gap, slash, r, b, string, quote, digit, start⟩ := alone x mem
  rw [scan_solid gap slash, letteredLiteral?_other r b]
  simp [r, string, quote, plain, digit, start, bracketKind?_of_mem x mem]

end Lexeme

end TypeGrammar
