import TypeGrammar.Proofs.Rendering

/-!
# Texts on consecutive lines

A token, a blank or a comment of a text is found again if the text goes on after a line feed: in
what the scanner looks for ahead no line feed takes part, and the end of the text is taken alike. So
two texts on consecutive lines have the tokens of the first and then those of the second.
-/

namespace TypeGrammar

open Text

namespace Lexeme

variable {cs rest : List Char} {n : Nat}

/-! ## Tokens of a text that goes on -/

/-- A text that goes on is cut off behind some of its characters. -/
theorem append_eq_cut (n : Nat) (cs rest : List Char) :
    cs ++ rest = cs.take n ++ (cs.drop n ++ rest) := by
  rw [← List.append_assoc, List.take_append_drop]

theorem run_append {p : Char → Bool} (off : ∀ c ∈ rest.head?, p c = false) (cs : List Char) :
    run p (cs ++ rest) = run p cs := by
  have whole := @run_cut cs rest cs.length p (run_le p cs) fun _ => off
  rwa [List.take_length] at whole

/-- A text starts with a character that is no stop if it does before it goes on. -/
theorem head?_append_beq (stop : Stops rest) {d : Char} (other : d ∉ stops) (cs : List Char) :
    ((cs ++ rest).head? == some d) = (cs.head? == some d) := by
  cases cs with
  | nil => simpa using fun first => other (stop d first)
  | cons => rfl

theorem quoteMark_append {k : TokenKind} (stop : Stops rest) (h : quoteMark cs = ⟨.token k, n⟩) :
    quoteMark (cs ++ rest) = ⟨.token k, n⟩ := by
  cases cs with
  | nil => cases h
  | cons c cs =>
    simp only [quoteMark, List.cons_append, bne, head?_append_beq stop (by decide : '\'' ∉ stops)]
      at h ⊢
    split at h
    · rename_i name
      rw [if_pos name, ← List.cons_append, run_append (stop.off isWordChar_stop), h]
    · rename_i quoted
      rw [if_neg quoted, ← List.cons_append, append_eq_cut n, characterLiteral_cut h]

theorem rawString?_eq_none_iff {kind : TokenKind} :
    rawString? kind cs = none ↔ ((cs.drop (run (· == '#') cs)).head? == some '"') = false := by
  unfold rawString?
  dsimp only
  split
  · rename_i start
    simp [start]
  · rename_i other
    refine iff_of_true rfl (beq_eq_false_iff_ne.2 fun first => ?_)
    obtain ⟨body, start⟩ := List.head?_eq_some_iff.1 first
    exact other body start

theorem rawString?_append_none {kind : TokenKind} (stop : Stops rest)
    (h : rawString? kind cs = none) : rawString? kind (cs ++ rest) = none := by
  rw [rawString?_eq_none_iff] at h ⊢
  rwa [run_append (stop.off (by decide)), List.drop_append_of_le_length (run_le _ cs),
    head?_append_beq stop (by decide)]

theorem letteredLiteral?_append_none {c : Char} (stop : Stops rest)
    (h : letteredLiteral? c cs = none) : letteredLiteral? c (cs ++ rest) = none := by
  have starts {d : Char} {ds : List Char} (other : d ∉ stops) (eq : cs ++ rest = d :: ds) :
      ∃ es, cs = d :: es ∧ ds = es ++ rest := by
    cases cs with
    | nil => exact absurd (stop d (by rw [← List.nil_append rest, eq]; rfl)) other
    | cons e es =>
      obtain ⟨rfl, rfl⟩ := List.cons.inj eq
      exact ⟨es, rfl, rfl⟩
  unfold letteredLiteral? at h ⊢
  split
  · rename_i r
    rw [if_pos r] at h
    exact rawString?_append_none stop h
  rename_i r
  rw [if_neg r] at h
  split
  · rename_i b
    rw [if_pos b] at h
    split
    · rename_i eq
      obtain ⟨es, rfl, -⟩ := starts (by decide) eq
      cases h
    · rename_i eq
      obtain ⟨es, rfl, -⟩ := starts (by decide) eq
      cases h
    · rename_i eq
      obtain ⟨es, rfl, rfl⟩ := starts (by decide) eq
      have absent := Option.map_eq_none_iff.1 h
      rw [rawString?_append_none stop absent, Option.map_none]
    · rfl
  · rfl

theorem word_append (c : Char) (stop : Stops rest) (cs : List Char) :
    word c (cs ++ rest) = word c cs := by
  simp only [word, run_append (stop.off isWordChar_stop),
    List.take_append_of_le_length (run_le isWordChar cs)]

theorem head?_append_any {p : Char → Bool} (off : ∀ c ∈ rest.head?, p c = false) (cs : List Char) :
    (cs ++ rest).head?.any p = cs.head?.any p := by
  cases cs with
  | nil => simpa [Option.any_eq_false] using off
  | cons => rfl

theorem number_append (c : Char) (stop : Stops rest) (cs : List Char) :
    number c (cs ++ rest) = number c cs := by
  have body : numberBody c (cs ++ rest) = numberBody c cs := by
    have whole := @numberBody_cut cs rest cs.length c stop (numberBody_le c cs)
    rwa [List.take_length] at whole
  simp only [number, body, List.drop_append_of_le_length (numberBody_le c cs),
    head?_append_any (stop.off isWordStart_stop), run_append (stop.off isWordChar_stop),
    head?_append_beq stop (by decide : 'f' ∉ stops)]

theorem plain_append (c : Char) (stop : Stops rest) (cs : List Char) :
    plain c (cs ++ rest) = plain c cs := by
  simp only [plain, number_append c stop, word_append c stop]

theorem continuesRawIdentifier_append (stop : Stops rest) (cs : List Char) :
    continuesRawIdentifier (cs ++ rest) = continuesRawIdentifier cs := by
  cases cs with
  | nil =>
    cases rest with
    | nil => rfl
    | cons d ds =>
      have other : d ≠ '#' := by
        rintro rfl
        exact absurd (stop _ rfl) (by decide)
      simp [continuesRawIdentifier, other]
  | cons c cs =>
    by_cases hash : c = '#'
    · subst hash
      rw [List.cons_append, continuesRawIdentifier_hash, continuesRawIdentifier_hash,
        head?_append_any (stop.off isWordStart_stop)]
    · simp [continuesRawIdentifier, hash]

/-- A token of a text stays the same if the text goes on with a stop. -/
theorem scan_append {c : Char} {k : TokenKind} (stop : Stops rest)
    (h : scan c cs = ⟨.token k, n⟩) : scan c (cs ++ rest) = ⟨.token k, n⟩ := by
  have gap := not_gap_of_token h
  by_cases slash : c = '/'
  · subst slash
    obtain ⟨rfl, rfl, free⟩ := scan_slash_token h
    refine scan_slash fun d first => ?_
    cases cs with
    | nil =>
      have mem := stop d first
      constructor <;> rintro rfl <;> revert mem <;> decide
    | cons => exact free d first
  rw [scan_solid gap slash] at h ⊢
  rw [continuesRawIdentifier_append stop]
  split at h
  · rename_i raw
    rw [if_pos raw, ← h]
    cases cs with
    | nil => simp [continuesRawIdentifier] at raw
    | cons d cs => rw [List.cons_append, List.tail_cons, run_append (stop.off isWordChar_stop)]; rfl
  rename_i raw
  rw [if_neg raw]
  split at h
  · rename_i string
    rw [if_pos string, append_eq_cut n, stringLiteral_cut h]
  rename_i string
  rw [if_neg string]
  split at h
  · rename_i quote
    rw [if_pos quote, quoteMark_append stop h]
  rename_i quote
  rw [if_neg quote]
  cases lettered : letteredLiteral? c cs with
  | none =>
    rw [lettered, Option.getD_none] at h
    rw [letteredLiteral?_append_none stop lettered, Option.getD_none, plain_append c stop, h]
  | some l =>
    rw [lettered, Option.getD_some] at h
    subst h
    rw [append_eq_cut n, letteredLiteral?_cut lettered, Option.getD_some]

/-! ## Gaps of a text that goes on after a line feed -/

theorem closeComment?_append {depth : Nat} (h : closeComment? depth cs = some n)
    (rest : List Char) :
    closeComment? depth (cs ++ rest) = some n := by
  fun_induction closeComment? depth cs generalizing n with
  | case1 depth cs ih =>
    obtain ⟨m, run, rfl⟩ := Option.map_eq_some_iff.1 h
    simp [closeComment?, ih run]
  | case2 cs =>
    cases h
    rfl
  | case3 depth cs ih =>
    obtain ⟨m, run, rfl⟩ := Option.map_eq_some_iff.1 h
    simp [closeComment?, ih run]
  | case4 depth c cs opens closes closes' ih =>
    obtain ⟨m, run, rfl⟩ := Option.map_eq_some_iff.1 h
    -- a mark at the front would be one of the comment itself, as its last character is not here
    obtain ⟨d, ds, rfl⟩ : ∃ d ds, cs = d :: ds := by
      cases cs with
      | nil => cases run
      | cons d ds => exact ⟨d, ds, rfl⟩
    have inside {e : Char} {es : List Char} (eq : d :: ds ++ rest = e :: es) :
        d :: ds = e :: ds := by
      rw [(List.cons.inj eq).1]
    rw [List.cons_append, closeComment?, ih run, Option.map_some]
    · exact fun _ slash eq => opens ds slash (inside eq)
    · exact fun _ zero star eq => closes ds zero star (inside eq)
    · exact fun depth' _ succ star eq => closes' depth' ds succ star (inside eq)
  | case5 => cases h

theorem closeComment?_le {depth : Nat} (h : closeComment? depth cs = some n) : n ≤ cs.length := by
  fun_induction closeComment? depth cs generalizing n with
  | case1 depth cs ih | case3 depth cs ih | case4 depth c cs opens closes closes' ih =>
    obtain ⟨m, run, rfl⟩ := Option.map_eq_some_iff.1 h
    have := ih run
    simp only [List.length_cons]
    omega
  | case2 =>
    cases h
    exact Nat.le_add_left 2 _
  | case5 => cases h

/-- A gap is at the front of the text, and it stays the same if the text goes on in the next line.
-/
theorem scan_gap_front {c : Char} (h : scan c cs = ⟨.gap, n⟩) :
    n ≤ cs.length ∧ ∀ rest, scan c (cs ++ '\n' :: rest) = ⟨.gap, n⟩ := by
  have starts {d : Char} {body : List Char} (eq : cs.take n = d :: body) : ∃ ds, cs = d :: ds := by
    have whole := List.take_append_drop n cs
    rw [eq] at whole
    exact ⟨_, whole.symm⟩
  cases h ▸ scan_first c cs with
  | blank blank => exact ⟨Nat.zero_le _, fun rest => by simp [scan, blank]⟩
  | line slash eq =>
    subst slash
    obtain ⟨ds, rfl⟩ := starts eq
    have comment (ds : List Char) : scan '/' ('/' :: ds) = ⟨.gap, run (· != '\n') ('/' :: ds)⟩ :=
      rfl
    rw [comment] at h
    cases h
    refine ⟨run_le _ _, fun rest => ?_⟩
    rw [List.cons_append, comment, ← List.cons_append, run_append (by simp)]
  | block slash eq =>
    subst slash
    obtain ⟨ds, rfl⟩ := starts eq
    have comment (ds : List Char) : scan '/' ('*' :: ds) = (blockComment ds).after 1 := rfl
    rw [comment] at h
    obtain ⟨m, gap, rfl⟩ := after_eq h
    unfold blockComment at gap
    split at gap
    · rename_i k closed
      cases gap
      refine ⟨Nat.succ_le_succ (closeComment?_le closed), fun rest => ?_⟩
      simp [comment, blockComment, closeComment?_append closed, Lexeme.after, Nat.add_comm]
    · cases gap
  | solid solid => exact solid.elim

/-- A lexeme that is no fault is at the front of the text, and it stays the same if the text goes on
in the next line. -/
theorem scan_front {c : Char} (quiet : ∀ cause, (scan c cs).sort ≠ .fault cause) :
    (scan c cs).extra ≤ cs.length ∧ ∀ rest, scan c (cs ++ '\n' :: rest) = scan c cs := by
  cases scanned : scan c cs with
  | mk sort n =>
  cases sort with
  | gap => exact scan_gap_front scanned
  | token kind =>
    exact ⟨(scan_token_front scanned).1, fun rest => scan_append (.cons (by decide) rest) scanned⟩
  | fault cause => exact absurd (by rw [scanned]) (quiet cause)

end Lexeme

/-! ## Pieces -/

/-- A bound that is no less than the length of the text does not matter. -/
theorem piecesUpTo_eq {limit : Nat} {cs : List Char} (enough : cs.length ≤ limit) :
    piecesUpTo limit cs = pieces cs := by
  suffices same : ∀ {limit limit' : Nat} {cs : List Char}, cs.length ≤ limit → cs.length ≤ limit' →
      piecesUpTo limit cs = piecesUpTo limit' cs from same enough (Nat.le_refl _)
  intro limit
  induction limit with
  | zero =>
    intro limit' cs enough _
    obtain rfl := List.length_eq_zero_iff.1 (Nat.le_zero.1 enough)
    cases limit' <;> rfl
  | succ limit ih =>
    intro limit' cs enough enough'
    cases cs with
    | nil => cases limit' <;> rfl
    | cons c cs =>
      obtain ⟨limit', rfl⟩ := Nat.exists_eq_add_of_le' (Nat.le_trans (Nat.le_add_left 1 _) enough')
      rw [piecesUpTo, piecesUpTo, ih]
      · simp only [List.length_cons, List.length_drop] at enough ⊢
        omega
      · simp only [List.length_cons, List.length_drop] at enough' ⊢
        omega

theorem pieces_cons (c : Char) (cs : List Char) :
    pieces (c :: cs) =
      ⟨c :: cs.take (Lexeme.scan c cs).extra, (Lexeme.scan c cs).sort,
        (cs.drop (Lexeme.scan c cs).extra).head?⟩ :: pieces (cs.drop (Lexeme.scan c cs).extra) := by
  have short : (cs.drop (Lexeme.scan c cs).extra).length ≤ cs.length := by
    rw [List.length_drop]
    exact Nat.sub_le _ _
  rw [← piecesUpTo_eq short]
  rfl

/-- A piece that is no fault. -/
def Piece.Quiet (x : Piece) : Prop :=
  ∀ cause, x.sort ≠ .fault cause

/-- Whether a text has faults does not depend on where it stands. -/
theorem faultsAt_eq_nil {file : String} {p : Place} {xs : List Piece} :
    faultsAt file p xs = [] ↔ ∀ x ∈ xs, x.Quiet := by
  induction xs generalizing p with
  | nil => exact ⟨fun _ _ mem => absurd mem List.not_mem_nil, fun _ => rfl⟩
  | cons x xs ih =>
    rw [faultsAt_cons, List.append_eq_nil_iff, ih, List.forall_mem_cons]
    refine and_congr_left fun _ => ?_
    cases sort : x.sort <;> simp [Piece.fault?, Piece.Quiet, sort]

/-- A text has tokens exactly if no piece of it is faulty. -/
theorem lex_eq_ok {source file : String} {line : Int} {tokens : List Token} :
    lex source file line = .ok tokens ↔ (∀ x ∈ pieces source.toList, x.Quiet) ∧
      tokens = tokensAt file ⟨line, 1⟩ (pieces source.toList) ++
        [⟨.eof, "", ((⟨line, 1⟩ : Place).after source.toList).spanOf file [], false⟩] := by
  rw [← @faultsAt_eq_nil file ⟨line, 1⟩]
  unfold lex
  dsimp only
  split
  · rename_i quiet
    rw [Except.ok.injEq]
    exact ⟨fun eq => ⟨quiet, eq.symm⟩, fun eq => eq.2.symm⟩
  · rename_i loud
    exact ⟨nofun, fun eq => absurd eq.1 loud⟩

/-- A property of all texts can be shown lexeme by lexeme. -/
theorem lexeme_induction {motive : List Char → Prop} (nil : motive [])
    (cons : ∀ c cs, motive (cs.drop (Lexeme.scan c cs).extra) → motive (c :: cs)) (cs : List Char) :
    motive cs := by
  induction len : cs.length using Nat.strong_induction_on generalizing cs with
  | h n ih =>
    cases cs with
    | nil => exact nil
    | cons c cs =>
      refine cons c cs (ih _ ?_ _ rfl)
      rw [← len, List.length_cons, List.length_drop]
      omega

/-- If a text without faults goes on in the next line, its pieces stay the same, but for what comes
after the last one; a piece for the line feed and those of the rest follow. -/
theorem pieces_append {cs : List Char} (quiet : ∀ x ∈ pieces cs, x.Quiet) (rest : List Char)
    (file : String) (p : Place) :
    ((∀ x ∈ pieces (cs ++ '\n' :: rest), x.Quiet) ↔ ∀ x ∈ pieces rest, x.Quiet) ∧
      tokensAt file p (pieces (cs ++ '\n' :: rest)) =
        tokensAt file p (pieces cs) ++ tokensAt file ((p.after cs).next '\n') (pieces rest) := by
  induction cs using lexeme_induction generalizing p with
  | nil =>
    have feed : Lexeme.scan '\n' rest = ⟨.gap, 0⟩ := rfl
    rw [List.nil_append, pieces_cons, feed, List.forall_mem_cons, tokensAt_cons]
    exact ⟨and_iff_right (fun _ => nofun), rfl⟩
  | cons c cs ih =>
    rw [pieces_cons, List.forall_mem_cons] at quiet
    obtain ⟨here, later⟩ := quiet
    obtain ⟨inside, same⟩ := Lexeme.scan_front here
    have text : (cs ++ '\n' :: rest).take (Lexeme.scan c cs).extra =
        cs.take (Lexeme.scan c cs).extra := List.take_append_of_le_length inside
    have more : (cs ++ '\n' :: rest).drop (Lexeme.scan c cs).extra =
        cs.drop (Lexeme.scan c cs).extra ++ '\n' :: rest := List.drop_append_of_le_length inside
    have place : (p.after (c :: cs.take (Lexeme.scan c cs).extra)).after
        (cs.drop (Lexeme.scan c cs).extra) = p.after (c :: cs) := by
      rw [← Place.after_append, List.cons_append, List.take_append_drop]
    -- only the character after the piece may be another one, and it is no punctuation then
    have joint : ((cs.drop (Lexeme.scan c cs).extra ++ '\n' :: rest).head?.any isPunctChar) =
        (cs.drop (Lexeme.scan c cs).extra).head?.any isPunctChar :=
      Lexeme.head?_append_any (fun c first => by cases first; decide) _
    obtain ⟨quiet, tokens⟩ := ih later (p.after (c :: cs.take (Lexeme.scan c cs).extra))
    rw [List.cons_append, pieces_cons, pieces_cons, same, text, more, List.forall_mem_cons,
      tokensAt_cons, tokensAt_cons, tokens, place, List.append_assoc]
    refine ⟨(and_iff_right here).trans quiet, congrArg (· ++ _) (congrArg Option.toList ?_)⟩
    simp only [Piece.token?, joint]

/-- Two texts that have tokens have them also on consecutive lines: those of the first text without
its end marker, and then those of the second text, which starts in the line after the first one. -/
theorem lex_append {a b : String} {fileA fileB : String} {lineA lineB : Int}
    {tokensA tokensB : List Token} (first : lex a fileA lineA = .ok tokensA)
    (second : lex b fileB lineB = .ok tokensB) (file : String) (line : Int) :
    ∃ marks last more, lex a file line = .ok (marks ++ [last]) ∧ last.kind = .eof ∧
      (∀ t ∈ marks, t.kind ≠ .eof) ∧
      lex b file (line + 1 + a.toList.count '\n') = .ok more ∧
      lex (a ++ "\n" ++ b) file line = .ok (marks ++ more) := by
  obtain ⟨quietA, -⟩ := lex_eq_ok.1 first
  obtain ⟨quietB, -⟩ := lex_eq_ok.1 second
  obtain ⟨quiet, tokens⟩ := pieces_append quietA b.toList file ⟨line, 1⟩
  have text : (a ++ "\n" ++ b).toList = a.toList ++ '\n' :: b.toList := by
    simp [String.toList_append]
  have place : ((⟨line, 1⟩ : Place).after a.toList).next '\n' =
      ⟨line + 1 + a.toList.count '\n', 1⟩ := by
    rw [Place.after_eq, Place.next, if_pos rfl, lineAfter, Int.add_right_comm]
  have ends : (⟨line, 1⟩ : Place).after (a.toList ++ '\n' :: b.toList) =
      (⟨line + 1 + a.toList.count '\n', 1⟩ : Place).after b.toList := by
    rw [Place.after_append, ← place]
    rfl
  refine ⟨_, _, _, lex_eq_ok.2 ⟨quietA, rfl⟩, rfl, tokensAt_known _ _ _ _,
    lex_eq_ok.2 ⟨quietB, rfl⟩, lex_eq_ok.2 ?_⟩
  rw [text, tokens, place, ends, List.append_assoc]
  exact ⟨quiet.2 quietB, rfl⟩

/-- A text that ends in an operator, a comment and a word like the start of a raw string, and a text
that starts with a string. -/
theorem lex_append_string :
    ∃ tokensA tokensB, lex "a:\n/**/r#" "f" 3 = .ok tokensA ∧ lex "\"p\nq\":" "g" 1 = .ok tokensB ∧
      ∃ marks last more, lex "a:\n/**/r#" "f" 3 = .ok (marks ++ [last]) ∧ last.kind = .eof ∧
        (∀ t ∈ marks, t.kind ≠ .eof) ∧
        lex "\"p\nq\":" "f" (3 + 1 + "a:\n/**/r#".toList.count '\n') = .ok more ∧
        lex ("a:\n/**/r#" ++ "\n" ++ "\"p\nq\":") "f" 3 = .ok (marks ++ more) := by
  have first : lex "a:\n/**/r#" "f" 3 = .ok
      [⟨.identifier, "a", ⟨"f", 3, 1, 3, 1⟩, false⟩, ⟨.punct, ":", ⟨"f", 3, 2, 3, 2⟩, false⟩,
        ⟨.identifier, "r", ⟨"f", 4, 5, 4, 5⟩, false⟩, ⟨.punct, "#", ⟨"f", 4, 6, 4, 6⟩, false⟩,
        ⟨.eof, "", ⟨"f", 4, 7, 4, 6⟩, false⟩] := rfl
  have second : lex "\"p\nq\":" "g" 1 = .ok
      [⟨.string, "\"p\nq\"", ⟨"g", 1, 1, 2, 2⟩, false⟩, ⟨.punct, ":", ⟨"g", 2, 3, 2, 3⟩, false⟩,
        ⟨.eof, "", ⟨"g", 2, 4, 2, 3⟩, false⟩] := rfl
  exact ⟨_, _, first, second, lex_append first second "f" 3⟩

end TypeGrammar
