import TypeGrammar.Proofs.Seams
import TypeGrammar.Token.Walk

/-!
# A walk takes comments, strings and characters

A walk that starts at a lexeme of a text takes the characters of the lexeme, up to where the scanner
finds its end, and goes no further: a step is taken only where a character is left, and a loop is
over in fewer rounds than the text has characters. What is peeked at past the end of the text is
taken for the end, as the character with the code zero has no part in any lexeme.
-/

namespace TypeGrammar

open Text

namespace Walk

/-! ## Runs -/

section Runs

variable {α β : Type} {s s' : State}

theorem bind_of_ok {w : Walk α} {a : α} (h : w s = .ok a s') (f : α → Walk β) :
    (w >>= f) s = f a s' := by
  change EStateM.bind w f s = f a s'
  simp only [EStateM.bind, h]

theorem get_bind (f : State → Walk β) : (get >>= f) s = f s s :=
  rfl

theorem discard_of_ok {w : Walk α} {a : α} (h : w s = .ok a s') : discard w s = .ok () s' := by
  change EStateM.map _ w s = _
  simp only [EStateM.map, h]

end Runs

namespace State

/-- The text that is left. -/
def ahead (s : State) : List Char :=
  s.source.drop s.pos

/-- The state after `n` more characters. -/
def forward (s : State) (n : Nat) : State :=
  { s with pos := s.pos + n, place := s.place.after (s.ahead.take n) }

variable {s : State}

theorem ahead_forward (s : State) (n : Nat) : (s.forward n).ahead = s.ahead.drop n := by
  rw [ahead, ahead, List.drop_drop]
  rfl

theorem forward_zero (s : State) : s.forward 0 = s :=
  rfl

theorem forward_forward (s : State) (m n : Nat) : (s.forward m).forward n = s.forward (m + n) := by
  have place : ((s.forward m).place.after ((s.forward m).ahead.take n)) =
      s.place.after (s.ahead.take (m + n)) := by
    rw [ahead_forward, List.take_add, Place.after_append]
    rfl
  simp only [forward] at place ⊢
  rw [Nat.add_assoc, place]

theorem atEnd_eq (s : State) : s.atEnd = s.ahead.isEmpty := by
  rw [atEnd, ahead, Bool.eq_iff_iff, decide_eq_true_eq, List.isEmpty_iff, List.drop_eq_nil_iff]

theorem peek_eq (s : State) (n : Nat) : s.peek n = (s.ahead.drop n).head?.getD '\x00' := by
  rw [peek, ahead, List.drop_drop, List.head?_drop, List.getD_eq_getElem?_getD]

/-- What does not hold of the character with the code zero tells nothing of the end of the text. -/
theorem peek_any {p : Char → Bool} (off : p '\x00' = false) (s : State) (n : Nat) :
    p (s.peek n) = (s.ahead.drop n).head?.any p := by
  rw [peek_eq]
  cases (s.ahead.drop n).head? with
  | none => exact off
  | some c => rfl

theorem peek_isDigit (s : State) (n : Nat) :
    isDigit (s.peek n) = (s.ahead.drop n).head?.any isDigit :=
  peek_any (by decide +kernel) s n

theorem peek_isWordStart (s : State) (n : Nat) :
    isWordStart (s.peek n) = (s.ahead.drop n).head?.any isWordStart :=
  peek_any (by decide +kernel) s n

theorem peek_isPunctChar (s : State) (n : Nat) :
    isPunctChar (s.peek n) = (s.ahead.drop n).head?.any isPunctChar :=
  peek_any (by decide) s n

theorem peek_exponentMark (s : State) (n : Nat) :
    (s.peek n == 'e' || s.peek n == 'E') = (s.ahead.drop n).head?.any Lexeme.isExponentMark :=
  peek_any (p := Lexeme.isExponentMark) (by decide) s n

theorem peek_exponentSign (s : State) (n : Nat) :
    (s.peek n == '+' || s.peek n == '-') = (s.ahead.drop n).head?.any Lexeme.isExponentSign :=
  peek_any (p := Lexeme.isExponentSign) (by decide) s n

theorem peek_baseMark (s : State) (n : Nat) :
    (s.peek n == 'x' || s.peek n == 'o' || s.peek n == 'b') =
      (s.ahead.drop n).head?.any Lexeme.isBaseMark :=
  peek_any (p := Lexeme.isBaseMark) (by decide) s n

theorem peek_beq {d : Char} (other : d ≠ '\x00') (s : State) (n : Nat) :
    (s.peek n == d) = ((s.ahead.drop n).head? == some d) := by
  rw [peek_eq]
  cases (s.ahead.drop n).head? with
  | none => simpa using Ne.symm other
  | some c => rfl

end State

/-! ## Steps -/

variable {α : Type} {s : State} {c : Char} {cs : List Char}

theorem current_eq (h : s.ahead = c :: cs) : current s = .ok c s := by
  have next : s.source[s.pos]? = some c := by
    rw [← List.head?_drop]
    exact congrArg List.head? h
  rw [current, get_bind, next]
  rfl

theorem advance_eq (h : s.ahead = c :: cs) : advance s = .ok c (s.forward 1) := by
  rw [advance, bind_of_ok (current_eq h)]
  have text : s.ahead.take 1 = [c] := by rw [h]; rfl
  simp only [State.forward, text]
  rfl

theorem discard_advance (h : s.ahead = c :: cs) (f : PUnit → Walk α) :
    (discard advance >>= f) s = f () (s.forward 1) :=
  bind_of_ok (discard_of_ok (advance_eq h)) f

/-- Runs of characters are stepped over in fewer rounds than the text has characters. -/
theorem skipUpTo_eq {p : Char → Bool} {limit : Nat} (enough : s.ahead.length < limit) :
    skipUpTo p limit s = .ok () (s.forward (Lexeme.run p s.ahead)) := by
  induction limit generalizing s with
  | zero => exact absurd enough (Nat.not_lt_zero _)
  | succ limit ih =>
    rw [skipUpTo, get_bind]
    cases left : s.ahead with
    | nil =>
      have ends : s.atEnd = true := by rw [State.atEnd_eq, left]; rfl
      rw [ends]
      rfl
    | cons c cs =>
      have goesOn : s.atEnd = false := by rw [State.atEnd_eq, left]; rfl
      have next : s.peek 0 = c := by rw [State.peek_eq, left]; rfl
      rw [goesOn, next, Bool.not_false, Bool.true_and]
      by_cases goes : p c = true
      · have short : (s.forward 1).ahead.length < limit := by
          rw [State.ahead_forward, left]
          simpa [left] using enough
        rw [if_pos goes, discard_advance left, ih short, State.ahead_forward, left,
          State.forward_forward, Nat.add_comm]
        simp [Lexeme.run, goes]
      · rw [if_neg goes]
        simp [Lexeme.run, goes, State.forward_zero]
        rfl

theorem ahead_lt_limit (s : State) (n : Nat) : (s.forward n).ahead.length < s.limit := by
  rw [State.ahead_forward, State.ahead, List.length_drop, List.length_drop, State.limit]
  omega

theorem skip_eq (p : Char → Bool) (s : State) :
    skip p s = .ok () (s.forward (Lexeme.run p s.ahead)) := by
  rw [skip, get_bind]
  exact skipUpTo_eq (ahead_lt_limit s 0)

/-! ## Tokens and faults -/

namespace State

/-- The state after a lexeme. -/
def took (s : State) (l : Lexeme) : State :=
  let x : Piece := ⟨s.ahead.take (l.extra + 1), l.sort, (s.ahead.drop (l.extra + 1)).head?⟩
  { s.forward (l.extra + 1) with
    tokens := s.tokens ++ (x.token? s.file s.place).toList
    diagnostics := s.diagnostics ++ (x.fault? s.file s.place).toList }

theorem took_gap (s : State) (n : Nat) : s.took ⟨.gap, n⟩ = s.forward (n + 1) := by
  simp [took, Piece.token?, Piece.fault?, forward]

end State

theorem State.textFrom_forward (s : State) (n : Nat) :
    (s.forward n).textFrom s = s.ahead.take n := by
  rw [textFrom, List.drop_take]
  simp [forward, ahead]

theorem emit_forward (kind : TokenKind) (joint : Bool) (s : State) (n : Nat) :
    emit kind s joint (s.forward n) = .ok () { s.forward n with
      tokens := s.tokens ++ [⟨kind, String.ofList (s.ahead.take n),
        s.place.spanOf s.file (s.ahead.take n), joint⟩] } := by
  change EStateM.Result.ok () _ = _
  simp only [State.textFrom_forward]
  rfl

theorem emit_took {kind : TokenKind} (other : kind ≠ .punct) (s : State) (n : Nat) :
    emit kind s false (s.forward (n + 1)) = .ok () (s.took ⟨.token kind, n⟩) := by
  rw [emit_forward]
  simp [State.took, Piece.token?, Piece.fault?, beq_eq_false_iff_ne.2 other, State.forward]

theorem report_eq (cause : LexicalFault) (start s : State) :
    report cause start s = .ok () { s with
      diagnostics := s.diagnostics ++ [⟨"E100", cause.message, [⟨⟨s.file, start.place.line,
        start.place.col, start.place.line, start.place.col⟩, ""⟩], []⟩] } :=
  rfl

theorem report_took (cause : LexicalFault) (s : State) (n : Nat) :
    report cause s (s.forward (n + 1)) = .ok () (s.took ⟨.fault cause, n⟩) := by
  rw [report_eq]
  simp [State.took, Piece.token?, Piece.fault?, State.forward]

/-! ## Comments and literals that have to be closed -/

/-- A lexeme that ends where it is closed, or else is a fault up to the end of the text. -/
def upToClose (sort : LexemeSort) (cause : LexicalFault) (close : Option Nat)
    (length : Nat) : Lexeme :=
  match close with
  | some n => ⟨sort, n⟩
  | none => ⟨.fault cause, length⟩

theorem upToClose_map (sort : LexemeSort) (cause : LexicalFault) (close : Option Nat)
    (length m k : Nat) :
    (upToClose sort cause (close.map (· + m)) (length + m)).after k =
      (upToClose sort cause close length).after (k + m) := by
  cases close <;> simp [upToClose, Lexeme.after, Nat.add_comm, Nat.add_left_comm]

/-- A walk is at the text `cs`, and this is `k + 1` characters behind the state `start`. -/
structure At (start : State) (k : Nat) (cs : List Char) (s : State) : Prop where
  state : s = start.forward (k + 1)
  ahead : start.ahead.drop (k + 1) = cs

namespace At

variable {start : State} {k : Nat}

theorem first (h : s.ahead = c :: cs) : At s 0 cs (s.forward 1) where
  state := rfl
  ahead := by rw [h]; rfl

theorem ahead_eq (h : At start k cs s) : s.ahead = cs := by
  rw [h.state, State.ahead_forward, h.ahead]

theorem atEnd_nil (h : At start k [] s) : s.atEnd = true := by
  rw [State.atEnd_eq, h.ahead_eq]
  rfl

theorem atEnd_cons (h : At start k (c :: cs) s) : s.atEnd = false := by
  rw [State.atEnd_eq, h.ahead_eq]
  rfl

theorem forward (h : At start k cs s) (n : Nat) : At start (k + n) (cs.drop n) (s.forward n) where
  state := by rw [h.state, State.forward_forward, Nat.add_right_comm]
  ahead := by rw [Nat.add_right_comm, ← List.drop_drop, h.ahead]

theorem next (h : At start k (c :: cs) s) : At start (k + 1) cs (s.forward 1) :=
  h.forward 1

theorem lt_limit (h : At start k cs s) : cs.length < start.limit := by
  rw [← h.ahead, ← State.ahead_forward]
  exact ahead_lt_limit start (k + 1)

theorem advance (h : At start k (c :: cs) s) : Walk.advance s = .ok c (s.forward 1) :=
  advance_eq h.ahead_eq

theorem discard_advance (h : At start k (c :: cs) s) (f : PUnit → Walk α) :
    (discard Walk.advance >>= f) s = f () (s.forward 1) :=
  Walk.discard_advance h.ahead_eq f

theorem peek_beq (h : At start k cs s) {d : Char} (other : d ≠ '\x00') (n : Nat) :
    (s.peek n == d) = ((cs.drop n).head? == some d) := by
  rw [State.peek_beq other, h.ahead_eq]

end At

variable {start : State} {k limit : Nat}

/-- A round in a comment that goes on. -/
theorem commentUpTo_cons (h : At start k (c :: cs) s) (limit depth : Nat) :
    commentUpTo start (limit + 1) depth s =
      (if c == '/' && cs.head? == some '*' then do
        discard advance
        discard advance
        commentUpTo start limit (depth + 1)
      else if c == '*' && cs.head? == some '/' then do
        discard advance
        discard advance
        if depth - 1 == 0 then return else commentUpTo start limit (depth - 1)
      else do
        discard advance
        commentUpTo start limit depth : Walk Unit) s := by
  rw [commentUpTo, get_bind, h.atEnd_cons, if_neg Bool.false_ne_true]
  simp only [h.peek_beq (show '/' ≠ '\x00' by decide), h.peek_beq (show '*' ≠ '\x00' by decide)]
  rfl

theorem commentUpTo_eq {depth : Nat} (h : At start k cs s) (enough : cs.length < limit) :
    commentUpTo start limit (depth + 1) s = .ok ()
      (start.took ((upToClose .gap .unterminatedComment
        (Lexeme.closeComment? depth cs) cs.length).after k)) := by
  -- A round of the walk is a call of the search for the end, which takes a mark's two characters at
  -- once: so the depth is the same in both, and fewer rounds are left than characters.
  fun_induction Lexeme.closeComment? depth cs generalizing k limit s with
  | case1 depth cs ih =>
    obtain ⟨limit, rfl⟩ := Nat.exists_eq_add_one.2 (Nat.zero_lt_of_lt enough)
    rw [commentUpTo_cons h, if_pos (by rfl), h.discard_advance, h.next.discard_advance,
      List.length_cons, List.length_cons, upToClose_map _ _ _ _ 2,
      ih h.next.next (by simp only [List.length_cons] at enough; omega)]
  | case2 cs =>
    obtain ⟨limit, rfl⟩ := Nat.exists_eq_add_one.2 (Nat.zero_lt_of_lt enough)
    rw [commentUpTo_cons h, if_neg (by simp), if_pos (by rfl), h.discard_advance,
      h.next.discard_advance, if_pos (by rfl), h.next.next.state]
    exact congrArg (EStateM.Result.ok ()) (State.took_gap _ _).symm
  | case3 depth cs ih =>
    obtain ⟨limit, rfl⟩ := Nat.exists_eq_add_one.2 (Nat.zero_lt_of_lt enough)
    rw [commentUpTo_cons h, if_neg (by simp), if_pos (by rfl), h.discard_advance,
      h.next.discard_advance, if_neg (by simp), Nat.add_sub_cancel, List.length_cons,
      List.length_cons, upToClose_map _ _ _ _ 2,
      ih h.next.next (by simp only [List.length_cons] at enough; omega)]
  | case4 depth c cs opens closes closes' ih =>
    obtain ⟨limit, rfl⟩ := Nat.exists_eq_add_one.2 (Nat.zero_lt_of_lt enough)
    have noOpening : ¬ (c == '/' && cs.head? == some '*') = true := by
      simp only [Bool.and_eq_true, beq_iff_eq, List.head?_eq_some_iff, not_and, not_exists]
      exact fun slash ds star => opens ds slash star
    have noClosing : ¬ (c == '*' && cs.head? == some '/') = true := by
      simp only [Bool.and_eq_true, beq_iff_eq, List.head?_eq_some_iff, not_and, not_exists]
      intro star ds slash
      cases depth with
      | zero => exact closes ds rfl star slash
      | succ depth => exact closes' depth ds rfl star slash
    rw [commentUpTo_cons h, if_neg noOpening, if_neg noClosing, h.discard_advance,
      List.length_cons, upToClose_map _ _ _ _ 1, ih h.next (Nat.lt_of_succ_lt_succ enough)]
  | case5 depth =>
    obtain ⟨limit, rfl⟩ := Nat.exists_eq_add_one.2 (Nat.zero_lt_of_lt enough)
    rw [commentUpTo, get_bind, h.atEnd_nil, if_pos rfl, h.state]
    exact report_took _ _ _

theorem blockComment_eq (h : s.ahead = '/' :: '*' :: cs) :
    blockComment s = .ok () (s.took ((Lexeme.blockComment cs).after 1)) := by
  have opened := (At.first h).next
  rw [blockComment, get_bind, discard_advance h, (At.first h).discard_advance]
  exact commentUpTo_eq opened opened.lt_limit

/-! ## Strings -/

/-- A round in a string that goes on. -/
theorem stringUpTo_cons {kind : TokenKind} (h : At start k (c :: cs) s) (limit : Nat) :
    stringUpTo start kind (limit + 1) s =
      (if c == '\\' && !cs.isEmpty then do
        discard advance
        stringUpTo start kind limit
      else if c == '"' then emit kind start false
      else stringUpTo start kind limit : Walk Unit) (s.forward 1) := by
  rw [stringUpTo, get_bind, h.atEnd_cons, if_neg Bool.false_ne_true, bind_of_ok h.advance, get_bind,
    State.atEnd_eq, h.next.ahead_eq]

theorem stringUpTo_eq {kind : TokenKind} (other : kind ≠ .punct) (h : At start k cs s)
    (enough : cs.length < limit) :
    stringUpTo start kind limit s = .ok ()
      (start.took ((Lexeme.stringLiteral kind cs).after k)) := by
  change _ = EStateM.Result.ok () (start.took ((upToClose (.token kind) .unterminatedString
    (Lexeme.closeString? cs) cs.length).after k))
  fun_induction Lexeme.closeString? cs generalizing k limit s with
  | case1 c cs ih =>
    obtain ⟨limit, rfl⟩ := Nat.exists_eq_add_one.2 (Nat.zero_lt_of_lt enough)
    rw [stringUpTo_cons h, if_pos (by rfl), h.next.discard_advance, List.length_cons,
      List.length_cons, upToClose_map _ _ _ _ 2,
      ih h.next.next (by simp only [List.length_cons] at enough; omega)]
  | case2 cs =>
    obtain ⟨limit, rfl⟩ := Nat.exists_eq_add_one.2 (Nat.zero_lt_of_lt enough)
    rw [stringUpTo_cons h, if_neg (by simp), if_pos (by rfl), h.next.state]
    exact emit_took other _ _
  | case3 c cs escape quote ih =>
    obtain ⟨limit, rfl⟩ := Nat.exists_eq_add_one.2 (Nat.zero_lt_of_lt enough)
    -- A backslash that is the last character of the text escapes nothing.
    have noEscape : ¬ (c == '\\' && !cs.isEmpty) = true := by
      cases cs with
      | nil => simp
      | cons d ds => simpa using escape d ds
    rw [stringUpTo_cons h, if_neg noEscape, if_neg (by simpa using quote),
      List.length_cons, upToClose_map _ _ _ _ 1, ih h.next (Nat.lt_of_succ_lt_succ enough)]
  | case4 =>
    obtain ⟨limit, rfl⟩ := Nat.exists_eq_add_one.2 (Nat.zero_lt_of_lt enough)
    rw [stringUpTo, get_bind, h.atEnd_nil, if_pos rfl, h.state]
    exact report_took _ _ _

theorem stringLiteral_eq {kind : TokenKind} (other : kind ≠ .punct) (more : s.ahead = c :: cs)
    (h : At start k cs (s.forward 1)) : stringLiteral start kind s =
      .ok () (start.took ((Lexeme.stringLiteral kind cs).after k)) := by
  rw [stringLiteral, discard_advance more]
  exact stringUpTo_eq other h h.lt_limit

/-! ## Raw strings -/

/-- True if hash marks, or none, are followed by a quote. -/
def opensRawString (cs : List Char) : Bool :=
  (cs.drop (Lexeme.run (· == '#') cs)).head? == some '"'

theorem rawStringFollowsUpTo_eq {offset : Nat} (enough : (s.ahead.drop offset).length < limit) :
    rawStringFollowsUpTo limit offset s = .ok (opensRawString (s.ahead.drop offset)) s := by
  induction limit generalizing offset with
  | zero => exact absurd enough (Nat.not_lt_zero _)
  | succ limit ih =>
    rw [rawStringFollowsUpTo, get_bind, State.peek_beq (by decide), State.peek_beq (by decide)]
    cases more : s.ahead.drop offset with
    | nil => rfl
    | cons c cs =>
      have later : s.ahead.drop (offset + 1) = cs := by rw [← List.drop_drop, more]; rfl
      by_cases hash : c = '#'
      · subst hash
        rw [if_pos (by rfl), ih (by rw [later]; simpa [more] using enough), later]
        simp [opensRawString, Lexeme.run]
      · rw [if_neg (by simpa using hash)]
        simp [opensRawString, Lexeme.run, hash]
        rfl

theorem rawStringFollows_eq (s : State) (offset : Nat) :
    rawStringFollows offset s = .ok (opensRawString (s.ahead.drop offset)) s := by
  rw [rawStringFollows, get_bind]
  have enough := ahead_lt_limit s offset
  rw [State.ahead_forward] at enough
  exact rawStringFollowsUpTo_eq enough

theorem hashMarksUpTo_eq {count : Nat} (enough : s.ahead.length < limit) :
    hashMarksUpTo limit count s =
      .ok (count + Lexeme.run (· == '#') s.ahead) (s.forward (Lexeme.run (· == '#') s.ahead)) := by
  induction limit generalizing s count with
  | zero => exact absurd enough (Nat.not_lt_zero _)
  | succ limit ih =>
    rw [hashMarksUpTo, get_bind, State.peek_beq (by decide)]
    cases left : s.ahead with
    | nil => rfl
    | cons c cs =>
      by_cases hash : c = '#'
      · subst hash
        have short : (s.forward 1).ahead.length < limit := by
          rw [State.ahead_forward, left]
          simpa [left] using enough
        have more : Lexeme.run (· == '#') ('#' :: cs) = 1 + Lexeme.run (· == '#') cs := by
          simp [Lexeme.run, Nat.add_comm]
        rw [if_pos (by rfl), discard_advance left, ih short, State.ahead_forward, left,
          List.drop_one, List.tail_cons, State.forward_forward, more, Nat.add_assoc]
      · rw [if_neg (by simpa using hash)]
        simp [Lexeme.run, hash, State.forward_zero]
        rfl

theorem advanceBy_eq {n : Nat} (inside : n ≤ s.ahead.length) :
    advanceBy n s = .ok () (s.forward n) := by
  induction n generalizing s with
  | zero => rfl
  | succ n ih =>
    obtain ⟨c, cs, more⟩ := List.exists_cons_of_length_pos (Nat.zero_lt_of_lt inside)
    rw [advanceBy, discard_advance more, ih, State.forward_forward, Nat.add_comm]
    rw [State.ahead_forward, List.length_drop]
    omega

theorem replicate_isPrefixOf (c : Char) (n : Nat) (cs : List Char) :
    (List.replicate n c).isPrefixOf cs = decide (n ≤ Lexeme.run (· == c) cs) := by
  induction n generalizing cs with
  | zero => simp
  | succ n ih =>
    cases cs with
    | nil => rfl
    | cons d ds =>
      rw [List.replicate_succ, List.isPrefixOf, ih, Bool.eq_iff_iff, Bool.and_eq_true,
        decide_eq_true_iff, decide_eq_true_iff]
      by_cases same : d = c
      · subst same
        simp [Lexeme.run]
      · simp [Lexeme.run, same, Ne.symm same]

/-- A round in a raw string that goes on. -/
theorem rawStringUpTo_cons {kind : TokenKind} (h : At start k (c :: cs) s) (hashes limit : Nat) :
    rawStringUpTo start kind ('"' :: List.replicate hashes '#') (limit + 1) s =
      (if c = '"' ∧ hashes ≤ Lexeme.run (· == '#') cs then do
        advanceBy (hashes + 1)
        emit kind start false
      else do
        discard advance
        rawStringUpTo start kind ('"' :: List.replicate hashes '#') limit : Walk Unit) s := by
  have closes : ('"' :: List.replicate hashes '#').isPrefixOf (s.source.drop s.pos) = true ↔
      c = '"' ∧ hashes ≤ Lexeme.run (· == '#') cs := by
    change ('"' :: List.replicate hashes '#').isPrefixOf s.ahead = true ↔ _
    rw [h.ahead_eq, List.isPrefixOf, Bool.and_eq_true, beq_iff_eq, replicate_isPrefixOf,
      decide_eq_true_eq, eq_comm]
  rw [rawStringUpTo, get_bind, h.atEnd_cons, if_neg Bool.false_ne_true, List.length_cons,
    List.length_replicate]
  simp only [closes]

theorem rawStringUpTo_eq {kind : TokenKind} {hashes : Nat} (other : kind ≠ .punct)
    (h : At start k cs s) (enough : cs.length < limit) :
    rawStringUpTo start kind ('"' :: List.replicate hashes '#') limit s =
      .ok () (start.took ((upToClose (.token kind) .unterminatedRawString
        (Lexeme.closeRawString? hashes cs) cs.length).after k)) := by
  fun_induction Lexeme.closeRawString? hashes cs generalizing k limit s with
  | case1 cs closes =>
    obtain ⟨limit, rfl⟩ := Nat.exists_eq_add_one.2 (Nat.zero_lt_of_lt enough)
    have inside : hashes + 1 ≤ s.ahead.length := by
      rw [h.ahead_eq, List.length_cons]
      exact Nat.succ_le_succ (Nat.le_trans closes (Lexeme.run_le _ cs))
    rw [rawStringUpTo_cons h, if_pos ⟨rfl, closes⟩, bind_of_ok (advanceBy_eq inside), h.state,
      State.forward_forward, Nat.add_right_comm]
    exact emit_took other _ _
  | case2 cs opens ih =>
    -- A quote with fewer hash marks behind it is a character of the string.
    obtain ⟨limit, rfl⟩ := Nat.exists_eq_add_one.2 (Nat.zero_lt_of_lt enough)
    rw [rawStringUpTo_cons h, if_neg fun closes => opens closes.2, h.discard_advance,
      List.length_cons, upToClose_map _ _ _ _ 1, ih h.next (Nat.lt_of_succ_lt_succ enough)]
  | case3 c cs other ih =>
    obtain ⟨limit, rfl⟩ := Nat.exists_eq_add_one.2 (Nat.zero_lt_of_lt enough)
    rw [rawStringUpTo_cons h, if_neg fun closes => other closes.1, h.discard_advance,
      List.length_cons, upToClose_map _ _ _ _ 1, ih h.next (Nat.lt_of_succ_lt_succ enough)]
  | case4 =>
    obtain ⟨limit, rfl⟩ := Nat.exists_eq_add_one.2 (Nat.zero_lt_of_lt enough)
    rw [rawStringUpTo, get_bind, h.atEnd_nil, if_pos rfl, h.state]
    exact report_took _ _ _

theorem rawString_eq {kind : TokenKind} {l : Lexeme} (other : kind ≠ .punct) (h : At start k cs s)
    (found : Lexeme.rawString? kind cs = some l) :
    rawString start kind s = .ok () (start.took (l.after k)) := by
  unfold Lexeme.rawString? at found
  dsimp only at found
  split at found
  · rename_i body opened
    have marks := h.forward (Lexeme.run (· == '#') cs)
    rw [opened] at marks
    have length : cs.length = body.length + (Lexeme.run (· == '#') cs + 1) := by
      have whole := congrArg List.length (List.take_append_drop (Lexeme.run (· == '#') cs) cs)
      rw [opened, List.length_append, List.length_take_of_le (Lexeme.run_le _ cs),
        List.length_cons] at whole
      omega
    have same : l.after k = (upToClose (.token kind) .unterminatedRawString
        (Lexeme.closeRawString? (Lexeme.run (· == '#') cs) body) body.length).after
          (k + Lexeme.run (· == '#') cs + 1) := by
      rw [← Option.some.inj found, Nat.add_assoc, ← upToClose_map, length]
      cases Lexeme.closeRawString? (Lexeme.run (· == '#') cs) body with
      | none => rfl
      | some n => exact congrArg (Lexeme.after · k) (congrArg _ (Nat.add_comm _ n))
    have count := @hashMarksUpTo_eq s _ 0 (h.ahead_eq ▸ h.lt_limit)
    rw [h.ahead_eq, Nat.zero_add] at count
    rw [rawString, bind_of_ok count, marks.discard_advance, same]
    exact rawStringUpTo_eq other marks.next marks.next.lt_limit
  · cases found

/-! ## Characters -/

/-- A run of characters and the one that ends it are stepped over, if one ends it. -/
theorem skipPast_eq (p : Char → Bool) (s : State) :
    (do skip p; if !(← get).atEnd then discard advance : Walk Unit) s =
      .ok () (s.forward (min (Lexeme.run p s.ahead + 1) s.ahead.length)) := by
  have inside := Lexeme.run_le p s.ahead
  have left := State.ahead_forward s (Lexeme.run p s.ahead)
  rw [bind_of_ok (skip_eq p s), get_bind, State.atEnd_eq, left]
  cases ending : s.ahead.drop (Lexeme.run p s.ahead) with
  | nil =>
    have spent := List.drop_eq_nil_iff.1 ending
    rw [if_neg (by simp), Nat.min_eq_right (by omega), Nat.le_antisymm spent inside]
    rfl
  | cons c cs =>
    have one : Lexeme.run p s.ahead + 1 ≤ s.ahead.length := by
      refine Nat.succ_le_of_lt (Nat.lt_of_not_le fun spent => ?_)
      rw [List.drop_eq_nil_of_le spent] at ending
      cases ending
    rw [if_pos (by simp), Nat.min_eq_left one, ← State.forward_forward]
    exact discard_of_ok (advance_eq (left.trans ending))

theorem character_eq (h : s.ahead = c :: cs) :
    character s = .ok () (s.forward (Lexeme.characterWidth (c :: cs))) := by
  have rest : (s.forward 1).ahead = cs := by rw [State.ahead_forward, h]; rfl
  rw [character, bind_of_ok (advance_eq h), get_bind, State.atEnd_eq, rest]
  by_cases escape : c = '\\' ∧ cs ≠ []
  · obtain ⟨rfl, nonempty⟩ := escape
    obtain ⟨e, es, rfl⟩ := List.exists_cons_of_ne_nil nonempty
    have rest' : (s.forward 2).ahead = es := by rw [State.ahead_forward, h]; rfl
    rw [if_pos (by rfl), bind_of_ok (advance_eq rest), get_bind, State.forward_forward,
      State.peek_beq (by decide), rest']
    by_cases code : e = 'u' ∧ es.head? = .some '{'
    · obtain ⟨rfl, first⟩ := code
      obtain ⟨ds, rfl⟩ := List.head?_eq_some_iff.1 first
      have width : Lexeme.characterWidth ('\\' :: 'u' :: '{' :: ds) =
          2 + min (Lexeme.run (· != '}') ('{' :: ds) + 1) ('{' :: ds).length := by
        have more : Lexeme.run (· != '}') ('{' :: ds) = Lexeme.run (· != '}') ds + 1 := by
          simp [Lexeme.run]
        rw [Lexeme.characterWidth, more, List.length_cons, Nat.add_min_add_right,
          Nat.add_comm (min _ _), ← Nat.add_assoc]
      rw [if_pos (by rfl), width, skipPast_eq, rest', State.forward_forward]
    · rw [if_neg (by simpa using code),
        Lexeme.characterWidth.eq_2 e es fun ds u brace => code ⟨u, by rw [brace]; rfl⟩]
      rfl
  · rw [if_neg (by simpa using escape), Lexeme.characterWidth.eq_3]
    · rfl
    · exact fun ds back more => escape ⟨back, more ▸ List.cons_ne_nil _ _⟩
    · exact fun d ds back more => escape ⟨back, more ▸ List.cons_ne_nil d ds⟩

theorem characterLiteral_eq {kind : TokenKind} (other : kind ≠ .punct) (more : s.ahead = c :: cs)
    (h : At start k cs (s.forward 1)) : characterLiteral start kind s =
      .ok () (start.took ((Lexeme.characterLiteral kind cs).after k)) := by
  rw [characterLiteral, discard_advance more, get_bind]
  cases cs with
  | nil =>
    rw [if_pos h.atEnd_nil, h.state]
    exact report_took _ _ _
  | cons c cs =>
    have behind := h.forward (Lexeme.characterWidth (c :: cs))
    have wide : 0 < Lexeme.characterWidth (c :: cs) := by
      unfold Lexeme.characterWidth
      split
      · omega
      · decide
      · decide
      · contradiction
    rw [h.atEnd_cons, if_neg Bool.false_ne_true, bind_of_ok (character_eq h.ahead_eq), get_bind,
      bne, behind.peek_beq (by decide), List.drop_zero]
    cases closed : ((c :: cs).drop (Lexeme.characterWidth (c :: cs))).head? == some '\'' with
    | true =>
      obtain ⟨ds, eq⟩ := List.head?_eq_some_iff.1 (beq_iff_eq.1 closed)
      rw [eq] at behind
      rw [if_neg (by simp), behind.discard_advance, behind.next.state, Lexeme.characterLiteral,
        closed, decide_eq_true wide, if_pos (by rfl)]
      exact emit_took other _ _
    | false =>
      rw [if_pos (by rfl), behind.state, Lexeme.characterLiteral, closed, Bool.and_false,
        if_neg Bool.false_ne_true]
      exact report_took _ _ _

end Walk

end TypeGrammar
