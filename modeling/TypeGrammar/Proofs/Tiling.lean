import Mathlib.Data.List.Induction
import Mathlib.Data.List.TakeWhile
import TypeGrammar.Token.Lex

/-!
# The tokens of a text tile it

A text that has tokens is made of the texts of its tokens and of gaps between them. A gap consists
of blanks, of line comments without their line feed, and of block comments that are closed and
nested in each other properly. The span of a token says where its first and its last character
stand, by the line feeds before them and the characters since the last line feed.
-/

namespace TypeGrammar

open Text

/-! ## Gaps -/

/-- What stands between the marks of a block comment. `after` follows it; a character of the comment
is not the start of a mark. -/
inductive CommentBody : (body after : List Char) → Prop
  | nil (after : List Char) : CommentBody [] after
  | plain {c : Char} {body after : List Char} : ¬ ['/', '*'] <+: c :: (body ++ after) →
      ¬ ['*', '/'] <+: c :: (body ++ after) → CommentBody body after → CommentBody (c :: body) after
  | nested {inner body after : List Char} : CommentBody inner ('*' :: '/' :: (body ++ after)) →
      CommentBody body after → CommentBody ('/' :: '*' :: (inner ++ '*' :: '/' :: body)) after

/-- What stands between two tokens, or between a token and an end of the text, where `after`
follows. -/
inductive Gap : (gap after : List Char) → Prop
  | nil (after : List Char) : Gap [] after
  | blank {c : Char} {gap after : List Char} : c ∈ [' ', '\t', '\r', '\n'] → Gap gap after →
      Gap (c :: gap) after
  | line {body gap after : List Char} : '\n' ∉ body → (∀ c ∈ (gap ++ after).head?, c = '\n') →
      Gap gap after → Gap ('/' :: '/' :: (body ++ gap)) after
  | block {body gap after : List Char} : CommentBody body ['*', '/'] → Gap gap after →
      Gap ('/' :: '*' :: (body ++ '*' :: '/' :: gap)) after

/-! ## Places -/

/-- The line of a character after the text `before`, which starts in a given line. -/
def lineAfter (line : Int) (before : List Char) : Int :=
  line + before.count '\n'

/-- The column of a character after the text `before`. -/
def colAfter (before : List Char) : Int :=
  (before.reverse.takeWhile (· != '\n')).length + 1

/-- The span from the first to the last character of `text`, which stands after `before`. -/
def spanAfter (file : String) (line : Int) (before text : List Char) : Span :=
  let upToLast := before ++ text.dropLast
  ⟨file, lineAfter line before, colAfter before, lineAfter line upToLast, colAfter upToLast⟩

/-- A text after `before` is made of gaps and of the texts of the tokens, which have their spans. -/
inductive Tiled (file : String) (line : Int) : (before : List Char) → List Token → List Char → Prop
  | gap {before gap : List Char} : Gap gap [] → Tiled file line before [] gap
  | token {before gap rest : List Char} {t : Token} {ts : List Token} :
      Gap gap (t.text.toList ++ rest) → t.text.toList ≠ [] →
      t.span = spanAfter file line (before ++ gap) t.text.toList →
      Tiled file line (before ++ gap ++ t.text.toList) ts rest →
      Tiled file line before (t :: ts) (gap ++ (t.text.toList ++ rest))

namespace Place

theorem after_append (p : Place) (cs ds : List Char) : p.after (cs ++ ds) = (p.after cs).after ds :=
  List.foldl_append

theorem after_eq (line : Int) (before : List Char) :
    (⟨line, 1⟩ : Place).after before = ⟨lineAfter line before, colAfter before⟩ := by
  induction before using List.reverseRecOn with
  | nil => simp [after, lineAfter, colAfter]
  | append_singleton before c ih =>
    rw [after_append, ih]
    by_cases feed : c = '\n'
    · simp [after, next, feed, lineAfter, colAfter, Int.add_assoc]
    · simp [after, next, feed, lineAfter, colAfter]

/-- A text that does not end in a line feed ends at its last character. -/
theorem spanOf_eq (file : String) (line : Int) {before text : List Char} {c : Char}
    (last : text.getLast? = some c) (noFeed : c ≠ '\n') :
    ((⟨line, 1⟩ : Place).after before).spanOf file text = spanAfter file line before text := by
  obtain ⟨front, rfl⟩ := List.getLast?_eq_some_iff.1 last
  have col : 0 < colAfter (before ++ front) := by
    unfold colAfter
    omega
  rw [spanOf, ← after_append, ← List.append_assoc, after_append, after_eq, after_eq]
  simp only [after, List.foldl_cons, List.foldl_nil, next, if_neg noFeed, spanAfter,
    List.dropLast_concat]
  rw [if_pos (by omega), Int.add_sub_cancel]

end Place

namespace Lexeme

/-! ## Comments -/

/-- A text that closes one more comment than `depth`. -/
inductive Closes : (depth : Nat) → List Char → Prop
  | last {body : List Char} : CommentBody body ['*', '/'] → Closes 0 (body ++ ['*', '/'])
  | more {depth : Nat} {body rest : List Char} : CommentBody body ('*' :: '/' :: rest) →
      Closes depth rest → Closes (depth + 1) (body ++ '*' :: '/' :: rest)

namespace Closes

variable {depth : Nat} {cs : List Char}

theorem plain {c : Char} (h : Closes depth cs) (opens : ¬ ['/', '*'] <+: c :: cs)
    (closes : ¬ ['*', '/'] <+: c :: cs) : Closes depth (c :: cs) := by
  cases h with
  | last body => exact .last (.plain opens closes body)
  | more body rest => exact .more (.plain opens closes body) rest

theorem opening (h : Closes (depth + 1) cs) : Closes depth ('/' :: '*' :: cs) := by
  obtain ⟨⟩ | @⟨_, inner, _, first, h⟩ := h
  cases h with
  | @last body second =>
    have joined := Closes.last (.nested first second)
    simpa using joined
  | @more depth body rest second h =>
    have joined := Closes.more (.nested (by simpa using first) second) h
    simpa using joined

end Closes

/-- What closes a comment is a comment in itself. -/
theorem closeComment?_closes {depth n : Nat} {cs : List Char}
    (h : closeComment? depth cs = some n) :
    Closes depth (cs.take n) := by
  fun_induction closeComment? depth cs generalizing n with
  | case1 depth cs ih =>
    obtain ⟨m, run, rfl⟩ := Option.map_eq_some_iff.1 h
    exact (ih run).opening
  | case2 =>
    cases h
    exact .last (.nil _)
  | case3 depth cs ih =>
    obtain ⟨m, run, rfl⟩ := Option.map_eq_some_iff.1 h
    exact .more (.nil _) (ih run)
  | case4 depth c cs opens closes closes' ih =>
    obtain ⟨m, run, rfl⟩ := Option.map_eq_some_iff.1 h
    have whole {mark : List Char} (at' : mark <+: c :: cs.take m) : mark <+: c :: cs :=
      at'.trans (List.take_prefix (m + 1) (c :: cs))
    refine (ih run).plain (fun opens' => ?_) (fun closes'' => ?_)
    · obtain ⟨rest, eq⟩ := whole opens'
      cases eq
      exact opens rest rfl rfl
    · obtain ⟨rest, eq⟩ := whole closes''
      cases eq
      cases depth with
      | zero => exact closes rest rfl rfl rfl
      | succ depth => exact closes' depth rest rfl rfl rfl
  | case5 => cases h

theorem blockComment_gap {n : Nat} {cs : List Char} (h : blockComment cs = ⟨.gap, n⟩) :
    ∃ body, CommentBody body ['*', '/'] ∧ cs.take n = body ++ ['*', '/'] := by
  unfold blockComment at h
  split at h
  · rename_i run
    cases h
    generalize eq : cs.take n = text
    cases eq ▸ closeComment?_closes run with
    | @last body comment => exact ⟨body, comment, rfl⟩
  · cases h

/-! ## Runs of characters -/

theorem take_run (p : Char → Bool) (cs : List Char) : cs.take (run p cs) = cs.takeWhile p :=
  (List.prefix_iff_eq_take.1 (List.takeWhile_prefix p)).symm

theorem drop_run (p : Char → Bool) (cs : List Char) : cs.drop (run p cs) = cs.dropWhile p := by
  have all := List.takeWhile_append_dropWhile (p := p) (l := cs)
  rw [← take_run] at all
  exact List.append_cancel_left ((List.take_append_drop _ cs).trans all.symm)

/-- The first `n` characters of a text are on one line. -/
def OneLine (n : Nat) (cs : List Char) : Prop :=
  '\n' ∉ cs.take n

theorem OneLine.run {p : Char → Bool} (off : p '\n' = false) (cs : List Char) :
    OneLine (run p cs) cs := by
  rw [OneLine, take_run]
  exact fun mem => by simpa [off] using List.mem_takeWhile_imp mem

theorem OneLine.add {m n : Nat} {cs : List Char} (h : OneLine m cs) (h' : OneLine n (cs.drop m)) :
    OneLine (m + n) cs := by
  rw [OneLine, List.take_add, List.mem_append]
  exact not_or.2 ⟨h, h'⟩

theorem OneLine.mono {m n : Nat} {cs : List Char} (h : OneLine n cs) (le : m ≤ n) : OneLine m cs :=
  fun mem => h ((List.take_subset_take_left cs le) mem)

theorem OneLine.cons {n : Nat} {c : Char} {cs : List Char} (first : c ≠ '\n') (h : OneLine n cs) :
    OneLine (1 + n) (c :: cs) := by
  rw [OneLine, Nat.add_comm, List.take_succ_cons, List.mem_cons]
  exact not_or.2 ⟨Ne.symm first, h⟩

theorem OneLine.last {c : Char} {cs : List Char} {n : Nat} (first : c ≠ '\n') (h : OneLine n cs) :
    ∃ d, (c :: cs.take n).getLast? = some d ∧ d ≠ '\n' := by
  refine ⟨_, List.getLast?_eq_some_getLast (List.cons_ne_nil _ _), fun feed => ?_⟩
  obtain eq | mem := List.mem_cons.1 (feed ▸ List.getLast_mem (List.cons_ne_nil c (cs.take n)))
  · exact first eq.symm
  · exact h mem

theorem isWordChar_feed : isWordChar '\n' = false := by
  decide +kernel

/-! ## Lexemes that are no gaps -/

/-- The lexeme of the text `c :: cs` is no gap, and if it is a token, it does not end in a line feed
and is no end marker. -/
def Solid (c : Char) (cs : List Char) (l : Lexeme) : Prop :=
  match l.sort with
  | .gap => False
  | .token kind => kind ≠ .eof ∧ ∃ d, (c :: cs.take l.extra).getLast? = some d ∧ d ≠ '\n'
  | .fault _ => True

namespace Solid

variable {c : Char} {cs : List Char} {kind : TokenKind} {n : Nat}

theorem fault (cause : LexicalFault) : Solid c cs ⟨.fault cause, n⟩ :=
  trivial

theorem ends {d : Char} (known : kind ≠ .eof) (last : (cs.take n).getLast? = some d)
    (noFeed : d ≠ '\n') : Solid c cs ⟨.token kind, n⟩ :=
  ⟨known, d, by rw [List.getLast?_cons, last, Option.getD_some], noFeed⟩

theorem oneLine (known : kind ≠ .eof) (first : c ≠ '\n') (h : OneLine n cs) :
    Solid c cs ⟨.token kind, n⟩ :=
  ⟨known, h.last first⟩

theorem after {l : Lexeme} {d : Char} (h : Solid d cs l) : Solid c (d :: cs) (l.after 1) := by
  obtain ⟨sort, extra⟩ := l
  cases sort with
  | gap => exact h
  | fault cause => trivial
  | token kind =>
    obtain ⟨known, last, eq, noFeed⟩ := h
    refine .ends known ?_ noFeed
    rw [Nat.add_comm, List.take_succ_cons]
    exact eq

end Solid

theorem closeString?_last {n : Nat} {cs : List Char} (h : closeString? cs = some n) :
    (cs.take n).getLast? = some '"' := by
  fun_induction closeString? cs generalizing n with
  | case1 c cs ih =>
    obtain ⟨m, run, rfl⟩ := Option.map_eq_some_iff.1 h
    simp [List.getLast?_cons, ih run]
  | case2 =>
    cases h
    rfl
  | case3 c cs escape quote ih =>
    obtain ⟨m, run, rfl⟩ := Option.map_eq_some_iff.1 h
    simp [List.getLast?_cons, ih run]
  | case4 => cases h

theorem stringLiteral_solid {kind : TokenKind} (known : kind ≠ .eof) (c : Char) (cs : List Char) :
    Solid c cs (stringLiteral kind cs) := by
  unfold stringLiteral
  split
  · rename_i run
    exact .ends known (closeString?_last run) (by decide)
  · exact .fault _

theorem closeRawString?_last {hashes n : Nat} {cs : List Char}
    (h : closeRawString? hashes cs = some n) :
    ∃ d, (cs.take n).getLast? = some d ∧ d ≠ '\n' := by
  fun_induction closeRawString? hashes cs generalizing n with
  | case1 cs enough =>
    cases h
    exact ((OneLine.run (by decide) cs).mono enough).last (by decide)
  | case2 cs few ih | case3 c cs quote ih =>
    obtain ⟨m, run, rfl⟩ := Option.map_eq_some_iff.1 h
    obtain ⟨d, last, noFeed⟩ := ih run
    exact ⟨d, by rw [List.take_succ_cons, List.getLast?_cons, last, Option.getD_some], noFeed⟩
  | case4 => cases h

theorem rawString?_solid {kind : TokenKind} (known : kind ≠ .eof) {c : Char} {cs : List Char}
    {l : Lexeme} (h : rawString? kind cs = some l) : Solid c cs l := by
  unfold rawString? at h
  dsimp only at h
  split at h
  · rename_i body start
    split at h <;> cases h
    · rename_i n run
      obtain ⟨d, last, noFeed⟩ := closeRawString?_last run
      refine .ends known ?_ noFeed
      rw [List.take_add, ← List.drop_drop, start, List.drop_one, List.tail_cons,
        List.getLast?_append, last, Option.some_or]
    · exact .fault _
  · cases h

theorem characterLiteral_solid {kind : TokenKind} (known : kind ≠ .eof) (c : Char)
    (cs : List Char) : Solid c cs (characterLiteral kind cs) := by
  unfold characterLiteral
  dsimp only
  split
  · rename_i closed
    simp only [Bool.and_eq_true, beq_iff_eq] at closed
    refine .ends known ?_ (by decide : '\'' ≠ '\n')
    rw [List.take_add, List.getLast?_append, List.take_one, closed.2]
    rfl
  · exact .fault _

theorem quoteMark_solid (cs : List Char) : Solid '\'' cs (quoteMark cs) := by
  unfold quoteMark
  split
  · split
    · exact .oneLine (by decide) (by decide) (.run isWordChar_feed _)
    · exact characterLiteral_solid (by decide) _ _
  · exact characterLiteral_solid (by decide) _ _

theorem letteredLiteral?_solid {c : Char} {cs : List Char} {l : Lexeme}
    (h : letteredLiteral? c cs = some l) : Solid c cs l := by
  unfold letteredLiteral? at h
  split at h
  · exact rawString?_solid (by decide) h
  · split at h
    · split at h
      · cases h
        exact (stringLiteral_solid (by decide) _ _).after
      · cases h
        exact (characterLiteral_solid (by decide) _ _).after
      · obtain ⟨l, run, rfl⟩ := Option.map_eq_some_iff.1 h
        exact (rawString?_solid (by decide) run).after
      · cases h
    · cases h

theorem digitRun_oneLine (cs : List Char) : OneLine (digitRun cs) cs :=
  .run (by decide +kernel) cs

theorem fraction_oneLine (cs : List Char) : OneLine (fraction cs) cs := by
  unfold fraction
  split
  · split
    · exact .cons (by decide) (digitRun_oneLine _)
    · exact List.not_mem_nil
  · exact List.not_mem_nil

theorem exponent_oneLine (cs : List Char) : OneLine (exponent cs) cs := by
  unfold exponent
  split
  · rename_i e cs
    split
    · rename_i mark
      have first : e ≠ '\n' := by
        rintro rfl
        simp at mark
      split
      · rename_i c rest
        split
        · exact .cons first (digitRun_oneLine _)
        split
        · rename_i sign
          have second : c ≠ '\n' := by
            rintro rfl
            simp at sign
          have both := (digitRun_oneLine rest).cons second |>.cons first
          rwa [← Nat.add_assoc] at both
        · exact List.not_mem_nil
      · exact List.not_mem_nil
    · exact List.not_mem_nil
  · exact List.not_mem_nil

theorem numberBody_oneLine (c : Char) (cs : List Char) : OneLine (numberBody c cs).2 cs := by
  unfold numberBody
  split
  · rename_i based
    obtain ⟨b, cs, rfl⟩ : ∃ b cs', cs = b :: cs' := by
      cases cs with
      | nil => simp at based
      | cons b cs => exact ⟨b, cs, rfl⟩
    refine .cons ?_ (.run (by decide) _)
    rintro rfl
    simp at based
  · exact ((digitRun_oneLine cs).add (fraction_oneLine _)).add (exponent_oneLine _)

theorem numberBody_kind (c : Char) (cs : List Char) : (numberBody c cs).1 ≠ .eof := by
  unfold numberBody
  dsimp only
  split
  · exact (by decide : TokenKind.integer ≠ .eof)
  · dsimp only
    split <;> decide

theorem number_solid {c : Char} (first : c ≠ '\n') (cs : List Char) :
    Solid c cs (number c cs) := by
  have digits := numberBody_oneLine c cs
  have kind := numberBody_kind c cs
  unfold number
  dsimp only
  split
  · refine .oneLine ?_ first (digits.add (.run isWordChar_feed _))
    split
    · decide
    · exact kind
  · exact .oneLine kind first digits

theorem plain_solid {c : Char} (first : c ≠ '\n') (cs : List Char) : Solid c cs (plain c cs) := by
  unfold plain
  split
  · exact number_solid first cs
  split
  · refine .oneLine ?_ first (.run isWordChar_feed cs)
    split <;> decide
  split
  · rename_i kind bracket
    refine .oneLine ?_ first List.not_mem_nil
    rintro rfl
    grind [bracketKind?]
  split
  · exact .oneLine (by decide) first List.not_mem_nil
  · exact .fault _

/-! ## The first lexeme -/

/-- The first lexeme of `c :: cs` is a gap of one of three forms, or it is solid. -/
inductive First (c : Char) (cs : List Char) : Lexeme → Prop
  | blank : isGapChar c = true → First c cs ⟨.gap, 0⟩
  | line {n : Nat} {body : List Char} : c = '/' → cs.take n = '/' :: body → '\n' ∉ body →
      (∀ d ∈ (cs.drop n).head?, d = '\n') → First c cs ⟨.gap, n⟩
  | block {n : Nat} {body : List Char} : c = '/' → cs.take n = '*' :: (body ++ ['*', '/']) →
      CommentBody body ['*', '/'] → First c cs ⟨.gap, n⟩
  | solid {l : Lexeme} : Solid c cs l → First c cs l

theorem lineComment_first (ds : List Char) :
    First '/' ('/' :: ds) ⟨.gap, run (· != '\n') ('/' :: ds)⟩ := by
  have taken : ('/' :: ds).take (run (· != '\n') ('/' :: ds)) =
      '/' :: ds.takeWhile (· != '\n') := by
    rw [take_run]
    rfl
  refine .line rfl taken ?_ ?_
  · exact fun mem => by simpa using List.mem_takeWhile_imp mem
  · rw [drop_run]
    intro d head
    have off := List.head?_dropWhile_not (· != '\n') ('/' :: ds)
    rw [head] at off
    simpa using off

theorem blockComment_first (ds : List Char) :
    First '/' ('*' :: ds) ((blockComment ds).after 1) := by
  cases run : closeComment? 0 ds with
  | none => exact .solid (by simp [blockComment, run, after, Solid])
  | some n =>
    have gap : blockComment ds = ⟨.gap, n⟩ := by simp [blockComment, run]
    obtain ⟨body, comment, eq⟩ := blockComment_gap gap
    rw [show (blockComment ds).after 1 = ⟨.gap, 1 + n⟩ by simp [blockComment, run, after]]
    exact .block rfl (by rw [Nat.add_comm, List.take_succ_cons, eq]) comment

theorem scan_first (c : Char) (cs : List Char) : First c cs (scan c cs) := by
  unfold scan
  split
  · rename_i blank
    exact .blank blank
  rename_i visible
  have first : c ≠ '\n' := by
    rintro rfl
    simp [isGapChar] at visible
  split
  · rename_i line
    simp only [Bool.and_eq_true, beq_iff_eq, List.head?_eq_some_iff] at line
    obtain ⟨rfl, ds, rfl⟩ := line
    exact lineComment_first ds
  split
  · rename_i block
    simp only [Bool.and_eq_true, beq_iff_eq, List.head?_eq_some_iff] at block
    obtain ⟨rfl, ds, rfl⟩ := block
    exact blockComment_first ds
  split
  · rename_i raw
    obtain ⟨mark, cs, rfl⟩ : ∃ mark cs', cs = mark :: cs' := by
      cases cs with
      | nil => simp [continuesRawIdentifier] at raw
      | cons mark cs => exact ⟨mark, cs, rfl⟩
    refine .solid (.oneLine (by decide) first (.cons ?_ (.run isWordChar_feed cs)))
    rintro rfl
    simp [continuesRawIdentifier] at raw
  split
  · exact .solid (stringLiteral_solid (by decide) _ _)
  split
  · rename_i quote
    rw [beq_iff_eq.1 quote]
    exact .solid (quoteMark_solid cs)
  split
  · rename_i l lettered
    exact .solid (letteredLiteral?_solid lettered)
  · exact .solid (plain_solid first cs)

/-- A gap in a text goes on with the gap that follows it. -/
theorem scan_gap {c : Char} {cs gap after : List Char} {n : Nat} (h : scan c cs = ⟨.gap, n⟩)
    (rest : cs.drop n = gap ++ after) (more : Gap gap after) :
    Gap (c :: (cs.take n ++ gap)) after := by
  cases h ▸ scan_first c cs with
  | blank blank =>
    refine .blank ?_ more
    simpa [isGapChar, or_assoc] using blank
  | line slash eq noFeed ends =>
    rw [slash, eq]
    exact .line noFeed (rest ▸ ends) more
  | block slash eq comment =>
    rw [slash, eq]
    simpa using Gap.block comment more
  | solid solid => exact solid.elim

/-- A token is no end marker and does not end in a line feed. -/
theorem scan_token {c : Char} {cs : List Char} {kind : TokenKind} {n : Nat}
    (h : scan c cs = ⟨.token kind, n⟩) :
    kind ≠ .eof ∧ ∃ d, (c :: cs.take n).getLast? = some d ∧ d ≠ '\n' := by
  cases h ▸ scan_first c cs with
  | solid solid => exact solid

end Lexeme

/-! ## The tokens of a text -/

namespace Tiled

variable {file : String} {line : Int} {before rest : List Char} {ts : List Token}

theorem afterGap {front : List Char} (h : Tiled file line (before ++ front) ts rest)
    (goes : ∀ gap after, rest = gap ++ after → Gap gap after → Gap (front ++ gap) after) :
    Tiled file line before ts (front ++ rest) := by
  cases h with
  | gap gap => exact .gap (goes _ [] (List.append_nil _).symm gap)
  | @token _ gap rest t ts between visible span more =>
    rw [← List.append_assoc]
    simp only [List.append_assoc] at span more
    exact .token (goes _ _ rfl between) visible (by simpa using span) (by simpa using more)

theorem afterToken {t : Token} {text : List Char} (h : Tiled file line (before ++ text) ts rest)
    (eq : t.text.toList = text) (visible : text ≠ [])
    (span : t.span = spanAfter file line before text) :
    Tiled file line before (t :: ts) (text ++ rest) := by
  subst eq
  rw [← List.append_nil before] at span h
  exact .token (.nil _) visible span h

end Tiled

/-- The tokens among some pieces, the first of which stands at `p`. -/
def tokensAt (file : String) (p : Place) (xs : List Piece) : List Token :=
  (locate p xs).filterMap fun x => x.2.token? file x.1

/-- What is wrong with some pieces, the first of which stands at `p`. -/
def faultsAt (file : String) (p : Place) (xs : List Piece) : List Diagnostic :=
  (locate p xs).filterMap fun x => x.2.fault? file x.1

theorem tokensAt_cons (file : String) (p : Place) (x : Piece) (xs : List Piece) :
    tokensAt file p (x :: xs) = (x.token? file p).toList ++ tokensAt file (p.after x.text) xs := by
  rw [tokensAt, locate, List.filterMap_cons]
  cases x.token? file p <;> simp [tokensAt]

theorem faultsAt_cons (file : String) (p : Place) (x : Piece) (xs : List Piece) :
    faultsAt file p (x :: xs) = (x.fault? file p).toList ++ faultsAt file (p.after x.text) xs := by
  rw [faultsAt, locate, List.filterMap_cons]
  cases x.fault? file p <;> simp [faultsAt]

/-- The tokens of pieces without a fault tile the text that is divided into the pieces. -/
theorem tiled_piecesUpTo {file : String} {line : Int} {limit : Nat} {before cs : List Char}
    (enough : cs.length ≤ limit)
    (sound : faultsAt file ((⟨line, 1⟩ : Place).after before) (piecesUpTo limit cs) = []) :
    (∀ t ∈ tokensAt file ((⟨line, 1⟩ : Place).after before) (piecesUpTo limit cs), t.kind ≠ .eof) ∧
      Tiled file line before
        (tokensAt file ((⟨line, 1⟩ : Place).after before) (piecesUpTo limit cs)) cs := by
  induction limit generalizing before cs with
  | zero =>
    obtain rfl := List.length_eq_zero_iff.1 (Nat.le_zero.1 enough)
    exact ⟨fun _ mem => absurd mem List.not_mem_nil, .gap (.nil [])⟩
  | succ limit ih =>
    cases cs with
    | nil => exact ⟨fun _ mem => absurd mem List.not_mem_nil, .gap (.nil [])⟩
    | cons c cs =>
      cases scanned : Lexeme.scan c cs with
      | mk sort n =>
      have short : (cs.drop n).length ≤ limit := by
        simp only [List.length_cons, List.length_drop] at enough ⊢
        omega
      have whole : c :: cs = (c :: cs.take n) ++ cs.drop n := by
        rw [List.cons_append, List.take_append_drop]
      simp only [piecesUpTo, scanned, faultsAt_cons, tokensAt_cons, ← Place.after_append] at sound ⊢
      obtain ⟨here, later⟩ := List.append_eq_nil_iff.1 sound
      obtain ⟨kinds, tiled⟩ := ih short later
      cases sort with
      | gap =>
        refine ⟨kinds, ?_⟩
        rw [whole]
        exact tiled.afterGap fun gap after eq more => Lexeme.scan_gap scanned eq more
      | token kind =>
        obtain ⟨known, d, last, noFeed⟩ := Lexeme.scan_token scanned
        have text : (String.ofList (c :: cs.take n)).toList = c :: cs.take n := String.toList_ofList
        refine ⟨?_, ?_⟩
        · intro t mem
          obtain rfl | mem := List.mem_cons.1 mem
          · exact known
          · exact kinds t mem
        · rw [whole]
          exact tiled.afterToken text (List.cons_ne_nil _ _) (Place.spanOf_eq file line last noFeed)
      | fault cause => simp [Piece.fault?] at here

/-- A text that has tokens is tiled by them and by gaps; an end marker follows them. -/
theorem lex_tiles {source file : String} {line : Int} {tokens : List Token}
    (h : lex source file line = .ok tokens) :
    ∃ marks last, tokens = marks ++ [last] ∧ last.kind = .eof ∧ (∀ t ∈ marks, t.kind ≠ .eof) ∧
      Tiled file line [] marks source.toList := by
  unfold lex at h
  simp only at h
  split at h
  · rename_i sound
    cases h
    have start : faultsAt file ((⟨line, 1⟩ : Place).after []) (pieces source.toList) = [] := sound
    exact ⟨_, _, rfl, rfl, tiled_piecesUpTo (Nat.le_refl _) start⟩
  · cases h

/-- A string that goes over two lines, between a nested comment and a line comment. -/
theorem lex_tiles_string :
    ∃ tokens, lex "a /* /**/ */\n\"p\nq\"// z" "f" 7 = .ok tokens ∧
      ∃ marks last, tokens = marks ++ [last] ∧ last.kind = .eof ∧ (∀ t ∈ marks, t.kind ≠ .eof) ∧
        Tiled "f" 7 [] marks "a /* /**/ */\n\"p\nq\"// z".toList := by
  have lexed : lex "a /* /**/ */\n\"p\nq\"// z" "f" 7 = .ok
      [⟨.identifier, "a", ⟨"f", 7, 1, 7, 1⟩, false⟩,
        ⟨.string, "\"p\nq\"", ⟨"f", 8, 1, 9, 2⟩, false⟩,
        ⟨.eof, "", ⟨"f", 9, 7, 9, 6⟩, false⟩] := rfl
  exact ⟨_, lexed, lex_tiles lexed⟩

end TypeGrammar
