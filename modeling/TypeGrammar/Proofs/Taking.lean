import TypeGrammar.Cursor.Session
import TypeGrammar.Proofs.Rereading

/-!
# Taking all or nothing

What is taken from a cursor is taken at once. If it is next, the cursor moves past all of its trees
and no others; if it is not, the cursor stays, and an error is about the tree at which it stands. So
an operator of several characters is never left half taken. A session takes by the same parsers, and
step by step none of its cursors ever leaves the trees it was made for.
-/

namespace TypeGrammar

open TokenTree

/-! ## Operators -/

/-- If the last character may be joint to anything, it does not matter what comes next. -/
theorem SpellsChars.before {cs : List Char} {ts rest : List TokenTree}
    (h : SpellsChars [] cs ts rest) (rest' : List TokenTree) : SpellsChars [] cs ts rest' := by
  induction cs generalizing ts with
  | nil => exact h
  | cons c cs ih =>
    obtain ⟨t, us, rfl, kind, text, joint, tail⟩ := h
    refine ⟨t, us, rfl, kind, text, ?_, ih tail⟩
    by_cases last : cs = []
    · rw [if_pos last]
      exact fun _ b mem => absurd mem List.not_mem_nil
    · rw [if_neg last] at joint ⊢
      exact joint

/-- `ts` are the characters of the operator `op`, each but the last joint to the next, and `t` is
their marker, which reaches from the first of them to the last. -/
def Marks (op : String) (ts : List TokenTree) (t : Token) : Prop :=
  SpellsChars [] op.toList ts [] ∧ ∃ first final, ts.head? = some first ∧
    ts.getLast? = some final ∧ t = Token.punct op (first.span.join final.span)

/-! ## Parsers -/

namespace Parser

variable {α β : Type} {p : Parser α} {asks : List TokenTree → Bool} {width : Nat}
  {fault : ParseFault} {gives : List TokenTree → α → Prop}

/-- A parser takes `width` trees at once if those ahead are as `asks` says, and makes of them what
`gives` says. Otherwise it fails with `fault` and takes none. -/
structure AtOnce (p : Parser α) (asks : List TokenTree → Bool) (width : Nat) (fault : ParseFault)
    (gives : List TokenTree → α → Prop) : Prop where
  takes : ∀ c : Cursor, asks c.rest = true →
    ∃ a, p c = .ok a (c.skip width) ∧ width ≤ c.rest.length ∧ gives (c.rest.take width) a
  refuses : ∀ c : Cursor, asks c.rest = false → p c = .error (c.fault fault) c

theorem AtOnce.map {gives' : List TokenTree → β → Prop} {f : α → β}
    (h : p.AtOnce asks width fault gives) (result : ∀ ts a, gives ts a → gives' ts (f a)) :
    (f <$> p).AtOnce asks width fault gives' where
  takes c next := by
    obtain ⟨a, run, enough, given⟩ := h.takes c next
    refine ⟨f a, ?_, enough, result _ a given⟩
    change EStateM.map f p c = _
    rw [EStateM.map, run]
  refuses c other := by
    change EStateM.map f p c = _
    rw [EStateM.map, h.refuses c other]

theorem advance_atOnce : advance.AtOnce (!·.isEmpty) 1 .unexpectedEnd fun ts t => ts = [t] where
  takes c next := by
    unfold advance
    cases eq : c.rest with
    | nil => simp [eq] at next
    | cons t ts => exact ⟨t, rfl, by simp, rfl⟩
  refuses c other := by
    unfold advance
    cases eq : c.rest with
    | nil => rfl
    | cons t ts => simp [eq] at other

/-- The next tree is taken if it is as `asks` says. -/
theorem advanceIf_atOnce (nonempty : asks [] = false) :
    AtOnce (do if ← look asks then advance else fail fault) asks 1 fault fun ts t => ts = [t] where
  takes c next := by
    rw [look_yes next]
    refine advance_atOnce.takes c ?_
    cases eq : c.rest with
    | nil => simp [eq, nonempty] at next
    | cons t ts => rfl
  refuses c other := by
    rw [look_no other]
    rfl

/-- A token is taken if an expectation is met that only a token meets. -/
theorem take_atOnce {e : Expectation}
    (token : ∀ ts, e.isMet ts = true → ∃ t us, ts = .token t :: us) :
    (take e).AtOnce e.isMet 1 (.expected e) fun ts t => ts = [.token t] where
  takes c next := by
    obtain ⟨t, us, eq⟩ := token c.rest next
    unfold take
    rw [next, eq]
    exact ⟨t, rfl, by simp, rfl⟩
  refuses c other := by
    unfold take
    split
    · rw [other, if_neg Bool.false_ne_true]
    · rfl

theorem anyWord_atOnce :
    anyWord.AtOnce startsAnyWord 1 (.expected .identifier) fun ts t => ts = [.token t] where
  takes c next := by
    unfold anyWord
    cases eq : c.rest with
    | nil => simp [eq, startsAnyWord, startsKind, token?] at next
    | cons t ts =>
      cases t with
      | group => simp [eq, startsAnyWord, startsKind, token?] at next
      | token t =>
        have word : t.kind = .identifier ∨ t.kind = .keyword := by
          simpa [eq, startsAnyWord, startsKind, token?] using next
        exact ⟨t, if_pos word, by simp, rfl⟩
  refuses c other := by
    unfold anyWord
    split
    · rename_i t ts eq
      have noWord : ¬ (t.kind = .identifier ∨ t.kind = .keyword) := by
        simpa [eq, startsAnyWord, startsKind, token?] using other
      rw [if_neg noWord]
    · rfl

theorem punct_atOnce {op : String} (nonempty : op ≠ "") :
    (punct op).AtOnce (startsPunct op) op.length (.expected (.punct op)) (Marks op) where
  takes c next := by
    have width : max 1 op.length = op.length :=
      Nat.max_eq_right (Nat.pos_of_ne_zero (mt String.length_eq_zero_iff.1 nonempty))
    have free : ∀ b ∈ ([] : List Char), startsChars (op.toList ++ [b]) c.rest = false :=
      fun b mem => absurd mem List.not_mem_nil
    obtain ⟨us, eq, spelled⟩ := spellsChars_of_starts next free
    have length := spelled.startsChars.2
    rw [String.length_toList] at eq length
    cases us with
    | nil => exact absurd length.symm (by simpa using nonempty)
    | cons first us =>
      have taken : c.rest.take op.length = first :: us := by rw [eq, ← length, List.take_left]
      have run := punct_takes next eq
      rw [width, taken, List.getLastD_cons] at run
      rw [run, taken]
      refine ⟨_, rfl, ?_, spelled.before [], first, us.getLastD first, rfl, ?_, rfl⟩
      · rw [eq, List.length_append, length]
        exact Nat.le_add_right ..
      · rw [List.getLast?_cons, List.getLastD_eq_getLast?]
  refuses c other := punct_refuses other

theorem openGroup_atOnce (d : Delimiter) :
    (openGroup d).AtOnce (startsGroup d) 1 (.expected (.group d)) fun ts entered =>
      ∃ us o e, ts = [.group d us o e] ∧ entered = (⟨d, o⟩, Cursor.ofTrees us e) where
  takes c next := by
    unfold openGroup
    cases eq : c.rest with
    | nil => simp [eq, startsGroup] at next
    | cons t ts =>
      cases t with
      | token => simp [eq, startsGroup] at next
      | group d' us o e =>
        obtain rfl : d' = d := by simpa [eq, startsGroup] using next
        exact ⟨_, if_pos rfl, by simp, us, o, e, rfl, rfl⟩
  refuses c other := by
    unfold openGroup
    split
    · rename_i d' us o e ts eq
      rw [if_neg (by simpa [eq, startsGroup] using other)]
    · rfl

/-- Every run of a parser that succeeds takes some of the trees ahead, and one that fails takes
none. -/
def Steady (p : Parser α) : Prop :=
  ∀ c, (∃ a n, n ≤ c.rest.length ∧ p c = .ok a (c.skip n)) ∨ ∃ e, p c = .error e c

theorem AtOnce.steady (h : p.AtOnce asks width fault gives) : p.Steady := by
  intro c
  cases next : asks c.rest with
  | true =>
    obtain ⟨a, run, enough, -⟩ := h.takes c next
    exact .inl ⟨a, width, enough, run⟩
  | false => exact .inr ⟨_, h.refuses c next⟩

theorem Steady.map {f : α → β} (h : p.Steady) : (f <$> p).Steady := by
  intro c
  change (∃ a n, n ≤ c.rest.length ∧ EStateM.map f p c = _) ∨ ∃ e, EStateM.map f p c = _
  rw [EStateM.map]
  obtain ⟨a, n, enough, run⟩ | ⟨e, run⟩ := h c
  · exact .inl ⟨f a, n, enough, by rw [run]⟩
  · exact .inr ⟨e, by rw [run]⟩

theorem atEnd_steady : atEnd.Steady := by
  intro c
  unfold atEnd
  split
  · exact .inl ⟨(), 0, Nat.zero_le _, rfl⟩
  · exact .inr ⟨_, rfl⟩

theorem remaining_steady : remaining.Steady :=
  fun c => .inl ⟨c.rest, c.rest.length, Nat.le_refl _, rfl⟩

theorem punct_steady (op : String) : (punct op).Steady := by
  by_cases nonempty : op = ""
  · -- the empty operator takes one tree, whatever it is
    subst nonempty
    intro c
    have starts : startsPunct "" c.rest = true := by cases c.rest <;> rfl
    cases ahead : c.rest with
    | nil => exact .inr ⟨_, punct_ends starts ahead⟩
    | cons first ts => exact .inl ⟨_, 1, by simp, punct_takes starts ahead⟩
  · exact (punct_atOnce nonempty).steady

end Parser

/-! ## Expectations -/

namespace Expectation

/-- The number of trees that an expectation takes. -/
def width : Expectation → Nat
  | punct op => op.length
  | _ => 1

/-- What is taken for an expectation: the tree itself, or the marker of an operator. -/
def Gives (e : Expectation) (ts : List TokenTree) (t : TokenTree) : Prop :=
  match e with
  | punct op => ∃ mark, Marks op ts mark ∧ t = .token mark
  | _ => ts = [t]

theorem token_ahead {p : Token → Bool} {ts : List TokenTree} (h : (token? ts).any p = true) :
    ∃ t us, ts = .token t :: us := by
  cases ts with
  | nil => simp [token?] at h
  | cons t us =>
    cases t with
    | token t => exact ⟨t, us, rfl⟩
    | group => simp [token?] at h

end Expectation

/-! ## Frames -/

namespace CursorFrame

variable {f : CursorFrame}

/-- The cursor of a frame stands within its trees, and has ahead what is left of them. -/
structure Placed (f : CursorFrame) : Prop where
  inside : f.cursor.pos ≤ f.trees.length
  ahead : f.cursor.rest = f.trees.drop f.cursor.pos

/-- The frame after `n` more trees. -/
def skip (f : CursorFrame) (n : Nat) : CursorFrame :=
  { f with cursor := f.cursor.skip n }

theorem placed_ofTrees (trees : List TokenTree) (endSpan : Span) : (ofTrees trees endSpan).Placed :=
  ⟨Nat.zero_le _, rfl⟩

theorem Placed.skip (h : f.Placed) {n : Nat} (enough : n ≤ f.cursor.rest.length) :
    (f.skip n).Placed := by
  constructor
  · have inside := h.inside
    rw [h.ahead, List.length_drop] at enough
    change f.cursor.pos + n ≤ f.trees.length
    omega
  · change f.cursor.rest.drop n = f.trees.drop (f.cursor.pos + n)
    rw [h.ahead, List.drop_drop]

/-- An error at the cursor of a frame is about the next tree, or about the end. -/
theorem Placed.span (h : f.Placed) :
    f.cursor.span = (f.trees[f.cursor.pos]?.map TokenTree.span).getD f.cursor.endSpan := by
  have next : f.trees[f.cursor.pos]? = f.cursor.rest.head? := by
    rw [h.ahead, List.head?_drop]
  rw [next, Cursor.span]
  cases f.cursor.rest <;> rfl

end CursorFrame

/-! ## Steps -/

namespace CursorStep

/-- The number of trees that a step takes, if it is one that takes what is next. -/
def width? : CursorStep → Option Nat
  | advance | anyWord | enter _ => some 1
  | take e | takeIfMet e => some e.width
  | _ => none

/-- True if what a step takes is next. -/
def asks : CursorStep → List TokenTree → Bool
  | advance, ts => !ts.isEmpty
  | anyWord, ts => startsAnyWord ts
  | enter d, ts => startsGroup d ts
  | take e, ts | takeIfMet e, ts => e.isMet ts
  | _, _ => false

/-- What a step answers if it takes the trees `ts`: what is taken, or the pair of a group. -/
def Answers (step : CursorStep) (ts : List TokenTree) (a : CursorAnswer) : Prop :=
  match step with
  | take e | takeIfMet e => ∃ t, e.Gives ts t ∧ a = .tree t
  | enter d => ∃ us o e, ts = [.group d us o e] ∧ a = .entered ⟨d, o⟩
  | _ => ∃ t, ts = [t] ∧ a = .tree t

/-- What a step answers if it takes nothing: an error at `next`, unless it is optional. -/
def Refuses (step : CursorStep) (next : Span) (a : CursorAnswer) : Prop :=
  match step with
  | takeIfMet _ => a = .nothing
  | _ => ∃ fault, a = .failed ⟨fault, next⟩

end CursorStep

/-- The answer of a parser for a token that may be missing. -/
def CursorAnswer.optional : Option Token → CursorAnswer
  | some t => .tree (.token t)
  | none => .nothing

namespace CursorSession

open TypeGrammar.Parser Expectation

variable {α : Type} {p : Parser α} {asks : List TokenTree → Bool} {width : Nat}
  {fault : ParseFault} {gives : List TokenTree → α → Prop} {s : CursorSession}
  {answer : α → CursorAnswer}

/-- The session with its current cursor `n` trees further on. -/
def skip (s : CursorSession) (n : Nat) : CursorSession :=
  { s with current := s.current.skip n }

/-- The session inside a group of the trees `us` that ends at `e`. -/
def inside (s : CursorSession) (us : List TokenTree) (e : Span) : CursorSession :=
  { s with current := .ofTrees us e, outer := s.current :: s.outer }

/-- The frame at a depth of the stack. -/
def frame? (s : CursorSession) (depth : Nat) : Option CursorFrame :=
  (s.current :: s.outer)[s.depth - depth]?

theorem frame?_skip (n : Nat) : (s.skip n).frame? s.depth = some (s.current.skip n) := by
  change (s.current.skip n :: s.outer)[s.depth - s.depth]? = _
  rw [Nat.sub_self, List.getElem?_cons_zero]

/-- The frame of a step is afterwards the one around the group. -/
theorem frame?_inside (n : Nat) (us : List TokenTree) (e : Span) :
    ((s.skip n).inside us e).frame? s.depth = some (s.current.skip n) := by
  have place : ((s.skip n).inside us e).depth - s.depth = 1 := Nat.add_sub_cancel_left ..
  rw [frame?, place]
  rfl

theorem run_takes (answer : α → CursorAnswer) (h : p.AtOnce asks width fault gives)
    (next : asks s.current.cursor.rest = true) :
    ∃ a, s.run answer p = (answer a, s.skip width) ∧ width ≤ s.current.cursor.rest.length ∧
      gives (s.current.cursor.rest.take width) a := by
  obtain ⟨a, run, enough, given⟩ := h.takes s.current.cursor next
  refine ⟨a, ?_, enough, given⟩
  rw [CursorSession.run, run]
  rfl

theorem run_refuses (h : p.AtOnce asks width fault gives)
    (other : asks s.current.cursor.rest = false) :
    s.run answer p = (.failed (s.current.cursor.fault fault), s) := by
  rw [run, h.refuses _ other]

theorem taking_atOnce {e : Expectation} (positive : 0 < e.width) :
    (taking e).AtOnce e.isMet e.width (.expected e) e.Gives := by
  cases e with
  | punct op =>
    have nonempty : op ≠ "" := by
      rintro rfl
      exact absurd positive (by decide)
    exact (punct_atOnce nonempty).map fun ts t marks => ⟨t, marks, rfl⟩
  | group d => exact advanceIf_atOnce rfl
  | anyGroup => exact advanceIf_atOnce rfl
  | keyword | identifier | lifetime | literal =>
    exact AtOnce.map (take_atOnce fun ts next => token_ahead next) fun ts t eq => eq

theorem taking_steady (e : Expectation) : (taking e).Steady := by
  cases e with
  | punct op => exact (punct_steady op).map
  | group | anyGroup | keyword | identifier | lifetime | literal =>
    exact AtOnce.steady (taking_atOnce Nat.one_pos)

theorem word_atOnce : (.token <$> anyWord : Parser TokenTree).AtOnce startsAnyWord 1
    (.expected .identifier) fun ts t => ts = [t] :=
  anyWord_atOnce.map fun _ _ eq => eq

theorem enter_takes {d : Delimiter} (next : startsGroup d s.current.cursor.rest = true) :
    ∃ us o e, s.enter d = (.entered ⟨d, o⟩, (s.skip 1).inside us e) ∧
      1 ≤ s.current.cursor.rest.length ∧ s.current.cursor.rest.take 1 = [.group d us o e] := by
  obtain ⟨_, run, enough, us, o, e, taken, rfl⟩ := (openGroup_atOnce d).takes _ next
  exact ⟨us, o, e, by rw [enter, run]; rfl, enough, taken⟩

theorem enter_refuses {d : Delimiter} (other : startsGroup d s.current.cursor.rest = false) :
    s.enter d = (.failed (s.current.cursor.fault (.expected (.group d))), s) := by
  rw [enter, (openGroup_atOnce d).refuses _ other]

/-- A step that finds what it takes moves the cursor of its frame past it. -/
theorem step_takes {step : CursorStep} {n : Nat} (takes : step.width? = some n) (positive : 0 < n)
    (next : step.asks s.current.cursor.rest = true) :
    ∃ a s', s.step step = (a, s') ∧ n ≤ s.current.cursor.rest.length ∧
      step.Answers (s.current.cursor.rest.take n) a ∧
      s'.frame? s.depth = some (s.current.skip n) := by
  cases step with
  | advance =>
    cases takes
    obtain ⟨t, run, enough, taken⟩ := run_takes .tree advance_atOnce next
    exact ⟨_, _, run, enough, ⟨t, taken, rfl⟩, frame?_skip 1⟩
  | anyWord =>
    cases takes
    obtain ⟨t, run, enough, taken⟩ := run_takes .tree word_atOnce next
    exact ⟨_, _, run, enough, ⟨t, taken, rfl⟩, frame?_skip 1⟩
  | take e =>
    cases takes
    obtain ⟨t, run, enough, taken⟩ := run_takes .tree (taking_atOnce positive) next
    exact ⟨_, _, run, enough, ⟨t, taken, rfl⟩, frame?_skip e.width⟩
  | takeIfMet e =>
    cases takes
    obtain ⟨t, run, enough, taken⟩ := run_takes .tree (taking_atOnce positive) next
    exact ⟨_, _, (if_pos next).trans run, enough, ⟨t, taken, rfl⟩, frame?_skip e.width⟩
  | enter d =>
    cases takes
    obtain ⟨us, o, e, run, enough, taken⟩ := enter_takes next
    exact ⟨_, _, run, enough, ⟨us, o, e, taken, rfl⟩, frame?_inside 1 us e⟩
  | atEnd | ask | isEmpty | span | rest | error | leave | lookahead | tryNext | expected =>
    cases takes

/-- A step that does not find what it takes leaves the session as it is. -/
theorem step_refuses {step : CursorStep} {n : Nat} (takes : step.width? = some n) (positive : 0 < n)
    (other : step.asks s.current.cursor.rest = false) :
    ∃ a, s.step step = (a, s) ∧ step.Refuses s.current.cursor.span a := by
  cases step with
  | advance => exact ⟨_, run_refuses advance_atOnce other, _, rfl⟩
  | anyWord => exact ⟨_, run_refuses word_atOnce other, _, rfl⟩
  | take e =>
    cases takes
    exact ⟨_, run_refuses (taking_atOnce positive) other, _, rfl⟩
  | takeIfMet e =>
    have off : e.isMet s.current.cursor.rest = false := other
    exact ⟨.nothing, by rw [step, off, if_neg Bool.false_ne_true], rfl⟩
  | enter d => exact ⟨_, enter_refuses other, _, rfl⟩
  | atEnd | ask | isEmpty | span | rest | error | leave | lookahead | tryNext | expected =>
    cases takes

/-- A parser for a token that may be missing, as an optional step. -/
theorem run_optional (p : Parser Token) (asks : List TokenTree → Bool) :
    s.run .optional (do if ← Parser.look asks then return some (← p) else return none) =
      if asks s.current.cursor.rest then s.run .tree (.token <$> p) else (.nothing, s) := by
  cases next : asks s.current.cursor.rest with
  | false =>
    rw [run, look_no next]
    rfl
  | true =>
    rw [run, look_yes next, if_pos rfl, run]
    simp only [bind, EStateM.bind, Functor.map, EStateM.map, pure, EStateM.pure]
    cases p s.current.cursor <;> rfl

theorem step_punct? (op : String) :
    s.step (.takeIfMet (.punct op)) = s.run .optional (punct? op) :=
  (run_optional (punct op) (startsPunct op)).symm

theorem step_keyword? (word : String) :
    s.step (.takeIfMet (.keyword word)) = s.run .optional (keyword? word) :=
  (run_optional (keyword word) (startsWord word)).symm

/-! ## Whole sessions -/

/-- All cursors of a session stand within their trees. -/
def Placed (s : CursorSession) : Prop :=
  ∀ f ∈ s.current :: s.outer, f.Placed

theorem Placed.skip (h : s.Placed) {n : Nat} (enough : n ≤ s.current.cursor.rest.length) :
    (s.skip n).Placed :=
  List.forall_mem_cons.2 ⟨(List.forall_mem_cons.1 h).1.skip enough, (List.forall_mem_cons.1 h).2⟩

theorem Placed.run (h : s.Placed) (steady : p.Steady) : (s.run answer p).2.Placed := by
  rw [CursorSession.run]
  obtain ⟨a, n, enough, eq⟩ | ⟨e, eq⟩ := steady s.current.cursor
  · rw [eq]
    exact h.skip enough
  · rw [eq]
    exact h

theorem Placed.leave (h : s.Placed) : s.leave.Placed := by
  unfold CursorSession.leave
  split
  · exact h
  · rename_i f fs eq
    have around := (List.forall_mem_cons.1 h).2
    rw [eq] at around
    exact around

/-- No step takes a cursor out of its trees. -/
theorem Placed.step (h : s.Placed) (step : CursorStep) : (s.step step).2.Placed := by
  cases step with
  | advance => exact h.run advance_atOnce.steady
  | take e => exact h.run (taking_steady e)
  | takeIfMet e =>
    rw [CursorSession.step]
    split
    · exact h.run (taking_steady e)
    · exact h
  | anyWord => exact h.run word_atOnce.steady
  | atEnd => exact h.run atEnd_steady
  | rest => exact h.run remaining_steady
  | ask q offset =>
    unfold CursorSession.step
    dsimp only
    split <;> exact h
  | enter d =>
    cases next : startsGroup d s.current.cursor.rest with
    | true =>
      obtain ⟨us, o, e, run, enough, -⟩ := enter_takes next
      rw [CursorSession.step, run]
      exact List.forall_mem_cons.2 ⟨CursorFrame.placed_ofTrees us e, h.skip enough⟩
    | false =>
      rw [CursorSession.step, enter_refuses next]
      exact h
  | leave => exact h.leave
  | isEmpty | span | error | lookahead => exact h
  | tryNext | expected =>
    rw [CursorSession.step]
    split <;> exact h

/-- However a session goes on, its cursors stand within the trees they were made for. -/
theorem placed_steps (trees : List TokenTree) (endSpan : Span) (steps : List CursorStep) :
    (steps.foldl (fun s step => (s.step step).2) (ofTrees trees endSpan)).Placed := by
  have start : (ofTrees trees endSpan).Placed :=
    List.forall_mem_singleton.2 (CursorFrame.placed_ofTrees trees endSpan)
  generalize ofTrees trees endSpan = s at start
  induction steps generalizing s with
  | nil => exact start
  | cons step steps ih => exact ih _ (start.step step)

/-! ## Results -/

/-- A step that takes what is next takes all of it or nothing. If it is next, the cursor of the step
moves past its trees and no others, and stays within the stream; if not, the session is left as it
is, and an error is about the next tree or the end. What the parsers take for an optional operator
or word is what the optional steps take. -/
theorem step_all_or_nothing {step : CursorStep} {n : Nat} (placed : s.current.Placed)
    (takes : step.width? = some n) (positive : 0 < n) :
    let pos := s.current.cursor.pos
    let ahead := s.current.trees.drop pos
    let next := (s.current.trees[pos]?.map TokenTree.span).getD s.current.cursor.endSpan
    (step.asks ahead = true → ∃ a s' f, s.step step = (a, s') ∧ step.Answers (ahead.take n) a ∧
      s'.frame? s.depth = some f ∧ f.trees = s.current.trees ∧
      f.cursor.endSpan = s.current.cursor.endSpan ∧ f.cursor.pos = pos + n ∧ f.Placed) ∧
    (step.asks ahead = false → ∃ a, s.step step = (a, s) ∧ step.Refuses next a) ∧
    (∀ op, s.step (.takeIfMet (.punct op)) = s.run .optional (punct? op)) ∧
    ∀ word, s.step (.takeIfMet (.keyword word)) = s.run .optional (keyword? word) := by
  intro pos ahead next
  have rest : s.current.cursor.rest = ahead := placed.ahead
  refine ⟨fun found => ?_, fun missing => ?_, step_punct?, step_keyword?⟩
  · rw [← rest] at found ⊢
    obtain ⟨a, s', run, enough, answer, frame⟩ := step_takes takes positive found
    exact ⟨a, s', _, run, answer, frame, rfl, rfl, rfl, placed.skip enough⟩
  · rw [← rest] at missing
    obtain ⟨a, run, refuses⟩ := step_refuses takes positive missing
    rw [placed.span] at refuses
    exact ⟨a, run, refuses⟩

/-- In front of `>>=` the operator `>>=` is taken whole, and `>=` is not taken at all. -/
theorem step_all_or_nothing_shift :
    let mark (text : String) (joint : Bool) (column : Int) : TokenTree :=
      .token ⟨.punct, text, ⟨"f", 1, column, 1, column⟩, joint⟩
    let s := ofTrees [mark ">" true 1, mark ">" true 2, mark "=" false 3] .callSite
    s.current.Placed ∧ CursorStep.width? (.take (.punct ">>=")) = some 3 ∧
      CursorStep.width? (.take (.punct ">=")) = some 2 ∧
      (∃ s' f, s.step (.take (.punct ">>=")) =
          (.tree (.token (.punct ">>=" ⟨"f", 1, 1, 1, 3⟩)), s') ∧
        s'.frame? 1 = some f ∧ f.cursor.pos = 3) ∧
      ∃ fault, s.step (.take (.punct ">=")) = (.failed ⟨fault, ⟨"f", 1, 1, 1, 1⟩⟩, s) := by
  intro mark s
  have placed : s.current.Placed := CursorFrame.placed_ofTrees _ _
  have shift : CursorStep.width? (.take (.punct ">>=")) = some 3 := by decide
  have atLeast : CursorStep.width? (.take (.punct ">=")) = some 2 := by decide
  refine ⟨placed, shift, atLeast, ?_, ?_⟩
  · obtain ⟨a, s', f, run, ⟨t, ⟨token, ⟨-, first, final, front, back, rfl⟩, rfl⟩, rfl⟩, frame, -, -,
      pos, -⟩ := (step_all_or_nothing placed shift (by decide)).1 (by decide)
    cases front
    cases back
    exact ⟨s', f, run, frame, pos⟩
  · obtain ⟨a, run, fault, rfl⟩ :=
      (step_all_or_nothing placed atLeast (by decide)).2.1 (by decide)
    exact ⟨fault, run⟩

end CursorSession

end TypeGrammar
