import TypeGrammar.Proofs.Reading
import TypeGrammar.Proofs.Regular

/-!
# What runs yield

A parser yields values with a property if every run that starts at trees of a given sort and
succeeds ends at trees of that sort, with a value that has the property. Where the sort of trees
passes on to the trees inside of them, a word that is taken is of the sort that the trees hold.

The rules follow the combinators, as those for runs that settle do; nothing is asked here of a run
that fails.
-/

namespace TypeGrammar

open TokenTree

/-- Every successful run from trees with the property `p` leaves such trees, and its value has the
property `P`. -/
def Yields {α : Type} (p : List TokenTree → Prop) (q : Parser α) (P : α → Prop) : Prop :=
  ∀ ⦃c a c'⦄, p c.rest → q c = .ok a c' → p c'.rest ∧ P a

/-- The separators of a list all are the operator `op`. -/
def Separated.SplitBy {α : Type} (op : String) : Separated α → Prop
  | .empty | .last _ => True
  | .cons _ s rest => (∃ span, s = Token.punct op span) ∧ rest.SplitBy op

namespace Separated

variable {α : Type} {op : String}

theorem SplitBy.mapLast {xs : Separated α} (h : xs.SplitBy op) (f : α → α) :
    (xs.mapLast f).SplitBy op := by
  induction xs with
  | empty | last => trivial
  | cons v s rest ih =>
    cases rest with
    | empty => exact h
    | last | cons => exact ⟨h.1, ih h.2⟩

theorem SplitBy.mapFirst {xs : Separated α} (h : xs.SplitBy op) (f : α → α) :
    (xs.mapFirst f).SplitBy op := by
  cases xs with
  | empty | last => trivial
  | cons v s rest => exact h

theorem SplitBy.join {xs ys : Separated α} (h : xs.SplitBy op) {s : Token}
    (sign : ∃ span, s = Token.punct op span) (h' : ys.SplitBy op) : (xs.join s ys).SplitBy op := by
  induction xs with
  | empty => exact h'
  | last v => exact ⟨sign, h'⟩
  | cons v t rest ih => exact ⟨h.1, ih h.2⟩

end Separated

namespace Inherited

variable {p : List TokenTree → Prop} {word : Token → Prop} {body : List TokenTree → Prop}
  (inherited : Inherited p word body)
include inherited

theorem drop {ts : List TokenTree} (h : p ts) (n : Nat) : p (ts.drop n) := by
  rw [← List.take_append_drop n ts] at h
  exact (inherited.append h).2

theorem cons {t : TokenTree} {ts : List TokenTree} (h : p (t :: ts)) : p [t] ∧ p ts :=
  inherited.append (show p ([t] ++ ts) from h)

end Inherited

namespace Yields

variable {α β : Type} {p : List TokenTree → Prop} {q q₁ : Parser α} {r : α → Parser β}
  {P P' : α → Prop} {Q : β → Prop}

/-! ## Rules -/

theorem weaken (h : Yields p q P) (result : ∀ x, P x → P' x) : Yields p q P' :=
  fun _ _ _ here run => (h here run).imp_right (result _)

theorem pure {x : α} (value : P x) : Yields p (Pure.pure x) P := by
  intro c a c' here run
  obtain ⟨rfl, rfl⟩ := Parser.pure_ok.1 run
  exact ⟨here, value⟩

theorem fail {f : ParseFault} : Yields p (Parser.fail f : Parser α) P :=
  fun _ _ _ _ run => (Parser.fail_ok.1 run).elim

theorem failNoneOf {es : List Expectation} : Yields p (Parser.failNoneOf es : Parser α) P :=
  fun _ _ _ _ run => (Parser.failNoneOf_ok.1 run).elim

theorem bind (first : Yields p q P) (second : ∀ x, P x → Yields p (r x) Q) :
    Yields p (q >>= r) Q := by
  intro c b c' here run
  obtain ⟨a, c₁, run, more⟩ := Parser.bind_ok.1 run
  obtain ⟨there, value⟩ := first here run
  exact second a value there more

theorem returning {f : α → β} (h : Yields p q P) (result : ∀ x, P x → Q (f x)) :
    Yields p (q >>= fun x => Pure.pure (f x)) Q :=
  h.bind fun x value => .pure (result x value)

theorem map {f : α → β} (h : Yields p q P) (result : ∀ x, P x → Q (f x)) : Yields p (f <$> q) Q :=
  h.returning result

theorem look {γ : Type} {f : List TokenTree → γ} {q : γ → Parser α}
    (h : ∀ ts, Yields p (q (f ts)) P) : Yields p (Parser.look f >>= q) P :=
  fun c _ _ here run => h c.rest here run

/-- The two ways past a question. -/
theorem ite {f : List TokenTree → Bool} (yes : Yields p q P) (no : Yields p q₁ P) :
    Yields p (Parser.look f >>= fun x => if x = true then q else q₁) P := by
  refine .look fun ts => ?_
  cases f ts with
  | true => exact yes
  | false => exact no

end Yields

namespace Parser

variable {α : Type} {p : List TokenTree → Prop} {word : Token → Prop} {body : List TokenTree → Prop}
  {q : Parser α} {P : α → Prop} (inherited : Inherited p word body)
include inherited

/-! ## Primitives -/

theorem take_yields (e : Expectation) : Yields p (take e) fun _ => True := by
  intro c t c' here run
  obtain ⟨eq, -⟩ := take_ok run
  rw [eq] at here
  exact ⟨(inherited.cons here).2, trivial⟩

/-- A word that is taken is of the sort that the trees hold. -/
theorem keyword_yields (w : String) :
    Yields p (keyword w) fun t => word t ∧ t.IsWord w := by
  intro c t c' here run
  obtain ⟨eq, known⟩ := keyword_ok run
  rw [eq] at here
  obtain ⟨first, rest⟩ := inherited.cons here
  exact ⟨rest, inherited.word first known.kind_ne rfl, known⟩

theorem anyWord_yields : Yields p anyWord fun _ => True := by
  intro c t c' here run
  obtain ⟨eq, -⟩ := anyWord_ok run
  rw [eq] at here
  exact ⟨(inherited.cons here).2, trivial⟩

theorem punct_yields (op : String) :
    Yields p (punct op) fun t => ∃ span, t = Token.punct op span := by
  intro c t c' here run
  obtain ⟨-, mark, left⟩ := punct_ok run
  rw [left]
  exact ⟨inherited.drop here _, mark⟩

theorem punct?_yields (op : String) :
    Yields p (punct? op) fun o => ∀ t ∈ o, ∃ span, t = Token.punct op span :=
  .ite ((punct_yields inherited op).returning fun t mark => by simpa using mark) (.pure nofun)

theorem keyword?_yields (w : String) :
    Yields p (keyword? w) fun o => ∀ t ∈ o, word t ∧ t.IsWord w :=
  .ite ((keyword_yields inherited w).returning fun t known => by simpa using known) (.pure nofun)

theorem anyGroup_yields : Yields p anyGroup fun x => x.1.delimiter ≠ .invisible := by
  rintro c ⟨delim, tokens⟩ c' here run
  obtain ⟨d, o, e, eq, rfl, visible⟩ := anyGroup_ok run
  rw [eq] at here
  exact ⟨(inherited.cons here).2, visible⟩

theorem remaining_yields : Yields p remaining fun _ => True := by
  intro c ts c' here run
  obtain ⟨-, empty⟩ := remaining_ok run
  rw [empty]
  rw [← List.nil_append c.rest] at here
  exact ⟨(inherited.append here).1, trivial⟩

/-- The contents of a group are of the sort of the trees around it. -/
theorem inGroup_yields (d : Delimiter) (h : Yields p q P) :
    Yields p (inGroup d q) fun x => x.1.delimiter = d ∧ P x.2 := by
  rintro c ⟨delim, a⟩ c' here run
  obtain ⟨us, o, e, c₁, eq, rfl, inner, -⟩ := inGroup_ok run
  rw [eq] at here
  obtain ⟨first, rest⟩ := inherited.cons here
  exact ⟨rest, rfl, (h (c := .ofTrees us e) (inherited.group first) inner).2⟩

/-- A group that is taken stands in trees with the property. -/
theorem inGroup_within {d : Delimiter} {x : Delim × α} {c c' : Cursor} (here : p c.rest)
    (run : inGroup d q c = .ok x c') : ∃ us o e, p [.group d us o e] := by
  obtain ⟨us, o, e, c₁, eq, -⟩ := inGroup_ok run
  rw [eq] at here
  exact ⟨us, o, e, (inherited.cons here).1⟩

/-! ## Lists -/

variable {rule : ListRule} {item : Parser α}

theorem listFrom_yields (h : Yields p item P) {limit : Nat} {v : α} (value : P v) :
    Yields p (listFrom rule item limit v)
      fun xs => (∀ x ∈ xs.toList, P x) ∧ xs.SplitBy rule.separator := by
  induction limit generalizing v with
  | zero => exact .fail
  | succ limit ih =>
    refine .ite ((punct_yields inherited _).bind fun s mark => .ite ?_ ?_) (.pure ?_)
    · refine h.bind fun w value' => (ih value').returning fun xs read => ⟨?_, mark, read.2⟩
      simpa [Separated.toList, value] using read.1
    · exact .pure ⟨by simpa [Separated.toList] using value, mark, trivial⟩
    · exact ⟨by simpa [Separated.toList] using value, trivial⟩

theorem listAfter_yields (h : Yields p item P) {v : α} (value : P v) :
    Yields p (listAfter rule item v)
      fun xs => (∀ x ∈ xs.toList, P x) ∧ xs.SplitBy rule.separator :=
  fun _ _ _ here run => listFrom_yields inherited h value here run

theorem list1_yields (h : Yields p item P) :
    Yields p (list1 rule item)
      fun xs => (∀ x ∈ xs.toList, P x) ∧ xs.SplitBy rule.separator :=
  h.bind fun _ value => listAfter_yields inherited h value

theorem list_yields (h : Yields p item P) :
    Yields p (list rule item)
      fun xs => (∀ x ∈ xs.toList, P x) ∧ xs.SplitBy rule.separator :=
  .ite (list1_yields inherited h) (.pure ⟨by simp [Separated.toList], trivial⟩)

end Parser

end TypeGrammar
