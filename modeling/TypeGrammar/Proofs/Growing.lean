import Mathlib.Data.List.Forall2
import TypeGrammar.Proofs.Building
import TypeGrammar.Slice

/-!
# Lists with separators as lists of pairs

A list that grows step by step is told completely by its pairs, each a value with the separator
after it. What a step does to the pairs can be said without the list: a value is refused if the last
pair has no separator, a separator is refused unless the last pair has none, and what is refused
leaves the pairs as they are. Of further pairs all are taken up to the first one without a
separator. And whatever is asked of the list is answered by the pairs.
-/

namespace TypeGrammar

variable {α : Type}

/-- A step by which a list grows. -/
inductive Growth (α : Type) where
  | value (v : α)
  | separator (s : Token)
  | push (v : α)
  | extend (pairs : List (α × Option Token))

namespace SeparatedBuilder

/-- The list after a step, and the fault of the step. -/
def grow (b : SeparatedBuilder α) : Growth α → SeparatedBuilder α × Option SeparatedFault
  | .value v =>
    match b.addValue v with
    | .ok b' => (b', none)
    | .error fault => (b, some fault)
  | .separator s =>
    match b.addSeparator s with
    | .ok b' => (b', none)
    | .error fault => (b, some fault)
  | .push v => (b.push v, none)
  | .extend pairs => b.extend pairs

/-- The list after some steps, and the fault of each of them. -/
def growAll (b : SeparatedBuilder α) :
    List (Growth α) → SeparatedBuilder α × List (Option SeparatedFault)
  | [] => (b, [])
  | step :: steps =>
    let (b', fault) := b.grow step
    let (last, faults) := b'.growAll steps
    (last, fault :: faults)

end SeparatedBuilder

/-! ## Lists of pairs -/

namespace Pairs

/-- True if the last pair has no separator. -/
def isOpen (ps : List (α × Option Token)) : Bool :=
  ps.getLast?.any (·.2.isNone)

/-- The pairs with `s` as the separator of the last one. -/
def close (ps : List (α × Option Token)) (s : Token) : List (α × Option Token) :=
  ps.dropLast ++ ps.getLast?.toList.map fun p => (p.1, some s)

/-- The pairs up to the first one without a separator. -/
def fitting (ps : List (α × Option Token)) : List (α × Option Token) :=
  ps.takeWhile (·.2.isSome) ++ (ps.dropWhile (·.2.isSome)).take 1

/-- The pairs after a step, and the fault of the step. `own` is the separator that is inserted where
one is missing. -/
def grow (own : Token) (ps : List (α × Option Token)) :
    Growth α → List (α × Option Token) × Option SeparatedFault
  | .value v =>
    if isOpen ps then (ps, some .missingSeparator) else (ps ++ [(v, none)], none)
  | .separator s =>
    if isOpen ps then (close ps s, none) else (ps, some .missingValue)
  | .push v =>
    ((if isOpen ps then close ps own else ps) ++ [(v, none)], none)
  | .extend more =>
    let fit := if isOpen ps then [] else fitting more
    (ps ++ fit, if fit.length < more.length then some .missingSeparator else none)

/-- The pairs after some steps, and the fault of each of them. -/
def growAll (own : Token) (ps : List (α × Option Token)) :
    List (Growth α) → List (α × Option Token) × List (Option SeparatedFault)
  | [] => (ps, [])
  | step :: steps =>
    let (ps', fault) := grow own ps step
    let (last, faults) := growAll own ps' steps
    (last, fault :: faults)

theorem isOpen_concat (ps : List (α × Option Token)) (v : α) (s : Option Token) :
    isOpen (ps ++ [(v, s)]) = s.isNone := by
  simp [isOpen]

theorem close_concat (ps : List (α × Option Token)) (v : α) (o : Option Token) (s : Token) :
    close (ps ++ [(v, o)]) s = ps ++ [(v, some s)] := by
  simp [close]

theorem fitting_cons_none (v : α) (ps : List (α × Option Token)) :
    fitting ((v, none) :: ps) = [(v, none)] := by
  simp [fitting]

theorem fitting_cons_some (v : α) (s : Token) (ps : List (α × Option Token)) :
    fitting ((v, some s) :: ps) = (v, some s) :: fitting ps := by
  simp [fitting]

end Pairs

/-! ## The pairs of a list -/

namespace Separated

open Pairs

/-- Only the last pair of a list may have no separator. -/
theorem isSome_of_mem_dropLast_pairs (p : Separated α) : ∀ x ∈ p.pairs.dropLast, x.2.isSome := by
  induction p with
  | empty => exact fun _ mem => absurd mem List.not_mem_nil
  | last v => exact fun _ mem => absurd mem List.not_mem_nil
  | cons v s rest ih =>
    intro x mem
    rw [pairs] at mem
    cases more : rest.pairs with
    | nil => simp [more] at mem
    | cons y ys =>
      rw [more, List.dropLast_cons_cons, ← more] at mem
      obtain rfl | mem := List.mem_cons.1 mem
      · rfl
      · exact ih x mem

theorem toList_eq (p : Separated α) : p.toList = p.pairs.map Prod.fst := by
  induction p with
  | empty => rfl
  | last v => rfl
  | cons v s rest ih => rw [toList, pairs, List.map_cons, ih]

theorem first?_eq (p : Separated α) : p.first? = p.pairs.head?.map Prod.fst := by
  cases p <;> rfl

/-- A list ends in a value without a separator, in a value with one, or has no values. -/
theorem pairs_cases (p : Separated α) :
    p = .empty ∨
    (∃ front v, p.pairs = front ++ [(v, none)] ∧ p.last? = some v ∧ p.acceptsValue = false ∧
      p.trailing = false) ∨
    ∃ front v s, p.pairs = front ++ [(v, some s)] ∧ p.last? = some v ∧ p.acceptsValue = true ∧
      p.trailing = true := by
  induction p with
  | empty => exact .inl rfl
  | last v => exact .inr (.inl ⟨[], v, rfl, rfl, rfl, rfl⟩)
  | cons v s rest ih =>
    cases rest with
    | empty => exact .inr (.inr ⟨[], v, s, rfl, rfl, rfl, rfl⟩)
    | last w => exact .inr (.inl ⟨[(v, some s)], w, rfl, rfl, rfl, rfl⟩)
    | cons w t rest =>
      obtain ⟨⟨⟩⟩ | ⟨front, x, eq, last, accepts, trailing⟩ |
        ⟨front, x, u, eq, last, accepts, trailing⟩ := ih
      · exact .inr (.inl ⟨(v, some s) :: front, x, congrArg _ eq, last, accepts, trailing⟩)
      · exact .inr (.inr ⟨(v, some s) :: front, x, u, congrArg _ eq, last, accepts, trailing⟩)

theorem last?_eq (p : Separated α) : p.last? = p.pairs.getLast?.map Prod.fst := by
  obtain rfl | ⟨front, v, eq, last, -⟩ | ⟨front, v, s, eq, last, -⟩ := p.pairs_cases
  · rfl
  · simp [eq, last]
  · simp [eq, last]

theorem acceptsValue_eq_isOpen (p : Separated α) : p.acceptsValue = !isOpen p.pairs := by
  obtain rfl | ⟨front, v, eq, -, accepts, -⟩ | ⟨front, v, s, eq, -, accepts, -⟩ := p.pairs_cases
  · rfl
  · rw [accepts, eq, isOpen_concat]
    rfl
  · rw [accepts, eq, isOpen_concat]
    rfl

theorem trailing_eq (p : Separated α) : p.trailing = p.pairs.getLast?.any (·.2.isSome) := by
  obtain rfl | ⟨front, v, eq, -, -, trailing⟩ | ⟨front, v, s, eq, -, -, trailing⟩ := p.pairs_cases
  · rfl
  · simp [trailing, eq]
  · simp [trailing, eq]

/-! ## Steps -/

variable {p : Separated α}

/-- A value or a whole list goes after pairs that all have their separators. -/
theorem pairs_join_of_accepts (accepts : p.acceptsValue = true) (t : Token) (q : Separated α) :
    (p.join t q).pairs = p.pairs ++ q.pairs := by
  induction p with
  | empty => rfl
  | last v => simp [acceptsValue] at accepts
  | cons v s rest ih => exact congrArg (List.cons (v, some s)) (ih accepts)

theorem pairs_close (ends : p.acceptsValue = false) (s : Token) :
    (p.close s).pairs = Pairs.close p.pairs s := by
  obtain ⟨front, v, eq, joined⟩ := pairs_join ends s .empty
  rw [Separated.close, joined, eq, close_concat]
  rfl

theorem addValue?_eq_none (ends : p.acceptsValue = false) (v : α) : p.addValue? v = none := by
  induction p with
  | empty => simp [acceptsValue] at ends
  | last w => rfl
  | cons w s rest ih => rw [addValue?, ih ends, Option.map_none]

theorem addSeparator?_eq_none (accepts : p.acceptsValue = true) (s : Token) :
    p.addSeparator? s = none := by
  induction p with
  | empty => rfl
  | last w => simp [acceptsValue] at accepts
  | cons w t rest ih => rw [addSeparator?, ih accepts, Option.map_none]

end Separated

namespace SeparatedBuilder

open Separated

variable {b : SeparatedBuilder α}

theorem addValue_error (ends : b.items.acceptsValue = false) (v : α) :
    b.addValue v = .error .missingSeparator := by
  rw [addValue, addValue?_eq_none ends]

theorem addSeparator_error (accepts : b.items.acceptsValue = true) (s : Token) :
    b.addSeparator s = .error .missingValue := by
  rw [addSeparator, addSeparator?_eq_none accepts]

theorem isOpen_pairs (b : SeparatedBuilder α) :
    Pairs.isOpen b.items.pairs = !b.items.acceptsValue := by
  rw [acceptsValue_eq_isOpen, Bool.not_not]

/-- A list and faults are what pairs and faults tell, where `own` is the separator that the list
inserts. -/
structure ToldBy {φ : Type} (own : Token) (told : SeparatedBuilder α × φ)
    (by' : List (α × Option Token) × φ) : Prop where
  pairs : told.1.items.pairs = by'.1
  faults : told.2 = by'.2
  own : told.1.ownSeparator = own

/-- A list whose last value has no separator takes no further pairs. -/
theorem extend_open (ends : b.items.acceptsValue = false) (more : List (α × Option Token)) :
    b.extend more = (b, if 0 < more.length then some .missingSeparator else none) := by
  cases more with
  | nil => rfl
  | cons x more =>
    rw [extend, addValue_error ends]
    rfl

/-- A list that accepts a value takes the pairs up to the first one without a separator. -/
theorem extend_fitting (accepts : b.items.acceptsValue = true) (more : List (α × Option Token)) :
    ToldBy b.ownSeparator (b.extend more) (b.items.pairs ++ Pairs.fitting more,
      if (Pairs.fitting more).length < more.length then some .missingSeparator else none) := by
  induction more generalizing b with
  | nil => exact ⟨(List.append_nil _).symm, rfl, rfl⟩
  | cons x more ih =>
    obtain ⟨v, s⟩ := x
    have added := pairs_join_of_accepts accepts b.ownSeparator (.last v)
    cases s with
    | none =>
      have ends : (b.followedBy (.last v)).items.acceptsValue = false :=
        (join_last accepts b.ownSeparator b.ownSeparator v).1
      simp only [extend, addValue_eq accepts, extend_open ends, Pairs.fitting_cons_none,
        List.length_cons, List.length_nil, Nat.add_lt_add_iff_right]
      exact ⟨added, rfl, rfl⟩
    | some s =>
      have closed := pairs_join_of_accepts accepts b.ownSeparator (.cons v s .empty)
      have told := ih (acceptsValue_followedBy accepts v s)
      rw [show (b.followedBy (.cons v s .empty)).items.pairs = _ from closed, List.append_assoc]
        at told
      simp only [extend, addValue_eq accepts, addSeparator_eq accepts, Pairs.fitting_cons_some,
        List.length_cons, Nat.add_lt_add_iff_right]
      exact told

/-- What a step does to a list is told by the pairs of the list. -/
theorem grow_toldBy (b : SeparatedBuilder α) (step : Growth α) :
    ToldBy b.ownSeparator (b.grow step) (Pairs.grow b.ownSeparator b.items.pairs step) := by
  have opens := b.isOpen_pairs
  cases accepts : b.items.acceptsValue with
  | false =>
    rw [accepts, Bool.not_false] at opens
    cases step with
    | value v =>
      simpa only [grow, addValue_error accepts, Pairs.grow, if_pos opens] using ⟨rfl, rfl, rfl⟩
    | separator s =>
      simpa only [grow, addSeparator, addSeparator?_eq accepts, Pairs.grow, if_pos opens]
        using ⟨pairs_close accepts s, rfl, rfl⟩
    | push v =>
      obtain ⟨front, w, eq, joined⟩ := pairs_join accepts b.ownSeparator (.last v)
      refine ⟨?_, rfl, rfl⟩
      simp only [grow, push, Pairs.grow, if_pos opens, joined]
      rw [eq, Pairs.close_concat, List.append_assoc]
      rfl
    | extend more =>
      simpa only [grow, extend_open accepts, Pairs.grow, if_pos opens]
        using ⟨(List.append_nil _).symm, rfl, rfl⟩
  | true =>
    rw [accepts, Bool.not_true] at opens
    cases step with
    | value v =>
      simpa only [grow, addValue_eq accepts, Pairs.grow, if_neg (Bool.eq_false_iff.1 opens)]
        using ⟨pairs_join_of_accepts accepts b.ownSeparator (.last v), rfl, rfl⟩
    | separator s =>
      simpa only [grow, addSeparator_error accepts, Pairs.grow, opens] using ⟨rfl, rfl, rfl⟩
    | push v =>
      simpa only [grow, push, Pairs.grow, opens]
        using ⟨pairs_join_of_accepts accepts b.ownSeparator (.last v), rfl, rfl⟩
    | extend more =>
      simpa only [grow, Pairs.grow, opens, Bool.false_eq_true, if_false]
        using extend_fitting accepts more

/-- What some steps do to a list is told by the pairs of the list. -/
theorem growAll_toldBy (b : SeparatedBuilder α) (steps : List (Growth α)) :
    ToldBy b.ownSeparator (b.growAll steps)
      (Pairs.growAll b.ownSeparator b.items.pairs steps) := by
  induction steps generalizing b with
  | nil => exact ⟨rfl, rfl, rfl⟩
  | cons step steps ih =>
    have first := b.grow_toldBy step
    have more := ih (b.grow step).1
    rw [first.pairs, first.own] at more
    exact ⟨more.pairs, congrArg₂ List.cons first.faults more.faults, more.own⟩

end SeparatedBuilder

/-! ## What is asked of a list -/

namespace Separated

theorem nth?_ofNat (xs : List α) (i : Nat) : nth? xs i = xs[i]? := by
  simp [nth?]

theorem nth?_neg (xs : List α) (i : Nat) : nth? xs (-(i + 1 : Nat)) = xs.reverse[i]? := by
  have below : ¬ (0 : Int) ≤ -(i + 1 : Nat) := by omega
  rw [nth?, if_neg below]
  split
  · rename_i inside
    have inside : i < xs.length := by omega
    rw [List.getElem?_reverse inside]
    congr 1
    omega
  · exact (List.getElem?_eq_none (by rw [List.length_reverse]; omega)).symm

/-- Equality of pairs. -/
def SamePair (eq : α → α → Bool) (x y : α × Option Token) : Prop :=
  eq x.1 y.1 = true ∧ x.2.map Token.erase = y.2.map Token.erase

theorem same_iff (eq : α → α → Bool) (p q : Separated α) :
    p.same eq q = true ↔ List.Forall₂ (SamePair eq) p.pairs q.pairs := by
  induction p generalizing q with
  | empty => cases q <;> simp [same, pairs]
  | last v => cases q <;> simp [same, pairs, SamePair]
  | cons v s rest ih => cases q <;> simp [same, pairs, SamePair, ih, and_assoc]

/-- A list gives the answers that its pairs give. -/
structure AnswersAs (p : Separated α) (ps : List (α × Option Token)) : Prop where
  pairs : p.pairs = ps
  values : p.toList = ps.map Prod.fst
  fromStart : ∀ i : Nat, nth? p.toList i = ps[i]?.map Prod.fst
  fromEnd : ∀ i : Nat, nth? p.toList (-(i + 1 : Nat)) = ps.reverse[i]?.map Prod.fst
  first : p.first? = ps.head?.map Prod.fst
  last : p.last? = ps.getLast?.map Prod.fst
  isEmpty : p.toList.isEmpty = ps.isEmpty
  length : p.toList.length = ps.length
  trailing : p.trailing = ps.getLast?.any (·.2.isSome)
  acceptsValue : p.acceptsValue = !Pairs.isOpen ps

theorem answersAs_pairs (p : Separated α) : p.AnswersAs p.pairs where
  pairs := rfl
  values := p.toList_eq
  fromStart i := by rw [toList_eq, nth?_ofNat, List.getElem?_map]
  fromEnd i := by rw [toList_eq, nth?_neg, ← List.map_reverse, List.getElem?_map]
  first := p.first?_eq
  last := p.last?_eq
  isEmpty := by rw [toList_eq, List.isEmpty_map]
  length := by rw [toList_eq, List.length_map]
  trailing := p.trailing_eq
  acceptsValue := p.acceptsValue_eq_isOpen

end Separated

/-- A list that has grown from nothing by any steps has the pairs that the steps make, refuses what
does not go with them, and answers as they do. Two such lists are equal if their pairs are, and a
list that takes the pairs of another one is that list. -/
theorem growAll_pairs (separator : String) (steps : List (Growth α)) :
    let grown := (SeparatedBuilder.empty separator).growAll steps
    let told := Pairs.growAll (.punct separator .callSite) [] steps
    grown.1.items.AnswersAs told.1 ∧ grown.2 = told.2 ∧
      (∀ x ∈ told.1.dropLast, x.2.isSome) ∧
      (∀ (eq : α → α → Bool) (separator' : String) (steps' : List (Growth α)),
        grown.1.items.same eq ((SeparatedBuilder.empty separator').growAll steps').1.items = true ↔
          List.Forall₂ (Separated.SamePair eq) told.1
            (Pairs.growAll (.punct separator' .callSite) [] steps').1) ∧
      ∀ separator' : String, (SeparatedBuilder.empty separator').extend grown.1.items.pairs =
        (⟨separator', grown.1.items⟩, none) := by
  have told := (SeparatedBuilder.empty separator : SeparatedBuilder α).growAll_toldBy steps
  have pairs : _ = (Pairs.growAll (.punct separator .callSite) [] steps).1 := told.pairs
  refine ⟨?_, told.faults, ?_, fun eq separator' steps' => ?_, fun separator' => ?_⟩
  · rw [← pairs]
    exact Separated.answersAs_pairs _
  · rw [← pairs]
    exact Separated.isSome_of_mem_dropLast_pairs _
  · have told' := (SeparatedBuilder.empty separator' : SeparatedBuilder α).growAll_toldBy steps'
    rw [Separated.same_iff, pairs, told'.pairs]
    rfl
  · exact SeparatedBuilder.extend_pairs rfl _

end TypeGrammar
