import TypeGrammar.Proofs.Growing
import TypeGrammar.Separated.Parts

/-!
# Lists in parts

The parts of a list make up a list with separators, and a change of the parts is a step of that
list: it leaves the parts of the list that the step leaves, and fails with the fault of the step. So
parts that have grown from nothing give the answers of the list that has grown by the same steps. Of
the parts themselves it is kept that what stands for a missing value stands where no value is
pending.
-/

namespace TypeGrammar

variable {α : Type}

namespace Separated

/-- The values of `inner` with their separators, and the list `rest` after them. -/
def after (inner : List (α × Token)) (rest : Separated α) : Separated α :=
  inner.foldr (fun x => cons x.1 x.2) rest

variable (inner : List (α × Token)) (rest : Separated α)

theorem after_concat (v : α) (t : Token) :
    after (inner ++ [(v, t)]) rest = after inner (.cons v t rest) := by
  simp [after]

theorem acceptsValue_after : (after inner rest).acceptsValue = rest.acceptsValue := by
  induction inner with
  | nil => rfl
  | cons x inner ih => exact ih

theorem pairs_after :
    (after inner rest).pairs = inner.map (fun x => (x.1, some x.2)) ++ rest.pairs := by
  induction inner with
  | nil => rfl
  | cons x inner ih => exact congrArg (List.cons (x.1, some x.2)) ih

theorem join_after (t : Token) (q : Separated α) :
    (after inner rest).join t q = after inner (rest.join t q) := by
  induction inner with
  | nil => rfl
  | cons x inner ih => exact congrArg (cons x.1 x.2) ih

theorem same_eq_isEqv (eq : α → α → Bool) (p q : Separated α) :
    p.same eq q = p.pairs.isEqv q.pairs fun x y =>
      eq x.1 y.1 && x.2.map Token.erase == y.2.map Token.erase := by
  induction p generalizing q with
  | empty => cases q <;> rfl
  | last v => cases q <;> simp [same, pairs, List.isEqv]
  | cons v s rest ih => cases q <;> simp [same, pairs, List.isEqv, ih]

end Separated

namespace SeparatedParts

/-- The list that the parts make up. -/
def items (s : SeparatedParts α) : Separated α :=
  .after s.inner (if s.hasLast then .last s.last else .empty)

/-- The parts as a list that grows at its end. -/
def toBuilder (s : SeparatedParts α) : SeparatedBuilder α :=
  ⟨s.separator, s.items⟩

theorem acceptsValue_items (s : SeparatedParts α) : s.items.acceptsValue = !s.hasLast := by
  rw [items, Separated.acceptsValue_after]
  cases s.hasLast <;> rfl

theorem accepts_of_free {s : SeparatedParts α} (free : s.hasLast = false) :
    s.toBuilder.items.acceptsValue = true := by
  rw [toBuilder, acceptsValue_items, free, Bool.not_false]

theorem ends_of_pending {s : SeparatedParts α} (pending : s.hasLast = true) :
    s.toBuilder.items.acceptsValue = false := by
  rw [toBuilder, acceptsValue_items, pending, Bool.not_true]

/-! ## Single changes -/

section Changes

variable {s : SeparatedParts α}

theorem pushValue_fails (pending : s.hasLast = true) (v : α) :
    pushValue v s = .error .missingSeparator s := by
  obtain ⟨separator, inner, last, hasLast⟩ := s
  cases pending
  rfl

theorem pushValue_adds (free : s.hasLast = false) (v : α) :
    pushValue v s = .ok () { s with last := v, hasLast := true } := by
  obtain ⟨separator, inner, last, hasLast⟩ := s
  cases free
  rfl

theorem toBuilder_value (free : s.hasLast = false) (v : α) :
    toBuilder { s with last := v, hasLast := true } = s.toBuilder.followedBy (.last v) := by
  rw [SeparatedBuilder.followedBy, toBuilder, toBuilder, items, items, free, Separated.join_after]
  rfl

variable [Inhabited α]

theorem pushSeparator_fails (free : s.hasLast = false) (t : Token) :
    pushSeparator t s = .error .missingValue s := by
  obtain ⟨separator, inner, last, hasLast⟩ := s
  cases free
  rfl

theorem pushSeparator_adds (pending : s.hasLast = true) (t : Token) :
    pushSeparator t s =
      .ok () { s with inner := s.inner ++ [(s.last, t)], last := default, hasLast := false } := by
  obtain ⟨separator, inner, last, hasLast⟩ := s
  cases pending
  rfl

theorem toBuilder_separator (pending : s.hasLast = true) (t : Token) :
    toBuilder { s with inner := s.inner ++ [(s.last, t)], last := default, hasLast := false } =
      { s.toBuilder with items := s.items.close t } := by
  rw [Separated.close, toBuilder, toBuilder, items, items, pending, Separated.join_after,
    Separated.after_concat]
  rfl

theorem toBuilder_pair (free : s.hasLast = false) (v : α) (t : Token) :
    toBuilder { s with inner := s.inner ++ [(v, t)], last := default, hasLast := false } =
      s.toBuilder.followedBy (.cons v t .empty) := by
  rw [SeparatedBuilder.followedBy, toBuilder, toBuilder, items, items, free, Separated.join_after,
    Separated.after_concat]
  rfl

/-- A value that is pushed where a value is pending comes after a separator. -/
theorem push_of_pending (pending : s.hasLast = true) (v : α) :
    push v s = pushValue v { s with
      inner := s.inner ++ [(s.last, .punct s.separator .callSite)]
      last := default
      hasLast := false } := by
  obtain ⟨separator, inner, last, hasLast⟩ := s
  cases pending
  rfl

theorem push_of_free (free : s.hasLast = false) (v : α) : push v s = pushValue v s := by
  obtain ⟨separator, inner, last, hasLast⟩ := s
  cases free
  rfl

theorem extend_fails (pending : s.hasLast = true) (v : α) (t : Option Token)
    (rest : List (α × Option Token)) :
    extend ((v, t) :: rest) s = .error .missingSeparator s := by
  obtain ⟨separator, inner, last, hasLast⟩ := s
  cases pending
  rfl

theorem extend_value (free : s.hasLast = false) (v : α) (rest : List (α × Option Token)) :
    extend ((v, none) :: rest) s = extend rest { s with last := v, hasLast := true } := by
  obtain ⟨separator, inner, last, hasLast⟩ := s
  cases free
  rfl

theorem extend_pair (free : s.hasLast = false) (v : α) (t : Token)
    (rest : List (α × Option Token)) :
    extend ((v, some t) :: rest) s =
      extend rest { s with inner := s.inner ++ [(v, t)], last := default, hasLast := false } := by
  obtain ⟨separator, inner, last, hasLast⟩ := s
  cases free
  rfl

end Changes

/-! ## Steps -/

variable [Inhabited α]

/-- The parts and the fault that a change leaves. -/
def outcome : EStateM.Result SeparatedFault (SeparatedParts α) Unit →
    SeparatedParts α × Option SeparatedFault
  | .ok _ s => (s, none)
  | .error fault s => (s, some fault)

/-- The change that a step makes. -/
def change : Growth α → SeparatedChange α Unit
  | .value v => pushValue v
  | .separator t => pushSeparator t
  | .push v => push v
  | .extend pairs => extend pairs

/-- The parts after a step, and the fault of the step. -/
def grow (s : SeparatedParts α) (step : Growth α) : SeparatedParts α × Option SeparatedFault :=
  outcome (change step s)

/-- The parts after some steps, and the fault of each of them. -/
def growAll (s : SeparatedParts α) :
    List (Growth α) → SeparatedParts α × List (Option SeparatedFault)
  | [] => (s, [])
  | step :: steps =>
    let (s', fault) := s.grow step
    let (last, faults) := s'.growAll steps
    (last, fault :: faults)

omit [Inhabited α] in
theorem pushValue_toBuilder (s : SeparatedParts α) (v : α) :
    Prod.map toBuilder id (outcome (pushValue v s)) = s.toBuilder.grow (.value v) := by
  cases pending : s.hasLast with
  | true =>
    simp only [pushValue_fails pending, SeparatedBuilder.grow,
      SeparatedBuilder.addValue_error (ends_of_pending pending)]
    rfl
  | false =>
    simp only [pushValue_adds pending, SeparatedBuilder.grow,
      SeparatedBuilder.addValue_eq (accepts_of_free pending), ← toBuilder_value pending]
    rfl

theorem pushSeparator_toBuilder (s : SeparatedParts α) (t : Token) :
    Prod.map toBuilder id (outcome (pushSeparator t s)) = s.toBuilder.grow (.separator t) := by
  cases pending : s.hasLast with
  | true =>
    have closed := Separated.addSeparator?_eq (ends_of_pending pending) t
    simp only [pushSeparator_adds pending, SeparatedBuilder.grow, SeparatedBuilder.addSeparator,
      closed]
    exact congrArg (·, none) (toBuilder_separator pending t)
  | false =>
    simp only [pushSeparator_fails pending, SeparatedBuilder.grow,
      SeparatedBuilder.addSeparator_error (accepts_of_free pending)]
    rfl

theorem push_toBuilder (s : SeparatedParts α) (v : α) :
    Prod.map toBuilder id (outcome (push v s)) = s.toBuilder.grow (.push v) := by
  cases pending : s.hasLast with
  | true =>
    have closed := toBuilder_separator pending (.punct s.separator .callSite)
    have joined := (Separated.close_join (ends_of_pending pending)
      s.toBuilder.ownSeparator s.toBuilder.ownSeparator (.last v)).2
    rw [push_of_pending pending, pushValue_adds rfl]
    refine congrArg (·, none) ((toBuilder_value rfl v).trans ?_)
    rw [closed]
    exact congrArg (SeparatedBuilder.mk s.separator) joined
  | false =>
    rw [push_of_free pending, pushValue_adds pending]
    exact congrArg (·, none) (toBuilder_value pending v)

/-- Values and separators that are added to the parts are added to the list, up to the first that
does not fit. -/
theorem extend_toBuilder (s : SeparatedParts α) (pairs : List (α × Option Token)) :
    Prod.map toBuilder id (outcome (extend pairs s)) = s.toBuilder.extend pairs := by
  induction pairs generalizing s with
  | nil => rfl
  | cons x rest ih =>
    obtain ⟨v, t⟩ := x
    cases pending : s.hasLast with
    | true =>
      rw [extend_fails pending, SeparatedBuilder.extend,
        SeparatedBuilder.addValue_error (ends_of_pending pending)]
      rfl
    | false =>
      have accepts := accepts_of_free pending
      cases t with
      | none =>
        rw [extend_value pending, ih, toBuilder_value pending]
        simp only [SeparatedBuilder.extend, SeparatedBuilder.addValue_eq accepts]
      | some t =>
        rw [extend_pair pending, ih, toBuilder_pair pending]
        simp only [SeparatedBuilder.extend, SeparatedBuilder.addValue_eq accepts,
          SeparatedBuilder.addSeparator_eq accepts]

/-- A step changes the parts as it changes the list that they make up. -/
theorem grow_toBuilder (s : SeparatedParts α) (step : Growth α) :
    Prod.map toBuilder id (s.grow step) = s.toBuilder.grow step := by
  cases step with
  | value v => exact s.pushValue_toBuilder v
  | separator t => exact s.pushSeparator_toBuilder t
  | push v => exact s.push_toBuilder v
  | extend pairs => exact s.extend_toBuilder pairs

/-- Parts that grow by some steps make up the list that grows by them, and meet the same faults. -/
theorem growAll_toBuilder (s : SeparatedParts α) (steps : List (Growth α)) :
    Prod.map toBuilder id (s.growAll steps) = s.toBuilder.growAll steps := by
  induction steps generalizing s with
  | nil => rfl
  | cons step steps ih =>
    have first := s.grow_toBuilder step
    have more := ih (s.grow step).1
    rw [SeparatedBuilder.growAll, ← first]
    dsimp only [Prod.map]
    rw [← more]
    rfl

/-! ## What is kept -/

/-- Where no value is pending, what stands for a missing value is in its place. -/
def Cleared (s : SeparatedParts α) : Prop :=
  s.hasLast = false → s.last = default

section Kept

variable {s : SeparatedParts α}

theorem cleared_pushValue (h : s.Cleared) (v : α) : (outcome (pushValue v s)).1.Cleared := by
  cases pending : s.hasLast with
  | true =>
    rw [pushValue_fails pending]
    exact h
  | false =>
    rw [pushValue_adds pending]
    exact nofun

theorem cleared_pushSeparator (h : s.Cleared) (t : Token) :
    (outcome (pushSeparator t s)).1.Cleared := by
  cases pending : s.hasLast with
  | true =>
    rw [pushSeparator_adds pending]
    exact fun _ => rfl
  | false =>
    rw [pushSeparator_fails pending]
    exact h

theorem cleared_push (h : s.Cleared) (v : α) : (outcome (push v s)).1.Cleared := by
  cases pending : s.hasLast with
  | true =>
    rw [push_of_pending pending]
    exact cleared_pushValue (fun _ => rfl) v
  | false =>
    rw [push_of_free pending]
    exact cleared_pushValue h v

theorem cleared_extend (h : s.Cleared) (pairs : List (α × Option Token)) :
    (outcome (extend pairs s)).1.Cleared := by
  induction pairs generalizing s with
  | nil => exact h
  | cons x rest ih =>
    obtain ⟨v, t⟩ := x
    cases pending : s.hasLast with
    | true =>
      rw [extend_fails pending]
      exact h
    | false =>
      cases t with
      | none =>
        rw [extend_value pending]
        exact ih nofun
      | some t =>
        rw [extend_pair pending]
        exact ih fun _ => rfl

theorem cleared_grow (h : s.Cleared) (step : Growth α) : (s.grow step).1.Cleared := by
  cases step with
  | value v => exact cleared_pushValue h v
  | separator t => exact cleared_pushSeparator h t
  | push v => exact cleared_push h v
  | extend pairs => exact cleared_extend h pairs

theorem cleared_growAll (h : s.Cleared) (steps : List (Growth α)) :
    (s.growAll steps).1.Cleared := by
  induction steps generalizing s with
  | nil => exact h
  | cons step steps ih => exact ih (cleared_grow h step)

end Kept

/-! ## Answers -/

omit [Inhabited α] in
theorem pairs_items (s : SeparatedParts α) : s.items.pairs = s.pairs := by
  rw [items, Separated.pairs_after, pairs]
  cases s.hasLast <;> rfl

omit [Inhabited α] in
theorem toList_items (s : SeparatedParts α) : s.items.toList = s.toList := by
  rw [Separated.toList_eq, pairs_items, pairs, toList, List.map_append, List.map_map]
  cases s.hasLast <;> rfl

/-- The parts give the answers of a list. -/
structure Agrees (s : SeparatedParts α) (p : Separated α) : Prop where
  pairs : s.pairs = p.pairs
  values : s.toList = p.toList
  get : ∀ i, s.get? i = nth? p.toList i
  length : s.length = p.toList.length
  isEmpty : s.isEmpty = p.toList.isEmpty
  first : s.first = p.first?.getD default
  final : s.final = p.last?.getD default
  trailing : s.trailing = p.trailing
  acceptsValue : s.acceptsValue = p.acceptsValue
  same : ∀ eq t, s.same eq t = p.same eq t.items

theorem agrees_items (s : SeparatedParts α) : s.Agrees s.items where
  pairs := s.pairs_items.symm
  values := s.toList_items.symm
  get i := by rw [toList_items, get?]
  length := by
    rw [toList_items, length, toList, List.length_append, List.length_map]
    cases s.hasLast <;> rfl
  isEmpty := by
    rw [toList_items, isEmpty, length, toList]
    cases s.inner <;> cases s.hasLast <;> rfl
  first := by
    rw [Separated.first?_eq, ← List.head?_map, ← Separated.toList_eq, toList_items, first]
  final := by
    rw [Separated.last?_eq, pairs_items, pairs, final]
    cases s.hasLast with
    | true => simp
    | false => simp [List.getLast?_map, Function.comp_def]
  trailing := by
    rw [Separated.trailing_eq, pairs_items, pairs, trailing]
    cases s.hasLast with
    | true => simp
    | false => cases s.inner <;> simp [List.getLast?_cons, List.getLast?_map]
  acceptsValue := s.acceptsValue_items.symm
  same eq t := by rw [Separated.same_eq_isEqv, pairs_items, pairs_items, same]

/-- Parts that have grown from nothing by any steps give the answers of the list that has grown by
the same steps, and have met the same faults. -/
theorem growAll_agrees (separator : String) (steps : List (Growth α)) :
    let grown := (SeparatedParts.empty separator).growAll steps
    let list := (SeparatedBuilder.empty separator).growAll steps
    grown.1.Agrees list.1.items ∧ grown.2 = list.2 ∧ grown.1.Cleared := by
  have told := (SeparatedParts.empty separator : SeparatedParts α).growAll_toBuilder steps
  rw [show (SeparatedParts.empty separator : SeparatedParts α).toBuilder = .empty separator
    from rfl] at told
  refine ⟨?_, congrArg Prod.snd told, cleared_growAll (fun _ => rfl) steps⟩
  rw [← told]
  exact agrees_items _

/-- A pending value is there whatever it is. -/
example :
    let s := (SeparatedParts.empty ",").growAll [.value (none : Option Nat), .value (some 1)]
    (s.1.length, s.2) = (1, [none, some .missingSeparator]) := by
  decide

end SeparatedParts

end TypeGrammar
