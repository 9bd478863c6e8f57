import TypeGrammar.Separated

/-!
# Laws of lists with separators

A list accepts a value if it is empty or ends in a separator. A list that ends in a value can be
told apart at its last value, and joined to a further list after a separator.
-/

namespace TypeGrammar.Separated

variable {α β : Type}

theorem length_pairs (p : Separated α) : p.pairs.length = p.toList.length := by
  induction p with
  | empty => rfl
  | last v => rfl
  | cons v s rest ih => simp [pairs, toList, ih]

/-- A list can be told apart at each of its values. -/
theorem pairs_split {p : Separated α} {m : Nat} (positive : 0 < m)
    (inside : m ≤ p.toList.length) :
    ∃ front v s rest, p.pairs = front ++ (v, s) :: rest ∧ front.length + 1 = m := by
  have inside : m - 1 < p.pairs.length := by
    rw [length_pairs]
    omega
  have pairs := List.take_append_drop (m - 1) p.pairs
  rw [List.drop_eq_getElem_cons inside] at pairs
  refine ⟨p.pairs.take (m - 1), _, _, _, pairs.symm, ?_⟩
  rw [List.length_take]
  omega

/-- A list that ends in a value, and what comes of it when the list goes on. -/
theorem pairs_join {p : Separated α} (ends : p.acceptsValue = false) (separator : Token)
    (rest : Separated α) :
    ∃ front v, p.pairs = front ++ [(v, none)] ∧
      (p.join separator rest).pairs = front ++ (v, some separator) :: rest.pairs := by
  induction p with
  | empty => simp [acceptsValue] at ends
  | last v => exact ⟨[], v, rfl, rfl⟩
  | cons v s more ih =>
    obtain ⟨front, w, eq, eq'⟩ := ih ends
    exact ⟨(v, some s) :: front, w, by simp [pairs, eq], by simp [pairs, join, eq']⟩

theorem acceptsValue_mapLast (f : α → α) (p : Separated α) :
    (p.mapLast f).acceptsValue = p.acceptsValue := by
  induction p with
  | empty => rfl
  | last v => rfl
  | cons v s rest ih =>
    cases rest with
    | empty => rfl
    | last w => rfl
    | cons w s' rest => exact ih

theorem last?_join {p r : Separated α} (separator : Token) (ends : r.acceptsValue = false) :
    (p.join separator r).last? = r.last? := by
  have nonempty : r ≠ .empty := by
    rintro rfl
    simp [acceptsValue] at ends
  induction p with
  | empty => rfl
  | last v => cases r <;> simp_all [join, last?]
  | cons v s rest ih =>
    rw [join, ← ih]
    cases h : rest.join separator r with
    | empty => cases rest <;> simp_all [join]
    | last w => rfl
    | cons w s' more => rfl

theorem mapLast_join (f : α → α) {p r : Separated α} (separator : Token)
    (ends : r.acceptsValue = false) :
    (p.join separator r).mapLast f = p.join separator (r.mapLast f) := by
  have nonempty : r ≠ .empty := by
    rintro rfl
    simp [acceptsValue] at ends
  induction p with
  | empty => rfl
  | last v => cases r <;> simp_all [join, mapLast]
  | cons v s rest ih =>
    rw [join, join, ← ih]
    cases h : rest.join separator r with
    | empty => cases rest <;> simp_all [join]
    | last w => rfl
    | cons w s' more => rfl

theorem all_mapLast {f : α → α} {q : α → Bool} (off : ∀ v, q (f v) = false) {p : Separated α}
    (ends : p.acceptsValue = false) : (p.mapLast f).toList.all q = false := by
  induction p with
  | empty => simp [acceptsValue] at ends
  | last v => simp [mapLast, toList, off]
  | cons v s rest ih =>
    cases rest with
    | empty => simp [acceptsValue] at ends
    | last w => simp [mapLast, toList, off]
    | cons w s' more =>
      rw [mapLast, toList, List.all_cons, ih ends, Bool.and_false]
      simp

/-- A list accepts a value if it is empty or ends in a separator. -/
theorem acceptsValue_eq (p : Separated α) : p.acceptsValue = (p.toList.isEmpty || p.trailing) := by
  induction p with
  | empty => rfl
  | last v => rfl
  | cons v s rest ih =>
    cases rest with
    | empty => rfl
    | last w => rfl
    | cons w s' more => simpa [acceptsValue, toList, trailing] using ih

theorem length_pos {p : Separated α} (ends : p.acceptsValue = false) : 0 < p.toList.length := by
  cases p with
  | empty => simp [acceptsValue] at ends
  | last v => exact Nat.zero_lt_one
  | cons v s rest => exact Nat.succ_pos _

/-- The values of a joined list, if none is missing. -/
theorem toList_join (p : Separated α) (separator : Token) (r : Separated α) :
    (p.join separator r).toList = p.toList ++ r.toList := by
  induction p with
  | empty => rfl
  | last v => rfl
  | cons v s rest ih => simp [join, toList, ih]

theorem acceptsValue_join {p r : Separated α} (separator : Token)
    (ends : r.acceptsValue = false) : (p.join separator r).acceptsValue = false := by
  induction p with
  | empty => exact ends
  | last v => exact ends
  | cons v s rest ih => exact ih

theorem toList_mapLast (f : α → α) {p : Separated α} (nonempty : p.toList ≠ []) :
    ∃ v, v ∈ p.toList ∧ (p.mapLast f).toList = p.toList.dropLast ++ [f v] := by
  induction p with
  | empty => exact absurd rfl nonempty
  | last v => exact ⟨v, List.mem_singleton_self v, rfl⟩
  | cons v s rest ih =>
    cases rest with
    | empty => exact ⟨v, List.mem_singleton_self v, rfl⟩
    | last w => exact ⟨w, by simp [toList], rfl⟩
    | cons w s' more =>
      obtain ⟨x, mem, eq⟩ := ih (List.cons_ne_nil _ _)
      refine ⟨x, List.mem_cons_of_mem _ mem, ?_⟩
      change v :: ((cons w s' more).mapLast f).toList = _
      rw [eq]
      rfl

theorem mem_mapLast {f : α → α} {p : Separated α} {x : α} (h : x ∈ (p.mapLast f).toList) :
    x ∈ p.toList ∨ ∃ v ∈ p.toList, x = f v := by
  by_cases nonempty : p.toList = []
  · cases p with
    | empty => exact .inl h
    | last v => cases nonempty
    | cons v s rest => cases nonempty
  · obtain ⟨v, mem, eq⟩ := toList_mapLast f nonempty
    rw [eq] at h
    obtain front | last := List.mem_append.1 h
    · exact .inl (List.dropLast_subset _ front)
    · exact .inr ⟨v, mem, List.mem_singleton.1 last⟩

theorem mem_mapFirst {f : α → α} {p : Separated α} {x : α} (h : x ∈ (p.mapFirst f).toList) :
    x ∈ p.toList ∨ ∃ v, p.first? = some v ∧ x = f v := by
  cases p with
  | empty => exact .inl h
  | last v => exact .inr ⟨v, rfl, List.mem_singleton.1 h⟩
  | cons v s rest =>
    obtain rfl | mem := List.mem_cons.1 h
    · exact .inr ⟨v, rfl, rfl⟩
    · exact .inl (List.mem_cons_of_mem v mem)

theorem toList_mapFirst (f : α → α) {p : Separated α} {v : α} (first : p.first? = some v) :
    v ∈ p.toList ∧ (p.mapFirst f).toList = f v :: p.toList.tail := by
  cases p with
  | empty => cases first
  | last w =>
    cases first
    exact ⟨List.mem_singleton_self v, rfl⟩
  | cons w s rest =>
    cases first
    exact ⟨List.mem_cons_self, rfl⟩

theorem mem_of_first? {p : Separated α} {v : α} (first : p.first? = some v) : v ∈ p.toList :=
  (toList_mapFirst id first).1

end TypeGrammar.Separated
