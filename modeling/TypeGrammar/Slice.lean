/-!
# Positions counted from either end

An index of a list counts from the start, or, if it is negative, from the end. A slice clamps its
two ends to the list, so it always exists; an element exists only within the list.
-/

namespace TypeGrammar

variable {α : Type}

/-- The place of `i` in a list of the given length, clamped to `0 … length`. -/
def clampIndex (length : Nat) (i : Int) : Nat :=
  if i < 0 then (i + length).toNat else min i.toNat length

/-- The elements from `low` up to but not including `high`. -/
def slice (xs : List α) (low high : Int) : List α :=
  (xs.take (clampIndex xs.length high)).drop (clampIndex xs.length low)

/-- The element at `i`, counted from the end if `i` is negative. -/
def nth? (xs : List α) (i : Int) : Option α :=
  if 0 ≤ i then xs[i.toNat]?
  else if 0 ≤ i + xs.length then xs[(i + xs.length).toNat]?
  else none

end TypeGrammar
