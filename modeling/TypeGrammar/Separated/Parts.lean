import TypeGrammar.Separated
import TypeGrammar.Slice

/-!
# Lists with separators in parts

A list that changes in place is kept in parts: the values that have their separators, the value that
has none yet, and a mark that tells if there is such a value. The mark is needed since what stands
for a missing value, here `default`, may be a value of the list as well.

A change that fails keeps what it has changed before.
-/

namespace TypeGrammar

/-- The parts of a list. The value `last` comes after those of `inner` if `hasLast` is set. -/
structure SeparatedParts (α : Type) where
  separator : String
  inner : List (α × Token)
  last : α
  hasLast : Bool
  deriving DecidableEq, Repr

/-- A change of the parts of a list, which may fail. -/
abbrev SeparatedChange (α : Type) := EStateM SeparatedFault (SeparatedParts α)

namespace SeparatedParts

variable {α : Type} [Inhabited α]

/-- The parts of an empty list. -/
def empty (separator : String) : SeparatedParts α :=
  ⟨separator, [], default, false⟩

/-! ## Changes -/

/-- Adds a value. -/
def pushValue (v : α) : SeparatedChange α Unit := do
  if (← get).hasLast then throw .missingSeparator
  modify fun s => { s with last := v, hasLast := true }

/-- Adds a separator. -/
def pushSeparator (t : Token) : SeparatedChange α Unit := do
  if !(← get).hasLast then throw .missingValue
  modify fun s => { s with inner := s.inner ++ [(s.last, t)], last := default, hasLast := false }

/-- Adds a value, and before it a separator if one is missing. -/
def push (v : α) : SeparatedChange α Unit := do
  let s ← get
  if s.hasLast then pushSeparator (Token.punct s.separator Span.callSite)
  pushValue v

/-- Adds values with their separators one after another. -/
def extend : List (α × Option Token) → SeparatedChange α Unit
  | [] => return
  | (v, s) :: rest => do
    pushValue v
    if let some s := s then pushSeparator s
    extend rest

/-! ## What is asked of the parts -/

/-- The values, each with the separator after it. -/
def pairs (s : SeparatedParts α) : List (α × Option Token) :=
  s.inner.map (fun x => (x.1, some x.2)) ++ if s.hasLast then [(s.last, none)] else []

/-- The values in order. -/
def toList (s : SeparatedParts α) : List α :=
  s.inner.map (·.1) ++ if s.hasLast then [s.last] else []

/-- The number of values. -/
def length (s : SeparatedParts α) : Nat :=
  s.inner.length + if s.hasLast then 1 else 0

/-- The value at `i`, counted from the end if `i` is negative. -/
def get? (s : SeparatedParts α) (i : Int) : Option α :=
  nth? s.toList i

/-- True if there are no values. -/
def isEmpty (s : SeparatedParts α) : Bool :=
  s.length == 0

/-- The first value, or what stands for a missing one. -/
def first (s : SeparatedParts α) : α :=
  s.toList.head?.getD default

/-- The last value, or what stands for a missing one. -/
def final (s : SeparatedParts α) : α :=
  if s.hasLast then s.last else (s.inner.getLast?.map (·.1)).getD default

/-- True if a separator follows the last value. -/
def trailing (s : SeparatedParts α) : Bool :=
  !s.inner.isEmpty && !s.hasLast

/-- True if there is no value, or a trailing separator. -/
def acceptsValue (s : SeparatedParts α) : Bool :=
  !s.hasLast

/-- True if two lists have values that are equal by `eq` and separators that differ only in
places. -/
def same (eq : α → α → Bool) (s t : SeparatedParts α) : Bool :=
  s.pairs.isEqv t.pairs fun x y => eq x.1 y.1 && x.2.map Token.erase == y.2.map Token.erase

end SeparatedParts

end TypeGrammar
