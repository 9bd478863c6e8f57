import TypeGrammar.Token

/-!
# Values with separators

A list of values with a separator token between any two, and perhaps one after the last. `A, B,`
and `A, B` differ only in that trailing separator, so a list ends either in a lone value or in
nothing at all.
-/

namespace TypeGrammar

/-- Values with separators between them; after the last value a separator is optional. -/
inductive Separated (α : Type) where
  | empty
  | last (value : α)
  | cons (value : α) (separator : Token) (rest : Separated α)
  deriving DecidableEq, Repr

namespace Separated

variable {α β : Type}

/-- The values, each with the separator after it. -/
def pairs : Separated α → List (α × Option Token)
  | empty => []
  | last v => [(v, none)]
  | cons v s rest => (v, some s) :: rest.pairs

/-- The values in order. -/
def toList : Separated α → List α
  | empty => []
  | last v => [v]
  | cons v _ rest => v :: rest.toList

/-- The first value. -/
def first? : Separated α → Option α
  | empty => none
  | last v => some v
  | cons v _ _ => some v

/-- The last value. -/
def last? : Separated α → Option α
  | empty => none
  | last v => some v
  | cons v _ empty => some v
  | cons _ _ rest => rest.last?

/-- True if nothing is missing before a further value: there is no value, or a trailing
separator. -/
def acceptsValue : Separated α → Bool
  | empty => true
  | last _ => false
  | cons _ _ rest => rest.acceptsValue

/-- True if a separator follows the last value. -/
def trailing : Separated α → Bool
  | empty => false
  | last _ => false
  | cons _ _ empty => true
  | cons _ _ rest => rest.trailing

/-- The list with `f` applied to its values. -/
def map (f : α → β) : Separated α → Separated β
  | empty => empty
  | last v => last (f v)
  | cons v s rest => cons (f v) s (rest.map f)

/-- The list with `f` applied to its separators. -/
def mapSeparators (f : Token → Token) : Separated α → Separated α
  | empty => empty
  | last v => last v
  | cons v s rest => cons v (f s) (rest.mapSeparators f)

/-- The list with `f` applied to its first value. -/
def mapFirst (f : α → α) : Separated α → Separated α
  | empty => empty
  | last v => last (f v)
  | cons v s rest => cons (f v) s rest

/-- The list with `f` applied to its last value. -/
def mapLast (f : α → α) : Separated α → Separated α
  | empty => empty
  | last v => last (f v)
  | cons v s empty => cons (f v) s empty
  | cons v s rest => cons v s (rest.mapLast f)

/-- The values of `a`, then those of `b`; `separator` follows the last value of `a` if it has
none. -/
def join (a : Separated α) (separator : Token) (b : Separated α) : Separated α :=
  match a with
  | empty => b
  | last v => cons v separator b
  | cons v s rest => cons v s (rest.join separator b)

/-- Values with the same separator between any two and none at the end. -/
def ofList (separator : Token) : List α → Separated α
  | [] => empty
  | [v] => last v
  | v :: vs => cons v separator (ofList separator vs)

/-- The list with `separator` after its last value. -/
def close (a : Separated α) (separator : Token) : Separated α :=
  a.join separator empty

/-- True if two lists have values that are equal by `eq` and separators that differ only in
places. -/
def same (eq : α → α → Bool) : Separated α → Separated α → Bool
  | empty, empty => true
  | last v, last w => eq v w
  | cons v s p, cons w t q => eq v w && s.erase == t.erase && same eq p q
  | _, _ => false

end Separated

/-! ## Growing a list -/

/-- Why a list cannot grow as asked, or why it has no such value. -/
inductive SeparatedFault where
  | missingSeparator
  | missingValue
  | outOfRange
  deriving DecidableEq, Repr

/-- The wording of a fault. -/
def SeparatedFault.message : SeparatedFault → String
  | missingSeparator => "push_value on a Punctuated missing its separator"
  | missingValue => "push_punct on a Punctuated without a value"
  | outOfRange => "index out of range"

/-- A list that grows at its end. `separator` is the text of the separators it makes by itself. -/
structure SeparatedBuilder (α : Type) where
  separator : String
  items : Separated α
  deriving DecidableEq, Repr

namespace Separated

variable {α : Type}

/-- The list with a value at its end, if no separator is missing before it. -/
def addValue? (p : Separated α) (v : α) : Option (Separated α) :=
  match p with
  | empty => some (last v)
  | last _ => none
  | cons w s rest => (rest.addValue? v).map (cons w s)

/-- The list with a separator at its end, if there is a value without one. -/
def addSeparator? (p : Separated α) (separator : Token) : Option (Separated α) :=
  match p with
  | empty => none
  | last w => some (cons w separator empty)
  | cons w s rest => (rest.addSeparator? separator).map (cons w s)

end Separated

namespace SeparatedBuilder

variable {α : Type}

/-- An empty list. -/
def empty (separator : String) : SeparatedBuilder α :=
  ⟨separator, .empty⟩

/-- The separator that is inserted where one is missing. -/
def ownSeparator (b : SeparatedBuilder α) : Token :=
  Token.punct b.separator Span.callSite

/-- Adds a value. -/
def addValue (b : SeparatedBuilder α) (v : α) : Except SeparatedFault (SeparatedBuilder α) :=
  match b.items.addValue? v with
  | some items => .ok { b with items }
  | none => .error .missingSeparator

/-- Adds a separator. -/
def addSeparator (b : SeparatedBuilder α) (s : Token) :
    Except SeparatedFault (SeparatedBuilder α) :=
  match b.items.addSeparator? s with
  | some items => .ok { b with items }
  | none => .error .missingValue

/-- Adds a value, and before it a separator if one is missing. -/
def push (b : SeparatedBuilder α) (v : α) : SeparatedBuilder α :=
  { b with items := b.items.join b.ownSeparator (.last v) }

/-- Adds values with their separators one after another; stops at the first that does not fit and
keeps those before it. -/
def extend (b : SeparatedBuilder α) :
    List (α × Option Token) → SeparatedBuilder α × Option SeparatedFault
  | [] => (b, none)
  | (v, s) :: rest =>
    match b.addValue v with
    | .error fault => (b, some fault)
    | .ok b =>
      match s with
      | none => b.extend rest
      | some s =>
        match b.addSeparator s with
        | .error fault => (b, some fault)
        | .ok b => b.extend rest

/-- A list of values without a trailing separator. -/
def ofList (separator : String) (values : List α) : SeparatedBuilder α :=
  values.foldl push (empty separator)

end SeparatedBuilder

end TypeGrammar
