/-!
# TOML values

The values of a TOML document. A table keeps its entries in the order of their definition. Floats,
dates and times are kept as they are written.
-/

namespace TypeGrammar.Toml

/-- A TOML value. A float is written without underscores and without a leading `+`. -/
inductive Value where
  | bool (b : Bool)
  | integer (n : Int)
  | float (literal : String)
  | string (s : String)
  | moment (literal : String)
  | array (items : List Value)
  | table (entries : List (String × Value))

/-- The entries of a table. -/
abbrev Entries := List (String × Value)

/-- A dotted key. -/
abbrev Key := List String

namespace Entries

/-- The value of a key. -/
def get? (entries : Entries) (key : String) : Option Value :=
  entries.lookup key

/-- The entries with another value for a key that they have. -/
def replace (entries : Entries) (key : String) (value : Value) : Entries :=
  entries.map fun (k, v) => if k = key then (k, value) else (k, v)

/-- The entries with one more key, which must be new. -/
def add? (key : String) (value : Value) (entries : Entries) : Option Entries :=
  match entries.get? key with
  | some _ => none
  | none => some (entries ++ [(key, value)])

/-- The entries after a change of the table at a key, which is made if it is missing. With
`intoArrays` an array on the way stands for its last item. -/
def update? (intoArrays : Bool) (change : Entries → Option Entries) :
    Key → Entries → Option Entries
  | [], entries => change entries
  | k :: ks, entries =>
    match entries.get? k with
    | none => do
      let inner ← update? intoArrays change ks []
      some (entries ++ [(k, .table inner)])
    | some (.table inner) => do
      let inner ← update? intoArrays change ks inner
      some (entries.replace k (.table inner))
    | some (.array items) =>
      match intoArrays, items.getLast? with
      | true, some (.table inner) => do
        let inner ← update? intoArrays change ks inner
        some (entries.replace k (.array (items.dropLast ++ [.table inner])))
      | _, _ => none
    | some _ => none

/-- The entries with one more empty table in the array of a key. -/
def appendTable? (key : String) (entries : Entries) : Option Entries :=
  match entries.get? key with
  | none => some (entries ++ [(key, .array [.table []])])
  | some (.array items) => some (entries.replace key (.array (items ++ [.table []])))
  | some _ => none

end Entries

/-! ## Truth -/

/-- The number that some digits write. -/
def digitsValue (cs : List Char) : Nat :=
  cs.foldl (fun n c => 10 * n + (c.toNat - '0'.toNat)) 0

/-- The number that a sign and digits write. -/
def signedValue : List Char → Int
  | '-' :: cs => -(digitsValue cs)
  | '+' :: cs => digitsValue cs
  | cs => digitsValue cs

/-- True if a float is zero, be it only because it is below half of the least double. -/
def isZeroFloat (literal : String) : Bool :=
  let cs := literal.toList
  let mantissa := cs.takeWhile fun c => c != 'e' && c != 'E'
  let digits := mantissa.filter Char.isDigit
  let places := ((mantissa.dropWhile (· != '.')).drop 1).length
  let exponent : Int := signedValue ((cs.drop mantissa.length).drop 1) - places
  if digits.isEmpty then false
  else if digitsValue digits = 0 then true
  else if digits.length + exponent < -400 then true
  else if exponent < 0 then
    (digitsValue digits * Nat.pow 2 1075).ble (Nat.pow 10 (-exponent).toNat)
  else false

/-- The truth of a value: false, zero and what is empty are false, all else is true. -/
def Value.truth : Value → Bool
  | .bool b => b
  | .integer n => n != 0
  | .float literal => !isZeroFloat literal
  | .string s => s != ""
  | .moment _ => true
  | .array items => !items.isEmpty
  | .table entries => !entries.isEmpty

end TypeGrammar.Toml
