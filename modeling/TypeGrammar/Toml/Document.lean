import TypeGrammar.Toml.Reader

/-!
# TOML documents

A document is a sequence of statements: a key with its value, a table header, or the header of an
item in an array of tables. A table can be declared once, and a value can be defined once; arrays
and inline tables cannot be added to by later statements.
-/

namespace TypeGrammar.Toml

open Reader

/-- The state between two statements. `declared` are the tables that cannot be declared again,
`closed` the arrays and inline tables; `pending` are tables that dotted keys made in the section
that is being read, which are declared when it ends. -/
structure Document where
  entries : Entries
  header : Key
  declared : List Key
  closed : List Key
  pending : List Key

namespace Document

/-- The document before its first statement. -/
def empty : Document := ⟨[], [], [], [], []⟩

/-- The nonempty starts of a key that are shorter than it. -/
def starts (k : Key) : List Key :=
  (List.range (k.length - 1)).map fun i => k.take (i + 1)

/-- The document after a key with a value. -/
def define? (d : Document) (k : Key) (v : Value) : Option Document :=
  let parents := (starts k).map (d.header ++ ·)
  if parents.any d.declared.contains || isWithin d.closed (d.header ++ k.dropLast) then none
  else do
    let entries ← d.entries.define? true d.header k v
    let closed := if v.isClosed then (d.header ++ k) :: d.closed else d.closed
    some { d with entries, closed, pending := parents ++ d.pending }

/-- The document at the end of a section. -/
def settle (d : Document) : Document :=
  { d with declared := d.pending ++ d.declared, pending := [] }

/-- The document after the header of a table. -/
def openTable? (d : Document) (k : Key) : Option Document :=
  if d.declared.contains k || isWithin d.closed k then none
  else do
    let entries ← d.entries.update? true some k
    some { d with entries, header := k, declared := k :: d.declared }

/-- The document after the header of an item in an array of tables. What was declared in the item
before it can be declared again. -/
def openItem? (d : Document) (k : Key) : Option Document :=
  if isWithin d.closed k then none
  else
    match k.getLast? with
    | none => none
    | some stem => do
      let entries ← d.entries.update? true (Entries.appendTable? stem) k.dropLast
      let outside := fun (keys : List Key) => keys.filter fun q => !k.isPrefixOf q
      some { d with
        entries, header := k, declared := k :: outside d.declared, closed := outside d.closed }

/-- Turns the absence of a result into a failure. -/
def require {α : Type} (a : Option α) : Reader α :=
  match a with
  | some a => return a
  | none => failure

/-- Reads one statement. -/
def statement (d : Document) : Reader Document := do
  match ← peek with
  | some '[' =>
    let d := d.settle
    if ← taken ['[', '['] then
      gap
      let k ← key
      let d ← require (d.openItem? k)
      expect [']', ']']
      return d
    else
      expect ['[']
      gap
      let k ← key
      let d ← require (d.openTable? k)
      expect [']']
      return d
  | some '#' => return d
  | _ =>
    let (k, v) ← keyValue value
    require (d.define? k v)

/-- Reads the statements that are left, at most `limit` of them. -/
def statements (d : Document) : (limit : Nat) → Reader Document
  | 0 => failure
  | limit + 1 => do
    gap
    match ← peek with
    | none => return d
    | some '\n' =>
      expect ['\n']
      statements d limit
    | some _ =>
      let d ← statement d
      gap
      comment
      match ← peek with
      | none => return d
      | some _ =>
        expect ['\n']
        statements d limit

end Document

/-- A text in which `\r\n` has become `\n`. -/
def unifyLineEnds : List Char → List Char
  | [] => []
  | '\r' :: '\n' :: cs => '\n' :: unifyLineEnds cs
  | c :: cs => c :: unifyLineEnds cs

/-- The entries of a document, unless it is malformed. -/
def parse? (text : String) : Option Entries :=
  let cs := unifyLineEnds text.toList
  (Document.empty.statements (cs.length + 1) cs).map fun (d, _) => d.entries

end TypeGrammar.Toml
