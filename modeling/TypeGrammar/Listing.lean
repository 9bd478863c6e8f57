import TypeGrammar.Node.Text
import TypeGrammar.Parse
import TypeGrammar.Text.Blank
import TypeGrammar.Text.Line

/-!
# Listings

A listing is a text with one type to a line. Blank lines and comment lines are skipped. Formatting a
listing writes every type in its canonical text and keeps all other lines; if any line is faulty,
nothing is written and all faults are reported.
-/

namespace TypeGrammar

namespace Listing

/-- What a line of a listing holds. -/
inductive Entry where
  | skipped
  | type (t : Ty)
  | faulty (e : SourceError)
  deriving DecidableEq

/-- True of a line that holds no type: it is blank, or it is a comment. -/
def holdsNoType (line : String) : Bool :=
  let text := Text.trim line.toList
  text.isEmpty || ['/', '/'].isPrefixOf text

/-- Reads the line with the given number. -/
def readEntry (file : String) (plus : Bool) (number : Nat) (line : String) : Entry :=
  if holdsNoType line then .skipped
  else
    match parseText line file number plus with
    | .ok t => .type t
    | .error e => .faulty e

/-- The entries of lines, of which the first has the given number. -/
def entriesFrom (file : String) (plus : Bool) (number : Nat) : List String → List (Nat × Entry)
  | [] => []
  | line :: rest =>
    (number, readEntry file plus number line) :: entriesFrom file plus (number + 1) rest

/-- The numbered entries of the lines of a listing. -/
def entries (file : String) (plus : Bool) (lines : List String) : List (Nat × Entry) :=
  entriesFrom file plus 1 lines

/-- What is wrong with an entry. -/
def Entry.diagnostics : Entry → List Diagnostic
  | faulty e => e.diagnostics
  | _ => []

/-- The types of a listing with the numbers of their lines. -/
def types (es : List (Nat × Entry)) : List (Nat × Ty) :=
  es.filterMap fun (n, e) =>
    match e with
    | .type t => some (n, t)
    | _ => none

/-- What is wrong with a listing, line by line. -/
def diagnostics (es : List (Nat × Entry)) : List Diagnostic :=
  es.flatMap fun (_, e) => e.diagnostics

/-- True of a faulty entry. -/
def Entry.isFaulty : Entry → Bool
  | faulty _ => true
  | _ => false

/-- A line after formatting. -/
def formatLine (line : String) : Entry → String
  | .type t => t.text
  | _ => line

/-- The text of lines, each closed by a line feed. -/
def unlines (lines : List String) : String :=
  if lines.isEmpty then "" else String.intercalate "\n" lines ++ "\n"

/-- The listing in canonical form, or what is wrong with it. -/
def format (text file : String) (plus : Bool) : Except (List Diagnostic) String :=
  let lines := Text.lines text
  let es := entries file plus lines
  if es.any fun (_, e) => e.isFaulty then .error (diagnostics es)
  else .ok (unlines ((lines.zip es).map fun (line, _, e) => formatLine line e))

end Listing

end TypeGrammar
