import TypeGrammar.Span

/-!
# Diagnostics

A diagnostic has a code, a message, labels that point into sources, and notes. It is laid out as a
header, then for each label the place, the source line and a row of carets under the marked
characters, then the notes.
-/

namespace TypeGrammar

/-- A place that a diagnostic points to, with a remark that may be empty. -/
structure Label where
  span : Span
  message : String
  deriving DecidableEq, Repr

/-- An error as it is shown to a reader. -/
structure Diagnostic where
  code : String
  message : String
  labels : List Label
  notes : List String
  deriving DecidableEq, Repr

/-- The reasons why a text is no sequence of token trees, in the order in which they are found. -/
structure CompileError where
  diagnostics : List Diagnostic
  deriving DecidableEq, Repr

/-- All messages in one line, after their number. -/
def CompileError.message (e : CompileError) : String :=
  toString e.diagnostics.length ++ " error(s): " ++
    String.intercalate "; " (e.diagnostics.map (·.message))

/-! ## Layout -/

/-- How diagnostics are shown: with terminal colours or without, and the lines of a source file. -/
structure Layout where
  color : Bool
  linesOf : String → List String

namespace Layout

/-- The escape sequence that sets a colour, if there are colours at all. -/
def paint (l : Layout) (sequence : String) : String :=
  if l.color then sequence else ""

/-- The colour of an error. -/
def red (l : Layout) : String := l.paint "\x1b[1;31m"

/-- The colour of the frame. -/
def blue (l : Layout) : String := l.paint "\x1b[1;34m"

/-- The weight of the message. -/
def bold (l : Layout) : String := l.paint "\x1b[1m"

/-- Back to plain text. -/
def reset (l : Layout) : String := l.paint "\x1b[0m"

/-- A line number, at least four columns wide. -/
def gutter (n : Int) : String :=
  let digits := toString n
  String.ofList (List.replicate (4 - digits.length) ' ') ++ digits

/-- The line with the given number, counted from one. -/
def sourceLine? (l : Layout) (file : String) (number : Int) : Option String :=
  if 1 ≤ number then (l.linesOf file)[number.toNat - 1]? else none

/-- The blanks in front of the first caret. -/
def padding (s : Span) : List Char :=
  List.replicate (s.startCol - 1).toNat ' '

/-- One caret for each marked character, and at least one. -/
def carets (s : Span) : List Char :=
  List.replicate (max 1 (s.endCol - s.startCol + 1)).toNat '^'

/-- The rows for one label. -/
def labelRows (l : Layout) (label : Label) : List String :=
  let s := label.span
  let bar := "  " ++ l.blue ++ "   |" ++ l.reset
  let source :=
    match l.sourceLine? s.file s.startLine with
    | some line => ["  " ++ l.blue ++ gutter s.startLine ++ " |" ++ l.reset ++ " " ++ line]
    | none => []
  let marks :=
    if s.startLine = s.endLine then
      [bar ++ " " ++ String.ofList (padding s) ++ l.red ++ String.ofList (carets s) ++ l.reset]
    else []
  let remark :=
    if label.message = "" then [] else [bar ++ "   " ++ l.red ++ label.message ++ l.reset]
  ["  " ++ l.blue ++ "-->" ++ l.reset ++ " " ++ s.location, bar] ++ source ++ marks ++ remark

/-- The rows of a diagnostic. -/
def rows (l : Layout) (d : Diagnostic) : List String :=
  let header :=
    l.red ++ "error[" ++ d.code ++ "]" ++ l.reset ++ l.bold ++ ": " ++ d.message ++ l.reset
  let notes := d.notes.map fun note => "  " ++ l.blue ++ "=" ++ l.reset ++ " note: " ++ note
  header :: (d.labels.flatMap l.labelRows ++ notes)

/-- The text of a diagnostic. -/
def render (l : Layout) (d : Diagnostic) : String :=
  String.intercalate "\n" (l.rows d)

end Layout

end TypeGrammar
