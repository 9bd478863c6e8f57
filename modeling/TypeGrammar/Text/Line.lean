/-!
# Lines

A text is cut into lines at the line boundaries of Unicode. A boundary ends its line, so a text
that ends in one has no empty line after it, and `\r\n` is a single boundary.
-/

namespace TypeGrammar.Text

/-- The characters that end a line. -/
def isLineBreak (c : Char) : Bool :=
  c == '\n' || c == '\r' || c == '\x0b' || c == '\x0c' || c == '\x1c' || c == '\x1d' ||
    c == '\x1e' || c == '\u0085' || c == '\u2028' || c == '\u2029'

/-- A line and the boundary after it, which is empty only at the end of a text. -/
structure Line where
  content : List Char
  ending : List Char
  deriving DecidableEq, Repr

/-- The line with its boundary, as it stands in the text. -/
def Line.whole (l : Line) : List Char :=
  l.content ++ l.ending

/-- The lines of a text together with their boundaries. -/
def cutLines : List Char → List Line
  | [] => []
  | '\r' :: '\n' :: cs => ⟨[], ['\r', '\n']⟩ :: cutLines cs
  | c :: cs =>
    if isLineBreak c then ⟨[], [c]⟩ :: cutLines cs
    else
      match cutLines cs with
      | [] => [⟨[c], []⟩]
      | l :: ls => ⟨c :: l.content, l.ending⟩ :: ls

/-- The lines of a text without their boundaries. -/
def lines (text : String) : List String :=
  (cutLines text.toList).map fun l => String.ofList l.content

/-- A text in which `\r\n` and a lone `\r` have become `\n`. -/
def unifyBreaks : List Char → List Char
  | [] => []
  | '\r' :: '\n' :: cs => '\n' :: unifyBreaks cs
  | c :: cs => (if c == '\r' then '\n' else c) :: unifyBreaks cs

end TypeGrammar.Text
