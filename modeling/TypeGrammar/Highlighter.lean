import TypeGrammar.Text.Line

/-!
# Highlighters

A highlighter shows a text in colour. It prepares the text, cuts it into pieces by the rules that it
is given, and writes each piece with its colour.

The rules belong to modes, which are stacked above the one in which a text starts. At each place the
first rule of the current mode that matches gives the piece. A character that no rule matches is a
piece of its own: a line feed leaves all modes but the first, any other character is an error. On a
terminal each line of a piece is enclosed in the colour of its style.
-/

namespace TypeGrammar

open Text

/-- The styles of pieces. -/
inductive Style where
  | text
  | whitespace
  | error
  | lineComment
  | blockComment
  | string
  | stringEscape
  | character
  | hex
  | octal
  | binary
  | float
  | integer
  | keyword
  | pseudoKeyword
  | constantKeyword
  | typeKeyword
  | name
  | label
  | magic
  | constant
  | className
  | operator
  | punctuation
  deriving DecidableEq, Repr

namespace Style

/-- The full name of a style. -/
def fullName : Style → String
  | text => "Text"
  | whitespace => "Text.Whitespace"
  | error => "Error"
  | lineComment => "Comment.Single"
  | blockComment => "Comment.Multiline"
  | string => "Literal.String"
  | stringEscape => "Literal.String.Escape"
  | character => "Literal.String.Char"
  | hex => "Literal.Number.Hex"
  | octal => "Literal.Number.Oct"
  | binary => "Literal.Number.Bin"
  | float => "Literal.Number.Float"
  | integer => "Literal.Number.Integer"
  | keyword => "Keyword"
  | pseudoKeyword => "Keyword.Pseudo"
  | constantKeyword => "Keyword.Constant"
  | typeKeyword => "Keyword.Type"
  | name => "Name"
  | label => "Name.Label"
  | magic => "Name.Function.Magic"
  | constant => "Name.Constant"
  | className => "Name.Class"
  | operator => "Operator"
  | punctuation => "Punctuation"

/-- The escape sequence that sets the colour of a style; some styles have none. -/
def color? : Style → Option String
  | lineComment | blockComment | whitespace => some "\x1b[37m"
  | keyword | pseudoKeyword | constantKeyword => some "\x1b[34m"
  | hex | octal | binary | float | integer => some "\x1b[34m"
  | typeKeyword => some "\x1b[36m"
  | string | stringEscape | character => some "\x1b[33m"
  | magic => some "\x1b[32m"
  | className => some "\x1b[04m\x1b[32m"
  | constant => some "\x1b[31m"
  | error => some "\x1b[04m\x1b[91m"
  | text | name | label | operator | punctuation => none

end Style

namespace Highlighter

/-- What a match does to the stack of modes. -/
inductive Change (Mode : Type) where
  | stay
  | push (m : Mode)
  | pop

/-- A rule: the length of its match after the character `before`, or zero, and what follows from a
match. -/
structure Rule (Mode : Type) where
  width : (before : Option Char) → List Char → Nat
  style : Style
  change : Change Mode

/-- A piece of a text with its style. -/
structure Piece where
  style : Style
  text : List Char
  deriving DecidableEq, Repr

end Highlighter

open Highlighter in
/-- The steps by which a text is shown: it is prepared, it is cut by the rules of the modes from a
first mode on, and its pieces are written. -/
structure Highlighter (Mode : Type) where
  prepare : List Char → List Char
  cut : (rules : Mode → List (Rule Mode)) → (start : Mode) → List Char → List Piece
  paint : Piece → String

namespace Highlighter

variable {Mode : Type}

/-- The pieces of a text. -/
def pieces (h : Highlighter Mode) (rules : Mode → List (Rule Mode)) (start : Mode) (text : String) :
    List Piece :=
  h.cut rules start (h.prepare text.toList)

/-- A text as it is shown. -/
def highlight (h : Highlighter Mode) (rules : Mode → List (Rule Mode)) (start : Mode)
    (text : String) : String :=
  String.join ((h.pieces rules start text).map h.paint)

/-! ## Preparation -/

/-- A text without the line ends around it and with one at its end. -/
def stripLineEnds (cs : List Char) : List Char :=
  ((cs.dropWhile (· == '\n')).reverse.dropWhile (· == '\n')).reverse ++ ['\n']

/-- A text without a byte order mark at its front. -/
def dropByteOrderMark : List Char → List Char
  | '\ufeff' :: cs => cs
  | cs => cs

/-! ## Pieces -/

/-- The stack of modes above the first one, after a match. -/
def Change.apply (change : Change Mode) (modes : List Mode) : List Mode :=
  match change with
  | .stay => modes
  | .push m => m :: modes
  | .pop => modes.tail

/-- The first rule that matches. -/
def firstMatch? (rules : List (Rule Mode)) (before : Option Char) (cs : List Char) :
    Option (Rule Mode) :=
  rules.find? fun r => r.width before cs != 0

/-- The pieces of a text after the character `before`, at most `limit` of them. -/
def piecesUpTo (rules : Mode → List (Rule Mode)) (start : Mode) :
    (limit : Nat) → List Mode → (before : Option Char) → List Char → List Piece
  | _, _, _, [] => []
  | 0, _, _, _ :: _ => []
  | limit + 1, modes, before, c :: cs =>
    match firstMatch? (rules (modes.head?.getD start)) before (c :: cs) with
    | some r =>
      let text := (c :: cs).take (r.width before (c :: cs))
      ⟨r.style, text⟩ ::
        piecesUpTo rules start limit (r.change.apply modes) text.getLast?
          ((c :: cs).drop text.length)
    | none =>
      if c = '\n' then ⟨.whitespace, [c]⟩ :: piecesUpTo rules start limit [] (some c) cs
      else ⟨.error, [c]⟩ :: piecesUpTo rules start limit modes (some c) cs

/-! ## Terminal output -/

/-- The escape sequence that ends a colour. -/
def resetColor : String := "\x1b[39;49;00m"

/-- A line of a piece in the colour of its style. A line feed stays outside of the colour. -/
def paintLine (style : Style) (l : Line) : String :=
  let feed := l.ending.getLast? == some '\n'
  let body := String.ofList (if feed then l.whole.dropLast else l.whole)
  let painted :=
    match style.color? with
    | some color => color ++ body ++ resetColor
    | none => body
  painted ++ if feed then "\n" else ""

/-- A piece in the colour of its style. -/
def Piece.paint (p : Piece) : String :=
  String.join ((cutLines p.text).map (paintLine p.style))

/-- The highlighter for a terminal. -/
def terminal : Highlighter Mode where
  prepare cs := stripLineEnds (unifyBreaks (dropByteOrderMark cs))
  cut rules start cs := piecesUpTo rules start cs.length [] none cs
  paint := Piece.paint

end Highlighter

end TypeGrammar
