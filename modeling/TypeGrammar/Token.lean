import TypeGrammar.Span

/-!
# Tokens

The lexical units of type expressions. Punctuation comes one character to a token: an operator of
several characters is a run of tokens of which each but the last is joint to the next. A node of
a syntax tree may also hold a whole operator as one marker token.
-/

namespace TypeGrammar

/-- What a token is. -/
inductive TokenKind where
  | identifier
  | keyword
  | lifetime
  | integer
  | float
  | string
  | byteString
  | character
  | byte
  | punct
  | openParen
  | closeParen
  | openBracket
  | closeBracket
  | openBrace
  | closeBrace
  | eof
  deriving DecidableEq, Repr

/-- A pair of delimiters; the invisible pair groups tokens without any text. -/
inductive Delimiter where
  | paren
  | bracket
  | brace
  | invisible
  deriving DecidableEq, Repr

namespace Delimiter

/-- The opening text of a pair. -/
def opening : Delimiter → String
  | paren => "("
  | bracket => "["
  | brace => "\x7b"
  | invisible => ""

/-- The closing text of a pair. -/
def closing : Delimiter → String
  | paren => ")"
  | bracket => "]"
  | brace => "\x7d"
  | invisible => ""

/-- Both texts of a pair. -/
def text (d : Delimiter) : String :=
  d.opening ++ d.closing

/-- What a group in this pair is called in a message. -/
def describe : Delimiter → String
  | paren => "parentheses"
  | bracket => "square brackets"
  | brace => "curly braces"
  | invisible => "invisible group"

end Delimiter

namespace TokenKind

/-- The kinds of literals. -/
def isLiteral : TokenKind → Bool
  | integer | float | string | byteString | character | byte => true
  | _ => false

/-- The pair that a token of this kind opens. -/
def opens? : TokenKind → Option Delimiter
  | openParen => some .paren
  | openBracket => some .bracket
  | openBrace => some .brace
  | _ => none

/-- The pair that a token of this kind closes. -/
def closes? : TokenKind → Option Delimiter
  | closeParen => some .paren
  | closeBracket => some .bracket
  | closeBrace => some .brace
  | _ => none

end TokenKind

/-- A lexical unit with its place. -/
structure Token where
  kind : TokenKind
  text : String
  span : Span
  joint : Bool
  deriving DecidableEq, Repr

namespace Token

/-- A marker for the operator `op`, which may have several characters. -/
def punct (op : String) (span : Span) : Token :=
  ⟨.punct, op, span, false⟩

/-- A keyword. -/
def keyword (word : String) (span : Span) : Token :=
  ⟨.keyword, word, span, false⟩

/-- A lifetime; the quote in front of the name may be left out. -/
def lifetime (name : String) (span : Span) : Token :=
  ⟨.lifetime, if name.toList.head? = some '\'' then name else "'" ++ name, span, false⟩

/-- The same token outside any file. -/
def erase (t : Token) : Token :=
  { t with span := Span.callSite }

end Token

/-- A pair of delimiters recorded on a node of a syntax tree. -/
structure Delim where
  delimiter : Delimiter
  span : Span
  deriving DecidableEq, Repr

/-- The same pair outside any file. -/
def Delim.erase (d : Delim) : Delim :=
  { d with span := Span.callSite }

/-- The words that are no identifiers. -/
def keywords : List String :=
  ["_", "as", "async", "await", "break", "const", "continue", "crate", "else", "enum", "extern",
   "false", "fn", "for", "if", "impl", "in", "let", "loop", "match", "mod", "move", "mut", "pub",
   "ref", "return", "self", "Self", "static", "struct", "super", "trait", "true", "type", "unsafe",
   "use", "where", "while", "abstract", "become", "box", "do", "final", "macro", "override",
   "priv", "typeof", "unsized", "virtual", "yield"]

/-- The keywords that may start a path. -/
def pathRoots : List String :=
  ["self", "Self", "super", "crate", "extern"]

/-- The characters of operators and separators. -/
def punctChars : List Char :=
  ['~', '!', '@', '#', '$', '%', '^', '&', '*', '-', '+', '=', '|', '\\', ';', ':', ',', '.', '<',
   '>', '/', '?']

/-- True of a character of an operator or separator. -/
def isPunctChar (c : Char) : Bool :=
  punctChars.contains c

end TypeGrammar
