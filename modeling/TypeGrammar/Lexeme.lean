import TypeGrammar.Text.Numeral
import TypeGrammar.Text.Quoted
import TypeGrammar.Token

/-!
# Lexemes

A source is cut into lexemes: gaps (blanks and comments), tokens, and faulty pieces. `scan` finds
the first lexeme of a text from its first character and what follows; it tells what the lexeme is
and how many of the following characters belong to it. So every lexeme has at least one
character, and the lexemes of a text are a division of it.
-/

namespace TypeGrammar

open Text

/-- Why a piece of a source is no token. -/
inductive LexicalFault where
  | unexpectedCharacter (c : Char)
  | unterminatedComment
  | unterminatedRawString
  | unterminatedString
  | unterminatedCharacter
  deriving DecidableEq, Repr

/-- The wording of a fault. -/
def LexicalFault.message : LexicalFault → String
  | unexpectedCharacter c => "unexpected character " ++ quoted (String.singleton c)
  | unterminatedComment => "unterminated block comment"
  | unterminatedRawString => "unterminated raw string"
  | unterminatedString => "unterminated string literal"
  | unterminatedCharacter => "unterminated character literal"

/-- What a lexeme is. -/
inductive LexemeSort where
  | gap
  | token (kind : TokenKind)
  | fault (cause : LexicalFault)
  deriving DecidableEq, Repr

/-- The first lexeme of a text: what it is, and how many characters it has after the first. -/
structure Lexeme where
  sort : LexemeSort
  extra : Nat
  deriving DecidableEq, Repr

/-- The same lexeme with `n` more characters in front. -/
def Lexeme.after (l : Lexeme) (n : Nat) : Lexeme :=
  { l with extra := n + l.extra }

namespace Lexeme

/-- The number of leading characters with a property. -/
def run (p : Char → Bool) (cs : List Char) : Nat :=
  (cs.takeWhile p).length

/-! ## Gaps -/

/-- The blanks between tokens. -/
def isGapChar (c : Char) : Bool :=
  c == ' ' || c == '\t' || c == '\r' || c == '\n'

/-- The characters up to the end of a comment in which `depth` more comments are open. -/
def closeComment? : Nat → List Char → Option Nat
  | depth, '/' :: '*' :: cs => (closeComment? (depth + 1) cs).map (· + 2)
  | 0, '*' :: '/' :: _ => some 2
  | depth + 1, '*' :: '/' :: cs => (closeComment? depth cs).map (· + 2)
  | depth, _ :: cs => (closeComment? depth cs).map (· + 1)
  | _, [] => none

/-- A block comment; `cs` follows its opening. -/
def blockComment (cs : List Char) : Lexeme :=
  match closeComment? 0 cs with
  | some n => ⟨.gap, n⟩
  | none => ⟨.fault .unterminatedComment, cs.length⟩

/-! ## Strings and characters -/

/-- The characters up to the end of a string in which a backslash escapes the next character. -/
def closeString? : List Char → Option Nat
  | '\\' :: _ :: cs => (closeString? cs).map (· + 2)
  | '"' :: _ => some 1
  | _ :: cs => (closeString? cs).map (· + 1)
  | [] => none

/-- A string literal; `cs` follows its opening quote. -/
def stringLiteral (kind : TokenKind) (cs : List Char) : Lexeme :=
  match closeString? cs with
  | some n => ⟨.token kind, n⟩
  | none => ⟨.fault .unterminatedString, cs.length⟩

/-- The characters up to the end of a raw string that closes with `hashes` hash marks. -/
def closeRawString? (hashes : Nat) : List Char → Option Nat
  | '"' :: cs =>
    if hashes ≤ run (· == '#') cs then some (hashes + 1)
    else (closeRawString? hashes cs).map (· + 1)
  | _ :: cs => (closeRawString? hashes cs).map (· + 1)
  | [] => none

/-- A raw string, if `cs` starts with hash marks and a quote. -/
def rawString? (kind : TokenKind) (cs : List Char) : Option Lexeme :=
  let hashes := run (· == '#') cs
  match cs.drop hashes with
  | '"' :: body =>
    some <| match closeRawString? hashes body with
      | some n => ⟨.token kind, hashes + 1 + n⟩
      | none => ⟨.fault .unterminatedRawString, cs.length⟩
  | _ => none

/-- The width of the character or escape in front of the closing quote of a character literal. -/
def characterWidth : List Char → Nat
  | '\\' :: 'u' :: '{' :: cs => 3 + min (run (· != '}') cs + 1) cs.length
  | '\\' :: _ :: _ => 2
  | _ :: _ => 1
  | [] => 0

/-- A character literal; `cs` follows its opening quote. -/
def characterLiteral (kind : TokenKind) (cs : List Char) : Lexeme :=
  let width := characterWidth cs
  if 0 < width && (cs.drop width).head? == some '\'' then ⟨.token kind, width + 1⟩
  else ⟨.fault .unterminatedCharacter, width⟩

/-- A literal that starts with the letter `c`: a raw string, a byte string or a byte. -/
def letteredLiteral? (c : Char) (cs : List Char) : Option Lexeme :=
  if c == 'r' then rawString? .string cs
  else if c == 'b' then
    match cs with
    | '"' :: cs => some ((stringLiteral .byteString cs).after 1)
    | '\'' :: cs => some ((characterLiteral .byte cs).after 1)
    | 'r' :: cs => (rawString? .byteString cs).map (·.after 1)
    | _ => none
  else none

/-- What starts with a single quote: a lifetime, or else a character literal. -/
def quoteMark (cs : List Char) : Lexeme :=
  match cs with
  | c :: rest =>
    if isWordStart c && rest.head? != some '\'' then ⟨.token .lifetime, run isWordChar cs⟩
    else characterLiteral .character cs
  | [] => characterLiteral .character []

/-! ## Numbers -/

/-- The length of a run of digits and underscores. -/
def digitRun (cs : List Char) : Nat :=
  run (fun c => isDigit c || c == '_') cs

/-- The length of a point with digits after it. -/
def fraction : List Char → Nat
  | '.' :: c :: cs => if isDigit c then 1 + digitRun (c :: cs) else 0
  | _ => 0

/-- The length of an exponent with its optional sign. -/
def exponent : List Char → Nat
  | e :: cs =>
    if e == 'e' || e == 'E' then
      match cs with
      | c :: rest =>
        if isDigit c then 1 + digitRun cs
        else if (c == '+' || c == '-') && rest.head?.any isDigit then 2 + digitRun rest
        else 0
      | [] => 0
    else 0
  | [] => 0

/-- The digits of a number with a base mark, both bases and underscores alike. -/
def isBaseDigit (c : Char) : Bool :=
  c.isDigit || ('a' ≤ c && c ≤ 'f') || ('A' ≤ c && c ≤ 'F') || c == '_'

/-- The digits of a number after its first one: whether it has a fraction, and the length. -/
def numberBody (c : Char) (cs : List Char) : TokenKind × Nat :=
  if c == '0' && cs.head?.any fun b => b == 'x' || b == 'o' || b == 'b' then
    (.integer, 1 + run isBaseDigit cs.tail)
  else
    let whole := digitRun cs
    let part := fraction (cs.drop whole)
    let power := exponent (cs.drop (whole + part))
    (if part + power = 0 then .integer else .float, whole + part + power)

/-- A number with its type suffix; a suffix that starts with `f` makes it a float. -/
def number (c : Char) (cs : List Char) : Lexeme :=
  let (kind, length) := numberBody c cs
  let tail := cs.drop length
  if tail.head?.any isWordStart then
    ⟨.token (if tail.head? == some 'f' then .float else kind), length + run isWordChar tail⟩
  else ⟨.token kind, length⟩

/-! ## Words -/

/-- A word, which is a keyword or an identifier. -/
def word (c : Char) (cs : List Char) : Lexeme :=
  let length := run isWordChar cs
  let text := String.ofList (c :: cs.take length)
  ⟨.token (if keywords.contains text then .keyword else .identifier), length⟩

/-- True if `cs` follows the `r` of a raw identifier. -/
def continuesRawIdentifier : List Char → Bool
  | '#' :: c :: _ => isWordStart c
  | _ => false

/-- The kind of the token that a bracket makes. -/
def bracketKind? (c : Char) : Option TokenKind :=
  if c == '(' then some .openParen
  else if c == ')' then some .closeParen
  else if c == '[' then some .openBracket
  else if c == ']' then some .closeBracket
  else if c == '{' then some .openBrace
  else if c == '}' then some .closeBrace
  else none

/-- A lexeme that no earlier rule describes: a number, a word, a bracket or punctuation. -/
def plain (c : Char) (cs : List Char) : Lexeme :=
  if isDigit c then number c cs
  else if isWordStart c then word c cs
  else
    match bracketKind? c with
    | some kind => ⟨.token kind, 0⟩
    | none =>
      if isPunctChar c then ⟨.token .punct, 0⟩
      else ⟨.fault (.unexpectedCharacter c), 0⟩

/-- The first lexeme of the text `c :: cs`. -/
def scan (c : Char) (cs : List Char) : Lexeme :=
  if isGapChar c then ⟨.gap, 0⟩
  else if c == '/' && cs.head? == some '/' then ⟨.gap, run (· != '\n') cs⟩
  else if c == '/' && cs.head? == some '*' then (blockComment cs.tail).after 1
  else if c == 'r' && continuesRawIdentifier cs then
    ⟨.token .identifier, 1 + run isWordChar cs.tail⟩
  else if c == '"' then stringLiteral .string cs
  else if c == '\'' then quoteMark cs
  else
    match letteredLiteral? c cs with
    | some l => l
    | none => plain c cs

end Lexeme

end TypeGrammar
