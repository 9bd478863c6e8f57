import TypeGrammar.Highlighter
import TypeGrammar.Text.Blank
import TypeGrammar.Text.Numeral

/-!
# Coloured text

The rules by which a text of types is coloured. Strings and comments, which may be nested, are modes
above the plain one.
-/

namespace TypeGrammar

open Text

namespace Coloring

open Highlighter

/-- What the rules of a text depend on. -/
inductive Mode where
  | plain
  | string
  | comment
  deriving DecidableEq, Repr

/-! ## Matches -/

/-- The number of leading characters with a property. -/
def run (p : Char → Bool) (cs : List Char) : Nat :=
  (cs.takeWhile p).length

/-- The characters of numbers and of plain words. -/
def isDigitOrUnderscore (c : Char) : Bool := c.isDigit || c == '_'

/-- The start of a plain word. -/
def isNameStart (c : Char) : Bool := c.isAlpha || c == '_'

/-- The characters of plain words. -/
def isNameChar (c : Char) : Bool := c.isAlphanum || c == '_'

/-- The hexadecimal digits and the underscore. -/
def isHexChar (c : Char) : Bool :=
  isDigitOrUnderscore c || ('a' ≤ c && c ≤ 'f') || ('A' ≤ c && c ≤ 'F')

/-- The capital letters, digits and the underscore. -/
def isConstantChar (c : Char) : Bool := c.isUpper || c.isDigit || c == '_'

/-- True if no word character is there. -/
def atBoundary (c : Option Char) : Bool := !c.any isWordChar

/-- A match of one of some texts. -/
def oneOf (texts : List (List Char)) (cs : List Char) : Nat :=
  match texts.find? (·.isPrefixOf cs) with
  | some t => t.length
  | none => 0

/-- A match of a whole word that is one of the given ones. -/
def wordOf (words : List String) (before : Option Char) (cs : List Char) : Nat :=
  let width := run isWordChar cs
  if atBoundary before && words.contains (String.ofList (cs.take width)) then width else 0

/-- A match of a comment up to the end of the line. -/
def lineComment : List Char → Nat
  | '/' :: '/' :: cs => 2 + run (· != '\n') cs
  | _ => 0

/-- The length up to the end of a raw string on the same line. -/
def closeRawString? (hashes : Nat) : List Char → Option Nat
  | '\n' :: _ => none
  | '"' :: cs =>
    if hashes ≤ run (· == '#') cs then some (1 + hashes)
    else (closeRawString? hashes cs).map (· + 1)
  | _ :: cs => (closeRawString? hashes cs).map (· + 1)
  | [] => none

/-- The length of a raw string after its `r`. -/
def rawStringBody (cs : List Char) : Nat :=
  let hashes := run (· == '#') cs
  match cs.drop hashes with
  | '"' :: body => ((closeRawString? hashes body).map (· + hashes + 1)).getD 0
  | _ => 0

/-- A match after an optional letter `b`. -/
def afterByteMark (width : List Char → Nat) (cs : List Char) : Nat :=
  match cs with
  | 'b' :: rest => let n := width rest; if n = 0 then 0 else n + 1
  | _ => width cs

/-- A match of a raw string. -/
def rawString : List Char → Nat
  | 'r' :: cs => let n := rawStringBody cs; if n = 0 then 0 else n + 1
  | _ => 0

/-- A match of the opening of a string. -/
def stringOpening : List Char → Nat
  | '"' :: _ => 1
  | _ => 0

/-- A match of a character literal. -/
def characterLiteral : List Char → Nat
  | '\'' :: '\\' :: c :: '\'' :: _ => if c == '\n' then 0 else 4
  | '\'' :: c :: '\'' :: _ => if c == '\\' || c == '\'' then 0 else 3
  | _ => 0

/-- A match of a lifetime. -/
def lifetime : List Char → Nat
  | '\'' :: c :: cs => if isNameStart c then 2 + run isNameChar cs else 0
  | _ => 0

/-- A match of a number with the base mark `mark`. -/
def basedNumber (mark : Char) (isBaseDigit : Char → Bool) : List Char → Nat
  | '0' :: c :: cs =>
    let digits := run isBaseDigit cs
    if c == mark && digits != 0 then
      2 + digits + run Char.isAlphanum (cs.drop digits)
    else 0
  | _ => 0

/-- The length of an exponent, or zero. -/
def exponent : List Char → Nat
  | e :: cs =>
    let sign := if cs.head? == some '+' || cs.head? == some '-' then 1 else 0
    let digits := run isDigitOrUnderscore (cs.drop sign)
    if (e == 'e' || e == 'E') && digits != 0 then 1 + sign + digits else 0
  | [] => 0

/-- A match of a number with a fraction. -/
def floatNumber : List Char → Nat
  | c :: cs =>
    let whole := run isDigitOrUnderscore cs
    match c.isDigit, cs.drop whole with
    | true, '.' :: d :: rest =>
      if d.isDigit then
        let part := run isDigitOrUnderscore rest
        whole + part + 3 + exponent (rest.drop part)
      else 0
    | _, _ => 0
  | [] => 0

/-- A match of a whole number with its suffix. -/
def integerNumber : List Char → Nat
  | c :: cs =>
    if c.isDigit then
      let whole := run isDigitOrUnderscore cs
      1 + whole + run Char.isAlphanum (cs.drop whole)
    else 0
  | [] => 0

/-- A match of the name of a macro and the mark after it. -/
def macroCall (cs : List Char) : Nat :=
  let width := run isNameChar cs
  if cs.head?.any isNameStart && (cs.drop width).head? == some '!' then width + 1 else 0

/-- A match of a name in capital letters. -/
def constantName : List Char → Nat
  | c :: cs =>
    let width := run isConstantChar cs
    if c.isUpper && width != 0 && atBoundary (cs.drop width).head? then width + 1 else 0
  | [] => 0

/-- A match of a name that starts with a capital letter. -/
def capitalName (cs : List Char) : Nat :=
  if cs.head?.any Char.isUpper then run isNameChar cs else 0

/-- A match of a name that starts with a small letter or an underscore. -/
def smallName (cs : List Char) : Nat :=
  if cs.head?.any fun c => c.isLower || c == '_' then run isNameChar cs else 0

/-- A match of such a name after an optional `r#`. -/
def rawName (cs : List Char) : Nat :=
  match cs with
  | 'r' :: '#' :: rest => let n := smallName rest; if n = 0 then smallName cs else n + 2
  | _ => smallName cs

/-- A match of a single character out of some. -/
def single (chars : List Char) (cs : List Char) : Nat :=
  if cs.head?.any chars.contains then 1 else 0

/-- A match of an escape in a string. -/
def stringEscape : List Char → Nat
  | '\\' :: c :: _ => if c == '\n' then 0 else 2
  | _ => 0

/-! ## Rules -/

/-- A rule that does not look back and keeps the mode. -/
def rule (style : Style) (width : List Char → Nat) : Rule Mode :=
  ⟨fun _ => width, style, .stay⟩

/-- The rules of a mode in their order. -/
def rules : Mode → List (Rule Mode)
  | .plain =>
    [rule .text (run isBlank),
     rule .lineComment lineComment,
     ⟨fun _ => oneOf [['/', '*']], .blockComment, .push .comment⟩,
     rule .string (afterByteMark rawString),
     ⟨fun _ => afterByteMark stringOpening, .string, .push .string⟩,
     rule .character (afterByteMark characterLiteral),
     rule .label lifetime,
     rule .hex (basedNumber 'x' isHexChar),
     rule .octal (basedNumber 'o' fun c => ('0' ≤ c && c ≤ '7') || c == '_'),
     rule .binary (basedNumber 'b' fun c => c == '0' || c == '1' || c == '_'),
     rule .float floatNumber,
     rule .integer integerNumber,
     ⟨wordOf ["const", "mut", "dyn", "impl", "for", "unsafe", "extern", "fn", "as"], .keyword,
      .stay⟩,
     ⟨wordOf ["self", "Self", "super", "crate"], .pseudoKeyword, .stay⟩,
     ⟨wordOf ["true", "false"], .constantKeyword, .stay⟩,
     ⟨wordOf ["_"], .pseudoKeyword, .stay⟩,
     ⟨wordOf ["bool", "char", "str", "u8", "u16", "u32", "u64", "u128", "usize", "i8", "i16", "i32",
       "i64", "i128", "isize", "f32", "f64"], .typeKeyword, .stay⟩,
     rule .magic macroCall,
     rule .punctuation (oneOf [['-', '>'], [':', ':'], ['.', '.', '.']]),
     rule .operator (oneOf [['=', '='], ['!', '='], ['<', '='], ['>', '='], ['&', '&'],
       ['|', '|'], ['<', '<'], ['>', '>']]),
     rule .operator (single ['+', '-', '*', '/', '%', '<', '>', '&', '|', '^', '!', '?', '=', '#']),
     rule .constant constantName,
     rule .className capitalName,
     rule .name rawName,
     rule .punctuation (single ['(', ')', ',', ';', '[', ']', '{', '}', ':', '.'])]
  | .string =>
    [rule .stringEscape stringEscape,
     rule .string (run fun c => c != '"' && c != '\\'),
     ⟨fun _ => single ['"'], .string, .pop⟩]
  | .comment =>
    [⟨fun _ => oneOf [['/', '*']], .blockComment, .push .comment⟩,
     ⟨fun _ => oneOf [['*', '/']], .blockComment, .pop⟩,
     rule .blockComment (run fun c => c != '/' && c != '*'),
     rule .blockComment (single ['/', '*'])]

/-- The pieces of a text. -/
def pieces (text : String) : List Piece :=
  terminal.pieces rules .plain text

end Coloring

/-- A text for a terminal, or as it is if `color` is off. -/
def colored (text : String) (color : Bool) : String :=
  if color then Highlighter.terminal.highlight Coloring.rules .plain text else text

end TypeGrammar
