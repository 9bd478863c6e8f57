/-!
# Terminal escape sequences

A sequence is the escape character, a `[`, parameters (digits, `;` and `?`) and an ASCII letter.
-/

namespace TypeGrammar.Text

/-- The character that opens every escape sequence. -/
def escape : Char := '\x1b'

/-- What stands between the bracket and the letter of a sequence. -/
def isEscapeParameter (c : Char) : Bool :=
  c.isDigit || c == ';' || c == '?'

/-- The number of characters after the escape character that complete a sequence, if they do. -/
def escapeTail? : List Char → Option Nat
  | '[' :: cs =>
    let parameters := (cs.takeWhile isEscapeParameter).length
    match cs.drop parameters with
    | c :: _ => if c.isAlpha then some (parameters + 2) else none
    | [] => none
  | _ => none

/-- The text without its first `skip` characters and without the sequences after them. -/
def dropEscapes (skip : Nat) : List Char → List Char
  | [] => []
  | c :: cs =>
    match skip with
    | n + 1 => dropEscapes n cs
    | 0 =>
      if c == escape then
        match escapeTail? cs with
        | some n => dropEscapes n cs
        | none => c :: dropEscapes 0 cs
      else c :: dropEscapes 0 cs

/-- The text without its escape sequences. -/
def withoutEscapes (text : String) : String :=
  String.ofList (dropEscapes 0 text.toList)

end TypeGrammar.Text
