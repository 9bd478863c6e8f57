import TypeGrammar.Text.Printable

/-!
# Quoted text

A text is shown between single quotes, or between double quotes if it holds a single quote and no
double one. The quote in use and the backslash are escaped by a backslash, and an unprintable
character is given by its code point.
-/

namespace TypeGrammar.Text

/-- The last `width` hexadecimal digits of `n`, in lower case. -/
def hexDigits : Nat → Nat → List Char
  | 0, _ => []
  | width + 1, n => hexDigits width (n / 16) ++ [Nat.digitChar (n % 16)]

/-- The quote that encloses a text. -/
def quoteFor (cs : List Char) : Char :=
  if cs.contains '\'' && !cs.contains '"' then '"' else '\''

/-- A character as it stands between two quotes `q`. -/
def escapeChar (q c : Char) : List Char :=
  if c == q || c == '\\' then ['\\', c]
  else if c == '\n' then ['\\', 'n']
  else if c == '\r' then ['\\', 'r']
  else if c == '\t' then ['\\', 't']
  else if isPrintable c then [c]
  else if c.toNat < 0x100 then '\\' :: 'x' :: hexDigits 2 c.toNat
  else if c.toNat < 0x10000 then '\\' :: 'u' :: hexDigits 4 c.toNat
  else '\\' :: 'U' :: hexDigits 8 c.toNat

/-- The text between quotes. -/
def quoted (text : String) : String :=
  let q := quoteFor text.toList
  String.ofList (q :: text.toList.flatMap (escapeChar q) ++ [q])

end TypeGrammar.Text
