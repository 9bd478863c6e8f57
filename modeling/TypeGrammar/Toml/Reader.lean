import TypeGrammar.Toml.Value

/-!
# Reading TOML values

Readers take characters from the front of a text or fail. This module reads keys, strings, numbers,
dates and times, arrays and inline tables.
-/

namespace TypeGrammar.Toml

/-- A step that takes characters from the front of a text and may fail. -/
abbrev Reader := StateT (List Char) Option

namespace Reader

/-- Takes the next character. -/
def next : Reader Char := fun cs =>
  match cs with
  | c :: cs => some (c, cs)
  | [] => none

/-- The next character, which is not taken. -/
def peek : Reader (Option Char) := fun cs =>
  some (cs.head?, cs)

/-- Takes the next characters if they are the given ones, and tells if they were. -/
def taken (expected : List Char) : Reader Bool := fun cs =>
  if expected.isPrefixOf cs then some (true, cs.drop expected.length) else some (false, cs)

/-- Takes the given characters. -/
def expect (expected : List Char) : Reader Unit := do
  if ← taken expected then return () else failure

/-- Takes the characters with a property. -/
def takeWhile (p : Char → Bool) : Reader (List Char) := fun cs =>
  some (cs.takeWhile p, cs.dropWhile p)

/-- Takes a number of characters. -/
def takeCount (n : Nat) : Reader (List Char) := fun cs =>
  if n ≤ cs.length then some (cs.take n, cs.drop n) else none

end Reader

open Reader

/-! ## Gaps -/

/-- Blanks within a line. -/
def isGap (c : Char) : Bool :=
  c == ' ' || c == '\t'

/-- Controls that no text may hold; a tab is allowed, and a line end where `lines` are. -/
def isForbidden (lines : Bool) (c : Char) : Bool :=
  (c.toNat < 32 || c.toNat == 127) && c != '\t' && !(lines && c == '\n')

/-- Takes the blanks within a line. -/
def gap : Reader Unit := do
  let _ ← takeWhile isGap

/-- Takes a comment if one is next. -/
def comment : Reader Unit := do
  if (← peek) = some '#' then
    let text ← takeWhile (· != '\n')
    if text.any (isForbidden false) then failure

/-- Takes blanks, line ends and comments, with at most `limit` comments. -/
def gapLines : (limit : Nat) → Reader Unit
  | 0 => return ()
  | limit + 1 => do
    let _ ← takeWhile fun c => isGap c || c == '\n'
    if (← peek) = some '#' then
      comment
      gapLines limit

/-- Takes blanks, line ends and comments. -/
def arrayGap : Reader Unit := do
  gapLines ((← get).length + 1)

/-! ## Strings -/

/-- The value of a hexadecimal digit. -/
def hexValue? (c : Char) : Option Nat :=
  if c.isDigit then some (c.toNat - '0'.toNat)
  else if 'a' ≤ c ∧ c ≤ 'f' then some (c.toNat - 'a'.toNat + 10)
  else if 'A' ≤ c ∧ c ≤ 'F' then some (c.toNat - 'A'.toNat + 10)
  else none

/-- The character whose code point is given in hexadecimal digits. -/
def hexChar (width : Nat) : Reader Char := do
  let digits ← takeCount width
  match digits.mapM hexValue? with
  | none => failure
  | some values =>
    let n := values.foldl (fun n d => 16 * n + d) 0
    if n.isValidChar then return Char.ofNat n else failure

/-- What follows a backslash in a string. In a string of several lines a backslash at the end of a
line removes the blanks and line ends after it. -/
def escapeSequence (lines : Bool) : Reader (List Char) := do
  let c ← next
  if lines && (isGap c || c == '\n') then
    if c != '\n' then
      gap
      if (← peek).isSome then expect ['\n']
    let _ ← takeWhile fun c => isGap c || c == '\n'
    return []
  else if c == 'u' then return [← hexChar 4]
  else if c == 'U' then return [← hexChar 8]
  else
    match ['b', 't', 'n', 'f', 'r', '"', '\\'].zip
        ['\x08', '\t', '\n', '\x0c', '\r', '"', '\\'] |>.lookup c with
    | some c => return [c]
    | none => failure

/-- The rest of a basic string, with at most `limit` characters and escapes. -/
def basicRest (lines : Bool) : (limit : Nat) → Reader (List Char)
  | 0 => failure
  | limit + 1 => do
    let c ← next
    if c == '"' then
      if !lines then return []
      else if ← taken ['"', '"'] then return []
      else return c :: (← basicRest lines limit)
    else if c == '\\' then
      let cs ← escapeSequence lines
      return cs ++ (← basicRest lines limit)
    else if isForbidden lines c then failure
    else return c :: (← basicRest lines limit)

/-- The rest of a literal string, with at most `limit` characters. -/
def literalRest (lines : Bool) : (limit : Nat) → Reader (List Char)
  | 0 => failure
  | limit + 1 => do
    let c ← next
    if c == '\'' then
      if !lines then return []
      else if ← taken ['\'', '\''] then return []
      else return c :: (← literalRest lines limit)
    else if isForbidden lines c then failure
    else return c :: (← literalRest lines limit)

/-- The rest of a string that is enclosed by `quote`, on one line or on several. -/
def stringRest (quote : Char) (lines : Bool) : Reader (List Char) := do
  let limit := (← get).length + 1
  if quote == '"' then basicRest lines limit else literalRest lines limit

/-- A string on one line. -/
def lineString (quote : Char) : Reader String := do
  expect [quote]
  return String.ofList (← stringRest quote false)

/-- A string on several lines. A line end right after the opening is dropped, and up to two more
quotes at the closing belong to the string. -/
def blockString (quote : Char) : Reader String := do
  expect [quote, quote, quote]
  let _ ← taken ['\n']
  let body ← stringRest quote true
  let first ← taken [quote]
  let second ← if first then taken [quote] else pure false
  return String.ofList (body ++ (if first then [quote] else []) ++ (if second then [quote] else []))

/-- A string in either form. -/
def anyString (quote : Char) : Reader String := fun cs =>
  if [quote, quote, quote].isPrefixOf cs then blockString quote cs else lineString quote cs

/-! ## Keys -/

/-- The characters of a key without quotes. -/
def isBareKeyChar (c : Char) : Bool :=
  c.isAlphanum || c == '-' || c == '_'

/-- One part of a dotted key. -/
def keyPart : Reader String := do
  match ← peek with
  | some '"' => lineString '"'
  | some '\'' => lineString '\''
  | some c => if isBareKeyChar c then return String.ofList (← takeWhile isBareKeyChar) else failure
  | none => failure

/-- The parts of a dotted key after the first, at most `limit` of them. -/
def keyParts : (limit : Nat) → Reader Key
  | 0 => failure
  | limit + 1 => do
    gap
    if ← taken ['.'] then
      gap
      let part ← keyPart
      return part :: (← keyParts limit)
    else
      return []

/-- A dotted key and the blanks after it. -/
def key : Reader Key := do
  let part ← keyPart
  return part :: (← keyParts ((← get).length + 1))

/-! ## Numbers -/

/-- The length of digits after a digit, with single underscores between digits. -/
def moreDigits (p : Char → Bool) : List Char → Nat
  | '_' :: c :: cs => if p c then 2 + moreDigits p cs else 0
  | c :: cs => if p c then 1 + moreDigits p cs else 0
  | [] => 0

/-- The length of digits with single underscores between them. -/
def digitGroup (p : Char → Bool) : List Char → Nat
  | c :: cs => if p c then 1 + moreDigits p cs else 0
  | [] => 0

/-- The number with the given digits in a base. -/
def baseValue (base : Nat) (cs : List Char) : Nat :=
  (cs.filterMap hexValue?).foldl (fun n d => base * n + d) 0

/-- The length and base of the digits after `0` in a number with a base mark. -/
def basedDigits? : List Char → Option (Nat × Nat)
  | '0' :: mark :: cs =>
    let digits :=
      if mark == 'x' then (16, digitGroup (fun c => (hexValue? c).isSome) cs)
      else if mark == 'o' then (8, digitGroup (fun c => '0' ≤ c && c ≤ '7') cs)
      else if mark == 'b' then (2, digitGroup (fun c => c == '0' || c == '1') cs)
      else (10, 0)
    if digits.2 = 0 then none else some digits
  | _ => none

/-- The length of the digits of a whole number; none but zero starts with `0`. -/
def wholeDigits : List Char → Nat
  | '0' :: _ => 1
  | cs => digitGroup Char.isDigit cs

/-- The length of a point with digits. -/
def fractionDigits : List Char → Nat
  | '.' :: cs => let n := digitGroup Char.isDigit cs; if n = 0 then 0 else n + 1
  | _ => 0

/-- The length of an exponent with its optional sign. -/
def exponentDigits : List Char → Nat
  | e :: cs =>
    if e == 'e' || e == 'E' then
      let sign := if cs.head? == some '+' || cs.head? == some '-' then 1 else 0
      let n := digitGroup Char.isDigit (cs.drop sign)
      if n = 0 then 0 else 1 + sign + n
    else 0
  | [] => 0

/-- The length of an optional sign. -/
def signLength : List Char → Nat
  | '+' :: _ => 1
  | '-' :: _ => 1
  | _ => 0

/-- A decimal number and its length. -/
def decimal? (cs : List Char) : Option (Value × Nat) :=
  let sign := signLength cs
  let whole := wholeDigits (cs.drop sign)
  if whole = 0 then none
  else
    let part := fractionDigits (cs.drop (sign + whole))
    let power := exponentDigits (cs.drop (sign + whole + part))
    let length := sign + whole + part + power
    let text := (cs.take length).filter (· != '_')
    if part + power = 0 then some (.integer (signedValue text), length)
    else
      let text := if cs.head? == some '+' then text.drop 1 else text
      some (.float (String.ofList text), length)

/-- A float that is no number, or infinite, and its length. -/
def specialFloat? (cs : List Char) : Option (Value × Nat) :=
  let sign := signLength cs
  let name := (cs.drop sign).take 3
  if name == ['i', 'n', 'f'] then
    some (.float (if cs.head? == some '-' then "-inf" else "inf"), sign + 3)
  else if name == ['n', 'a', 'n'] then some (.float "nan", sign + 3)
  else none

/-- A number and its length. -/
def number? (cs : List Char) : Option (Value × Nat) :=
  match basedDigits? cs with
  | some (base, n) => some (.integer (baseValue base ((cs.drop 2).take n)), n + 2)
  | none => (decimal? cs).or (specialFloat? cs)

/-! ## Dates and times -/

/-- A number of two digits within bounds. -/
def twoDigits (low high : Nat) : List Char → Bool
  | a :: b :: _ =>
    a.isDigit && b.isDigit && low ≤ digitsValue [a, b] && digitsValue [a, b] ≤ high
  | _ => false

/-- The length of a time `hh:mm:ss` with an optional fraction, or zero. -/
def timeLength (cs : List Char) : Nat :=
  if twoDigits 0 23 cs && cs[2]? == some ':' && twoDigits 0 59 (cs.drop 3) &&
      cs[5]? == some ':' && twoDigits 0 59 (cs.drop 6) then
    match cs.drop 8 with
    | '.' :: rest =>
      let n := (rest.takeWhile Char.isDigit).length
      if n = 0 then 8 else 9 + n
    | _ => 8
  else 0

/-- The length of an offset from universal time, or zero. -/
def offsetLength : List Char → Nat
  | c :: cs =>
    if c == 'Z' || c == 'z' then 1
    else if (c == '+' || c == '-') && twoDigits 0 23 cs && cs[2]? == some ':' &&
        twoDigits 0 59 (cs.drop 3) then 6
    else 0
  | [] => 0

/-- The length of a date `yyyy-mm-dd`, or zero. -/
def dateLength (cs : List Char) : Nat :=
  if (cs.take 4).length = 4 && (cs.take 4).all Char.isDigit && cs[4]? == some '-' &&
      twoDigits 1 12 (cs.drop 5) && cs[7]? == some '-' && twoDigits 1 31 (cs.drop 8) then 10
  else 0

/-- The length of what may follow a date: a separator, a time and an offset. -/
def afterDateLength : List Char → Nat
  | c :: cs =>
    let time := timeLength cs
    if (c == 'T' || c == 't' || c == ' ') && time != 0 then
      1 + time + offsetLength (cs.drop time)
    else 0
  | [] => 0

/-- The number of days of a month. -/
def daysOf (year month : Nat) : Nat :=
  if month = 2 then
    if year % 4 = 0 ∧ (year % 100 ≠ 0 ∨ year % 400 = 0) then 29 else 28
  else if month = 4 ∨ month = 6 ∨ month = 9 ∨ month = 11 then 30
  else 31

/-- True if the calendar has the date at the front. -/
def isDate (cs : List Char) : Bool :=
  let year := digitsValue (cs.take 4)
  let month := digitsValue ((cs.drop 5).take 2)
  let day := digitsValue ((cs.drop 8).take 2)
  1 ≤ year && day ≤ daysOf year month

/-- A date, a time or a number. -/
def scalar : Reader Value := fun cs =>
  let date := dateLength cs
  let time := timeLength cs
  if date != 0 then
    let length := date + afterDateLength (cs.drop date)
    if isDate cs then some (.moment (String.ofList (cs.take length)), cs.drop length) else none
  else if time != 0 then some (.moment (String.ofList (cs.take time)), cs.drop time)
  else (number? cs).map fun (v, length) => (v, cs.drop length)

/-! ## Arrays and inline tables -/

/-- The items of an array up to its end, at most `limit` of them. -/
def arrayItems (item : Reader Value) : (limit : Nat) → Reader (List Value)
  | 0 => failure
  | limit + 1 => do
    arrayGap
    if ← taken [']'] then return []
    else
      let value ← item
      arrayGap
      if ← taken [']'] then return [value]
      else
        expect [',']
        return value :: (← arrayItems item limit)

/-- True if a key is one of the given keys or below one of them. -/
def isWithin (keys : List Key) (k : Key) : Bool :=
  keys.any fun q => q.isPrefixOf k

/-- True of values that cannot change once they are defined. -/
def Value.isClosed : Value → Bool
  | .array _ => true
  | .table _ => true
  | _ => false

/-- A key, an equals sign and a value. -/
def keyValue (item : Reader Value) : Reader (Key × Value) := do
  let k ← key
  expect ['=']
  gap
  return (k, ← item)

/-- The entries with a value at a dotted key, of which the last part must be new. -/
def Entries.define? (intoArrays : Bool) (parent k : Key) (v : Value) (entries : Entries) :
    Option Entries :=
  match k.getLast? with
  | some stem => entries.update? intoArrays (Entries.add? stem v) (parent ++ k.dropLast)
  | none => none

/-- The rest of an inline table after the entries so far, at most `limit` of them. The keys in
`closed` hold arrays or tables that cannot change. -/
def inlineEntries (item : Reader Value) (entries : Entries) (closed : List Key) :
    (limit : Nat) → Reader Entries
  | 0 => failure
  | limit + 1 => do
    let (k, v) ← keyValue item
    if isWithin closed k then failure
    else
      match entries.define? false [] k v with
      | none => failure
      | some entries =>
        gap
        if ← taken ['}'] then return entries
        else
          expect [',']
          gap
          inlineEntries item entries (if v.isClosed then k :: closed else closed) limit

/-- A value whose nested values are read by `item`. -/
def valueWith (item : Reader Value) : Reader Value := do
  let limit := (← get).length + 1
  match ← peek with
  | some '"' => return .string (← anyString '"')
  | some '\'' => return .string (← anyString '\'')
  | some '[' =>
    expect ['[']
    return .array (← arrayItems item limit)
  | some '{' =>
    expect ['{']
    gap
    if ← taken ['}'] then return .table []
    else return .table (← inlineEntries item [] [] limit)
  | _ =>
    if ← taken ['t', 'r', 'u', 'e'] then return .bool true
    else if ← taken ['f', 'a', 'l', 's', 'e'] then return .bool false
    else scalar

/-- A value with at most `depth` levels of arrays and tables in it. -/
def valueUpTo : (depth : Nat) → Reader Value
  | 0 => failure
  | depth + 1 => valueWith (valueUpTo depth)

/-- A value. -/
def value : Reader Value := do
  valueUpTo ((← get).length + 1)

end TypeGrammar.Toml
