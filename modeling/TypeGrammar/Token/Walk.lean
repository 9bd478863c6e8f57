import TypeGrammar.Token.Lex

/-!
# Walking through a text

The tokens of a text can be read by a walk that takes one step for each character. A walk looks
ahead without taking a step; past the end of the text it sees the character with the code zero
there, just as if that character stood in the text. A step where no character is left breaks the
walk off, and so does a loop that is still going on after as many rounds as the text has places.
-/

namespace TypeGrammar

open Text

namespace Walk

/-- Why a walk breaks off. -/
inductive Halt where
  | pastEnd
  | endless
  deriving DecidableEq, Repr

/-- Where a walk through a source is, and what it has made of the text behind it. -/
structure State where
  source : List Char
  file : String
  pos : Nat
  place : Place
  tokens : List Token
  diagnostics : List Diagnostic
  deriving DecidableEq, Repr

namespace State

/-- The start of a source in a line of a file. -/
def start (source : List Char) (file : String) (line : Int) : State :=
  ⟨source, file, 0, ⟨line, 1⟩, [], []⟩

/-- True if no character is left. -/
def atEnd (s : State) : Bool :=
  s.source.length ≤ s.pos

/-- The character at some distance, or the one with the code zero past the end. -/
def peek (s : State) (offset : Nat) : Char :=
  s.source.getD (s.pos + offset) '\x00'

/-- The text between an earlier state and this one. -/
def textFrom (s earlier : State) : List Char :=
  (s.source.take s.pos).drop earlier.pos

/-- More rounds than any loop over the source needs. -/
def limit (s : State) : Nat :=
  s.source.length + 1

end State

end Walk

/-- A walk through a text. -/
abbrev Walk :=
  EStateM Walk.Halt Walk.State

namespace Walk

/-! ## Steps -/

/-- The next character. -/
def current : Walk Char := do
  let s ← get
  match s.source[s.pos]? with
  | some c => return c
  | none => throw .pastEnd

/-- Steps over the next character. -/
def advance : Walk Char := do
  let c ← current
  modify fun s => { s with pos := s.pos + 1, place := s.place.next c }
  return c

/-- Takes some steps. -/
def advanceBy : Nat → Walk Unit
  | 0 => return
  | n + 1 => do
    discard advance
    advanceBy n

/-- Steps over characters with a property, in at most `limit` rounds. -/
def skipUpTo (p : Char → Bool) : (limit : Nat) → Walk Unit
  | 0 => throw .endless
  | limit + 1 => do
    let s ← get
    if !s.atEnd && p (s.peek 0) then
      discard advance
      skipUpTo p limit

/-- Steps over all next characters with a property. -/
def skip (p : Char → Bool) : Walk Unit := do
  skipUpTo p (← get).limit

/-- A token that started at an earlier state and ends here. -/
def emit (kind : TokenKind) (start : State) (joint : Bool) : Walk Unit :=
  modify fun s =>
    let endCol := if 1 < s.place.col then s.place.col - 1 else 1
    let span : Span := ⟨s.file, start.place.line, start.place.col, s.place.line, endCol⟩
    { s with tokens := s.tokens ++ [⟨kind, String.ofList (s.textFrom start), span, joint⟩] }

/-- A fault in what started at an earlier state. -/
def report (cause : LexicalFault) (start : State) : Walk Unit :=
  modify fun s =>
    let p := start.place
    let span : Span := ⟨s.file, p.line, p.col, p.line, p.col⟩
    { s with diagnostics := s.diagnostics ++ [⟨"E100", cause.message, [⟨span, ""⟩], []⟩] }

/-! ## Comments -/

/-- The rest of a comment in which `depth` comments are open. -/
def commentUpTo (start : State) : (limit depth : Nat) → Walk Unit
  | 0, _ => throw .endless
  | limit + 1, depth => do
    let s ← get
    if s.atEnd then report .unterminatedComment start
    else if s.peek 0 == '/' && s.peek 1 == '*' then
      discard advance
      discard advance
      commentUpTo start limit (depth + 1)
    else if s.peek 0 == '*' && s.peek 1 == '/' then
      discard advance
      discard advance
      if depth - 1 == 0 then return
      else commentUpTo start limit (depth - 1)
    else
      discard advance
      commentUpTo start limit depth

/-- A comment that may hold others. -/
def blockComment : Walk Unit := do
  let start ← get
  discard advance
  discard advance
  commentUpTo start start.limit 1

/-! ## Words and punctuation -/

/-- A word. -/
def word : Walk Unit := do
  let start ← get
  skip isWordChar
  let text := String.ofList ((← get).textFrom start)
  emit (if keywords.contains text then .keyword else .identifier) start false

/-- A raw identifier. -/
def rawIdentifier : Walk Unit := do
  let start ← get
  discard advance
  discard advance
  skip isWordChar
  emit .identifier start false

/-- A bracket. -/
def bracket (kind : TokenKind) : Walk Unit := do
  let start ← get
  discard advance
  emit kind start false

/-- A character of an operator. -/
def punct : Walk Unit := do
  let start ← get
  discard advance
  emit .punct start (isPunctChar ((← get).peek 0))

/-! ## Literals -/

/-- True if hash marks from `offset` on, or none, are followed by a quote. -/
def rawStringFollowsUpTo : (limit offset : Nat) → Walk Bool
  | 0, _ => throw .endless
  | limit + 1, offset => do
    let s ← get
    if s.peek offset == '#' then rawStringFollowsUpTo limit (offset + 1)
    else return s.peek offset == '"'

/-- True if hash marks from `offset` on, or none, are followed by a quote. -/
def rawStringFollows (offset : Nat) : Walk Bool := do
  rawStringFollowsUpTo (← get).limit offset

/-- True if a literal starts here with a letter. -/
def atLetteredLiteral : Walk Bool := do
  let s ← get
  if s.peek 0 == 'b' then
    if s.peek 1 == '"' || s.peek 1 == '\'' then return true
    else if s.peek 1 == 'r' then rawStringFollows 2
    else return false
  else rawStringFollows 1

/-- Steps over hash marks and counts them. -/
def hashMarksUpTo : (limit count : Nat) → Walk Nat
  | 0, _ => throw .endless
  | limit + 1, count => do
    let s ← get
    if s.peek 0 == '#' then
      discard advance
      hashMarksUpTo limit (count + 1)
    else return count

/-- The rest of a raw string. -/
def rawStringUpTo (start : State) (kind : TokenKind) (terminator : List Char) :
    (limit : Nat) → Walk Unit
  | 0 => throw .endless
  | limit + 1 => do
    let s ← get
    if s.atEnd then report .unterminatedRawString start
    else if terminator.isPrefixOf (s.source.drop s.pos) then
      advanceBy terminator.length
      emit kind start false
    else
      discard advance
      rawStringUpTo start kind terminator limit

/-- A raw string after its letters. -/
def rawString (start : State) (kind : TokenKind) : Walk Unit := do
  let hashes ← hashMarksUpTo start.limit 0
  discard advance
  rawStringUpTo start kind ('"' :: List.replicate hashes '#') start.limit

/-- The rest of a string. -/
def stringUpTo (start : State) (kind : TokenKind) : (limit : Nat) → Walk Unit
  | 0 => throw .endless
  | limit + 1 => do
    if (← get).atEnd then report .unterminatedString start
    else
      let c ← advance
      if c == '\\' && !(← get).atEnd then
        discard advance
        stringUpTo start kind limit
      else if c == '"' then emit kind start false
      else stringUpTo start kind limit

/-- A string from its opening quote on. -/
def stringLiteral (start : State) (kind : TokenKind) : Walk Unit := do
  discard advance
  stringUpTo start kind start.limit

/-- The character or the escape in a character literal. -/
def character : Walk Unit := do
  let c ← advance
  if c == '\\' && !(← get).atEnd then
    let e ← advance
    if e == 'u' && (← get).peek 0 == '{' then
      skip (· != '}')
      if !(← get).atEnd then discard advance

/-- A character literal from its opening quote on. -/
def characterLiteral (start : State) (kind : TokenKind) : Walk Unit := do
  discard advance
  if (← get).atEnd then report .unterminatedCharacter start
  else
    character
    if (← get).peek 0 != '\'' then report .unterminatedCharacter start
    else
      discard advance
      emit kind start false

/-- A literal that starts with a letter. -/
def letteredLiteral : Walk Unit := do
  let start ← get
  let byte := start.peek 0 == 'b'
  if byte then discard advance
  let s ← get
  if s.peek 0 == 'r' then
    discard advance
    rawString start (if byte then .byteString else .string)
  else if s.peek 0 == '\'' then characterLiteral start .byte
  else stringLiteral start (if byte then .byteString else .string)

/-- A lifetime or a character literal. -/
def quoteMark : Walk Unit := do
  let start ← get
  if start.peek 1 != '\\' && start.peek 2 != '\'' && isWordStart (start.peek 1) then
    discard advance
    skip isWordChar
    emit .lifetime start false
  else characterLiteral start .character

/-! ## Numbers -/

/-- Digits and underscores. -/
def digits : Walk Unit :=
  skip fun c => isDigit c || c == '_'

/-- A point with digits after it, if there is one. -/
def fraction : Walk Bool := do
  let s ← get
  if s.peek 0 == '.' && isDigit (s.peek 1) then
    discard advance
    digits
    return true
  else return false

/-- An exponent, if there is one. -/
def exponent : Walk Bool := do
  let s ← get
  if (s.peek 0 == 'e' || s.peek 0 == 'E') && (isDigit (s.peek 1) ||
      (s.peek 1 == '+' || s.peek 1 == '-') && isDigit (s.peek 2)) then
    discard advance
    let s ← get
    if s.peek 0 == '+' || s.peek 0 == '-' then discard advance
    digits
    return true
  else return false

/-- The digits of a number. -/
def numberBody : Walk TokenKind := do
  let s ← get
  if s.peek 0 == '0' && (s.peek 1 == 'x' || s.peek 1 == 'o' || s.peek 1 == 'b') then
    discard advance
    discard advance
    skip Lexeme.isBaseDigit
    return .integer
  else
    digits
    let part ← fraction
    let power ← exponent
    return if part || power then .float else .integer

/-- A number with its suffix. -/
def number : Walk Unit := do
  let start ← get
  let kind ← numberBody
  let s ← get
  if isWordStart (s.peek 0) then
    let first ← current
    skip isWordChar
    emit (if first == 'f' then .float else kind) start false
  else emit kind start false

/-! ## The whole text -/

/-- What starts with `c` and is no comment, and no literal or identifier that a letter starts. -/
def plain (c : Char) : Walk Unit := do
  let start ← get
  if c == '"' then stringLiteral start .string
  else if c == '\'' then quoteMark
  else if isDigit c then number
  else if isWordStart c then word
  else
    match Lexeme.bracketKind? c with
    | some kind => bracket kind
    | none =>
      if isPunctChar c then punct
      else
        report (.unexpectedCharacter c) start
        discard advance

/-- One round of the walk: a blank, a comment, a token, or a fault. -/
def lexeme : Walk Unit := do
  let c ← current
  let s ← get
  if Lexeme.isGapChar c then discard advance
  else if c == '/' && s.peek 1 == '/' then skip (· != '\n')
  else if c == '/' && s.peek 1 == '*' then blockComment
  else if c == 'r' && s.peek 1 == '#' && isWordStart (s.peek 2) then rawIdentifier
  else if c == 'r' || c == 'b' then
    if ← atLetteredLiteral then letteredLiteral else plain c
  else plain c

/-- Rounds up to the end of the text. -/
def lexemesUpTo : (limit : Nat) → Walk Unit
  | 0 => throw .endless
  | limit + 1 => do
    if (← get).atEnd then return
    lexeme
    lexemesUpTo limit

/-- A walk through the text and the end marker behind it. -/
def tokens : Walk Unit := do
  lexemesUpTo (← get).limit
  emit .eof (← get) false

/-- The tokens that a walk through a text finds, or the faults; or why the walk breaks off. -/
def lex (source file : String) (line : Int) : Except Halt (Except CompileError (List Token)) :=
  match tokens (State.start source.toList file line) with
  | .error halt _ => .error halt
  | .ok _ s => .ok (if s.diagnostics.isEmpty then .ok s.tokens else .error ⟨s.diagnostics⟩)

end Walk

end TypeGrammar
