import TypeGrammar.Cursor
import TypeGrammar.Separated

/-!
# Parsers

A parser moves a cursor and returns a value, or fails with an error; a failure keeps the position of
the cursor at which it happened. The primitives look at the trees ahead, take one token, or read the
contents of a group with a parser of their own.
-/

namespace TypeGrammar

/-- A step that moves a cursor and may fail. -/
abbrev Parser := EStateM ParseError Cursor

namespace Parser

variable {α β : Type}

/-- A property of the trees ahead. -/
def look (p : List TokenTree → α) : Parser α := fun c =>
  .ok (p c.rest) c

/-- Fails at the next tree. -/
def fail (f : ParseFault) : Parser α := fun c =>
  .error (c.fault f) c

/-- Fails at the next tree as none of the alternatives is there. -/
def failNoneOf (alternatives : List Expectation) : Parser α := fun c =>
  .error (c.fault (.noneOf alternatives c.rest.isEmpty)) c

/-- Takes the next tree. -/
def advance : Parser TokenTree := fun c =>
  match c.rest with
  | t :: _ => .ok t (c.skip 1)
  | [] => .error (c.fault .unexpectedEnd) c

/-- Takes the next tree if it is a token that meets an expectation. -/
def take (e : Expectation) : Parser Token := fun c =>
  match c.rest with
  | .token t :: _ => if e.isMet c.rest then .ok t (c.skip 1) else .error (c.fault (.expected e)) c
  | _ => .error (c.fault (.expected e)) c

/-- Takes one tree for each of the characters and gives the last tree that was taken, which is
`last` if there are no characters. -/
def advanceFor (last : TokenTree) : List Char → Parser TokenTree
  | [] => return last
  | _ :: cs => do advanceFor (← advance) cs

/-- Takes an operator as one marker that spans all of its characters. -/
def punct (op : String) : Parser Token := do
  if ← look (TokenTree.startsPunct op) then
    let first ← advance
    let final ← advanceFor first op.toList.tail
    return Token.punct op (first.span.join final.span)
  else fail (.expected (.punct op))

/-- Takes a word, be it a keyword or an identifier. -/
def keyword (word : String) : Parser Token :=
  take (.keyword word)

/-- Takes an identifier. -/
def identifier : Parser Token :=
  take .identifier

/-- Takes an identifier or a keyword. -/
def anyWord : Parser Token := fun c =>
  match c.rest with
  | .token t :: _ =>
    if t.kind = .identifier ∨ t.kind = .keyword then .ok t (c.skip 1)
    else .error (c.fault (.expected .identifier)) c
  | _ => .error (c.fault (.expected .identifier)) c

/-- Takes a lifetime. -/
def lifetime : Parser Token :=
  take .lifetime

/-- Takes a literal. -/
def literal : Parser Token :=
  take .literal

/-- Takes an operator if it is next. -/
def punct? (op : String) : Parser (Option Token) := do
  if ← look (TokenTree.startsPunct op) then return some (← punct op) else return none

/-- Takes a word if it is next. -/
def keyword? (word : String) : Parser (Option Token) := do
  if ← look (TokenTree.startsWord word) then return some (← keyword word) else return none

/-- Fails unless all trees are taken. -/
def atEnd : Parser Unit := fun c =>
  if c.rest.isEmpty then .ok () c else .error (c.fault .unexpectedToken) c

/-- Takes all trees that are left. -/
def remaining : Parser (List TokenTree) := fun c =>
  .ok c.rest (c.skip c.rest.length)

/-- Takes a group in the given pair: the pair, and a cursor at the start of the contents. -/
def openGroup (d : Delimiter) : Parser (Delim × Cursor) := fun c =>
  match c.rest with
  | .group d' trees openSpan closeSpan :: _ =>
    if d' = d then .ok (⟨d, openSpan⟩, Cursor.ofTrees trees closeSpan) (c.skip 1)
    else .error (c.fault (.expected (.group d))) c
  | _ => .error (c.fault (.expected (.group d))) c

/-- Takes a group with visible delimiters: the pair, and the contents as they stand. -/
def anyGroup : Parser (Delim × List TokenTree) := fun c =>
  match c.rest with
  | .group d trees openSpan _ :: _ =>
    if d = .invisible then .error (c.fault (.expected .anyGroup)) c
    else .ok (⟨d, openSpan⟩, trees) (c.skip 1)
  | _ => .error (c.fault (.expected .anyGroup)) c

/-- Runs a parser at another cursor. -/
def runAt (inner : Cursor) (p : Parser α) : Parser α := fun c =>
  match p inner with
  | .ok a _ => .ok a c
  | .error e _ => .error e c

/-- Takes a group in the given pair and reads all of its contents. -/
def inGroup (d : Delimiter) (p : Parser α) : Parser (Delim × α) := do
  let (delim, inner) ← openGroup d
  let a ← runAt inner do
    let a ← p
    atEnd
    return a
  return (delim, a)

/-! ## Lists -/

/-- When a list with separators goes on: `separator` is its separator, `asks` tells from the trees
after a value if a separator has to follow, and `again` tells from the trees after a separator if a
value has to follow. -/
structure ListRule where
  separator : String
  asks : List TokenTree → Bool
  again : List TokenTree → Bool

/-- The rest of a list after the value `v`, with at most `limit` separators. -/
def listFrom (rule : ListRule) (item : Parser α) : (limit : Nat) → α → Parser (Separated α)
  | 0, _ => fail .tooDeep
  | limit + 1, v => do
    if ← look rule.asks then
      let separator ← punct rule.separator
      if ← look rule.again then
        let next ← item
        return .cons v separator (← listFrom rule item limit next)
      else
        return .cons v separator .empty
    else
      return .last v

/-- The rest of a list after the value `v`. -/
def listAfter (rule : ListRule) (item : Parser α) (v : α) : Parser (Separated α) := fun c =>
  listFrom rule item (c.rest.length + 1) v c

/-- A list with at least one value. -/
def list1 (rule : ListRule) (item : Parser α) : Parser (Separated α) := do
  listAfter rule item (← item)

/-- A list that may be empty. -/
def list (rule : ListRule) (item : Parser α) : Parser (Separated α) := do
  if ← look rule.again then list1 rule item else return .empty

/-- A list that fills all that is left, with an optional trailing separator. -/
def filling (separator : String) : ListRule :=
  ⟨separator, fun ts => !ts.isEmpty, fun ts => !ts.isEmpty⟩

/-- A list that goes on as long as there are separators. -/
def joined (separator : String) : ListRule :=
  ⟨separator, TokenTree.startsPunct separator, fun _ => true⟩

/-- A list of bounds that may end in a `+` before `>`. -/
def boundsBeforeAngle : ListRule :=
  ⟨"+", TokenTree.startsPunct "+", fun ts => !TokenTree.startsPunct ">" ts⟩

/-- A list of bounds in an argument or a binder, which may end in a `+` before `,` or `>`. -/
def boundsBeforeComma : ListRule :=
  ⟨"+", TokenTree.startsPunct "+",
    fun ts => !(TokenTree.startsPunct "," ts || TokenTree.startsPunct ">" ts)⟩

/-- A list between angle brackets. -/
def beforeAngle : ListRule :=
  ⟨",", fun ts => !TokenTree.startsPunct ">" ts, fun ts => !TokenTree.startsPunct ">" ts⟩

end Parser

end TypeGrammar
