import TypeGrammar.Parse.Path

/-!
# Parsers of constant expressions

The expressions that may be the length of an array. Operators bind by power: a binary operator takes
a left operand that binds at least as tightly as its left power, and its right operand is read with
its right power. A call binds tightest, then a unary operator, then `as`.
-/

namespace TypeGrammar

/-- A binary operator with the powers by which it binds its operands. -/
structure BinaryOperator where
  text : String
  left : Nat
  right : Nat
  deriving DecidableEq, Repr

/-- The binary operators. Those of two characters come first, so that `<<` is not read as `<`. -/
def binaryOperators : List BinaryOperator :=
  [⟨"||", 1, 2⟩, ⟨"&&", 3, 4⟩, ⟨"==", 5, 6⟩, ⟨"!=", 5, 6⟩, ⟨"<=", 5, 6⟩, ⟨">=", 5, 6⟩,
   ⟨"<<", 13, 14⟩, ⟨">>", 13, 14⟩, ⟨"<", 5, 6⟩, ⟨">", 5, 6⟩, ⟨"|", 7, 8⟩, ⟨"^", 9, 10⟩,
   ⟨"&", 11, 12⟩, ⟨"+", 15, 16⟩, ⟨"-", 15, 16⟩, ⟨"*", 17, 18⟩, ⟨"/", 17, 18⟩, ⟨"%", 17, 18⟩]

/-- The power of `as`. -/
def castPower : Nat := 19

/-- The power of a unary operator. -/
def unaryPower : Nat := 21

/-- The power of a call. -/
def callPower : Nat := 23

/-- The unary operators. -/
def unaryOperators : List String :=
  ["-", "!", "*", "&"]

namespace Parse

open TokenTree TypeGrammar.Parser

variable (g : Grammar)

/-- The unary operator at the front. -/
def unaryOperator? (ts : List TokenTree) : Option String :=
  unaryOperators.find? fun op => startsPunct op ts

/-- The binary operator at the front. -/
def binaryOperator? (ts : List TokenTree) : Option BinaryOperator :=
  binaryOperators.find? fun op => startsPunct op.text ts

/-- True if a path comes next. -/
def startsPath (ts : List TokenTree) : Bool :=
  startsIdentifier ts || startsPathRoot ts || startsPunct "::" ts || startsPunct "<" ts

/-- A path, or the macro call that it starts. -/
def pathOrMacro : Parser Expr := do
  let (self, p) ← qualifiedPath g true
  if ← look fun ts => self = .unqualified && startsBang ts && p.hasNoArguments then
    return .macroExpr (← invocation p)
  else
    return .pathExpr self p

/-- An expression without binary operators, casts and calls, up to the operand of a unary one. -/
def operand : Parser Expr := do
  match ← look unaryOperator? with
  | some op =>
    let mark ← punct op
    return .unary mark (← g.expr unaryPower)
  | none =>
    if ← look startsLiteral then
      return .literal (← literal)
    else if ← look (startsWord "true") then
      return .literal (← keyword "true")
    else if ← look (startsWord "false") then
      return .literal (← keyword "false")
    else if ← look (startsGroup .paren) then
      let (paren, inner) ← inGroup .paren (g.expr 0)
      return .parenExpr paren inner
    else if ← look (startsGroup .brace) then
      let (brace, tokens) ← inGroup .brace remaining
      return .block brace tokens
    else if ← look startsPath then
      pathOrMacro g
    else
      failNoneOf [.identifier, .punct "::", .punct "<", .literal]

/-- The operators after the operand `left` that bind at least as tightly as `power`, with at most
`limit` of them. -/
def operatorsAfter (power : Nat) : (limit : Nat) → Expr → Parser Expr
  | 0, _ => fail .tooDeep
  | limit + 1, left => do
    if ← look (startsGroup .paren) then
      if callPower < power then return left
      else
        let (paren, args) ← inGroup .paren (list (filling ",") (g.expr 0))
        operatorsAfter power limit (.call left paren (.ofSeparated args))
    else if ← look (startsWord "as") then
      if castPower < power then return left
      else
        let asToken ← keyword "as"
        operatorsAfter power limit (.cast left asToken (← g.type false))
    else
      match ← look binaryOperator? with
      | none => return left
      | some op =>
        if op.left < power then return left
        else
          let mark ← punct op.text
          operatorsAfter power limit (.binary left mark (← g.expr op.right))

/-- An expression whose operators bind at least as tightly as `power`. -/
def expr (power : Nat) : Parser Expr := do
  let left ← operand g
  fun c => operatorsAfter g power (c.rest.length + 1) left c

end Parse

end TypeGrammar
