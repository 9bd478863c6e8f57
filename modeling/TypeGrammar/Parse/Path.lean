import TypeGrammar.Parse.Lifetime

/-!
# Parsers of paths

Paths, their generic arguments and the qualified self type in front of them. Types, bounds and
expressions inside of them are read by a `Grammar`, the parsers for what is nested deeper; so the
parsers here, and those of bounds, expressions and types, are not recursive themselves.
-/

namespace TypeGrammar

/-- The parsers that are used for nested syntax: types with or without a `+` after them, bounds, and
expressions whose operators bind at least as tightly as a given power. -/
structure Grammar where
  type : (plus : Bool) → Parser Ty
  bound : Parser Bound
  expr : (power : Nat) → Parser Expr

namespace Parse

open TokenTree TypeGrammar.Parser

variable (g : Grammar)

/-- An arrow and a type, or nothing. -/
def output (plus : Bool) : Parser (Node .output) := do
  if ← look (startsPunct "->") then
    let mark ← punct "->"
    return .arrow mark (← g.type plus)
  else return .defaultOutput

/-- Arguments `(A, B) -> C`. -/
def parenthesizedArgs : Parser (Node .arguments) := do
  let (paren, inputs) ← inGroup .paren (list (filling ",") (g.type true))
  return .parenthesized paren (.ofSeparated inputs) (← output g false)

/-- One generic argument. -/
def argument : Parser (Node .argument) := do
  if ← look fun ts => startsLifetime ts && !startsPunct "+" (ts.drop 1) then
    return .lifetimeArg (← lifetime)
  else if ← look fun ts => startsIdentifier ts && startsPunct "=" (ts.drop 1) then
    let ident ← identifier
    let eq ← punct "="
    return .binding ident eq (← g.type true)
  else if ← look fun ts => startsIdentifier ts && startsPunct ":" (ts.drop 1) &&
      !startsPunct "::" (ts.drop 1) then
    let ident ← identifier
    let colon ← punct ":"
    return .constraint ident colon (.ofSeparated (← list boundsBeforeComma g.bound))
  else if ← look startsLiteral then
    return .constArg (.literal (← literal))
  else if ← look (startsGroup .brace) then
    let (brace, tokens) ← inGroup .brace remaining
    return .constArg (.block brace tokens)
  else
    return .typeArg (← g.type true)

/-- Arguments in angle brackets, perhaps after `::`. -/
def angleArgs : Parser (Node .arguments) := do
  let colons ← punct? "::"
  let lt ← punct "<"
  let args ← list beforeAngle (argument g)
  let gt ← punct ">"
  return .angle colons lt (.ofSeparated args) gt

/-- The path roots that take no arguments. -/
def bareRoots : List String :=
  ["super", "self", "crate", "extern"]

/-- True if generic arguments come next. In an expression they need `::` in front, as `<` alone is
a comparison. -/
def startsArguments (inExpr : Bool) (ts : List TokenTree) : Bool :=
  (!inExpr && startsPunct "<" ts && !startsPunct "<=" ts) ||
    (startsPunct "::" ts && startsPunct "<" (ts.drop 2))

/-- A segment of a path. -/
def segment (inExpr : Bool) : Parser Segment := do
  if ← look fun ts => bareRoots.any fun word => startsWord word ts then
    return .segment (← anyWord) .noArguments
  else
    let ident ← if ← look (startsWord "Self") then anyWord else identifier
    if ← look (startsArguments inExpr) then
      return .segment ident (← angleArgs g)
    else
      return .segment ident .noArguments

/-- A path. -/
def path (inExpr : Bool) : Parser Path := do
  let leading ← punct? "::"
  let segments ← list1 (joined "::") (segment g inExpr)
  return .path leading (.ofSeparated segments)

/-- A path with the arguments in parentheses that may follow its last segment. -/
def pathWithInputs : Parser Path := do
  let p ← path g false
  if ← look fun ts => p.endsPlain && startsGroup .paren ts then
    return p.withFinalArguments (← parenthesizedArgs g)
  else
    return p

/-- The path of a qualified self type, of which `trait` is the part inside the angle brackets. -/
def joinPath (trait : Path) (colons : Token) (rest : Separated Segment) : Path :=
  match trait with
  | .path leading segments => .path leading (.ofSeparated (segments.separated.join colons rest))

/-- A path with the `<T as Trait>::` that may stand in front of it. -/
def qualifiedPath (inExpr : Bool) : Parser (Node .selfType × Path) := do
  if ← look (startsPunct "<") then
    let lt ← punct "<"
    let type ← g.type true
    let asToken ← keyword? "as"
    let trait ← if asToken.isSome then some <$> path g false else pure none
    let gt ← punct ">"
    let colons ← punct "::"
    let rest ← list1 (joined "::") (segment g inExpr)
    match trait with
    | none => return (.qualified lt type 0 none gt, .path (some colons) (.ofSeparated rest))
    | some trait =>
      return (.qualified lt type trait.segments.toList.length asToken gt,
        joinPath trait colons rest)
  else
    return (.unqualified, ← path g inExpr)

/-- True if the mark of a macro call comes next. -/
def startsBang (ts : List TokenTree) : Bool :=
  startsPunct "!" ts && !startsPunct "!=" ts

/-- What follows the path of a macro call. -/
def invocation (p : Path) : Parser (Node .invocation) := do
  let bang ← punct "!"
  let (delimiter, tokens) ← anyGroup
  return .invocation p bang delimiter tokens

end Parse

end TypeGrammar
