import TypeGrammar.Node
import TypeGrammar.Parse.Basic

/-!
# Parsers of lifetimes and attributes

Outer attributes, lifetimes, and binders `for<'a, 'b: 'a>`; also the bodies of macro calls and the
calling conventions of functions. None of these holds a type, so they need no recursion.
-/

namespace TypeGrammar.Parse

open TokenTree TypeGrammar.Parser

/-- Attributes `#[...]`, with at most `limit` of them. -/
def attributesUpTo : (limit : Nat) → Parser (List Attribute)
  | 0 => fail .tooDeep
  | limit + 1 => do
    if ← look fun ts => startsPunct "#" ts && startsGroup .bracket (ts.drop 1) then
      let pound ← punct "#"
      let (bracket, tokens) ← inGroup .bracket remaining
      return ⟨pound, bracket, tokens⟩ :: (← attributesUpTo limit)
    else
      return []

/-- Attributes `#[...]`. -/
def attributes : Parser (List Attribute) := fun c =>
  attributesUpTo (c.rest.length + 1) c

/-- A lifetime. -/
def lifetime : Parser Lifetime := do
  return ⟨← Parser.lifetime⟩

/-- A lifetime if one is next. -/
def lifetime? : Parser (Option Lifetime) := do
  if ← look startsLifetime then return some (← lifetime) else return none

/-- A lifetime of a binder with its bounds. -/
def lifetimeDef : Parser LifetimeDef := do
  let attrs ← attributes
  let l ← lifetime
  match ← punct? ":" with
  | none => return ⟨attrs, l, none, .empty⟩
  | some colon => return ⟨attrs, l, some colon, ← list boundsBeforeComma lifetime⟩

/-- A binder. -/
def binder : Parser Binder := do
  let forToken ← keyword "for"
  let lt ← punct "<"
  let lifetimes ← list beforeAngle lifetimeDef
  let gt ← punct ">"
  return ⟨forToken, lt, lifetimes, gt⟩

/-- A binder if one is next. -/
def binder? : Parser (Option Binder) := do
  if ← look (startsWord "for") then return some (← binder) else return none

/-- The word `extern` and the name after it, if there is one. -/
def abi : Parser Abi := do
  let externToken ← keyword "extern"
  if ← look (startsKind (· == .string)) then return ⟨externToken, some (← literal)⟩
  else return ⟨externToken, none⟩

end TypeGrammar.Parse
