import TypeGrammar.Parse.Path

/-!
# Parsers of bounds

A bound is a lifetime or a trait. A trait bound may have a `?` and a binder in front of its path,
and may stand in parentheses as a whole.
-/

namespace TypeGrammar.Parse

open TokenTree TypeGrammar.Parser

variable (g : Grammar)

/-- A bound in the given parentheses. -/
def inParens (paren : Delim) : Bound → Bound
  | .traitBound _ modifier binder p => .traitBound (some paren) modifier binder p
  | .lifetimeBound l => .lifetimeBound l

/-- A trait bound without parentheses. -/
def traitBound : Parser Bound := do
  let modifier ← punct? "?"
  let binder ← binder?
  return .traitBound none modifier binder (← pathWithInputs g)

/-- A bound. -/
def bound : Parser Bound := do
  if ← look startsLifetime then
    return .lifetimeBound (← lifetime)
  else if ← look (startsGroup .paren) then
    let (paren, b) ← inGroup .paren (traitBound g)
    return inParens paren b
  else
    traitBound g

end TypeGrammar.Parse
