import TypeGrammar.Parse.Bound
import TypeGrammar.Parse.Expr

/-!
# Parsers of types

A type is recognised by at most three trees at its front. A `+` after a path, a lifetime or a bound
in parentheses goes on with a trait object if `plus` allows it; without it the `+` is left to
whoever asked for the type, as after `&`, `*const` or the arrow of a function.

Two forms are recognised only by what follows them: `(Path) + Bound` is a trait object with its
first bound in parentheses, and `Path!(...)` is a macro call.
-/

namespace TypeGrammar.Parse

open TokenTree TypeGrammar.Parser

variable (g : Grammar)

/-! ## Bounds -/

/-- True of a trait bound, false of a lifetime. -/
def isTrait : Bound → Bool
  | .traitBound .. => true
  | .lifetimeBound _ => false

/-- The bounds of a trait object; without `plus` there is only one. -/
def objectBounds (plus : Bool) : Parser (Separated Bound) :=
  if plus then list1 boundsBeforeAngle (bound g) else .last <$> bound g

/-- A trait object, which has to have a trait among its bounds. -/
def traitObject (plus : Bool) : Parser Ty := do
  let dynToken ← keyword? "dyn"
  let bounds ← objectBounds g plus
  if bounds.toList.any isTrait then return .traitObject dynToken (.ofSeparated bounds)
  else fail .onlyLifetimes

/-- A type `impl A + B`. -/
def implTrait : Parser Ty := do
  let implToken ← keyword "impl"
  return .implTrait implToken (.ofSeparated (← list1 (joined "+") (bound g)))

/-! ## Function types -/

/-- An input of a function type. -/
def fnArg : Parser (Node .fnArg) := do
  let attrs ← attributes
  if ← look fun ts => (startsIdentifier ts || startsWord "_" ts) &&
      startsPunct ":" (ts.drop 1) && !startsPunct "::" (ts.drop 1) then
    let ident ← anyWord
    let colon ← punct ":"
    return .fnArg attrs (some (ident, colon)) (← g.type true)
  else
    return .fnArg attrs none (← g.type true)

/-- When the inputs of a function type go on: until the end or `...`. -/
def fnInputs : ListRule :=
  ⟨",", fun ts => !ts.isEmpty, fun ts => !ts.isEmpty && !startsPunct "..." ts⟩

/-- The inputs of a function type and the `...` after them. -/
def fnInputsAndDots : Parser (Separated (Node .fnArg) × Option Token) := do
  let inputs ← list fnInputs (fnArg g)
  if ← look fun ts => inputs.acceptsValue && startsPunct "..." ts then
    return (inputs, some (← punct "..."))
  else
    return (inputs, none)

/-- A function type after its binder. -/
def bareFnAfter (b : Option Binder) : Parser Ty := do
  let unsafety ← keyword? "unsafe"
  let convention ← if ← look (startsWord "extern") then some <$> abi else pure none
  let fnToken ← keyword "fn"
  let (paren, inputs, variadic) ← inGroup .paren (fnInputsAndDots g)
  return .bareFn b unsafety convention fnToken paren (.ofSeparated inputs) variadic
    (← output g false)

/-- A function type. -/
def bareFn : Parser Ty := do
  bareFnAfter g (← binder?)

/-! ## Forms with a type inside -/

/-- A type in invisible delimiters. -/
def groupType : Parser Ty := do
  let (delim, elem) ← inGroup .invisible (g.type true)
  return .group delim elem

/-- A type `[T]`. -/
def slice : Parser Ty := do
  let (bracket, elem) ← inGroup .bracket (g.type true)
  return .slice bracket elem

/-- The contents of the brackets of an array. -/
def arrayContents : Parser (Ty × Token × Expr) := do
  let elem ← g.type true
  let semi ← punct ";"
  return (elem, semi, ← g.expr 0)

/-- A type `[T; n]`. -/
def array : Parser Ty := do
  let (bracket, elem, semi, length) ← inGroup .bracket (arrayContents g)
  return .array bracket elem semi length

/-- The contents of the brackets of an array or a slice. -/
def arrayOrSliceContents : Parser (Ty × Option (Token × Expr)) := do
  let elem ← g.type true
  if ← look (startsPunct ";") then
    let semi ← punct ";"
    return (elem, some (semi, ← g.expr 0))
  else
    return (elem, none)

/-- A type `[T; n]` or `[T]`. -/
def arrayOrSlice : Parser Ty := do
  let (bracket, elem, length) ← inGroup .bracket (arrayOrSliceContents g)
  match length with
  | some (semi, length) => return .array bracket elem semi length
  | none => return .slice bracket elem

/-- The contents of the parentheses of a tuple; a single element needs its comma. -/
def tupleContents : Parser (Separated Ty) := do
  let elems ← list (filling ",") (g.type true)
  match elems with
  | .last _ => fail (.expected (.punct ","))
  | elems => return elems

/-- A type `()`, `(T,)` or `(A, B)`. -/
def tuple : Parser Ty := do
  let (paren, elems) ← inGroup .paren (tupleContents g)
  return .tuple paren (.ofSeparated elems)

/-- A type `(T)`. -/
def parenType (plus : Bool) : Parser Ty := do
  let (paren, elem) ← inGroup .paren (g.type plus)
  return .parenType paren elem

/-- The type `!`. -/
def never : Parser Ty := do
  if ← look (startsPunct "!=") then fail (.expected (.punct "!"))
  else return .never (← punct "!")

/-- The type `_`. -/
def infer : Parser Ty := do
  return .infer (← keyword "_")

/-- A type `*const T` or `*mut T`. -/
def pointer : Parser Ty := do
  let star ← punct "*"
  if ← look (startsWord "const") then
    let mark ← keyword "const"
    return .pointer star (some mark) none (← g.type false)
  else if ← look (startsWord "mut") then
    let mark ← keyword "mut"
    return .pointer star none (some mark) (← g.type false)
  else
    failNoneOf [.keyword "const", .keyword "mut"]

/-- A type `&'a mut T`. -/
def reference : Parser Ty := do
  let ampersand ← punct "&"
  let l ← lifetime?
  let mutability ← keyword? "mut"
  return .reference ampersand l mutability (← g.type false)

/-! ## Paths -/

/-- A qualified path with the arguments in parentheses that may follow its last segment. -/
def qualifiedPathWithInputs : Parser (Node .selfType × Path) := do
  let (self, p) ← qualifiedPath g false
  if ← look fun ts => p.endsPlain && startsGroup .paren ts then
    return (self, p.withFinalArguments (← parenthesizedArgs g))
  else
    return (self, p)

/-- A path as a type. -/
def pathType : Parser Ty := do
  let (self, p) ← qualifiedPathWithInputs g
  return .pathType self p

/-- A macro call as a type. -/
def macroType : Parser Ty := do
  let p ← path g false
  if p.hasNoArguments then return .macroType (← invocation p)
  else fail (.expected (.punct "!"))

/-- A trait object with the given binder at its first bound, which has to be a trait. -/
def withBinder (b : Binder) : Ty → Parser Ty
  | .traitObject dynToken bounds =>
    match bounds.separated.first? with
    | some (.traitBound ..) =>
      let attach : Bound → Bound
        | .traitBound paren modifier _ p => .traitBound paren modifier (some b) p
        | .lifetimeBound l => .lifetimeBound l
      return .traitObject dynToken (.ofSeparated (bounds.separated.mapFirst attach))
    | _ => fail .binderWithoutTrait
  | ty => return ty

/-- A path after an optional binder, or what the path turns out to start: a trait object or a macro
call. -/
def pathLike (b : Option Binder) (plus : Bool) : Parser Ty := do
  if ← look (startsWord "dyn") then
    let object ← traitObject g plus
    match b with
    | some b => withBinder b object
    | none => return object
  else
    let (self, p) ← qualifiedPathWithInputs g
    if self ≠ .unqualified then
      return .pathType self p
    else if ← look fun ts => startsBang ts && p.hasNoArguments then
      return .macroType (← invocation p)
    else if ← look fun ts => b.isSome || (plus && startsPunct "+" ts) then
      let first : Bound := .traitBound none none b p
      let bounds ← if plus then listAfter boundsBeforeAngle (bound g) first else pure (.last first)
      return .traitObject none (.ofSeparated bounds)
    else
      return .pathType self p

/-! ## Parentheses -/

/-- What the contents of parentheses are. -/
inductive Parenthesized where
  | tuple (elems : Separated Ty)
  | object (elem : Ty)
  | bound (b : Bound)
  | type (elem : Ty)

/-- The contents of parentheses in the place of a type. -/
def parenContents : Parser Parenthesized := do
  if ← look List.isEmpty then
    return .tuple .empty
  else if ← look startsLifetime then
    return .object (← traitObject g true)
  else if ← look (startsPunct "?") then
    return .bound (← traitBound g)
  else
    let first ← g.type true
    if ← look (startsPunct ",") then
      let comma ← punct ","
      return .tuple (.cons first comma (← list (filling ",") (g.type true)))
    else
      return .type first

/-- The bound that a type in parentheses can be: a path, or a single bound without `dyn`. -/
def boundOfType? (paren : Delim) : Ty → Option Bound
  | .pathType .unqualified p => some (.traitBound (some paren) none none p)
  | .traitObject none bounds =>
    match bounds.separated with
    | .last b => some (inParens paren b)
    | _ => none
  | _ => none

/-- A trait object that starts with the given bound. -/
def objectAfter (first : Bound) : Parser Ty := do
  return .traitObject none (.ofSeparated (← listAfter (joined "+") (bound g) first))

/-- A tuple, a type in parentheses, or a trait object whose first bound is in parentheses. -/
def parenthesized (plus : Bool) : Parser Ty := do
  let (paren, contents) ← inGroup .paren (parenContents g)
  match contents with
  | .tuple elems => return .tuple paren (.ofSeparated elems)
  | .object elem => return .parenType paren elem
  | .bound b => objectAfter g (inParens paren b)
  | .type elem =>
    if ← look fun ts => plus && startsPunct "+" ts then
      match boundOfType? paren elem with
      | some b => objectAfter g b
      | none => return .parenType paren elem
    else
      return .parenType paren elem

/-! ## All types -/

/-- What may follow a binder in the place of a type. -/
def afterBinder : List Expectation :=
  [.identifier, .keyword "fn", .keyword "unsafe", .keyword "extern", .keyword "super",
   .keyword "self", .keyword "Self", .keyword "crate"]

/-- What a type may start with, as it is told to a reader. -/
def typeStarts : List Expectation :=
  [.keyword "for", .group .paren, .keyword "fn", .keyword "unsafe", .keyword "extern",
   .identifier, .punct "::", .punct "<", .group .bracket, .punct "*", .punct "&", .punct "!",
   .keyword "impl", .keyword "_", .lifetime]

/-- A binder if one is next, before what may follow it. -/
def typeBinder? : Parser (Option Binder) := do
  if ← look (startsWord "for") then
    let b ← binder
    if ← look fun ts => afterBinder.any (·.isMet ts) then return some b
    else failNoneOf afterBinder
  else
    return none

/-- True if a function type comes next; `extern::` starts a path instead. -/
def startsBareFn (ts : List TokenTree) : Bool :=
  startsWord "fn" ts || startsWord "unsafe" ts ||
    (startsWord "extern" ts && !startsPunct "::" (ts.drop 1))

/-- A type after an optional binder. -/
def typeAfter (b : Option Binder) (plus : Bool) : Parser Ty := do
  if ← look (startsGroup .paren) then parenthesized g plus
  else if ← look startsBareFn then bareFnAfter g b
  else if ← look startsPath then pathLike g b plus
  else if ← look (startsGroup .bracket) then arrayOrSlice g
  else if ← look (startsPunct "*") then pointer g
  else if ← look (startsPunct "&") then reference g
  else if ← look startsBang then never
  else if ← look (startsWord "impl") then implTrait g
  else if ← look (startsWord "_") then infer
  else if ← look startsLifetime then traitObject g plus
  else failNoneOf typeStarts

/-- A type; with `plus` a `+` may go on with a trait object. -/
def type (plus : Bool) : Parser Ty := do
  if ← look (startsGroup .invisible) then groupType g
  else typeAfter g (← typeBinder?) plus

end TypeGrammar.Parse
