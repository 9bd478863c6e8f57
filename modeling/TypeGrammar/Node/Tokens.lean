import TypeGrammar.Node
import TypeGrammar.Slice

/-!
# The tokens of a node

A node is written as the tokens that it holds, in the order of its fields and with its delimiters
around their contents. Four tokens that a node made by hand may lack are supplied: the `const` of a
pointer, the `as` of a qualified path, the colon before the bounds of a lifetime, and the comma
before the `...` of a function type.
-/

namespace TypeGrammar

/-- A token as trees: an operator of several characters is split into joint ones. -/
def Token.trees (t : Token) : List TokenTree :=
  if t.kind = .punct ∧ 1 < t.text.length then t.split.map .token else [.token t]

/-- An optional token as trees. -/
def tokenTrees (t : Option Token) : List TokenTree :=
  match t with
  | some t => t.trees
  | none => []

/-- A group of trees in a recorded pair of delimiters. -/
def Delim.around (d : Delim) (trees : List TokenTree) : List TokenTree :=
  [.group d.delimiter trees d.span Span.callSite]

/-! ## Parts without types inside -/

/-- The tokens of a list of values. -/
def Separated.trees {α : Type} (f : α → List TokenTree) (p : Separated α) : List TokenTree :=
  match p with
  | .empty => []
  | .last v => f v
  | .cons v s rest => f v ++ s.trees ++ rest.trees f

/-- The tokens of an attribute. -/
def Attribute.trees (a : Attribute) : List TokenTree :=
  a.pound.trees ++ a.bracket.around a.tokens

/-- The tokens of a lifetime. -/
def Lifetime.trees (l : Lifetime) : List TokenTree :=
  l.token.trees

/-- The tokens of a lifetime definition; without bounds it has no colon. -/
def LifetimeDef.trees (d : LifetimeDef) : List TokenTree :=
  d.attributes.flatMap Attribute.trees ++ d.lifetime.trees ++
    match d.bounds with
    | .empty => []
    | bounds => (d.colon.getD (Token.punct ":" Span.callSite)).trees ++ bounds.trees Lifetime.trees

/-- The tokens of a binder. -/
def Binder.trees (b : Binder) : List TokenTree :=
  b.forToken.trees ++ b.lt.trees ++ b.lifetimes.trees LifetimeDef.trees ++ b.gt.trees

/-- The tokens of an optional binder. -/
def binderTrees (b : Option Binder) : List TokenTree :=
  match b with
  | some b => b.trees
  | none => []

/-- The tokens of a calling convention. -/
def Abi.trees (a : Abi) : List TokenTree :=
  a.externToken.trees ++ tokenTrees a.name

/-! ## Nodes -/

/-- The tokens of a node in pieces. `parts` holds the elements of a list, or the segments of a
path, each with its separator; `lead` holds what comes before them, which is all of any other
node. -/
structure Printed where
  lead : List TokenTree
  parts : List (List TokenTree × List TokenTree)

namespace Printed

/-- The tokens of some elements with their separators. -/
def joined (parts : List (List TokenTree × List TokenTree)) : List TokenTree :=
  parts.flatMap fun (value, separator) => value ++ separator

/-- All tokens in order. -/
def trees (p : Printed) : List TokenTree :=
  p.lead ++ joined p.parts

/-- The pieces of a node that is no list and no path. -/
def whole (trees : List TokenTree) : Printed :=
  ⟨trees, []⟩

/-- A path of which the first `position` segments are the trait of a qualified self type. The
closing bracket comes between the last segment of the trait and its separator; a position past the
last segment but one counts as that one. -/
def qualify (lt self : List TokenTree) (position : Int) (asToken gt : List TokenTree)
    (p : Printed) : List TokenTree :=
  let count : Int := p.parts.length
  let position := if 0 < position ∧ count ≤ position then count - 1 else position
  let after := joined (slice p.parts position count)
  if 0 < position then
    let trait := slice p.parts 0 position
    let tail :=
      match trait.getLast? with
      | some (value, separator) => joined trait.dropLast ++ value ++ gt ++ separator
      | none => []
    lt ++ self ++ asToken ++ p.lead ++ tail ++ after
  else lt ++ self ++ gt ++ p.lead ++ after

end Printed

namespace Node

variable {k : Category}

/-- True if a separator or nothing at all ends a list node. -/
def acceptsValue (n : Node (.list k)) : Bool :=
  n.separated.acceptsValue

/-- The tokens between the inputs of a function type and its closing parenthesis. -/
def variadicTrees (inputs : Node (.list k)) (variadic : Option Token) : List TokenTree :=
  match variadic with
  | none => []
  | some dots =>
    (if inputs.acceptsValue then [] else (Token.punct "," dots.span).trees) ++ dots.trees

/-- The mark of a pointer, which is `const` if it has none. -/
def pointerMark (constToken mutability : Option Token) : Token :=
  (mutability.or constToken).getD (Token.keyword "const" Span.callSite)

/-- The `as` of a qualified path, also where it is missing. -/
def asMark (asToken : Option Token) : Token :=
  asToken.getD (Token.keyword "as" Span.callSite)

/-- The tokens of a node in pieces. -/
def print {c : Category} : Node c → Printed
  | .array bracket elem semi length =>
    .whole (bracket.around (elem.print.trees ++ semi.trees ++ length.print.trees))
  | .bareFn binder unsafety abi fnToken paren inputs variadic output =>
    .whole (binderTrees binder ++ tokenTrees unsafety ++ (abi.map Abi.trees).getD [] ++
      fnToken.trees ++ paren.around (inputs.print.trees ++ variadicTrees inputs variadic) ++
      output.print.trees)
  | .group delim elem => .whole (delim.around elem.print.trees)
  | .implTrait implToken bounds => .whole (implToken.trees ++ bounds.print.trees)
  | .infer underscore => .whole underscore.trees
  | .macroType m => .whole m.print.trees
  | .never bang => .whole bang.trees
  | .parenType paren elem => .whole (paren.around elem.print.trees)
  | .pathType .unqualified p => .whole p.print.trees
  | .pathType (.qualified lt type position asToken gt) p =>
    .whole (p.print.qualify lt.trees type.print.trees position (asMark asToken).trees gt.trees)
  | .pointer star constToken mutability elem =>
    .whole (star.trees ++ (pointerMark constToken mutability).trees ++ elem.print.trees)
  | .reference ampersand lifetime mutability elem =>
    .whole (ampersand.trees ++ (lifetime.map Lifetime.trees).getD [] ++ tokenTrees mutability ++
      elem.print.trees)
  | .slice bracket elem => .whole (bracket.around elem.print.trees)
  | .traitObject dynToken bounds => .whole (tokenTrees dynToken ++ bounds.print.trees)
  | .tuple paren elems => .whole (paren.around elems.print.trees)
  | .verbatim tokens => .whole tokens
  | .literal token => .whole token.trees
  | .pathExpr .unqualified p => .whole p.print.trees
  | .pathExpr (.qualified lt type position asToken gt) p =>
    .whole (p.print.qualify lt.trees type.print.trees position (asMark asToken).trees gt.trees)
  | .unary op operand => .whole (op.trees ++ operand.print.trees)
  | .binary left op right => .whole (left.print.trees ++ op.trees ++ right.print.trees)
  | .cast operand asToken target =>
    .whole (operand.print.trees ++ asToken.trees ++ target.print.trees)
  | .call function paren args =>
    .whole (function.print.trees ++ paren.around args.print.trees)
  | .parenExpr paren inner => .whole (paren.around inner.print.trees)
  | .block brace tokens => .whole (brace.around tokens)
  | .macroExpr m => .whole m.print.trees
  | .invocation p bang delimiter tokens =>
    .whole (p.print.trees ++ bang.trees ++ delimiter.around tokens)
  | .path leading segments => ⟨tokenTrees leading, segments.print.parts⟩
  | .segment ident arguments => .whole (ident.trees ++ arguments.print.trees)
  | .noArguments => .whole []
  | .angle colons lt args gt =>
    .whole (tokenTrees colons ++ lt.trees ++ args.print.trees ++ gt.trees)
  | .parenthesized paren inputs output =>
    .whole (paren.around inputs.print.trees ++ output.print.trees)
  | .unqualified => .whole []
  | .qualified _ _ _ _ _ => .whole []
  | .lifetimeArg lifetime => .whole lifetime.trees
  | .binding ident eq type => .whole (ident.trees ++ eq.trees ++ type.print.trees)
  | .constraint ident colon bounds => .whole (ident.trees ++ colon.trees ++ bounds.print.trees)
  | .constArg value => .whole value.print.trees
  | .typeArg type => .whole type.print.trees
  | .traitBound paren modifier binder p =>
    let body := tokenTrees modifier ++ binderTrees binder ++ p.print.trees
    .whole (match paren with
      | some paren => paren.around body
      | none => body)
  | .lifetimeBound lifetime => .whole lifetime.trees
  | .fnArg attributes name type =>
    .whole (attributes.flatMap Attribute.trees ++
      (match name with
        | some (ident, colon) => ident.trees ++ colon.trees
        | none => []) ++
      type.print.trees)
  | .defaultOutput => .whole []
  | .arrow mark type => .whole (mark.trees ++ type.print.trees)
  | .nil => ⟨[], []⟩
  | .last value => ⟨[], [(value.print.trees, [])]⟩
  | .cons value separator rest =>
    ⟨[], (value.print.trees, separator.trees) :: rest.print.parts⟩

/-- The token trees that write a node. -/
def trees (n : Node k) : List TokenTree :=
  n.print.trees

end Node

end TypeGrammar
