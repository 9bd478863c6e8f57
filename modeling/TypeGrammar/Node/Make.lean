import TypeGrammar.Node

/-!
# Nodes made by hand

Types around or in place of other types. All tokens and delimiters that are made here stand in no
file. An edit that fits only one kind of types gives nothing for the others.
-/

namespace TypeGrammar

namespace Ty

/-- An operator that stands in no file. -/
def mark (op : String) : Token :=
  Token.punct op Span.callSite

/-- A keyword that stands in no file. -/
def word (w : String) : Token :=
  Token.keyword w Span.callSite

/-- A pair of delimiters that stands in no file. -/
def pair (d : Delimiter) : Delim :=
  ⟨d, Span.callSite⟩

/-- Values with commas between them, and perhaps one after the last. -/
def commaList {k : Category} (values : List (Node k)) (trailing : Bool) : Node (.list k) :=
  let items := Separated.ofList (mark ",") values
  .ofSeparated (if trailing then items.close (mark ",") else items)

/-- Bounds with a `+` between them. -/
def boundList (bounds : List Bound) : Node (.list .bound) :=
  .ofSeparated (Separated.ofList (mark "+") bounds)

/-! ## Around a type -/

/-- A pointer to a type with either, both or none of its marks. -/
def pointerTo (isConst isMut : Bool) (t : Ty) : Ty :=
  .pointer (mark "*") (if isConst then some (word "const") else none)
    (if isMut then some (word "mut") else none) t

/-- A reference to a type. -/
def referenceTo (lifetime : Option String) (isMut : Bool) (t : Ty) : Ty :=
  .reference (mark "&") (lifetime.map fun name => ⟨Token.lifetime name Span.callSite⟩)
    (if isMut then some (word "mut") else none) t

/-- A type in invisible delimiters. -/
def grouped (t : Ty) : Ty := .group (pair .invisible) t

/-- A type in parentheses. -/
def inParens (t : Ty) : Ty := .parenType (pair .paren) t

/-- A slice of a type. -/
def sliceOf (t : Ty) : Ty := .slice (pair .bracket) t

/-- A tuple of types. -/
def tupleOf (ts : List Ty) (trailing : Bool) : Ty := .tuple (pair .paren) (commaList ts trailing)

/-! ## In place of a type -/

/-- The type `!`. -/
def neverType : Ty := .never (mark "!")

/-- The type `_`. -/
def inferType : Ty := .infer (word "_")

/-- A type `impl A + B`. -/
def implOf (bounds : List Bound) : Ty := .implTrait (word "impl") (boundList bounds)

/-- A type `A + B` with or without `dyn`. -/
def objectOf (isDyn : Bool) (bounds : List Bound) : Ty :=
  .traitObject (if isDyn then some (word "dyn") else none) (boundList bounds)

/-! ## Edits -/

/-- A function type with other inputs. -/
def withInputs? (inputs : List Ty) (trailing : Bool) : Ty → Option Ty
  | .bareFn binder unsafety abi fnToken paren _ variadic output =>
    let args := inputs.map fun t => (.fnArg [] none t : Node .fnArg)
    some (.bareFn binder unsafety abi fnToken paren (commaList args trailing) variadic output)
  | _ => none

/-- A function type with or without `...`. -/
def withVariadic? (isVariadic : Bool) : Ty → Option Ty
  | .bareFn binder unsafety abi fnToken paren inputs _ output =>
    let dots := if isVariadic then some (mark "...") else none
    some (.bareFn binder unsafety abi fnToken paren inputs dots output)
  | _ => none

/-- A function type with another output. -/
def withOutput? (output : Option Ty) : Ty → Option Ty
  | .bareFn binder unsafety abi fnToken paren inputs variadic _ =>
    let node : Node .output :=
      match output with
      | some t => .arrow (mark "->") t
      | none => .defaultOutput
    some (.bareFn binder unsafety abi fnToken paren inputs variadic node)
  | _ => none

/-- A path with another self type in front; the path itself stays. -/
def withSelf? (self : Ty) (position : Int) (hasAs : Bool) : Ty → Option Ty
  | .pathType _ p =>
    let asToken := if hasAs then some (word "as") else none
    some (.pathType (.qualified (mark "<") self position asToken (mark ">")) p)
  | _ => none

/-- A function type whose binder has no colons after its lifetimes. -/
def withoutColons? : Ty → Option Ty
  | .bareFn binder unsafety abi fnToken paren inputs variadic output =>
    let drop := fun (b : Binder) =>
      { b with lifetimes := b.lifetimes.map fun d => { d with colon := none } }
    some (.bareFn (binder.map drop) unsafety abi fnToken paren inputs variadic output)
  | _ => none

end Ty

end TypeGrammar
