import TypeGrammar.Node.Text

/-!
# Fragments of syntax

A fragment is any piece of syntax that can be read or written by itself: a node of some category, or
one of the parts without types inside. Two fragments are the same if they differ only in places.
-/

namespace TypeGrammar

/-- Any piece of syntax. -/
inductive Fragment where
  | node (category : Category) (n : Node category)
  | attr (a : Attribute)
  | lifetime (l : Lifetime)
  | lifetimeDef (d : LifetimeDef)
  | binder (b : Binder)
  | abi (a : Abi)
  deriving DecidableEq

/-- A node as a fragment. A type or lifetime in the place of an argument or bound is itself. -/
def Node.fragment {k : Category} : Node k → Fragment
  | .typeArg t => .node .type t
  | .lifetimeArg l => .lifetime l
  | .lifetimeBound l => .lifetime l
  | n => .node k n

/-- The name of the kind of a node. -/
def Node.kind {k : Category} : Node k → String
  | .array .. => "ArrayType"
  | .bareFn .. => "BareFnType"
  | .group .. => "GroupType"
  | .implTrait .. => "ImplTraitType"
  | .infer .. => "InferType"
  | .macroType .. => "MacroType"
  | .never .. => "NeverType"
  | .parenType .. => "ParenType"
  | .pathType .. => "PathType"
  | .pointer .. => "PointerType"
  | .reference .. => "ReferenceType"
  | .slice .. => "SliceType"
  | .traitObject .. => "TraitObjectType"
  | .tuple .. => "TupleType"
  | .verbatim .. => "VerbatimType"
  | .literal .. => "LitExpr"
  | .pathExpr .. => "PathExpr"
  | .unary .. => "UnaryExpr"
  | .binary .. => "BinaryExpr"
  | .cast .. => "CastExpr"
  | .call .. => "CallExpr"
  | .parenExpr .. => "ParenExpr"
  | .block .. => "BlockExpr"
  | .macroExpr .. => "MacroExpr"
  | .invocation .. => "Macro"
  | .path .. => "Path"
  | .segment .. => "PathSegment"
  | .angle .. => "AngleBracketedArgs"
  | .parenthesized .. => "ParenthesizedArgs"
  | .qualified .. => "QSelf"
  | .binding .. => "Binding"
  | .constraint .. => "Constraint"
  | .constArg .. => "ConstArg"
  | .typeArg t => t.kind
  | .lifetimeArg _ => "Lifetime"
  | .traitBound .. => "TraitBound"
  | .lifetimeBound _ => "Lifetime"
  | .fnArg .. => "BareFnArg"
  | .defaultOutput => "DefaultReturn"
  | .arrow .. => "ExplicitReturn"
  | .noArguments => "NoneType"
  | .unqualified => "NoneType"
  | .nil => "Punctuated"
  | .last _ => "Punctuated"
  | .cons .. => "Punctuated"

/-- The number of a kind of types, from zero; other nodes have none. -/
def Node.variant? {k : Category} : Node k → Option Nat
  | .array .. => some 0
  | .bareFn .. => some 1
  | .group .. => some 2
  | .implTrait .. => some 3
  | .infer .. => some 4
  | .macroType .. => some 5
  | .never .. => some 6
  | .parenType .. => some 7
  | .pathType .. => some 8
  | .pointer .. => some 9
  | .reference .. => some 10
  | .slice .. => some 11
  | .traitObject .. => some 12
  | .tuple .. => some 13
  | .verbatim .. => some 14
  | _ => none

namespace Fragment

/-- The name of the kind of a fragment. -/
def kind : Fragment → String
  | node _ n => n.kind
  | attr _ => "Attribute"
  | lifetime _ => "Lifetime"
  | lifetimeDef _ => "LifetimeDef"
  | binder _ => "BoundLifetimes"
  | abi _ => "Abi"

/-- The number of a kind of types; other fragments have none. -/
def variant? : Fragment → Option Nat
  | node _ n => n.variant?
  | _ => none

/-- The token trees that write a fragment. -/
def trees : Fragment → List TokenTree
  | node _ n => n.trees
  | attr a => a.trees
  | lifetime l => l.trees
  | lifetimeDef d => d.trees
  | binder b => b.trees
  | abi a => a.trees

/-- The canonical text of a fragment. -/
def text (f : Fragment) : String :=
  render f.trees

/-- The fragment outside any file. -/
def erase : Fragment → Fragment
  | node k n => node k n.erase
  | attr a => attr a.erase
  | lifetime l => lifetime l.erase
  | lifetimeDef d => lifetimeDef d.erase
  | binder b => binder b.erase
  | abi a => abi a.erase

/-- True if two fragments differ only in places. -/
def same (a b : Fragment) : Bool :=
  a.erase = b.erase

end Fragment

/-- True if two nodes differ only in places. -/
def Node.same {k : Category} (a b : Node k) : Bool :=
  a.erase = b.erase

/-- The classes of equal elements: for each element the number of its class, counted by first
appearance. `known` holds one element of each class in order. -/
def classes {α : Type} (same : α → α → Bool) (known : List α) : List α → List Nat
  | [] => []
  | x :: xs =>
    match known.findIdx? (same x) with
    | some i => i :: classes same known xs
    | none => known.length :: classes same (known ++ [x]) xs

end TypeGrammar
