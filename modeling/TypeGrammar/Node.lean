import TypeGrammar.Separated
import TypeGrammar.TokenTree

/-!
# Syntax nodes

The syntax trees of type expressions. The nodes form one family indexed by their syntactic category,
so an operation on all nodes is one recursion. A node keeps the tokens and delimiters it was read
from, with their places. A list of nodes with separators is a node of category `list`;
`Node.ofSeparated` and `Node.separated` go between the two forms.
-/

namespace TypeGrammar

/-! ## Parts without types inside -/

/-- An outer attribute `#[...]` with its contents as they stand. -/
structure Attribute where
  pound : Token
  bracket : Delim
  tokens : List TokenTree
  deriving DecidableEq

/-- A lifetime such as `'a`. -/
structure Lifetime where
  token : Token
  deriving DecidableEq, Repr

/-- The name of a lifetime, without its quote. -/
def Lifetime.name (l : Lifetime) : String :=
  String.ofList (l.token.text.toList.drop 1)

/-- A lifetime that a binder introduces: `'a: 'b + 'c`. -/
structure LifetimeDef where
  attributes : List Attribute
  lifetime : Lifetime
  colon : Option Token
  bounds : Separated Lifetime
  deriving DecidableEq

/-- A binder `for<'a, 'b>`. -/
structure Binder where
  forToken : Token
  lt : Token
  lifetimes : Separated LifetimeDef
  gt : Token
  deriving DecidableEq

/-- The word `extern` with an optional calling convention. -/
structure Abi where
  externToken : Token
  name : Option Token
  deriving DecidableEq, Repr

/-! ## The family -/

/-- The syntactic categories. -/
inductive Category where
  | type
  | expr
  | path
  | segment
  | arguments
  | argument
  | selfType
  | bound
  | fnArg
  | output
  | invocation
  | list (element : Category)
  deriving DecidableEq, Repr

/-- The nodes of each category. -/
inductive Node : Category → Type where
  /-- A type `[T; n]`. -/
  | array (bracket : Delim) (elem : Node .type) (semi : Token) (length : Node .expr) : Node .type
  /-- A type `for<'a> unsafe extern "C" fn(x: &'a u8, ...) -> bool`. -/
  | bareFn (binder : Option Binder) (unsafety : Option Token) (abi : Option Abi) (fnToken : Token)
      (paren : Delim) (inputs : Node (.list .fnArg)) (variadic : Option Token)
      (output : Node .output) : Node .type
  /-- A type in invisible delimiters. -/
  | group (delim : Delim) (elem : Node .type) : Node .type
  /-- A type `impl A + B`. -/
  | implTrait (implToken : Token) (bounds : Node (.list .bound)) : Node .type
  /-- The type `_`. -/
  | infer (underscore : Token) : Node .type
  /-- A macro call `name!(...)` in the place of a type. -/
  | macroType (call : Node .invocation) : Node .type
  /-- The type `!`. -/
  | never (bang : Token) : Node .type
  /-- A type in parentheses. -/
  | parenType (paren : Delim) (elem : Node .type) : Node .type
  /-- A path such as `std::slice::Iter<'a, T>` or `<Vec<T> as IntoIterator>::Item`. -/
  | pathType (self : Node .selfType) (path : Node .path) : Node .type
  /-- A type `*const T` or `*mut T`. -/
  | pointer (star : Token) (constToken mutability : Option Token) (elem : Node .type) : Node .type
  /-- A type `&'a mut T`. -/
  | reference (ampersand : Token) (lifetime : Option Lifetime) (mutability : Option Token)
      (elem : Node .type) : Node .type
  /-- A type `[T]`. -/
  | slice (bracket : Delim) (elem : Node .type) : Node .type
  /-- A type `dyn A + B`; the word `dyn` is optional. -/
  | traitObject (dynToken : Option Token) (bounds : Node (.list .bound)) : Node .type
  /-- A type `()`, `(T,)` or `(A, B)`. -/
  | tuple (paren : Delim) (elems : Node (.list .type)) : Node .type
  /-- Tokens that stand for a type without being read as one. -/
  | verbatim (tokens : List TokenTree) : Node .type
  /-- A literal, `true` or `false`. -/
  | literal (token : Token) : Node .expr
  /-- A path as an expression. -/
  | pathExpr (self : Node .selfType) (path : Node .path) : Node .expr
  /-- An operator before its operand. -/
  | unary (op : Token) (operand : Node .expr) : Node .expr
  /-- An operator between its operands. -/
  | binary (left : Node .expr) (op : Token) (right : Node .expr) : Node .expr
  /-- An expression `e as T`. -/
  | cast (operand : Node .expr) (asToken : Token) (target : Node .type) : Node .expr
  /-- A call `f(a, b)`. -/
  | call (function : Node .expr) (paren : Delim) (args : Node (.list .expr)) : Node .expr
  /-- An expression in parentheses. -/
  | parenExpr (paren : Delim) (inner : Node .expr) : Node .expr
  /-- A block with its contents as they stand. -/
  | block (brace : Delim) (tokens : List TokenTree) : Node .expr
  /-- A macro call in the place of an expression. -/
  | macroExpr (call : Node .invocation) : Node .expr
  /-- A macro call with its body as it stands. -/
  | invocation (path : Node .path) (bang : Token) (delimiter : Delim) (tokens : List TokenTree) :
      Node .invocation
  /-- Segments with `::` between them and perhaps in front. -/
  | path (leading : Option Token) (segments : Node (.list .segment)) : Node .path
  /-- A segment of a path. -/
  | segment (ident : Token) (arguments : Node .arguments) : Node .segment
  /-- A segment without arguments. -/
  | noArguments : Node .arguments
  /-- Arguments `<'a, T, Item = U>`, perhaps after `::`. -/
  | angle (colons : Option Token) (lt : Token) (args : Node (.list .argument)) (gt : Token) :
      Node .arguments
  /-- Arguments `(A, B) -> C`. -/
  | parenthesized (paren : Delim) (inputs : Node (.list .type)) (output : Node .output) :
      Node .arguments
  /-- No `<T as Trait>` in front of a path. -/
  | unqualified : Node .selfType
  /-- The `<T as Trait>` in front of a path, of which the first `position` segments are `Trait`. -/
  | qualified (lt : Token) (type : Node .type) (position : Int) (asToken : Option Token)
      (gt : Token) : Node .selfType
  /-- A lifetime as an argument. -/
  | lifetimeArg (lifetime : Lifetime) : Node .argument
  /-- An argument `Item = T`. -/
  | binding (ident : Token) (eq : Token) (type : Node .type) : Node .argument
  /-- An argument `Item: A + B`. -/
  | constraint (ident : Token) (colon : Token) (bounds : Node (.list .bound)) : Node .argument
  /-- A literal or block as an argument. -/
  | constArg (value : Node .expr) : Node .argument
  /-- A type as an argument. -/
  | typeArg (type : Node .type) : Node .argument
  /-- A trait as a bound: `?Sized`, `for<'a> Fn(&'a T)`, perhaps in parentheses. -/
  | traitBound (paren : Option Delim) (modifier : Option Token) (binder : Option Binder)
      (path : Node .path) : Node .bound
  /-- A lifetime as a bound. -/
  | lifetimeBound (lifetime : Lifetime) : Node .bound
  /-- An input of a function type with its optional name and colon. -/
  | fnArg (attributes : List Attribute) (name : Option (Token × Token)) (type : Node .type) :
      Node .fnArg
  /-- No arrow: the function returns the unit type. -/
  | defaultOutput : Node .output
  /-- An output `-> T`. -/
  | arrow (arrow : Token) (type : Node .type) : Node .output
  /-- The empty list. -/
  | nil {k : Category} : Node (.list k)
  /-- A last element without a separator. -/
  | last {k : Category} (value : Node k) : Node (.list k)
  /-- An element, its separator and the rest of a list. -/
  | cons {k : Category} (value : Node k) (separator : Token) (rest : Node (.list k)) :
      Node (.list k)
  deriving DecidableEq

/-- Types. -/
abbrev Ty := Node .type

/-- Constant expressions. -/
abbrev Expr := Node .expr

/-- Paths. -/
abbrev Path := Node .path

/-- Segments of paths. -/
abbrev Segment := Node .segment

/-- Bounds of traits and lifetimes. -/
abbrev Bound := Node .bound

namespace Node

variable {k : Category}

/-! ## Lists -/

/-- The list node with the given elements and separators. -/
def ofSeparated : Separated (Node k) → Node (.list k)
  | .empty => .nil
  | .last v => .last v
  | .cons v s rest => .cons v s (ofSeparated rest)

/-- The elements and separators of a node, if its category is `list k`. -/
def elements {c : Category} (n : Node c) (k : Category) (h : c = .list k) : Separated (Node k) :=
  match n with
  | .nil => .empty
  | .last v => .last (Category.list.inj h ▸ v)
  | .cons v s rest => .cons (Category.list.inj h ▸ v) s (rest.elements k h)
  | _ => .empty

/-- The elements and separators of a list node. -/
def separated (n : Node (.list k)) : Separated (Node k) :=
  n.elements k rfl

@[simp]
theorem separated_nil : (nil : Node (.list k)).separated = .empty := rfl

@[simp]
theorem separated_last (v : Node k) : (last v).separated = .last v := rfl

@[simp]
theorem separated_cons (v : Node k) (s : Token) (rest : Node (.list k)) :
    (cons v s rest).separated = .cons v s rest.separated := rfl

@[simp]
theorem separated_ofSeparated (p : Separated (Node k)) : (ofSeparated p).separated = p := by
  induction p with
  | empty => rfl
  | last => rfl
  | cons v s rest ih => simp [ofSeparated, ih]

/-! ## Paths -/

/-- The segments of a path. -/
def segments : Path → Separated Segment
  | .path _ segments => segments.separated

/-- True if a segment has no arguments. -/
def isPlain : Segment → Bool
  | .segment _ .noArguments => true
  | .segment _ _ => false

/-- True if no segment of a path has arguments. -/
def hasNoArguments (p : Path) : Bool :=
  p.segments.toList.all isPlain

/-- True if a path can still take arguments in parentheses: its last segment has none. -/
def endsPlain (p : Path) : Bool :=
  p.segments.last?.any isPlain

/-- A segment with the given arguments. -/
def withArguments (arguments : Node .arguments) : Segment → Segment
  | .segment ident _ => .segment ident arguments

/-- A path with the given arguments on its last segment. -/
def withFinalArguments (p : Path) (arguments : Node .arguments) : Path :=
  match p with
  | .path leading segments =>
    .path leading (ofSeparated (segments.separated.mapLast (withArguments arguments)))

end Node

/-! ## Forgetting places -/

/-- The attribute outside any file. -/
def Attribute.erase (a : Attribute) : Attribute :=
  ⟨a.pound.erase, a.bracket.erase, TokenTree.eraseAll a.tokens⟩

/-- The lifetime outside any file. -/
def Lifetime.erase (l : Lifetime) : Lifetime :=
  ⟨l.token.erase⟩

/-- The lifetime definition outside any file. -/
def LifetimeDef.erase (d : LifetimeDef) : LifetimeDef :=
  ⟨d.attributes.map Attribute.erase, d.lifetime.erase, d.colon.map Token.erase,
    (d.bounds.map Lifetime.erase).mapSeparators Token.erase⟩

/-- The binder outside any file. -/
def Binder.erase (b : Binder) : Binder :=
  ⟨b.forToken.erase, b.lt.erase, (b.lifetimes.map LifetimeDef.erase).mapSeparators Token.erase,
    b.gt.erase⟩

/-- The calling convention outside any file. -/
def Abi.erase (a : Abi) : Abi :=
  ⟨a.externToken.erase, a.name.map Token.erase⟩

/-- The node outside any file. -/
def Node.erase {k : Category} : Node k → Node k
  | .array bracket elem semi length => .array bracket.erase elem.erase semi.erase length.erase
  | .bareFn binder unsafety abi fnToken paren inputs variadic output =>
    .bareFn (binder.map Binder.erase) (unsafety.map Token.erase) (abi.map Abi.erase) fnToken.erase
      paren.erase inputs.erase (variadic.map Token.erase) output.erase
  | .group delim elem => .group delim.erase elem.erase
  | .implTrait implToken bounds => .implTrait implToken.erase bounds.erase
  | .infer underscore => .infer underscore.erase
  | .macroType m => .macroType m.erase
  | .never bang => .never bang.erase
  | .parenType paren elem => .parenType paren.erase elem.erase
  | .pathType self p => .pathType self.erase p.erase
  | .pointer star constToken mutability elem =>
    .pointer star.erase (constToken.map Token.erase) (mutability.map Token.erase) elem.erase
  | .reference ampersand lifetime mutability elem =>
    .reference ampersand.erase (lifetime.map Lifetime.erase) (mutability.map Token.erase)
      elem.erase
  | .slice bracket elem => .slice bracket.erase elem.erase
  | .traitObject dynToken bounds => .traitObject (dynToken.map Token.erase) bounds.erase
  | .tuple paren elems => .tuple paren.erase elems.erase
  | .verbatim tokens => .verbatim (TokenTree.eraseAll tokens)
  | .literal token => .literal token.erase
  | .pathExpr self p => .pathExpr self.erase p.erase
  | .unary op operand => .unary op.erase operand.erase
  | .binary left op right => .binary left.erase op.erase right.erase
  | .cast operand asToken target => .cast operand.erase asToken.erase target.erase
  | .call function paren args => .call function.erase paren.erase args.erase
  | .parenExpr paren inner => .parenExpr paren.erase inner.erase
  | .block brace tokens => .block brace.erase (TokenTree.eraseAll tokens)
  | .macroExpr m => .macroExpr m.erase
  | .invocation p bang delimiter tokens =>
    .invocation p.erase bang.erase delimiter.erase (TokenTree.eraseAll tokens)
  | .path leading segments => .path (leading.map Token.erase) segments.erase
  | .segment ident arguments => .segment ident.erase arguments.erase
  | .noArguments => .noArguments
  | .angle colons lt args gt => .angle (colons.map Token.erase) lt.erase args.erase gt.erase
  | .parenthesized paren inputs output => .parenthesized paren.erase inputs.erase output.erase
  | .unqualified => .unqualified
  | .qualified lt type position asToken gt =>
    .qualified lt.erase type.erase position (asToken.map Token.erase) gt.erase
  | .lifetimeArg lifetime => .lifetimeArg lifetime.erase
  | .binding ident eq type => .binding ident.erase eq.erase type.erase
  | .constraint ident colon bounds => .constraint ident.erase colon.erase bounds.erase
  | .constArg value => .constArg value.erase
  | .typeArg type => .typeArg type.erase
  | .traitBound paren modifier binder p =>
    .traitBound (paren.map Delim.erase) (modifier.map Token.erase) (binder.map Binder.erase)
      p.erase
  | .lifetimeBound lifetime => .lifetimeBound lifetime.erase
  | .fnArg attributes name type =>
    .fnArg (attributes.map Attribute.erase) (name.map fun (a, b) => (a.erase, b.erase)) type.erase
  | .defaultOutput => .defaultOutput
  | .arrow mark type => .arrow mark.erase type.erase
  | .nil => .nil
  | .last value => .last value.erase
  | .cons value separator rest => .cons value.erase separator.erase rest.erase

end TypeGrammar
