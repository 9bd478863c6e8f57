import TypeGrammar.TokenTree

/-!
# Canonical text of token trees

Token trees are laid out as atoms: words, literals, delimiters, and operators, each of which is a
run of joint punctuation. A single blank stands between two atoms where `needsBlank` says so; it
looks at the two atoms and at the one before them. Invisible delimiters leave no text.
-/

namespace TypeGrammar

/-- One unit of laid out text. -/
inductive Atom where
  | token (kind : TokenKind) (text : String)
  | delimiter (text : String)
  deriving DecidableEq, Repr

namespace Atom

/-- The text of an atom. -/
def text : Atom → String
  | token _ text => text
  | delimiter text => text

/-- True of punctuation with one of the given texts. -/
def isOperator (ops : List String) : Atom → Bool
  | token .punct text => ops.contains text
  | _ => false

/-- True of an opening delimiter. -/
def isOpening : Atom → Bool
  | delimiter text => ["(", "[", "\x7b"].contains text
  | _ => false

/-- True of a closing delimiter. -/
def isClosing : Atom → Bool
  | delimiter text => [")", "]", "\x7d"].contains text
  | _ => false

/-- True of a run of `>`. -/
def isClosingAngle : Atom → Bool
  | token .punct text => text != "" && text.toList.all (· == '>')
  | _ => false

/-- True of an identifier. -/
def isIdentifier : Atom → Bool
  | token .identifier _ => true
  | _ => false

/-- True of one of the given keywords. -/
def isKeyword (words : List String) : Atom → Bool
  | token .keyword text => words.contains text
  | _ => false

end Atom

/-! ## Atoms -/

/-- A token or the edge of a group; the edge of an invisible group has no text. -/
inductive Mark where
  | token (t : Token)
  | edge (text : String)

namespace TokenTree

mutual

/-- The tokens and edges of a tree in order. -/
def marks : TokenTree → List Mark
  | token t => [.token t]
  | group d ts _ _ => .edge d.opening :: (marksAll ts ++ [.edge d.closing])

/-- The tokens and edges of a list of trees in order. -/
def marksAll : List TokenTree → List Mark
  | [] => []
  | t :: ts => marks t ++ marksAll ts

end

end TokenTree

/-- The operator that has been read so far, if any. -/
def pendingAtom (pending : String) : List Atom :=
  if pending = "" then [] else [.token .punct pending]

/-- The atoms of marks after the start `pending` of an operator. -/
def mergeAfter (pending : String) : List Mark → List Atom
  | [] => pendingAtom pending
  | .token t :: ms =>
    if t.kind = .punct then
      if t.joint then mergeAfter (pending ++ t.text) ms
      else .token .punct (pending ++ t.text) :: mergeAfter "" ms
    else pendingAtom pending ++ .token t.kind t.text :: mergeAfter "" ms
  | .edge text :: ms =>
    pendingAtom pending ++ (if text = "" then [] else [.delimiter text]) ++ mergeAfter "" ms

/-- The atoms of token trees. -/
def atoms (trees : List TokenTree) : List Atom :=
  mergeAfter "" (TokenTree.marksAll trees)

/-! ## Spacing -/

/-- The operators that bind to what follows them wherever they stand. -/
def alwaysUnary : List String := ["?", "#"]

/-- The operators that bind to what follows them where an operand is due. -/
def maybeUnary : List String := ["&", "*", "-", "!"]

/-- True if an operand is due after `atom`, so that a following operator is unary. -/
def operandDue : Option Atom → Bool
  | none => true
  | some (.token .punct _) => true
  | some (.token .keyword text) =>
    !(["self", "Self", "super", "crate", "true", "false"].contains text)
  | some (.token _ _) => false
  | some a => a.isOpening

/-- True if a `<` after the atom opens generic arguments. -/
def takesGenerics (prev : Atom) : Bool :=
  prev.isIdentifier || prev.isKeyword ["Self", "self", "super", "crate", "for"]

/-- True if a `::` after `prev` goes on with a path or starts one without a blank before it. After
`dyn` it does not, as `dyn::A` would be a path. -/
def joinsPath (before : Option Atom) (prev : Atom) : Bool :=
  match prev with
  | .token .identifier text => text != "dyn"
  | .token .keyword text => ["self", "Self", "super", "crate", "extern"].contains text
  | _ =>
    prev.isClosingAngle || prev.isOperator ("<" :: alwaysUnary) ||
      (prev.isOperator maybeUnary && operandDue before)

/-- True if a parenthesis or bracket after the atom holds its arguments. After `dyn` it does not,
as `dyn(A)` would be a path. -/
def takesInputs (prev : Atom) : Bool :=
  match prev with
  | .token .identifier text => text != "dyn"
  | _ => prev.isKeyword ["fn"] || prev.isOperator ["!"] || prev.isClosingAngle

/-- True if a blank stands between `prev` and `cur`, where `before` comes before `prev`. -/
def needsBlank (before : Option Atom) (prev cur : Atom) : Bool :=
  if prev = .delimiter "\x7b" then cur != .delimiter "\x7d"
  else if cur = .delimiter "\x7d" then true
  else if prev.isOpening || cur.isClosing then false
  else if cur.isOperator ["::"] then !joinsPath before prev
  else if cur.isOperator [",", ";", ":"] || cur.isClosingAngle then false
  else if cur.isOperator ["<"] && takesGenerics prev then false
  else if cur.isOperator ["!"] && prev.isIdentifier then false
  else if prev.isOperator ("::" :: "<" :: alwaysUnary) then false
  else if prev.isOperator maybeUnary && operandDue before then false
  else if cur = .delimiter "(" || cur = .delimiter "[" then !takesInputs prev
  else true

/-- The texts of the atoms after `prev`, with the blanks before them. -/
def layAfter (before : Option Atom) (prev : Atom) : List Atom → List String
  | [] => []
  | cur :: rest =>
    (if needsBlank before prev cur then [" ", cur.text] else [cur.text]) ++
      layAfter (some prev) cur rest

/-- The texts of atoms with the blanks between them. -/
def lay : List Atom → List String
  | [] => []
  | first :: rest => first.text :: layAfter none first rest

/-- The canonical text of token trees. -/
def render (trees : List TokenTree) : String :=
  String.join (lay (atoms trees))

end TypeGrammar
