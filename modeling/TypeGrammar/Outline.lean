import TypeGrammar.Fragment
import TypeGrammar.Text.Quoted

/-!
# Outlines

The outline of a fragment shows its structure: the name of its kind, and its fields in order with
their names. It is written as indented lines, one for each leaf, or as a record on one line.
-/

namespace TypeGrammar

mutual

/-- A value of a field, or a fragment with its fields. -/
inductive Outline where
  | absent
  | number (n : Int)
  | token (t : Token)
  | delim (d : Delim)
  | tree (t : TokenTree)
  | trees (ts : List TokenTree)
  | tuple (items : OutlineItems)
  | separated (items : OutlineItems)
  | fragment (self : Fragment) (fields : OutlineFields)

/-- Values in order, each with the separator after it. -/
inductive OutlineItems where
  | nil
  | cons (value : Outline) (separator : Option Token) (rest : OutlineItems)

/-- Named values in order. -/
inductive OutlineFields where
  | nil
  | cons (name : String) (value : Outline) (rest : OutlineFields)

end

namespace OutlineFields

/-- The fields of a list of names and values. -/
def ofList : List (String × Outline) → OutlineFields
  | [] => nil
  | (name, value) :: rest => cons name value (ofList rest)

/-- The value of the field with the given name. -/
def find? (name : String) : OutlineFields → Option Outline
  | nil => none
  | cons n value rest => if n = name then some value else rest.find? name

end OutlineFields

namespace OutlineItems

/-- The items with the given values and separators. -/
def ofPairs : List (Outline × Option Token) → OutlineItems
  | [] => nil
  | (value, separator) :: rest => cons value separator (ofPairs rest)

/-- The values in order. -/
def toList : OutlineItems → List Outline
  | nil => []
  | cons value _ rest => value :: rest.toList

end OutlineItems

namespace Outline

/-- The outline of an optional value. -/
def optional {α : Type} (f : α → Outline) : Option α → Outline
  | some a => f a
  | none => absent

/-- The items of an outline, if it has any. -/
def items : Outline → OutlineItems
  | tuple items => items
  | separated items => items
  | _ => .nil

/-- The outline of a list with separators. -/
def ofSeparated {α : Type} (f : α → Outline) (p : Separated α) : Outline :=
  separated (.ofPairs (p.pairs.map fun (v, s) => (f v, s)))

end Outline

/-! ## Outlines of fragments -/

/-- The outline of an attribute. -/
def Attribute.outline (a : Attribute) : Outline :=
  .fragment (.attr a)
    (.ofList [("pound", .token a.pound), ("bracket", .delim a.bracket),
      ("tokens", .trees a.tokens)])

/-- The outline of a list of attributes. -/
def attributesOutline (attributes : List Attribute) : Outline :=
  .tuple (.ofPairs (attributes.map fun a => (a.outline, none)))

/-- The outline of a lifetime. -/
def Lifetime.outline (l : Lifetime) : Outline :=
  .fragment (.lifetime l) (.ofList [("token", .token l.token)])

/-- The outline of a lifetime definition. -/
def LifetimeDef.outline (d : LifetimeDef) : Outline :=
  .fragment (.lifetimeDef d)
    (.ofList [("attrs", attributesOutline d.attributes), ("lifetime", d.lifetime.outline),
      ("colon", .optional .token d.colon), ("bounds", .ofSeparated Lifetime.outline d.bounds)])

/-- The outline of a binder. -/
def Binder.outline (b : Binder) : Outline :=
  .fragment (.binder b)
    (.ofList [("for_token", .token b.forToken), ("lt", .token b.lt),
      ("lifetimes", .ofSeparated LifetimeDef.outline b.lifetimes), ("gt", .token b.gt)])

/-- The outline of a calling convention. -/
def Abi.outline (a : Abi) : Outline :=
  .fragment (.abi a)
    (.ofList [("extern_token", .token a.externToken), ("name", .optional .token a.name)])

/-- The fields of a node that is a fragment by itself. -/
def Node.record {k : Category} (n : Node k) (fields : List (String × Outline)) : Outline :=
  .fragment n.fragment (.ofList fields)

/-- The outline of a node. -/
def Node.outline {k : Category} : Node k → Outline
  | n@(.array bracket elem semi length) =>
    n.record [("bracket", .delim bracket), ("elem", elem.outline), ("semi", .token semi),
      ("len", length.outline)]
  | n@(.bareFn binder unsafety abi fnToken paren inputs variadic output) =>
    n.record [("lifetimes", .optional Binder.outline binder),
      ("unsafety", .optional .token unsafety), ("abi", .optional Abi.outline abi),
      ("fn_token", .token fnToken), ("paren", .delim paren), ("inputs", inputs.outline),
      ("variadic", .optional .token variadic), ("output", output.outline)]
  | n@(.group delim elem) => n.record [("group", .delim delim), ("elem", elem.outline)]
  | n@(.implTrait implToken bounds) =>
    n.record [("impl_token", .token implToken), ("bounds", bounds.outline)]
  | n@(.infer underscore) => n.record [("underscore", .token underscore)]
  | n@(.macroType m) => n.record [("mac", m.outline)]
  | n@(.never bang) => n.record [("bang", .token bang)]
  | n@(.parenType paren elem) => n.record [("paren", .delim paren), ("elem", elem.outline)]
  | n@(.pathType self p) => n.record [("qself", self.outline), ("path", p.outline)]
  | n@(.pointer star constToken mutability elem) =>
    n.record [("star", .token star), ("const_token", .optional .token constToken),
      ("mutability", .optional .token mutability), ("elem", elem.outline)]
  | n@(.reference ampersand lifetime mutability elem) =>
    n.record [("and_token", .token ampersand), ("lifetime", .optional Lifetime.outline lifetime),
      ("mutability", .optional .token mutability), ("elem", elem.outline)]
  | n@(.slice bracket elem) => n.record [("bracket", .delim bracket), ("elem", elem.outline)]
  | n@(.traitObject dynToken bounds) =>
    n.record [("dyn_token", .optional .token dynToken), ("bounds", bounds.outline)]
  | n@(.tuple paren elems) => n.record [("paren", .delim paren), ("elems", elems.outline)]
  | n@(.verbatim tokens) => n.record [("tokens", .trees tokens)]
  | n@(.literal token) => n.record [("lit", .token token)]
  | n@(.pathExpr self p) => n.record [("qself", self.outline), ("path", p.outline)]
  | n@(.unary op operand) => n.record [("op", .token op), ("expr", operand.outline)]
  | n@(.binary left op right) =>
    n.record [("left", left.outline), ("op", .token op), ("right", right.outline)]
  | n@(.cast operand asToken target) =>
    n.record [("expr", operand.outline), ("as_token", .token asToken), ("ty", target.outline)]
  | n@(.call function paren args) =>
    n.record [("func", function.outline), ("paren", .delim paren), ("args", args.outline)]
  | n@(.parenExpr paren inner) => n.record [("paren", .delim paren), ("expr", inner.outline)]
  | n@(.block brace tokens) => n.record [("brace", .delim brace), ("tokens", .trees tokens)]
  | n@(.macroExpr m) => n.record [("mac", m.outline)]
  | n@(.invocation p bang delimiter tokens) =>
    n.record [("path", p.outline), ("bang", .token bang), ("delimiter", .delim delimiter),
      ("tokens", .trees tokens)]
  | n@(.path leading segments) =>
    n.record [("leading_colon", .optional .token leading), ("segments", segments.outline)]
  | n@(.segment ident arguments) =>
    n.record [("ident", .token ident), ("arguments", arguments.outline)]
  | .noArguments => .absent
  | n@(.angle colons lt args gt) =>
    n.record [("colon2", .optional .token colons), ("lt", .token lt), ("args", args.outline),
      ("gt", .token gt)]
  | n@(.parenthesized paren inputs output) =>
    n.record [("paren", .delim paren), ("inputs", inputs.outline), ("output", output.outline)]
  | .unqualified => .absent
  | n@(.qualified lt type position asToken gt) =>
    n.record [("lt", .token lt), ("ty", type.outline), ("position", .number position),
      ("as_token", .optional .token asToken), ("gt", .token gt)]
  | .lifetimeArg lifetime => lifetime.outline
  | n@(.binding ident eq type) =>
    n.record [("ident", .token ident), ("eq", .token eq), ("ty", type.outline)]
  | n@(.constraint ident colon bounds) =>
    n.record [("ident", .token ident), ("colon", .token colon), ("bounds", bounds.outline)]
  | n@(.constArg value) => n.record [("expr", value.outline)]
  | .typeArg type => type.outline
  | n@(.traitBound paren modifier binder p) =>
    n.record [("paren", .optional .delim paren), ("modifier", .optional .token modifier),
      ("lifetimes", .optional Binder.outline binder), ("path", p.outline)]
  | .lifetimeBound lifetime => lifetime.outline
  | n@(.fnArg attributes name type) =>
    n.record [("attrs", attributesOutline attributes),
      ("name", .optional (fun (ident, colon) => .trees [.token ident, .token colon]) name),
      ("ty", type.outline)]
  | n@(.defaultOutput) => n.record []
  | n@(.arrow mark type) => n.record [("arrow", .token mark), ("ty", type.outline)]
  | .nil => .separated .nil
  | .last value => .separated (.cons value.outline none .nil)
  | .cons value separator rest =>
    .separated (.cons value.outline (some separator) rest.outline.items)

/-- The outline of a fragment. -/
def Fragment.outline : Fragment → Outline
  | .node _ n => n.outline
  | .attr a => a.outline
  | .lifetime l => l.outline
  | .lifetimeDef d => d.outline
  | .binder b => b.outline
  | .abi a => a.outline

/-! ## Records -/

/-- The name of a kind of tokens. -/
def TokenKind.name : TokenKind → String
  | identifier => "IDENTIFIER"
  | keyword => "KEYWORD"
  | lifetime => "LIFETIME"
  | integer => "INTEGER_LIT"
  | float => "FLOAT_LIT"
  | string => "STRING_LIT"
  | byteString => "BYTE_STRING_LIT"
  | character => "CHAR_LIT"
  | byte => "BYTE_LIT"
  | punct => "PUNCT"
  | openParen => "LPAREN"
  | closeParen => "RPAREN"
  | openBracket => "LBRACKET"
  | closeBracket => "RBRACKET"
  | openBrace => "LBRACE"
  | closeBrace => "RBRACE"
  | eof => "EOF"

/-- The kinds of tokens in order. -/
def TokenKind.all : List TokenKind :=
  [identifier, keyword, lifetime, integer, float, string, byteString, character, byte, punct,
   openParen, closeParen, openBracket, closeBracket, openBrace, closeBrace, eof]

/-- The name of a pair of delimiters. -/
def Delimiter.name : Delimiter → String
  | paren => "PAREN"
  | bracket => "BRACKET"
  | brace => "BRACE"
  | invisible => "NONE"

/-- Named values in the form `Name(field=value, …)`. -/
def recordText (name : String) (fields : List (String × String)) : String :=
  name ++ "(" ++ String.intercalate ", " (fields.map fun (f, v) => f ++ "=" ++ v) ++ ")"

/-- Values in the form `(a, b)`; a single value keeps its comma. -/
def tupleText : List String → String
  | [v] => "(" ++ v ++ ",)"
  | vs => "(" ++ String.intercalate ", " vs ++ ")"

/-- A span as a record. -/
def Span.recordText (s : Span) : String :=
  TypeGrammar.recordText "Span" [("file", Text.quoted s.file), ("start_line", toString s.startLine),
    ("start_col", toString s.startCol), ("end_line", toString s.endLine),
    ("end_col", toString s.endCol)]

/-- A kind of tokens with its number, counted from one. -/
def TokenKind.recordText (k : TokenKind) : String :=
  "<TokenKind." ++ k.name ++ ": " ++ toString (TokenKind.all.idxOf k + 1) ++ ">"

/-- A token as a record. -/
def Token.recordText (t : Token) : String :=
  TypeGrammar.recordText "Token" [("kind", t.kind.recordText), ("value", Text.quoted t.text),
    ("span", t.span.recordText), ("joint", if t.joint then "True" else "False")]

/-- A pair of delimiters with its text. -/
def Delimiter.recordText (d : Delimiter) : String :=
  "<Delimiter." ++ d.name ++ ": " ++ Text.quoted d.text ++ ">"

/-- A recorded pair of delimiters as a record. -/
def Delim.recordText (d : Delim) : String :=
  TypeGrammar.recordText "Delim"
    [("delimiter", d.delimiter.recordText), ("span", d.span.recordText)]

namespace TokenTree

mutual

/-- A token tree as a record. -/
def recordText : TokenTree → String
  | token t => t.recordText
  | group d ts openSpan closeSpan =>
    TypeGrammar.recordText "Group" [("delimiter", d.recordText),
      ("stream", tupleText (recordTexts ts)), ("span", openSpan.recordText),
      ("close_span", closeSpan.recordText)]

/-- Token trees as records. -/
def recordTexts : List TokenTree → List String
  | [] => []
  | t :: ts => recordText t :: recordTexts ts

end

end TokenTree

/-- A list with separators as a record of pairs. -/
def separatedText (pairs : List (String × Option Token)) : String :=
  let pair := fun (v, s) => tupleText [v, ((s : Option Token).map Token.recordText).getD "None"]
  "Punctuated([" ++ String.intercalate ", " (pairs.map pair) ++ "])"

namespace Outline

mutual

/-- The outline as a record. -/
def recordText : Outline → String
  | absent => "None"
  | number n => toString n
  | token t => t.recordText
  | delim d => d.recordText
  | tree t => t.recordText
  | trees ts => tupleText (TokenTree.recordTexts ts)
  | tuple items => tupleText ((recordItems items).map (·.1))
  | separated items => separatedText (recordItems items)
  | fragment self fields => TypeGrammar.recordText self.kind (recordFields fields)

/-- Items as records with their separators. -/
def recordItems : OutlineItems → List (String × Option Token)
  | .nil => []
  | .cons value separator rest => (recordText value, separator) :: recordItems rest

/-- Fields as records with their names. -/
def recordFields : OutlineFields → List (String × String)
  | .nil => []
  | .cons name value rest => (name, recordText value) :: recordFields rest

end

/-! ## Lines -/

/-- The name of the kind of an outline. -/
def kind : Outline → String
  | absent => "NoneType"
  | number _ => "int"
  | token _ => "Token"
  | delim _ => "Delim"
  | tree (.token _) => "Token"
  | tree (.group ..) => "Group"
  | trees _ => "tuple"
  | tuple _ => "tuple"
  | separated _ => "Punctuated"
  | fragment self _ => self.kind

/-- A token as a leaf. -/
def tokenLeaf (t : Token) : String :=
  Text.quoted t.text

/-- A pair of delimiters as a leaf. -/
def delimLeaf (d : Delim) : String :=
  Text.quoted (if d.delimiter = .invisible then "<none>" else d.delimiter.text)

/-- The blanks in front of a line. -/
def indent (depth : Nat) : String :=
  String.ofList (List.replicate (2 * depth) ' ')

mutual

/-- The lines of an outline at a depth. -/
def lines (depth : Nat) : Outline → List String
  | fragment self fields => (indent depth ++ self.kind) :: fieldLines depth fields
  | token t => [indent depth ++ tokenLeaf t]
  | delim d => [indent depth ++ delimLeaf d]
  | tree (.token t) => [indent depth ++ tokenLeaf t]
  | other => [indent depth ++ other.kind ++ ": " ++ other.recordText]

/-- The lines of items. -/
def itemLines (depth : Nat) : OutlineItems → List String
  | .nil => []
  | .cons value _ rest => lines depth value ++ itemLines depth rest

/-- The lines of the fields of a fragment at a depth. -/
def fieldLines (depth : Nat) : OutlineFields → List String
  | .nil => []
  | .cons name value rest =>
    let label := indent depth ++ "  " ++ name ++ ":"
    let block := fun (ls : List String) => if ls.isEmpty then [label ++ " []"] else label :: ls
    let own :=
      match value with
      | absent => []
      | token t => [label ++ " " ++ tokenLeaf t]
      | delim d => [label ++ " " ++ delimLeaf d]
      | trees [] => [label ++ " []"]
      | trees ts => [label ++ " " ++ Text.quoted (render ts)]
      | tuple items => block (itemLines (depth + 2) items)
      | separated items => block (itemLines (depth + 2) items)
      | fragment self fields =>
        label :: (indent (depth + 2) ++ self.kind) :: fieldLines (depth + 2) fields
      | number n => [label ++ " " ++ toString n]
      | tree t => [label ++ " " ++ t.recordText]
    own ++ fieldLines depth rest

end

end Outline

/-! ## Parts of an outline -/

/-- A step from an outline to one of its parts. -/
inductive OutlineStep where
  | field (name : String)
  | item (index : Int)

/-- Why an outline has no such part, or why the part cannot be written by itself. -/
inductive OutlineFault where
  | noField
  | outOfRange
  | unprintable (kind : String)
  deriving DecidableEq, Repr

/-- The wording of a fault. -/
def OutlineFault.message : OutlineFault → String
  | noField => "no such field"
  | outOfRange => "no such item"
  | unprintable kind => "cannot print " ++ kind

namespace Outline

/-- The values that an outline lists, if it is a list. -/
def values : Outline → List Outline
  | trees ts => ts.map tree
  | tuple items => items.toList
  | separated items => items.toList
  | _ => []

/-- The part of an outline that a step leads to. -/
def step (o : Outline) : OutlineStep → Except OutlineFault Outline
  | .field name =>
    match o with
    | fragment _ fields =>
      match fields.find? name with
      | some part => .ok part
      | none => .error .noField
    | _ => .error .noField
  | .item index =>
    match nth? o.values index with
    | some part => .ok part
    | none => .error .outOfRange

/-- The part of an outline that some steps lead to. -/
def part (o : Outline) (steps : List OutlineStep) : Except OutlineFault Outline :=
  steps.foldlM step o

/-- The canonical text of an outlined fragment; anything else cannot be written, and neither can
the self type of a path. -/
def text (o : Outline) : Except OutlineFault String :=
  match o with
  | fragment (.node .selfType _) _ => .error (.unprintable o.kind)
  | fragment self _ => .ok self.text
  | _ => .error (.unprintable o.kind)

end Outline

end TypeGrammar
