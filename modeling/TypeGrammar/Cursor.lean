import TypeGrammar.TokenTree

/-!
# Cursors

A cursor is a position in the trees of one group, or of the top level. It sees only those trees, so
reading a group can never run past the end of the group. What may come next is asked of the list of
the trees ahead; what is taken moves the cursor. An operation that fails leaves the cursor as it is
and reports the place of the next tree.
-/

namespace TypeGrammar

/-! ## Errors -/

/-- Something that may come next. -/
inductive Expectation where
  | punct (op : String)
  | keyword (word : String)
  | identifier
  | lifetime
  | literal
  | group (delimiter : Delimiter)
  | anyGroup
  deriving DecidableEq, Repr

/-- What an expectation is called in a message. -/
def Expectation.describe : Expectation → String
  | punct op => "`" ++ op ++ "`"
  | keyword word => "`" ++ word ++ "`"
  | identifier => "identifier"
  | lifetime => "lifetime"
  | literal => "literal"
  | group d => d.describe
  | anyGroup => "delimiter"

/-- Why token trees cannot be read. -/
inductive ParseFault where
  | expected (what : Expectation)
  | noneOf (alternatives : List Expectation) (atEnd : Bool)
  | unexpectedToken
  | unexpectedEnd
  | onlyLifetimes
  | binderWithoutTrait
  | tooDeep
  | other (message : String)
  deriving DecidableEq, Repr

/-- The list of alternatives in a message. -/
def describeAlternatives : List Expectation → String
  | [] => "unexpected token"
  | [a] => "expected " ++ a.describe
  | [a, b] => "expected " ++ a.describe ++ " or " ++ b.describe
  | as => "expected one of: " ++ String.intercalate ", " (as.map Expectation.describe)

/-- The wording of a fault. -/
def ParseFault.message : ParseFault → String
  | expected what => "expected " ++ what.describe
  | noneOf as atEnd =>
    (if atEnd then "unexpected end of input, " else "") ++ describeAlternatives as
  | unexpectedToken => "unexpected token"
  | unexpectedEnd => "unexpected end of input"
  | onlyLifetimes => "expected at least one type"
  | binderWithoutTrait => "expected a trait bound after `for<...>`"
  | tooDeep => "nesting too deep"
  | other message => message

/-- A fault with its place. -/
structure ParseError where
  fault : ParseFault
  span : Span
  deriving DecidableEq, Repr

/-- The wording of an error without its place. -/
def ParseError.message (e : ParseError) : String :=
  e.fault.message

/-! ## What comes next -/

namespace TokenTree

/-- The token at the front. -/
def token? : List TokenTree → Option Token
  | .token t :: _ => some t
  | _ => none

/-- True if a token of one of the given kinds is at the front. -/
def startsKind (p : TokenKind → Bool) (ts : List TokenTree) : Bool :=
  (token? ts).any fun t => p t.kind

/-- True if the operator with the given characters is at the front. Each character but the last has
to be joint to the next; the last may be joint, so `>` is at the front of `>>`. -/
def startsChars : List Char → List TokenTree → Bool
  | [], _ => true
  | c :: cs, .token t :: ts =>
    t.kind == .punct && t.text.toList == [c] && (cs.isEmpty || t.joint && startsChars cs ts)
  | _ :: _, _ => false

/-- True if an operator is at the front. -/
def startsPunct (op : String) (ts : List TokenTree) : Bool :=
  startsChars op.toList ts

/-- True if a word is at the front, be it a keyword or an identifier. -/
def startsWord (word : String) (ts : List TokenTree) : Bool :=
  (token? ts).any fun t => (t.kind == .keyword || t.kind == .identifier) && t.text == word

/-- True if an identifier is at the front. -/
def startsIdentifier (ts : List TokenTree) : Bool :=
  startsKind (· == .identifier) ts

/-- True if an identifier or keyword is at the front. -/
def startsAnyWord (ts : List TokenTree) : Bool :=
  startsKind (fun k => k == .identifier || k == .keyword) ts

/-- True if a lifetime is at the front. -/
def startsLifetime (ts : List TokenTree) : Bool :=
  startsKind (· == .lifetime) ts

/-- True if a literal is at the front. -/
def startsLiteral (ts : List TokenTree) : Bool :=
  startsKind TokenKind.isLiteral ts

/-- True if a group in the given pair is at the front. -/
def startsGroup (d : Delimiter) : List TokenTree → Bool
  | .group d' .. :: _ => d' == d
  | _ => false

/-- True if one of the words that may start a path is at the front. -/
def startsPathRoot (ts : List TokenTree) : Bool :=
  pathRoots.any fun word => startsWord word ts

end TokenTree

/-- True if an expectation is met at the front. -/
def Expectation.isMet (e : Expectation) (ts : List TokenTree) : Bool :=
  match e with
  | punct op => TokenTree.startsPunct op ts
  | keyword word => TokenTree.startsWord word ts
  | identifier => TokenTree.startsIdentifier ts
  | lifetime => TokenTree.startsLifetime ts
  | literal => TokenTree.startsLiteral ts
  | group d => TokenTree.startsGroup d ts
  | anyGroup =>
    match ts with
    | .group d .. :: _ => d != .invisible
    | _ => false

/-! ## Cursors -/

/-- A position in a list of trees: how many are behind, those ahead, and the place of the end. -/
structure Cursor where
  pos : Nat
  rest : List TokenTree
  endSpan : Span
  deriving DecidableEq

namespace Cursor

/-- The cursor in front of some trees. -/
def ofTrees (trees : List TokenTree) (endSpan : Span) : Cursor :=
  ⟨0, trees, endSpan⟩

/-- The place of the next tree, or of the end. -/
def span (c : Cursor) : Span :=
  match c.rest with
  | t :: _ => t.span
  | [] => c.endSpan

/-- The cursor after `n` more trees. -/
def skip (c : Cursor) (n : Nat) : Cursor :=
  ⟨c.pos + n, c.rest.drop n, c.endSpan⟩

/-- The number of tokens and groups ahead, also inside of groups. -/
def size (c : Cursor) : Nat :=
  TokenTree.sizeAll c.rest

/-- A fault at the next tree. -/
def fault (c : Cursor) (f : ParseFault) : ParseError :=
  ⟨f, c.span⟩

end Cursor

end TypeGrammar
