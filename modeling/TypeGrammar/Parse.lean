import TypeGrammar.Parse.Type
import TypeGrammar.TokenTree.Nest

/-!
# Reading type expressions

The grammar is closed here: nested syntax is read by the same parsers, to a depth that bounds the
nesting of the trees ahead. Every parser takes a token or enters a group before it asks for nested
syntax, so a depth above the number of trees ahead is never exhausted.
-/

namespace TypeGrammar

namespace Grammar

/-- The parsers for syntax of no depth. -/
def exhausted : Grammar :=
  ⟨fun _ => Parser.fail .tooDeep, Parser.fail .tooDeep, fun _ => Parser.fail .tooDeep⟩

/-- The parsers for syntax one level above `g`. -/
def above (g : Grammar) : Grammar :=
  ⟨Parse.type g, Parse.bound g, Parse.expr g⟩

/-- The parsers for syntax up to the given depth. -/
def ofDepth : Nat → Grammar
  | 0 => exhausted
  | depth + 1 => above (ofDepth depth)

end Grammar

/-- A parser with a grammar that is deep enough for all trees ahead. -/
def Parser.deep {α : Type} (p : Grammar → Parser α) : Parser α := fun c =>
  p (Grammar.ofDepth (c.size + 1)) c

/-- Reads a type; with `plus` a `+` may go on with a trait object. -/
def parseType (plus : Bool) : Parser Ty :=
  Parser.deep fun g => Parse.type g plus

/-- Why a text is no type. -/
inductive SourceError where
  | compile (e : CompileError)
  | parse (e : ParseError)
  deriving DecidableEq

namespace SourceError

/-- The wording of an error, with its place if it has one. -/
def message : SourceError → String
  | compile e => e.message
  | parse e => e.span.location ++ ": " ++ e.message

/-- An error as it is shown to a reader. -/
def diagnostics : SourceError → List Diagnostic
  | compile e => e.diagnostics
  | parse e => [⟨"E200", e.message, [⟨e.span, ""⟩], []⟩]

end SourceError

/-- A type that takes up all trees ahead. -/
def Parser.wholeType (plus : Bool) : Parser Ty := do
  let t ← parseType plus
  Parser.atEnd
  return t

/-- The place of the end marker of some tokens. -/
def endOf (tokens : List Token) : Span :=
  (tokens.getLast?.map Token.span).getD Span.callSite

/-- The type that a text holds, where the text starts at the given line of a file. -/
def parseText (text file : String) (line : Int) (plus : Bool) : Except SourceError Ty := do
  let tokens ← (lex text file line).mapError .compile
  let trees ← (nest tokens).mapError .compile
  match Parser.wholeType plus (Cursor.ofTrees trees (endOf tokens)) with
  | .ok t _ => return t
  | .error e _ => throw (.parse e)

end TypeGrammar
