import TypeGrammar.Token.Lex
import TypeGrammar.TokenTree

/-!
# The token trees of a text

Tokens up to the end marker are nested by their delimiters. Frames hold the groups that are open:
the opening token and the trees collected so far. A closing token that matches no open group, or
a group of another kind, and every group left open is reported.
-/

namespace TypeGrammar

/-- What is wrong with a delimiter. -/
inductive DelimiterFault where
  | unexpected (closing : String)
  | mismatched (closing opening : String)
  | unclosed (opening : String)
  deriving DecidableEq, Repr

namespace DelimiterFault

/-- The code of a fault. -/
def code : DelimiterFault → String
  | unexpected _ | mismatched .. => "E102"
  | unclosed _ => "E101"

/-- The wording of a fault. -/
def message : DelimiterFault → String
  | unexpected c => "unexpected closing delimiter `" ++ c ++ "`"
  | mismatched c o => "mismatched closing delimiter `" ++ c ++ "` for `" ++ o ++ "`"
  | unclosed o => "unclosed delimiter `" ++ o ++ "`"

/-- The fault as it is reported at a token. -/
def diagnostic (f : DelimiterFault) (t : Token) : Diagnostic :=
  ⟨f.code, f.message, [⟨t.span, ""⟩], []⟩

end DelimiterFault

/-- A group that is still open, with its trees in reverse order. -/
structure Frame where
  opening : Token
  delimiter : Delimiter
  trees : List TokenTree

/-- The state between two tokens: the open groups, innermost first, the trees outside of them and
the faults found so far, the last two in reverse order. -/
structure Nesting where
  frames : List Frame
  outer : List TokenTree
  faults : List Diagnostic

namespace Nesting

/-- The state before the first token. -/
def start : Nesting := ⟨[], [], []⟩

/-- The state after a tree is added to the innermost open group. -/
def add (n : Nesting) (t : TokenTree) : Nesting :=
  match n.frames with
  | [] => { n with outer := t :: n.outer }
  | f :: fs => { n with frames := { f with trees := t :: f.trees } :: fs }

/-- The state after a closing token of the pair `d`. -/
def close (n : Nesting) (d : Delimiter) (t : Token) : Nesting :=
  match n.frames with
  | [] => { n with faults := (DelimiterFault.unexpected t.text).diagnostic t :: n.faults }
  | f :: fs =>
    let faults :=
      if f.delimiter = d then n.faults
      else (DelimiterFault.mismatched t.text f.opening.text).diagnostic t :: n.faults
    add ⟨fs, n.outer, faults⟩ (.group f.delimiter f.trees.reverse f.opening.span t.span)

/-- The state after a token. -/
def step (n : Nesting) (t : Token) : Nesting :=
  match t.kind.opens?, t.kind.closes? with
  | some d, _ => { n with frames := ⟨t, d, []⟩ :: n.frames }
  | none, some d => n.close d t
  | none, none => n.add (.token t)

/-- The trees, if every delimiter has its partner. -/
def finish (n : Nesting) : Except CompileError (List TokenTree) :=
  let unclosed := n.frames.map fun f =>
    (DelimiterFault.unclosed f.opening.text).diagnostic f.opening
  match n.faults.reverse ++ unclosed with
  | [] => .ok n.outer.reverse
  | faults => .error ⟨faults⟩

end Nesting

/-- The trees of a list of tokens; what follows the end marker is ignored. -/
def nest (tokens : List Token) : Except CompileError (List TokenTree) :=
  ((tokens.takeWhile fun t => t.kind != .eof).foldl Nesting.step Nesting.start).finish

/-- The trees of a text that starts at the given line of a file. -/
def tokenize (source file : String) (line : Int) : Except CompileError (List TokenTree) :=
  lex source file line >>= nest

end TypeGrammar
