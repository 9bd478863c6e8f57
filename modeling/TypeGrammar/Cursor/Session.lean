import TypeGrammar.Parse.Basic
import TypeGrammar.Slice

/-!
# Cursor sessions

A session reads token trees by hand. It holds a stack of cursors, one for each group that has been
entered, and at most one lookahead, which records what has been tried at its cursor so that it can
say what was expected there. A lookahead stays with its cursor, also after that cursor is left.
-/

namespace TypeGrammar

/-- A cursor with all the trees it moves over. -/
structure CursorFrame where
  trees : List TokenTree
  cursor : Cursor

namespace CursorFrame

/-- The frame in front of some trees. -/
def ofTrees (trees : List TokenTree) (endSpan : Span) : CursorFrame :=
  ⟨trees, Cursor.ofTrees trees endSpan⟩

/-- The trees from an offset on. A place before the first tree counts from the end, and goes on with
the first tree after the last; there is no place before the first one counted so. -/
def ahead? (f : CursorFrame) (offset : Int) : Option (List TokenTree) :=
  let place := f.cursor.pos + offset
  if 0 ≤ place then some (f.trees.drop place.toNat)
  else if 0 ≤ place + f.trees.length then
    some (f.trees.drop (place + f.trees.length).toNat ++ f.trees)
  else none

end CursorFrame

/-- Where the cursor of a lookahead is: at a depth of the stack, or left behind. -/
inductive LookaheadPlace where
  | depth (n : Nat)
  | left (c : Cursor)

/-- A lookahead with what has been tried, without repetition. -/
structure Lookahead where
  place : LookaheadPlace
  tried : List Expectation

/-- What can be asked about the trees at an offset. -/
inductive CursorQuery where
  | expectation (e : Expectation)
  | kind (k : TokenKind)

/-- True if the answer is yes for the trees ahead. -/
def CursorQuery.holds (q : CursorQuery) (ts : List TokenTree) : Bool :=
  match q with
  | expectation e => e.isMet ts
  | kind k => TokenTree.startsKind (· == k) ts

/-- One step of a session. -/
inductive CursorStep where
  | advance
  | take (e : Expectation)
  | takeIfMet (e : Expectation)
  | anyWord
  | atEnd
  | ask (q : CursorQuery) (offset : Int)
  | isEmpty
  | span
  | rest
  | error (message : String)
  | enter (d : Delimiter)
  | leave
  | lookahead
  | tryNext (e : Expectation)
  | expected

/-- What a step answers. -/
inductive CursorAnswer where
  | nothing
  | tree (t : TokenTree)
  | truth (b : Bool)
  | place (s : Span)
  | trees (ts : List TokenTree)
  | entered (d : Delim)
  | depth (n : Nat)
  | failed (e : ParseError)
  | outOfRange

/-- The state of a session: the current frame, the frames around it from the inside out, and the
lookahead. -/
structure CursorSession where
  current : CursorFrame
  outer : List CursorFrame
  look : Option Lookahead

namespace CursorSession

/-- A session in front of some trees. -/
def ofTrees (trees : List TokenTree) (endSpan : Span) : CursorSession :=
  ⟨.ofTrees trees endSpan, [], none⟩

/-- The number of cursors on the stack. -/
def depth (s : CursorSession) : Nat :=
  s.outer.length + 1

/-- The cursor of a lookahead. -/
def cursorOf (s : CursorSession) (l : Lookahead) : Cursor :=
  match l.place with
  | .left c => c
  | .depth n =>
    match (s.current :: s.outer)[s.depth - n]? with
    | some f => f.cursor
    | none => s.current.cursor

/-- Runs a parser at the current cursor. -/
def run {α : Type} (s : CursorSession) (answer : α → CursorAnswer) (p : Parser α) :
    CursorAnswer × CursorSession :=
  match p s.current.cursor with
  | .ok a c => (answer a, { s with current := { s.current with cursor := c } })
  | .error e c => (.failed e, { s with current := { s.current with cursor := c } })

/-- The parser that takes what meets an expectation. -/
def taking : Expectation → Parser TokenTree
  | .punct op => .token <$> Parser.punct op
  | .group d => do
    if ← Parser.look (TokenTree.startsGroup d) then Parser.advance
    else Parser.fail (.expected (.group d))
  | .anyGroup => do
    if ← Parser.look Expectation.anyGroup.isMet then Parser.advance
    else Parser.fail (.expected .anyGroup)
  | e => .token <$> Parser.take e

/-- An expectation added to those tried before, unless one of them is called the same. -/
def record (tried : List Expectation) (e : Expectation) : List Expectation :=
  if tried.any fun t => t.describe = e.describe then tried else tried ++ [e]

/-- The session after a group is entered. -/
def enter (s : CursorSession) (d : Delimiter) : CursorAnswer × CursorSession :=
  match Parser.openGroup d s.current.cursor with
  | .ok (delim, inner) c =>
    (.entered delim,
      { s with
        current := ⟨inner.rest, inner⟩
        outer := { s.current with cursor := c } :: s.outer })
  | .error e _ => (.failed e, s)

/-- The session after the current group is left; the outermost cursor stays. -/
def leave (s : CursorSession) : CursorSession :=
  match s.outer with
  | [] => s
  | f :: fs =>
    let look := s.look.map fun l =>
      match l.place with
      | .depth n => if n = s.depth then { l with place := .left s.current.cursor } else l
      | .left _ => l
    ⟨f, fs, look⟩

/-- A step of a session. -/
def step (s : CursorSession) : CursorStep → CursorAnswer × CursorSession
  | .advance => s.run .tree Parser.advance
  | .take e => s.run .tree (taking e)
  | .takeIfMet e =>
    if e.isMet s.current.cursor.rest then s.run .tree (taking e) else (.nothing, s)
  | .anyWord => s.run .tree (.token <$> Parser.anyWord)
  | .atEnd => s.run (fun _ => .nothing) Parser.atEnd
  | .ask q offset =>
    match q, s.current.ahead? offset with
    | .expectation (.punct ""), _ => (.truth true, s)
    | q, some ts => (.truth (q.holds ts), s)
    | _, none => (.outOfRange, s)
  | .isEmpty => (.truth s.current.cursor.rest.isEmpty, s)
  | .span => (.place s.current.cursor.span, s)
  | .rest => s.run .trees Parser.remaining
  | .error message => (.failed (s.current.cursor.fault (.other message)), s)
  | .enter d => s.enter d
  | .leave => let s := s.leave; (.depth s.depth, s)
  | .lookahead => (.nothing, { s with look := some ⟨.depth s.depth, []⟩ })
  | .tryNext e =>
    match s.look with
    | none => (.nothing, s)
    | some l =>
      (.truth (e.isMet (s.cursorOf l).rest),
        { s with look := some { l with tried := record l.tried e } })
  | .expected =>
    match s.look with
    | none => (.nothing, s)
    | some l =>
      let c := s.cursorOf l
      (.failed (c.fault (.noneOf l.tried c.rest.isEmpty)), s)

end CursorSession

end TypeGrammar
