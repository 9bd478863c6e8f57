import TypeGrammar.Diagnostic
import TypeGrammar.Lexeme

/-!
# The tokens of a text

A text is divided into pieces, each the text of one lexeme; the pieces tile the text. Their places
follow from the characters before them. The tokens are the pieces that are tokens, closed by an end
marker; if a piece is faulty, the text has no tokens, and every faulty piece is reported.
-/

namespace TypeGrammar

/-- A piece of a text: the characters of one lexeme, and the character after them. -/
structure Piece where
  text : List Char
  sort : LexemeSort
  next : Option Char
  deriving DecidableEq, Repr

/-- The lexemes of a text; `limit` bounds their number. -/
def piecesUpTo : (limit : Nat) → List Char → List Piece
  | _, [] => []
  | 0, _ :: _ => []
  | limit + 1, c :: cs =>
    let l := Lexeme.scan c cs
    let rest := cs.drop l.extra
    ⟨c :: cs.take l.extra, l.sort, rest.head?⟩ :: piecesUpTo limit rest

/-- The lexemes of a text. -/
def pieces (cs : List Char) : List Piece :=
  piecesUpTo cs.length cs

/-! ## Places -/

/-- A line and a column, both counted from one. -/
structure Place where
  line : Int
  col : Int
  deriving DecidableEq, Repr

namespace Place

/-- The place after a character. -/
def next (p : Place) (c : Char) : Place :=
  if c = '\n' then ⟨p.line + 1, 1⟩ else ⟨p.line, p.col + 1⟩

/-- The place after a text. -/
def after (p : Place) (cs : List Char) : Place :=
  cs.foldl next p

/-- The span of a text that starts at `p`, up to its last character. -/
def spanOf (p : Place) (file : String) (cs : List Char) : Span :=
  let q := p.after cs
  ⟨file, p.line, p.col, q.line, if 1 < q.col then q.col - 1 else 1⟩

end Place

/-- The pieces with the places at which they start. -/
def locate (p : Place) : List Piece → List (Place × Piece)
  | [] => []
  | x :: xs => (p, x) :: locate (p.after x.text) xs

/-! ## Tokens -/

/-- The token that a piece at `p` is. Punctuation is joint to punctuation right after it. -/
def Piece.token? (file : String) (p : Place) (x : Piece) : Option Token :=
  match x.sort with
  | .token kind =>
    let joint := kind == .punct && x.next.any isPunctChar
    some ⟨kind, String.ofList x.text, p.spanOf file x.text, joint⟩
  | _ => none

/-- What is wrong with a piece at `p`; a fault is reported at the start of its piece. -/
def Piece.fault? (file : String) (p : Place) (x : Piece) : Option Diagnostic :=
  match x.sort with
  | .fault cause =>
    some ⟨"E100", cause.message, [⟨⟨file, p.line, p.col, p.line, p.col⟩, ""⟩], []⟩
  | _ => none

/-- The tokens of a text that starts at the given line of a file, with an end marker. -/
def lex (source file : String) (line : Int) : Except CompileError (List Token) :=
  let cs := source.toList
  let start : Place := ⟨line, 1⟩
  let located := locate start (pieces cs)
  match located.filterMap fun (p, x) => x.fault? file p with
  | [] =>
    let tokens := located.filterMap fun (p, x) => x.token? file p
    .ok (tokens ++ [⟨.eof, "", (start.after cs).spanOf file [], false⟩])
  | faults => .error ⟨faults⟩

end TypeGrammar
