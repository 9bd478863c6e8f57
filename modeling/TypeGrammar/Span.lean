/-!
# Spans

A span is a range in a source: the file, and the line and column of its first and of its last
character, both counted from one. A column counts characters.
-/

namespace TypeGrammar

/-- A range of characters in a source file. -/
structure Span where
  file : String
  startLine : Int
  startCol : Int
  endLine : Int
  endCol : Int
  deriving DecidableEq, Repr, Inhabited

namespace Span

/-- The span of what was made by hand and stands in no file. -/
def callSite : Span := ⟨"<call_site>", 0, 0, 0, 0⟩

/-- From the start of `a` to the end of `b`. -/
def join (a b : Span) : Span :=
  ⟨a.file, a.startLine, a.startCol, b.endLine, b.endCol⟩

/-- The start of a span in the form `file:line:column`. -/
def location (s : Span) : String :=
  s.file ++ ":" ++ toString s.startLine ++ ":" ++ toString s.startCol

end Span

end TypeGrammar
