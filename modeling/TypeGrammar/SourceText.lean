import TypeGrammar.Files
import TypeGrammar.Slice
import TypeGrammar.Span

/-!
# Source texts

A source text is known by its lines. A span of it is the text from its first to its last character.
-/

namespace TypeGrammar

namespace SourceText

/-- The line with the given number, counted from one; empty if there is no such line. -/
def line (lines : List String) (number : Int) : String :=
  if 1 ≤ number then (lines[number.toNat - 1]?).getD "" else ""

/-- The part of a line between two positions. -/
def cut (line : String) (low high : Int) : String :=
  String.ofList (slice line.toList low high)

/-- The text of a span; its columns count from one. -/
def marked (lines : List String) (s : Span) : String :=
  if s.startLine = s.endLine then cut (line lines s.startLine) (s.startCol - 1) s.endCol
  else
    let count := (s.endLine - s.startLine + 1).toNat
    let part := fun (i : Nat) =>
      let line := line lines (s.startLine + i)
      if i = 0 then cut line (s.startCol - 1) line.length
      else if i + 1 = count then cut line 0 s.endCol
      else line
    String.intercalate "\n" ((List.range count).map part)

/-- The lines of a file with the given content. -/
def linesOf (content : String) : List String :=
  Text.lines (Files.readText content)

end SourceText

end TypeGrammar
