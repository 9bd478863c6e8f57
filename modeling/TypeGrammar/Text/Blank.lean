import TypeGrammar.Text.Range

/-!
# Blank characters

White space in the sense of Unicode, and texts without the white space around them.
-/

namespace TypeGrammar.Text

/-- The white space characters: controls, separators of lines and paragraphs, and blanks. -/
def blankRanges : List (Nat × Nat) :=
  [(0x9, 0xd), (0x1c, 0x20), (0x85, 0x85), (0xa0, 0xa0), (0x1680, 0x1680), (0x2000, 0x200a),
   (0x2028, 0x2029), (0x202f, 0x202f), (0x205f, 0x205f), (0x3000, 0x3000)]

/-- White space in the sense of Unicode. -/
def isBlank (c : Char) : Bool :=
  inRanges blankRanges c

/-- A text without the white space at its two ends. -/
def trim (cs : List Char) : List Char :=
  ((cs.dropWhile isBlank).reverse.dropWhile isBlank).reverse

end TypeGrammar.Text
