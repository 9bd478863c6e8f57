/-!
# Character ranges

A property of characters is given by the code point intervals in which it holds.
-/

namespace TypeGrammar.Text

/-- True if the code point of `c` lies in one of the closed intervals. -/
def inRanges (ranges : List (Nat × Nat)) (c : Char) : Bool :=
  ranges.any fun (low, high) => low ≤ c.toNat && c.toNat ≤ high

end TypeGrammar.Text
