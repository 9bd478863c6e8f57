import TypeGrammar.Node.Tokens
import TypeGrammar.TokenTree.Render

/-!
# The text of a node

A node is written as the canonical text of its tokens.
-/

namespace TypeGrammar

/-- The canonical text of a node. -/
def Node.text {k : Category} (n : Node k) : String :=
  render n.trees

end TypeGrammar
