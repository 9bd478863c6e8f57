import TypeGrammar.Proofs.MatchingTypes

/-!
# How far a type looks ahead

Whether a type is read, what it is and where it ends depends on the trees up to that end and on the
three trees after it, and on no others. The same holds of a run that fails, with the place where it
fails as its end.
-/

namespace TypeGrammar

open TokenTree

namespace Matching

/-- Cursors in the same group that have the same trees up to a number of them and three more. -/
def lookahead : Matching where
  upTo n c c' := c.endSpan = c'.endSpan ∧ c.rest.take (n + 3) = c'.rest.take (n + 3)
  places := Eq
  skip {m n c c'} up := by
    refine ⟨up.1, ?_⟩
    have drop (ts : List TokenTree) : (ts.drop m).take (n + 3) = (ts.take (m + n + 3)).drop m := by
      rw [List.drop_take, Nat.add_assoc, Nat.add_sub_cancel_left]
    exact (drop _).trans ((congrArg _ up.2).trans (drop _).symm)
  less {m n c c'} up := by
    refine ⟨up.1, ?_⟩
    have shorter (ts : List TokenTree) : ts.take (m + 3) = (ts.take (m + n + 3)).take (m + 3) := by
      rw [List.take_take, Nat.min_eq_left (by omega)]
    rw [shorter, up.2, ← shorter]
  near {n c c'} up := by
    rw [eraseAll_eq_map, eraseAll_eq_map, ← List.map_take, ← List.map_take, up.2]
  span {n c c'} up := by
    obtain ⟨ends, same⟩ := up
    unfold Cursor.span
    cases here : c.rest <;> cases there : c'.rest <;> simp_all
  inside {m n c c' d us o e ts d' us' o' e' ts'} up here there := by
    have same := up.2
    rw [here, there, List.take_succ_cons, List.take_succ_cons] at same
    obtain ⟨rfl, rfl, rfl, rfl⟩ := TokenTree.group.inj (List.cons.inj same).1
    exact ⟨rfl, rfl⟩

end Matching

/-- A run that ends at a position sees the trees before that position and the next three trees. -/
theorem parseType_lookahead {plus : Bool} {trees trees' : List TokenTree} {e : Span} {p : Nat}
    (stops : (ending id (parseType plus (.ofTrees trees e))).2 = p)
    (same : trees'.take (p + 3) = trees.take (p + 3)) :
    ending id (parseType plus (.ofTrees trees' e)) =
      ending id (parseType plus (.ofTrees trees e)) := by
  have up : Matching.lookahead.upTo p (.ofTrees trees e) (.ofTrees trees' e) := ⟨rfl, same.symm⟩
  refine (parseType_ending (stops.trans (Nat.zero_add p).symm) up rfl ?_).symm
  rintro ⟨fault, place⟩ ⟨_, _⟩ rfl rfl
  rfl

/-- Two streams that differ only after the third tree behind the type that they start with. -/
theorem parseType_lookahead_plus :
    ∃ (trees trees' : List TokenTree) (e : Span) (p : Nat), trees ≠ trees' ∧
      (ending id (parseType false (.ofTrees trees e))).2 = p ∧
      trees'.take (p + 3) = trees.take (p + 3) ∧
      ending id (parseType false (.ofTrees trees' e)) =
        ending id (parseType false (.ofTrees trees e)) := by
  let word (text : String) : TokenTree := .token ⟨.identifier, text, .callSite, false⟩
  let plus : TokenTree := .token (.punct "+" .callSite)
  have stops : (ending id (parseType false
      (.ofTrees [word "A", plus, word "B", plus, word "C"] .callSite))).2 = 1 := by rfl
  refine ⟨[word "A", plus, word "B", plus, word "C"], [word "A", plus, word "B", plus], .callSite,
    1, by decide, stops, rfl, ?_⟩
  exact parseType_lookahead stops rfl

end TypeGrammar
