import TypeGrammar.Proofs.Layout

/-!
# How qualified paths are written

A path behind `<T as Trait>` is written as it would be written alone, but with the closing bracket
put into it: right after the last segment of the trait, so before the separator of that segment.
Which segment this is the position of the self type says. A path has at least one segment that does
not belong to the trait, so of a position that leaves none the printer takes what fits.
-/

namespace TypeGrammar

namespace Printed

variable {lt self asToken gt : List TokenTree} {p : Printed} {position : Nat}

/-- The position that counts: all segments but the last can belong to the trait. -/
theorem clamped_position {count : Nat} (nonempty : 0 < count) :
    (if 0 < (position : Int) ∧ (count : Int) ≤ position then (count : Int) - 1 else position) =
      (min position (count - 1) : Nat) := by
  split <;> omega

/-- Without a trait the bracket is closed in front of the whole path. -/
theorem qualify_front (nonempty : 0 < p.parts.length)
    (place : min position (p.parts.length - 1) = 0) :
    p.qualify lt self position asToken gt = lt ++ self ++ gt ++ p.trees := by
  simp only [qualify]
  rw [clamped_position nonempty, place, ChunkLayout.slice_drop (Nat.zero_le _), List.drop_zero,
    if_neg (show ¬ (0 : Int) < (0 : Nat) by omega), trees, List.append_assoc _ p.lead]

/-- The bracket is closed between the last segment of the trait and its separator. -/
theorem qualify_behind {front rest : List (List TokenTree × List TokenTree)}
    {value separator : List TokenTree} (parts : p.parts = front ++ (value, separator) :: rest)
    (place : min position (p.parts.length - 1) = front.length + 1) :
    p.qualify lt self position asToken gt =
      lt ++ self ++ asToken ++ (p.lead ++ joined front ++ value) ++ gt ++
        (separator ++ joined rest) := by
  have fits : front.length + 1 ≤ p.parts.length := by omega
  have split : p.parts = (front ++ [(value, separator)]) ++ rest := by simp [parts]
  have width : front.length + 1 = (front ++ [(value, separator)]).length := by simp
  have trait : p.parts.take (front.length + 1) = front ++ [(value, separator)] := by
    rw [split, width, List.take_left]
  have after : p.parts.drop (front.length + 1) = rest := by
    rw [split, width, List.drop_left]
  simp only [qualify]
  rw [clamped_position (by omega), place, ChunkLayout.slice_take fits, ChunkLayout.slice_drop fits,
    trait, after, if_pos (by omega)]
  simp [List.append_assoc]

end Printed

namespace Node

variable {k : Category}

/-- The pieces of a list are its values, each with the separator after it. -/
theorem parts_list : (n : Node (.list k)) →
    n.print.parts = n.separated.pairs.map fun (v, s) => (v.trees, tokenTrees s)
  | .nil => rfl
  | .last _ => rfl
  | .cons v s rest => by
    rw [separated_cons, Separated.pairs, List.map_cons, ← parts_list rest]
    rfl

theorem parts_path (leading : Option Token) (segments : Node (.list .segment)) :
    (path leading segments).print.parts =
      segments.separated.pairs.map fun (v, s) => (v.trees, tokenTrees s) :=
  parts_list segments

theorem length_parts_path (leading : Option Token) (segments : Node (.list .segment)) :
    (path leading segments).print.parts.length = segments.separated.toList.length := by
  rw [parts_path, List.length_map, Separated.length_pairs]

/-- The tokens of some segments, each with the separator after it. -/
def segmentTrees (pairs : List (Segment × Option Token)) : List TokenTree :=
  pairs.flatMap fun (v, s) => v.trees ++ tokenTrees s

theorem joined_map (pairs : List (Segment × Option Token)) :
    Printed.joined (pairs.map fun (v, s) => (v.trees, tokenTrees s)) = segmentTrees pairs := by
  simp [Printed.joined, segmentTrees, List.flatMap_map]

theorem trees_path (leading : Option Token) (segments : Node (.list .segment)) :
    (path leading segments).trees =
      tokenTrees leading ++ segmentTrees segments.separated.pairs := by
  rw [trees, Printed.trees, parts_path, joined_map]
  rfl

theorem trees_pathType (lt gt : Token) (type : Ty) (position : Int) (asToken : Option Token)
    (p : Path) : (pathType (.qualified lt type position asToken gt) p).trees =
      p.print.qualify lt.trees type.trees position (asMark asToken).trees gt.trees :=
  List.append_nil _

theorem trees_pathExpr (self : Node .selfType) (p : Path) :
    (pathExpr self p).trees = (pathType self p).trees := by
  cases self <;> rfl

section

variable {lt self asToken gt : List TokenTree} {position : Nat} {leading : Option Token}
  {segments : Node (.list .segment)}

/-- The bracket is closed in front of the whole path. -/
theorem qualify_path_front (nonempty : 0 < segments.separated.toList.length)
    (place : min position (segments.separated.toList.length - 1) = 0) :
    (path leading segments).print.qualify lt self position asToken gt =
      lt ++ self ++ gt ++ (path leading segments).trees := by
  rw [← length_parts_path leading] at nonempty place
  exact Printed.qualify_front nonempty place

/-- The bracket is closed between the segment `v` and its separator. -/
theorem qualify_path_behind {front rest : List (Segment × Option Token)} {v : Segment}
    {separator : Option Token} (pairs : segments.separated.pairs = front ++ (v, separator) :: rest)
    (place : min position (segments.separated.toList.length - 1) = front.length + 1) :
    (path leading segments).print.qualify lt self position asToken gt =
      lt ++ self ++ asToken ++ (tokenTrees leading ++ segmentTrees front ++ v.trees) ++ gt ++
        (tokenTrees separator ++ segmentTrees rest) := by
  have parts := parts_path leading segments
  rw [pairs, List.map_append, List.map_cons] at parts
  rw [← length_parts_path leading] at place
  rw [Printed.qualify_behind parts (by rw [List.length_map, place]), joined_map, joined_map]
  rfl

end

/-! ## Results -/

/-- A qualified path is written as its self type in brackets, put into the tokens of the path. With
`m` for the position, or for the number of segments less one if that is smaller, the closing bracket
stands right behind the `m`-th segment, and in front of the whole path if `m` is zero; then there is
no `as`. -/
theorem trees_qualified {lt gt : Token} {type : Ty} {position : Nat}
    {asToken leading : Option Token} {segments : Node (.list .segment)}
    (nonempty : segments.separated ≠ .empty) :
    let m := min position (segments.separated.toList.length - 1)
    let self : Node .selfType := .qualified lt type position asToken gt
    let p : Path := path leading segments
    (pathExpr self p).trees = (pathType self p).trees ∧
      ∃ before after, before ++ after = p.trees ∧
        (pathType self p).trees =
          lt.trees ++ type.trees ++ (if m = 0 then [] else (asMark asToken).trees) ++ before ++
            gt.trees ++ after ∧
        (m = 0 → before = []) ∧
        (0 < m → ∃ front v separator rest,
          segments.separated.pairs = front ++ (v, separator) :: rest ∧
          front.length + 1 = m ∧
          before = tokenTrees leading ++ segmentTrees front ++ v.trees ∧
          after = tokenTrees separator ++ segmentTrees rest) := by
  intro m self p
  have filled : 0 < segments.separated.toList.length := by
    cases eq : segments.separated with
    | empty => exact absurd eq nonempty
    | last | cons => exact Nat.succ_pos _
  refine ⟨trees_pathExpr self p, ?_⟩
  rw [trees_pathType]
  by_cases zero : m = 0
  · refine ⟨[], p.trees, rfl, ?_, fun _ => rfl, fun positive => absurd zero (by omega)⟩
    rw [qualify_path_front filled zero, if_pos zero, List.append_nil, List.append_nil]
  · obtain ⟨front, v, separator, rest, pairs, width⟩ :=
      segments.separated.pairs_split (Nat.pos_of_ne_zero zero) (by omega)
    refine ⟨tokenTrees leading ++ segmentTrees front ++ v.trees,
      tokenTrees separator ++ segmentTrees rest, ?_, ?_, fun zero' => absurd zero' zero,
      fun _ => ⟨front, v, separator, rest, pairs, width, rfl, rfl⟩⟩
    · rw [trees_path, pairs]
      simp [segmentTrees]
    · rw [qualify_path_behind pairs width.symm, if_neg zero]

/-- A position past the end, and no `as`: `<_ as A>::B`. -/
theorem trees_qualified_past_end :
    let name (text : String) : Token := ⟨.identifier, text, .callSite, false⟩
    let mark (op : String) : Token := .punct op .callSite
    let a : Segment := .segment (name "A") .noArguments
    let b : Segment := .segment (name "B") .noArguments
    let segments : Node (.list .segment) := .cons a (mark "::") (.last b)
    segments.separated ≠ .empty ∧
      (pathType (.qualified (mark "<") (.infer (name "_")) (7 : Nat) none (mark ">"))
        (path none segments)).trees =
          (mark "<").trees ++ (name "_").trees ++ (Token.keyword "as" .callSite).trees ++
            a.trees ++ (mark ">").trees ++ ((mark "::").trees ++ b.trees) := by
  intro name mark a b segments
  have nonempty : segments.separated ≠ .empty := by simp [segments]
  obtain ⟨-, before, after, -, written, -, behind⟩ :=
    @trees_qualified (mark "<") (mark ">") (.infer (name "_")) 7 none none segments nonempty
  obtain ⟨front, v, separator, rest, pairs, width, rfl, rfl⟩ := behind (by decide)
  obtain rfl : front = [] := List.eq_nil_of_length_eq_zero (Nat.succ.inj width)
  cases pairs
  refine ⟨nonempty, written.trans ?_⟩
  rfl

end Node

end TypeGrammar
