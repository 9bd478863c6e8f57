import TypeGrammar.Proofs.Separated
import TypeGrammar.Parse.Type

/-!
# Well-formed syntax trees

What is known of every node of a type that was read, beyond what its constructor says: a trait
object has a trait among its bounds, a pointer has one of its two marks, the position of a qualified
self type lies inside of the path, and so on. A tree is well formed if all nodes in it are. The
lemmas say when the nodes that are made from other nodes are well formed.
-/

namespace TypeGrammar

namespace Node

/-- A property of a node and of all nodes inside of it. -/
def Everywhere (P : (k : Category) → Node k → Prop) {k : Category} (n : Node k) : Prop :=
  P k n ∧
  match n with
  | .array _ elem _ length => elem.Everywhere P ∧ length.Everywhere P
  | .bareFn _ _ _ _ _ inputs _ output => inputs.Everywhere P ∧ output.Everywhere P
  | .group _ elem => elem.Everywhere P
  | .implTrait _ bounds => bounds.Everywhere P
  | .infer _ => True
  | .macroType m => m.Everywhere P
  | .never _ => True
  | .parenType _ elem => elem.Everywhere P
  | .pathType self p => self.Everywhere P ∧ p.Everywhere P
  | .pointer _ _ _ elem => elem.Everywhere P
  | .reference _ _ _ elem => elem.Everywhere P
  | .slice _ elem => elem.Everywhere P
  | .traitObject _ bounds => bounds.Everywhere P
  | .tuple _ elems => elems.Everywhere P
  | .verbatim _ => True
  | .literal _ => True
  | .pathExpr self p => self.Everywhere P ∧ p.Everywhere P
  | .unary _ operand => operand.Everywhere P
  | .binary left _ right => left.Everywhere P ∧ right.Everywhere P
  | .cast operand _ target => operand.Everywhere P ∧ target.Everywhere P
  | .call function _ args => function.Everywhere P ∧ args.Everywhere P
  | .parenExpr _ inner => inner.Everywhere P
  | .block _ _ => True
  | .macroExpr m => m.Everywhere P
  | .invocation p _ _ _ => p.Everywhere P
  | .path _ segments => segments.Everywhere P
  | .segment _ arguments => arguments.Everywhere P
  | .noArguments => True
  | .angle _ _ args _ => args.Everywhere P
  | .parenthesized _ inputs output => inputs.Everywhere P ∧ output.Everywhere P
  | .unqualified => True
  | .qualified _ type _ _ _ => type.Everywhere P
  | .lifetimeArg _ => True
  | .binding _ _ type => type.Everywhere P
  | .constraint _ _ bounds => bounds.Everywhere P
  | .constArg value => value.Everywhere P
  | .typeArg type => type.Everywhere P
  | .traitBound _ _ _ p => p.Everywhere P
  | .lifetimeBound _ => True
  | .fnArg _ _ type => type.Everywhere P
  | .defaultOutput => True
  | .arrow _ type => type.Everywhere P
  | .nil => True
  | .last value => value.Everywhere P
  | .cons value _ rest => value.Everywhere P ∧ rest.Everywhere P

theorem Everywhere.mono {P Q : (k : Category) → Node k → Prop} (h : ∀ k n, P k n → Q k n)
    {k : Category} {n : Node k} (known : n.Everywhere P) : n.Everywhere Q := by
  induction n <;> simp_all [Everywhere]

theorem Everywhere.and {P Q : (k : Category) → Node k → Prop} {k : Category} {n : Node k}
    (h : n.Everywhere P) (h' : n.Everywhere Q) : n.Everywhere fun k n => P k n ∧ Q k n := by
  induction n <;> simp_all [Everywhere]

/-- A segment with arguments in parentheses. -/
def hasInputs : Segment → Bool
  | .segment _ (.parenthesized ..) => true
  | .segment _ _ => false

/-- The `::` in front of a path. -/
def leading : Path → Option Token
  | .path leading _ => leading

/-- A self type that fits the path after it: its position lies inside of the path, and it is at the
start exactly if there is no `as`; then the path starts with `::`. -/
def FitsPath : Node .selfType → Path → Prop
  | .unqualified, _ => True
  | .qualified _ _ position asToken _, p =>
    0 ≤ position ∧ position < p.segments.toList.length ∧ (position = 0 ↔ asToken = none) ∧
      (position = 0 → p.leading.isSome)

/-- What holds of each node of a type that was read. -/
def Sound : (k : Category) → Node k → Prop
  | _, .traitObject _ bounds => ∃ b ∈ bounds.separated.toList, Parse.isTrait b = true
  | _, .implTrait _ bounds => bounds.separated.toList ≠ [] ∧ bounds.separated.trailing = false
  | _, .pointer _ constToken mutability _ => constToken.isSome ≠ mutability.isSome
  | _, .tuple _ elems => elems.separated.toList.length = 1 → elems.separated.trailing = true
  | _, .path _ segments =>
    segments.separated.toList ≠ [] ∧ segments.separated.trailing = false ∧
      ∀ s ∈ segments.separated.toList.dropLast, s.hasInputs = false
  | _, .pathType self p => self.FitsPath p
  | _, .pathExpr self p => self.FitsPath p
  | _, .invocation p _ _ _ => p.hasNoArguments = true
  | _, .bareFn _ _ _ _ _ inputs variadic _ =>
    variadic.isSome → inputs.separated.toList = [] ∨ inputs.separated.trailing = true
  | _, .verbatim _ => False
  | _, _ => True

/-- All nodes of a tree are sound. -/
def WellFormed {k : Category} (n : Node k) : Prop :=
  n.Everywhere Sound

/-! ## Lists -/

theorem ofSeparated_separated {k : Category} : (n : Node (.list k)) → ofSeparated n.separated = n
  | .nil => rfl
  | .last _ => rfl
  | .cons v s rest => congrArg (Node.cons v s) (ofSeparated_separated rest)

/-- A property that tells nothing of lists holds everywhere in a list if it does in all values. -/
theorem everywhere_ofSeparated {P : (k : Category) → Node k → Prop} {k : Category}
    (lists : ∀ n : Node (.list k), P (.list k) n) {xs : Separated (Node k)} :
    (ofSeparated xs).Everywhere P ↔ ∀ x ∈ xs.toList, x.Everywhere P := by
  induction xs with
  | empty => exact iff_of_true ⟨lists .nil, trivial⟩ (List.forall_mem_nil _)
  | last v => exact (and_iff_right (lists _)).trans List.forall_mem_singleton.symm
  | cons v s rest ih =>
    exact (and_iff_right (lists _)).trans ((and_congr_right' ih).trans List.forall_mem_cons.symm)

theorem wellFormed_ofSeparated {k : Category} {xs : Separated (Node k)} :
    (ofSeparated xs).WellFormed ↔ ∀ x ∈ xs.toList, x.WellFormed :=
  everywhere_ofSeparated fun n => by cases n <;> trivial

theorem wellFormed_list {k : Category} {n : Node (.list k)} :
    n.WellFormed ↔ ∀ x ∈ n.separated.toList, x.WellFormed := by
  rw [← wellFormed_ofSeparated, ofSeparated_separated]

/-! ## Paths -/

/-- A path that is well formed and has no arguments in parentheses yet. -/
structure OpenPath (p : Path) : Prop where
  wellFormed : p.WellFormed
  plain : ∀ s ∈ p.segments.toList, s.hasInputs = false

theorem wellFormed_path {leading : Option Token} {xs : Separated Segment} :
    (path leading (ofSeparated xs)).WellFormed ↔ xs.acceptsValue = false ∧
      (∀ s ∈ xs.toList.dropLast, s.hasInputs = false) ∧ ∀ s ∈ xs.toList, s.WellFormed := by
  have path : (path leading (ofSeparated xs)).WellFormed ↔
      Sound .path (path leading (ofSeparated xs)) ∧ (ofSeparated xs).WellFormed := .rfl
  rw [path, wellFormed_ofSeparated, Sound, separated_ofSeparated, Separated.acceptsValue_eq]
  simp [and_assoc]

theorem openPath_path {leading : Option Token} {xs : Separated Segment}
    (ends : xs.acceptsValue = false) (all : ∀ s ∈ xs.toList, s.WellFormed ∧ s.hasInputs = false) :
    OpenPath (path leading (ofSeparated xs)) where
  wellFormed := wellFormed_path.2
    ⟨ends, fun s mem => (all s (List.dropLast_subset _ mem)).2, fun s mem => (all s mem).1⟩
  plain s mem := by
    rw [segments, separated_ofSeparated] at mem
    exact (all s mem).2

namespace OpenPath

variable {p : Path} {arguments : Node .arguments}

/-- A path stays well formed with any arguments at its end. -/
theorem withFinalArguments (h : OpenPath p) (known : arguments.WellFormed) :
    (p.withFinalArguments arguments).WellFormed := by
  cases p with
  | path leading xs =>
  obtain ⟨wellFormed, plain⟩ := h
  rw [← ofSeparated_separated xs] at wellFormed
  obtain ⟨ends, -, all⟩ := wellFormed_path.1 wellFormed
  have nonempty : xs.separated.toList ≠ [] := List.length_pos_iff.1 (Separated.length_pos ends)
  obtain ⟨v, -, eq⟩ := Separated.toList_mapLast (withArguments arguments) nonempty
  refine wellFormed_path.2 ⟨by rw [Separated.acceptsValue_mapLast, ends], ?_, ?_⟩
  · rw [eq, List.dropLast_concat]
    exact fun s mem => plain s (List.dropLast_subset _ mem)
  · rw [eq]
    intro s mem
    obtain mem | rfl := List.mem_append.1 mem |>.imp_right List.mem_singleton.1
    · exact all s (List.dropLast_subset _ mem)
    · cases v with
      | segment ident old => exact ⟨trivial, known⟩

end OpenPath

theorem FitsPath.withFinalArguments {self : Node .selfType} {p : Path} (h : self.FitsPath p)
    (arguments : Node .arguments) : self.FitsPath (p.withFinalArguments arguments) := by
  cases p with
  | path leading xs =>
  cases self with
  | unqualified => trivial
  | qualified lt type position asToken gt =>
    obtain ⟨start, inside, rest⟩ := h
    refine ⟨start, ?_, rest⟩
    have same : (xs.separated.mapLast (Node.withArguments arguments)).toList.length =
        xs.separated.toList.length := by
      cases empty : xs.separated.toList with
      | nil =>
        rw [segments, empty] at inside
        exact absurd inside (by simpa using start)
      | cons v vs =>
        obtain ⟨w, -, eq⟩ := Separated.toList_mapLast (Node.withArguments arguments)
          (empty ▸ List.cons_ne_nil v vs)
        simp [eq, empty]
    simpa [Node.withFinalArguments, segments, same] using inside

/-- The path of a trait goes on with further segments. -/
theorem OpenPath.join {trait : Path} {colons : Token} {rest : Separated Segment}
    (h : OpenPath trait) (ends : rest.acceptsValue = false)
    (all : ∀ s ∈ rest.toList, s.WellFormed ∧ s.hasInputs = false) :
    OpenPath (Parse.joinPath trait colons rest) := by
  cases trait with
  | path leading xs =>
  obtain ⟨wellFormed, plain⟩ := h
  rw [← ofSeparated_separated xs] at wellFormed
  obtain ⟨-, -, known⟩ := wellFormed_path.1 wellFormed
  refine openPath_path (Separated.acceptsValue_join colons ends) fun s mem => ?_
  rw [Separated.toList_join] at mem
  obtain mem | mem := List.mem_append.1 mem
  · exact ⟨known s mem, plain s mem⟩
  · exact all s mem

/-- The self type of a path without a trait stands in front of all segments. -/
theorem fitsPath_start {lt gt colons : Token} {type : Ty} {xs : Separated Segment}
    (ends : xs.acceptsValue = false) :
    (qualified lt type 0 none gt).FitsPath (.path (some colons) (ofSeparated xs)) := by
  refine ⟨Int.le_refl 0, ?_, by simp, fun _ => rfl⟩
  rw [segments, separated_ofSeparated]
  exact Int.natCast_pos.2 (Separated.length_pos ends)

/-- The self type of a joined path: the trait has a segment, and the rest has one. -/
theorem fitsPath_join {lt gt asToken colons : Token} {type : Ty} {trait : Path}
    {rest : Separated Segment} (h : OpenPath trait) (ends : rest.acceptsValue = false) :
    (qualified lt type trait.segments.toList.length (some asToken) gt).FitsPath
      (Parse.joinPath trait colons rest) := by
  cases trait with
  | path leading xs =>
  have wellFormed := h.wellFormed
  rw [← ofSeparated_separated xs] at wellFormed
  obtain ⟨ends', -, -⟩ := wellFormed_path.1 wellFormed
  have first := Separated.length_pos ends'
  have last := Separated.length_pos ends
  have length : (Parse.joinPath (.path leading xs) colons rest).segments.toList.length =
      xs.separated.toList.length + rest.toList.length := by
    simp [Parse.joinPath, segments, Separated.toList_join]
  have start : ((path leading xs).segments.toList.length : Int) ≠ 0 := by
    simp only [segments]
    omega
  refine ⟨Int.natCast_nonneg _, ?_, by simpa using start, fun zero => absurd zero start⟩
  rw [length]
  simp only [segments]
  omega

end Node

end TypeGrammar
