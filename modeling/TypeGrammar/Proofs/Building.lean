import TypeGrammar.Proofs.ReadingPaths

/-!
# Lists that are built value by value

A list with separators can be built by a builder that refuses a value after a value and a separator
without one. The parsers make their lists whole; here the same lists are built step by step, with
the faults of the builder, and no step is ever refused: neither in the loops that read a list, nor
where the pairs of one list are put into another, with an element changed or a separator between.
-/

namespace TypeGrammar

namespace Separated

variable {α : Type} {p : Separated α}

theorem addValue?_eq (accepts : p.acceptsValue = true) (t : Token) (v : α) :
    p.addValue? v = some (p.join t (.last v)) := by
  induction p with
  | empty => rfl
  | last w => simp [acceptsValue] at accepts
  | cons w s rest ih => rw [addValue?, ih accepts, join, Option.map_some]

theorem addSeparator?_eq (ends : p.acceptsValue = false) (s : Token) :
    p.addSeparator? s = some (p.close s) := by
  induction p with
  | empty => simp [acceptsValue] at ends
  | last w => rfl
  | cons w t rest ih =>
    rw [addSeparator?, ih ends]
    rfl

/-- A value and its separator come after values with all their separators. -/
theorem join_last (accepts : p.acceptsValue = true) (t s : Token) (v : α) :
    (p.join t (.last v)).acceptsValue = false ∧
      (p.join t (.last v)).close s = p.join t (.cons v s .empty) ∧
      (p.join t (.cons v s .empty)).acceptsValue = true := by
  induction p with
  | empty => exact ⟨rfl, rfl, rfl⟩
  | last w => simp [acceptsValue] at accepts
  | cons w s' rest ih =>
    obtain ⟨ends, closed, accepts⟩ := ih accepts
    exact ⟨ends, congrArg (cons w s') closed, accepts⟩

theorem join_cons (accepts : p.acceptsValue = true) (t s : Token) (v : α) (q : Separated α) :
    (p.join t (.cons v s .empty)).join t q = p.join t (.cons v s q) := by
  induction p with
  | empty => rfl
  | last w => simp [acceptsValue] at accepts
  | cons w s' rest ih => exact congrArg (cons w s') (ih accepts)

theorem join_empty (accepts : p.acceptsValue = true) (t : Token) : p.join t .empty = p := by
  induction p with
  | empty => rfl
  | last w => simp [acceptsValue] at accepts
  | cons w s' rest ih => exact congrArg (cons w s') (ih accepts)

/-- A list that ends in a value goes on after a separator. -/
theorem close_join (ends : p.acceptsValue = false) (s t : Token) (q : Separated α) :
    (p.close s).acceptsValue = true ∧ (p.close s).join t q = p.join s q := by
  induction p with
  | empty => simp [acceptsValue] at ends
  | last v => exact ⟨rfl, rfl⟩
  | cons v s' rest ih =>
    obtain ⟨accepts, joined⟩ := ih ends
    exact ⟨accepts, congrArg (cons v s') joined⟩

end Separated

namespace SeparatedBuilder

variable {α : Type} {b : SeparatedBuilder α}

/-- The list of a builder goes on with another list. -/
def followedBy (b : SeparatedBuilder α) (p : Separated α) : SeparatedBuilder α :=
  { b with items := b.items.join b.ownSeparator p }

theorem addValue_eq (accepts : b.items.acceptsValue = true) (v : α) :
    b.addValue v = .ok (b.followedBy (.last v)) := by
  rw [addValue, Separated.addValue?_eq accepts b.ownSeparator v]
  rfl

theorem addSeparator_eq (accepts : b.items.acceptsValue = true) (v : α) (s : Token) :
    (b.followedBy (.last v)).addSeparator s = .ok (b.followedBy (.cons v s .empty)) := by
  obtain ⟨ends, closed, -⟩ := Separated.join_last accepts b.ownSeparator s v
  rw [addSeparator, followedBy, Separated.addSeparator?_eq ends, closed]
  rfl

theorem acceptsValue_followedBy (accepts : b.items.acceptsValue = true) (v : α) (s : Token) :
    (b.followedBy (.cons v s .empty)).items.acceptsValue = true :=
  (Separated.join_last accepts b.ownSeparator s v).2.2

theorem followedBy_cons (accepts : b.items.acceptsValue = true) (v : α) (s : Token)
    (p : Separated α) :
    (b.followedBy (.cons v s .empty)).followedBy p = b.followedBy (.cons v s p) :=
  congrArg (SeparatedBuilder.mk b.separator) (Separated.join_cons accepts b.ownSeparator s v p)

/-- The pairs of a list are never refused where a value is accepted. -/
theorem extend_pairs (accepts : b.items.acceptsValue = true) (p : Separated α) :
    b.extend p.pairs = (b.followedBy p, none) := by
  induction p generalizing b with
  | empty =>
    simp only [Separated.pairs, extend, followedBy, Separated.join_empty accepts]
  | last v =>
    simp only [Separated.pairs, extend, addValue_eq accepts]
  | cons v s rest ih =>
    simp only [Separated.pairs, extend, addValue_eq accepts, addSeparator_eq accepts]
    rw [ih (acceptsValue_followedBy accepts v s), followedBy_cons accepts]

/-- The list of a builder with further pairs, or the fault that stopped them. -/
def extended (b : SeparatedBuilder α) (pairs : List (α × Option Token)) :
    Except SeparatedFault (Separated α) :=
  match b.extend pairs with
  | (b, none) => .ok b.items
  | (_, some fault) => .error fault

theorem extended_pairs (accepts : b.items.acceptsValue = true) (p : Separated α) :
    b.extended p.pairs = .ok (b.items.join b.ownSeparator p) := by
  rw [extended, extend_pairs accepts]
  rfl

end SeparatedBuilder

namespace Parser

variable {α : Type}

/-- What holds of the values of all runs. -/
def Always (p : Parser α) (P : α → Prop) : Prop :=
  ∀ {c a c'}, p c = .ok a c' → P a

/-! ## Loops -/

/-- The rest of a list after a value that is in the builder, with the faults of the builder. -/
def pushFrom (rule : ListRule) (item : Parser α) :
    (limit : Nat) → SeparatedBuilder α → Parser (Except SeparatedFault (SeparatedBuilder α))
  | 0, _ => fail .tooDeep
  | limit + 1, b => do
    if ← look rule.asks then
      match b.addSeparator (← punct rule.separator) with
      | .error fault => return .error fault
      | .ok b =>
        if ← look rule.again then
          match b.addValue (← item) with
          | .error fault => return .error fault
          | .ok b => pushFrom rule item limit b
        else return .ok b
    else return .ok b

/-- The rest of a list after a value that is in the builder, with the faults of the builder. -/
def pushAfter (rule : ListRule) (item : Parser α) (b : SeparatedBuilder α) :
    Parser (Except SeparatedFault (SeparatedBuilder α)) := fun c =>
  pushFrom rule item (c.rest.length + 1) b c

/-- A list that is built from nothing, with the faults of the builder. -/
def pushList1 (rule : ListRule) (item : Parser α) :
    Parser (Except SeparatedFault (SeparatedBuilder α)) := do
  match (SeparatedBuilder.empty rule.separator).addValue (← item) with
  | .error fault => return .error fault
  | .ok b => pushAfter rule item b

theorem pushFrom_eq (rule : ListRule) (item : Parser α) (limit : Nat) {b : SeparatedBuilder α}
    (accepts : b.items.acceptsValue = true) (v : α) :
    pushFrom rule item limit (b.followedBy (.last v)) =
      (fun xs => .ok (b.followedBy xs)) <$> listFrom rule item limit v := by
  induction limit generalizing b v with
  | zero => rfl
  | succ limit ih =>
    have accepts' (s : Token) := SeparatedBuilder.acceptsValue_followedBy accepts v s
    simp only [pushFrom, listFrom, map_bind]
    refine bind_congr fun asks => ?_
    split
    · simp only [map_bind]
      refine bind_congr fun s => ?_
      simp only [SeparatedBuilder.addSeparator_eq accepts]
      refine bind_congr fun again => ?_
      split
      · simp only [map_bind]
        refine bind_congr fun next => ?_
        simp only [SeparatedBuilder.addValue_eq (accepts' s)]
        rw [ih (accepts' s)]
        simp only [SeparatedBuilder.followedBy_cons accepts, map_eq_pure_bind, pure_bind]
      · simp only [map_pure]
    · simp only [map_pure]

theorem pushAfter_eq (rule : ListRule) (item : Parser α) (v : α) :
    pushAfter rule item ⟨rule.separator, .last v⟩ =
      (fun xs => .ok ⟨rule.separator, xs⟩) <$> listAfter rule item v := by
  have start : (SeparatedBuilder.empty rule.separator : SeparatedBuilder α).items.acceptsValue =
      true := rfl
  funext c
  exact congrFun (pushFrom_eq rule item (c.rest.length + 1) start v) c

theorem pushList1_eq (rule : ListRule) (item : Parser α) :
    pushList1 rule item = (fun xs => .ok ⟨rule.separator, xs⟩) <$> list1 rule item := by
  simp only [pushList1, list1, map_bind]
  refine bind_congr fun v => ?_
  have start : (SeparatedBuilder.empty rule.separator : SeparatedBuilder α).items.acceptsValue =
      true := rfl
  simp only [SeparatedBuilder.addValue_eq start]
  exact pushAfter_eq rule item v

end Parser

/-! ## Lists made from other lists -/

/-- The list with the given pairs, with the faults of the builder. -/
def Separated.rebuild {α : Type} (separator : String) (pairs : List (α × Option Token)) :
    Except SeparatedFault (Separated α) :=
  (SeparatedBuilder.empty separator).extended pairs

theorem Separated.rebuild_pairs {α : Type} (separator : String) (p : Separated α) :
    rebuild separator p.pairs = .ok p :=
  SeparatedBuilder.extended_pairs rfl p

theorem Separated.pairs_mapFirst {α : Type} (f : α → α) (p : Separated α) :
    (p.mapFirst f).pairs =
      match p.pairs with
      | [] => []
      | (v, s) :: rest => (f v, s) :: rest := by
  cases p <;> rfl

theorem Separated.pairs_mapLast {α : Type} (f : α → α) (p : Separated α) :
    (p.mapLast f).pairs =
      match p.pairs.getLast? with
      | none => []
      | some (v, s) => p.pairs.dropLast ++ [(f v, s)] := by
  induction p with
  | empty => rfl
  | last v => rfl
  | cons v s rest ih =>
    cases rest with
    | empty => rfl
    | last w => rfl
    | cons w s' more =>
      change (v, some s) :: ((cons w s' more).mapLast f).pairs = _
      rw [ih]
      simp only [pairs, List.getLast?_cons_cons, List.dropLast_cons_cons]
      cases last : ((w, some s') :: more.pairs).getLast? with
      | none => simp at last
      | some x => rfl

namespace Parse

open TypeGrammar.Parser

/-- A path with other arguments on its last segment; it may have none. -/
def pushFinalArguments (arguments : Node .arguments) : Path → Except SeparatedFault Path
  | .path leading segments =>
    match segments.separated.pairs.getLast? with
    | none => .error .outOfRange
    | some (s, separator) =>
      (Separated.rebuild "::" (segments.separated.pairs.dropLast ++
        [(Node.withArguments arguments s, separator)])).map
          fun xs => .path leading (.ofSeparated xs)

/-- The path of a trait that goes on after `::`. -/
def pushTrait (trait : Path) (colons : Token) (rest : Separated Segment) :
    Except SeparatedFault Path :=
  match trait with
  | .path leading segments => do
    let front ← Separated.rebuild "::" segments.separated.pairs
    let b ← (SeparatedBuilder.mk "::" front).addSeparator colons
    return .path leading (.ofSeparated (← b.extended rest.pairs))

/-- A trait object with a binder at its first bound, or nothing if that is no trait; there may be no
bound. Any other type is left as it is. -/
def pushBinder (binder : Binder) : Ty → Except SeparatedFault (Option Ty)
  | .traitObject dynToken bounds =>
    match bounds.separated.pairs with
    | [] => .error .outOfRange
    | (.traitBound paren modifier _ p, s) :: rest =>
      (Separated.rebuild "+" ((.traitBound paren modifier (some binder) p, s) :: rest)).map
        fun xs => some (.traitObject dynToken (.ofSeparated xs))
    | (.lifetimeBound _, _) :: _ => .ok none
  | ty => .ok (some ty)

/-- The elements of a tuple after the first one and its comma. -/
def pushTuple (first : Ty) (comma : Token) (rest : Separated Ty) :
    Except SeparatedFault (Separated Ty) := do
  let b ← (SeparatedBuilder.empty ",").addValue first
  (← b.addSeparator comma).extended rest.pairs

theorem pushFinalArguments_eq {p : Path} (ends : p.segments.acceptsValue = false)
    (arguments : Node .arguments) :
    pushFinalArguments arguments p = .ok (p.withFinalArguments arguments) := by
  cases p with
  | path leading segments =>
  simp only [pushFinalArguments]
  split
  · rename_i empty
    rw [List.getLast?_eq_none_iff, ← List.length_eq_zero_iff, Separated.length_pairs] at empty
    exact absurd empty (Nat.ne_of_gt (Separated.length_pos ends))
  · rename_i s separator last
    have same := Separated.pairs_mapLast (Node.withArguments arguments) segments.separated
    simp only [last] at same
    rw [← same, Separated.rebuild_pairs]
    rfl

theorem pushTrait_eq {trait : Path} (ends : trait.segments.acceptsValue = false) (colons : Token)
    (rest : Separated Segment) :
    pushTrait trait colons rest = .ok (joinPath trait colons rest) := by
  cases trait with
  | path leading segments =>
  let closed : SeparatedBuilder Segment := ⟨"::", segments.separated.close colons⟩
  obtain ⟨accepts, joined⟩ :=
    Separated.close_join (q := rest) ends colons closed.ownSeparator
  have added : (SeparatedBuilder.mk "::" segments.separated).addSeparator colons = .ok closed := by
    rw [SeparatedBuilder.addSeparator, Separated.addSeparator?_eq (p := segments.separated) ends]
  have extended := SeparatedBuilder.extended_pairs (b := closed) accepts rest
  simp only [pushTrait, Separated.rebuild_pairs]
  change (do
    let b ← (SeparatedBuilder.mk "::" segments.separated).addSeparator colons
    return Node.path leading (.ofSeparated (← b.extended rest.pairs))) = _
  rw [added]
  change (do return Node.path leading (.ofSeparated (← closed.extended rest.pairs))) = _
  rw [extended]
  exact congrArg (fun xs => Except.ok (Node.path leading (.ofSeparated xs))) joined

/-- A binder goes to the first bound of a trait object if that is a trait. -/
theorem withBinder_eq {binder : Binder} {dynToken : Option Token} {bounds : Separated Bound}
    {paren : Option Delim} {modifier : Option Token} {old : Option Binder} {p : Path}
    (starts : bounds.first? = some (.traitBound paren modifier old p)) :
    ∃ attach : Bound → Bound,
      attach (.traitBound paren modifier old p) = .traitBound paren modifier (some binder) p ∧
      withBinder binder (.traitObject dynToken (.ofSeparated bounds)) =
        pure (.traitObject dynToken (.ofSeparated (bounds.mapFirst attach))) := by
  simp only [withBinder, Node.separated_ofSeparated, starts]
  exact ⟨_, rfl, rfl⟩

theorem pushBinder_eq {dynToken : Option Token} {bounds : Separated Bound} {first : Bound}
    (binder : Binder) (starts : bounds.first? = some first) :
    ∃ t, pushBinder binder (.traitObject dynToken (.ofSeparated bounds)) = .ok t ∧
      withBinder binder (.traitObject dynToken (.ofSeparated bounds)) =
        t.elim (fail .binderWithoutTrait) pure := by
  have eq : ∃ s rest, bounds.pairs = (first, s) :: rest := by
    cases bounds <;> cases starts <;> exact ⟨_, _, rfl⟩
  obtain ⟨s, rest, eq⟩ := eq
  cases first with
  | traitBound paren modifier old p =>
    obtain ⟨attach, attached, run⟩ := @withBinder_eq binder dynToken _ _ _ _ _ starts
    have same : (bounds.mapFirst attach).pairs =
        (.traitBound paren modifier (some binder) p, s) :: rest := by
      rw [Separated.pairs_mapFirst, eq]
      simp only [attached]
    refine ⟨some (.traitObject dynToken (.ofSeparated (bounds.mapFirst attach))), ?_, run⟩
    simp only [pushBinder, Node.separated_ofSeparated, eq]
    rw [← same, Separated.rebuild_pairs]
    rfl
  | lifetimeBound l =>
    refine ⟨none, by simp only [pushBinder, Node.separated_ofSeparated, eq], ?_⟩
    simp only [withBinder, Node.separated_ofSeparated, starts, Option.elim]

theorem pushTuple_eq (first : Ty) (comma : Token) (rest : Separated Ty) :
    pushTuple first comma rest = .ok (.cons first comma rest) :=
  SeparatedBuilder.extended_pairs (b := ⟨",", .cons first comma .empty⟩) rfl rest

variable {g : Grammar} {c c' : Cursor}

/-! ## Lists in nodes that were read -/

theorem path_ends {inExpr : Bool} :
    (path g inExpr).Always fun p => p.segments.acceptsValue = false := by
  intro c p c' h
  simp only [path, bind_ok, pure_ok] at h
  obtain ⟨leading, c₁, -, xs, _, run, rfl, rfl⟩ := h
  rw [Node.segments, Node.separated_ofSeparated]
  exact segments_ends run

theorem qualifiedPath_ends {inExpr : Bool} :
    (qualifiedPath g inExpr).Always fun x => x.2.segments.acceptsValue = false := by
  intro c x c' h
  unfold qualifiedPath at h
  simp only [↓look_ite_ok, bind_ok, pure_ok] at h
  obtain ⟨-, lt, c₁, -, type, c₂, -, asToken, c₃, -, h⟩ | ⟨-, p, _, run, rfl, rfl⟩ := h
  · cases asToken with
    | none =>
      simp only [Option.isSome_none, Bool.false_eq_true, if_false, bind_ok, pure_ok] at h
      obtain ⟨_, _, ⟨rfl, rfl⟩, gt, _, -, colons, _, -, xs, _, run, rfl, rfl⟩ := h
      rw [Node.segments, Node.separated_ofSeparated]
      exact segments_ends run
    | some asToken =>
      simp only [Option.isSome_some, if_true, bind_ok, map_ok] at h
      obtain ⟨_, _, ⟨trait, -, rfl⟩, gt, _, -, colons, _, -, xs, _, run, h⟩ := h
      obtain ⟨rfl, rfl⟩ := pure_ok.1 h
      cases trait with
      | path leading segments =>
        simp only [joinPath, Node.segments, Node.separated_ofSeparated]
        exact Separated.acceptsValue_join colons (segments_ends run)
  · exact path_ends run

/-- A trait object has a first bound. -/
theorem traitObject_starts {plus : Bool} : (traitObject g plus).Always fun t =>
    ∃ dynToken bounds b, t = .traitObject dynToken (.ofSeparated bounds) ∧
      bounds.first? = some b := by
  intro c t c' h
  unfold traitObject at h
  simp only [bind_ok] at h
  obtain ⟨dynToken, _, -, bounds, _, run, h⟩ := h
  split at h
  · obtain ⟨rfl, rfl⟩ := pure_ok.1 h
    unfold objectBounds at run
    split at run
    · obtain ⟨first, _, -, rest⟩ := list1_ok run
      exact ⟨dynToken, bounds, first, rfl, listFrom_first rest⟩
    · obtain ⟨b, -, rfl⟩ := map_ok.1 run
      exact ⟨dynToken, _, b, rfl, rfl⟩
  · simp [fail_ok] at h

/-- What is done to the lists of nodes that were read is never refused by a builder. -/
structure Builds (g : Grammar) : Prop where
  loop : ∀ {α : Type} (rule : ListRule) (item : Parser α),
    pushList1 rule item = (fun xs => .ok ⟨rule.separator, xs⟩) <$> list1 rule item
  rest : ∀ {α : Type} (rule : ListRule) (item : Parser α) (v : α),
    pushAfter rule item ⟨rule.separator, .last v⟩ =
      (fun xs => .ok ⟨rule.separator, xs⟩) <$> listAfter rule item v
  arguments : ∀ inExpr, (path g inExpr).Always fun p =>
    ∀ a, pushFinalArguments a p = .ok (p.withFinalArguments a)
  qualifiedArguments : ∀ inExpr, (qualifiedPath g inExpr).Always fun x =>
    ∀ a, pushFinalArguments a x.2 = .ok (x.2.withFinalArguments a)
  trait : ∀ inExpr, (path g inExpr).Always fun trait =>
    ∀ colons rest, pushTrait trait colons rest = .ok (joinPath trait colons rest)
  binder : ∀ plus, (traitObject g plus).Always fun object =>
    ∀ b, ∃ t, pushBinder b object = .ok t ∧
      withBinder b object = t.elim (fail .binderWithoutTrait) pure
  tuple : ∀ first comma rest, pushTuple first comma rest = .ok (.cons first comma rest)

theorem builds (g : Grammar) : Builds g where
  loop := pushList1_eq
  rest := pushAfter_eq
  arguments _ _ _ _ run := pushFinalArguments_eq (path_ends run)
  qualifiedArguments _ _ _ _ run := pushFinalArguments_eq (qualifiedPath_ends run)
  trait _ _ _ _ run := pushTrait_eq (path_ends run)
  binder plus _ object _ run b := by
    obtain ⟨dynToken, bounds, first, rfl, starts⟩ := traitObject_starts run
    exact pushBinder_eq b starts
  tuple := pushTuple_eq

end Parse

end TypeGrammar
