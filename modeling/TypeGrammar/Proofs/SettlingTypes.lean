import TypeGrammar.Proofs.Settling
import TypeGrammar.Proofs.WellFormed

/-!
# Every parser settles

Each parser of the grammar settles, and its value is well formed, if the parsers for nested syntax
settle so at smaller cursors. A parser that takes a tree before it asks for nested syntax settles at
one tree more than those; so the parsers of depth `n` settle at all cursors with fewer than `n`
trees ahead, and agree there with all deeper ones.
-/

namespace TypeGrammar

open TokenTree

/-- Parsers for nested syntax that settle at cursors with fewer than `n` trees ahead. -/
structure Grammar.Settles (n : Nat) (g g' : Grammar) : Prop where
  type : ∀ plus, TypeGrammar.Settles 1 n (g.type plus) (g'.type plus) Node.WellFormed
  bound : TypeGrammar.Settles 1 n g.bound g'.bound Node.WellFormed
  expr : ∀ power, TypeGrammar.Settles 1 n (g.expr power) (g'.expr power) Node.WellFormed

namespace Parse

open TypeGrammar.Parser

variable {n : Nat} {g g' : Grammar}

/-! ## Lifetimes and attributes -/

theorem attributesUpTo_settles {limit : Nat} {c : Cursor} (enough : c.rest.length < limit) :
    SettlesAt 0 c (attributesUpTo limit) (attributesUpTo limit) fun _ => True := by
  induction limit generalizing c with
  | zero => exact absurd enough (Nat.not_lt_zero _)
  | succ limit ih =>
    simp only [attributesUpTo]
    refine .look ?_
    split
    · refine ((punct_settles "#" (Nat.lt_succ_self _)).bind (b := 0) fun _ i taken _ _ => ?_).mono
        (Nat.zero_le _) fun _ => id
      refine ((rawGroup_settles .bracket (Nat.lt_succ_self _)).bind (b := 0)
        fun _ j _ _ _ => ?_).mono (Nat.zero_le _) fun _ => id
      have rest := ih (c := (c.skip i).skip j) (by simp only [Cursor.length_skip]; omega)
      exact rest.bind (b := 0) fun _ _ _ _ _ => .pure trivial
    · exact .pure trivial

theorem attributes_settles : Settles 0 n attributes attributes fun _ => True :=
  fun _ _ => attributesUpTo_settles (Nat.lt_succ_self _)

theorem lifetime_settles : Settles 1 n lifetime lifetime fun _ => True :=
  (take_settles _).returning fun _ => id

theorem lifetime?_settles : Settles 0 n lifetime? lifetime? fun _ => True :=
  .ite (fun _ _ => (lifetime_settles.returning fun _ => id).any) fun _ _ => .pure trivial

theorem lifetimeDef_settles : Settles 1 n lifetimeDef lifetimeDef fun _ => True := by
  refine attributes_settles.bind fun _ _ => lifetime_settles.keep fun _ _ =>
    (punct?_settles ":").keep (b := 0) fun colon _ => ?_
  cases colon with
  | none => exact .pure trivial
  | some colon => exact (list_settles lifetime_settles).returning fun _ _ => trivial

theorem binder_settles : Settles 1 n binder binder fun _ => True :=
  (take_settles _).keep fun _ _ => (punct_settles _).keep fun _ _ =>
    (list_settles lifetimeDef_settles).keep fun _ _ => (punct_settles _).returning fun _ => id

theorem binder?_settles : Settles 0 n binder? binder? fun _ => True :=
  .ite (fun _ _ => (binder_settles.returning fun _ => id).any) fun _ _ => .pure trivial

theorem abi_settles : Settles 1 n abi abi fun _ => True :=
  (take_settles _).keep fun _ _ => .ite
    (fun _ _ => ((take_settles _).returning fun _ => id).any) fun _ _ => .pure trivial

/-! ## Paths -/

section

variable (h : g.Settles n g')
include h

theorem output_settles (plus : Bool) :
    Settles 0 n (output g plus) (output g' plus) Node.WellFormed :=
  .ite (fun _ _ => ((punct_settles _).keep fun _ _ =>
    (h.type plus).returning fun _ known => ⟨trivial, known⟩).any)
    fun _ _ => .pure ⟨trivial, trivial⟩

theorem parenthesizedArgs_settles :
    Settles 1 (n + 1) (parenthesizedArgs g) (parenthesizedArgs g') Node.WellFormed :=
  (inGroup_settles .paren (list_settles (h.type true))).next fun _ inputs =>
    (output_settles h false).returning fun _ known =>
      ⟨trivial, Node.wellFormed_ofSeparated.2 inputs.all, known⟩

theorem argument_settles : Settles 1 n (argument g) (argument g') Node.WellFormed :=
  .ite (fun _ _ => lifetime_settles.returning fun _ _ => ⟨trivial, trivial⟩) fun _ _ =>
  .ite (fun _ _ => (take_settles _).keep fun _ _ => (punct_settles _).keep fun _ _ =>
    (h.type true).returning fun _ known => ⟨trivial, known⟩) fun _ _ =>
  .ite (fun _ _ => (take_settles _).keep fun _ _ => (punct_settles _).keep fun _ _ =>
    (list_settles h.bound).returning fun _ bounds =>
      ⟨trivial, Node.wellFormed_ofSeparated.2 bounds.all⟩) fun _ _ =>
  .ite (fun _ _ => (take_settles _).returning fun _ _ => ⟨trivial, trivial, trivial⟩) fun _ _ =>
  .ite (fun _ _ => (rawGroup_settles _).returning fun _ _ => ⟨trivial, trivial, trivial⟩) fun _ _ =>
    (h.type true).returning fun _ known => ⟨trivial, known⟩

theorem angleArgs_settles : Settles 1 n (angleArgs g) (angleArgs g')
    fun a => a.WellFormed ∧ ∀ ident, (Node.segment ident a).hasInputs = false :=
  (punct?_settles _).bind fun _ _ => (punct_settles _).keep fun _ _ =>
    (list_settles (argument_settles h)).keep fun _ args => (punct_settles _).returning fun _ _ =>
      ⟨⟨trivial, Node.wellFormed_ofSeparated.2 args.all⟩, fun _ => rfl⟩

theorem segment_settles (inExpr : Bool) : Settles 1 (n + 1) (segment g inExpr) (segment g' inExpr)
    fun s => s.WellFormed ∧ s.hasInputs = false := by
  refine .ite (fun _ _ => anyWord_settles.returning fun _ _ => ⟨⟨trivial, trivial, trivial⟩, rfl⟩)
    fun _ _ => ?_
  refine .ite (fun _ _ => anyWord_settles.next (b := 0) ?_) fun _ _ =>
    (take_settles _).next (b := 0) ?_
  all_goals
    exact fun ident _ => .ite (fun _ _ => ((angleArgs_settles h).returning fun _ known =>
      ⟨⟨trivial, known.1⟩, known.2 ident⟩).any) fun _ _ => .pure ⟨⟨trivial, trivial, trivial⟩, rfl⟩

/-- Segments with `::` between them: there is one, and none is missing at the end. -/
theorem segments_settles (inExpr : Bool) :
    Settles 1 (n + 1) (list1 (joined "::") (segment g inExpr))
      (list1 (joined "::") (segment g' inExpr)) fun xs =>
        xs.acceptsValue = false ∧ ∀ s ∈ xs.toList, s.WellFormed ∧ s.hasInputs = false :=
  (list1_settles (segment_settles h inExpr)).weaken fun _ read =>
    ⟨read.1.ends fun _ => rfl, read.1.all⟩

theorem path_settles (inExpr : Bool) :
    Settles 1 (n + 1) (path g inExpr) (path g' inExpr) Node.OpenPath :=
  (punct?_settles _).bind fun _ _ => (segments_settles h inExpr).returning fun _ read =>
    Node.openPath_path read.1 read.2

theorem pathWithInputs_settles :
    Settles 1 (n + 1) (pathWithInputs g) (pathWithInputs g') Node.WellFormed :=
  (path_settles h false).keep fun _ known => .ite
    (fun _ _ => ((parenthesizedArgs_settles h).returning fun _ => known.withFinalArguments).any)
    fun _ _ => .pure known.wellFormed

theorem qualifiedPath_settles (inExpr : Bool) :
    Settles 1 (n + 1) (qualifiedPath g inExpr) (qualifiedPath g' inExpr)
      fun x => x.1.WellFormed ∧ x.1.FitsPath x.2 ∧ Node.OpenPath x.2 := by
  refine .ite (fun _ _ => (punct_settles _).next (b := 0) fun lt _ =>
    (h.type true).bind (b := 0) fun type known => (keyword?_settles _).bind (b := 0)
    fun asToken _ => ?_) fun _ _ => ?_
  · cases asToken with
    | none =>
      refine (Settles.pure (P := (· = none)) rfl).bind (b := 0) ?_
      rintro _ rfl
      refine (punct_settles _).bind (b := 0) fun gt _ => (punct_settles _).bind (b := 0)
        fun colons _ => ((segments_settles h inExpr).smaller.returning fun xs read => ?_).any
      exact ⟨⟨trivial, known⟩, Node.fitsPath_start read.1, Node.openPath_path read.1 read.2⟩
    | some asToken =>
      have trait : Settles 0 n (some <$> path g false) (some <$> path g' false)
          fun x => ∃ p, x = some p ∧ Node.OpenPath p :=
        ((path_settles h false).smaller.map fun p open' => ⟨p, rfl, open'⟩).any
      refine trait.bind (b := 0) ?_
      rintro _ ⟨trait, rfl, open'⟩
      refine (punct_settles _).bind (b := 0) fun gt _ => (punct_settles _).bind (b := 0)
        fun colons _ => ((segments_settles h inExpr).smaller.returning fun xs read => ?_).any
      exact ⟨⟨trivial, known⟩, Node.fitsPath_join open' read.1, open'.join read.1 read.2⟩
  · exact (path_settles h inExpr).returning fun _ known => ⟨⟨trivial, trivial⟩, trivial, known⟩

omit h in
theorem invocation_settles {p : Path} (known : p.WellFormed) (plain : p.hasNoArguments = true) :
    Settles 1 n (invocation p) (invocation p) Node.WellFormed :=
  (punct_settles _).keep fun _ _ => anyGroup_settles.returning fun _ _ => ⟨plain, known⟩

/-! ## Bounds -/

theorem traitBound_settles : Settles 1 (n + 1) (traitBound g) (traitBound g')
    fun b => b.WellFormed ∧ isTrait b = true :=
  (punct?_settles _).bind fun _ _ => binder?_settles.bind fun _ _ =>
    (pathWithInputs_settles h).returning fun _ known => ⟨⟨trivial, known⟩, rfl⟩

omit h in
theorem inParens_wellFormed {b : Bound} (paren : Delim) (known : b.WellFormed) :
    (inParens paren b).WellFormed := by
  cases b with
  | traitBound old modifier binder p => exact ⟨trivial, known.2⟩
  | lifetimeBound l => exact known

theorem bound_settles : Settles 1 (n + 1) (bound g) (bound g') Node.WellFormed :=
  .ite (fun _ _ => lifetime_settles.returning fun _ _ => ⟨trivial, trivial⟩) fun _ _ =>
  .ite (fun _ _ => (inGroup_settles .paren (traitBound_settles h).smaller).returning
    fun x known => inParens_wellFormed x.1 known.1) fun _ _ =>
  (traitBound_settles h).weaken fun _ => And.left

/-! ## Expressions -/

theorem pathOrMacro_settles :
    Settles 1 (n + 1) (pathOrMacro g) (pathOrMacro g') Node.WellFormed := by
  refine (qualifiedPath_settles h true).keep fun x known => .ite (fun ts on => ?_)
    fun _ _ => .pure ⟨known.2.1, known.1, known.2.2.wellFormed⟩
  simp only [Bool.and_eq_true] at on
  exact ((invocation_settles known.2.2.wellFormed on.2).returning
    fun _ known => ⟨trivial, known⟩).any

theorem operand_settles : Settles 1 (n + 1) (operand g) (operand g') Node.WellFormed := by
  refine .look fun ts => ?_
  cases unaryOperator? ts with
  | some op =>
    exact (punct_settles _).next fun _ _ => (h.expr unaryPower).returning
      fun _ known => ⟨trivial, known⟩
  | none =>
    refine .ite (fun _ _ => (take_settles _).returning fun _ _ => ⟨trivial, trivial⟩) fun _ _ =>
      .ite (fun _ _ => (take_settles _).returning fun _ _ => ⟨trivial, trivial⟩) fun _ _ =>
      .ite (fun _ _ => (take_settles _).returning fun _ _ => ⟨trivial, trivial⟩) fun _ _ =>
      .ite (fun _ _ => (inGroup_settles .paren (h.expr 0)).returning
        fun _ known => ⟨trivial, known⟩) fun _ _ =>
      .ite (fun _ _ => (rawGroup_settles .brace).returning fun _ _ => ⟨trivial, trivial⟩) fun _ _ =>
      .ite (fun _ _ => pathOrMacro_settles h) fun _ _ => .failNoneOf

/-- Every turn of the loop takes an operator or a group. -/
theorem operatorsAfter_settles {power limit : Nat} {left : Expr} {c : Cursor}
    (small : c.size < n + 1) (enough : c.rest.length < limit) (known : left.WellFormed) :
    SettlesAt 0 c (operatorsAfter g power limit left) (operatorsAfter g' power limit left)
      Node.WellFormed := by
  induction limit generalizing left c with
  | zero => exact absurd enough (Nat.not_lt_zero _)
  | succ limit ih =>
    have again {i : Nat} {e : Expr} (taken : 1 ≤ i) (inside : i ≤ c.rest.length)
        (known : e.WellFormed) : SettlesAt 0 (c.skip i) (operatorsAfter g power limit e)
          (operatorsAfter g' power limit e) Node.WellFormed := by
      have less := Cursor.size_skip inside
      exact ih (by omega) (by rw [Cursor.length_skip]; omega) known
    -- an operator with its right side, and what comes after them
    have operator {α : Type} {mark : Parser Token} {q q' : Parser α} {P : α → Prop}
        {f : Token → α → Expr} (first : Settles 1 (n + 1) mark mark fun _ => True)
        (second : Settles 1 n q q' P) (value : ∀ t x, P x → (f t x).WellFormed) :
        SettlesAt 0 c (mark >>= fun t => q >>= fun x => operatorsAfter g power limit (f t x))
          (mark >>= fun t => q' >>= fun x => operatorsAfter g' power limit (f t x))
          Node.WellFormed := by
      refine ((first small).bind (b := 0) fun t i taken inside _ => ?_).mono (Nat.zero_le _)
        fun _ => id
      have less := Cursor.size_skip inside
      refine ((second (by omega)).bind (b := 0) fun x j taken' inside' good => ?_).mono
        (Nat.zero_le _) fun _ => id
      rw [Cursor.skip_skip]
      rw [Cursor.length_skip] at inside'
      exact again (by omega) (by omega) (value t x good)
    simp only [operatorsAfter]
    refine .look ?_
    split
    · split
      · exact .pure known
      · refine ((inGroup_settles .paren (list_settles (h.expr 0)) small).bind (b := 0)
          fun x i taken inside args => ?_).mono (Nat.zero_le _) fun _ => id
        exact again taken inside ⟨trivial, known, Node.wellFormed_ofSeparated.2 args.all⟩
    refine .look ?_
    split
    · split
      · exact .pure known
      · exact operator (take_settles _) (h.type false) fun _ _ good => ⟨trivial, known, good⟩
    refine .look ?_
    split
    · exact .pure known
    · split
      · exact .pure known
      · exact operator (punct_settles _) (h.expr _) fun _ _ good => ⟨trivial, known, good⟩

theorem expr_settles (power : Nat) :
    Settles 1 (n + 1) (expr g power) (expr g' power) Node.WellFormed :=
  (operand_settles h).keep (b := 0) fun _ known _ small =>
    operatorsAfter_settles h small (Nat.lt_succ_self _) known

/-! ## Types -/

theorem objectBounds_settles (plus : Bool) :
    Settles 1 (n + 1) (objectBounds g plus) (objectBounds g' plus)
      fun xs => ∀ b ∈ xs.toList, b.WellFormed := by
  cases plus with
  | true => exact (list1_settles (bound_settles h)).weaken fun _ read => read.1.all
  | false =>
    exact (bound_settles h).map fun b known b' mem => List.mem_singleton.1 mem ▸ known

omit h in
theorem traitObject_wellFormed {dynToken : Option Token} {xs : Separated Bound}
    (trait : ∃ b ∈ xs.toList, isTrait b = true) (known : ∀ b ∈ xs.toList, b.WellFormed) :
    (Node.traitObject dynToken (.ofSeparated xs)).WellFormed := by
  refine ⟨?_, Node.wellFormed_ofSeparated.2 known⟩
  rwa [Node.Sound, Node.separated_ofSeparated]

theorem traitObject_settles (plus : Bool) :
    Settles 1 (n + 1) (traitObject g plus) (traitObject g' plus)
      Node.WellFormed := by
  refine (keyword?_settles _).bind fun dynToken _ => (objectBounds_settles h plus).keep (b := 0)
    fun bounds known => ?_
  split
  · rename_i trait
    exact .pure (traitObject_wellFormed (List.any_eq_true.1 trait) known)
  · exact .fail (by decide)

theorem implTrait_settles : Settles 1 (n + 1) (implTrait g) (implTrait g') Node.WellFormed := by
  refine (take_settles _).keep fun _ _ => (list1_settles (bound_settles h)).returning
    fun bounds read => ⟨?_, Node.wellFormed_ofSeparated.2 read.1.all⟩
  have ends := read.1.ends fun _ => rfl
  rw [Separated.acceptsValue_eq, Bool.or_eq_false_iff, List.isEmpty_eq_false_iff] at ends
  rwa [Node.Sound, Node.separated_ofSeparated]

theorem fnArg_settles : Settles 1 n (fnArg g) (fnArg g') Node.WellFormed :=
  attributes_settles.bind fun _ _ => .ite
    (fun _ _ => anyWord_settles.keep fun _ _ => (punct_settles _).keep fun _ _ =>
      (h.type true).returning fun _ known => ⟨trivial, known⟩)
    fun _ _ => (h.type true).returning fun _ known => ⟨trivial, known⟩

theorem fnInputsAndDots_settles :
    Settles 0 n (fnInputsAndDots g) (fnInputsAndDots g') fun x =>
      (∀ a ∈ x.1.toList, a.WellFormed) ∧ (x.2.isSome → x.1.acceptsValue = true) := by
  refine (list_settles (fnArg_settles h)).bind fun inputs read => .ite (fun ts on => ?_)
    fun _ _ => .pure ⟨read.all, nofun⟩
  rw [Bool.and_eq_true] at on
  exact ((punct_settles _).returning fun _ _ => ⟨read.all, fun _ => on.1⟩).any

theorem bareFnAfter_settles (b : Option Binder) :
    Settles 1 (n + 1) (bareFnAfter g b) (bareFnAfter g' b) Node.WellFormed := by
  refine (keyword?_settles _).bind fun unsafety _ => .ite
    (fun _ _ => (abi_settles.map (Q := fun _ => True) fun _ => id).bind (b := 1) ?_)
    fun _ _ => (Settles.pure (P := fun _ => True) trivial).bind (b := 1) ?_
  all_goals
    intro convention _
    refine (take_settles _).keep fun fnToken _ =>
      (inGroup_settles .paren (fnInputsAndDots_settles h)).next fun x inputs =>
      (output_settles h false).returning fun o known =>
        ⟨fun dots => ?_, Node.wellFormed_ofSeparated.2 inputs.1, known⟩
    have accepts := inputs.2 dots
    rw [Node.separated_ofSeparated]
    rwa [Separated.acceptsValue_eq, Bool.or_eq_true, List.isEmpty_iff] at accepts

theorem bareFn_settles : Settles 1 (n + 1) (bareFn g) (bareFn g') Node.WellFormed :=
  binder?_settles.bind fun b _ => bareFnAfter_settles h b

theorem groupType_settles : Settles 1 (n + 1) (groupType g) (groupType g') Node.WellFormed :=
  (inGroup_settles .invisible (h.type true)).returning fun _ known => ⟨trivial, known⟩

theorem arrayOrSlice_settles :
    Settles 1 (n + 1) (arrayOrSlice g) (arrayOrSlice g') Node.WellFormed := by
  have contents : Settles 1 n (arrayOrSliceContents g) (arrayOrSliceContents g') fun x =>
      x.1.WellFormed ∧ ∀ length ∈ x.2, length.2.WellFormed :=
    (h.type true).keep fun _ known => .ite
      (fun _ _ => ((punct_settles _).keep fun _ _ => (h.expr 0).returning fun _ length =>
        ⟨known, by simpa using length⟩).any)
      fun _ _ => .pure ⟨known, nofun⟩
  refine (inGroup_settles .bracket contents).keep (b := 0) ?_
  rintro ⟨bracket, elem, length⟩ ⟨known, fits⟩
  cases length with
  | some length => exact .pure ⟨trivial, known, fits length rfl⟩
  | none => exact .pure ⟨trivial, known⟩

omit h in
theorem never_settles : Settles 1 n never never Node.WellFormed :=
  .ite (fun _ _ => .fail (by decide)) fun _ _ =>
    (punct_settles _).returning fun _ _ => ⟨trivial, trivial⟩

omit h in
theorem infer_settles : Settles 1 n infer infer Node.WellFormed :=
  (take_settles _).returning fun _ _ => ⟨trivial, trivial⟩

theorem pointer_settles : Settles 1 (n + 1) (pointer g) (pointer g') Node.WellFormed :=
  (punct_settles _).next fun _ _ => .ite
    (fun _ _ => (take_settles _).keep fun _ _ => (h.type false).returning
      fun _ known => ⟨by simp [Node.Sound], known⟩) fun _ _ => .ite
    (fun _ _ => (take_settles _).keep fun _ _ => (h.type false).returning
      fun _ known => ⟨by simp [Node.Sound], known⟩) fun _ _ => .failNoneOf

theorem reference_settles : Settles 1 (n + 1) (reference g) (reference g') Node.WellFormed :=
  (punct_settles _).next fun _ _ => lifetime?_settles.bind fun _ _ =>
    (keyword?_settles _).bind fun _ _ => (h.type false).returning fun _ known => ⟨trivial, known⟩

theorem qualifiedPathWithInputs_settles :
    Settles 1 (n + 1) (qualifiedPathWithInputs g) (qualifiedPathWithInputs g')
      fun x => x.1.WellFormed ∧ x.1.FitsPath x.2 ∧ x.2.WellFormed :=
  (qualifiedPath_settles h false).keep fun _ known => .ite
    (fun _ _ => ((parenthesizedArgs_settles h).returning fun a args =>
      ⟨known.1, known.2.1.withFinalArguments a, known.2.2.withFinalArguments args⟩).any)
    fun _ _ => .pure ⟨known.1, known.2.1, known.2.2.wellFormed⟩

omit h in
/-- A binder leaves a trait at the front of the bounds. -/
theorem withBinder_settles {b : Binder} {t : Ty} (known : t.WellFormed) :
    Settles 0 n (withBinder b t) (withBinder b t) Node.WellFormed := by
  unfold withBinder
  split
  · rename_i dynToken bounds
    have all := Node.wellFormed_list.1 known.2
    split
    · rename_i paren modifier binder p first
      dsimp only
      refine .pure (traitObject_wellFormed ?_ ?_)
      all_goals
        obtain ⟨mem, eq⟩ := Separated.toList_mapFirst _ first
        rw [eq]
      · exact ⟨_, List.mem_cons_self, rfl⟩
      · intro x mem'
        obtain rfl | mem' := List.mem_cons.1 mem'
        · exact ⟨trivial, (all _ mem).2⟩
        · exact all x (List.mem_of_mem_tail mem')
    · exact .fail (by decide)
  · exact .pure known

theorem pathLike_settles (b : Option Binder) (plus : Bool) :
    Settles 1 (n + 1) (pathLike g b plus) (pathLike g' b plus) Node.WellFormed := by
  refine .ite (fun _ _ => ?_) fun _ _ => ?_
  · refine (traitObject_settles h plus).keep (b := 0) fun object known => ?_
    cases b with
    | some b => exact withBinder_settles known
    | none => exact .pure known
  · refine (qualifiedPathWithInputs_settles h).keep (b := 0) ?_
    rintro ⟨self, p⟩ ⟨self', fits, known⟩
    dsimp only
    split
    · exact .pure ⟨fits, self', known⟩
    · refine .ite (fun ts on => ?_) fun _ _ => .ite (fun _ _ => ?_) fun _ _ =>
        .pure ⟨fits, self', known⟩
      · rw [Bool.and_eq_true] at on
        exact ((invocation_settles known on.2).returning fun _ call => ⟨trivial, call⟩).any
      · have first : (Node.traitBound none none b p).WellFormed := ⟨trivial, known⟩
        cases plus with
        | true =>
          exact ((listAfter_settles (bound_settles h) first).returning fun xs read =>
            traitObject_wellFormed ⟨_, Separated.mem_of_first? read.2, rfl⟩ read.1.all)
        | false =>
          refine .pure (traitObject_wellFormed ⟨_, List.mem_singleton_self _, rfl⟩ ?_)
          exact fun x mem => List.mem_singleton.1 mem ▸ first

/-- A trait object that goes on after a trait. -/
theorem objectAfter_settles {b : Bound} (known : b.WellFormed) (trait : isTrait b = true) :
    Settles 0 (n + 1) (objectAfter g b) (objectAfter g' b) Node.WellFormed :=
  (listAfter_settles (bound_settles h) known).returning fun _ read =>
    traitObject_wellFormed ⟨b, Separated.mem_of_first? read.2, trait⟩ read.1.all

omit h in
theorem boundOfType?_wellFormed {paren : Delim} {t : Ty} {b : Bound} (known : t.WellFormed)
    (eq : boundOfType? paren t = some b) : b.WellFormed ∧ isTrait b = true := by
  unfold boundOfType? at eq
  split at eq
  · cases eq
    exact ⟨⟨trivial, known.2.2⟩, rfl⟩
  · rename_i bounds
    split at eq
    · rename_i b' single
      cases eq
      obtain ⟨⟨b'', mem, trait⟩, all⟩ := known
      have all := Node.wellFormed_list.1 all
      rw [single] at mem all
      obtain rfl := List.mem_singleton.1 mem
      refine ⟨inParens_wellFormed paren (all b'' mem), ?_⟩
      cases b'' with
      | traitBound => rfl
      | lifetimeBound => cases trait
    · cases eq
  · cases eq

/-- What is known of the contents of parentheses. -/
def Parenthesized.WellFormed : Parenthesized → Prop
  | .tuple elems =>
    (∀ t ∈ elems.toList, t.WellFormed) ∧ (elems.toList.length = 1 → elems.trailing = true)
  | .object elem => elem.WellFormed
  | .bound b => b.WellFormed ∧ isTrait b = true
  | .type elem => elem.WellFormed

theorem parenContents_settles :
    Settles 0 n (parenContents g) (parenContents g') Parenthesized.WellFormed := by
  refine .ite (fun _ _ => .pure ⟨by simp [Separated.toList], nofun⟩) fun _ _ =>
    .ite (fun _ _ => .any ((traitObject_settles h true).smaller.returning fun _ => id)) fun _ _ =>
    .ite (fun _ _ => .any ((traitBound_settles h).smaller.returning fun _ => id)) fun _ _ => ?_
  refine .any ((h.type true).keep (b := 0) fun first known => .ite (fun _ _ => ?_)
    fun _ _ => .pure known)
  refine ((punct_settles _).keep fun comma _ =>
    (list_settles (h.type true)).returning fun xs read => ⟨?_, ?_⟩).any
  · simpa [Separated.toList, known] using read.all
  · intro single
    cases xs with
    | empty => rfl
    | last => simp [Separated.toList] at single
    | cons => simp [Separated.toList] at single

theorem parenthesized_settles (plus : Bool) :
    Settles 1 (n + 1) (parenthesized g plus) (parenthesized g' plus) Node.WellFormed := by
  refine (inGroup_settles .paren (parenContents_settles h)).keep (b := 0) ?_
  rintro ⟨paren, contents⟩ known
  cases contents with
  | tuple elems =>
    refine .pure ⟨?_, Node.wellFormed_ofSeparated.2 known.1⟩
    rw [Node.Sound, Node.separated_ofSeparated]
    exact known.2
  | object elem => exact .pure ⟨trivial, known⟩
  | bound b =>
    obtain ⟨good, trait⟩ := known
    refine objectAfter_settles h (inParens_wellFormed paren good) ?_
    cases b with
    | traitBound => rfl
    | lifetimeBound => cases trait
  | type elem =>
    refine .ite (fun _ _ => ?_) fun _ _ => .pure ⟨trivial, known⟩
    cases eq : boundOfType? paren elem with
    | some b =>
      obtain ⟨good, trait⟩ := boundOfType?_wellFormed known eq
      exact objectAfter_settles h good trait
    | none => exact .pure ⟨trivial, known⟩

omit h in
theorem typeBinder?_settles : Settles 0 n typeBinder? typeBinder? fun _ => True :=
  .ite (fun _ _ => (binder_settles.keep fun _ _ => .ite (fun _ _ => .pure trivial)
    fun _ _ => .failNoneOf).any) fun _ _ => .pure trivial

theorem typeAfter_settles (b : Option Binder) (plus : Bool) :
    Settles 1 (n + 1) (typeAfter g b plus) (typeAfter g' b plus) Node.WellFormed :=
  .ite (fun _ _ => parenthesized_settles h plus) fun _ _ =>
  .ite (fun _ _ => bareFnAfter_settles h b) fun _ _ =>
  .ite (fun _ _ => pathLike_settles h b plus) fun _ _ =>
  .ite (fun _ _ => arrayOrSlice_settles h) fun _ _ =>
  .ite (fun _ _ => pointer_settles h) fun _ _ =>
  .ite (fun _ _ => reference_settles h) fun _ _ =>
  .ite (fun _ _ => never_settles) fun _ _ =>
  .ite (fun _ _ => implTrait_settles h) fun _ _ =>
  .ite (fun _ _ => infer_settles) fun _ _ =>
  .ite (fun _ _ => traitObject_settles h plus) fun _ _ => .failNoneOf

theorem type_settles (plus : Bool) :
    Settles 1 (n + 1) (type g plus) (type g' plus) Node.WellFormed :=
  .ite (fun _ _ => groupType_settles h) fun _ _ =>
    typeBinder?_settles.bind fun b _ => typeAfter_settles h b plus

end

end Parse

namespace Grammar

/-- One level of nesting more is enough for one tree more. -/
theorem above_settles {n : Nat} {g g' : Grammar} (h : g.Settles n g') :
    (above g).Settles (n + 1) (above g') :=
  ⟨Parse.type_settles h, Parse.bound_settles h, Parse.expr_settles h⟩

/-- The parsers of depth `n` settle at cursors with fewer than `n` trees ahead, and agree there with
those of any greater depth. -/
theorem ofDepth_settles {n m : Nat} (deeper : n ≤ m) : (ofDepth n).Settles n (ofDepth m) := by
  induction n generalizing m with
  | zero =>
    exact ⟨fun _ _ small => absurd small (Nat.not_lt_zero _),
      fun _ small => absurd small (Nat.not_lt_zero _),
      fun _ _ small => absurd small (Nat.not_lt_zero _)⟩
  | succ n ih =>
    cases m with
    | zero => exact absurd deeper (Nat.not_succ_le_zero n)
    | succ m => exact above_settles (ih (Nat.le_of_succ_le_succ deeper))

end Grammar

end TypeGrammar
