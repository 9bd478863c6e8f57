import TypeGrammar.Proofs.Orderly

/-!
# What runs on types yield

The parsers of types and of what stands inside of them yield orderly nodes: what is called is no
operation, the tokens that a node may lack are the usual ones, and the operators and delimiters are
those that the parser asked for.
-/

namespace TypeGrammar

open TokenTree

/-! ## Parsers -/

/-- Parsers for nested syntax that yield orderly nodes; an expression that binds as tightly as a
unary operator asks for goes on with no call. -/
structure Grammar.Yields (p : List TokenTree → Prop) (word : Token → Prop) (g : Grammar) :
    Prop where
  type : ∀ plus, TypeGrammar.Yields p (g.type plus) (Node.Orderly p word)
  bound : TypeGrammar.Yields p g.bound (Node.Orderly p word)
  expr : ∀ power, TypeGrammar.Yields p (g.expr power) (Node.Orderly p word)
  stops : ∀ {power c e c'}, power ≤ callPower → g.expr power c = .ok e c' →
    startsGroup .paren c'.rest = false

namespace Parse

open TypeGrammar.Parser

/-! ### What follows an expression -/

section

variable {g : Grammar}

/-- No parentheses follow an expression, unless it was read as what binds more tightly than a
call. -/
theorem operatorsAfter_stops {power limit : Nat} {left e : Expr} {c c' : Cursor}
    (loose : power ≤ callPower) (h : operatorsAfter g power limit left c = .ok e c') :
    startsGroup .paren c'.rest = false := by
  induction limit generalizing left c with
  | zero => simp [operatorsAfter, fail_ok] at h
  | succ limit ih =>
    unfold operatorsAfter at h
    simp only [↓look_ite_ok] at h
    obtain ⟨-, h⟩ | ⟨off, h⟩ := h
    · rw [if_neg (Nat.not_lt.2 loose)] at h
      obtain ⟨_, _, -, h⟩ := bind_ok.1 h
      exact ih h
    · have stop (h : (pure left : Parser Expr) c = .ok e c') :
          startsGroup .paren c'.rest = false := by
        obtain ⟨-, rfl⟩ := pure_ok.1 h
        exact off
      obtain ⟨-, h⟩ | ⟨-, h⟩ := h
      · split at h
        · exact stop h
        · simp only [bind_ok] at h
          obtain ⟨_, _, -, _, _, -, h⟩ := h
          exact ih h
      · rw [look_bind_ok] at h
        cases starts : binaryOperator? c.rest with
        | none =>
          simp only [starts] at h
          exact stop h
        | some o =>
          simp only [starts] at h
          split at h
          · exact stop h
          · simp only [bind_ok] at h
            obtain ⟨_, _, -, _, _, -, h⟩ := h
            exact ih h

theorem expr_stops {power : Nat} {e : Expr} {c c' : Cursor} (loose : power ≤ callPower)
    (h : expr g power c = .ok e c') : startsGroup .paren c'.rest = false := by
  obtain ⟨left, c₁, -, rest⟩ := bind_ok.1 h
  exact operatorsAfter_stops loose rest

end

variable {p : List TokenTree → Prop} {word : Token → Prop} {body : List TokenTree → Prop}
  {g : Grammar} (inherited : Inherited p word body)
include inherited

/-! ### Lifetimes and attributes -/

theorem attributesUpTo_yields (limit : Nat) :
    Yields p (attributesUpTo limit) fun as => ∀ a ∈ as, a.Signed := by
  induction limit with
  | zero => exact .fail
  | succ limit ih =>
    exact .ite ((punct_yields inherited _).bind fun _ pound =>
      (inGroup_yields inherited .bracket (remaining_yields inherited)).bind fun _ bracket =>
      ih.returning fun _ signed => List.forall_mem_cons.2 ⟨⟨pound, bracket.1⟩, signed⟩)
      (.pure fun _ mem => absurd mem List.not_mem_nil)

theorem attributes_yields : Yields p attributes fun as => ∀ a ∈ as, a.Signed :=
  fun _ _ _ here run => attributesUpTo_yields inherited _ here run

theorem lifetime_yields : Yields p lifetime fun _ => True :=
  (take_yields inherited _).returning fun _ _ => trivial

theorem lifetime?_yields : Yields p lifetime? fun _ => True :=
  .ite ((lifetime_yields inherited).returning fun _ _ => trivial) (.pure trivial)

theorem lifetimeDef_yields : Yields p lifetimeDef LifetimeDef.Signed := by
  refine (attributes_yields inherited).bind fun as signed => (lifetime_yields inherited).bind
    fun l _ => (punct?_yields inherited ":").bind fun colon known => ?_
  cases colon with
  | none => exact .pure ⟨signed, nofun, trivial⟩
  | some colon =>
    exact (list_yields inherited (lifetime_yields inherited)).returning
      fun _ bounds => ⟨signed, known, bounds.2⟩

theorem binder_yields : Yields p binder Binder.Signed :=
  (keyword_yields inherited _).bind fun _ _ => (punct_yields inherited _).bind fun _ lt =>
    (list_yields inherited (lifetimeDef_yields inherited)).bind fun _ read =>
    (punct_yields inherited _).returning fun _ gt => ⟨lt, read.1, read.2, gt⟩

theorem binder?_yields : Yields p binder? fun b => ∀ b' ∈ b, b'.Signed :=
  .ite ((binder_yields inherited).returning fun _ known _ mem => Option.some.inj mem ▸ known)
    (.pure fun _ mem => absurd mem (Option.not_mem_none _))

theorem abi_yields : Yields p abi fun _ => True :=
  (keyword_yields inherited _).bind fun _ _ => .ite
    ((take_yields inherited _).returning fun _ _ => trivial) (.pure trivial)

/-! ### Paths -/

section

variable (hg : g.Yields p word)
include hg

theorem output_yields (plus : Bool) : Yields p (output g plus) (Node.Orderly p word) :=
  .ite ((punct_yields inherited _).bind fun _ mark =>
    (hg.type plus).returning fun _ known => ⟨⟨trivial, mark⟩, known⟩)
    (.pure ⟨⟨trivial, trivial⟩, trivial⟩)

theorem parenthesizedArgs_yields : Yields p (parenthesizedArgs g) (Node.Orderly p word) :=
  (inGroup_yields inherited .paren (list_yields inherited (hg.type true))).bind fun _ inputs =>
    (output_yields inherited hg false).returning fun _ known =>
      ⟨⟨trivial, inputs.1, Node.splitBy_ofSeparated inputs.2.2⟩,
        Node.orderly_ofSeparated.2 inputs.2.1, known⟩

theorem argument_yields : Yields p (argument g) (Node.Orderly p word) :=
  .ite ((lifetime_yields inherited).returning fun _ _ => ⟨⟨trivial, trivial⟩, trivial⟩) <|
  .ite ((take_yields inherited _).bind fun _ _ => (punct_yields inherited _).bind fun _ eq =>
    (hg.type true).returning fun _ known => ⟨⟨trivial, eq⟩, known⟩) <|
  .ite ((take_yields inherited _).bind fun _ _ => (punct_yields inherited _).bind fun _ colon =>
    (list_yields inherited hg.bound).returning fun _ bounds =>
      ⟨⟨trivial, colon, Node.splitBy_ofSeparated bounds.2⟩,
        Node.orderly_ofSeparated.2 bounds.1⟩) <|
  .ite ((take_yields inherited _).returning fun _ _ =>
    ⟨⟨trivial, trivial⟩, ⟨trivial, trivial⟩, trivial⟩) <|
  .ite ((inGroup_yields inherited .brace (remaining_yields inherited)).returning fun _ brace =>
    ⟨⟨trivial, trivial⟩, ⟨trivial, brace.1⟩, trivial⟩) <|
  (hg.type true).returning fun _ known => ⟨⟨trivial, trivial⟩, known⟩

theorem angleArgs_yields : Yields p (angleArgs g) (Node.Orderly p word) :=
  (punct?_yields inherited _).bind fun _ colons => (punct_yields inherited _).bind fun _ lt =>
    (list_yields inherited (argument_yields inherited hg)).bind fun _ args =>
    (punct_yields inherited _).returning fun _ gt =>
      ⟨⟨trivial, colons, lt, Node.splitBy_ofSeparated args.2, gt⟩,
        Node.orderly_ofSeparated.2 args.1⟩

theorem segment_yields (inExpr : Bool) : Yields p (segment g inExpr) (Node.Orderly p word) := by
  have plain {ident : Token} : (Node.segment ident .noArguments).Orderly p word :=
    ⟨⟨trivial, trivial⟩, ⟨trivial, trivial⟩, trivial⟩
  refine .ite ((anyWord_yields inherited).returning fun _ _ => plain) ?_
  refine .ite ((anyWord_yields inherited).bind ?_) ((take_yields inherited _).bind ?_)
  all_goals
    exact fun _ _ => .ite ((angleArgs_yields inherited hg).returning fun _ known =>
      ⟨⟨trivial, trivial⟩, known⟩) (.pure plain)

theorem path_yields (inExpr : Bool) : Yields p (path g inExpr) (Node.Orderly p word) :=
  (punct?_yields inherited _).bind fun _ colons =>
    (list1_yields inherited (segment_yields inherited hg inExpr)).returning fun _ read =>
      Node.orderly_path.2 ⟨⟨colons, read.2⟩, read.1⟩

theorem pathWithInputs_yields : Yields p (pathWithInputs g) (Node.Orderly p word) :=
  (path_yields inherited hg false).bind fun _ known => .ite
    ((parenthesizedArgs_yields inherited hg).returning fun _ => known.withFinalArguments)
    (.pure known)

theorem qualifiedPath_yields (inExpr : Bool) :
    Yields p (qualifiedPath g inExpr) fun x => x.1.Orderly p word ∧ x.2.Orderly p word := by
  refine .ite ?_ ((path_yields inherited hg inExpr).returning fun _ known =>
    ⟨⟨⟨trivial, trivial⟩, trivial⟩, known⟩)
  refine (punct_yields inherited _).bind fun lt opens => (hg.type true).bind fun type known =>
    (keyword?_yields inherited _).bind fun asToken isAs => ?_
  cases asToken with
  | none =>
    refine (Yields.pure (P := (· = none)) rfl).bind ?_
    rintro _ rfl
    exact (punct_yields inherited _).bind fun gt closes =>
      (punct_yields inherited _).bind fun colons sign =>
      (list1_yields inherited (segment_yields inherited hg inExpr)).returning fun xs read =>
        ⟨⟨⟨isAs, opens, closes⟩, known⟩,
          Node.orderly_path.2 ⟨⟨by rintro _ ⟨⟩; exact sign, read.2⟩, read.1⟩⟩
  | some asToken =>
    have trait : Yields p (some <$> path g false) fun x => ∃ q, x = some q ∧ q.Orderly p word :=
      (path_yields inherited hg false).map fun q known => ⟨q, rfl, known⟩
    refine trait.bind ?_
    rintro _ ⟨trait, rfl, whole⟩
    exact (punct_yields inherited _).bind fun gt closes =>
      (punct_yields inherited _).bind fun colons sign =>
      (list1_yields inherited (segment_yields inherited hg inExpr)).returning fun xs read =>
        ⟨⟨⟨isAs, opens, closes⟩, known⟩, whole.joinPath sign read.2 read.1⟩

omit hg in
theorem invocation_yields {q : Path} (known : q.Orderly p word) :
    Yields p (invocation q) (Node.Orderly p word) :=
  (punct_yields inherited _).bind fun _ bang => (anyGroup_yields inherited).returning
    fun _ visible => ⟨⟨trivial, bang, visible⟩, known⟩

/-! ### Bounds -/

theorem traitBound_yields : Yields p (traitBound g) (Node.Orderly p word) :=
  (punct?_yields inherited _).bind fun _ modifier => (binder?_yields inherited).bind
    fun _ signed => (pathWithInputs_yields inherited hg).returning fun _ known =>
      ⟨⟨fun b mem => (signed b mem).standard, by rintro _ ⟨⟩, modifier, signed⟩, known⟩

theorem bound_yields : Yields p (bound g) (Node.Orderly p word) :=
  .ite ((lifetime_yields inherited).returning fun _ _ => ⟨⟨trivial, trivial⟩, trivial⟩) <|
  .ite ((inGroup_yields inherited .paren (traitBound_yields inherited hg)).returning
    fun _ known => known.2.inParens known.1) <|
  traitBound_yields inherited hg

/-! ### Expressions -/

theorem pathOrMacro_yields : Yields p (pathOrMacro g) (Node.Orderly p word) :=
  (qualifiedPath_yields inherited hg true).bind fun _ known => .ite
    ((invocation_yields inherited known.2).returning fun _ call => ⟨⟨trivial, trivial⟩, call⟩)
    (.pure ⟨⟨trivial, trivial⟩, known⟩)

theorem operand_yields : Yields p (operand g) (Node.Orderly p word) := by
  have literal {t : Token} : (Node.literal t).Orderly p word := ⟨⟨trivial, trivial⟩, trivial⟩
  refine .look fun ts => ?_
  cases starts : unaryOperator? ts with
  | some op =>
    have unary : op ∈ unaryOperators := List.mem_of_find?_eq_some starts
    exact (punct_yields inherited _).bind fun _ sign => (hg.expr unaryPower).returning
      fun _ known => ⟨⟨trivial, op, unary, sign⟩, known⟩
  | none =>
    exact .ite ((take_yields inherited _).returning fun _ _ => literal) <|
      .ite ((take_yields inherited _).returning fun _ _ => literal) <|
      .ite ((take_yields inherited _).returning fun _ _ => literal) <|
      .ite ((inGroup_yields inherited .paren (hg.expr 0)).returning
        fun _ known => ⟨⟨trivial, known.1⟩, known.2⟩) <|
      .ite ((inGroup_yields inherited .brace (remaining_yields inherited)).returning
        fun _ brace => ⟨⟨trivial, brace.1⟩, trivial⟩) <|
      .ite (pathOrMacro_yields inherited hg) .failNoneOf

omit inherited in
/-- An operand is no operation, or no call can follow it. -/
theorem operand_stops {c c' : Cursor} {e : Expr} (h : operand g c = .ok e c') :
    e.isOperation = false ∨ startsGroup .paren c'.rest = false := by
  unfold operand at h
  rw [look_bind_ok] at h
  cases starts : unaryOperator? c.rest with
  | some op =>
    simp only [starts, bind_ok, pure_ok] at h
    obtain ⟨mark, c₁, -, e, _, run, rfl, rfl⟩ := h
    exact .inr (hg.stops (by decide) run)
  | none =>
    simp only [starts] at h
    simp only [↓look_ite_ok, bind_ok, pure_ok, failNoneOf_ok] at h
    obtain ⟨-, t, _, -, rfl, -⟩ | ⟨-, ⟨-, t, _, -, rfl, -⟩ | ⟨-, ⟨-, t, _, -, rfl, -⟩ |
      ⟨-, ⟨-, ⟨paren, e⟩, _, -, rfl, -⟩ | ⟨-, ⟨-, ⟨brace, tokens⟩, _, -, rfl, -⟩ |
      ⟨-, ⟨-, run⟩ | ⟨-, ⟨⟩⟩⟩⟩⟩⟩⟩ := h
    all_goals left
    · rfl
    · rfl
    · rfl
    · rfl
    · rfl
    · unfold pathOrMacro at run
      simp only [↓look_ite_ok, bind_ok, pure_ok] at run
      obtain ⟨_, _, -, ⟨-, _, _, -, rfl, -⟩ | ⟨-, rfl, -⟩⟩ := run <;> rfl

/-- The loop never calls an operation: as its left operand only one is left that no parentheses
follow. -/
theorem operatorsAfter_yields {power limit : Nat} {left e : Expr} {c c' : Cursor}
    (here : p c.rest) (known : left.Orderly p word)
    (next : left.isOperation = false ∨ startsGroup .paren c.rest = false)
    (h : operatorsAfter g power limit left c = .ok e c') : p c'.rest ∧ e.Orderly p word := by
  induction limit generalizing left c with
  | zero => simp [operatorsAfter, fail_ok] at h
  | succ limit ih =>
    have stop (h : (pure left : Parser Expr) c = .ok e c') : p c'.rest ∧ e.Orderly p word := by
      obtain ⟨rfl, rfl⟩ := pure_ok.1 h
      exact ⟨here, known⟩
    unfold operatorsAfter at h
    simp only [↓look_ite_ok] at h
    obtain ⟨on, h⟩ | ⟨-, ⟨-, h⟩ | ⟨-, h⟩⟩ := h
    · split at h
      · exact stop h
      · obtain ⟨⟨paren, args⟩, c₁, group, h⟩ := bind_ok.1 h
        obtain ⟨there, delim, read, split⟩ :=
          inGroup_yields inherited .paren (list_yields inherited (hg.expr 0)) here group
        have operand : left.isOperation = false :=
          next.resolve_right (by rw [on]; exact Bool.noConfusion)
        have call : (Node.call left paren (.ofSeparated args)).Orderly p word :=
          ⟨⟨operand, delim, Node.splitBy_ofSeparated split⟩, known,
            Node.orderly_ofSeparated.2 read⟩
        exact ih there call (.inl rfl) h
    · split at h
      · exact stop h
      · simp only [bind_ok] at h
        obtain ⟨asToken, c₁, mark, t, c₂, run, h⟩ := h
        obtain ⟨there, -⟩ := keyword_yields inherited "as" here mark
        obtain ⟨there, target⟩ := hg.type false there run
        have cast : (Node.cast left asToken t).Orderly p word :=
          ⟨⟨trivial, trivial⟩, known, target⟩
        exact ih there cast (.inl rfl) h
    · rw [look_bind_ok] at h
      cases starts : binaryOperator? c.rest with
      | none =>
        simp only [starts] at h
        exact stop h
      | some o =>
        simp only [starts] at h
        split at h
        · exact stop h
        · simp only [bind_ok] at h
          obtain ⟨mark, c₁, sign, right, c₂, run, h⟩ := h
          have loose : ∀ o ∈ binaryOperators, o.right ≤ callPower := by decide
          have mem : o ∈ binaryOperators := List.mem_of_find?_eq_some starts
          obtain ⟨there, isOp⟩ := punct_yields inherited o.text here sign
          obtain ⟨there, operand⟩ := hg.expr o.right there run
          have stops := hg.stops (loose o mem) run
          have binary : (Node.binary left mark right).Orderly p word :=
            ⟨⟨trivial, o, mem, isOp⟩, known, operand⟩
          exact ih there binary (.inr stops) h

theorem expr_yields (power : Nat) : Yields p (expr g power) (Node.Orderly p word) := by
  intro c e c' here run
  obtain ⟨left, c₁, first, rest⟩ := bind_ok.1 run
  obtain ⟨there, known⟩ := operand_yields inherited hg here first
  exact operatorsAfter_yields inherited hg there known (operand_stops hg first) rest

/-! ### Types -/

theorem objectBounds_yields (plus : Bool) :
    Yields p (objectBounds g plus)
      fun xs => (∀ b ∈ xs.toList, b.Orderly p word) ∧ xs.SplitBy "+" := by
  cases plus with
  | true => exact list1_yields inherited (bound_yields inherited hg)
  | false =>
    exact (bound_yields inherited hg).map fun b known =>
      ⟨List.forall_mem_singleton.2 known, trivial⟩

theorem traitObject_yields (plus : Bool) : Yields p (traitObject g plus) (Node.Orderly p word) := by
  refine (keyword?_yields inherited _).bind fun dynToken _ =>
    (objectBounds_yields inherited hg plus).bind fun bounds known => ?_
  split
  · exact .pure ⟨⟨trivial, Node.splitBy_ofSeparated known.2⟩, Node.orderly_ofSeparated.2 known.1⟩
  · exact .fail

theorem implTrait_yields : Yields p (implTrait g) (Node.Orderly p word) :=
  (keyword_yields inherited _).bind fun _ _ =>
    (list1_yields inherited (bound_yields inherited hg)).returning fun _ read =>
      ⟨⟨trivial, Node.splitBy_ofSeparated read.2⟩, Node.orderly_ofSeparated.2 read.1⟩

theorem fnArg_yields : Yields p (fnArg g) (Node.Orderly p word) :=
  (attributes_yields inherited).bind fun _ signed => .ite
    ((anyWord_yields inherited).bind fun _ _ => (punct_yields inherited _).bind fun _ colon =>
      (hg.type true).returning fun _ known =>
        ⟨⟨trivial, signed, by rintro _ ⟨⟩; exact colon⟩, known⟩)
    ((hg.type true).returning fun _ known => ⟨⟨trivial, signed, by rintro _ ⟨⟩⟩, known⟩)

theorem fnInputsAndDots_yields :
    Yields p (fnInputsAndDots g) fun x => ((∀ a ∈ x.1.toList, a.Orderly p word) ∧
      x.1.SplitBy ",") ∧ ∀ t ∈ x.2, t.IsSign "..." :=
  (list_yields inherited (fnArg_yields inherited hg)).bind fun _ read =>
    .ite ((punct_yields inherited _).returning fun _ dots => ⟨read, by rintro _ ⟨⟩; exact dots⟩)
      (.pure ⟨read, by rintro _ ⟨⟩⟩)

theorem bareFnAfter_yields {b : Option Binder} (signed : ∀ b' ∈ b, b'.Signed) :
    Yields p (bareFnAfter g b) (Node.Orderly p word) := by
  refine (keyword?_yields inherited _).bind fun unsafety _ => .ite
    (((abi_yields inherited).map (Q := fun _ => True) fun _ => id).bind ?_)
    ((Yields.pure (P := fun _ => True) trivial).bind ?_)
  all_goals
    intro convention _
    refine (keyword_yields inherited _).bind fun fnToken _ =>
      (inGroup_yields inherited .paren (fnInputsAndDots_yields inherited hg)).bind fun x inputs =>
      (output_yields inherited hg false).returning fun o known =>
        ⟨⟨⟨fun b mem => (signed b mem).standard, ?_⟩, signed, inputs.1, ?_, inputs.2.2⟩,
          Node.orderly_ofSeparated.2 inputs.2.1.1, known⟩
    all_goals exact Node.splitBy_ofSeparated inputs.2.1.2

theorem groupType_yields : Yields p (groupType g) (Node.Orderly p word) := by
  intro c t c' here run
  obtain ⟨x, c₁, group, run⟩ := bind_ok.1 run
  obtain ⟨rfl, rfl⟩ := pure_ok.1 run
  obtain ⟨there, -, known⟩ := inGroup_yields inherited .invisible (hg.type true) here group
  exact ⟨there, ⟨trivial, inGroup_within inherited here group⟩, known⟩

theorem arrayOrSlice_yields : Yields p (arrayOrSlice g) (Node.Orderly p word) := by
  have contents : Yields p (arrayOrSliceContents g) fun x =>
      x.1.Orderly p word ∧ ∀ length ∈ x.2, length.1.IsSign ";" ∧ length.2.Orderly p word :=
    (hg.type true).bind fun _ known => .ite
      ((punct_yields inherited _).bind fun _ semi => (hg.expr 0).returning fun _ length =>
        ⟨known, by rintro _ ⟨⟩; exact ⟨semi, length⟩⟩)
      (.pure ⟨known, by rintro _ ⟨⟩⟩)
  refine (inGroup_yields inherited .bracket contents).bind ?_
  rintro ⟨bracket, elem, length⟩ ⟨delim, known, fits⟩
  cases length with
  | some length =>
    obtain ⟨semi, length⟩ := fits length rfl
    exact .pure ⟨⟨trivial, delim, semi⟩, known, length⟩
  | none => exact .pure ⟨⟨trivial, delim⟩, known⟩

omit hg in
theorem never_yields : Yields p never (Node.Orderly p word) :=
  .ite .fail ((punct_yields inherited _).returning fun _ bang => ⟨⟨trivial, bang⟩, trivial⟩)

omit hg in
theorem infer_yields : Yields p infer (Node.Orderly p word) :=
  (keyword_yields inherited _).returning fun _ _ => ⟨⟨trivial, trivial⟩, trivial⟩

theorem pointer_yields : Yields p (pointer g) (Node.Orderly p word) :=
  (punct_yields inherited _).bind fun _ star => .ite
    ((keyword_yields inherited _).bind fun mark isConst => (hg.type false).returning
      fun _ known => ⟨⟨by rintro _ ⟨⟩; exact isConst, star⟩, known⟩) <| .ite
    ((keyword_yields inherited _).bind fun _ _ => (hg.type false).returning
      fun _ known => ⟨⟨nofun, star⟩, known⟩) .failNoneOf

theorem reference_yields : Yields p (reference g) (Node.Orderly p word) :=
  (punct_yields inherited _).bind fun _ mark => (lifetime?_yields inherited).bind fun _ _ =>
    (keyword?_yields inherited _).bind fun _ _ => (hg.type false).returning
      fun _ known => ⟨⟨trivial, mark⟩, known⟩

theorem qualifiedPathWithInputs_yields :
    Yields p (qualifiedPathWithInputs g) fun x => x.1.Orderly p word ∧ x.2.Orderly p word :=
  (qualifiedPath_yields inherited hg false).bind fun _ known => .ite
    ((parenthesizedArgs_yields inherited hg).returning fun _ args =>
      ⟨known.1, known.2.withFinalArguments args⟩)
    (.pure known)

omit inherited hg in
/-- A binder is kept as it is at the first bound. -/
theorem withBinder_yields {b : Binder} (signed : b.Signed) {t : Ty} (known : t.Orderly p word) :
    Yields p (withBinder b t) (Node.Orderly p word) := by
  unfold withBinder
  split
  · rename_i dynToken bounds
    obtain ⟨⟨-, split'⟩, all⟩ := known
    have all := Node.orderly_list.1 all
    split
    · rename_i paren modifier binder path first
      refine .pure ⟨⟨trivial, Node.splitBy_ofSeparated (split'.mapFirst _)⟩,
        Node.orderly_ofSeparated.2 fun x mem => ?_⟩
      obtain mem | ⟨v, eq, rfl⟩ := Separated.mem_mapFirst mem
      · exact all x mem
      · obtain rfl := Option.some.inj (first.symm.trans eq)
        obtain ⟨⟨-, parens, modifier, -⟩, path⟩ := all _ (Separated.mem_of_first? first)
        exact ⟨⟨by rintro _ ⟨⟩; exact signed.standard, parens, modifier,
          by rintro _ ⟨⟩; exact signed⟩, path⟩
    · exact .fail
  · exact .pure known

theorem pathLike_yields {b : Option Binder} (signed : ∀ b' ∈ b, b'.Signed) (plus : Bool) :
    Yields p (pathLike g b plus) (Node.Orderly p word) := by
  refine .ite ((traitObject_yields inherited hg plus).bind fun object known => ?_)
    ((qualifiedPathWithInputs_yields inherited hg).bind ?_)
  · cases b with
    | some b => exact withBinder_yields (signed b rfl) known
    | none => exact .pure known
  · rintro ⟨self, q⟩ ⟨known, path⟩
    dsimp only
    split
    · exact .pure ⟨⟨trivial, trivial⟩, known, path⟩
    · refine .ite ((invocation_yields inherited path).returning fun _ call =>
        ⟨⟨trivial, trivial⟩, call⟩) <| .ite ?_ (.pure ⟨⟨trivial, trivial⟩, known, path⟩)
      have first : (Node.traitBound none none b q).Orderly p word :=
        ⟨⟨fun b mem => (signed b mem).standard, by rintro _ ⟨⟩, by rintro _ ⟨⟩, signed⟩, path⟩
      cases plus with
      | true =>
        exact (listAfter_yields inherited (bound_yields inherited hg) first).returning
          fun xs read => ⟨⟨trivial, Node.splitBy_ofSeparated read.2⟩,
            Node.orderly_ofSeparated.2 read.1⟩
      | false => exact .pure ⟨⟨trivial, trivial⟩, ⟨trivial, trivial⟩, first⟩

theorem objectAfter_yields {b : Bound} (known : b.Orderly p word) :
    Yields p (objectAfter g b) (Node.Orderly p word) :=
  (listAfter_yields inherited (bound_yields inherited hg) known).returning fun _ read =>
    ⟨⟨trivial, Node.splitBy_ofSeparated read.2⟩, Node.orderly_ofSeparated.2 read.1⟩

omit inherited hg in
theorem boundOfType?_orderly {paren : Delim} (parens : paren.delimiter = .paren) {t : Ty}
    {b : Bound} (known : t.Orderly p word) (eq : boundOfType? paren t = some b) :
    b.Orderly p word := by
  unfold boundOfType? at eq
  split at eq
  · cases eq
    exact ⟨⟨by rintro _ ⟨⟩, by rintro _ ⟨⟩; exact parens, by rintro _ ⟨⟩, by rintro _ ⟨⟩⟩,
      known.2.2⟩
  · rename_i bounds
    split at eq
    · rename_i b' single
      cases eq
      have all := Node.orderly_list.1 known.2
      rw [single] at all
      exact (all b' List.mem_cons_self).inParens parens
    · cases eq
  · cases eq

/-- What is known of the contents of parentheses. -/
def Parenthesized.Orderly (p : List TokenTree → Prop) (word : Token → Prop) : Parenthesized → Prop
  | .tuple elems => (∀ t ∈ elems.toList, t.Orderly p word) ∧ elems.SplitBy ","
  | .object elem => elem.Orderly p word
  | .bound b => b.Orderly p word
  | .type elem => elem.Orderly p word

theorem parenContents_yields : Yields p (parenContents g) (Parenthesized.Orderly p word) := by
  refine .ite (.pure ⟨by rintro _ ⟨⟩, trivial⟩) <|
    .ite ((traitObject_yields inherited hg true).returning fun _ => id) <|
    .ite ((traitBound_yields inherited hg).returning fun _ => id) <|
    (hg.type true).bind fun first known => .ite ?_ (.pure known)
  exact (punct_yields inherited _).bind fun comma sign =>
    (list_yields inherited (hg.type true)).returning fun xs read =>
      ⟨List.forall_mem_cons.2 ⟨known, read.1⟩, sign, read.2⟩

theorem parenthesized_yields (plus : Bool) :
    Yields p (parenthesized g plus) (Node.Orderly p word) := by
  refine (inGroup_yields inherited .paren (parenContents_yields inherited hg)).bind ?_
  rintro ⟨paren, contents⟩ ⟨delim, known⟩
  cases contents with
  | tuple elems =>
    exact .pure ⟨⟨trivial, delim, Node.splitBy_ofSeparated known.2⟩,
      Node.orderly_ofSeparated.2 known.1⟩
  | object elem => exact .pure ⟨⟨trivial, delim⟩, known⟩
  | bound b => exact objectAfter_yields inherited hg (Node.Orderly.inParens known delim)
  | type elem =>
    refine .ite ?_ (.pure ⟨⟨trivial, delim⟩, known⟩)
    cases eq : boundOfType? paren elem with
    | some b => exact objectAfter_yields inherited hg (boundOfType?_orderly delim known eq)
    | none => exact .pure ⟨⟨trivial, delim⟩, known⟩

omit hg in
theorem typeBinder?_yields : Yields p typeBinder? fun b => ∀ b' ∈ b, b'.Signed :=
  .ite ((binder_yields inherited).bind fun _ known => .ite
    (.pure fun _ mem => Option.some.inj mem ▸ known) .failNoneOf)
    (.pure fun _ mem => absurd mem (Option.not_mem_none _))

theorem typeAfter_yields {b : Option Binder} (signed : ∀ b' ∈ b, b'.Signed) (plus : Bool) :
    Yields p (typeAfter g b plus) (Node.Orderly p word) :=
  .ite (parenthesized_yields inherited hg plus) <|
  .ite (bareFnAfter_yields inherited hg signed) <|
  .ite (pathLike_yields inherited hg signed plus) <|
  .ite (arrayOrSlice_yields inherited hg) <|
  .ite (pointer_yields inherited hg) <|
  .ite (reference_yields inherited hg) <|
  .ite (never_yields inherited) <|
  .ite (implTrait_yields inherited hg) <|
  .ite (infer_yields inherited) <|
  .ite (traitObject_yields inherited hg plus) .failNoneOf

theorem type_yields (plus : Bool) : Yields p (type g plus) (Node.Orderly p word) :=
  .ite (groupType_yields inherited hg) <|
    (typeBinder?_yields inherited).bind fun _ signed =>
      typeAfter_yields inherited hg signed plus

end

end Parse

namespace Grammar

variable {p : List TokenTree → Prop} {word : Token → Prop} {body : List TokenTree → Prop}

theorem ofDepth_yields (inherited : Inherited p word body) (depth : Nat) :
    (ofDepth depth).Yields p word := by
  induction depth with
  | zero => exact ⟨fun _ => .fail, .fail, fun _ => .fail, fun _ h => (Parser.fail_ok.1 h).elim⟩
  | succ depth ih =>
    exact ⟨Parse.type_yields inherited ih, Parse.bound_yields inherited ih,
      Parse.expr_yields inherited ih, Parse.expr_stops⟩

end Grammar

end TypeGrammar
