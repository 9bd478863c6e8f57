import TypeGrammar.Proofs.Matching
import TypeGrammar.Proofs.RereadingTypes
import TypeGrammar.Proofs.SettlingTypes

/-!
# Every parser follows itself

The grammar asks only for the next three trees, and not where they stand. So every parser follows
itself, whatever a matching is, if the parsers for nested syntax do.
-/

namespace TypeGrammar

open TokenTree

theorem Sight.raw_full : Sight.full.raw = eraseAll := rfl

/-- Parsers for nested syntax that follow themselves. -/
structure Matching.Reads (M : Matching) (g : Grammar) : Prop where
  type : ∀ plus, M.Follows (Node.seen .full) (g.type plus) (g.type plus)
  bound : M.Follows (Node.seen .full) g.bound g.bound
  expr : ∀ power, M.Follows (Node.seen .full) (g.expr power) (g.expr power)

namespace Parse

open TypeGrammar.Parser

variable {M : Matching} {g : Grammar}

/-! ## Lifetimes and attributes -/

/-- One turn of the loop that reads attributes; `more` reads the attributes after the first. -/
def attributesTurn (more : Parser (List Attribute)) : Parser (List Attribute) := do
  if ← look fun ts => startsPunct "#" ts && startsGroup .bracket (ts.drop 1) then
    let pound ← punct "#"
    let (bracket, tokens) ← inGroup .bracket remaining
    return ⟨pound, bracket, tokens⟩ :: (← more)
  else
    return []

theorem attributesUpTo_succ (limit : Nat) :
    attributesUpTo (limit + 1) = attributesTurn (attributesUpTo limit) := rfl

/-- Every turn of the loop takes a tree, so there are no more turns than trees ahead. -/
theorem attributesUpTo_follows {limit : Nat} {c : Cursor} (enough : c.rest.length < limit) :
    M.FollowsAt (List.map (Attribute.seen .full)) c (attributesUpTo limit) attributesUpTo := by
  induction limit generalizing c with
  | zero => exact absurd enough (Nat.not_lt_zero _)
  | succ limit ih =>
    have turn : M.FollowsAt (List.map (Attribute.seen .full)) c
        (attributesTurn (attributesUpTo limit))
        fun l => attributesTurn (attributesUpTo (l - 1)) := by
      unfold attributesTurn
      refine .look (.and (.punct (by decide)) (.groupAfter 1 (by decide) _)) ?_
      split
      · refine .bind (punct_follows (by decide) c) fun s s' i pound run => ?_
        obtain ⟨taken, inside⟩ := moved_of_settles (fun n => punct_settles _) run
        refine .bind (inGroup_follows .bracket remaining_follows _) ?_
        rintro ⟨bracket, tokens⟩ ⟨bracket', tokens'⟩ j same -
        obtain ⟨around, contents⟩ := Prod.mk.inj same
        have rest := ih (c := (c.skip i).skip j) (by simp only [Cursor.length_skip]; omega)
        refine .bind (rest.wider (k := fun l => l + j + i - 1) fun l => by omega)
          fun as as' k more _ => .pure ?_
        simp only [List.map_cons, Attribute.seen, Sight.raw_full, pound, around, contents, more]
      · exact .pure rfl
    exact turn.congr fun l => (attributesUpTo_succ l).symm

theorem attributes_follows : M.Follows (List.map (Attribute.seen .full)) attributes attributes :=
  .loop attributesUpTo attributesUpTo attributesUpTo_follows

theorem lifetime_follows : M.Follows Lifetime.erase lifetime lifetime :=
  Parser.lifetime_follows.returning fun _ _ => congrArg Lifetime.mk

theorem lifetime?_follows : M.Follows (Option.map Lifetime.erase) lifetime? lifetime? :=
  .ite (.kind (· == .lifetime)) (lifetime_follows.returning fun _ _ => congrArg some) (.pure rfl)

theorem lifetimeDef_follows : M.Follows (LifetimeDef.seen .full) lifetimeDef lifetimeDef := by
  refine attributes_follows.bind fun as as' attrs => lifetime_follows.bind fun l l' name =>
    .option (punct?_follows (by decide)) (.pure ?_) fun colon colon' mark => ?_
  · simp only [LifetimeDef.seen, attrs, name]
  · refine (list_follows near_boundsBeforeComma lifetime_follows).returning fun xs xs' bounds => ?_
    rw [LifetimeDef.seen_full, LifetimeDef.seen_full]
    simp only [LifetimeDef.erase, name, Option.map_some, mark]
    exact congrArg₂ (fun as bs => LifetimeDef.mk as l'.erase (some colon'.erase) bs) attrs bounds

theorem binder_follows : M.Follows (Binder.seen .full) binder binder :=
  (keyword_follows _).bind fun _ _ word => (punct_follows (by decide)).bind fun _ _ lt =>
    (list_follows near_beforeAngle lifetimeDef_follows).bind fun _ _ lifetimes =>
    (punct_follows (by decide)).returning fun _ _ gt => by
      simp only [Binder.seen, word, lt, lifetimes, gt]

theorem binder?_follows : M.Follows (Option.map (Binder.seen .full)) binder? binder? :=
  .ite (.word _) (binder_follows.returning fun _ _ => congrArg some) (.pure rfl)

theorem abi_follows : M.Follows Abi.erase abi abi :=
  (keyword_follows _).bind fun _ _ word => .ite (.kind _)
    (literal_follows.returning fun _ _ name => by
      simp only [Abi.erase, word, Option.map_some, name])
    (.pure (by simp only [Abi.erase, word]))

/-! ## Paths -/

section

variable (h : M.Reads g)
include h

theorem output_follows (plus : Bool) :
    M.Follows (Node.seen .full) (output g plus) (output g plus) :=
  .ite (.punct (by decide)) ((punct_follows (by decide)).bind fun _ _ mark =>
    (h.type plus).returning fun _ _ type => by simp only [Node.seen, mark, type]) (.pure rfl)

theorem parenthesizedArgs_follows :
    M.Follows (Node.seen .full) (parenthesizedArgs g) (parenthesizedArgs g) := by
  refine (inGroup_follows .paren (list_follows (near_filling (by decide)) (h.type true))).bind ?_
  rintro ⟨paren, inputs⟩ ⟨paren', inputs'⟩ same
  obtain ⟨around, values⟩ := Prod.mk.inj same
  exact (output_follows h false).returning fun _ _ out => by
    simp only [Node.seen, Node.seen_ofSeparated, around, values, out]

theorem argument_follows : M.Follows (Node.seen .full) (argument g) (argument g) := by
  refine .ite (.and (.kind _) (.not (.punctAfter 1 (by decide))))
    (lifetime_follows.returning fun _ _ => congrArg Node.lifetimeArg) ?_
  refine .ite (.and (.kind _) (.punctAfter 1 (by decide)))
    (identifier_follows.bind fun _ _ ident => (punct_follows (by decide)).bind fun _ _ eq =>
      (h.type true).returning fun _ _ type => by simp only [Node.seen, ident, eq, type]) ?_
  refine .ite (.and (.and (.kind _) (.punctAfter 1 (by decide))) (.not (.punctAfter 1 (by decide))))
    (identifier_follows.bind fun _ _ ident => (punct_follows (by decide)).bind fun _ _ colon =>
      (list_follows near_boundsBeforeComma h.bound).returning fun _ _ bounds => by
        simp only [Node.seen, Node.seen_ofSeparated, ident, colon, bounds]) ?_
  refine .ite (.kind _) (literal_follows.returning fun _ _ token => by
    simp only [Node.seen, token]) ?_
  refine .ite (.group _) ((inGroup_follows _ remaining_follows).returning fun _ _ block => ?_)
    ((h.type true).returning fun _ _ => congrArg Node.typeArg)
  obtain ⟨around, contents⟩ := Prod.mk.inj block
  simp only [Node.seen, Sight.raw_full, around, contents]

theorem angleArgs_follows : M.Follows (Node.seen .full) (angleArgs g) (angleArgs g) :=
  (punct?_follows (by decide)).bind fun _ _ colons => (punct_follows (by decide)).bind fun _ _ lt =>
    (list_follows near_beforeAngle (argument_follows h)).bind fun _ _ args =>
    (punct_follows (by decide)).returning fun _ _ gt => by
      simp only [Node.seen, Node.seen_ofSeparated, colons, lt, args, gt]

omit h in
theorem near_startsArguments (inExpr : Bool) :
    IsNear (startsArguments inExpr) (startsArguments inExpr) :=
  .or (.and (.and (.const rfl) (.punct (by decide))) (.not (.punct (by decide))))
    (.and (.punct (by decide)) (.punctAfter 2 (by decide)))

theorem segment_follows (inExpr : Bool) :
    M.Follows (Node.seen .full) (segment g inExpr) (segment g inExpr) := by
  refine .ite (.any fun word _ => .word word)
    (anyWord_follows.returning fun _ _ ident => by simp only [Node.seen, ident]) ?_
  refine .ite (.word _) (anyWord_follows.bind ?_) (identifier_follows.bind ?_)
  all_goals
    exact fun _ _ ident => .ite (near_startsArguments inExpr)
      ((angleArgs_follows h).returning fun _ _ args => by simp only [Node.seen, ident, args])
      (.pure (by simp only [Node.seen, ident]))

theorem segments_follows (inExpr : Bool) :
    M.Follows (Separated.seen (Node.seen .full)) (list1 (joined "::") (segment g inExpr))
      (list1 (joined "::") (segment g inExpr)) :=
  list1_follows (near_joined (by decide)) (segment_follows h inExpr)

theorem path_follows (inExpr : Bool) :
    M.Follows (Node.seen .full) (path g inExpr) (path g inExpr) :=
  (punct?_follows (by decide)).bind fun _ _ leading =>
    (segments_follows h inExpr).returning fun _ _ segments => by
      simp only [Node.seen, Node.seen_ofSeparated, leading, segments]

omit h in
/-- What is asked of a path that was read has the same answer in both runs. -/
theorem endsPlain_of_seen {p p' : Path} (same : p.seen .full = p'.seen .full) :
    p.endsPlain = p'.endsPlain := by
  rw [← Node.endsPlain_seen p (s := .full), same, Node.endsPlain_seen]

omit h in
theorem hasNoArguments_of_seen {p p' : Path} (same : p.seen .full = p'.seen .full) :
    p.hasNoArguments = p'.hasNoArguments := by
  rw [← Node.hasNoArguments_seen p (s := .full), same, Node.hasNoArguments_seen]

theorem pathWithInputs_follows :
    M.Follows (Node.seen .full) (pathWithInputs g) (pathWithInputs g) := by
  refine (path_follows h false).bind fun p p' same =>
    .ite (.and (.const (endsPlain_of_seen same)) (.group _))
      ((parenthesizedArgs_follows h).returning fun a a' args => ?_) (.pure same)
  rw [Node.withFinalArguments_seen, Node.withFinalArguments_seen, same, args]

/-- What follows the trait of a qualified path. -/
def afterTrait (g : Grammar) (inExpr : Bool) (lt : Token) (type : Ty) (asToken : Option Token)
    (trait : Option Path) : Parser (Node .selfType × Path) := do
  let gt ← punct ">"
  let colons ← punct "::"
  let rest ← list1 (joined "::") (segment g inExpr)
  match trait with
  | none => return (.qualified lt type 0 none gt, .path (some colons) (.ofSeparated rest))
  | some trait =>
    return (.qualified lt type trait.segments.toList.length asToken gt, joinPath trait colons rest)

theorem afterTrait_follows {inExpr : Bool} {lt lt' : Token} {type type' : Ty}
    {asToken asToken' : Option Token} {trait trait' : Option Path} (opening : lt.erase = lt'.erase)
    (inner : type.seen .full = type'.seen .full)
    (word : asToken.map Token.erase = asToken'.map Token.erase)
    (position : trait.map (Node.seen .full) = trait'.map (Node.seen .full)) :
    M.Follows (fun x => (x.1.seen .full, x.2.seen .full))
      (afterTrait g inExpr lt type asToken trait)
      (afterTrait g inExpr lt' type' asToken' trait') := by
  refine (punct_follows (by decide)).bind fun gt gt' closing =>
    (punct_follows (by decide)).bind fun colons colons' between =>
    (segments_follows h inExpr).bind fun rest rest' segments => ?_
  rcases trait with _ | trait <;> rcases trait' with _ | trait'
  · refine .pure ?_
    simp only [Node.seen, Node.seen_ofSeparated, opening, inner, closing, Option.map_some, between,
      segments]
  · cases position
  · cases position
  · replace position := Option.some.inj position
    have long : trait.segments.toList.length = trait'.segments.toList.length := by
      rw [← List.length_map (Node.seen .full), ← Separated.toList_seen, ← Node.segments_seen,
        position, Node.segments_seen, Separated.toList_seen, List.length_map]
    refine .pure ?_
    simp only [Node.seen, Node.joinPath_seen, opening, inner, closing, word, long, position,
      between, segments]

theorem qualifiedPath_follows (inExpr : Bool) :
    M.Follows (fun x => (x.1.seen .full, x.2.seen .full)) (qualifiedPath g inExpr)
      (qualifiedPath g inExpr) :=
  .ite (.punct (by decide)) ((punct_follows (by decide)).bind fun _ _ opening =>
    (h.type true).bind fun _ _ inner => .option (keyword?_follows _)
      (.bind (f := Option.map (Node.seen .full)) (.pure rfl)
        fun _ _ => afterTrait_follows h opening inner rfl)
      fun _ _ word => .bind ((path_follows h false).map fun _ _ => congrArg some)
        fun _ _ => afterTrait_follows h opening inner (congrArg some word))
    ((path_follows h inExpr).returning fun _ _ p => by rw [p])

omit h in
theorem invocation_follows {p p' : Path} (same : p.seen .full = p'.seen .full) :
    M.Follows (Node.seen .full) (invocation p) (invocation p') := by
  refine (punct_follows (by decide)).bind fun _ _ bang => anyGroup_follows.returning
    fun _ _ block => ?_
  obtain ⟨around, contents⟩ := Prod.mk.inj block
  simp only [Node.seen, Sight.raw_full, same, bang, around, contents]

/-! ## Bounds -/

theorem traitBound_follows : M.Follows (Node.seen .full) (traitBound g) (traitBound g) :=
  (punct?_follows (by decide)).bind fun _ _ modifier => binder?_follows.bind fun _ _ binder =>
    (pathWithInputs_follows h).returning fun _ _ p => by
      simp only [Node.seen, modifier, binder, p, Option.map_none]

omit h in
theorem inParens_of_seen {paren paren' : Delim} {b b' : Bound} (around : paren.erase = paren'.erase)
    (same : b.seen .full = b'.seen .full) :
    (inParens paren b).seen .full = (inParens paren' b').seen .full := by
  rw [Node.inParens_seen, Node.inParens_seen, around, same]

theorem bound_follows : M.Follows (Node.seen .full) (bound g) (bound g) := by
  refine .ite (.kind _) (lifetime_follows.returning fun _ _ => congrArg Node.lifetimeBound)
    (.ite (.group _) ((inGroup_follows .paren (traitBound_follows h)).returning fun _ _ same => ?_)
      (traitBound_follows h))
  obtain ⟨around, inner⟩ := Prod.mk.inj same
  exact inParens_of_seen around inner

/-! ## Expressions -/

omit h in
theorem near_startsBang : IsNear startsBang startsBang :=
  .and (.punct (by decide)) (.not (.punct (by decide)))

omit h in
theorem near_startsPath : IsNear startsPath startsPath :=
  .or (.or (.or (.kind _) (.any fun word _ => .word word)) (.punct (by decide)))
    (.punct (by decide))

omit h in
theorem unqualified_of_seen {a a' : Node .selfType} (same : a.seen .full = a'.seen .full) :
    a = .unqualified ↔ a' = .unqualified := by
  cases a <;> cases a' <;> simp [Node.seen] at same ⊢

theorem pathOrMacro_follows : M.Follows (Node.seen .full) (pathOrMacro g) (pathOrMacro g) := by
  refine (qualifiedPath_follows h true).bind ?_
  rintro ⟨self, p⟩ ⟨self', p'⟩ same
  obtain ⟨start, rest⟩ := Prod.mk.inj same
  refine .ite (.and (.and (.const ?_) near_startsBang) (.const (hasNoArguments_of_seen rest)))
    ((invocation_follows rest).returning fun _ _ => congrArg Node.macroExpr)
    (.pure (by simp only [Node.seen, start, rest]))
  exact decide_eq_decide.2 (unqualified_of_seen start)

omit h in
theorem near_unaryOperator? : IsNear unaryOperator? unaryOperator? :=
  .find? fun op mem => .punct ((by decide : ∀ op ∈ unaryOperators, op.length ≤ 3) op mem)

omit h in
theorem short_binaryOperators : ∀ op ∈ binaryOperators, op.text.length ≤ 3 := by
  decide

omit h in
theorem near_binaryOperator? : IsNear binaryOperator? binaryOperator? :=
  .find? fun op mem => .punct (short_binaryOperators op mem)

theorem operand_follows : M.Follows (Node.seen .full) (operand g) (operand g) := by
  refine .look near_unaryOperator? fun ts => ?_
  cases found : unaryOperator? ts with
  | some op =>
    have short : op.length ≤ 3 :=
      (by decide : ∀ op ∈ unaryOperators, op.length ≤ 3) op (List.mem_of_find?_eq_some found)
    exact (punct_follows short).bind fun _ _ mark => (h.expr unaryPower).returning
      fun _ _ operand => by simp only [Node.seen, mark, operand]
  | none =>
    have literal {p : Parser Token} (follows : M.Follows Token.erase p p) :
        M.Follows (Node.seen .full) (p >>= fun t => pure (Node.literal t))
          (p >>= fun t => pure (Node.literal t)) :=
      follows.returning fun _ _ => congrArg Node.literal
    refine .ite (.kind _) (literal literal_follows) (.ite (.word _) (literal (keyword_follows _))
      (.ite (.word _) (literal (keyword_follows _)) (.ite (.group _)
        ((inGroup_follows .paren (h.expr 0)).returning fun _ _ same => ?_) (.ite (.group _)
        ((inGroup_follows .brace remaining_follows).returning fun _ _ same => ?_)
        (.ite near_startsPath (pathOrMacro_follows h) (.failNoneOf _))))))
    all_goals
      obtain ⟨around, inner⟩ := Prod.mk.inj same
      simp only [Node.seen, Sight.raw_full, around, inner]

omit h in
/-- One turn of the loop that reads operators; `more` reads the operators after the next one. -/
def operatorsTurn (g : Grammar) (power : Nat) (more : Expr → Parser Expr) (left : Expr) :
    Parser Expr := do
  if ← look (startsGroup .paren) then
    if callPower < power then return left
    else
      let (paren, args) ← inGroup .paren (list (filling ",") (g.expr 0))
      more (.call left paren (.ofSeparated args))
  else if ← look (startsWord "as") then
    if castPower < power then return left
    else
      let asToken ← keyword "as"
      more (.cast left asToken (← g.type false))
  else
    match ← look binaryOperator? with
    | none => return left
    | some op =>
      if op.left < power then return left
      else
        let mark ← punct op.text
        more (.binary left mark (← g.expr op.right))

omit h in
theorem operatorsAfter_succ (power limit : Nat) (left : Expr) :
    operatorsAfter g power (limit + 1) left =
      operatorsTurn g power (operatorsAfter g power limit) left := rfl

/-- Every turn of the loop takes a tree, so there are no more turns than trees ahead. -/
theorem operatorsAfter_follows {power limit : Nat} {left left' : Expr} {c : Cursor}
    (enough : c.rest.length < limit) (same : left.seen .full = left'.seen .full) :
    M.FollowsAt (Node.seen .full) c (operatorsAfter g power limit left)
      fun l => operatorsAfter g power l left' := by
  induction limit generalizing left left' c with
  | zero => exact absurd enough (Nat.not_lt_zero _)
  | succ limit ih =>
    have again {i : Nat} {e e' : Expr} (taken : 1 ≤ i) (ahead : 1 ≤ c.rest.length)
        (same : e.seen .full = e'.seen .full) :
        M.FollowsAt (Node.seen .full) (c.skip i) (operatorsAfter g power limit e)
          fun l => operatorsAfter g power l e' :=
      ih (by rw [Cursor.length_skip]; omega) same
    -- an operator with its right side, and what comes after them
    have operator {α : Type} {e : α → α} {mark : Parser Token} {q : Parser α} {f : Token → α → Expr}
        {f' : Token → α → Expr} (moves : ∀ n, Settles 1 n mark mark fun _ => True)
        (first : M.Follows Token.erase mark mark) (second : M.Follows e q q)
        (value : ∀ t t' x x', t.erase = t'.erase → e x = e x' →
          (f t x).seen .full = (f' t' x').seen .full) :
        M.FollowsAt (Node.seen .full) c
          (mark >>= fun t => q >>= fun x => operatorsAfter g power limit (f t x))
          fun l => mark >>= fun t => q >>= fun x => operatorsAfter g power (l - 1) (f' t x) := by
      refine .bind (first c) fun t t' i same run => .bind (second _) fun x x' j same' run' => ?_
      obtain ⟨taken, inside⟩ := moved_of_settles moves run
      rw [Cursor.skip_skip]
      exact (again (Nat.le_add_right_of_le taken) (Nat.le_trans taken inside)
        (value t t' x x' same same')).wider (k := fun l => l + j + i - 1) fun l => by omega
    have turn : M.FollowsAt (Node.seen .full) c
        (operatorsTurn g power (operatorsAfter g power limit) left)
        fun l => operatorsTurn g power (operatorsAfter g power (l - 1)) left' := by
      unfold operatorsTurn
      refine .look (.group _) ?_
      split
      · split
        · exact .pure same
        · refine .bind
            (inGroup_follows .paren (list_follows (near_filling (by decide)) (h.expr 0)) c)
            fun x x' i args run => ?_
          obtain ⟨taken, ahead⟩ := inGroup_moves run
          obtain ⟨around, values⟩ := Prod.mk.inj args
          refine (again taken ahead ?_).wider (k := fun l => l + i - 1) fun l => by omega
          simp only [Node.seen, Node.seen_ofSeparated, same, around, values]
      refine .look (.word _) ?_
      split
      · split
        · exact .pure same
        · exact operator (fun n => take_settles _) (keyword_follows _) (h.type false)
            fun _ _ _ _ word type => by simp only [Node.seen, same, word, type]
      refine .look near_binaryOperator? ?_
      split
      · exact .pure same
      · rename_i op found
        split
        · exact .pure same
        · have short := short_binaryOperators op (List.mem_of_find?_eq_some found)
          exact operator (fun n => punct_settles _) (punct_follows short) (h.expr _)
            fun _ _ _ _ mark right => by simp only [Node.seen, same, mark, right]
    exact turn.congr fun l => (operatorsAfter_succ power l left').symm

theorem expr_follows (power : Nat) :
    M.Follows (Node.seen .full) (expr g power) (expr g power) :=
  (operand_follows h).bind fun left left' same =>
    .loop (operatorsAfter g power · left) (operatorsAfter g power · left')
      fun enough => operatorsAfter_follows h enough same

/-! ## Types -/

theorem objectBounds_follows (plus : Bool) :
    M.Follows (Separated.seen (Node.seen .full)) (objectBounds g plus) (objectBounds g plus) := by
  cases plus with
  | true => exact list1_follows near_boundsBeforeAngle (bound_follows h)
  | false => exact (bound_follows h).map fun _ _ => congrArg Separated.last

theorem traitObject_follows (plus : Bool) :
    M.Follows (Node.seen .full) (traitObject g plus) (traitObject g plus) := by
  refine (keyword?_follows _).bind fun dynToken dynToken' word =>
    (objectBounds_follows h plus).bind fun bounds bounds' same => ?_
  have trait : bounds.toList.any isTrait = bounds'.toList.any isTrait := by
    have seen (p : Separated Bound) :
        p.toList.any isTrait = (p.seen (Node.seen .full)).toList.any isTrait := by
      rw [Separated.toList_seen, List.any_map]
      exact congrArg p.toList.any (funext fun b => (Node.isTrait_seen b).symm)
    rw [seen, same, ← seen]
  rw [trait]
  split
  · refine .pure ?_
    simp only [Node.seen, Node.seen_ofSeparated, word, same]
  · exact .fail _

theorem implTrait_follows : M.Follows (Node.seen .full) (implTrait g) (implTrait g) :=
  (keyword_follows _).bind fun _ _ word =>
    (list1_follows (near_joined (by decide)) (bound_follows h)).returning fun _ _ bounds => by
      simp only [Node.seen, Node.seen_ofSeparated, word, bounds]

theorem fnArg_follows : M.Follows (Node.seen .full) (fnArg g) (fnArg g) :=
  attributes_follows.bind fun _ _ attrs => .ite
    (.and (.and (.or (.kind _) (.word _)) (.punctAfter 1 (by decide)))
      (.not (.punctAfter 1 (by decide))))
    (anyWord_follows.bind fun _ _ ident => (punct_follows (by decide)).bind fun _ _ colon =>
      (h.type true).returning fun _ _ type => by
        simp only [Node.seen, attrs, Option.map_some, ident, colon, type])
    ((h.type true).returning fun _ _ type => by simp only [Node.seen, attrs, Option.map_none, type])

theorem fnInputsAndDots_follows :
    M.Follows (fun x => (x.1.seen (Node.seen .full), x.2.map Token.erase)) (fnInputsAndDots g)
      (fnInputsAndDots g) := by
  have near : fnInputs.Near :=
    ⟨by decide, .not .isEmpty, .and (.not .isEmpty) (.not (.punct (by decide)))⟩
  refine (list_follows near (fnArg_follows h)).bind fun inputs inputs' same => ?_
  have accepts : inputs.acceptsValue = inputs'.acceptsValue := by
    rw [← Separated.acceptsValue_seen, same, Separated.acceptsValue_seen]
  refine .ite (.and (.const accepts) (.punct (by decide)))
    ((punct_follows (by decide)).returning fun _ _ dots => ?_) (.pure (by rw [same]))
  rw [same, Option.map_some, dots, Option.map_some]

theorem bareFnAfter_follows {b b' : Option Binder}
    (same : b.map (Binder.seen .full) = b'.map (Binder.seen .full)) :
    M.Follows (Node.seen .full) (bareFnAfter g b) (bareFnAfter g b') := by
  refine (keyword?_follows _).bind fun unsafety unsafety' word => .ite (.word _)
    (.bind (f := Option.map Abi.erase) (abi_follows.map fun _ _ => congrArg some) ?_)
    (.bind (f := Option.map Abi.erase) (.pure rfl) ?_)
  all_goals
    refine fun convention convention' abi => (keyword_follows _).bind fun _ _ fnToken =>
      (inGroup_follows .paren (fnInputsAndDots_follows h)).bind fun _ _ inputs =>
      (output_follows h false).returning fun _ _ out => ?_
    obtain ⟨around, rest⟩ := Prod.mk.inj inputs
    obtain ⟨values, dots⟩ := Prod.mk.inj rest
    simp only [Node.seen, Node.seen_ofSeparated, same, word, abi, fnToken, around, values, dots,
      out]

theorem groupType_follows : M.Follows (Node.seen .full) (groupType g) (groupType g) :=
  (inGroup_follows .invisible (h.type true)).returning fun _ _ same => by
    obtain ⟨around, inner⟩ := Prod.mk.inj same
    simp only [Node.seen, around, inner]

theorem arrayOrSlice_follows : M.Follows (Node.seen .full) (arrayOrSlice g) (arrayOrSlice g) := by
  have contents : M.Follows
      (fun x => (x.1.seen .full, x.2.map fun y => (y.1.erase, y.2.seen .full)))
      (arrayOrSliceContents g) (arrayOrSliceContents g) :=
    (h.type true).bind fun _ _ elem => .ite (.punct (by decide))
      ((punct_follows (by decide)).bind fun _ _ semi => (h.expr 0).returning fun _ _ length => by
        simp only [elem, Option.map_some, semi, length])
      (.pure (by simp only [elem, Option.map_none]))
  refine (inGroup_follows .bracket contents).bind ?_
  rintro ⟨bracket, elem, length⟩ ⟨bracket', elem', length'⟩ same
  obtain ⟨around, rest⟩ := Prod.mk.inj same
  obtain ⟨inner, after⟩ := Prod.mk.inj rest
  rcases length with _ | ⟨semi, length⟩ <;> rcases length' with _ | ⟨semi', length'⟩
  · exact .pure (by simp only [Node.seen, around, inner])
  · cases after
  · cases after
  · obtain ⟨mark, value⟩ := Prod.mk.inj (Option.some.inj after)
    exact .pure (by simp only [Node.seen, around, inner, mark, value])

omit h in
theorem never_follows : M.Follows (Node.seen .full) never never :=
  .ite (.punct (by decide)) (.fail _)
    ((punct_follows (by decide)).returning fun _ _ => congrArg Node.never)

omit h in
theorem infer_follows : M.Follows (Node.seen .full) infer infer :=
  (keyword_follows _).returning fun _ _ => congrArg Node.infer

theorem pointer_follows : M.Follows (Node.seen .full) (pointer g) (pointer g) := by
  refine (punct_follows (by decide)).bind fun _ _ star => .ite (.word _) ?_
    (.ite (.word _) ?_ (.failNoneOf _))
  all_goals
    exact (keyword_follows _).bind fun _ _ mark => (h.type false).returning fun _ _ type => by
      simp only [Node.seen, star, mark, type, Option.map_some, Option.map_none]

theorem reference_follows : M.Follows (Node.seen .full) (reference g) (reference g) :=
  (punct_follows (by decide)).bind fun _ _ ampersand => lifetime?_follows.bind fun _ _ l =>
    (keyword?_follows _).bind fun _ _ word => (h.type false).returning fun _ _ type => by
      simp only [Node.seen, ampersand, l, word, type]

theorem qualifiedPathWithInputs_follows :
    M.Follows (fun x => (x.1.seen .full, x.2.seen .full)) (qualifiedPathWithInputs g)
      (qualifiedPathWithInputs g) := by
  refine (qualifiedPath_follows h false).bind ?_
  rintro ⟨self, p⟩ ⟨self', p'⟩ same
  obtain ⟨start, rest⟩ := Prod.mk.inj same
  refine .ite (.and (.const (endsPlain_of_seen rest)) (.group _))
    ((parenthesizedArgs_follows h).returning fun a a' args => ?_) (.pure same)
  rw [Node.withFinalArguments_seen, Node.withFinalArguments_seen, start, rest, args]

omit h in
theorem withBinder_seen (b : Binder) (t : Ty) :
    Node.seen .full <$> withBinder b t = withBinder (b.seen .full) (t.seen .full) := by
  cases t with
  | traitObject dynToken bounds =>
    simp only [withBinder, Node.seen, Node.separated_seen]
    -- the first bound decides, and it alone is changed
    generalize bounds.separated = xs
    cases xs with
    | empty => rfl
    | last b => cases b <;> rfl
    | cons b s rest =>
      cases b with
      | lifetimeBound => rfl
      | traitBound =>
        simp [Separated.first?, Separated.mapFirst, Node.seen, Node.ofSeparated]
  | _ => rfl

omit h in
theorem withBinder_follows {b b' : Binder} {t t' : Ty} (binder : b.seen .full = b'.seen .full)
    (same : t.seen .full = t'.seen .full) :
    M.Follows (Node.seen .full) (withBinder b t) (withBinder b' t') := by
  refine .of_map ?_ (by rw [withBinder_seen, withBinder_seen, binder, same])
  unfold withBinder
  split
  · split
    · exact .pure rfl
    · exact .fail _
  · exact .pure rfl

theorem afterPath_follows {plus : Bool} {b b' : Option Binder} {self self' : Node .selfType}
    {p p' : Path} (binder : b.map (Binder.seen .full) = b'.map (Binder.seen .full))
    (start : self.seen .full = self'.seen .full) (same : p.seen .full = p'.seen .full) :
    M.Follows (Node.seen .full) (afterPath g b plus self p) (afterPath g b' plus self' p') := by
  have type : M.Follows (Node.seen .full) (pure (Node.pathType self p))
      (pure (Node.pathType self' p')) := .pure (by simp only [Node.seen, start, same])
  have asked : b.isSome = b'.isSome := by rw [← Option.isSome_map, binder, Option.isSome_map]
  unfold afterPath
  by_cases qualified : self ≠ .unqualified
  · rw [if_pos qualified, if_pos (mt (unqualified_of_seen start).2 qualified)]
    exact type
  rw [if_neg qualified, if_neg fun other => qualified (mt (unqualified_of_seen start).1 other)]
  refine .ite (.and near_startsBang (.const (hasNoArguments_of_seen same)))
    ((invocation_follows same).returning fun _ _ => congrArg Node.macroType) (.ite
    (.or (.const asked) (.and (.const rfl) (.punct (by decide)))) ?_ type)
  cases plus with
  | true =>
    have first : (Node.traitBound none none b p).seen .full =
        (Node.traitBound none none b' p').seen .full := by
      simp only [Node.seen, binder, same]
    exact (listAfter_follows near_boundsBeforeAngle (bound_follows h) first).returning
      fun _ _ bounds => by simp only [Node.seen, Node.seen_ofSeparated, bounds]
  | false =>
    refine .pure ?_
    simp only [Node.seen, Node.seen_ofSeparated, Separated.seen_last, binder, same]

theorem pathLike_follows {plus : Bool} {b b' : Option Binder}
    (same : b.map (Binder.seen .full) = b'.map (Binder.seen .full)) :
    M.Follows (Node.seen .full) (pathLike g b plus) (pathLike g b' plus) := by
  rw [pathLike_eq, pathLike_eq]
  refine .ite (.word _) ((traitObject_follows h plus).bind fun object object' type => ?_)
    ((qualifiedPathWithInputs_follows h).bind ?_)
  · rcases b with _ | b <;> rcases b' with _ | b'
    · exact .pure type
    · cases same
    · cases same
    · exact withBinder_follows (Option.some.inj same) type
  · rintro ⟨self, p⟩ ⟨self', p'⟩ path
    obtain ⟨start, rest⟩ := Prod.mk.inj path
    exact afterPath_follows h same start rest

theorem objectAfter_follows {b b' : Bound} (same : b.seen .full = b'.seen .full) :
    M.Follows (Node.seen .full) (objectAfter g b) (objectAfter g b') :=
  (listAfter_follows (near_joined (by decide)) (bound_follows h) same).returning
    fun _ _ bounds => by simp only [Node.seen, Node.seen_ofSeparated, bounds]

omit h in
/-- What is seen of the contents of parentheses. -/
def Parenthesized.seen (s : Sight) : Parenthesized → Parenthesized
  | .tuple elems => .tuple (elems.seen (Node.seen s))
  | .object elem => .object (elem.seen s)
  | .bound b => .bound (b.seen s)
  | .type elem => .type (elem.seen s)

theorem parenContents_follows :
    M.Follows (Parenthesized.seen .full) (parenContents g) (parenContents g) :=
  .ite .isEmpty (.pure rfl) <|
  .ite (.kind _)
    ((traitObject_follows h true).returning fun _ _ => congrArg Parenthesized.object) <|
  .ite (.punct (by decide))
    ((traitBound_follows h).returning fun _ _ => congrArg Parenthesized.bound) <|
  (h.type true).bind fun _ _ first => .ite (.punct (by decide))
    ((punct_follows (by decide)).bind fun _ _ comma =>
      (list_follows (near_filling (by decide)) (h.type true)).returning fun _ _ elems => by
        simp only [Parenthesized.seen, Separated.seen_cons, first, comma, elems])
    (.pure (congrArg Parenthesized.type first))

theorem parenthesized_follows (plus : Bool) :
    M.Follows (Node.seen .full) (parenthesized g plus) (parenthesized g plus) := by
  refine (inGroup_follows .paren (parenContents_follows h)).bind ?_
  rintro ⟨paren, contents⟩ ⟨paren', contents'⟩ same
  obtain ⟨around, inner⟩ := Prod.mk.inj same
  cases contents <;> cases contents' <;>
    simp only [Parenthesized.seen, Parenthesized.tuple.injEq, Parenthesized.object.injEq,
      Parenthesized.bound.injEq, Parenthesized.type.injEq, reduceCtorEq] at inner
  case tuple.tuple =>
    refine .pure ?_
    simp only [Node.seen, Node.seen_ofSeparated, around, inner]
  case object.object =>
    refine .pure ?_
    simp only [Node.seen, around, inner]
  case bound.bound => exact objectAfter_follows h (inParens_of_seen around inner)
  case type.type elem elem' =>
    have type : M.Follows (Node.seen .full) (pure (Node.parenType paren elem))
        (pure (Node.parenType paren' elem')) := .pure (by simp only [Node.seen, around, inner])
    refine .ite (.and (.const rfl) (.punct (by decide))) ?_ type
    have first : (boundOfType? paren elem).map (Node.seen .full) =
        (boundOfType? paren' elem').map (Node.seen .full) := by
      rw [← Node.boundOfType?_seen, ← Node.boundOfType?_seen, around, inner]
    cases promoted : boundOfType? paren elem <;> cases promoted' : boundOfType? paren' elem' <;>
      rw [promoted, promoted'] at first
    · exact type
    · cases first
    · cases first
    · exact objectAfter_follows h (Option.some.inj first)

omit h in
theorem typeBinder?_follows :
    M.Follows (Option.map (Binder.seen .full)) typeBinder? typeBinder? := by
  have near : IsNear (fun ts => afterBinder.any (·.isMet ts))
      fun ts => afterBinder.any (·.isMet ts) := by
    refine .any fun e mem => .isMet ?_
    rintro op rfl
    simp [afterBinder] at mem
  exact .ite (.word _) (binder_follows.bind fun _ _ b =>
    .ite near (.pure (congrArg some b)) (.failNoneOf _)) (.pure rfl)

omit h in
theorem near_startsBareFn : IsNear startsBareFn startsBareFn :=
  .or (.or (.word _) (.word _)) (.and (.word _) (.not (.punctAfter 1 (by decide))))

theorem typeAfter_follows {plus : Bool} {b b' : Option Binder}
    (same : b.map (Binder.seen .full) = b'.map (Binder.seen .full)) :
    M.Follows (Node.seen .full) (typeAfter g b plus) (typeAfter g b' plus) :=
  .ite (.group _) (parenthesized_follows h plus) <|
  .ite near_startsBareFn (bareFnAfter_follows h same) <|
  .ite near_startsPath (pathLike_follows h same) <|
  .ite (.group _) (arrayOrSlice_follows h) <|
  .ite (.punct (by decide)) (pointer_follows h) <|
  .ite (.punct (by decide)) (reference_follows h) <|
  .ite near_startsBang never_follows <|
  .ite (.word _) (implTrait_follows h) <|
  .ite (.word _) infer_follows <|
  .ite (.kind _) (traitObject_follows h plus) (.failNoneOf _)

theorem type_follows (plus : Bool) :
    M.Follows (Node.seen .full) (type g plus) (type g plus) :=
  .ite (.group _) (groupType_follows h)
    (typeBinder?_follows.bind fun _ _ b => typeAfter_follows h b)

end

end Parse

namespace Grammar

theorem above_reads {M : Matching} {g : Grammar} (h : M.Reads g) : M.Reads (above g) :=
  ⟨Parse.type_follows h, Parse.bound_follows h, Parse.expr_follows h⟩

theorem ofDepth_reads (M : Matching) (depth : Nat) : M.Reads (ofDepth depth) := by
  induction depth with
  | zero => exact ⟨fun _ => .fail _, .fail _, fun _ => .fail _⟩
  | succ depth ih => exact above_reads ih

end Grammar

/-! ## Types -/

/-- A type is read with any grammar that is deep enough for the trees ahead. -/
theorem parseType_eq {plus : Bool} {c : Cursor} {depth : Nat} (deep : c.size < depth) :
    parseType plus c = Parse.type (Grammar.ofDepth depth) plus c :=
  (Parse.type_settles (Grammar.ofDepth_settles deep) plus
    (Nat.lt_succ_of_lt (Nat.lt_succ_self c.size))).1.symm

/-- Reading a type follows itself: one grammar is deep enough for both runs. -/
theorem parseType_follows (M : Matching) (plus : Bool) :
    M.Follows (Node.seen .full) (parseType plus) (parseType plus) := by
  intro c
  have deep (depth : Nat) := Parse.type_follows (Grammar.ofDepth_reads M depth) plus c
  obtain ⟨n, inside, moved, -⟩ := deep (c.size + 1)
  rw [← parseType_eq (Nat.lt_succ_self _)] at moved
  refine ⟨n, inside, moved, fun c' limit up enough => ?_⟩
  obtain ⟨k, -, moved', agree⟩ := deep (max c.size c'.size + 1)
  have here : c.size < max c.size c'.size + 1 := Nat.lt_succ_of_le (Nat.le_max_left ..)
  have there : c'.size < max c.size c'.size + 1 := Nat.lt_succ_of_le (Nat.le_max_right ..)
  rw [← parseType_eq here] at moved' agree
  obtain rfl := Matching.FollowsAt.skip_inj (moved.symm.trans moved')
  have again := agree up enough
  dsimp only at again ⊢
  rwa [← parseType_eq there] at again

/-- A type is read to the same end at matching cursors. -/
theorem wholeType_follows (M : Matching) (plus : Bool) :
    M.Follows (Node.seen .full) (Parser.wholeType plus) (Parser.wholeType plus) :=
  (parseType_follows M plus).bind fun _ _ same => Parser.atEnd_follows.bind fun _ _ _ => .pure same

/-- How reading a type ends, where `f` is what is seen of errors: the type outside any file, or the
error, and the position of the cursor. -/
def ending {ε : Type} (f : ParseError → ε) : EStateM.Result ParseError Cursor Ty → Except ε Ty × Nat
  | .ok t c => (.ok t.erase, c.pos)
  | .error e c => (.error (f e), c.pos)

theorem ending_pos {ε : Type} (f : ParseError → ε) (r : EStateM.Result ParseError Cursor Ty) :
    (ending f r).2 = (cursorAfter r).pos := by
  cases r <;> rfl

theorem Matching.Agree.ending_eq {M : Matching} {ε : Type} {f : ParseError → ε}
    {r r' : EStateM.Result ParseError Cursor Ty} (agree : M.Agree (Node.seen .full) r r')
    (error : ∀ e e' : ParseError, e.fault = e'.fault → M.places e.span e'.span → f e = f e')
    (pos : (cursorAfter r).pos = (cursorAfter r').pos) : ending f r = ending f r' := by
  cases r with
  | ok t c =>
    cases r' with
    | ok t' c' =>
      have value : t.erase = t'.erase := by
        rw [← Node.seen_full, ← Node.seen_full]
        exact agree
      exact congrArg₂ (fun t n => (Except.ok t, n)) value pos
    | error => exact agree.elim
  | error e c =>
    cases r' with
    | ok => exact agree.elim
    | error e' c' =>
      exact congrArg₂ (fun x n => (Except.error x, n)) (error e e' agree.1 agree.2) pos

/-- Reading a type ends alike at cursors that match up to where the first run ends. -/
theorem parseType_ending {M : Matching} {ε : Type} {f : ParseError → ε} {plus : Bool}
    {c c' : Cursor} {n : Nat} (stops : (ending f (parseType plus c)).2 = c.pos + n)
    (up : M.upTo n c c') (start : c.pos = c'.pos)
    (error : ∀ e e' : ParseError, e.fault = e'.fault → M.places e.span e'.span → f e = f e') :
    ending f (parseType plus c) = ending f (parseType plus c') := by
  obtain ⟨k, -, moved, agree⟩ := parseType_follows M plus c
  obtain rfl : k = n := by
    rw [ending_pos, moved] at stops
    exact Nat.add_left_cancel stops
  obtain ⟨alike, moved'⟩ := agree up (Nat.lt_succ_self _)
  refine alike.ending_eq error ?_
  rw [moved, moved']
  exact congrArg (· + k) start

end TypeGrammar
