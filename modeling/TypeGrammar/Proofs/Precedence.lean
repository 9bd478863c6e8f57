import TypeGrammar.Proofs.Outcomes
import TypeGrammar.Proofs.RoundTrip

/-!
# Expressions that respect the powers of their operators

An expression respects the powers if each of its operands binds as tightly as the operator asks for.
Every expression that is read respects them. The other way round, the trees of an expression of
literals, names, operators and parentheses that respects the powers are read as this expression. So
an expression that does not respect them is not read from its trees.
-/

namespace TypeGrammar

open TokenTree

/-! ## Powers -/

namespace Node

/-- The left power of the operator of a binary expression. -/
def level? : Expr → Option Nat
  | .binary _ op _ => (binaryOperators.find? fun o => o.text = op.text).map BinaryOperator.left
  | _ => none

/-- No operand is a binary expression that binds more loosely than the operator asks for: as the
operand of a unary operator it always does, as a left operand if its operator is looser, and as a
right operand also if it is as tight. -/
def Respects {k : Category} : Node k → Prop
  | .unary _ operand => operand.Respects ∧ operand.level? = none
  | .binary left op right => left.Respects ∧ right.Respects ∧
      ∀ level ∈ (binary left op right).level?,
        (∀ p ∈ left.level?, level ≤ p) ∧ ∀ p ∈ right.level?, level < p
  | .parenExpr _ inner => inner.Respects
  | _ => True

/-- Expressions of literals, names, operators and parentheses. -/
inductive Arithmetic : Expr → Prop
  | literal {t : Token} : t.kind.isLiteral = true → Arithmetic (.literal t)
  | truth {t : Token} : t.kind = .keyword → t.text ∈ ["true", "false"] → Arithmetic (.literal t)
  | name {t : Token} : t.kind = .identifier → t.text ∉ keywords →
      Arithmetic (.pathExpr .unqualified (.path none (.last (.segment t .noArguments))))
  | unary {op : String} {span : Span} {e : Expr} : op ∈ unaryOperators → Arithmetic e →
      Arithmetic (.unary (.punct op span) e)
  | binary {o : BinaryOperator} {span : Span} {l r : Expr} : o ∈ binaryOperators → Arithmetic l →
      Arithmetic r → Arithmetic (.binary l (.punct o.text span) r)
  | parenExpr {span : Span} {e : Expr} : Arithmetic e → Arithmetic (.parenExpr ⟨.paren, span⟩ e)

/-! ### Trees -/

theorem trees_literal {t : Token} (word : t.kind ≠ .punct) : (literal t).trees = [.token t] := by
  simp [trees, print, Printed.whole, Printed.trees, Printed.joined, Token.trees, word]

theorem trees_name {t : Token} (word : t.kind ≠ .punct) :
    (pathExpr .unqualified (.path none (.last (.segment t .noArguments)))).trees = [.token t] := by
  simp [trees, print, Printed.whole, Printed.trees, Printed.joined, tokenTrees, Token.trees, word]

theorem trees_unary (op : Token) (e : Expr) : (unary op e).trees = op.trees ++ e.trees := by
  simp [trees, print, Printed.whole, Printed.trees, Printed.joined]

theorem trees_binary (l : Expr) (op : Token) (r : Expr) :
    (binary l op r).trees = l.trees ++ (op.trees ++ r.trees) := by
  simp [trees, print, Printed.whole, Printed.trees, Printed.joined]

theorem trees_parenExpr (paren : Delim) (e : Expr) :
    (parenExpr paren e).trees = paren.around e.trees := by
  simp [trees, print, Printed.whole, Printed.trees, Printed.joined]

/-! ### Places -/

theorem level?_erase (e : Expr) : e.erase.level? = e.level? := by
  cases e <;> rfl

/-- Respecting the powers does not depend on places. -/
theorem respects_erase : (e : Expr) → (e.erase.Respects ↔ e.Respects)
  | .unary op operand => by simp only [erase, Respects, level?_erase, respects_erase operand]
  | .binary left op right => by
    have same := level?_erase (.binary left op right)
    simp only [erase] at same
    simp only [erase, Respects, level?_erase, respects_erase left, respects_erase right, same]
  | .parenExpr paren inner => by simp only [erase, Respects, respects_erase inner]
  | .literal _ | .pathExpr _ _ | .cast .. | .call .. | .block .. | .macroExpr _ => by
    simp only [erase, Respects]

theorem level?_binary {o : BinaryOperator} (mem : o ∈ binaryOperators) (l r : Expr) (span : Span) :
    (binary l (.punct o.text span) r).level? = some o.left := by
  have found : ∀ o ∈ binaryOperators,
      (binaryOperators.find? fun o' => o'.text = o.text).map BinaryOperator.left = some o.left := by
    decide
  exact found o mem

end Node

/-- A right operand is read with the next power, and every binary operator binds more loosely than
the unary operators. -/
theorem BinaryOperator.powers : ∀ o ∈ binaryOperators,
    o.right = o.left + 1 ∧ o.left < unaryPower := by
  decide

theorem Node.level?_lt {e : Expr} {p : Nat} (h : e.level? = some p) : p < unaryPower := by
  cases e with
  | binary left op right =>
    obtain ⟨o, found, rfl⟩ := Option.map_eq_some_iff.1 h
    exact (BinaryOperator.powers o (List.mem_of_find?_eq_some found)).2
  | _ => cases h

/-- What binds as tightly as a unary operator asks for is no binary expression. -/
theorem Node.level?_none {e : Expr} (h : ∀ p ∈ e.level?, unaryPower ≤ p) : e.level? = none :=
  Option.eq_none_iff_forall_ne_some.2 fun p known =>
    Nat.lt_irrefl p (Nat.lt_of_lt_of_le (level?_lt known) (h p known))

namespace Parse

open TypeGrammar.Parser

variable {g : Grammar} {power : Nat} {e : Expr} {c c' : Cursor}

/-! ## What is read respects the powers -/

/-- What is known of an expression that was read with a power, and of what follows it. -/
structure BindsBy (power : Nat) (e : Expr) (rest : List TokenTree) : Prop where
  respects : e.Respects
  level : ∀ p ∈ e.level?, power ≤ p
  stops : ∀ o ∈ binaryOperator? rest, o.left < power

theorem binaryOperator?_group {ts : List TokenTree} {d : Delimiter}
    (h : startsGroup d ts = true) : binaryOperator? ts = none := by
  match ts with
  | .group .. :: _ => exact binaryOperator?_none fun _ => startsPunct_group

theorem binaryOperator?_word {ts : List TokenTree} {word : String}
    (h : startsWord word ts = true) : binaryOperator? ts = none := by
  obtain ⟨t, us, rfl, isWord⟩ := startsWord_token h
  exact binaryOperator?_none fun op => startsPunct_word isWord.kind_ne

section

variable (hg : ∀ {power e c c'}, g.expr power c = .ok e c' → BindsBy power e c'.rest)
include hg

/-- An operand is no binary expression. -/
theorem operand_respects (h : operand g c = .ok e c') : e.Respects ∧ e.level? = none := by
  unfold operand at h
  rw [look_bind_ok] at h
  cases starts : unaryOperator? c.rest with
  | some op =>
    simp only [starts, bind_ok, pure_ok] at h
    obtain ⟨mark, c₁, -, e, _, run, rfl, rfl⟩ := h
    obtain ⟨respects, level, -⟩ := hg run
    exact ⟨⟨respects, Node.level?_none level⟩, rfl⟩
  | none =>
    simp only [starts] at h
    simp only [↓look_ite_ok, bind_ok, pure_ok, failNoneOf_ok] at h
    obtain ⟨-, t, _, run, rfl, rfl⟩ | ⟨-, ⟨-, t, _, run, rfl, rfl⟩ | ⟨-, ⟨-, t, _, run, rfl, rfl⟩ |
      ⟨-, ⟨-, ⟨paren, e⟩, _, run, rfl, rfl⟩ | ⟨-, ⟨-, ⟨brace, tokens⟩, _, run, rfl, rfl⟩ |
      ⟨-, ⟨-, run⟩ | ⟨-, ⟨⟩⟩⟩⟩⟩⟩⟩ := h
    · exact ⟨trivial, rfl⟩
    · exact ⟨trivial, rfl⟩
    · exact ⟨trivial, rfl⟩
    · obtain ⟨us, o, d, c₁, -, -, run, -⟩ := inGroup_ok run
      exact ⟨(hg run).respects, rfl⟩
    · exact ⟨trivial, rfl⟩
    · unfold pathOrMacro at run
      simp only [↓look_ite_ok, bind_ok, pure_ok] at run
      obtain ⟨_, _, -, ⟨-, _, _, -, rfl, -⟩ | ⟨-, rfl, -⟩⟩ := run <;> exact ⟨trivial, rfl⟩

/-- The loop keeps what is known of its left operand, and that a binary one binds at least as
tightly as the operator after it. -/
theorem operatorsAfter_bindsBy {limit : Nat} {left : Expr} (respects : left.Respects)
    (level : ∀ p ∈ left.level?, power ≤ p)
    (next : ∀ p ∈ left.level?, ∀ o ∈ binaryOperator? c.rest, o.left ≤ p)
    (h : operatorsAfter g power limit left c = .ok e c') : BindsBy power e c'.rest := by
  induction limit generalizing left c with
  | zero => simp [operatorsAfter, fail_ok] at h
  | succ limit ih =>
    have stop (stops : ∀ o ∈ binaryOperator? c.rest, o.left < power)
        (h : (pure left : Parser Expr) c = .ok e c') : BindsBy power e c'.rest := by
      obtain ⟨rfl, rfl⟩ := pure_ok.1 h
      exact ⟨respects, level, stops⟩
    unfold operatorsAfter at h
    simp only [↓look_ite_ok] at h
    obtain ⟨on, h⟩ | ⟨-, ⟨on, h⟩ | ⟨-, h⟩⟩ := h
    · split at h
      · exact stop (by simp [binaryOperator?_group on]) h
      · obtain ⟨⟨paren, args⟩, c₁, -, h⟩ := bind_ok.1 h
        -- what is called or cast is an operand from here on, with no level of its own
        have call : (Node.call left paren (.ofSeparated args)).Respects := trivial
        exact ih call (by simp [Node.level?]) (by simp [Node.level?]) h
    · split at h
      · exact stop (by simp [binaryOperator?_word on]) h
      · simp only [bind_ok] at h
        obtain ⟨asToken, c₁, -, t, c₂, -, h⟩ := h
        have cast : (Node.cast left asToken t).Respects := trivial
        exact ih cast (by simp [Node.level?]) (by simp [Node.level?]) h
    · rw [look_bind_ok] at h
      cases starts : binaryOperator? c.rest with
      | none =>
        simp only [starts] at h
        exact stop (by simp [starts]) h
      | some o =>
        simp only [starts] at h
        split at h
        · rename_i loose
          exact stop (by simpa [starts] using loose) h
        · rename_i tight
          simp only [bind_ok] at h
          obtain ⟨mark, c₁, sign, right, c₂, run, h⟩ := h
          obtain ⟨mem, -⟩ := binaryOperator?_ok starts
          obtain ⟨-, ⟨span, rfl⟩, -⟩ := punct_ok sign
          obtain ⟨respects', level', stops'⟩ := hg run
          obtain ⟨power_right, -⟩ := BinaryOperator.powers o mem
          have here := Node.level?_binary mem left right span
          rw [power_right] at level' stops'
          have binary : (Node.binary left (.punct o.text span) right).Respects := by
            refine ⟨respects, respects', ?_⟩
            rw [here]
            rintro _ ⟨⟩
            exact ⟨fun p known => next p known o starts, level'⟩
          refine ih binary ?_ ?_ h <;> rw [here] <;> rintro _ ⟨⟩
          · exact Nat.le_of_not_lt tight
          · exact fun o' mem => Nat.le_of_lt_succ (stops' o' mem)

theorem expr_bindsBy (h : expr g power c = .ok e c') : BindsBy power e c'.rest := by
  obtain ⟨left, c₁, first, rest⟩ := bind_ok.1 h
  obtain ⟨respects, level⟩ := operand_respects hg first
  exact operatorsAfter_bindsBy hg respects (by simp [level]) (by simp [level]) rest

end

/-- Expressions of any depth respect the powers. -/
theorem ofDepth_bindsBy (depth : Nat) {power : Nat} {e : Expr} {c c' : Cursor}
    (h : (Grammar.ofDepth depth).expr power c = .ok e c') : BindsBy power e c'.rest := by
  induction depth generalizing power e c c' with
  | zero => exact (fail_ok.1 h).elim
  | succ depth ih => exact expr_bindsBy ih h

/-! ## What respects the powers is read -/

/-- No call, no cast, and no longer path or macro call goes on at some trees. -/
structure EndsOperand (ts : List TokenTree) : Prop where
  group : startsGroup .paren ts = false
  cast : startsWord "as" ts = false
  colons : startsPunct "::" ts = false
  bang : startsBang ts = false

theorem EndsOperand.nil : EndsOperand [] :=
  ⟨rfl, rfl, rfl, rfl⟩

theorem binaryOperator?_nil : binaryOperator? [] = none := by
  decide

/-- The trees of the marker of an operator. -/
theorem spells_marker {op : String} (sign : op ∈ signs) (span : Span) (bars : List Char)
    (rest : List TokenTree) :
    SpellsChars bars op.toList (Token.punct op span).trees rest :=
  spellsChars_trees (t := .punct op span) rfl rfl sign

theorem binaryOperator?_marker {o : BinaryOperator} (mem : o ∈ binaryOperators) (span : Span)
    (rest : List TokenTree) :
    binaryOperator? ((Token.punct o.text span).trees ++ rest) = some o :=
  binaryOperator?_spelled mem (spells_marker (binaryOperators_signs o mem) span _ rest)

theorem unaryOperator?_marker {op : String} (mem : op ∈ unaryOperators) (span : Span)
    (rest : List TokenTree) :
    unaryOperator? ((Token.punct op span).trees ++ rest) = some op := by
  have found : ∀ op ∈ unaryOperators,
      (unaryOperators.find? fun op' => op'.toList.isPrefixOf op.toList) = some op ∧
        ∀ op' ∈ unaryOperators, guarded [] op.toList op'.toList := by
    decide
  obtain ⟨found, bars⟩ := found op mem
  have sign := unaryOperators_signs op mem
  rw [unaryOperator?, ← found]
  exact List.find?_congr fun op' mem' =>
    (spells_marker sign span [] rest).starts (signs_nonempty op sign) _ (bars op' mem')

/-- A binary operator goes on with nothing else. -/
theorem EndsOperand.marker {o : BinaryOperator} (mem : o ∈ binaryOperators) (span : Span)
    (rest : List TokenTree) : EndsOperand ((Token.punct o.text span).trees ++ rest) := by
  have sign := binaryOperators_signs o mem
  have spelled := spells_marker sign span [] rest
  have known : ∀ o ∈ binaryOperators, ∀ op ∈ ["::", "!", "!="],
      guarded [] o.text.toList op.toList = true := by
    decide
  have starts (op : String) (asked : op ∈ ["::", "!", "!="]) :=
    spelled.starts (signs_nonempty o.text sign) _ (known o mem op asked)
  have off : ∀ o ∈ binaryOperators, "::".toList.isPrefixOf o.text.toList = false ∧
      ("!".toList.isPrefixOf o.text.toList && !"!=".toList.isPrefixOf o.text.toList) = false := by
    decide
  obtain ⟨colons, bang⟩ := off o mem
  obtain ⟨b, bs, eq⟩ := List.exists_cons_of_ne_nil (signs_nonempty o.text sign)
  rw [eq] at spelled
  obtain ⟨t, us, first, kind, -⟩ := spelled
  refine ⟨?_, ?_, ?_, ?_⟩
  · rw [first]
    rfl
  · simp [first, startsWord, token?, kind]
  · rw [startsPunct, starts "::" (by decide), colons]
  · rw [startsBang, startsPunct, startsPunct, starts "!" (by decide), starts "!=" (by decide), bang]

/-! ### Operators -/

/-- The marker of an operator is taken from its trees. -/
theorem punct_marker {op : String} {span : Span} {rest : List TokenTree} (sign : op ∈ signs)
    (ahead : c.rest = (Token.punct op span).trees ++ rest) :
    ∃ mark c', punct op c = .ok mark c' ∧ c'.rest = rest ∧
      mark.erase = (Token.punct op span).erase ∧ rest.length < c.rest.length := by
  obtain ⟨⟨span', c', run, left⟩, long, -⟩ :=
    punct_spelled sign (spells_marker sign span [] rest) ahead
  refine ⟨_, c', run, left, rfl, ?_⟩
  rw [ahead, List.length_append]
  omega

variable {limit : Nat} {left : Expr}

/-- The loop ends in front of what binds more loosely. -/
theorem operatorsAfter_stop (ends : EndsOperand c.rest)
    (loose : ∀ o ∈ binaryOperator? c.rest, o.left < power) :
    operatorsAfter g power (limit + 1) left c = .ok left c := by
  rw [operatorsAfter, look_no ends.group, look_no ends.cast, look_bind]
  cases starts : binaryOperator? c.rest with
  | none => rfl
  | some o =>
    dsimp only
    rw [if_pos (loose o starts)]
    rfl

/-- The loop goes on with a binary operator that binds tightly enough. -/
theorem operatorsAfter_step {o : BinaryOperator} {mark : Token} {right : Expr} {c₁ c₂ : Cursor}
    (ends : EndsOperand c.rest) (starts : binaryOperator? c.rest = some o)
    (tight : power ≤ o.left) (sign : punct o.text c = .ok mark c₁)
    (run : g.expr o.right c₁ = .ok right c₂) :
    operatorsAfter g power (limit + 1) left c =
      operatorsAfter g power limit (.binary left mark right) c₂ := by
  rw [operatorsAfter, look_no ends.group, look_no ends.cast, look_bind, starts]
  dsimp only
  rw [if_neg (Nat.not_lt.2 tight), bind_of_ok sign, bind_of_ok run]

/-! ### Operands -/

theorem unaryOperator?_none {t : TokenTree} {us : List TokenTree}
    (off : ∀ op, op.toList ≠ [] → startsPunct op (t :: us) = false) :
    unaryOperator? (t :: us) = none := by
  refine List.find?_eq_none.2 fun op mem => ?_
  rw [off op (signs_nonempty op (unaryOperators_signs op mem))]
  exact Bool.false_ne_true

theorem startsWord_other {t : Token} {us : List TokenTree} {word : String} (ne : t.text ≠ word) :
    startsWord word (.token t :: us) = false := by
  simp [startsWord, token?, ne]

theorem isLiteral_ne {k : TokenKind} (h : k.isLiteral = true) : k ≠ .punct := by
  rintro rfl
  cases h

theorem operand_literal {t : Token} {rest : List TokenTree} (kind : t.kind.isLiteral = true)
    (ahead : c.rest = .token t :: rest) : operand g c = .ok (.literal t) (c.skip 1) := by
  have word := isLiteral_ne kind
  have starts : startsLiteral c.rest = true := by simpa [ahead, startsLiteral, startsKind, token?]
  have took : literal c = .ok t (c.skip 1) := by
    simp [literal, take, ahead, Expectation.isMet, ← starts]
  have noSign : unaryOperator? c.rest = none :=
    ahead ▸ unaryOperator?_none fun op => startsPunct_word word
  rw [operand, look_bind, noSign]
  dsimp only
  rw [look_yes starts, bind_of_ok took]
  rfl

theorem operand_truth {t : Token} {rest : List TokenTree} (kind : t.kind = .keyword)
    (text : t.text ∈ ["true", "false"]) (ahead : c.rest = .token t :: rest) :
    operand g c = .ok (.literal t) (c.skip 1) := by
  have word : t.kind ≠ .punct := by
    rw [kind]
    decide
  have off : startsLiteral c.rest = false := by
    simp [ahead, startsLiteral, startsKind, token?, kind, TokenKind.isLiteral]
  have starts : startsWord t.text c.rest = true := by simp [ahead, startsWord, token?, kind]
  have took : keyword t.text c = .ok t (c.skip 1) := by
    simp [keyword, take, ahead, Expectation.isMet, startsWord, token?, kind]
  have noSign : unaryOperator? c.rest = none :=
    ahead ▸ unaryOperator?_none fun op => startsPunct_word word
  rw [operand, look_bind, noSign]
  dsimp only
  rw [look_no off]
  simp only [List.mem_cons, List.not_mem_nil, or_false] at text
  obtain text | text := text <;> rw [text] at starts took
  · rw [look_yes starts, bind_of_ok took]
    rfl
  · have other : startsWord "true" c.rest = false := by
      rw [ahead]
      exact startsWord_other (by rw [text]; decide)
    rw [look_no other, look_yes starts, bind_of_ok took]
    rfl

section

variable {t : Token} {rest : List TokenTree} (kind : t.kind = .identifier)
  (known : t.text ∉ keywords) (ahead : c.rest = .token t :: rest) (ends : EndsOperand rest)
include known ahead

theorem startsWord_name : ∀ word ∈ keywords, startsWord word c.rest = false := by
  intro word mem
  rw [ahead]
  exact startsWord_other fun eq => known (eq ▸ mem)

include kind ends

theorem segment_name : segment g true c = .ok (.segment t .noArguments) (c.skip 1) := by
  have other := startsWord_name known ahead
  have root : (bareRoots.any fun word => startsWord word c.rest) = false :=
    List.any_eq_false.2 fun word mem =>
      Bool.eq_false_iff.1 (other word ((by decide : ∀ word ∈ bareRoots, word ∈ keywords) word mem))
  have took : identifier c = .ok t (c.skip 1) := by
    simp [identifier, take, ahead, Expectation.isMet, startsIdentifier, startsKind, token?, kind]
  have after : (c.skip 1).rest = rest := by simp [Cursor.skip, ahead]
  have bare : startsArguments true (c.skip 1).rest = false := by
    simp [startsArguments, after, ends.colons]
  rw [segment, look_no root, look_no (other "Self" (by decide)), bind_of_ok took]
  exact look_no bare

theorem path_name :
    path g true c = .ok (.path none (.last (.segment t .noArguments))) (c.skip 1) := by
  have word : t.kind ≠ .punct := by
    rw [kind]
    decide
  have bare : startsPunct "::" c.rest = false := by
    rw [ahead, startsPunct_word word (by decide)]
  have alone : startsPunct "::" (c.skip 1).rest = false := by
    simp [Cursor.skip, ahead, ends.colons]
  have leading : punct? "::" c = .ok none c := look_no bare
  have segments : list1 (joined "::") (segment g true) c =
      .ok (.last (.segment t .noArguments)) (c.skip 1) := by
    rw [list1, bind_of_ok (segment_name kind known ahead ends), listAfter_stop alone]
  rw [path, bind_of_ok leading, bind_of_ok segments]
  rfl

theorem operand_name : operand g c =
    .ok (.pathExpr .unqualified (.path none (.last (.segment t .noArguments)))) (c.skip 1) := by
  have word : t.kind ≠ .punct := by
    rw [kind]
    decide
  have other := startsWord_name known ahead
  have literal : startsLiteral c.rest = false := by
    simp [ahead, startsLiteral, startsKind, token?, kind, TokenKind.isLiteral]
  have group (d : Delimiter) : startsGroup d c.rest = false := by
    rw [ahead]
    rfl
  have name : startsPath c.rest = true := by
    simp [ahead, startsPath, startsIdentifier, startsKind, token?, kind]
  have unqualified : startsPunct "<" c.rest = false := by
    rw [ahead, startsPunct_word word (by decide)]
  have bang : startsBang (c.skip 1).rest = false := by
    simp [Cursor.skip, ahead, ends.bang]
  have path : qualifiedPath g true c =
      .ok (.unqualified, .path none (.last (.segment t .noArguments))) (c.skip 1) := by
    rw [qualifiedPath, look_no unqualified, bind_of_ok (path_name kind known ahead ends)]
    rfl
  have noSign : unaryOperator? c.rest = none :=
    ahead ▸ unaryOperator?_none fun op => startsPunct_word word
  rw [operand, look_bind, noSign]
  dsimp only
  rw [look_no literal, look_no (other "true" (by decide)), look_no (other "false" (by decide)),
    look_no (group _), look_no (group _), look_yes name, pathOrMacro, bind_of_ok path]
  exact look_no (by simp [bang])

end

theorem operand_unary {op : String} {mark : Token} {c₁ c₂ : Cursor}
    (starts : unaryOperator? c.rest = some op) (sign : punct op c = .ok mark c₁)
    (run : g.expr unaryPower c₁ = .ok e c₂) : operand g c = .ok (.unary mark e) c₂ := by
  rw [operand, look_bind, starts]
  dsimp only
  rw [bind_of_ok sign, bind_of_ok run]
  rfl

theorem operand_paren {ts rest : List TokenTree} {o d : Span} {c₁ : Cursor}
    (ahead : c.rest = .group .paren ts o d :: rest)
    (run : g.expr 0 (Cursor.ofTrees ts d) = .ok e c₁) (done : c₁.rest = []) :
    operand g c = .ok (.parenExpr ⟨.paren, o⟩ e) (c.skip 1) := by
  have opened := (Rereads.openGroup_run (k := ⟨.paren, o⟩) ahead).1
  have group : inGroup .paren (g.expr 0) c = .ok (⟨.paren, o⟩, e) (c.skip 1) := by
    simp only [inGroup, bind_ok, runAt_ok, pure_ok, atEnd_ok]
    exact ⟨_, _, opened, e, _, ⟨rfl, c₁, e, c₁, run, (), c₁, ⟨done, rfl⟩, rfl, rfl⟩, rfl, rfl⟩
  have noSign : unaryOperator? c.rest = none :=
    ahead ▸ unaryOperator?_none fun _ => startsPunct_group
  have literal : startsLiteral c.rest = false := by
    rw [ahead]
    rfl
  have word (text : String) : startsWord text c.rest = false := by
    rw [ahead]
    rfl
  have paren : startsGroup .paren c.rest = true := by
    rw [ahead]
    rfl
  rw [operand, look_bind, noSign]
  dsimp only
  rw [look_no literal, look_no (word "true"), look_no (word "false"), look_yes paren,
    bind_of_ok group]
  rfl

/-! ### All expressions -/

/-- Reading from `c` comes to the loop after the operand `e`, in front of `rest`. -/
def ReadsFirst (g : Grammar) (power : Nat) (c : Cursor) (e : Expr) (rest : List TokenTree) : Prop :=
  ∃ e' c' limit, e'.erase = e.erase ∧ c'.rest = rest ∧ rest.length < limit ∧
    expr g power c = operatorsAfter g power limit e' c'

theorem ReadsFirst.operand {e' : Expr} {rest : List TokenTree} (same : e'.erase = e.erase)
    (after : c'.rest = rest) (run : operand g c = .ok e' c') : ReadsFirst g power c e rest := by
  subst after
  exact ⟨e', c', c'.rest.length + 1, same, rfl, Nat.lt_succ_self _, bind_of_ok run⟩

/-- In front of what binds more loosely, the operand is all that is read. -/
theorem ReadsFirst.stop {rest : List TokenTree} (h : ReadsFirst g power c e rest)
    (ends : EndsOperand rest) (loose : ∀ o ∈ binaryOperator? rest, o.left < power) :
    ∃ e' c', expr g power c = .ok e' c' ∧ c'.rest = rest ∧ e'.erase = e.erase := by
  obtain ⟨e', c', limit, same, rfl, enough, run⟩ := h
  obtain ⟨limit, rfl⟩ := Nat.exists_eq_add_of_lt enough
  exact ⟨e', c', run.trans (operatorsAfter_stop ends loose), rfl, same⟩

/-- An expression that respects the powers is the first operand in front of what binds no more
tightly than its own operator. -/
theorem reads_arithmetic (hg : ∀ power, g.expr power = expr g power) {e : Expr}
    (plain : e.Arithmetic) {power : Nat} {c : Cursor} {rest : List TokenTree}
    (respects : e.Respects) (level : ∀ p ∈ e.level?, power ≤ p) (ahead : c.rest = e.trees ++ rest)
    (ends : EndsOperand rest) (loose : ∀ p ∈ e.level?, ∀ o ∈ binaryOperator? rest, o.left ≤ p) :
    ReadsFirst g power c e rest := by
  induction plain generalizing power c rest with
  | @literal t kind =>
    rw [Node.trees_literal (isLiteral_ne kind)] at ahead
    exact .operand rfl (by simp [Cursor.skip, ahead]) (operand_literal kind ahead)
  | @truth t kind text =>
    rw [Node.trees_literal (by simp [kind])] at ahead
    exact .operand rfl (by simp [Cursor.skip, ahead]) (operand_truth kind text ahead)
  | @name t kind known =>
    rw [Node.trees_name (by simp [kind])] at ahead
    exact .operand rfl (by simp [Cursor.skip, ahead]) (operand_name kind known ahead ends)
  | @unary op span e mem plain ih =>
    rw [Node.trees_unary, List.append_assoc] at ahead
    obtain ⟨respects, loosest⟩ := respects
    obtain ⟨mark, c₁, sign, after, text, -⟩ := punct_marker (unaryOperators_signs op mem) ahead
    have inner : ReadsFirst g unaryPower c₁ e rest :=
      ih respects (by simp [loosest]) after ends (by simp [loosest])
    obtain ⟨e', c₂, run, after, same⟩ := inner.stop ends fun o starts =>
      (BinaryOperator.powers o (binaryOperator?_ok starts).1).2
    refine .operand ?_ after
      (operand_unary (ahead ▸ unaryOperator?_marker mem span _) sign (hg _ ▸ run))
    rw [Node.erase, Node.erase, text, same]
  | @binary o span l r mem plain plain' ihl ihr =>
    rw [Node.trees_binary, List.append_assoc, List.append_assoc] at ahead
    obtain ⟨respectsLeft, respectsRight, tight⟩ := respects
    have here := Node.level?_binary mem l r span
    obtain ⟨tightLeft, tightRight⟩ := tight _ here
    have powerLeft := level _ here
    have next := binaryOperator?_marker mem span (r.trees ++ rest)
    -- the left operand is not read to its end: the loop that reads it goes on with this operator
    obtain ⟨l', c₁, limit, sameLeft, after, enough, start⟩ := ihl respectsLeft
      (fun p known => Nat.le_trans powerLeft (tightLeft p known)) ahead (.marker mem span _)
      fun p known o' starts => by
        rw [next] at starts
        cases starts
        exact tightLeft p known
    obtain ⟨mark, c₂, sign, after', text, shorter⟩ :=
      punct_marker (binaryOperators_signs o mem) after
    obtain ⟨powerRight, -⟩ := BinaryOperator.powers o mem
    -- the right operand is read to its end, as what follows is no tighter than this operator
    have right : ReadsFirst g o.right c₂ r rest :=
      ihr respectsRight (fun p known => powerRight ▸ tightRight p known) after' ends
        fun p known o' starts => Nat.le_of_lt (Nat.lt_of_le_of_lt (loose _ here o' starts)
          (tightRight p known))
    obtain ⟨r', c₃, run, after'', sameRight⟩ := right.stop ends fun o' starts =>
      powerRight ▸ Nat.lt_succ_of_le (loose _ here o' starts)
    have ends' : EndsOperand c₁.rest := after ▸ .marker mem span _
    have starts : binaryOperator? c₁.rest = some o := after ▸ next
    obtain ⟨limit, rfl⟩ : ∃ m, limit = m + 1 := ⟨limit - 1, by omega⟩
    refine ⟨.binary l' mark r', c₃, limit, ?_, after'', ?_, start.trans
      (operatorsAfter_step ends' starts powerLeft sign (hg _ ▸ run))⟩
    · rw [Node.erase, Node.erase, sameLeft, text, sameRight]
    · rw [← after] at enough
      rw [List.length_append] at shorter
      omega
  | @parenExpr span e plain ih =>
    rw [Node.trees_parenExpr] at ahead
    have inner : ReadsFirst g 0 (Cursor.ofTrees e.trees .callSite) e [] :=
      ih respects (fun _ _ => Nat.zero_le _) (List.append_nil _).symm .nil
        (by simp [binaryOperator?_nil])
    obtain ⟨e', c₁, run, done, same⟩ := inner.stop .nil (by simp [binaryOperator?_nil])
    refine .operand ?_ (by simp [Cursor.skip, ahead, Delim.around])
      (operand_paren ahead (hg _ ▸ run) done)
    rw [Node.erase, Node.erase, same]

end Parse

/-- The trees of an expression of literals, names, operators and parentheses are read as this
expression exactly if it respects the powers of its operators. -/
theorem expr_trees_iff {e : Expr} (plain : e.Arithmetic) (endSpan : Span) :
    (∃ e' c', Parser.deep (fun g => Parse.expr g 0) (Cursor.ofTrees e.trees endSpan) = .ok e' c' ∧
      c'.rest = [] ∧ e'.erase = e.erase) ↔ e.Respects := by
  constructor
  · rintro ⟨e', c', run, -, same⟩
    have known := (Parse.expr_bindsBy (Parse.ofDepth_bindsBy _) run).respects
    rw [← Node.respects_erase, ← same, Node.respects_erase]
    exact known
  · intro respects
    have whole : ∀ power, Grammar.whole.expr power = Parse.expr Grammar.whole power := fun power =>
      congrFun (congrArg Grammar.expr Grammar.whole_eq_above) power
    have first : Parse.ReadsFirst Grammar.whole 0 (Cursor.ofTrees e.trees endSpan) e [] :=
      Parse.reads_arithmetic whole plain respects (fun _ _ => Nat.zero_le _)
        (List.append_nil _).symm .nil (by simp [Parse.binaryOperator?_nil])
    rw [show Parser.deep (fun g => Parse.expr g 0) = Parse.expr Grammar.whole 0 from whole 0]
    exact first.stop .nil (by simp [Parse.binaryOperator?_nil])

/-- A sum is read from its trees if one operand is a product, but a product is not if one operand is
a sum. -/
theorem expr_trees_iff_product :
    ∃ sum product : Expr, sum.Arithmetic ∧ product.Arithmetic ∧
      (∃ e' c', Parser.deep (fun g => Parse.expr g 0) (Cursor.ofTrees sum.trees .callSite) =
        .ok e' c' ∧ c'.rest = [] ∧ e'.erase = sum.erase) ∧
      ¬ ∃ e' c', Parser.deep (fun g => Parse.expr g 0) (Cursor.ofTrees product.trees .callSite) =
        .ok e' c' ∧ c'.rest = [] ∧ e'.erase = product.erase := by
  let one : Expr := .literal ⟨.integer, "1", .callSite, false⟩
  let plus (l r : Expr) : Expr := .binary l (.punct "+" .callSite) r
  let times (l r : Expr) : Expr := .binary l (.punct "*" .callSite) r
  have number : one.Arithmetic := .literal rfl
  have add {l r : Expr} (hl : l.Arithmetic) (hr : r.Arithmetic) : (plus l r).Arithmetic :=
    .binary (o := ⟨"+", 15, 16⟩) (by decide) hl hr
  have mul {l r : Expr} (hl : l.Arithmetic) (hr : r.Arithmetic) : (times l r).Arithmetic :=
    .binary (o := ⟨"*", 17, 18⟩) (by decide) hl hr
  have sum : (plus one (times one one)).Arithmetic := add number (mul number number)
  have product : (times one (plus one one)).Arithmetic := mul number (add number number)
  have level_plus (l r : Expr) : (plus l r).level? = some 15 :=
    Node.level?_binary (o := ⟨"+", 15, 16⟩) (by decide) l r .callSite
  have level_times (l r : Expr) : (times l r).level? = some 17 :=
    Node.level?_binary (o := ⟨"*", 17, 18⟩) (by decide) l r .callSite
  refine ⟨_, _, sum, product, (expr_trees_iff sum .callSite).2 ?_,
    mt (expr_trees_iff product .callSite).1 ?_⟩
  · refine ⟨trivial, ⟨trivial, trivial, fun _ _ => ⟨nofun, nofun⟩⟩, ?_⟩
    rintro _ here
    cases (level_plus one (times one one)).symm.trans here
    exact ⟨nofun, fun p known => by cases (level_times one one).symm.trans known; decide⟩
  · rintro ⟨-, -, tight⟩
    exact absurd ((tight _ (level_times one (plus one one))).2 _ (level_plus one one)) (by decide)

end TypeGrammar
