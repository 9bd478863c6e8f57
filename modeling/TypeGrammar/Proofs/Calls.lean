import TypeGrammar.Proofs.Plus
import TypeGrammar.Proofs.YieldingTypes

/-!
# What is called

A call binds most tightly, so its function is no operation: at any depth of an expression that was
read, a call has a name, a literal, a block, a macro call, an expression in parentheses or another
call in front of its parentheses. There is one exception. The type of a cast may end in front of
parentheses that it does not take, and then the cast is called.
-/

namespace TypeGrammar

open TokenTree

namespace Node

/-- A call has no operation in front of its parentheses. -/
def CallsOperand : (k : Category) → Node k → Prop
  | _, .call function _ _ => function.isOperation = false
  | _, _ => True

end Node

/-- In an expression that was read, whatever the power it was read with, no call is made of a unary
or binary expression, at any depth. -/
theorem expr_calls {power : Nat} {c c' : Cursor} {e : Expr}
    (h : Parser.deep (fun g => Parse.expr g power) c = .ok e c') :
    e.Everywhere Node.CallsOperand := by
  -- nothing has to be known of the trees
  have inherited : Inherited (fun _ => True) (fun _ => True) fun _ => True :=
    ⟨fun _ => ⟨trivial, trivial⟩, fun _ => trivial, fun _ _ _ => trivial, fun _ _ => trivial⟩
  have known : e.Orderly (fun _ => True) fun _ => True :=
    (Parse.expr_yields inherited (Grammar.ofDepth_yields inherited _) power trivial h).2
  refine known.canonical.mono fun k n standard => ?_
  cases n with
  | call function paren args => exact standard
  | _ => trivial

/-- A call of a call of a name. -/
theorem expr_calls_twice :
    ∃ c e c', Parser.deep (fun g => Parse.expr g 0) c = .ok e c' ∧
      (∃ f paren args paren' args', e = .call (.call f paren args) paren' args') ∧
      e.Everywhere Node.CallsOperand := by
  let args (text : String) : TokenTree :=
    .group .paren [.token ⟨.integer, text, .callSite, false⟩] .callSite .callSite
  let call (function : Expr) (text : String) : Expr :=
    .call function ⟨.paren, .callSite⟩ (.last (.literal ⟨.integer, text, .callSite, false⟩))
  have run : Parser.deep (fun g => Parse.expr g 0) (.ofTrees
      [.token ⟨.identifier, "f", .callSite, false⟩, args "1", args "2"] .callSite) =
        .ok (call (call (.pathExpr .unqualified (.ofName "f")) "1") "2")
          ⟨3, [], .callSite⟩ := by rfl
  exact ⟨_, _, _, run, ⟨_, _, _, _, _, rfl⟩, expr_calls run⟩

/-- The type of a cast leaves the parentheses behind a slice, and so the cast is called. -/
theorem cast_called :
    ∃ c operand asToken target paren args c', Parser.deep (fun g => Parse.expr g 0) c =
      .ok (.call (.cast operand asToken target) paren args) c' := by
  let one : Token := ⟨.integer, "1", .callSite, false⟩
  let name : Token := ⟨.identifier, "u8", .callSite, false⟩
  exact ⟨.ofTrees [.token one, .token (.keyword "as" .callSite),
      .group .bracket [.token name] .callSite .callSite,
      .group .paren [.token one] .callSite .callSite] .callSite,
    .literal one, .keyword "as" .callSite,
    .slice ⟨.bracket, .callSite⟩ (.pathType .unqualified (.ofName "u8")),
    ⟨.paren, .callSite⟩, .last (.literal one), ⟨4, [], .callSite⟩, by rfl⟩

end TypeGrammar
