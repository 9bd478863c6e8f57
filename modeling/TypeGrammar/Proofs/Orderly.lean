import TypeGrammar.Proofs.WellFormed
import TypeGrammar.Proofs.Yielding

/-!
# What types are made of

Three things are known of the nodes of a type that was read. What is called is no operation, as a
call binds more tightly than any operator. Where a token may be left out, it is the one that stands
for it: the colon of a lifetime definition, the `const` of a pointer, the `as` of a self type and
the commas between the inputs of a function. And the operators and delimiters of a node are those of
its syntax.
-/

namespace TypeGrammar

open TokenTree

/-! ## Standard nodes -/

/-- The colons of a binder are colons. -/
def Binder.Standard (b : Binder) : Prop :=
  ∀ d ∈ b.lifetimes.toList, ∀ colon ∈ d.colon, ∃ span, colon = Token.punct ":" span

namespace Node

/-- An operator with its operands; a cast is not counted. -/
def isOperation : Expr → Bool
  | .unary .. => true
  | .binary .. => true
  | _ => false

/-- What is known of a node that was read: it calls no operation, and the tokens that it may lack
are the usual ones, and words of the given sort. -/
def Standard (word : Token → Prop) : (k : Category) → Node k → Prop
  | _, .call function _ _ => function.isOperation = false
  | _, .pointer _ constToken _ _ => ∀ t ∈ constToken, word t ∧ t.IsWord "const"
  | _, .qualified _ _ _ asToken _ => ∀ t ∈ asToken, word t ∧ t.IsWord "as"
  | _, .bareFn binder _ _ _ _ inputs _ _ =>
    (∀ b ∈ binder, b.Standard) ∧ inputs.separated.SplitBy ","
  | _, .traitBound _ _ binder _ => ∀ b ∈ binder, b.Standard
  | _, _ => True

/-- All nodes of a tree are standard. -/
def Canonical (word : Token → Prop) {k : Category} (n : Node k) : Prop :=
  n.Everywhere (Standard word)

end Node

/-! ## Operators and delimiters -/

/-- The token is the operator `op`, where it stands. -/
def Token.IsSign (op : String) (t : Token) : Prop :=
  ∃ span, t = Token.punct op span

theorem Token.IsSign.text_eq {op : String} {t : Token} (h : t.IsSign op) : t.text = op := by
  obtain ⟨span, rfl⟩ := h
  rfl

/-- An attribute starts with `#`, and its tokens stand in brackets. -/
def Attribute.Signed (a : Attribute) : Prop :=
  a.pound.IsSign "#" ∧ a.bracket.delimiter = .bracket

/-- The operators of a lifetime definition are those of its syntax. -/
def LifetimeDef.Signed (d : LifetimeDef) : Prop :=
  (∀ a ∈ d.attributes, a.Signed) ∧ (∀ t ∈ d.colon, t.IsSign ":") ∧ d.bounds.SplitBy "+"

/-- The operators of a binder are those of its syntax. -/
structure Binder.Signed (b : Binder) : Prop where
  lt : b.lt.IsSign "<"
  lifetimes : ∀ d ∈ b.lifetimes.toList, d.Signed
  commas : b.lifetimes.SplitBy ","
  gt : b.gt.IsSign ">"

theorem Binder.Signed.standard {b : Binder} (h : b.Signed) : b.Standard :=
  fun d mem => (h.lifetimes d mem).2.1

namespace Node

/-- The operators and delimiters of a node are those of its syntax. A group in invisible delimiters
comes from trees with the property `p` that have one. -/
def Signed (p : List TokenTree → Prop) : (k : Category) → Node k → Prop
  | _, .array bracket _ semi _ => bracket.delimiter = .bracket ∧ semi.IsSign ";"
  | _, .bareFn binder _ _ _ paren inputs variadic _ =>
    (∀ b ∈ binder, b.Signed) ∧ paren.delimiter = .paren ∧ inputs.separated.SplitBy "," ∧
      ∀ t ∈ variadic, t.IsSign "..."
  | _, .group _ _ => ∃ ts o e, p [.group .invisible ts o e]
  | _, .implTrait _ bounds => bounds.separated.SplitBy "+"
  | _, .never bang => bang.IsSign "!"
  | _, .parenType paren _ => paren.delimiter = .paren
  | _, .pointer star _ _ _ => star.IsSign "*"
  | _, .reference ampersand _ _ _ => ampersand.IsSign "&"
  | _, .slice bracket _ => bracket.delimiter = .bracket
  | _, .traitObject _ bounds => bounds.separated.SplitBy "+"
  | _, .tuple paren elems => paren.delimiter = .paren ∧ elems.separated.SplitBy ","
  | _, .verbatim _ => False
  | _, .unary op _ => ∃ text ∈ unaryOperators, op.IsSign text
  | _, .binary _ op _ => ∃ o ∈ binaryOperators, op.IsSign o.text
  | _, .call _ paren args => paren.delimiter = .paren ∧ args.separated.SplitBy ","
  | _, .parenExpr paren _ => paren.delimiter = .paren
  | _, .block brace _ => brace.delimiter = .brace
  | _, .invocation _ bang delimiter _ => bang.IsSign "!" ∧ delimiter.delimiter ≠ .invisible
  | _, .path leading segments => (∀ t ∈ leading, t.IsSign "::") ∧ segments.separated.SplitBy "::"
  | _, .angle colons lt args gt =>
    (∀ t ∈ colons, t.IsSign "::") ∧ lt.IsSign "<" ∧ args.separated.SplitBy "," ∧ gt.IsSign ">"
  | _, .parenthesized paren inputs _ => paren.delimiter = .paren ∧ inputs.separated.SplitBy ","
  | _, .qualified lt _ _ _ gt => lt.IsSign "<" ∧ gt.IsSign ">"
  | _, .binding _ eq _ => eq.IsSign "="
  | _, .constraint _ colon bounds => colon.IsSign ":" ∧ bounds.separated.SplitBy "+"
  | _, .traitBound paren modifier binder _ =>
    (∀ d ∈ paren, d.delimiter = .paren) ∧ (∀ t ∈ modifier, t.IsSign "?") ∧ ∀ b ∈ binder, b.Signed
  | _, .fnArg attributes name _ => (∀ a ∈ attributes, a.Signed) ∧ ∀ x ∈ name, x.2.IsSign ":"
  | _, .arrow mark _ => mark.IsSign "->"
  | _, _ => True

/-- All nodes of a tree are standard, and made of the operators of their syntax. -/
def Orderly (p : List TokenTree → Prop) (word : Token → Prop) {k : Category} (n : Node k) : Prop :=
  n.Everywhere fun k n => Standard word k n ∧ Signed p k n

variable {p : List TokenTree → Prop} {word : Token → Prop}

theorem Orderly.canonical {k : Category} {n : Node k} (h : n.Orderly p word) : n.Canonical word :=
  h.mono fun _ _ known => known.1

theorem orderly_ofSeparated {k : Category} {xs : Separated (Node k)} :
    (ofSeparated xs).Orderly p word ↔ ∀ x ∈ xs.toList, x.Orderly p word :=
  everywhere_ofSeparated fun n => by cases n <;> exact ⟨trivial, trivial⟩

theorem orderly_list {k : Category} {n : Node (.list k)} :
    n.Orderly p word ↔ ∀ x ∈ n.separated.toList, x.Orderly p word := by
  rw [← orderly_ofSeparated, ofSeparated_separated]

/-- The values and the separators of a list node. -/
theorem splitBy_ofSeparated {k : Category} {op : String} {xs : Separated (Node k)}
    (h : xs.SplitBy op) : (ofSeparated xs).separated.SplitBy op := by
  rwa [separated_ofSeparated]

theorem orderly_path {leading : Option Token} {xs : Separated Segment} :
    (path leading (ofSeparated xs)).Orderly p word ↔
      ((∀ t ∈ leading, t.IsSign "::") ∧ xs.SplitBy "::") ∧ ∀ s ∈ xs.toList, s.Orderly p word := by
  have path : (path leading (ofSeparated xs)).Orderly p word ↔
      (True ∧ (∀ t ∈ leading, t.IsSign "::") ∧ (ofSeparated xs).separated.SplitBy "::") ∧
        (ofSeparated xs).Orderly p word := .rfl
  rw [path, orderly_ofSeparated, separated_ofSeparated, true_and]

theorem Orderly.withFinalArguments {q : Path} (h : q.Orderly p word) {a : Node .arguments}
    (known : a.Orderly p word) : (q.withFinalArguments a).Orderly p word := by
  cases q with
  | path leading segments =>
    rw [← ofSeparated_separated segments] at h
    obtain ⟨⟨colons, split⟩, all⟩ := orderly_path.1 h
    refine orderly_path.2 ⟨⟨colons, split.mapLast _⟩, fun s mem => ?_⟩
    obtain mem | ⟨s, mem, rfl⟩ := Separated.mem_mapLast mem
    · exact all s mem
    · cases s with
      | segment ident old => exact ⟨⟨trivial, trivial⟩, known⟩

theorem Orderly.joinPath {trait : Path} (h : trait.Orderly p word) {colons : Token}
    (sign : colons.IsSign "::") {rest : Separated Segment} (split : rest.SplitBy "::")
    (known : ∀ s ∈ rest.toList, s.Orderly p word) :
    (Parse.joinPath trait colons rest).Orderly p word := by
  cases trait with
  | path leading segments =>
    rw [← ofSeparated_separated segments] at h
    obtain ⟨⟨front, split'⟩, all⟩ := orderly_path.1 h
    refine orderly_path.2 ⟨⟨front, split'.join sign split⟩, fun s mem => ?_⟩
    rw [Separated.toList_join] at mem
    obtain mem | mem := List.mem_append.1 mem
    · exact all s mem
    · exact known s mem

theorem Orderly.inParens {b : Bound} (h : b.Orderly p word) {paren : Delim}
    (parens : paren.delimiter = .paren) : (Parse.inParens paren b).Orderly p word := by
  cases b with
  | traitBound old modifier binder path =>
    obtain ⟨⟨standard, -, signed⟩, known⟩ := h
    exact ⟨⟨standard, by rintro _ ⟨⟩; exact parens, signed⟩, known⟩
  | lifetimeBound l => exact h

end Node

end TypeGrammar
