import TypeGrammar.Proofs.Rows
import TypeGrammar.Proofs.Trimming

/-!
# Types that are read again from their text

The text of a type is read as the same type, unless an operator between two operands is glued to
what stands next to it. There are three ways: a `<` in front of a qualified path, a `&` in front of
a `&` where an operand is due before both, and the type `!` in front of `==`. All nodes are rows of
chunks otherwise, so the whole type is legible.
-/

namespace TypeGrammar

open TokenTree
open Chunk (treesAll)

/-! ## Operators between operands -/

/-- True if an operand is due after some trees. -/
def operandDueAfter (ts : List TokenTree) : Bool :=
  operandDue (ts.getLast?.map TokenTree.final)

/-- True of trees that end in a `!` where an operand is due. -/
def endsInBang (ts : List TokenTree) : Bool :=
  match ts.getLast? with
  | some (.token t) => t.text == "!" && operandDueAfter ts.dropLast
  | _ => false

/-- An operator that is not glued to the operands on its sides. -/
structure StaysApart (left : List TokenTree) (op : String) (right : List TokenTree) : Prop where
  angle : op = "<" → startsPunct "<" right = false
  ampersand : op = "&" → startsPunct "&" right = true → operandDueAfter left = false
  equals : op = "==" → endsInBang left = false

/-- The operator of a binary expression is not glued to its operands. -/
def Node.StaysApart : (k : Category) → Node k → Prop
  | _, .binary left op right => TypeGrammar.StaysApart left.trees op.text right.trees
  | _, _ => True

/-- The operators at the front of operands. -/
def operandSigns : List String :=
  "::" :: "<" :: unaryOperators

/-- No operand lengthens a unary operator in front of it. -/
theorem operands_after_unary : ∀ op ∈ unaryOperators, ∀ next ∈ operandSigns,
    lengthens false op next = false := by
  decide

/-- Operands lengthen two binary operators in front of them. -/
theorem operands_after_binary : ∀ o ∈ binaryOperators, ∀ next ∈ operandSigns,
    lengthens true o.text next = true →
      o.text = "<" ∧ next = "<" ∨ o.text = "&" ∧ next = "&" := by
  decide

/-- A binary operator lengthens one sign in front of it. -/
theorem binary_after_closers : ∀ op ∈ closers, ∀ o ∈ binaryOperators,
    lengthens false op o.text = true → op = "!" ∧ o.text = "==" := by
  decide

theorem unary_opens : ∀ op ∈ unaryOperators, op ∈ openers ∧ op ∈ operandSigns := by
  decide

section

variable {before : Option Atom} {t u : Token} {ps qs left right : List Chunk}

/-- Without a blank after `!` an operand is due before it. -/
theorem due_of_tight_bang
    (tight : needsBlank before (.token .punct "!") (.token .punct "==") = false) :
    operandDue before = true := by
  by_contra off
  have due : operandDue before = false := by simpa using off
  simp [needsBlank, Atom.isOpening, Atom.isClosing, Atom.isOperator, Atom.isClosingAngle,
    Atom.isIdentifier, takesGenerics, Atom.isKeyword, alwaysUnary, maybeUnary, due] at tight

/-- Without a blank between two `&` an operand is due before them. -/
theorem due_of_tight_ampersand
    (tight : needsBlank before (.token .punct "&") (.token .punct "&") = false) :
    operandDue before = true := by
  by_contra off
  have due : operandDue before = false := by simpa using off
  simp [needsBlank, Atom.isOpening, Atom.isClosing, Atom.isOperator, Atom.isClosingAngle,
    alwaysUnary, maybeUnary, due] at tight

theorem kind_of_mem_go {cs : List Char} (mem : u ∈ Token.split.go t cs) : u.kind = .punct := by
  induction cs with
  | nil => cases mem
  | cons c cs ih =>
    obtain rfl | mem := List.mem_cons.1 mem
    · rfl
    · exact ih mem

theorem operandDueAfter_trees (due : operandDue (some t.atom) = true) :
    operandDueAfter t.trees = true := by
  unfold Token.trees operandDueAfter
  split
  · rw [List.getLast?_map]
    cases last : t.split.getLast? with
    | none => rfl
    | some u =>
      have kind := kind_of_mem_go (List.mem_of_getLast? last)
      simp [TokenTree.final, Token.atom, kind, operandDue]
  · exact due

theorem operandDueAfter_append {ts us : List TokenTree} (nonempty : us ≠ []) :
    operandDueAfter (ts ++ us) = operandDueAfter us := by
  unfold operandDueAfter
  rw [List.getLast?_append, List.getLast?_eq_getLast_of_ne_nil nonempty, Option.some_or]

theorem closing_not_due (d : Delimiter) : operandDue (some (.delimiter d.closing)) = false := by
  cases d <;> decide

theorem trees_ne_nil (t : Token) : t.trees ≠ [] := by
  unfold Token.trees
  split
  · rename_i long
    obtain ⟨c, cs, eq⟩ := List.exists_cons_of_ne_nil (l := t.text.toList) fun nothing => by
      rw [← String.length_toList, nothing] at long
      exact absurd long.2 (by decide)
    simp [Token.split, eq, Token.split.go]
  · exact List.cons_ne_nil _ _

/-- Where an operand is due after chunks it is due after their trees. -/
theorem operandDueAfter_treesAll (due : operandDue (finalAtom before ps) = true) :
    operandDueAfter (treesAll ps) = true := by
  obtain rfl | ⟨front, p, rfl⟩ := List.eq_nil_or_concat ps
  · rfl
  · rw [List.concat_eq_append] at due ⊢
    rw [finalAtom, List.getLast?_concat] at due
    change operandDue (some p.final) = true at due
    rw [Chunk.treesAll_append, Chunk.treesAll_cons, Chunk.treesAll_nil, List.append_nil]
    cases p with
    | word t | mark t =>
      change operandDueAfter (treesAll front ++ t.trees) = true
      rw [operandDueAfter_append (trees_ne_nil t)]
      exact operandDueAfter_trees due
    | group d | raw d =>
      rw [Chunk.final, closing_not_due] at due
      cases due
    | verbatim tree =>
      change operandDueAfter (treesAll front ++ [tree]) = true
      rw [operandDueAfter_append (List.cons_ne_nil _ _)]
      exact due

/-- Where an operand is due after chunks, a `!` after them is one. -/
theorem endsInBang_treesAll (bang : t.text = "!") (due : operandDue (finalAtom before ps) = true) :
    endsInBang (treesAll (ps ++ [.mark t false])) = true := by
  have trees : t.trees = [.token t] := if_neg fun long => by
    rw [bang] at long
    exact absurd long.2 (by decide)
  rw [Chunk.treesAll_append, Chunk.treesAll_cons, Chunk.treesAll_nil, Chunk.trees_mark, trees,
    List.append_nil, endsInBang, List.getLast?_concat, List.dropLast_concat]
  simp [bang, operandDueAfter_treesAll due]

theorem startsPunct_treesAll {op : String} {binary : Bool} (h : t.IsSign op) (short : op.length = 1)
    (first : ps.head? = some (.mark t binary)) : startsPunct op (treesAll ps) = true := by
  obtain ⟨span, rfl⟩ := h
  obtain ⟨qs, rfl⟩ := List.head?_eq_some_iff.1 first
  obtain ⟨c, eq⟩ : ∃ c, op.toList = [c] := List.length_eq_one_iff.1 (by rwa [String.length_toList])
  simp [Token.trees, Token.punct, short, startsPunct, startsChars, eq]

/-! ## Operands -/

/-- Chunks that can stand as an operand: a row that starts with an operator of operands, if with
one. -/
structure IsOperand (ps : List Chunk) : Prop extends IsRow ps where
  nonempty : ps ≠ []
  front : ∀ t binary, ps.head? = some (.mark t binary) → ∃ op ∈ operandSigns, t.IsSign op

namespace IsOperand

theorem append (h : IsOperand ps) (h' : IsRow qs) : IsOperand (ps ++ qs) where
  toIsRow := h.toIsRow.append h'
  nonempty nothing := h.nonempty (List.append_eq_nil_iff.1 nothing).1
  front t binary first := by
    obtain ⟨p, ps, rfl⟩ := List.exists_cons_of_ne_nil h.nonempty
    exact h.front t binary first

/-- What is no operator is an operand. -/
theorem single {p : Chunk} (noSign : p.sign? = none) (h : IsRow [p]) : IsOperand [p] where
  toIsRow := h
  nonempty := List.cons_ne_nil _ _
  front := by
    rintro _ _ ⟨⟩
    cases noSign

/-- The operator at the front of an operand. -/
theorem nextSign_cases (h : IsOperand ps) {u : Token} (next : u ∈ nextSign none ps) :
    ∃ binary, ps.head? = some (.mark u binary) ∧ ∃ op ∈ operandSigns, u.IsSign op := by
  obtain ⟨p, ps, rfl⟩ := List.exists_cons_of_ne_nil h.nonempty
  cases p with
  | mark t binary =>
    cases next
    exact ⟨binary, rfl, h.front u binary rfl⟩
  | word | group | raw | verbatim => cases next

theorem whole (h : IsOperand ps) : IsOperand (ChunkLayout.whole ps).chunks := by
  rwa [ChunkLayout.chunks_whole]

/-- A unary operator and its operand. -/
theorem unary {op : String} (sign : t.IsSign op) (known : op ∈ unaryOperators) (h : IsOperand ps) :
    IsOperand (.mark t false :: ps) := by
  obtain ⟨opens, front⟩ := unary_opens op known
  refine ⟨.lead ?_ h.nonempty h.toIsRow ?_, List.cons_ne_nil _ _, ?_⟩
  · rwa [sign.text_eq]
  · rintro before ⟨u, next, -, longer⟩
    obtain ⟨_, -, text, mem, isNext⟩ := h.nextSign_cases next
    rw [sign.text_eq, isNext.text_eq, operands_after_unary op known text mem] at longer
    cases longer
  · rintro _ _ ⟨⟩
    exact ⟨op, front, sign⟩

/-- The left operand ends in a sign that is glued to the operator only if the two are `!` and `==`.
-/
theorem sturdy_left {o : BinaryOperator} (mem : o ∈ binaryOperators) (sign : t.IsSign o.text)
    (h : IsOperand left) (equals : o.text = "==" → endsInBang (treesAll left) = false) :
    Sturdy (left ++ [.mark t true]) := by
  refine h.sturdy.append (sturdy_mark t true) fun before _ ps u binary eq => ?_
  obtain ⟨rfl, closes⟩ := h.closes u binary (by rw [eq, List.getLast?_concat])
  rintro ⟨_, ⟨⟩, tight, longer⟩
  rw [sign.text_eq] at tight longer
  obtain ⟨bang, double⟩ := binary_after_closers _ closes o mem longer
  rw [bang, double] at tight
  have ends := endsInBang_treesAll bang (due_of_tight_bang tight)
  rw [← eq, equals double] at ends
  cases ends

/-- The operator is glued to the right operand only if both start with `<` or with `&`. -/
theorem not_glued_right {o : BinaryOperator} (mem : o ∈ binaryOperators) (sign : t.IsSign o.text)
    (h : IsOperand right) (apart : StaysApart (treesAll left) o.text (treesAll right)) :
    ¬ Glued (finalAtom before left) t true (nextSign none right) := by
  rintro ⟨u, next, tight, longer⟩
  obtain ⟨_, head, next, known, isNext⟩ := h.nextSign_cases next
  rw [sign.text_eq, isNext.text_eq] at tight longer
  obtain ⟨angle, rfl⟩ | ⟨ampersand, rfl⟩ := operands_after_binary o mem next known longer
  · have off := apart.angle angle
    rw [startsPunct_treesAll isNext rfl head] at off
    cases off
  · have off := apart.ampersand ampersand (startsPunct_treesAll isNext rfl head)
    rw [ampersand] at tight
    rw [operandDueAfter_treesAll (due_of_tight_ampersand tight)] at off
    cases off

/-- An operator that is not glued to its two operands. -/
theorem binary {o : BinaryOperator} (mem : o ∈ binaryOperators) (sign : t.IsSign o.text)
    (h : IsOperand left) (h' : IsOperand right)
    (apart : StaysApart (treesAll left) o.text (treesAll right)) :
    IsOperand (left ++ .mark t true :: right) := by
  have whole : Sturdy (left ++ [.mark t true] ++ right) := by
    refine (h.sturdy_left mem sign apart.equals).append h'.sturdy fun before _ ps u binary eq => ?_
    obtain ⟨rfl, ends⟩ := List.append_inj' eq rfl
    cases ends
    exact h'.not_glued_right mem sign apart
  have eq : left ++ .mark t true :: right = left ++ [.mark t true] ++ right := by simp
  obtain ⟨p, left, rfl⟩ := List.exists_cons_of_ne_nil h.nonempty
  refine ⟨⟨h.opens, fun u binary last => h'.closes u binary ?_, eq ▸ whole⟩,
    List.cons_ne_nil _ _, h.front⟩
  obtain ⟨q, right, rfl⟩ := List.exists_cons_of_ne_nil h'.nonempty
  rwa [List.getLast?_append, List.getLast?_cons_cons, Option.or_of_isSome (by simp)] at last

end IsOperand

/-! ## Lists and paths -/

theorem Separated.SplitBy.of_mem_pairs {α : Type} {xs : Separated α} {op : String}
    (h : xs.SplitBy op) :
    ∀ part ∈ xs.pairs, part.1 ∈ xs.toList ∧ ∀ t ∈ part.2, t.IsSign op := by
  induction xs with
  | empty => rintro _ ⟨⟩
  | last v =>
    rintro part mem
    obtain rfl := List.mem_singleton.1 mem
    exact ⟨List.mem_cons_self, by rintro _ ⟨⟩⟩
  | cons v s rest ih =>
    rintro part mem
    obtain rfl | mem := List.mem_cons.1 mem
    · exact ⟨List.mem_cons_self, by rintro _ ⟨⟩; exact h.1⟩
    · obtain ⟨value, separator⟩ := ih h.2 part mem
      exact ⟨List.mem_cons_of_mem _ value, separator⟩

/-- A list node is a row if its values are. -/
theorem IsRow.list {k : Category} {n : Node (.list k)} {op : String} (known : op ∈ typeSigns)
    (split : n.separated.SplitBy op) (h : ∀ x ∈ n.separated.toList, IsRow x.layout.chunks) :
    IsRow n.layout.chunks := by
  rw [← Node.ofSeparated_separated n, Node.chunks_ofSeparated]
  exact .separated known split h

/-- Pieces that are rows. -/
structure ChunkLayout.HasRows (p : ChunkLayout) : Prop where
  lead : IsRow p.lead
  value : ∀ part ∈ p.parts, IsRow part.1
  separator : ∀ part ∈ p.parts, IsRow part.2

namespace ChunkLayout.HasRows

variable {p : ChunkLayout}

theorem joined {parts : List (List Chunk × List Chunk)} (h : p.HasRows) (sub : parts ⊆ p.parts) :
    IsRow (ChunkLayout.joined parts) :=
  .flatMap fun part mem => (h.value part (sub mem)).append (h.separator part (sub mem))

theorem chunks (h : p.HasRows) : IsRow p.chunks :=
  h.lead.append (h.joined (List.Subset.refl _))

theorem slice_subset {α : Type} (xs : List α) (low high : Int) : slice xs low high ⊆ xs :=
  fun _ mem => List.mem_of_mem_take (List.mem_of_mem_drop mem)

/-- A path with a self type is an operand. -/
theorem qualify (h : p.HasRows) {lt gt asToken : Token} {self : List Chunk} (opens : lt.IsSign "<")
    (row : IsRow self) (closes : gt.IsSign ">") (position : Int) :
    IsOperand (p.qualify [.mark lt false] self position [.word asToken] [.mark gt false]) := by
  have close : IsRow [.mark gt false] := .sign closes (by simp [typeSigns])
  have operand {rest : List Chunk} (nonempty : rest ≠ []) (row : IsRow rest) :
      IsOperand (.mark lt false :: rest) :=
    ⟨.angle opens nonempty row, List.cons_ne_nil _ _, by
      rintro _ _ ⟨⟩; exact ⟨"<", by simp [operandSigns], opens⟩⟩
  unfold ChunkLayout.qualify
  simp only [List.append_assoc, List.singleton_append]
  generalize (if 0 < position ∧ (p.parts.length : Int) ≤ position then
    (p.parts.length : Int) - 1 else position) = at'
  have after := h.joined (slice_subset p.parts at' p.parts.length)
  split
  · refine operand (by simp) (row.append ((IsRow.word asToken).append (h.lead.append ?_)))
    refine IsRow.append ?_ after
    cases last : (slice p.parts 0 at').getLast? with
    | none => exact .nil
    | some part =>
      have mem := slice_subset _ _ _ (List.mem_of_getLast? last)
      have front :=
        h.joined (List.Subset.trans (List.dropLast_subset _) (slice_subset p.parts 0 at'))
      exact front.append ((h.value part mem).append (close.append (h.separator part mem)))
  · exact operand (by simp) (row.append (close.append (h.lead.append after)))

end ChunkLayout.HasRows

/-! ## Nodes -/

namespace Node

variable {k : Category}

/-- The pieces of a list node are rows if its values are. -/
theorem rows_list {n : Node (.list k)} {op : String} (known : op ∈ typeSigns)
    (split : n.separated.SplitBy op) (h : ∀ x ∈ n.separated.toList, IsRow x.layout.chunks) :
    ∀ part ∈ n.layout.parts, IsRow part.1 ∧ IsRow part.2 := by
  rw [← ofSeparated_separated n, parts_ofSeparated]
  rw [List.forall_mem_map]
  rintro ⟨v, s⟩ mem
  obtain ⟨value, separator⟩ := split.of_mem_pairs _ mem
  exact ⟨h v value, .marks separator known⟩

theorem variadic_row {variadic : Option Token} (h : ∀ t ∈ variadic, t.IsSign "...")
    (inputs : Node (.list k)) : IsRow (variadicChunks inputs variadic) := by
  cases variadic with
  | none => exact .nil
  | some dots =>
    have comma : (Token.punct "," dots.span).IsSign "," := ⟨_, rfl⟩
    have three : IsRow [.mark dots false] := .sign (h dots rfl) (by simp [typeSigns])
    refine .append ?_ three
    split
    · exact .nil
    · exact .sign comma (by simp [typeSigns])

/-- What is known of the chunks of a node. A self type is known by the type inside of it. -/
def Laid : (k : Category) → Node k → Prop
  | .expr, n => IsOperand n.layout.chunks
  | .invocation, n => IsOperand n.layout.chunks
  | .path, n => IsOperand n.layout.chunks ∧ n.layout.HasRows
  | .selfType, .qualified lt type _ _ gt =>
    lt.IsSign "<" ∧ IsRow type.layout.chunks ∧ gt.IsSign ">"
  | .selfType, .unqualified => True
  | .list k, n => ∀ x ∈ n.separated.toList, Laid k x
  | .type, n | .segment, n | .arguments, n | .argument, n | .bound, n | .fnArg, n | .output, n =>
    IsRow n.layout.chunks

/-- What is known of a node that is laid out. -/
def Tidy (k : Category) (n : Node k) : Prop :=
  (Sound k n ∧ Signed IsTextual k n) ∧ StaysApart k n

theorem laid_path {leading : Option Token} {xs : Node (.list .segment)}
    (h : (Node.path leading xs).Tidy) (laid : ∀ x ∈ xs.separated.toList, IsRow x.layout.chunks) :
    Laid .path (Node.path leading xs) := by
  obtain ⟨⟨⟨nonempty, -⟩, colons, split⟩, -⟩ := h
  have parts := rows_list (by simp [typeSigns]) split laid
  have rows : (Node.path leading xs).layout.HasRows :=
    ⟨.marks colons (by simp [typeSigns]), fun part mem => (parts part mem).1,
      fun part mem => (parts part mem).2⟩
  refine ⟨?_, rows⟩
  cases leading with
  | some t =>
    refine ⟨rows.chunks, List.cons_ne_nil _ _, ?_⟩
    rintro _ _ ⟨⟩
    exact ⟨"::", by simp [operandSigns], colons t rfl⟩
  | none =>
    -- without a `::` in front the path starts with the name of a segment
    obtain ⟨ident, ps, eq⟩ : ∃ ident ps, (Node.path none xs).layout.chunks = .word ident :: ps := by
      rw [← ofSeparated_separated xs, chunks_path]
      cases form : xs.separated with
      | empty => exact absurd (by rw [form]; rfl) nonempty
      | last v | cons v =>
        cases v with
        | segment ident arguments =>
          rw [Separated.chunks, chunks_segment]
          exact ⟨ident, _, rfl⟩
    rw [eq]
    exact ⟨eq ▸ rows.chunks, List.cons_ne_nil _ _, by rintro _ _ ⟨⟩⟩

/-- All nodes are laid out as rows if no operator is glued to its operands. -/
theorem laid_of_tidy {n : Node k} (h : n.Everywhere Tidy) : Laid k n := by
  induction n with
  | array bracket elem semi length ihElem ihLength =>
    obtain ⟨⟨⟨-, bracket, semi⟩, -⟩, elem, length⟩ := h
    exact .whole (.brackets bracket (.append (ihElem elem)
      (.consSign semi (by simp [typeSigns]) (ihLength length).toIsRow)))
  | bareFn binder unsafety abi fnToken paren inputs variadic output ihInputs ihOutput =>
    obtain ⟨⟨⟨-, binders, paren, commas, dots⟩, -⟩, inputs, output⟩ := h
    exact .whole (.append (binderRow binders) (.append (.words unsafety)
      (.append (.getD_map Abi.row abi) (.consWord fnToken (.append (.parens paren
        (.append (.list (by simp [typeSigns]) commas (ihInputs inputs)) (variadic_row dots _)))
        (ihOutput output))))))
  | group delim elem =>
    -- no text has invisible delimiters
    obtain ⟨⟨⟨-, ts, o, e, -, lexical⟩, -⟩, -⟩ := h
    exact absurd rfl (lexical (.edge "") List.mem_cons_self)
  | implTrait implToken bounds ih =>
    obtain ⟨⟨⟨-, split⟩, -⟩, bounds⟩ := h
    exact .whole (.consWord implToken (.list (by simp [typeSigns]) split (ih bounds)))
  | infer underscore => exact .whole (.word underscore)
  | macroType call ih => exact .whole (ih h.2).toIsRow
  | never bang => exact .whole (.sign h.1.1.2 (by simp [typeSigns]))
  | parenType paren elem ih => exact .whole (.parens h.1.1.2 (ih h.2))
  | pathType self p ihSelf ihPath =>
    obtain ⟨-, type, p⟩ := h
    cases self with
    | unqualified => exact .whole (ihPath p).1.toIsRow
    | qualified _ _ position _ _ =>
      obtain ⟨opens, row, closes⟩ := ihSelf type
      exact .whole ((ihPath p).2.qualify opens row closes position).toIsRow
  | pointer star constToken mutability elem ih =>
    obtain ⟨⟨⟨-, star⟩, -⟩, elem⟩ := h
    exact .whole (.consSign star (by simp [typeSigns]) (.consWord _ (ih elem)))
  | reference ampersand lifetime mutability elem ih =>
    obtain ⟨⟨⟨-, ampersand⟩, -⟩, elem⟩ := h
    exact .whole (.consSign ampersand (by simp [typeSigns]) (.append (.getD_map Lifetime.row _)
      (.append (.words mutability) (ih elem))))
  | slice bracket elem ih => exact .whole (.brackets h.1.1.2 (ih h.2))
  | traitObject dynToken bounds ih =>
    obtain ⟨⟨⟨-, split⟩, -⟩, bounds⟩ := h
    exact .whole (.append (.words dynToken) (.list (by simp [typeSigns]) split (ih bounds)))
  | tuple paren elems ih =>
    obtain ⟨⟨⟨-, paren, commas⟩, -⟩, elems⟩ := h
    exact .whole (.parens paren (.list (by simp [typeSigns]) commas (ih elems)))
  | verbatim tokens => exact h.1.1.1.elim
  | literal token => exact .whole (.single rfl (.word token))
  | pathExpr self p ihSelf ihPath =>
    obtain ⟨-, type, p⟩ := h
    cases self with
    | unqualified => exact .whole (ihPath p).1
    | qualified _ _ position _ _ =>
      obtain ⟨opens, row, closes⟩ := ihSelf type
      exact .whole ((ihPath p).2.qualify opens row closes position)
  | unary op operand ih =>
    obtain ⟨⟨⟨-, _, known, sign⟩, -⟩, operand⟩ := h
    exact .whole (.unary sign known (ih operand))
  | binary left op right ihLeft ihRight =>
    obtain ⟨⟨⟨-, o, known, sign⟩, apart⟩, left, right⟩ := h
    refine .whole (.binary known sign (ihLeft left) (ihRight right) ?_)
    obtain ⟨span, rfl⟩ := sign
    rw [← trees_eq, ← trees_eq]
    exact apart
  | cast operand asToken target ihOperand ihTarget =>
    obtain ⟨-, operand, target⟩ := h
    exact .whole ((ihOperand operand).append (.consWord asToken (ihTarget target)))
  | call function paren args ihFunction ihArgs =>
    obtain ⟨⟨⟨-, paren, commas⟩, -⟩, function, args⟩ := h
    exact .whole ((ihFunction function).append (.parens paren
      (.list (by simp [typeSigns]) commas fun x mem => (ihArgs args x mem).toIsRow)))
  | parenExpr paren inner ih => exact .whole (.single rfl (.parens h.1.1.2 (ih h.2).toIsRow))
  | block brace tokens =>
    have braces : brace.delimiter = .brace := h.1.1.2
    exact .whole (.single rfl (.raw (by simp [braces]) tokens))
  | macroExpr call ih => exact .whole (ih h.2)
  | invocation p bang delimiter tokens ih =>
    obtain ⟨⟨⟨-, bang, visible⟩, -⟩, p⟩ := h
    exact .whole ((ih p).1.append (.consSign bang (by simp [typeSigns]) (.raw visible tokens)))
  | path leading segments ih => exact laid_path h.1 (ih h.2)
  | segment ident arguments ih => exact .whole (.consWord ident (ih h.2))
  | noArguments => exact .nil
  | angle colons lt args gt ih =>
    obtain ⟨⟨⟨-, colons, opens, commas, closes⟩, -⟩, args⟩ := h
    have inner := (IsRow.list (by simp [typeSigns]) commas (ih args)).append
      (.sign closes (by simp [typeSigns]))
    exact .whole (.append (.marks colons (by simp [typeSigns])) (.angle opens (by simp) inner))
  | parenthesized paren inputs output ihInputs ihOutput =>
    obtain ⟨⟨⟨-, paren, commas⟩, -⟩, inputs, output⟩ := h
    exact .whole (.append (.parens paren
      (.list (by simp [typeSigns]) commas (ihInputs inputs))) (ihOutput output))
  | unqualified => trivial
  | qualified lt type position asToken gt ih =>
    obtain ⟨⟨⟨-, opens, closes⟩, -⟩, type⟩ := h
    exact ⟨opens, ih type, closes⟩
  | lifetimeArg lifetime => exact .whole lifetime.row
  | binding ident eq type ih =>
    obtain ⟨⟨⟨-, eq⟩, -⟩, type⟩ := h
    exact .whole (.append (.wordSign ident eq (by simp [closers])) (ih type))
  | constraint ident colon bounds ih =>
    obtain ⟨⟨⟨-, colon, split⟩, -⟩, bounds⟩ := h
    exact .whole (.append (.wordSign ident colon (by simp [closers]))
      (.list (by simp [typeSigns]) split (ih bounds)))
  | constArg value ih => exact .whole (ih h.2).toIsRow
  | typeArg type ih => exact .whole (ih h.2)
  | traitBound paren modifier binder p ih =>
    obtain ⟨⟨⟨-, parens, marks, binders⟩, -⟩, p⟩ := h
    have body := (IsRow.marks marks (by simp [typeSigns])).append
      ((binderRow binders).append (ih p).1.toIsRow)
    cases paren with
    | none => exact .whole body
    | some d => exact .whole (.parens (parens d rfl) body)
  | lifetimeBound lifetime => exact .whole lifetime.row
  | fnArg attributes name type ih =>
    obtain ⟨⟨⟨-, signed, colon⟩, -⟩, type⟩ := h
    refine .whole (.append (.flatMap fun a mem => (signed a mem).row) (.append ?_ (ih type)))
    cases name with
    | none => exact .nil
    | some x => exact .wordSign x.1 (colon x rfl) (by simp [closers])
  | defaultOutput => exact .nil
  | arrow mark type ih =>
    obtain ⟨⟨⟨-, mark⟩, -⟩, type⟩ := h
    exact .whole (.consSign mark (by simp [typeSigns]) (ih type))
  | nil => exact List.forall_mem_nil _
  | last value ih => exact List.forall_mem_singleton.2 (ih h.2)
  | cons value separator rest ihValue ihRest =>
    exact List.forall_mem_cons.2 ⟨ihValue h.2.1, ihRest h.2.2⟩

end Node

/-! ## Types -/

/-- A type is read again from its text, but for its places and for the joining of payloads, if no
operator is glued to its operands. -/
theorem parseText_text {text file : String} {line : Int} {plus : Bool} {t : Ty}
    (h : parseText text file line plus = .ok t) (apart : t.Everywhere Node.StaysApart)
    (file' : String) (line' : Int) :
    ∃ t', parseText t.text file' line' plus = .ok t' ∧
      t'.seen (View.loose.sight true) = t.seen (View.loose.sight false) := by
  obtain ⟨_, _, c', -, -, run, -⟩ := parseText_ok.1 h
  obtain ⟨-, -, -, -, wellFormed⟩ := settled_of_parseType run
  have signed := (orderly_of_parseText h).mono fun _ _ known => known.2
  have row := Node.laid_of_tidy ((wellFormed.and signed).and apart)
  exact parseText_of_legible h (row.sturdy none none .none) file' line'

/-- Two operators with a blank between them, two colons that become joint and a colon that is left
out. -/
theorem parseText_text_ampersands :
    ∃ t, parseText "for<'a:> fn([m!(: :); a & &b])" "" 1 true = .ok t ∧
      t.Everywhere Node.StaysApart ∧ t.text = "for<'a> fn([m!(::); a & &b])" ∧
      ∃ t', parseText t.text "" 1 true = .ok t' ∧
        t'.seen (View.loose.sight true) = t.seen (View.loose.sight false) := by
  let place (first last : Int) : Span := ⟨"", 1, first, 1, last⟩
  let name (text : String) (col : Int) : Path :=
    .path none (.last (.segment ⟨.identifier, text, place col col, false⟩ .noArguments))
  let sign (text : String) (col : Int) : Token := .punct text (place col col)
  let binder : Binder := ⟨.keyword "for" (place 1 3), sign "<" 4,
    .last ⟨[], ⟨⟨.lifetime, "'a", place 5 6, false⟩⟩, some (sign ":" 7), .empty⟩, sign ">" 8⟩
  let colons : List TokenTree := [.token (sign ":" 17), .token (sign ":" 19)]
  let elem : Ty := .macroType (.invocation (name "m" 14) (sign "!" 15) ⟨.paren, place 16 16⟩ colons)
  let length : Expr := .binary (.pathExpr .unqualified (name "a" 23)) (sign "&" 25)
    (.unary (sign "&" 27) (.pathExpr .unqualified (name "b" 28)))
  let t : Ty := .bareFn (some binder) none none (.keyword "fn" (place 10 11)) ⟨.paren, place 12 12⟩
    (.last (.fnArg [] none (.array ⟨.bracket, place 13 13⟩ elem (sign ";" 21) length))) none
    .defaultOutput
  have run : parseText "for<'a:> fn([m!(: :); a & &b])" "" 1 true = .ok t := by decide +kernel
  have apart : t.Everywhere Node.StaysApart := by
    have operator : length.StaysApart := ⟨by decide, by decide, by decide⟩
    have ends : length.Everywhere Node.StaysApart :=
      ⟨operator, by simp [name, Node.Everywhere, Node.StaysApart]⟩
    simp [t, elem, name, Node.Everywhere, Node.StaysApart, ends]
  exact ⟨t, run, apart, by decide, parseText_text run apart "" 1⟩

/-- If a text holds a type, the type is read again from its own text. -/
def ReadsBack (text : String) : Prop :=
  ∀ t, parseText text "" 1 true = .ok t → ∃ t', parseText t.text "" 1 true = .ok t' ∧
    t'.seen (View.loose.sight true) = t.seen (View.loose.sight false)

theorem not_readsBack {text : String}
    (differs : (parseText text "" 1 true).toOption.any (fun t =>
      (parseText t.text "" 1 true).toOption.all fun t' =>
        t'.seen (View.loose.sight true) != t.seen (View.loose.sight false)) = true) :
    ¬ ReadsBack text := by
  intro claim
  cases run : parseText text "" 1 true with
  | error e => simp [run, Except.toOption] at differs
  | ok t =>
    obtain ⟨t', read, same⟩ := claim t run
    simp [run, read, Except.toOption, same] at differs

/-- In each of the three ways, a type is not read again from its text. -/
theorem operators_glued :
    ¬ ReadsBack "[u8; N < <T>::X]" ∧ ¬ ReadsBack "[u8; 1 as _ & &b]" ∧
      ¬ ReadsBack "[u8; 1 as ! == 2]" :=
  ⟨not_readsBack (by decide +kernel), not_readsBack (by decide +kernel),
    not_readsBack (by decide +kernel)⟩

end

end TypeGrammar
