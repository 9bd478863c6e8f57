import TypeGrammar.Proofs.ReadingPaths

/-!
# What the parsers of types take

The parsers of bounds, expressions and types take what they return, by one step of the grammar:
if the parsers for nested syntax are faithful, so are the parsers one level above.
-/

namespace TypeGrammar

open TokenTree

namespace Parse

open TypeGrammar.Parser

variable {g : Grammar} {c c' : Cursor}

/-! ## Bounds -/

section

variable (hg : g.Faithful)
include hg

/-- A trait bound as it is read, outside of parentheses. -/
theorem traitBound_reads {b : Bound} (h : traitBound g c = .ok b c') :
    Reads c b.layout.chunks c' ∧
      ∃ modifier binder p, b = .traitBound none modifier binder p ∧
        ∀ m ∈ modifier, m.text = "?" := by
  simp only [traitBound, bind_ok, pure_ok] at h
  obtain ⟨modifier, c₁, query, binder, c₂, lifetimes, p, _, run, rfl, rfl⟩ := h
  refine ⟨?_, modifier, binder, p, rfl, ?_⟩
  · simp only [Node.layout, ChunkLayout.chunks_whole]
    exact (Takes.punct? (by decide) query rfl).reads.append
      ((binder?_reads lifetimes).append (pathWithInputs_reads hg run))
  · obtain ⟨rfl, -⟩ | ⟨s, rfl, mark⟩ := punct?_ok query
    · simp
    · obtain ⟨-, ⟨span, rfl⟩, -⟩ := punct_ok mark
      rintro _ ⟨⟩
      rfl

omit hg in
theorem chunks_inParens (paren : Delim) (modifier : Option Token) (binder : Option Binder)
    (p : Path) :
    (inParens paren (.traitBound none modifier binder p)).layout.chunks =
      [.group paren (Node.traitBound none modifier binder p).layout.chunks] := by
  simp only [inParens, Node.layout, ChunkLayout.chunks_whole]

theorem bound_reads {b : Bound} (h : bound g c = .ok b c') : Reads c b.layout.chunks c' := by
  unfold bound at h
  simp only [↓look_ite_ok, bind_ok, pure_ok] at h
  obtain ⟨-, l, _, run, rfl, rfl⟩ | ⟨-, ⟨-, ⟨paren, b⟩, _, group, rfl, rfl⟩ | ⟨-, run⟩⟩ := h
  · simp only [Node.layout, ChunkLayout.chunks_whole]
    exact (lifetime_takes run).reads
  · obtain ⟨us, o, e, c₁, eq, rfl, run, done⟩ := inGroup_ok group
    obtain ⟨reads, modifier, binder, p, rfl, -⟩ := traitBound_reads hg run
    rw [chunks_inParens]
    exact .group eq reads done
  · exact (traitBound_reads hg run).1

/-- The modifier of a trait bound is `?`. -/
theorem bound_modifier {paren : Option Delim} {modifier : Option Token} {binder : Option Binder}
    {p : Path} (h : bound g c = .ok (.traitBound paren modifier binder p) c') :
    ∀ m ∈ modifier, m.text = "?" := by
  unfold bound at h
  simp only [↓look_ite_ok, bind_ok, pure_ok] at h
  obtain ⟨-, l, _, run, eq, rfl⟩ | ⟨-, ⟨-, ⟨paren, b⟩, _, group, eq, rfl⟩ | ⟨-, run⟩⟩ := h
  · cases eq
  · obtain ⟨us, o, e, c₁, -, rfl, run, -⟩ := inGroup_ok group
    obtain ⟨-, m, b, p, rfl, query⟩ := traitBound_reads hg run
    cases eq
    exact query
  · obtain ⟨-, m, b, p, eq, query⟩ := traitBound_reads hg run
    cases eq
    exact query

theorem bounds_reads {rule : ListRule} {p : Separated Bound} (sign : rule.separator = "+")
    (h : list1 rule (bound g) c = .ok p c') :
    Reads c (p.chunks fun b => b.layout.chunks) c' := by
  have known : rule.separator ∈ signs := by
    rw [sign]
    decide
  have plain : extensions false rule.separator = [] := by
    rw [sign]
    rfl
  exact list1_reads known plain (bound_reads hg) h

/-- The bounds after a first one. -/
theorem boundsAfter_reads {rule : ListRule} {first : Bound} {p : Separated Bound} {c₀ : Cursor}
    (sign : rule.separator = "+") (reads : Reads c₀ first.layout.chunks c)
    (h : listAfter rule (bound g) first c = .ok p c') :
    Reads c₀ (p.chunks fun b => b.layout.chunks) c' := by
  have separator : ∀ {s c c'}, punct rule.separator c = .ok s c' → Reads c [.mark s false] c' := by
    rw [sign]
    exact fun sep => (Takes.sign (by decide) sep rfl).reads
  exact Reads.composes.listFrom (f := fun b : Bound => b.layout.chunks) separator
    (bound_reads hg) reads h

end

/-! ## Expressions -/

/-- The binary operators of two characters. -/
def longBinaryOperators : List BinaryOperator :=
  binaryOperators.take 8

theorem extension_of_binaryOperator :
    ∀ op ∈ binaryOperators, op.text ≠ "-" → ∀ b ∈ extensions true op.text,
      op ∉ longBinaryOperators ∧
        ∃ long ∈ longBinaryOperators, long.text.toList = op.text.toList ++ [b] := by
  have known : ∀ op ∈ binaryOperators, op.text ≠ "-" → (extensions true op.text).all fun b =>
      decide (op ∉ longBinaryOperators ∧
        ∃ long ∈ longBinaryOperators, long.text.toList = op.text.toList ++ [b]) := by
    decide
  intro op mem ne b bar
  exact of_decide_eq_true (List.all_eq_true.1 (known op mem ne) b bar)

theorem binaryOperators_signs : ∀ op ∈ binaryOperators, op.text ∈ signs := by
  decide

/-- A binary operator is no part of a longer one at the front; `->` is not asked for. -/
theorem binaryOperator?_ok {ts : List TokenTree} {op : BinaryOperator}
    (h : binaryOperator? ts = some op) :
    op ∈ binaryOperators ∧ startsPunct op.text ts = true ∧
      (op.text ≠ "-" → ∀ b ∈ extensions true op.text,
        startsChars (op.text.toList ++ [b]) ts = false) := by
  have mem : op ∈ binaryOperators := List.mem_of_find?_eq_some h
  refine ⟨mem, by simpa using List.find?_some h, fun ne b bar => ?_⟩
  obtain ⟨short, long, isLong, text⟩ := extension_of_binaryOperator op mem ne b bar
  rw [binaryOperator?, ← List.take_append_drop 8 binaryOperators, List.find?_append] at h
  cases first : longBinaryOperators.find? fun op => startsPunct op.text ts with
  | some op' =>
    rw [longBinaryOperators] at first
    rw [first, Option.some_or, Option.some.injEq] at h
    subst h
    exact absurd (List.mem_of_find?_eq_some first) short
  | none =>
    have := List.find?_eq_none.1 first long isLong
    rw [startsPunct, text] at this
    simpa using this

theorem unaryOperator?_ok {ts : List TokenTree} {op : String} (h : unaryOperator? ts = some op) :
    op ∈ unaryOperators ∧ startsPunct op ts = true :=
  ⟨List.mem_of_find?_eq_some h, by simpa using List.find?_some h⟩

theorem unaryOperators_signs : ∀ op ∈ unaryOperators, op ∈ signs := by
  decide

theorem extension_of_unaryOperator :
    ∀ op ∈ unaryOperators, ∀ b ∈ extensions false op, b ∈ ['=', '>'] := by
  have known : ∀ op ∈ unaryOperators,
      (extensions false op).all fun b => decide (b ∈ ['=', '>']) := by
    decide
  intro op mem b bar
  exact of_decide_eq_true (List.all_eq_true.1 (known op mem) b bar)

section

variable (hg : g.Faithful)
include hg

theorem pathOrMacro_reads {e : Expr} (h : pathOrMacro g c = .ok e c') :
    Reads c e.layout.chunks c' := by
  unfold pathOrMacro at h
  simp only [↓look_ite_ok, bind_ok, pure_ok] at h
  obtain ⟨⟨self, p⟩, c₁, run, h⟩ := h
  obtain ⟨reads, -⟩ := qualifiedPath_reads hg run
  obtain ⟨bang, m, _, call, rfl, rfl⟩ | ⟨-, rfl, rfl⟩ := h
  · simp only [Bool.and_eq_true, decide_eq_true_eq] at bang
    obtain ⟨⟨rfl, -⟩, -⟩ := bang
    rw [Node.chunks_unqualified] at reads
    simp only [Node.layout, ChunkLayout.chunks_whole]
    exact invocation_reads reads call
  · rwa [Node.chunks_pathExpr]

/-- A unary operator in front of its operand. -/
theorem unary_takes {op : String} {power : Nat} {mark : Token} {e : Expr} {c₁ c₂ : Cursor}
    (starts : unaryOperator? c.rest = some op) (sign : punct op c = .ok mark c₁)
    (run : g.expr power c₁ = .ok e c₂) : Takes c [.mark mark false] c₁ := by
  obtain ⟨mem, -⟩ := unaryOperator?_ok starts
  exact .markBefore false (unaryOperators_signs op mem) sign fun b bar =>
    hg.exprFront run b (extension_of_unaryOperator op mem b bar)

theorem operand_reads {e : Expr} (h : operand g c = .ok e c') : Reads c e.layout.chunks c' := by
  unfold operand at h
  rw [look_bind_ok] at h
  cases starts : unaryOperator? c.rest with
  | some op =>
    simp only [starts, bind_ok, pure_ok] at h
    obtain ⟨mark, c₁, sign, e, _, run, rfl, rfl⟩ := h
    simp only [Node.layout, ChunkLayout.chunks_whole]
    exact (unary_takes hg starts sign run).reads.append (hg.expr run)
  | none =>
    simp only [starts] at h
    simp only [↓look_ite_ok, bind_ok, pure_ok, failNoneOf_ok] at h
    obtain ⟨-, t, _, run, rfl, rfl⟩ | ⟨-, ⟨-, t, _, run, rfl, rfl⟩ | ⟨-, ⟨-, t, _, run, rfl, rfl⟩ |
      ⟨-, ⟨-, ⟨paren, e⟩, _, run, rfl, rfl⟩ | ⟨-, ⟨-, ⟨brace, tokens⟩, _, run, rfl, rfl⟩ |
      ⟨-, ⟨-, run⟩ | ⟨-, ⟨⟩⟩⟩⟩⟩⟩⟩ := h
    · simp only [Node.layout, ChunkLayout.chunks_whole]
      exact (Takes.literal run).reads
    · simp only [Node.layout, ChunkLayout.chunks_whole]
      exact (Takes.keyword run).reads
    · simp only [Node.layout, ChunkLayout.chunks_whole]
      exact (Takes.keyword run).reads
    · simp only [Node.layout, ChunkLayout.chunks_whole]
      exact inGroup_reads (f := fun e : Expr => e.layout.chunks) hg.expr run
    · obtain ⟨o, e, eq, rfl⟩ := rawGroup_ok run
      simp only [Node.layout, ChunkLayout.chunks_whole]
      exact (Takes.raw eq).reads
    · exact pathOrMacro_reads hg run

omit hg in
/-- No operand starts with `=` or `>`. -/
theorem operand_front {e : Expr} (h : operand g c = .ok e c') {b : Char} (mem : b ∈ ['=', '>']) :
    startsChars [b] c.rest = false := by
  cases on : startsChars [b] c.rest with
  | false => rfl
  | true =>
    obtain ⟨t, us, eq, kind, text⟩ := startsChars_one.1 on
    unfold operand at h
    rw [look_bind_ok] at h
    simp only [List.mem_cons, List.not_mem_nil, or_false] at mem
    obtain rfl | rfl := mem <;>
    simp [eq, unaryOperator?, unaryOperators, startsPunct, startsChars, text, kind, look_ite_ok,
      startsLiteral, startsKind, token?, startsWord, startsGroup, startsPath, startsIdentifier,
      startsPathRoot, failNoneOf_ok, TokenKind.isLiteral] at h

/-- A binary operator in front of its right operand. -/
theorem operator_takes {op : BinaryOperator} {power : Nat} {mark : Token} {right : Expr}
    {c₁ c₂ : Cursor} (starts : binaryOperator? c.rest = some op)
    (sign : punct op.text c = .ok mark c₁) (run : g.expr power c₁ = .ok right c₂) :
    Takes c [.mark mark true] c₁ := by
  obtain ⟨mem, -, bar⟩ := binaryOperator?_ok starts
  have known := binaryOperators_signs op mem
  by_cases minus : op.text = "-"
  · refine .markBefore true known sign fun b more => ?_
    obtain rfl : b = '>' := by simpa [minus, extensions] using more
    exact hg.exprFront run _ (by decide)
  · exact .mark true known sign (bar minus)

/-- The operators and operands after a left operand. -/
theorem operatorsAfter_reads {power limit : Nat} {left e : Expr}
    (h : operatorsAfter g power limit left c = .ok e c') :
    ∃ more, e.layout.chunks = left.layout.chunks ++ more ∧ Reads c more c' := by
  induction limit generalizing left c with
  | zero => simp [operatorsAfter, fail_ok] at h
  | succ limit ih =>
    have stop (h : (pure left : Parser Expr) c = .ok e c') :
        ∃ more, e.layout.chunks = left.layout.chunks ++ more ∧ Reads c more c' := by
      obtain ⟨rfl, rfl⟩ := pure_ok.1 h
      exact ⟨[], (List.append_nil _).symm, .refl c⟩
    have goOn {left' : Expr} {c₁ : Cursor} {ps : List Chunk}
        (chunks : left'.layout.chunks = left.layout.chunks ++ ps) (reads : Reads c ps c₁)
        (h : operatorsAfter g power limit left' c₁ = .ok e c') :
        ∃ more, e.layout.chunks = left.layout.chunks ++ more ∧ Reads c more c' := by
      obtain ⟨more, eq, rest⟩ := ih h
      exact ⟨ps ++ more, by rw [eq, chunks, List.append_assoc], reads.append rest⟩
    unfold operatorsAfter at h
    simp only [↓look_ite_ok] at h
    obtain ⟨-, h⟩ | ⟨-, ⟨-, h⟩ | ⟨-, h⟩⟩ := h
    · split at h
      · exact stop h
      · simp only [bind_ok] at h
        obtain ⟨⟨paren, args⟩, c₁, group, h⟩ := h
        refine goOn ?_ (inGroup_reads (list_reads (by decide) rfl hg.expr) group) h
        simp only [Node.layout, ChunkLayout.chunks_whole, Node.chunks_ofSeparated]
    · split at h
      · exact stop h
      · simp only [bind_ok] at h
        obtain ⟨asToken, c₁, word, t, c₂, type, h⟩ := h
        refine goOn ?_ ((Takes.keyword word).reads.append (hg.type type)) h
        simp only [Node.layout, ChunkLayout.chunks_whole, List.singleton_append]
    · rw [look_bind_ok] at h
      cases starts : binaryOperator? c.rest with
      | none =>
        simp only [starts] at h
        exact stop h
      | some op =>
        simp only [starts] at h
        split at h
        · exact stop h
        · simp only [bind_ok] at h
          obtain ⟨mark, c₁, sign, right, c₂, run, h⟩ := h
          refine goOn ?_ ((operator_takes hg starts sign run).reads.append (hg.expr run)) h
          simp only [Node.layout, ChunkLayout.chunks_whole, List.singleton_append]

theorem expr_reads {power : Nat} {e : Expr} (h : expr g power c = .ok e c') :
    Reads c e.layout.chunks c' := by
  obtain ⟨left, c₁, first, rest⟩ := bind_ok.1 h
  obtain ⟨more, eq, reads⟩ := operatorsAfter_reads hg rest
  rw [eq]
  exact (operand_reads hg first).append reads

omit hg in
theorem expr_front {power : Nat} {e : Expr} (h : expr g power c = .ok e c') :
    ∀ b ∈ ['=', '>'], startsChars [b] c.rest = false := by
  obtain ⟨left, c₁, first, rest⟩ := bind_ok.1 h
  exact fun b => operand_front first

end

/-! ## Types -/

section

variable (hg : g.Faithful)
include hg

theorem objectBounds_reads {plus : Bool} {p : Separated Bound}
    (h : objectBounds g plus c = .ok p c') :
    Reads c (p.chunks fun b => b.layout.chunks) c' ∧
      ∃ first c₁, bound g c = .ok first c₁ ∧ p.first? = some first := by
  unfold objectBounds at h
  split at h
  · obtain ⟨first, c₁, run, rest⟩ := list1_ok h
    exact ⟨bounds_reads hg rfl h, first, c₁, run, listFrom_first rest⟩
  · obtain ⟨b, run, rfl⟩ := map_ok.1 h
    exact ⟨bound_reads hg run, b, c', run, rfl⟩

theorem traitObject_reads {plus : Bool} {t : Ty} (h : traitObject g plus c = .ok t c') :
    Reads c t.layout.chunks c' ∧
      ∃ dynToken bounds, t = .traitObject dynToken (.ofSeparated bounds) ∧
        (startsWord "dyn" c.rest = true → ∃ d, dynToken = some d ∧ d.IsWord "dyn") ∧
        ∀ paren modifier binder p, bounds.first? = some (.traitBound paren modifier binder p) →
          ∀ m ∈ modifier, m.text = "?" := by
  unfold traitObject at h
  simp only [bind_ok] at h
  obtain ⟨dynToken, c₁, word, bounds, c₂, run, h⟩ := h
  split at h
  · obtain ⟨rfl, rfl⟩ := pure_ok.1 h
    obtain ⟨reads, first, c₃, start, eq⟩ := objectBounds_reads hg run
    refine ⟨?_, dynToken, bounds, rfl, fun dyn => ?_, fun paren modifier binder p eq' => ?_⟩
    · simp only [Node.layout, ChunkLayout.chunks_whole, Node.chunks_ofSeparated]
      exact (Takes.keyword? word).reads.append reads
    · obtain ⟨-, off, -⟩ | ⟨d, rfl, run⟩ := keyword?_ok word
      · simp [off] at dyn
      · exact ⟨d, rfl, (keyword_ok run).2⟩
    · rw [eq, Option.some.injEq] at eq'
      subst eq'
      exact bound_modifier hg start
  · simp [fail_ok] at h

theorem implTrait_reads {t : Ty} (h : implTrait g c = .ok t c') : Reads c t.layout.chunks c' := by
  simp only [implTrait, bind_ok, pure_ok] at h
  obtain ⟨word, c₁, impl, bounds, _, run, rfl, rfl⟩ := h
  simp only [Node.layout, ChunkLayout.chunks_whole, Node.chunks_ofSeparated]
  exact (Takes.keyword impl).reads.append (bounds_reads hg rfl run)

omit hg in
/-- The name of an input with its colon. -/
theorem fnName_takes {ident colon : Token} {c₁ : Cursor} (ahead : startsFnName c.rest = true)
    (name : anyWord c = .ok ident c₁) (mark : punct ":" c₁ = .ok colon c') :
    Takes c [.word ident, .mark colon false] c' := by
  refine (Takes.anyWord name).append (Takes.mark false (by decide) mark fun b mem => ?_)
  obtain rfl : b = ':' := by simpa [extensions] using mem
  obtain ⟨eq, -⟩ := anyWord_ok name
  simp only [startsFnName, eq, List.drop_succ_cons, List.drop_zero, Bool.and_eq_true,
    Bool.not_eq_true'] at ahead
  exact ahead.2

theorem fnArg_reads {a : Node .fnArg} (h : fnArg g c = .ok a c') : Reads c a.layout.chunks c' := by
  unfold fnArg at h
  simp only [↓look_ite_ok, bind_ok, pure_ok] at h
  obtain ⟨attrs, c₁, run, ⟨ahead, ident, c₂, name, colon, c₃, mark, t, _, type, rfl, rfl⟩ |
    ⟨-, t, _, type, rfl, rfl⟩⟩ := h <;> simp only [Node.layout, ChunkLayout.chunks_whole]
  · exact (attributes_takes run).reads.append
      ((fnName_takes ahead name mark).reads.append (hg.type type))
  · exact (attributes_takes run).reads.append (hg.type type)

theorem fnInputsAndDots_reads {inputs : Separated (Node .fnArg)} {dots : Option Token}
    (h : fnInputsAndDots g c = .ok (inputs, dots) c') :
    Reads c (inputs.chunks (fun a => a.layout.chunks) ++
      Node.variadicChunks (.ofSeparated inputs) dots) c' := by
  unfold fnInputsAndDots at h
  simp only [↓look_ite_ok, bind_ok, pure_ok] at h
  obtain ⟨p, c₁, run, ⟨accepts, d, _, mark, eq, rfl⟩ | ⟨-, eq, rfl⟩⟩ := h <;> cases eq
  · simp only [Bool.and_eq_true] at accepts
    simp only [Node.variadicChunks, Node.acceptsValue, Node.separated_ofSeparated, accepts.1,
      if_true, List.nil_append]
    exact (list_reads (by decide) rfl (fnArg_reads hg) run).append
      (Takes.sign (by decide) mark rfl).reads
  · simp only [Node.variadicChunks, List.append_nil]
    exact list_reads (by decide) rfl (fnArg_reads hg) run

/-- The word `fn` with the inputs and the output after it. -/
theorem signature_reads {fnToken : Token} {paren : Delim} {inputs : Separated (Node .fnArg)}
    {dots : Option Token} {o : Node .output} {c₁ c₂ : Cursor}
    (fn : keyword "fn" c = .ok fnToken c₁)
    (group : inGroup .paren (fnInputsAndDots g) c₁ = .ok (paren, inputs, dots) c₂)
    (out : output g false c₂ = .ok o c') :
    Reads c (.word fnToken :: .group paren (inputs.chunks (fun a => a.layout.chunks) ++
      Node.variadicChunks (.ofSeparated inputs) dots) :: o.layout.chunks) c' := by
  have inside := inGroup_reads (f := fun (x : Separated (Node .fnArg) × Option Token) =>
    x.1.chunks (fun a => a.layout.chunks) ++ Node.variadicChunks (.ofSeparated x.1) x.2)
    (fnInputsAndDots_reads hg) group
  exact (Takes.keyword fn).reads.append (inside.append (output_reads hg out))

/-- A function type is printed behind its binder. -/
theorem bareFnAfter_reads {b : Option Binder} {t : Ty} (h : bareFnAfter g b c = .ok t c') :
    ∃ ps, t.layout.chunks = binderChunks b ++ ps ∧ Reads c ps c' := by
  unfold bareFnAfter at h
  simp only [↓look_ite_ok, bind_ok, pure_ok, map_ok] at h
  obtain ⟨unsafety, c₁, word,
    ⟨-, _, c₂, ⟨a, convention, rfl⟩, fnToken, c₃, fn, ⟨paren, inputs, dots⟩,
      c₄, group, o, _, out, rfl, rfl⟩ |
    ⟨-, _, _, ⟨rfl, rfl⟩, fnToken, c₃, fn, ⟨paren, inputs, dots⟩,
      c₄, group, o, _, out, rfl, rfl⟩⟩ := h <;>
    simp only [Node.layout, ChunkLayout.chunks_whole, Node.chunks_ofSeparated]
  · exact ⟨_, rfl, (Takes.keyword? word).reads.append ((abi_takes convention).reads.append
      (signature_reads hg fn group out))⟩
  · exact ⟨_, rfl, (Takes.keyword? word).reads.append (signature_reads hg fn group out)⟩

theorem groupType_reads {t : Ty} (h : groupType g c = .ok t c') : Reads c t.layout.chunks c' := by
  simp only [groupType, bind_ok, pure_ok] at h
  obtain ⟨⟨delim, elem⟩, _, group, rfl, rfl⟩ := h
  simp only [Node.layout, ChunkLayout.chunks_whole]
  exact inGroup_reads (f := fun t : Ty => t.layout.chunks) hg.type group

/-- The semicolon and the length of an array. -/
def lengthChunks : Option (Token × Expr) → List Chunk
  | some x => .mark x.1 false :: x.2.layout.chunks
  | none => []

theorem arrayOrSliceContents_reads {elem : Ty} {length : Option (Token × Expr)}
    (h : arrayOrSliceContents g c = .ok (elem, length) c') :
    Reads c (elem.layout.chunks ++ lengthChunks length) c' := by
  unfold arrayOrSliceContents at h
  simp only [↓look_ite_ok, bind_ok, pure_ok] at h
  obtain ⟨elem, c₁, type, ⟨-, semi, c₂, mark, n, _, run, eq, rfl⟩ | ⟨-, eq, rfl⟩⟩ := h <;> cases eq
  · exact (hg.type type).append ((Takes.sign (by decide) mark rfl).reads.append (hg.expr run))
  · exact (hg.type type).append (.refl _)

theorem arrayOrSlice_reads {t : Ty} (h : arrayOrSlice g c = .ok t c') :
    Reads c t.layout.chunks c' := by
  simp only [arrayOrSlice, bind_ok] at h
  obtain ⟨⟨bracket, elem, length⟩, _, group, h⟩ := h
  have inside := inGroup_reads (f := fun (x : Ty × Option (Token × Expr)) =>
    x.1.layout.chunks ++ lengthChunks x.2) (arrayOrSliceContents_reads hg) group
  cases length with
  | some x =>
    obtain ⟨rfl, rfl⟩ := pure_ok.1 h
    simpa only [Node.layout, ChunkLayout.chunks_whole, lengthChunks] using inside
  | none =>
    obtain ⟨rfl, rfl⟩ := pure_ok.1 h
    simpa only [Node.layout, ChunkLayout.chunks_whole, lengthChunks, List.append_nil] using inside

omit hg in
theorem never_reads {t : Ty} (h : never c = .ok t c') : Reads c t.layout.chunks c' := by
  unfold never at h
  simp only [↓look_ite_ok, bind_ok, pure_ok, fail_ok] at h
  obtain ⟨-, ⟨⟩⟩ | ⟨alone, bang, _, mark, rfl, rfl⟩ := h
  simp only [Node.layout, ChunkLayout.chunks_whole]
  refine (Takes.mark false (by decide) mark fun b mem => ?_).reads
  obtain rfl : b = '=' := by simpa [extensions] using mem
  exact alone

omit hg in
theorem infer_reads {t : Ty} (h : infer c = .ok t c') : Reads c t.layout.chunks c' := by
  simp only [infer, bind_ok, pure_ok] at h
  obtain ⟨word, _, run, rfl, rfl⟩ := h
  simp only [Node.layout, ChunkLayout.chunks_whole]
  exact (Takes.keyword run).reads

theorem pointer_reads {t : Ty} (h : pointer g c = .ok t c') : Reads c t.layout.chunks c' := by
  unfold pointer at h
  simp only [↓look_ite_ok, bind_ok, pure_ok, failNoneOf_ok] at h
  obtain ⟨star, c₁, sign, ⟨-, mark, c₂, word, t, _, type, rfl, rfl⟩ |
    ⟨-, ⟨-, mark, c₂, word, t, _, type, rfl, rfl⟩ | ⟨-, ⟨⟩⟩⟩⟩ := h <;>
    simp only [Node.layout, ChunkLayout.chunks_whole]
  · exact (Takes.sign (by decide) sign rfl).reads.append
      ((Takes.keyword word).reads.append (hg.type type))
  · exact (Takes.sign (by decide) sign rfl).reads.append
      ((Takes.keyword word).reads.append (hg.type type))

theorem reference_reads {t : Ty} (h : reference g c = .ok t c') : Reads c t.layout.chunks c' := by
  simp only [reference, bind_ok, pure_ok] at h
  obtain ⟨ampersand, c₁, sign, l, c₂, lifetime, mutability, c₃, word, t, _, type, rfl, rfl⟩ := h
  simp only [Node.layout, ChunkLayout.chunks_whole]
  exact (Takes.sign (by decide) sign rfl).reads.append ((lifetime?_takes lifetime).reads.append
    ((Takes.keyword? word).reads.append (hg.type type)))

/-! ### Paths -/

/-- The run of a binder in front of a type, if there is one. -/
def BinderRun (c₀ : Cursor) (b : Option Binder) (c : Cursor) : Prop :=
  match b with
  | none => c₀ = c ∧ startsWord "for" c₀.rest = false
  | some b => binder c₀ = .ok b c ∧ (afterBinder.any fun e => e.isMet c.rest) = true

omit hg in
theorem typeBinder?_ok {b : Option Binder} (h : typeBinder? c = .ok b c') : BinderRun c b c' := by
  unfold typeBinder? at h
  simp only [↓look_ite_ok, bind_ok, pure_ok, failNoneOf_ok] at h
  obtain ⟨-, b, c₁, run, ⟨follows, rfl, rfl⟩ | ⟨-, ⟨⟩⟩⟩ | ⟨off, rfl, rfl⟩ := h
  · exact ⟨run, follows⟩
  · exact ⟨rfl, off⟩

omit hg in
theorem BinderRun.reads {c₀ : Cursor} {b : Option Binder} (h : BinderRun c₀ b c) :
    Reads c₀ (binderChunks b) c := by
  cases b with
  | none =>
    obtain ⟨rfl, -⟩ := h
    exact .refl c₀
  | some b => exact binder_reads h.1

omit hg in
/-- What changes when the first value of a list changes. -/
theorem chunks_mapFirst {α : Type} {p : Separated α} {v : α} (h : p.first? = some v)
    (f : α → List Chunk) :
    ∃ more, p.chunks f = f v ++ more ∧ ∀ k : α → α, (p.mapFirst k).chunks f = f (k v) ++ more := by
  cases p with
  | empty => cases h
  | last w =>
    cases h
    exact ⟨[], by simp [Separated.chunks], by simp [Separated.mapFirst, Separated.chunks]⟩
  | cons w s rest =>
    cases h
    exact ⟨.mark s false :: rest.chunks f, rfl, fun k => rfl⟩

/-- A binder moves to the first bound of the trait object behind it. -/
theorem withBinder_reads {plus : Bool} {b : Binder} {object t : Ty} {c₀ c₁ : Cursor}
    (run : binder c₀ = .ok b c) (dyn : startsWord "dyn" c.rest = true)
    (h : traitObject g plus c = .ok object c₁) (attach : withBinder b object c₁ = .ok t c') :
    Reads c₀ t.layout.chunks c' := by
  obtain ⟨took, forToken, lt⟩ := binder_takes run
  obtain ⟨⟨qs, spelled, same⟩, dynToken, bounds, rfl, isDyn, query⟩ := traitObject_reads hg h
  obtain ⟨d, rfl, word⟩ := isDyn dyn
  simp only [withBinder, Node.separated_ofSeparated] at attach
  match first : bounds.first? with
  | some (.traitBound paren modifier b' p) =>
    simp only [first, pure_ok] at attach
    obtain ⟨rfl, rfl⟩ := attach
    obtain ⟨more, eq, eq'⟩ := chunks_mapFirst first fun n : Bound => n.layout.chunks
    have known := query _ _ _ _ first
    simp only [Node.layout, ChunkLayout.chunks_whole, Node.chunks_ofSeparated, eq, eq'] at same ⊢
    refine ⟨b.source ++ qs, took.append spelled, ?_⟩
    cases paren with
    | none =>
      simp only [List.append_assoc] at same ⊢
      exact .moved b b' forToken lt word known same
    | some paren => exact .movedInside b b' forToken lt word same
  | some (.lifetimeBound l) => simp [first, fail_ok] at attach
  | none => simp [first, fail_ok] at attach

omit hg in
theorem afterBinder_word {ts : List TokenTree}
    (follows : (afterBinder.any fun e => e.isMet ts) = true) :
    ∃ t us, ts = .token t :: us ∧ t.IsWord t.text := by
  match ts with
  | [] | .group .. :: _ =>
    simp [afterBinder, Expectation.isMet, startsIdentifier, startsWord, startsKind, token?]
      at follows
  | .token t :: us =>
    refine ⟨t, us, rfl, ?_, rfl⟩
    cases kind : t.kind <;>
      simp [afterBinder, Expectation.isMet, startsIdentifier, startsWord, startsKind, token?, kind]
        at follows ⊢

omit hg in
/-- Behind a binder a path is not qualified. -/
theorem qualifiedPathWithInputs_word {self : Node .selfType} {p : Path}
    (follows : (afterBinder.any fun e => e.isMet c.rest) = true)
    (run : qualifiedPathWithInputs g c = .ok (self, p) c') :
    self = .unqualified ∧ ∃ p' c₁, path g false c = .ok p' c₁ ∧
      ((p = p' ∧ c₁ = c') ∨ ∃ a, p'.endsPlain = true ∧ parenthesizedArgs g c₁ = .ok a c' ∧
        p = p'.withFinalArguments a) := by
  obtain ⟨t, us, eq, word⟩ := afterBinder_word follows
  unfold qualifiedPathWithInputs qualifiedPath at run
  simp only [↓look_ite_ok, bind_ok, pure_ok] at run
  obtain ⟨_, c₁, ⟨starts, -⟩ | ⟨-, p', _, inner, rfl, rfl⟩, h⟩ := run
  · rw [eq, startsPunct_word word.kind_ne (by decide)] at starts
    contradiction
  · obtain ⟨plain, a, _, inputs, eq, rfl⟩ | ⟨-, eq, rfl⟩ := h <;> cases eq
    · rw [Bool.and_eq_true] at plain
      exact ⟨rfl, p', _, inner, .inr ⟨a, plain.1, inputs, rfl⟩⟩
    · exact ⟨rfl, p', _, inner, .inl ⟨rfl, rfl⟩⟩

omit hg in
/-- The chunks of a path without arguments that starts with a word. -/
theorem path_front {inExpr : Bool} {p : Path} (h : path g inExpr c = .ok p c')
    (bare : startsPunct "::" c.rest = false) (plain : p.hasNoArguments = true) :
    ∃ word more, p.layout.chunks = .word word :: more ∧ word.IsWord word.text ∧
      (word.kind = .identifier ∨ word.text ∈ pathRoots) ∧
      (more = [] ∨ ∃ mark more', more = .mark mark false :: more' ∧ mark.text = "::") := by
  simp only [path, bind_ok, pure_ok] at h
  obtain ⟨leading, c₁, colons, s, _, run, rfl, rfl⟩ := h
  obtain ⟨rfl, -, rfl⟩ | ⟨_, rfl, mark⟩ := punct?_ok colons
  · obtain ⟨v, c₂, first, rest⟩ := list1_ok run
    obtain ⟨ident, a, us, rfl, -, word, root⟩ := segment_front first
    rw [Node.chunks_path]
    simp only [Node.hasNoArguments, Node.segments, Node.separated_ofSeparated] at plain
    have noArguments : a = .noArguments := by
      have : (Node.segment ident a).isPlain = true := by
        refine List.all_eq_true.1 plain _ ?_
        obtain ⟨n, -, ⟨-, rfl, -⟩ | ⟨s, _, -, -, ⟨-, rfl, -⟩ | ⟨_, _, q, -, -, -, rfl⟩⟩⟩ :=
          listFrom_ok rest <;> simp [Separated.toList]
      cases a with
      | noArguments => rfl
      | angle | parenthesized => simp [Node.isPlain] at this
    subst noArguments
    obtain ⟨n, -, ⟨-, rfl, -⟩ | ⟨s, _, -, sep, ⟨-, rfl, -⟩ | ⟨_, _, q, -, -, -, rfl⟩⟩⟩ :=
      listFrom_ok rest
    · exact ⟨ident, [], by simp [Separated.chunks, Node.layout, markChunks], word, root, .inl rfl⟩
    all_goals
      obtain ⟨-, ⟨span, rfl⟩, -⟩ := punct_ok sep
      exact ⟨ident, _, rfl, word, root, .inr ⟨_, _, rfl, rfl⟩⟩
  · rw [(punct_ok mark).1] at bare
    contradiction

/-- A path without arguments in front of the mark of a macro call. -/
theorem call_front {self : Node .selfType} {p : Path} {m : Node .invocation} {c₁ : Cursor}
    (follows : (afterBinder.any fun e => e.isMet c.rest) = true)
    (run : qualifiedPathWithInputs g c = .ok (self, p) c₁)
    (plain : p.hasNoArguments = true) (call : invocation p c₁ = .ok m c') :
    ∃ word mark more, m.layout.chunks = .word word :: .mark mark false :: more ∧
      word.IsWord word.text ∧ (word.kind = .identifier ∨ word.text ∈ pathRoots) ∧
      (mark.text = "::" ∨ mark.text = "!") := by
  obtain ⟨-, p', c₂, inner, ⟨rfl, rfl⟩ | ⟨a, -, inputs, rfl⟩⟩ :=
    qualifiedPathWithInputs_word follows run
  · obtain ⟨t, us, eq, isWord⟩ := afterBinder_word follows
    have bare : startsPunct "::" c.rest = false := by
      rw [eq, startsPunct_word isWord.kind_ne (by decide)]
    obtain ⟨word, more, chunks, isWord, root, front⟩ := path_front inner bare plain
    simp only [invocation, bind_ok, pure_ok] at call
    obtain ⟨bang, _, mark, ⟨delim, tokens⟩, _, group, rfl, rfl⟩ := call
    simp only [Node.layout, ChunkLayout.chunks_whole, chunks]
    obtain rfl | ⟨colons, more', rfl, text⟩ := front
    · obtain ⟨-, ⟨span, rfl⟩, -⟩ := punct_ok mark
      exact ⟨word, _, _, rfl, isWord, root, .inr rfl⟩
    · exact ⟨word, colons, _, rfl, isWord, root, .inl text⟩
  · obtain ⟨-, leading, s, rfl, ends⟩ := path_reads hg inner
    simp only [parenthesizedArgs, bind_ok, pure_ok] at inputs
    obtain ⟨⟨paren, inputs⟩, c₁, group, o, _, out, rfl, rfl⟩ := inputs
    simp only [Node.withFinalArguments, Node.hasNoArguments, Node.segments,
      Node.separated_ofSeparated] at plain
    rw [Separated.all_mapLast (fun v => by cases v; rfl) ends] at plain
    contradiction

theorem pathLike_reads {plus : Bool} {b : Option Binder} {t : Ty} {c₀ : Cursor}
    (run : BinderRun c₀ b c) (h : pathLike g b plus c = .ok t c') :
    Reads c₀ t.layout.chunks c' := by
  unfold pathLike at h
  simp only [↓look_ite_ok, bind_ok] at h
  obtain ⟨dyn, object, c₁, inner, h⟩ | ⟨-, ⟨self, p⟩, c₁, path, h⟩ := h
  · cases b with
    | none =>
      obtain ⟨rfl, -⟩ := run
      obtain ⟨rfl, rfl⟩ := pure_ok.1 h
      exact (traitObject_reads hg inner).1
    | some b => exact withBinder_reads hg run.1 dyn inner h
  · have reads := qualifiedPathWithInputs_reads hg path
    split at h
    · rename_i qualified
      obtain ⟨rfl, rfl⟩ := pure_ok.1 h
      cases b with
      | none =>
        obtain ⟨rfl, -⟩ := run
        exact reads
      | some b => exact absurd (qualifiedPathWithInputs_word run.2 path).1 qualified
    · rename_i unqualified
      obtain rfl : self = .unqualified := by simpa using unqualified
      rw [Node.chunks_unqualified] at reads
      simp only [↓look_ite_ok, bind_ok, pure_ok] at h
      obtain ⟨bang, m, _, call, rfl, rfl⟩ | ⟨-, h⟩ := h
      · have called := invocation_reads reads call
        simp only [Node.layout, ChunkLayout.chunks_whole]
        cases b with
        | none =>
          obtain ⟨rfl, -⟩ := run
          exact called
        | some b =>
          obtain ⟨took, forToken, lt⟩ := binder_takes run.1
          rw [Bool.and_eq_true] at bang
          obtain ⟨word, mark, more, eq, isWord, root, sign⟩ := call_front hg run.2 path bang.2 call
          obtain ⟨qs, spelled, same⟩ := called
          rw [eq] at same ⊢
          exact ⟨b.source ++ qs, took.append spelled,
            .dropped b forToken lt isWord root sign same⟩
      · have first : Reads c₀ (Node.traitBound none none b p).layout.chunks c₁ := by
          simp only [Node.layout, ChunkLayout.chunks_whole]
          exact run.reads.append reads
        obtain ⟨-, h⟩ | ⟨absent, rfl, rfl⟩ := h
        · split at h
          · obtain ⟨bounds, c₂, more, h⟩ := bind_ok.1 h
            obtain ⟨rfl, rfl⟩ := pure_ok.1 h
            simp only [Node.layout, ChunkLayout.chunks_whole, Node.chunks_ofSeparated]
            exact boundsAfter_reads hg rfl first more
          · simp only [bind_ok, pure_ok] at h
            obtain ⟨_, _, ⟨rfl, rfl⟩, rfl, rfl⟩ := h
            simp only [Node.layout, ChunkLayout.chunks_whole, Node.chunks_ofSeparated]
            exact first
        · cases b with
          | none =>
            obtain ⟨rfl, -⟩ := run
            rwa [Node.chunks_unqualified]
          | some b => simp at absent

/-! ### Parentheses -/

/-- The chunks of the contents of parentheses. -/
def Parenthesized.chunks : Parenthesized → List Chunk
  | .tuple elems => elems.chunks fun t => t.layout.chunks
  | .object elem | .type elem => elem.layout.chunks
  | .bound b => b.layout.chunks

theorem parenContents_reads {x : Parenthesized} (h : parenContents g c = .ok x c') :
    Reads c x.chunks c' := by
  unfold parenContents at h
  simp only [↓look_ite_ok, bind_ok, pure_ok] at h
  obtain ⟨-, rfl, rfl⟩ | ⟨-, ⟨-, t, _, run, rfl, rfl⟩ | ⟨-, ⟨-, b, _, run, rfl, rfl⟩ |
    ⟨-, first, c₁, type, ⟨-, comma, c₂, mark, rest, _, run, rfl, rfl⟩ | ⟨-, rfl, rfl⟩⟩⟩⟩ := h
  · exact .refl c
  · exact (traitObject_reads hg run).1
  · exact (traitBound_reads hg run).1
  · exact (hg.type type).append
      ((Takes.sign (by decide) mark rfl).reads.append (types_reads hg run))
  · exact hg.type type

omit hg in
/-- Only the first of two questions lets a trait bound be the contents of parentheses. -/
theorem parenContents_bound {b : Bound} (h : parenContents g c = .ok (.bound b) c') :
    startsPunct "?" c.rest = true ∧ traitBound g c = .ok b c' := by
  unfold parenContents at h
  simp only [↓look_ite_ok, bind_ok, pure_ok] at h
  obtain ⟨-, ⟨⟩, -⟩ | ⟨-, ⟨-, t, _, run, ⟨⟩, -⟩ | ⟨-, ⟨query, b, _, run, eq, rfl⟩ |
    ⟨-, first, c₁, type, ⟨-, comma, c₂, mark, rest, _, run, ⟨⟩, -⟩ | ⟨-, ⟨⟩, -⟩⟩⟩⟩ := h
  cases eq
  exact ⟨query, run⟩

theorem objectAfter_reads {first : Bound} {t : Ty} {c₀ : Cursor}
    (reads : Reads c₀ first.layout.chunks c) (h : objectAfter g first c = .ok t c') :
    Reads c₀ t.layout.chunks c' := by
  simp only [objectAfter, bind_ok, pure_ok] at h
  obtain ⟨bounds, _, run, rfl, rfl⟩ := h
  simp only [Node.layout, ChunkLayout.chunks_whole, Node.chunks_ofSeparated]
  exact boundsAfter_reads hg rfl reads run

omit hg in
theorem parenContents_type {t : Ty} (h : parenContents g c = .ok (.type t) c') :
    g.type true c = .ok t c' := by
  unfold parenContents at h
  simp only [↓look_ite_ok, bind_ok, pure_ok] at h
  obtain ⟨-, ⟨⟩, -⟩ | ⟨-, ⟨-, t, _, run, ⟨⟩, -⟩ | ⟨-, ⟨-, b, _, run, ⟨⟩, -⟩ |
    ⟨-, first, c₁, type, ⟨-, comma, c₂, mark, rest, _, run, ⟨⟩, -⟩ | ⟨-, eq, rfl⟩⟩⟩⟩ := h
  cases eq
  exact type

omit hg in
theorem boundOfType?_ok {paren : Delim} {t : Ty} {b : Bound} (h : boundOfType? paren t = some b) :
    (∃ p, t = .pathType .unqualified p ∧ b = .traitBound (some paren) none none p) ∨
      ∃ b', t = .traitObject none (.last b') ∧ b = inParens paren b' := by
  unfold boundOfType? at h
  split at h
  · cases h
    exact .inl ⟨_, rfl, rfl⟩
  · rename_i bounds
    cases bounds with
    | last b' =>
      cases h
      exact .inr ⟨b', rfl, rfl⟩
    | nil | cons => cases h
  · cases h

/-- A type in parentheses that is a bound, read as a bound. -/
theorem boundOfType?_reads {paren : Delim} {t : Ty} {b : Bound}
    (group : inGroup .paren (parenContents g) c = .ok (paren, .type t) c')
    (promoted : boundOfType? paren t = some b) : Reads c b.layout.chunks c' := by
  have inside := inGroup_reads (parenContents_reads hg) group
  obtain ⟨p, rfl, rfl⟩ | ⟨b', rfl, rfl⟩ := boundOfType?_ok promoted
  · simp only [Node.layout, ChunkLayout.chunks_whole, Parenthesized.chunks] at inside ⊢
    exact inside
  · obtain ⟨us, o, e, c₁, eq, rfl, run, done⟩ := inGroup_ok group
    obtain ⟨modifier, binder, p, rfl⟩ |
      ⟨us', o', e', query, binder, p, c₂, eq', rfl, text, done', reads⟩ :=
      hg.lone (parenContents_type run)
    · rw [chunks_inParens]
      rwa [Parenthesized.chunks, Node.chunks_lone] at inside
    · obtain ⟨qs, ⟨ts, all, spelled⟩, same⟩ := reads
      simp only [inParens, Node.layout, ChunkLayout.chunks_whole] at same ⊢
      replace same : Reprints qs (.mark query false :: (binderChunks binder ++ p.layout.chunks)) :=
        same
      obtain ⟨qs', rfl, body⟩ := same.of_mark
      rw [done', List.append_nil] at all
      rw [done'] at spelled
      rw [done] at eq'
      cases all
      cases eq'
      refine ⟨_, ⟨[_], eq, ?_⟩,
        .unwrapped rfl (rfl : (⟨.paren, o'⟩ : Delim).delimiter = _) text body .nil⟩
      exact spells_group.2 ⟨_, o, e, [], rfl, spells_group.2 ⟨_, o', e', [], rfl, spelled,
        spells_nil.2 rfl⟩, spells_nil.2 rfl⟩

theorem parenthesized_reads {plus : Bool} {t : Ty} (h : parenthesized g plus c = .ok t c') :
    Reads c t.layout.chunks c' := by
  simp only [parenthesized, bind_ok] at h
  obtain ⟨⟨paren, x⟩, c₁, group, h⟩ := h
  have inside := inGroup_reads (parenContents_reads hg) group
  cases x with
  | tuple elems =>
    obtain ⟨rfl, rfl⟩ := pure_ok.1 h
    simp only [Node.layout, ChunkLayout.chunks_whole, Node.chunks_ofSeparated]
    exact inside
  | object elem =>
    obtain ⟨rfl, rfl⟩ := pure_ok.1 h
    simp only [Node.layout, ChunkLayout.chunks_whole]
    exact inside
  | bound b =>
    obtain ⟨us, o, e, c₂, eq, rfl, run, done⟩ := inGroup_ok group
    obtain ⟨reads, modifier, binder, p, rfl, -⟩ := traitBound_reads hg (parenContents_bound run).2
    refine objectAfter_reads hg ?_ h
    rw [chunks_inParens]
    exact inside
  | type elem =>
    simp only [↓look_ite_ok, pure_ok] at h
    obtain ⟨-, h⟩ | ⟨-, rfl, rfl⟩ := h
    · cases promoted : boundOfType? paren elem with
      | none =>
        simp only [promoted, pure_ok] at h
        obtain ⟨rfl, rfl⟩ := h
        simp only [Node.layout, ChunkLayout.chunks_whole]
        exact inside
      | some b =>
        simp only [promoted] at h
        exact objectAfter_reads hg (boundOfType?_reads hg group promoted) h
    · simp only [Node.layout, ChunkLayout.chunks_whole]
      exact inside

/-! ### All types -/

omit hg in
/-- Behind a binder there is a function type or a path. -/
theorem afterBinder_path {ts : List TokenTree}
    (follows : (afterBinder.any fun e => e.isMet ts) = true) (noFn : startsBareFn ts = false) :
    startsGroup .paren ts = false ∧ startsPath ts = true := by
  obtain ⟨t, us, rfl, -⟩ := afterBinder_word follows
  refine ⟨rfl, ?_⟩
  simp only [startsBareFn, Bool.or_eq_false_iff] at noFn
  simp only [afterBinder, Expectation.isMet, List.any_cons, List.any_nil, Bool.or_false,
    noFn.1.1, noFn.1.2, Bool.false_or] at follows
  simp only [startsPath, startsPathRoot, pathRoots, List.any_cons, List.any_nil, Bool.or_false]
  grind

theorem typeAfter_reads {plus : Bool} {b : Option Binder} {t : Ty} {c₀ : Cursor}
    (run : BinderRun c₀ b c) (h : typeAfter g b plus c = .ok t c') :
    Reads c₀ t.layout.chunks c' := by
  unfold typeAfter at h
  simp only [↓look_ite_ok, failNoneOf_ok] at h
  cases b with
  | none =>
    obtain ⟨rfl, off⟩ := run
    obtain ⟨-, h⟩ | ⟨-, ⟨-, h⟩ | ⟨-, ⟨-, h⟩ | ⟨-, ⟨-, h⟩ | ⟨-, ⟨-, h⟩ | ⟨-, ⟨-, h⟩ | ⟨-, ⟨-, h⟩ |
      ⟨-, ⟨-, h⟩ | ⟨-, ⟨-, h⟩ | ⟨-, ⟨-, h⟩ | ⟨-, ⟨⟩⟩⟩⟩⟩⟩⟩⟩⟩⟩⟩ := h
    · exact parenthesized_reads hg h
    · obtain ⟨ps, eq, reads⟩ := bareFnAfter_reads hg h
      rwa [eq]
    · exact pathLike_reads hg (b := none) ⟨rfl, off⟩ h
    · exact arrayOrSlice_reads hg h
    · exact pointer_reads hg h
    · exact reference_reads hg h
    · exact never_reads h
    · exact implTrait_reads hg h
    · exact infer_reads h
    · exact (traitObject_reads hg h).1
  | some b =>
    cases fn : startsBareFn c.rest with
    | true =>
      obtain ⟨u, us, eq, -⟩ := afterBinder_word run.2
      obtain ⟨paren, -⟩ | ⟨-, ⟨-, h⟩ | ⟨off, -⟩⟩ := h
      · rw [eq] at paren
        cases paren
      · obtain ⟨ps, eq, reads⟩ := bareFnAfter_reads hg h
        rw [eq]
        exact run.reads.append reads
      · rw [fn] at off
        cases off
    | false =>
      obtain ⟨paren, path⟩ := afterBinder_path run.2 fn
      simp only [fn, paren, path, Bool.false_eq_true, false_and, false_or, true_and,
        reduceCtorEq, or_false] at h
      exact pathLike_reads hg run h

theorem type_reads {plus : Bool} {t : Ty} (h : type g plus c = .ok t c') :
    Reads c t.layout.chunks c' := by
  unfold type at h
  simp only [↓look_ite_ok, bind_ok] at h
  obtain ⟨-, h⟩ | ⟨-, b, c₁, binder, h⟩ := h
  · exact groupType_reads hg h
  · exact typeAfter_reads hg (typeBinder?_ok binder) h

omit hg in
/-- No type starts with `=`, `>` or `?`. -/
theorem type_front {plus : Bool} {t : Ty} (h : type g plus c = .ok t c') :
    ∀ b ∈ ['=', '>', '?'], startsChars [b] c.rest = false := by
  intro b mem
  cases on : startsChars [b] c.rest with
  | false => rfl
  | true =>
    obtain ⟨t, us, eq, kind, text⟩ := startsChars_one.1 on
    unfold type at h
    simp only [↓look_ite_ok, bind_ok] at h
    obtain ⟨group, -⟩ | ⟨-, binder, c₁, run, h⟩ := h
    · rw [eq] at group
      cases group
    cases binder with
    | none =>
      obtain ⟨rfl, -⟩ := typeBinder?_ok run
      unfold typeAfter at h
      simp only [↓look_ite_ok, failNoneOf_ok] at h
      simp only [List.mem_cons, List.not_mem_nil, or_false] at mem
      obtain rfl | rfl | rfl := mem <;>
        simp [eq, startsPunct, startsChars, text, kind, startsLifetime, startsKind, token?,
          startsWord, startsGroup, startsPath, startsIdentifier, startsPathRoot, startsBareFn,
          startsBang] at h
    | some binder =>
      obtain ⟨_, _, _, forToken, -⟩ := binder_ok (typeBinder?_ok run).1
      obtain ⟨eq', word⟩ := keyword_ok forToken
      rw [eq] at eq'
      cases eq'
      exact absurd kind word.kind_ne

omit hg in
theorem ofSeparated_last {k : Category} {p : Separated (Node k)} {v : Node k}
    (h : Node.ofSeparated p = .last v) : p = .last v := by
  have := congrArg Node.separated h
  simpa using this

omit hg in
/-- The bound of a path is in no parentheses. -/
theorem pathLike_lone {plus : Bool} {binder : Option Binder} {b : Bound}
    (h : pathLike g binder plus c = .ok (.traitObject none (.last b)) c') :
    ∃ binder p, b = .traitBound none none binder p := by
  unfold pathLike at h
  simp only [↓look_ite_ok, bind_ok] at h
  obtain ⟨dyn, object, c₁, run, h⟩ | ⟨-, ⟨self, p⟩, c₁, path, h⟩ := h
  · simp only [traitObject, bind_ok] at run
    obtain ⟨dynToken, c₂, word, bounds, c₃, run, inner⟩ := run
    split at inner
    · obtain ⟨rfl, rfl⟩ := pure_ok.1 inner
      obtain ⟨-, off, -⟩ | ⟨d, rfl, -⟩ := keyword?_ok word
      · simp [off] at dyn
      · cases binder with
        | none =>
          obtain ⟨eq, -⟩ := pure_ok.1 h
          cases eq
        | some binder =>
          simp only [withBinder, Node.separated_ofSeparated] at h
          match first : bounds.first? with
          | some (.traitBound ..) =>
            simp only [first, pure_ok] at h
            cases h.1
          | some (.lifetimeBound _) => simp [first, fail_ok] at h
          | none => simp [first, fail_ok] at h
    · simp [fail_ok] at inner
  · split at h
    · cases (pure_ok.1 h).1
    · simp only [↓look_ite_ok, bind_ok, pure_ok] at h
      obtain ⟨-, m, _, -, eq, -⟩ | ⟨-, ⟨-, h⟩ | ⟨-, eq, -⟩⟩ := h
      · cases eq
      · split at h
        · obtain ⟨bounds, c₂, more, h⟩ := bind_ok.1 h
          obtain ⟨eq, -⟩ := pure_ok.1 h
          have lone := ofSeparated_last (Node.traitObject.inj eq).2
          have first := listFrom_first more
          rw [lone] at first
          cases first
          exact ⟨binder, p, rfl⟩
        · simp only [bind_ok, pure_ok] at h
          obtain ⟨_, _, ⟨rfl, rfl⟩, eq, -⟩ := h
          cases ofSeparated_last (Node.traitObject.inj eq).2
          exact ⟨binder, p, rfl⟩
      · cases eq

omit hg in
/-- A trait bound that starts with `?` has a modifier. -/
theorem traitBound_query {b : Bound} (query : startsPunct "?" c.rest = true)
    (h : traitBound g c = .ok b c') :
    ∃ m binder p, b = .traitBound none (some m) binder p := by
  simp only [traitBound, bind_ok, pure_ok] at h
  obtain ⟨modifier, c₁, mark, binder, c₂, -, p, _, -, rfl, rfl⟩ := h
  obtain ⟨-, off, -⟩ | ⟨m, rfl, -⟩ := punct?_ok mark
  · rw [query] at off
    cases off
  · exact ⟨m, binder, p, rfl⟩

omit hg in
theorem parenthesized_lone {plus : Bool} {b : Bound}
    (h : parenthesized g plus c = .ok (.traitObject none (.last b)) c') :
    ∃ us o e binder query p c₁, c.rest = .group .paren us o e :: c'.rest ∧
      startsPunct "?" us = true ∧ c₁.rest = [] ∧
      traitBound g (Cursor.ofTrees us e) = .ok (.traitBound none (some query) binder p) c₁ ∧
      b = .traitBound (some ⟨.paren, o⟩) (some query) binder p := by
  simp only [parenthesized, bind_ok] at h
  obtain ⟨⟨paren, x⟩, c₁, group, h⟩ := h
  cases x with
  | tuple elems => cases (pure_ok.1 h).1
  | object elem => cases (pure_ok.1 h).1
  | bound first =>
    simp only [objectAfter, bind_ok, pure_ok] at h
    obtain ⟨bounds, _, more, eq, rfl⟩ := h
    cases ofSeparated_last (Node.traitObject.inj eq).2
    obtain ⟨us, o, e, c₂, ahead, rfl, run, done⟩ := inGroup_ok group
    obtain ⟨query, run⟩ := parenContents_bound run
    obtain ⟨m, binder, p, rfl⟩ := traitBound_query query run
    have first := listFrom_first more
    obtain ⟨n, -, ⟨-, -, rfl⟩ | ⟨s, _, -, -, ⟨-, ⟨⟩, -⟩ | ⟨_, _, _, -, -, -, ⟨⟩⟩⟩⟩ :=
      listFrom_ok more
    cases first
    exact ⟨us, o, e, binder, m, p, c₂, ahead, query, done, run, rfl⟩
  | type elem =>
    simp only [↓look_ite_ok, pure_ok] at h
    obtain ⟨plus, h⟩ | ⟨-, eq, -⟩ := h
    · cases promoted : boundOfType? paren elem with
      | none =>
        simp only [promoted, pure_ok] at h
        cases h.1
      | some b =>
        simp only [promoted, objectAfter, bind_ok, pure_ok] at h
        obtain ⟨bounds, _, more, eq, rfl⟩ := h
        cases ofSeparated_last (Node.traitObject.inj eq).2
        rw [Bool.and_eq_true] at plus
        obtain ⟨n, -, ⟨off, -⟩ | ⟨s, _, -, -, ⟨-, ⟨⟩, -⟩ | ⟨_, _, _, -, -, -, ⟨⟩⟩⟩⟩ :=
          listFrom_ok more
        simp [joined, plus.2] at off
    · cases eq

omit hg in
/-- A trait object after a lifetime has more than one bound. -/
theorem traitObject_lone {plus : Bool} {b : Bound} (lifetime : startsLifetime c.rest = true)
    (h : traitObject g plus c = .ok (.traitObject none (.last b)) c') : False := by
  unfold traitObject at h
  simp only [bind_ok] at h
  obtain ⟨dynToken, c₁, word, bounds, c₂, run, h⟩ := h
  split at h
  · rename_i anyTrait
    obtain ⟨eq, rfl⟩ := pure_ok.1 h
    obtain ⟨rfl, eq'⟩ := Node.traitObject.inj eq
    obtain rfl := ofSeparated_last eq'
    obtain ⟨-, -, rfl⟩ | ⟨s, ⟨⟩, -⟩ := keyword?_ok word
    have first : ∀ {b c'}, bound g c = .ok b c' → isTrait b = false := by
      intro b c' h
      unfold bound at h
      simp only [↓look_ite_ok, bind_ok, pure_ok, lifetime, Bool.true_eq_false, false_and,
        or_false] at h
      obtain ⟨-, l, _, -, rfl, -⟩ := h
      rfl
    simp only [Separated.toList, List.any_cons, List.any_nil, Bool.or_false] at anyTrait
    unfold objectBounds at run
    split at run
    · obtain ⟨v, c₃, start, rest⟩ := list1_ok run
      have same := listFrom_first rest
      cases same
      rw [first start] at anyTrait
      contradiction
    · obtain ⟨v, start, eq⟩ := map_ok.1 run
      cases eq
      rw [first start] at anyTrait
      contradiction
  · simp [fail_ok] at h

omit hg in
/-- The parsers that return a trait object. -/
theorem type_object {plus : Bool} {dynToken : Option Token} {bounds : Node (.list .bound)}
    (h : type g plus c = .ok (.traitObject dynToken bounds) c') :
    parenthesized g plus c = .ok (.traitObject dynToken bounds) c' ∨
      ∃ binder c₁, pathLike g binder plus c₁ = .ok (.traitObject dynToken bounds) c' ∨
        (startsLifetime c₁.rest = true ∧
          traitObject g plus c₁ = .ok (.traitObject dynToken bounds) c') := by
  unfold type at h
  simp only [↓look_ite_ok, bind_ok] at h
  obtain ⟨-, h⟩ | ⟨-, binder, c₁, run, h⟩ := h
  · simp [groupType, map_ok] at h
  unfold typeAfter at h
  simp only [↓look_ite_ok, failNoneOf_ok] at h
  obtain ⟨paren, h⟩ | ⟨-, ⟨-, h⟩ | ⟨-, ⟨-, h⟩ | ⟨-, ⟨-, h⟩ | ⟨-, ⟨-, h⟩ | ⟨-, ⟨-, h⟩ | ⟨-, ⟨-, h⟩ |
    ⟨-, ⟨-, h⟩ | ⟨-, ⟨-, h⟩ | ⟨-, ⟨lifetime, h⟩ | ⟨-, ⟨⟩⟩⟩⟩⟩⟩⟩⟩⟩⟩⟩ := h
  · cases binder with
    | none =>
      obtain ⟨rfl, -⟩ := typeBinder?_ok run
      exact .inl h
    | some binder =>
      obtain ⟨t, us, eq, -⟩ := afterBinder_word (typeBinder?_ok run).2
      rw [eq] at paren
      cases paren
  · unfold bareFnAfter at h
    simp [↓look_ite_ok, bind_ok, map_ok] at h
  · exact .inr ⟨binder, c₁, .inl h⟩
  · unfold arrayOrSlice at h
    simp only [bind_ok] at h
    obtain ⟨⟨bracket, elem, length⟩, _, -, h⟩ := h
    cases length <;> cases (pure_ok.1 h).1
  · unfold pointer at h
    simp [↓look_ite_ok, bind_ok, map_ok, failNoneOf_ok] at h
  · simp [reference, bind_ok, map_ok] at h
  · unfold never at h
    simp [↓look_ite_ok, map_ok, fail_ok] at h
  · simp [implTrait, bind_ok, map_ok] at h
  · simp [infer, map_ok] at h
  · exact .inr ⟨binder, c₁, .inr ⟨lifetime, h⟩⟩

omit hg in
/-- A type that is a lone bound: that of a trait, in parentheses only with a modifier. -/
theorem type_lone {plus : Bool} {b : Bound}
    (h : type g plus c = .ok (.traitObject none (.last b)) c') :
    (∃ modifier binder p, b = .traitBound none modifier binder p) ∨
      ∃ us o e binder query p c₁, c.rest = .group .paren us o e :: c'.rest ∧
        startsPunct "?" us = true ∧ c₁.rest = [] ∧
        traitBound g (Cursor.ofTrees us e) = .ok (.traitBound none (some query) binder p) c₁ ∧
        b = .traitBound (some ⟨.paren, o⟩) (some query) binder p := by
  obtain h | ⟨binder, c₁, h | ⟨lifetime, h⟩⟩ := type_object h
  · exact .inr (parenthesized_lone h)
  · obtain ⟨binder, p, rfl⟩ := pathLike_lone h
    exact .inl ⟨none, binder, p, rfl⟩
  · exact absurd h (traitObject_lone lifetime)

/-! ### One level -/

/-- If the parsers for nested syntax take what they return, so do those one level above. -/
theorem above_faithful : (Grammar.above g).Faithful where
  type := type_reads hg
  bound := bound_reads hg
  expr := expr_reads hg
  typeFront h b mem := type_front h b (List.mem_append_left ['?'] mem)
  exprFront := expr_front
  lone h := by
    obtain lone | ⟨us, o, e, binder, query, p, c₁, eq, starts, done, run, rfl⟩ := type_lone h
    · exact .inl lone
    · obtain ⟨reads, modifier, _, _, same, text⟩ := traitBound_reads hg run
      cases same
      exact .inr ⟨us, o, e, query, binder, p, c₁, eq, rfl, text query rfl, done, reads⟩

end

/-! ## All depths -/

theorem ofDepth_faithful (depth : Nat) : (Grammar.ofDepth depth).Faithful := by
  induction depth with
  | zero =>
    have type : ∀ {plus t c c'}, (Grammar.ofDepth 0).type plus c = .ok t c' → False := fail_ok.1
    have bound : ∀ {b c c'}, (Grammar.ofDepth 0).bound c = .ok b c' → False := fail_ok.1
    have expr : ∀ {power e c c'}, (Grammar.ofDepth 0).expr power c = .ok e c' → False := fail_ok.1
    exact ⟨fun h => (type h).elim, fun h => (bound h).elim, fun h => (expr h).elim,
      fun h => (type h).elim, fun h => (expr h).elim, fun h => (type h).elim⟩
  | succ depth ih => exact above_faithful ih

end Parse

/-- A type takes the trees from which it is read. -/
theorem parseType_reads {plus : Bool} {t : Ty} {c c' : Cursor} (h : parseType plus c = .ok t c') :
    Reads c t.layout.chunks c' :=
  Parse.type_reads (Parse.ofDepth_faithful _) h

end TypeGrammar
