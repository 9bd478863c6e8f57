import TypeGrammar.Proofs.Reading

/-!
# What the parsers of paths take

The parsers of paths and generic arguments take what they return, if the parsers for nested syntax
do. That is collected in `Grammar.Faithful`, together with the few facts about the front of nested
syntax that tell an operator before it from a longer one.
-/

namespace TypeGrammar

open TokenTree

/-- Parsers for nested syntax that take what they return. No type or expression starts with `=` or
`>`, and a type that is a lone bound is that of a trait, which stands in parentheses only if it has
a modifier. -/
structure Grammar.Faithful (g : Grammar) : Prop where
  type : ∀ {plus t c c'}, g.type plus c = .ok t c' → Reads c t.layout.chunks c'
  bound : ∀ {b c c'}, g.bound c = .ok b c' → Reads c b.layout.chunks c'
  expr : ∀ {power e c c'}, g.expr power c = .ok e c' → Reads c e.layout.chunks c'
  typeFront : ∀ {plus t c c'}, g.type plus c = .ok t c' →
    ∀ b ∈ ['=', '>'], startsChars [b] c.rest = false
  exprFront : ∀ {power e c c'}, g.expr power c = .ok e c' →
    ∀ b ∈ ['=', '>'], startsChars [b] c.rest = false
  lone : ∀ {plus b c c'}, g.type plus c = .ok (.traitObject none (.last b)) c' →
    (∃ modifier binder p, b = .traitBound none modifier binder p) ∨
      ∃ us o e query binder p c₁, c.rest = .group .paren us o e :: c'.rest ∧
        b = .traitBound (some ⟨.paren, o⟩) (some query) binder p ∧ query.text = "?" ∧
        c₁.rest = [] ∧
        Reads (Cursor.ofTrees us e) (Node.traitBound none (some query) binder p).layout.chunks c₁

namespace Parse

open TypeGrammar.Parser

variable {g : Grammar} {c c' : Cursor}

/-- What is nested in a group and read to its end. -/
theorem inGroup_reads {α : Type} {p : Parser α} {f : α → List Chunk} {d : Delimiter} {delim : Delim}
    {a : α} (value : ∀ {a c c'}, p c = .ok a c' → Reads c (f a) c')
    (h : inGroup d p c = .ok (delim, a) c') : Reads c [.group delim (f a)] c' := by
  obtain ⟨us, o, e, c₁, eq, rfl, run, done⟩ := inGroup_ok h
  exact .group eq (value run) done

/-- The front of a list is that of its first value, or stops the list. -/
theorem list_front {α : Type} {rule : ListRule} {item : Parser α} {p : Separated α} {b : Char}
    (stops : rule.again c.rest = false → startsChars [b] c.rest = false)
    (value : ∀ {a c'}, item c = .ok a c' → startsChars [b] c.rest = false)
    (h : list rule item c = .ok p c') : startsChars [b] c.rest = false := by
  obtain ⟨-, again, -⟩ | ⟨-, run⟩ := list_ok h
  · exact stops again
  · obtain ⟨v, c₁, first, -⟩ := list1_ok run
    exact value first

theorem list_reads {α : Type} {rule : ListRule} {item : Parser α} {f : α → List Chunk}
    {p : Separated α} (sign : rule.separator ∈ signs) (plain : extensions false rule.separator = [])
    (value : ∀ {a c c'}, item c = .ok a c' → Reads c (f a) c')
    (h : list rule item c = .ok p c') : Reads c (p.chunks f) c' :=
  Reads.composes.list (fun sep => (Takes.sign sign sep plain).reads) value h

theorem list1_reads {α : Type} {rule : ListRule} {item : Parser α} {f : α → List Chunk}
    {p : Separated α} (sign : rule.separator ∈ signs) (plain : extensions false rule.separator = [])
    (value : ∀ {a c c'}, item c = .ok a c' → Reads c (f a) c')
    (h : list1 rule item c = .ok p c') : Reads c (p.chunks f) c' :=
  Reads.composes.list1 (fun sep => (Takes.sign sign sep plain).reads) value h

/-- A list that goes on after every separator ends in a value. -/
theorem listFrom_ends {α : Type} {rule : ListRule} {item : Parser α} {limit : Nat} {v : α}
    {p : Separated α} (always : ∀ ts, rule.again ts = true)
    (h : listFrom rule item limit v c = .ok p c') : p.acceptsValue = false := by
  induction limit generalizing v c p with
  | zero => simp [listFrom, fail_ok] at h
  | succ limit ih =>
    obtain ⟨n, eq, ⟨-, rfl, -⟩ | ⟨s, c₁, -, -, ⟨again, -⟩ | ⟨w, c₂, q, -, -, rest, rfl⟩⟩⟩ :=
      listFrom_ok h
    · rfl
    · simp [always] at again
    · cases eq
      rw [Separated.acceptsValue]
      exact ih rest

theorem list1_ends {α : Type} {rule : ListRule} {item : Parser α} {p : Separated α}
    (always : ∀ ts, rule.again ts = true) (h : list1 rule item c = .ok p c') :
    p.acceptsValue = false := by
  obtain ⟨v, c₁, -, rest⟩ := list1_ok h
  exact listFrom_ends always rest

/-- A list starts with the value that was read first. -/
theorem listFrom_first {α : Type} {rule : ListRule} {item : Parser α} {limit : Nat} {v : α}
    {p : Separated α} (h : listFrom rule item limit v c = .ok p c') : p.first? = some v := by
  obtain ⟨n, -, ⟨-, rfl, -⟩ | ⟨s, c₁, -, -, ⟨-, rfl, -⟩ | ⟨w, c₂, q, -, -, -, rfl⟩⟩⟩ :=
    listFrom_ok h <;> rfl

variable (hg : g.Faithful)
include hg

theorem output_reads {plus : Bool} {o : Node .output} (h : output g plus c = .ok o c') :
    Reads c o.layout.chunks c' := by
  unfold output at h
  simp only [↓look_ite_ok, bind_ok, pure_ok] at h
  obtain ⟨-, mark, c₁, arrow, t, _, type, rfl, rfl⟩ | ⟨-, rfl, rfl⟩ := h
  · simp only [Node.layout, ChunkLayout.chunks_whole]
    exact (Takes.sign (by decide) arrow rfl).reads.append (hg.type type)
  · exact .refl c

theorem types_reads {plus : Bool} {p : Separated Ty}
    (h : list (filling ",") (g.type plus) c = .ok p c') :
    Reads c (p.chunks fun t => t.layout.chunks) c' :=
  list_reads (by decide) rfl hg.type h

theorem parenthesizedArgs_reads {a : Node .arguments} (h : parenthesizedArgs g c = .ok a c') :
    Reads c a.layout.chunks c' := by
  simp only [parenthesizedArgs, bind_ok, pure_ok] at h
  obtain ⟨⟨paren, inputs⟩, c₁, group, o, _, out, rfl, rfl⟩ := h
  simp only [Node.layout, ChunkLayout.chunks_whole, Node.chunks_ofSeparated]
  exact (inGroup_reads (types_reads hg) group).append (output_reads hg out)

theorem argument_reads {a : Node .argument} (h : argument g c = .ok a c') :
    Reads c a.layout.chunks c' := by
  unfold argument at h
  simp only [↓look_ite_ok, bind_ok, pure_ok] at h
  obtain ⟨-, l, _, run, rfl, rfl⟩ | ⟨-, ⟨-, ident, c₁, name, eq, c₂, mark, t, _, type, rfl, rfl⟩ |
    ⟨-, ⟨colonAhead, ident, c₁, name, colon, c₂, mark, bounds, _, run, rfl, rfl⟩ |
    ⟨-, ⟨-, t, _, run, rfl, rfl⟩ | ⟨-, ⟨-, ⟨brace, tokens⟩, _, run, rfl, rfl⟩ |
    ⟨-, t, _, run, rfl, rfl⟩⟩⟩⟩⟩ := h <;>
    simp only [Node.layout, ChunkLayout.chunks_whole, Node.chunks_ofSeparated]
  · exact (lifetime_takes run).reads
  · exact (Takes.identifier name).reads.append
      ((Takes.sign (by decide) mark rfl).reads.append (hg.type type))
  · refine (Takes.identifier name).reads.append (.append
      (Takes.mark false (by decide) mark ?_).reads (list_reads (by decide) rfl hg.bound run))
    intro b mem
    obtain rfl : b = ':' := by simpa [extensions] using mem
    obtain ⟨eq, -⟩ := identifier_ok name
    simp only [eq, List.drop_succ_cons, List.drop_zero, Bool.and_eq_true,
      Bool.not_eq_true'] at colonAhead
    exact colonAhead.2
  · exact (Takes.literal run).reads
  · obtain ⟨o, e, eq, rfl⟩ := rawGroup_ok run
    exact (Takes.raw eq).reads
  · exact hg.type run

/-- No generic argument starts with `=`. -/
theorem argument_front {a : Node .argument} (h : argument g c = .ok a c') :
    startsChars ['='] c.rest = false := by
  unfold argument at h
  simp only [↓look_ite_ok, bind_ok, pure_ok] at h
  cases on : startsChars ['='] c.rest with
  | false => rfl
  | true =>
    obtain ⟨t, us, eq, kind, text⟩ := startsChars_one.1 on
    simp [eq, startsLifetime, startsIdentifier, startsLiteral, startsKind, token?, kind,
      startsGroup, TokenKind.isLiteral] at h
    obtain ⟨t, run, -⟩ := h
    rw [hg.typeFront run _ (by decide)] at on
    contradiction

/-- No generic argument starts with `=`, so a `<` before it is no `<=`. -/
theorem angle_takes {lt : Token} {c₀ : Cursor} {args : Separated (Node .argument)}
    (opening : punct "<" c₀ = .ok lt c) (run : list beforeAngle (argument g) c = .ok args c') :
    Takes c₀ [.mark lt false] c := by
  refine .markBefore false (by decide) opening fun b mem => ?_
  obtain rfl : b = '=' := by simpa [extensions] using mem
  refine list_front (fun again => ?_) (argument_front hg) run
  exact startsChars_other (by simpa [beforeAngle] using again) rfl (by decide)

theorem angleArgs_reads {a : Node .arguments} (h : angleArgs g c = .ok a c') :
    Reads c a.layout.chunks c' := by
  simp only [angleArgs, bind_ok, pure_ok] at h
  obtain ⟨colons, c₁, colon, lt, c₂, opening, args, c₃, run, gt, _, closing, rfl, rfl⟩ := h
  simp only [Node.layout, ChunkLayout.chunks_whole, Node.chunks_ofSeparated]
  exact (Takes.punct? (by decide) colon rfl).reads.append (.append
    (angle_takes hg opening run).reads (.append
    (list_reads (by decide) rfl (argument_reads hg) run)
    (Takes.sign (by decide) closing rfl).reads))

theorem segment_reads {inExpr : Bool} {s : Segment} (h : segment g inExpr c = .ok s c') :
    Reads c s.layout.chunks c' := by
  unfold segment at h
  simp only [↓look_ite_ok, bind_ok, pure_ok] at h
  obtain ⟨-, ident, _, name, rfl, rfl⟩ |
    ⟨-, ⟨-, ident, c₁, name, rest⟩ | ⟨-, ident, c₁, name, rest⟩⟩ := h
  · simp only [Node.layout, ChunkLayout.chunks_whole]
    exact (Takes.anyWord name).reads
  · obtain ⟨-, a, _, run, rfl, rfl⟩ | ⟨-, rfl, rfl⟩ := rest <;>
      simp only [Node.layout, ChunkLayout.chunks_whole]
    · exact (Takes.anyWord name).reads.append (angleArgs_reads hg run)
    · exact (Takes.anyWord name).reads
  · obtain ⟨-, a, _, run, rfl, rfl⟩ | ⟨-, rfl, rfl⟩ := rest <;>
      simp only [Node.layout, ChunkLayout.chunks_whole]
    · exact (Takes.identifier name).reads.append (angleArgs_reads hg run)
    · exact (Takes.identifier name).reads

omit hg in
/-- A segment starts with its name. -/
theorem segment_front {inExpr : Bool} {s : Segment} (h : segment g inExpr c = .ok s c') :
    ∃ ident a us, s = .segment ident a ∧ c.rest = .token ident :: us ∧ ident.IsWord ident.text ∧
      (ident.kind = .identifier ∨ ident.text ∈ pathRoots) := by
  unfold segment at h
  simp only [↓look_ite_ok, bind_ok, pure_ok] at h
  obtain ⟨root, ident, _, name, rfl, rfl⟩ | ⟨-, ⟨root, ident, c₁, name, rest⟩ |
    ⟨-, ident, c₁, name, rest⟩⟩ := h
  · obtain ⟨eq, -⟩ := anyWord_ok name
    obtain ⟨w, mem, starts⟩ := List.any_eq_true.1 root
    rw [eq] at starts
    have word := Token.IsWord.of_starts starts
    have roots : ∀ w ∈ bareRoots, w ∈ pathRoots := by decide
    exact ⟨ident, _, _, rfl, eq, ⟨word.1, rfl⟩, .inr (word.2 ▸ roots w mem)⟩
  · obtain ⟨eq, -⟩ := anyWord_ok name
    rw [eq] at root
    have word := Token.IsWord.of_starts root
    have known : ident.text ∈ pathRoots := by
      rw [word.2]
      decide
    obtain ⟨-, a, _, -, rfl, -⟩ | ⟨-, rfl, -⟩ := rest <;>
      exact ⟨ident, _, _, rfl, eq, ⟨word.1, rfl⟩, .inr known⟩
  · obtain ⟨eq, kind⟩ := identifier_ok name
    obtain ⟨-, a, _, -, rfl, -⟩ | ⟨-, rfl, -⟩ := rest <;>
      exact ⟨ident, _, _, rfl, eq, ⟨.inr kind, rfl⟩, .inl kind⟩

theorem segments_reads {inExpr : Bool} {p : Separated Segment}
    (h : list1 (joined "::") (segment g inExpr) c = .ok p c') :
    Reads c (p.chunks fun s => s.layout.chunks) c' :=
  list1_reads (by decide) rfl (segment_reads hg) h

omit hg in
theorem segments_ends {inExpr : Bool} {p : Separated Segment}
    (h : list1 (joined "::") (segment g inExpr) c = .ok p c') : p.acceptsValue = false :=
  list1_ends (fun _ => rfl) h

/-- A path is a list of segments that ends in one. -/
theorem path_reads {inExpr : Bool} {p : Path} (h : path g inExpr c = .ok p c') :
    Reads c p.layout.chunks c' ∧
      ∃ leading s, p = .path leading (.ofSeparated s) ∧ s.acceptsValue = false := by
  simp only [path, bind_ok, pure_ok] at h
  obtain ⟨leading, c₁, colons, s, _, run, rfl, rfl⟩ := h
  refine ⟨?_, leading, s, rfl, segments_ends run⟩
  rw [Node.chunks_path]
  exact (Takes.punct? (by decide) colons rfl).reads.append (segments_reads hg run)

theorem pathWithInputs_reads {p : Path} (h : pathWithInputs g c = .ok p c') :
    Reads c p.layout.chunks c' := by
  unfold pathWithInputs at h
  simp only [↓look_ite_ok, bind_ok, pure_ok] at h
  obtain ⟨p, c₁, run, h⟩ := h
  obtain ⟨reads, leading, s, rfl, ends⟩ := path_reads hg run
  obtain ⟨plain, a, _, inputs, rfl, rfl⟩ | ⟨-, rfl, rfl⟩ := h
  · rw [Bool.and_eq_true] at plain
    rw [Node.chunks_withFinalArguments rfl ends plain.1]
    exact reads.append (parenthesizedArgs_reads hg inputs)
  · exact reads

/-- The three forms of a path with its self type. -/
inductive QualifiedForm : Node .selfType → Path → Separated Segment → Prop
  | plain (leading : Option Token) (s : Separated Segment) :
      QualifiedForm .unqualified (.path leading (.ofSeparated s)) s
  | self (lt : Token) (type : Ty) (gt colons : Token) (s : Separated Segment) :
      QualifiedForm (.qualified lt type 0 none gt) (.path (some colons) (.ofSeparated s)) s
  | trait (lt : Token) (type : Ty) (asToken gt : Token) (leading : Option Token)
      (trait : Separated Segment) (colons : Token) (s : Separated Segment) :
      trait.acceptsValue = false →
      QualifiedForm (.qualified lt type trait.toList.length (some asToken) gt)
        (.path leading (.ofSeparated (trait.join colons s))) s

theorem qualified_front {lt : Token} {t : Ty} {c₁ c₂ : Cursor} (opening : punct "<" c = .ok lt c₁)
    (inner : g.type true c₁ = .ok t c₂) : Takes c [.mark lt false] c₁ :=
  .markBefore false (by decide) opening fun b mem => by
    obtain rfl : b = '=' := by simpa [extensions] using mem
    exact hg.typeFront inner _ (by decide)

theorem qualifiedPath_reads {inExpr : Bool} {self : Node .selfType} {p : Path}
    (h : qualifiedPath g inExpr c = .ok (self, p) c') :
    Reads c (Node.pathType self p).layout.chunks c' ∧
      ∃ s, QualifiedForm self p s ∧ s.acceptsValue = false := by
  unfold qualifiedPath at h
  simp only [↓look_ite_ok, bind_ok, pure_ok] at h
  obtain ⟨-, lt, c₁, opening, type, c₂, inner, asToken, c₃, word, h⟩ | ⟨-, p', _, run, eq, rfl⟩ := h
  · have front := qualified_front hg opening inner
    obtain ⟨rfl, -, rfl⟩ | ⟨as, rfl, as'⟩ := keyword?_ok word
    · simp only [Option.isSome_none, Bool.false_eq_true, if_false, bind_ok, pure_ok] at h
      obtain ⟨_, _, ⟨rfl, rfl⟩, gt, c₄, closing, colons, c₅, sep, s, _, run, h⟩ := h
      cases h
      refine ⟨?_, s, .self .., segments_ends run⟩
      rw [Node.chunks_qualified]
      exact front.reads.append ((hg.type inner).append (.append
        (Takes.sign (by decide) closing rfl).reads (.append
        (Takes.sign (by decide) sep rfl).reads (segments_reads hg run))))
    · simp only [Option.isSome_some, if_true, bind_ok, map_ok] at h
      obtain ⟨_, c₄, ⟨p', run', rfl⟩, gt, c₅, closing, colons, c₆, sep, s, _, run, h⟩ := h
      obtain ⟨reads, leading, t, rfl, ends⟩ := path_reads hg run'
      simp only [Node.segments, joinPath, Node.separated_ofSeparated, pure_ok] at h
      obtain ⟨eq, rfl⟩ := h
      cases eq
      refine ⟨?_, s, .trait _ _ _ _ _ _ _ _ ends, segments_ends run⟩
      rw [Node.chunks_qualified_trait _ _ _ _ _ _ ends (segments_ends run)]
      rw [Node.chunks_path] at reads
      rw [← List.append_assoc (markChunks leading)]
      exact front.reads.append ((hg.type inner).append (.append (Takes.keyword as').reads
        (reads.append (.append (Takes.sign (by decide) closing rfl).reads (.append
        (Takes.sign (by decide) sep rfl).reads (segments_reads hg run))))))
  · cases eq
    obtain ⟨reads, leading, s, rfl, ends⟩ := path_reads hg run
    exact ⟨by rwa [Node.chunks_unqualified], s, .plain leading s, ends⟩

omit hg in
/-- Arguments at the end of a path come last among its chunks. -/
theorem QualifiedForm.withFinalArguments {self : Node .selfType} {p : Path}
    {s : Separated Segment} (form : QualifiedForm self p s) (ends : s.acceptsValue = false)
    (plain : p.endsPlain = true) (a : Node .arguments) :
    QualifiedForm self (p.withFinalArguments a) (s.mapLast (Node.withArguments a)) ∧
      (Node.pathType self (p.withFinalArguments a)).layout.chunks =
        (Node.pathType self p).layout.chunks ++ a.layout.chunks := by
  cases form with
  | plain leading =>
    refine ⟨?_, by rw [Node.chunks_unqualified, Node.chunks_unqualified,
      Node.chunks_withFinalArguments rfl ends plain]⟩
    simp only [Node.withFinalArguments, Node.separated_ofSeparated]
    exact .plain ..
  | self lt type gt colons =>
    simp only [Node.endsPlain, Node.segments, Node.separated_ofSeparated] at plain
    simp only [Node.withFinalArguments, Node.separated_ofSeparated]
    refine ⟨.self .., ?_⟩
    rw [Node.chunks_qualified, Node.chunks_qualified, Node.chunks_mapLast ends plain]
    simp only [List.append_assoc, List.cons_append]
  | trait lt type asToken gt leading t colons _ ends₀ =>
    simp only [Node.endsPlain, Node.segments, Node.separated_ofSeparated,
      Separated.last?_join colons ends] at plain
    simp only [Node.withFinalArguments, Node.separated_ofSeparated,
      Separated.mapLast_join _ colons ends]
    refine ⟨.trait _ _ _ _ _ _ _ _ ends₀, ?_⟩
    rw [Node.chunks_qualified_trait _ _ _ _ _ _ ends₀ ends,
      Node.chunks_qualified_trait _ _ _ _ _ _ ends₀ (by rw [Separated.acceptsValue_mapLast, ends]),
      Node.chunks_mapLast ends plain]
    simp only [List.append_assoc, List.cons_append]

theorem qualifiedPathWithInputs_reads {self : Node .selfType} {p : Path}
    (h : qualifiedPathWithInputs g c = .ok (self, p) c') :
    Reads c (Node.pathType self p).layout.chunks c' := by
  unfold qualifiedPathWithInputs at h
  simp only [↓look_ite_ok, bind_ok, pure_ok] at h
  obtain ⟨⟨self', p'⟩, c₁, run, h⟩ := h
  obtain ⟨reads, s, form, ends⟩ := qualifiedPath_reads hg run
  obtain ⟨plain, a, _, inputs, eq, rfl⟩ | ⟨-, eq, rfl⟩ := h <;> cases eq
  · rw [Bool.and_eq_true] at plain
    rw [(form.withFinalArguments ends plain.1 a).2]
    exact reads.append (parenthesizedArgs_reads hg inputs)
  · exact reads

omit hg in
/-- The mark of a macro call and its body. -/
theorem call_takes {bang : Token} {delim : Delim} {tokens : List TokenTree} {c₁ : Cursor}
    (mark : punct "!" c = .ok bang c₁) (group : anyGroup c₁ = .ok (delim, tokens) c') :
    Takes c [.mark bang false, .raw delim tokens] c' := by
  obtain ⟨d, o, e, eq, rfl, -⟩ := anyGroup_ok group
  exact (Takes.markBefore false (by decide) mark (by simp [eq, startsChars])).append (Takes.raw eq)

omit hg in
theorem invocation_reads {p : Path} {m : Node .invocation} {c₀ : Cursor}
    (reads : Reads c₀ p.layout.chunks c) (h : invocation p c = .ok m c') :
    Reads c₀ m.layout.chunks c' := by
  simp only [invocation, bind_ok, pure_ok] at h
  obtain ⟨bang, c₁, mark, ⟨delim, tokens⟩, _, group, rfl, rfl⟩ := h
  simp only [Node.layout, ChunkLayout.chunks_whole]
  exact reads.append (call_takes mark group).reads

end Parse

end TypeGrammar
