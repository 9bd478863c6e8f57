import TypeGrammar.Proofs.RereadingLifetimes

/-!
# Paths that are read again

The parsers of paths and generic arguments read again what they have read, if the parsers for nested
syntax do. A parser that takes a token before it asks for nested syntax rereads one tree more than
those parsers.
-/

namespace TypeGrammar

open TokenTree

/-- What follows an expression is the same, as is the operator that is read there. -/
def Link.operand : Link := fun r r' =>
  SameAhead r r' ∧ Parse.binaryOperator? r = Parse.binaryOperator? r'

/-- Parsers for nested syntax that read again what the parsers of `g` have read. -/
structure Grammar.Rereads (v : View) (keep : Bool) (n : Nat) (g g' : Grammar) : Prop where
  type : ∀ {w plus t c c'}, g.type plus c = .ok t c' →
    TypeGrammar.Rereads v Alike w n (g'.type plus) (t.Again v keep) t.layout.chunks c'.rest
  bound : ∀ {w b c c'}, g.bound c = .ok b c' →
    TypeGrammar.Rereads v Alike w n g'.bound (b.Again v keep) b.layout.chunks c'.rest
  expr : ∀ {w power e c c'}, g.expr power c = .ok e c' →
    TypeGrammar.Rereads v Link.operand w n (g'.expr power) (e.Again v keep) e.layout.chunks c'.rest
  lone : ∀ {plus b c c'}, g.type plus c = .ok (.traitObject none (.last b)) c' →
    (∃ modifier binder p, b = .traitBound none modifier binder p) ∨
      ∃ paren query binder p, b = .traitBound (some paren) (some query) binder p ∧
        (∃ c₁ c₂, Parser.punct "?" c₁ = .ok query c₂) ∧
        ∀ w, TypeGrammar.Rereads v Alike w n (Parse.traitBound g')
          ((Node.traitBound none (some query) binder p).Again v keep)
          (Node.traitBound none (some query) binder p).layout.chunks []

theorem Grammar.Rereads.smaller {v : View} {keep : Bool} {n : Nat} {g g' : Grammar}
    (h : g.Rereads v keep (n + 1) g') : g.Rereads v keep n g' where
  type run := (h.type run).smaller
  bound run := (h.bound run).smaller
  expr run := (h.expr run).smaller
  lone run := (h.lone run).imp id fun ⟨paren, query, binder, p, eq, mark, again⟩ =>
    ⟨paren, query, binder, p, eq, mark, fun w => (again w).smaller⟩

theorem sameAhead_nil : SameAhead [] [] := by
  refine ⟨rfl, fun _ _ => rfl, nofun, ?_, ?_⟩ <;> simp [startsPunct, startsChars]

theorem alike_nil : Alike [] [] :=
  .inl sameAhead_nil

namespace Parse

open TypeGrammar.Parser

variable {v : View} {keep : Bool} {w n : Nat} {g g' : Grammar} {c c' : Cursor}

/-- What is nested in a group. -/
theorem inGroup_rereads {α : Type} {E E₀ : Link} {p p' : Parser α} {R : α → α → Prop}
    {f : α → List Chunk} {d : Delimiter} {delim : Delim} {a : α} {r : List TokenTree}
    (nil : E₀ [] [])
    (value : ∀ {w a c c'}, p c = .ok a c' → Rereads v E₀ w n p' (R a) (f a) c'.rest)
    (h : inGroup d p c = .ok (delim, a) c') :
    Rereads v E w (n + 1) (inGroup d p') (fun x => x.1.erase = delim.erase ∧ R a x.2)
      [.group delim (f a)] r := by
  obtain ⟨us, o, e, c₁, -, rfl, run, done⟩ := inGroup_ok h
  exact .group (k := ⟨d, o⟩) nil fun w => done ▸ value run

section

variable (proper : v.Proper) (hf : g.Faithful) (hg : g.Rereads v keep n g')
include proper hf hg

theorem types_items (plus : Bool) :
    Rereads.Items v Alike Alike n (filling ",") (g.type plus) (g'.type plus)
      (fun t => t.layout.chunks) (Node.seen (v.sight keep)) (Node.seen (v.sight false)) :=
  .ofReads proper steady_filling id (fun _ => id) hf.type hg.type

theorem output_rereads {plus : Bool} {o : Node .output} (h : output g plus c = .ok o c') :
    Rereads v Alike w (n + 1) (output g' plus) (o.Again v keep) o.layout.chunks c'.rest := by
  have asks := (output_reads hf h).asks proper (Alike.startsPunct · (.inl (by decide : "->" ∈ _)))
  unfold output at h
  simp only [↓look_ite_ok, bind_ok, pure_ok] at h
  obtain ⟨on, mark, c₁, arrow, t, _, type, rfl, rfl⟩ | ⟨off, rfl, rfl⟩ := h
  · simp only [Node.layout, ChunkLayout.chunks_whole] at asks ⊢
    exact .yes asks on (.mark arrow fun mark' same => (hg.type type).returning fun t' again => by
      simp only [Node.Again, Node.seen, same, again])
  · exact .no asks off (.pure rfl)

theorem parenthesizedArgs_rereads {a : Node .arguments} (h : parenthesizedArgs g c = .ok a c') :
    Rereads v Alike w (n + 1) (parenthesizedArgs g') (a.Again v keep) a.layout.chunks c'.rest := by
  simp only [parenthesizedArgs, bind_ok, pure_ok] at h
  obtain ⟨⟨paren, inputs⟩, c₁, group, o, _, out, rfl, rfl⟩ := h
  simp only [Node.layout, ChunkLayout.chunks_whole, Node.chunks_ofSeparated]
  refine .free (a := [_]) (inGroup_rereads alike_nil
    (fun run => ((types_items proper hf hg true).list run).2) group) ?_
  rintro ⟨paren', inputs'⟩ ⟨same, again⟩
  exact (output_rereads proper hf hg out).returning fun o' again' => by
    simp only [Node.Again, Node.seen, Node.seen_ofSeparated, same, again, again']

theorem argument_rereads {a : Node .argument} (h : argument g c = .ok a c') :
    Rereads v Alike w n (argument g') (a.Again v keep) a.layout.chunks c'.rest := by
  have reads := argument_reads hf h
  have lone := reads.asks proper Alike.startsLoneLifetime
  have binding := reads.asks proper Alike.startsBinding
  have constraint := reads.asks proper Alike.startsConstraint
  have literal := reads.asks proper (Alike.startsKind (p := TokenKind.isLiteral) · rfl rfl)
  have brace := reads.asks proper (Alike.startsGroup · .brace)
  unfold argument at h
  simp only [↓look_ite_ok, bind_ok, pure_ok] at h
  obtain ⟨on, l, _, run, rfl, rfl⟩ |
    ⟨off₁, ⟨on, ident, c₁, name, eq, c₂, mark, t, _, type, rfl, rfl⟩ |
    ⟨off₂, ⟨on, ident, c₁, name, colon, c₂, mark, bounds, _, run, rfl, rfl⟩ |
    ⟨off₃, ⟨on, t, _, run, rfl, rfl⟩ | ⟨off₄, ⟨on, ⟨delim, tokens⟩, _, run, rfl, rfl⟩ |
    ⟨off₅, t, _, run, rfl, rfl⟩⟩⟩⟩⟩ := h <;>
    simp only [Node.layout, ChunkLayout.chunks_whole, Node.chunks_ofSeparated]
      at lone binding constraint literal brace ⊢
  · exact .yes lone on ((lifetime_rereads run).returning fun l' same => by
      simp only [Node.Again, Node.seen, same])
  · refine .no lone off₁ (.yes binding on ?_)
    exact .free (a := [_]) (.token (takesToken_identifier name)) fun ident' same =>
      .free (a := [_]) (.punct mark) fun eq' same' =>
        (hg.type type).returning fun t' again => by
          simp only [Node.Again, Node.seen, same, same', again]
  · refine .no lone off₁ (.no binding off₂ (.yes constraint on ?_))
    have items : Rereads.Items v Alike Alike n boundsBeforeComma g.bound g'.bound _ _ _ :=
      .ofReads proper steady_boundsBeforeComma id (fun _ => id) hf.bound hg.bound
    exact .free (a := [_]) (.token (takesToken_identifier name)) fun ident' same =>
      .free (a := [_]) (.punct mark) fun colon' same' =>
        (items.list run).2.returning fun bounds' again => by
          simp only [Node.Again, Node.seen, Node.seen_ofSeparated, same, same', again]
  · refine .no lone off₁ (.no binding off₂ (.no constraint off₃ (.yes literal on ?_)))
    exact (Rereads.token (takesToken_literal run)).returning fun t' same => by
      simp only [Node.Again, Node.seen, same]
  · refine .no lone off₁ (.no binding off₂ (.no constraint off₃ (.no literal off₄
      (.yes brace on ?_))))
    obtain ⟨o, e, -, rfl⟩ := rawGroup_ok run
    refine .free (a := [_]) (b := []) (.raw (k := ⟨.brace, o⟩)) ?_
    rintro ⟨delim', tokens'⟩ ⟨same, raw⟩
    exact .pure (by simp only [Node.Again, Node.seen, View.sight_raw, same, raw])
  · refine .no lone off₁ (.no binding off₂ (.no constraint off₃ (.no literal off₄
      (.no brace off₅ ?_))))
    exact (hg.type run).returning fun t' again => by simp only [Node.Again, Node.seen, again]

theorem angleArgs_rereads {a : Node .arguments} (h : angleArgs g c = .ok a c') :
    Rereads v Alike w (n + 1) (angleArgs g') (a.Again v keep) a.layout.chunks c'.rest := by
  simp only [angleArgs, bind_ok, pure_ok] at h
  obtain ⟨colons, c₁, colon, lt, c₂, opening, args, c₃, run, gt, c', closing, rfl, rfl⟩ := h
  simp only [Node.layout, ChunkLayout.chunks_whole, Node.chunks_ofSeparated]
  have front {ps : List Chunk} : Carries v Alike Alike (.mark lt false :: ps) c₁.rest c'.rest :=
    (Carries.mark (by decide) (angle_takes hf opening run) (punct_text opening)).mono .inl id
  have items : Rereads.Items v Alike Alike n beforeAngle (argument g) (argument g') _ _ _ :=
    .ofReads proper steady_beforeAngle id (fun _ => id) (argument_reads hf)
      (argument_rereads proper hf hg)
  have closes : Carries v Alike Alike [.mark gt false] c₃.rest c'.rest :=
    (Takes.sign (by decide) closing rfl).reads.carries proper
  refine .optionalMark colon (front.mono (·.startsPunct (.inl (by decide))) id) fun colons' same =>
    .mark opening fun lt' same' => .bind closes (items.list run).2 fun args' again =>
      (Rereads.punct closing).returning fun gt' same'' => ?_
  simp only [Node.Again, Node.seen, Node.seen_ofSeparated, same, same', again, same'']

theorem segment_rereads {inExpr : Bool} {s : Segment} (h : segment g inExpr c = .ok s c') :
    Rereads v Alike w (n + 1) (segment g' inExpr) (s.Again v keep) s.layout.chunks c'.rest := by
  unfold segment at h
  simp only [↓look_ite_ok, bind_ok, pure_ok] at h
  -- the word at the front answers the questions before it
  have root {t : Token} {us : List TokenTree} {ps : List Chunk} (eq : c.rest = .token t :: us) :
      Carries v (.ask fun ts => bareRoots.any fun word => startsWord word ts) Alike
        (.word t :: ps) c.rest c'.rest :=
    (Carries.word eq).mono (fun same => by
      rw [Link.ask, funext fun word => startsWord_of_shape same word]) id
  have self {t : Token} {us : List TokenTree} {ps : List Chunk} (eq : c.rest = .token t :: us) :
      Carries v (.ask (startsWord "Self")) Alike (.word t :: ps) c.rest c'.rest :=
    (Carries.word eq).mono (fun same => startsWord_of_shape same _) id
  have arguments {ident : Token} {c₁ : Cursor} {p : Parser Token} (took : TakesToken p ident)
      (rest : (startsArguments inExpr c₁.rest = true ∧
          ∃ a c₂, angleArgs g c₁ = .ok a c₂ ∧ .segment ident a = s ∧ c₂ = c') ∨
        (startsArguments inExpr c₁.rest = false ∧ .segment ident .noArguments = s ∧ c₁ = c')) :
      Rereads v Alike w (n + 1) (p >>= fun ident => look (startsArguments inExpr) >>= fun b =>
        if b = true then angleArgs g' >>= fun a => pure (.segment ident a)
        else pure (.segment ident .noArguments)) (s.Again v keep) s.layout.chunks c'.rest := by
    obtain ⟨on, a, _, run, rfl, rfl⟩ | ⟨off, rfl, rfl⟩ := rest <;>
      simp only [Node.layout, ChunkLayout.chunks_whole]
    · exact .word took fun ident' same =>
        .yes ((angleArgs_reads hf run).asks proper (Alike.startsArguments · inExpr)) on
          ((angleArgs_rereads proper hf hg run).smaller.returning fun a' again => by
            simp only [Node.Again, Node.seen, same, again])
    · exact .word took fun ident' same =>
        .no ((Reads.refl c₁).asks proper (Alike.startsArguments · inExpr)) off
          (.pure (by simp only [Node.Again, Node.seen, same]))
  obtain ⟨on, ident, _, name, rfl, rfl⟩ | ⟨off, ⟨on, ident, c₁, name, rest⟩ |
    ⟨off', ident, c₁, name, rest⟩⟩ := h
  · obtain ⟨eq, -⟩ := anyWord_ok name
    simp only [Node.layout, ChunkLayout.chunks_whole]
    exact .yes (root eq) on
      ((Rereads.token (takesToken_anyWord name)).returning fun ident' same => by
        simp only [Node.Again, Node.seen, same])
  all_goals
    have chunks : ∃ more, s.layout.chunks = .word ident :: more := by
      obtain ⟨-, a, _, -, rfl, -⟩ | ⟨-, rfl, -⟩ := rest <;>
        exact ⟨_, by simp only [Node.layout, ChunkLayout.chunks_whole]; rfl⟩
    obtain ⟨more, chunks⟩ := chunks
  · obtain ⟨eq, -⟩ := anyWord_ok name
    have again := arguments (takesToken_anyWord name) rest
    rw [chunks] at again ⊢
    exact .no (root eq) off (.yes (self eq) on again)
  · obtain ⟨eq, -⟩ := identifier_ok name
    have again := arguments (takesToken_identifier name) rest
    rw [chunks] at again ⊢
    exact .no (root eq) off (.no (self eq) off' again)

theorem segments_items (inExpr : Bool) :
    Rereads.Items v Alike Alike (n + 1) (joined "::") (segment g inExpr) (segment g' inExpr)
      (fun s => s.layout.chunks) (Node.seen (v.sight keep)) (Node.seen (v.sight false)) :=
  .ofReads proper (steady_joined (by decide) rfl (.inl (by decide))) id (fun _ => id)
    (segment_reads hf) (segment_rereads proper hf hg)

theorem path_rereads {inExpr : Bool} {p : Path} (h : path g inExpr c = .ok p c') :
    Rereads v Alike w (n + 1) (path g' inExpr) (p.Again v keep) p.layout.chunks c'.rest := by
  simp only [path, bind_ok, pure_ok] at h
  obtain ⟨leading, c₁, colons, s, _, run, rfl, rfl⟩ := h
  rw [Node.chunks_path]
  have items := segments_items proper hf hg inExpr
  have front := (items.list1 (w := w) run).1
  exact .optionalMark colons (front.mono (·.startsPunct (.inl (by decide))) id) fun leading' same =>
    (items.list1 run).2.returning fun s' again => by
      simp only [Node.Again, Node.seen, Node.seen_ofSeparated, same, again]

theorem pathWithInputs_rereads {p : Path} (h : pathWithInputs g c = .ok p c') :
    Rereads v Alike w (n + 1) (pathWithInputs g') (p.Again v keep) p.layout.chunks c'.rest := by
  unfold pathWithInputs at h
  simp only [↓look_ite_ok, bind_ok, pure_ok] at h
  obtain ⟨p, c₁, run, h⟩ := h
  have paren : ∀ {r r'}, Alike r r' → (p.endsPlain && startsGroup .paren r) =
      (p.endsPlain && startsGroup .paren r') := fun link => by rw [link.startsGroup]
  obtain ⟨-, leading, s, form, ends⟩ := path_reads hf run
  obtain ⟨on, a, _, inputs, rfl, rfl⟩ | ⟨off, rfl, rfl⟩ := h
  · have reads := parenthesizedArgs_reads hf inputs
    have plain := on
    rw [Bool.and_eq_true] at plain
    rw [Node.chunks_withFinalArguments form ends plain.1]
    refine .bind (reads.carries proper) (path_rereads proper hf hg run) fun p' again => ?_
    rw [again.endsPlain]
    exact .yes (reads.asks proper paren) on
      ((parenthesizedArgs_rereads proper hf hg inputs).returning fun a' again' =>
        again.withFinalArguments again')
  · rw [← List.append_nil p.layout.chunks]
    refine .bind .nil (path_rereads proper hf hg run) fun p' again => ?_
    rw [again.endsPlain]
    exact .no ((Reads.refl c₁).asks proper paren) off (.pure again)

theorem qualifiedPath_rereads {inExpr : Bool} {self : Node .selfType} {p : Path}
    (h : qualifiedPath g inExpr c = .ok (self, p) c') :
    Rereads v Alike w (n + 1) (qualifiedPath g' inExpr)
      (fun x => self.Again v keep x.1 ∧ p.Again v keep x.2)
      (Node.pathType self p).layout.chunks c'.rest := by
  have starts := (qualifiedPath_reads hf h).1.asks proper
    (Alike.startsPunct · (.inr rfl : "<" ∈ longSigns ∨ _))
  unfold qualifiedPath at h
  simp only [↓look_ite_ok, bind_ok, pure_ok] at h
  obtain ⟨on, lt, c₁, opening, type, c₂, inner, asToken, c₃, word, h⟩ |
    ⟨off, p', _, run, eq, rfl⟩ := h
  · obtain ⟨rfl, off, rfl⟩ | ⟨as, rfl, as'⟩ := keyword?_ok word
    · simp only [Option.isSome_none, Bool.false_eq_true, if_false, bind_ok, pure_ok] at h
      obtain ⟨_, _, ⟨rfl, rfl⟩, gt, c₄, closing, colons, c₅, sep, s, _, run, h⟩ := h
      cases h
      have ends : Reads c₂ (.mark gt false :: (markChunks (some colons) ++
          s.chunks fun n => n.layout.chunks)) c' :=
        (Takes.sign (by decide) closing rfl).reads.append (.append
          (Takes.sign (by decide) sep rfl).reads (segments_reads hf run))
      rw [Node.chunks_qualified] at starts ⊢
      refine .yes starts on (.mark opening fun lt' same₁ =>
        .bind (ends.carries proper) (hg.type inner) fun type' again₁ => .withoutWord
        ((Carries.markFront (Takes.sign (by decide) closing rfl)).mono
          (startsWord_of_shape · _) id) off (.free (a := []) (.pure rfl) ?_))
      rintro _ rfl
      refine .free (a := [_]) (.punct closing) fun gt' same₂ => .free (a := [_]) (.punct sep)
        fun colons' same₃ => ((segments_items proper hf hg inExpr).list1 run).2.smaller.returning
        fun s' again₂ => ⟨?_, ?_⟩
      · simp only [Node.Again, Node.seen, same₁, again₁, same₂, Option.map_none]
      · simp only [Node.Again, Node.seen, Node.seen_ofSeparated, same₃, again₂, Option.map_some]
    · simp only [Option.isSome_some, if_true, bind_ok, map_ok] at h
      obtain ⟨_, c₄, ⟨p', run', rfl⟩, gt, c₅, closing, colons, c₆, sep, s, c₇, run, h⟩ := h
      obtain ⟨reads, leading, t, rfl, ends⟩ := path_reads hf run'
      have path := path_rereads (w := w - 1) proper hf hg run'
      simp only [Node.segments, joinPath, Node.separated_ofSeparated, pure_ok] at h
      obtain ⟨eq, rfl⟩ := h
      cases eq
      rw [Node.chunks_qualified_trait _ _ _ _ _ _ ends (segments_ends run)] at starts ⊢
      rw [Node.chunks_path] at reads path
      have tail : Reads c₄ (.mark gt false :: .mark colons false ::
          s.chunks fun n => n.layout.chunks) c₇ :=
        (Takes.sign (by decide) closing rfl).reads.append (.append
          (Takes.sign (by decide) sep rfl).reads (segments_reads hf run))
      have rest := (Takes.keyword as').reads.append (reads.append tail)
      rw [← List.append_assoc (markChunks leading)] at starts ⊢
      refine .yes starts on (.mark opening fun lt' same₁ =>
        .bind (rest.carries proper) (hg.type inner) fun type' again₁ =>
        .withWord as' fun as'' same₂ => .bind (tail.carries proper)
        (path.smaller.returning (S := fun x => ∃ p', x = some p' ∧ Node.Again v keep _ p')
          fun p' again => ⟨p', rfl, again⟩) ?_)
      rintro _ ⟨trait', rfl, again₂⟩
      refine .free (a := [_]) (.punct closing) fun gt' same₃ => .free (a := [_]) (.punct sep)
        fun colons' same₄ => ((segments_items proper hf hg inExpr).list1 run).2.smaller.returning
        fun s' again₃ => ⟨?_, ?_⟩
      · have length : trait'.segments.toList.length = t.toList.length :=
          again₂.length.trans (by simp only [Node.segments, Node.separated_ofSeparated])
        replace same₂ : as''.erase = as.erase := same₂
        simp only [Node.Again, Node.seen, same₁, again₁, same₂, same₃, length, Option.map_some]
      · have joined : Node.path leading (.ofSeparated (t.join colons s)) =
            joinPath (.path leading (.ofSeparated t)) colons s := by
          simp only [joinPath, Node.separated_ofSeparated]
        rw [joined, Node.Again, Node.joinPath_seen, Node.joinPath_seen, again₂, same₄, again₃]
  · cases eq
    rw [Node.chunks_unqualified] at starts ⊢
    exact .no starts off ((path_rereads proper hf hg run).returning fun p' again => ⟨rfl, again⟩)

omit proper hf hg in
theorem invocation_rereads {k : Bool} {p : Path} {m : Node .invocation}
    (h : invocation p c = .ok m c') :
    ∃ rest, m.layout.chunks = p.layout.chunks ++ rest ∧ Reads c rest c' ∧
      ∀ {w p'}, p.Again v k p' →
        Rereads v Alike w n (invocation p') (m.Again v k) rest c'.rest := by
  simp only [invocation, bind_ok, pure_ok] at h
  obtain ⟨bang, c₁, mark, ⟨delim, tokens⟩, _, group, rfl, rfl⟩ := h
  have took := call_takes mark group
  obtain ⟨d, o, e, eq, rfl, visible⟩ := anyGroup_ok group
  simp only [Node.layout, ChunkLayout.chunks_whole]
  refine ⟨_, rfl, took.reads, fun again => .free (a := [_]) (.punct mark) fun bang' same => ?_⟩
  refine .free (a := [_]) (b := []) (.anyGroup (k := ⟨d, o⟩) visible) ?_
  rintro ⟨delim', tokens'⟩ ⟨same', raw⟩
  exact .pure (by
    have path := again
    simp only [Node.Again, Node.seen, View.sight_raw, same, same', raw] at path ⊢
    rw [path])

theorem qualifiedPathWithInputs_rereads {self : Node .selfType} {p : Path}
    (h : qualifiedPathWithInputs g c = .ok (self, p) c') :
    Rereads v Alike w (n + 1) (qualifiedPathWithInputs g')
      (fun x => self.Again v keep x.1 ∧ p.Again v keep x.2)
      (Node.pathType self p).layout.chunks c'.rest := by
  unfold qualifiedPathWithInputs at h
  simp only [↓look_ite_ok, bind_ok, pure_ok] at h
  obtain ⟨⟨self', p'⟩, c₁, run, h⟩ := h
  have paren : ∀ {r r'}, Alike r r' → (p'.endsPlain && startsGroup .paren r) =
      (p'.endsPlain && startsGroup .paren r') := fun link => by rw [link.startsGroup]
  obtain ⟨-, s, form, ends⟩ := qualifiedPath_reads hf run
  obtain ⟨on, a, _, inputs, eq, rfl⟩ | ⟨off, eq, rfl⟩ := h <;> cases eq
  · have reads := parenthesizedArgs_reads hf inputs
    have plain := on
    rw [Bool.and_eq_true] at plain
    rw [(form.withFinalArguments ends plain.1 a).2]
    refine .bind (reads.carries proper) (qualifiedPath_rereads proper hf hg run) ?_
    rintro ⟨self', p'⟩ ⟨again, again'⟩
    simp only [again'.endsPlain]
    exact .yes (reads.asks proper paren) on
      ((parenthesizedArgs_rereads proper hf hg inputs).returning fun a' again'' =>
        ⟨again, again'.withFinalArguments again''⟩)
  · rw [← List.append_nil (Node.layout _).chunks]
    refine .bind .nil (qualifiedPath_rereads proper hf hg run) ?_
    rintro ⟨self', p'⟩ ⟨again, again'⟩
    simp only [again'.endsPlain]
    exact .no ((Reads.refl c₁).asks proper paren) off (.pure ⟨again, again'⟩)

/-! ### The front of a path -/

omit proper hf hg in
/-- A path starts with `::` or with the name of its first segment. -/
theorem path_carries {inExpr : Bool} {p : Path} {E : Link} {r' : List TokenTree}
    (h : path g inExpr c = .ok p c') : Carries v .front E p.layout.chunks c.rest r' := by
  simp only [path, bind_ok, pure_ok] at h
  obtain ⟨leading, c₁, colons, s, _, run, rfl, rfl⟩ := h
  rw [Node.chunks_path]
  obtain ⟨rfl, -, rfl⟩ | ⟨t, rfl, mark⟩ := punct?_ok colons
  · obtain ⟨first, c₂, start, rest⟩ := list1_ok run
    obtain ⟨ident, a, us, rfl, eq, -⟩ := segment_front start
    rw [Separated.chunks_first (listFrom_first rest)]
    simp only [Node.layout, ChunkLayout.chunks_whole]
    exact .word eq
  · exact .markFront (Takes.sign (by decide) mark rfl)

omit proper hg in
theorem pathWithInputs_carries {p : Path} {E : Link} {r' : List TokenTree}
    (h : pathWithInputs g c = .ok p c') : Carries v .front E p.layout.chunks c.rest r' := by
  unfold pathWithInputs at h
  simp only [↓look_ite_ok, bind_ok, pure_ok] at h
  obtain ⟨p, c₁, run, ⟨on, a, _, inputs, rfl, rfl⟩ | ⟨-, rfl, rfl⟩⟩ := h
  · obtain ⟨-, leading, s, form, ends⟩ := path_reads hf run
    rw [Bool.and_eq_true] at on
    rw [Node.chunks_withFinalArguments form ends on.1]
    exact Link.front_append fun _ => path_carries run
  · exact path_carries run

omit proper hg in
/-- A qualified path starts with `<`, another path as said. -/
theorem qualifiedPath_carries {inExpr : Bool} {self : Node .selfType} {p : Path} {E : Link}
    {r' : List TokenTree} (h : qualifiedPath g inExpr c = .ok (self, p) c') :
    Carries v .front E (Node.pathType self p).layout.chunks c.rest r' := by
  unfold qualifiedPath at h
  simp only [↓look_ite_ok, bind_ok, pure_ok] at h
  obtain ⟨-, lt, c₁, opening, type, c₂, inner, asToken, c₃, word, h⟩ | ⟨-, p', _, run, eq, rfl⟩ := h
  · have front {ps : List Chunk} : Carries v .front E (.mark lt false :: ps) c.rest r' :=
      .markFront (qualified_front hf opening inner)
    obtain ⟨rfl, -, rfl⟩ | ⟨as, rfl, as'⟩ := keyword?_ok word
    · simp only [Option.isSome_none, Bool.false_eq_true, if_false, bind_ok, pure_ok] at h
      obtain ⟨_, _, ⟨rfl, rfl⟩, gt, c₄, closing, colons, c₅, sep, s, _, run, h⟩ := h
      cases h
      rw [Node.chunks_qualified]
      exact front
    · simp only [Option.isSome_some, if_true, bind_ok, map_ok] at h
      obtain ⟨_, c₄, ⟨p', run', rfl⟩, gt, c₅, closing, colons, c₆, sep, s, _, run, h⟩ := h
      obtain ⟨-, leading, t, rfl, ends⟩ := path_reads hf run'
      simp only [Node.segments, joinPath, Node.separated_ofSeparated, pure_ok] at h
      obtain ⟨eq, rfl⟩ := h
      cases eq
      rw [Node.chunks_qualified_trait _ _ _ _ _ _ ends (segments_ends run)]
      exact front
  · cases eq
    rw [Node.chunks_unqualified]
    exact path_carries run

omit proper hg in
theorem qualifiedPathWithInputs_carries {self : Node .selfType} {p : Path} {E : Link}
    {r' : List TokenTree} (h : qualifiedPathWithInputs g c = .ok (self, p) c') :
    Carries v .front E (Node.pathType self p).layout.chunks c.rest r' := by
  unfold qualifiedPathWithInputs at h
  simp only [↓look_ite_ok, bind_ok, pure_ok] at h
  obtain ⟨⟨self', p'⟩, c₁, run, ⟨on, a, _, inputs, eq, rfl⟩ | ⟨-, eq, rfl⟩⟩ := h <;> cases eq
  · obtain ⟨-, s, form, ends⟩ := qualifiedPath_reads hf run
    rw [Bool.and_eq_true] at on
    rw [(form.withFinalArguments ends on.1 a).2]
    exact Link.front_append fun _ => qualifiedPath_carries hf run
  · exact qualifiedPath_carries hf run

end

end Parse

end TypeGrammar
