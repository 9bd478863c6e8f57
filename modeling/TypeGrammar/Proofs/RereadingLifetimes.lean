import TypeGrammar.Proofs.Rereading

/-!
# Lifetimes and attributes that are read again

Attributes, lifetimes, binders and calling conventions. The colon of a lifetime definition without
bounds is not printed, so what follows the lifetime is another tree in the second reading; but no
parser asks for that tree before the lifetime is taken, except for the front of the lifetime itself.
-/

namespace TypeGrammar

open TokenTree

/-- What the front says. -/
def Link.front : Link := .ask shape

theorem Link.front_append {v : View} {E : Link} {ps qs : List Chunk} {r r' : List TokenTree}
    (h : ∀ r₁, Carries v .front .any ps r r₁) : Carries v .front E (ps ++ qs) r r' :=
  .append (x := []) (h []) .any

@[simp]
theorem View.sight_raw (v : View) (k : Bool) (ts : List TokenTree) :
    (v.sight k).raw ts = eraseAll (v.raw ts) := rfl

@[simp]
theorem View.sight_colons (v : View) (k : Bool) : (v.sight k).colons = k := rfl

section

variable {v : View} {E : Link} {c c' : Cursor} {t : Token} {ps : List Chunk}
  {r us : List TokenTree}

/-- A word is at the front in both readings. -/
theorem Carries.word (eq : r = .token t :: us) {r' : List TokenTree} :
    Carries v .front E (.word t :: ps) r r' := by
  intro ts rest spelled _
  obtain ⟨-, t', ws, rfl, same, -⟩ := spells_word.1 spelled
  obtain ⟨kind, text, -⟩ := erase_eq_iff.1 same
  rw [Link.front, Link.ask, eq, List.cons_append, shape, shape, kind, text]

/-- An operator is at the front in both readings. -/
theorem Carries.markFront {binary : Bool} (h : Takes c [.mark t binary] c')
    {r' : List TokenTree} : Carries v .front E (.mark t binary :: ps) c.rest r' := by
  obtain ⟨us, eq, took⟩ := h
  obtain ⟨⟨-, -, sign⟩, us, ws, rfl, chars, nothing⟩ := spells_mark.1 took
  cases spells_nil.1 nothing
  intro ts rest spelled _
  obtain ⟨-, xs, ys, rfl, chars', -⟩ := spells_mark.1 spelled
  obtain ⟨a, as, chars_eq⟩ := List.exists_cons_of_ne_nil (signs_nonempty _ sign)
  rw [chars_eq] at chars chars'
  obtain ⟨t, _, rfl, kind, text, -⟩ := chars
  obtain ⟨t', _, rfl, kind', text', -⟩ := chars'
  simp [Link.front, Link.ask, eq, shape, kind, text, kind', text']

/-- A group is at the front in both readings. -/
theorem Carries.group {d : Delim} {inner : List Chunk} {ts : List TokenTree} {o e : Span}
    (eq : r = .group d.delimiter ts o e :: us) {r' : List TokenTree} :
    Carries v .front E (.group d inner :: ps) r r' := by
  intro ts rest spelled _
  obtain ⟨xs, o', e', ws, rfl, -, -⟩ := spells_group.1 spelled
  rw [Link.front, Link.ask, eq]
  rfl

theorem Carries.raw {d : Delim} {tokens ts : List TokenTree} {o e : Span}
    (eq : r = .group d.delimiter ts o e :: us) {r' : List TokenTree} :
    Carries v .front E (.raw d tokens :: ps) r r' := by
  intro ts rest spelled _
  obtain ⟨xs, o', e', ws, rfl, -, -⟩ := spells_raw.1 spelled
  rw [Link.front, Link.ask, eq]
  rfl

/-- An operator is at the front in both readings, with the same answers unless it is `#` or `::`. -/
theorem Carries.mark {op : String} {binary : Bool} (known : op ≠ "#" ∧ op ≠ "::")
    (h : Takes c [.mark t binary] c') (text : t.text = op) {r' : List TokenTree} :
    Carries v SameAhead E (.mark t binary :: ps) c.rest r' := by
  obtain ⟨us, eq, took⟩ := h
  obtain ⟨⟨-, -, sign⟩, us, ws, rfl, chars, nothing⟩ := spells_mark.1 took
  cases spells_nil.1 nothing
  intro ts rest spelled _
  obtain ⟨-, xs, ys, rfl, chars', -⟩ := spells_mark.1 spelled
  rw [eq, List.append_nil, List.append_assoc]
  rw [List.nil_append] at chars
  exact .mark sign chars chars' fun other => by
    rw [text] at other
    exact absurd other (by simp [known])

end

namespace Parse

variable {v : View} {w n : Nat} {k : Bool} {c c' : Cursor}

/-! ## Attributes -/

theorem startsAttribute_word {t : Token} {us : List TokenTree} (word : t.kind ≠ .punct) :
    startsAttribute (.token t :: us) = false := by
  rw [startsAttribute, startsPunct_word word (by decide), Bool.false_and]

theorem carries_noAttribute {E : Link} {t : Token} {ps : List Chunk} {r r' us : List TokenTree}
    (eq : r = .token t :: us) (word : t.kind ≠ .punct) :
    Carries v (.ask startsAttribute) E (.word t :: ps) r r' := by
  intro ts rest spelled _
  obtain ⟨-, t', ws, rfl, same, -⟩ := spells_word.1 spelled
  have word' : t'.kind ≠ .punct := (erase_eq_iff.1 same).1 ▸ word
  rw [Link.ask, eq, List.cons_append, startsAttribute_word word, startsAttribute_word word']

/-- An attribute is at the front in both readings. -/
theorem carries_attribute {E : Link} {a : Attribute} {p : List Chunk} {r r' : List TokenTree}
    (bracket : a.bracket.delimiter = .bracket) (pound : a.pound.text = "#")
    (on : startsAttribute r = true) : Carries v (.ask startsAttribute) E (a.chunks ++ p) r r' := by
  intro ts rest spelled _
  obtain ⟨-, us, ws, rfl, chars, more⟩ := spells_mark.1 spelled
  obtain ⟨xs, o, e, ys, rfl, -, -⟩ := spells_raw.1 more
  rw [pound] at chars
  obtain ⟨t, _, rfl, kind, text, -, nothing⟩ := chars
  cases nothing
  replace text : t.text = "#" := text
  rw [Link.ask, on]
  simp [startsAttribute, startsPunct, startsChars, kind, text, startsGroup, bracket]

theorem attributesUpTo_rereads {limit limit' m : Nat} {as : List Attribute}
    (wide : w ≤ limit') (h : attributesUpTo limit c = .ok as c') :
    Carries v (.ask startsAttribute) (.ask startsAttribute) (as.flatMap Attribute.chunks) c.rest
        c'.rest ∧
      Rereads v (.ask startsAttribute) w m (attributesUpTo limit')
        (fun as' =>
          as'.map (Attribute.seen (v.sight k)) = as.map (Attribute.seen (v.sight false)))
        (as.flatMap Attribute.chunks) c'.rest := by
  induction limit generalizing as c limit' w m with
  | zero => simp [attributesUpTo, Parser.fail_ok] at h
  | succ limit ih =>
    obtain ⟨_, eq, ⟨rfl, off, rfl⟩ |
      ⟨pound, c₁, bracket, tokens, c₂, more, on, mark, group, rest, rfl⟩⟩ := attributesUpTo_ok h
    · refine ⟨.nil, ?_⟩
      cases limit' with
      | zero =>
        obtain rfl := Nat.le_zero.1 wide
        exact .narrow
      | succ limit' => exact .no (s := c.rest) .nil off (.pure rfl)
    · cases eq
      obtain ⟨o, e, -, rfl⟩ := Parser.rawGroup_ok group
      have text : pound.text = "#" := by
        obtain ⟨-, ⟨span, rfl⟩, -⟩ := Parser.punct_ok mark
        rfl
      rw [List.flatMap_cons]
      have carry : Carries v (.ask startsAttribute) (.ask startsAttribute) _ c.rest c'.rest :=
        carries_attribute (a := ⟨pound, ⟨.bracket, o⟩, tokens⟩)
          (p := more.flatMap Attribute.chunks) rfl text on
      refine ⟨carry, ?_⟩
      cases limit' with
      | zero =>
        obtain rfl := Nat.le_zero.1 wide
        exact .narrow
      | succ limit' =>
        refine .yes carry on ?_
        cases m with
        | zero => exact .tiny
        | succ m =>
          refine .mark mark fun pound' same => ?_
          refine .free (a := [_]) (.raw (k := ⟨.bracket, o⟩)) ?_
          rintro ⟨bracket', tokens'⟩ ⟨same', raw⟩
          exact (ih (by omega) rest).2.returning fun as' tail => by
            simp only [List.map_cons, tail, Attribute.seen, same, same', View.sight_raw, raw]

theorem attributes_rereads {as : List Attribute} (h : attributes c = .ok as c') :
    Carries v (.ask startsAttribute) (.ask startsAttribute) (as.flatMap Attribute.chunks) c.rest
        c'.rest ∧
      Rereads v (.ask startsAttribute) w n attributes
        (fun as' =>
          as'.map (Attribute.seen (v.sight k)) = as.map (Attribute.seen (v.sight false)))
        (as.flatMap Attribute.chunks) c'.rest := by
  refine ⟨(attributesUpTo_rereads (v := v) (m := 0) (k := k) (Nat.le_refl 0) h).1, ?_⟩
  intro d ts rest eq spelled link _ narrow
  have length : ts.length + 1 ≤ d.rest.length + 1 := by
    rw [eq, List.length_append]
    omega
  exact (attributesUpTo_rereads length h).2 eq spelled link (by omega) narrow

/-! ## Lifetimes -/

theorem lifetime_rereads {E : Link} {l : Lifetime} {r : List TokenTree}
    (h : lifetime c = .ok l c') :
    Rereads v E w n lifetime (fun l' => l'.erase = l.erase) l.chunks r :=
  (Rereads.token (takesToken_lifetime (lifetime_ok h))).returning fun t same => by
    simp [Lifetime.erase, same]

theorem lifetime?_rereads {l : Option Lifetime} (h : lifetime? c = .ok l c') :
    Rereads v Alike w n lifetime? (fun l' => l'.map Lifetime.erase = l.map Lifetime.erase)
      ((l.map Lifetime.chunks).getD []) c'.rest := by
  have known : ∀ {r r'}, Alike r r' → startsLifetime r = startsLifetime r' :=
    fun h => h.startsKind rfl rfl
  obtain ⟨rfl, off, rfl⟩ | ⟨t, rfl, run⟩ := lifetime?_ok h
  · exact .no (s := c.rest) (Carries.nil.mono known id) off (.pure rfl)
  · obtain ⟨eq, kind⟩ := Parser.lifetime_ok run
    have starts : startsLifetime c.rest = true := by
      simp [eq, startsLifetime, startsKind, token?, kind]
    have again : lifetime c = .ok ⟨t⟩ c' := by
      simp only [lifetime, Parser.bind_ok, Parser.pure_ok]
      exact ⟨t, c', run, rfl, rfl⟩
    exact .yes ((Carries.word eq).mono (fun same => startsKind_of_shape same _) id) starts
      ((lifetime_rereads again).returning fun l' same => by simp [same])

theorem bounds_rereads {p : Separated Lifetime} (proper : v.Proper)
    (h : Parser.list Parser.boundsBeforeComma lifetime c = .ok p c') :
    Rereads v Alike w n (Parser.list Parser.boundsBeforeComma lifetime)
      (fun p' => p'.seen Lifetime.erase = p.seen Lifetime.erase) (p.chunks Lifetime.chunks)
      c'.rest :=
  (Rereads.Items.ofReads proper Parser.steady_boundsBeforeComma id (fun _ => id)
    (fun h => (lifetime_takes h).reads) lifetime_rereads).list h |>.2

/-- A lifetime definition starts with an attribute or with the lifetime in both readings. -/
theorem lifetimeDef_carries {E : Link} {d : LifetimeDef} {r' : List TokenTree}
    (h : lifetimeDef c = .ok d c') : Carries v .front E d.chunks c.rest r' := by
  obtain ⟨c₁, c₂, attrs, name, -⟩ := lifetimeDef_ok h
  simp only [LifetimeDef.chunks, List.append_assoc]
  obtain ⟨_, -, ⟨empty, -, rfl⟩ | ⟨pound, _, _, tokens, _, more, -, mark, -, -, leads⟩⟩ :=
    attributesUpTo_ok attrs
  · rw [empty]
    exact .word (Parser.lifetime_ok (lifetime_ok name)).1
  · rw [leads]
    exact .markFront (Takes.sign (by decide) mark rfl)

/-- A list of bounds that is empty stops before a comma or an angle bracket. -/
theorem bounds_empty (h : Parser.list Parser.boundsBeforeComma lifetime c = .ok .empty c') :
    startsPunct ":" c'.rest = false := by
  obtain ⟨-, stop, rfl⟩ | ⟨-, run⟩ := Parser.list_ok h
  · simp only [Parser.boundsBeforeComma, Bool.not_eq_false', Bool.or_eq_true] at stop
    obtain stop | stop := stop <;> exact startsChars_other stop rfl (by decide)
  · obtain ⟨_, _, -, rest⟩ := Parser.list1_ok run
    cases listFrom_first rest

/-- A colon without bounds is not printed. -/
theorem lifetimeDef_rereads {d : LifetimeDef} (proper : v.Proper) (h : lifetimeDef c = .ok d c') :
    Rereads v Alike w n lifetimeDef
      (fun d' => d'.seen (v.sight k) = d.seen (v.sight false)) d.chunks c'.rest := by
  rcases d with ⟨as, l, colon, bounds⟩
  obtain ⟨c₁, c₂, attrs, name, more⟩ := lifetimeDef_ok h
  obtain ⟨eq, kind⟩ := Parser.lifetime_ok (lifetime_ok name)
  have word : l.token.kind ≠ .punct := by
    rw [show l.token.kind = _ from kind]
    decide
  simp only [LifetimeDef.chunks, List.append_assoc]
  refine .bind (carries_noAttribute eq word) (attributes_rereads (k := k) attrs).2
    fun as' same => .free (lifetime_rereads name) fun l' same' => ?_
  obtain ⟨absent, empty, off, rfl⟩ | ⟨s, c₃, present, mark, list⟩ := more
  · cases empty
    exact .withoutMark (s := c₂.rest)
      (Carries.nil.mono (fun h => h.startsPunct (.inr rfl)) id) off
      (.pure (by cases k <;> simp [LifetimeDef.seen, same, same']))
  · cases present
    cases bounds with
    | empty =>
      exact .withoutMark
        (Carries.nil.mono (fun h => h.startsPunct (.inr rfl)) id) (bounds_empty list)
        (.pure (by cases k <;> simp [LifetimeDef.seen, same, same']))
    | last | cons =>
      refine .withMark mark fun s' same'' => (bounds_rereads proper list).returning
        fun bounds' seen => ?_
      cases bounds' <;> simp_all [LifetimeDef.seen]

/-! ## Binders -/

/-- The lifetimes of a binder; what follows them is an operator. -/
theorem lifetimeDefs_items (proper : v.Proper) :
    Rereads.Items v .front SameAhead n Parser.beforeAngle lifetimeDef lifetimeDef
      LifetimeDef.chunks (LifetimeDef.seen (v.sight k)) (LifetimeDef.seen (v.sight false)) where
  asks h := congrArg (!·) (startsChars_of_shape h.front _)
  again h := congrArg (!·) (startsChars_of_shape h _)
  stop h := h.front
  separator sep := .mark (by decide) (Takes.sign (by decide) sep rfl)
    (Parser.punct_text sep)
  value := lifetimeDef_carries
  rereads h := (lifetimeDef_rereads proper h).linked .inl

/-- A binder is read again whatever follows it. -/
theorem binder_rereads {E : Link} {b : Binder} {r : List TokenTree} (proper : v.Proper)
    (h : binder c = .ok b c') :
    Rereads v E w n binder (fun b' => b'.seen (v.sight k) = b.seen (v.sight false)) b.chunks
      r := by
  obtain ⟨c₁, c₂, c₃, forToken, lt, lifetimes, gt⟩ := binder_ok h
  rw [Binder.chunks]
  refine .free (a := [_]) (.token (takesToken_keyword forToken)) fun forToken' same₁ => ?_
  refine .free (a := [_]) (.punct lt) fun lt' same₂ => ?_
  refine .bind (.mark (by decide) (Takes.sign (by decide) gt rfl) (Parser.punct_text gt))
    ((lifetimeDefs_items (k := k) proper).list lifetimes).2 fun lifetimes' same₃ => ?_
  exact (Rereads.punct gt).returning fun gt' same₄ => by
    simp [Binder.seen, same₁, same₂, same₃, same₄]

theorem abi_carries {E : Link} {a : Abi} {ps : List Chunk} {r' : List TokenTree}
    (h : abi c = .ok a c') : Carries v .front E (a.chunks ++ ps) c.rest r' := by
  obtain ⟨c₁, word, -⟩ := abi_ok h
  obtain ⟨eq, -⟩ := Parser.keyword_ok word
  exact .word eq

theorem abi_rereads {a : Abi} (h : abi c = .ok a c') :
    Rereads v (.ask (startsKind (· == .string))) w n abi (fun a' => a'.erase = a.erase) a.chunks
      c'.rest := by
  obtain ⟨c₁, word, ⟨name, off, rfl⟩ | ⟨s, name, on, literal⟩⟩ := abi_ok h
  · rw [Abi.chunks, name]
    exact .free (a := [_]) (.token (takesToken_keyword word)) fun word' same =>
      .no (s := c₁.rest) .nil off (.pure (by simp [Abi.erase, same, name]))
  · rw [Abi.chunks, name]
    refine .free (a := [_]) (.token (takesToken_keyword word)) fun word' same => ?_
    obtain ⟨eq, -⟩ := Parser.literal_ok literal
    exact .yes (s := c₁.rest)
      ((Carries.word eq).mono (fun same => startsKind_of_shape same _) id) on
      ((Rereads.token (takesToken_literal literal)).returning fun s' same' => by
        simp [Abi.erase, same, same', name])

end Parse

end TypeGrammar
