import TypeGrammar.Proofs.Reprint

/-!
# What parsers take

A parser that succeeds takes from the cursor what it returns: the trees that it moves over spell the
chunks of its result, up to what printing changes. This file states that (`Reads`) and proves it for
the primitives, for lists, and for the parsers of lifetimes, attributes and binders.
-/

namespace TypeGrammar

open TokenTree

/-- The trees between two cursors spell the given chunks. -/
def Takes (c : Cursor) (qs : List Chunk) (c' : Cursor) : Prop :=
  ∃ ts, c.rest = ts ++ c'.rest ∧ Spells .full qs ts c'.rest

/-- The trees between two cursors are printed as the given chunks. -/
def Reads (c : Cursor) (ps : List Chunk) (c' : Cursor) : Prop :=
  ∃ qs, Takes c qs c' ∧ Reprints qs ps

section

variable {c c₁ c' : Cursor} {qs qs' ps ps' : List Chunk}

theorem Takes.refl (c : Cursor) : Takes c [] c :=
  ⟨[], rfl, spells_nil.2 rfl⟩

theorem Takes.append (h : Takes c qs c₁) (h' : Takes c₁ qs' c') : Takes c (qs ++ qs') c' := by
  obtain ⟨ts, eq, spelled⟩ := h
  obtain ⟨ts', eq', spelled'⟩ := h'
  refine ⟨ts ++ ts', by simp [eq, eq'], spells_append.2 ⟨ts, ts', rfl, ?_, spelled'⟩⟩
  rwa [← eq']

theorem Takes.reads (h : Takes c qs c') : Reads c qs c' :=
  ⟨qs, h, .refl qs⟩

theorem Reads.refl (c : Cursor) : Reads c [] c :=
  (Takes.refl c).reads

theorem Reads.append (h : Reads c ps c₁) (h' : Reads c₁ ps' c') : Reads c (ps ++ ps') c' := by
  obtain ⟨qs, took, same⟩ := h
  obtain ⟨qs', took', same'⟩ := h'
  exact ⟨qs ++ qs', took.append took', same.append same'⟩

theorem Takes.word {t : Token} (eq : c.rest = .token t :: c'.rest) (kind : t.kind ≠ .punct) :
    Takes c [.word t] c' :=
  ⟨[.token t], eq, spells_word.2 ⟨⟨kind, trivial⟩, t, [], rfl, rfl, spells_nil.2 rfl⟩⟩

/-- A group whose contents are read to their end. -/
theorem Reads.group {d : Delimiter} {us : List TokenTree} {o e : Span} {c₁ : Cursor}
    (eq : c.rest = .group d us o e :: c'.rest) (inner : Reads (Cursor.ofTrees us e) ps c₁)
    (done : c₁.rest = []) : Reads c [.group ⟨d, o⟩ ps] c' := by
  obtain ⟨qs, ⟨ts, all, spelled⟩, same⟩ := inner
  rw [done] at all spelled
  simp only [Cursor.ofTrees, List.append_nil] at all
  subst all
  exact ⟨[.group ⟨d, o⟩ qs],
    ⟨[.group d us o e], eq, spells_group.2 ⟨us, o, e, [], rfl, spelled, spells_nil.2 rfl⟩⟩,
    .inside _ same .nil⟩

theorem Takes.raw {d : Delimiter} {us : List TokenTree} {o e : Span}
    (eq : c.rest = .group d us o e :: c'.rest) : Takes c [.raw ⟨d, o⟩ us] c' :=
  ⟨[.group d us o e], eq, spells_raw.2 ⟨us, o, e, [], rfl, rfl, spells_nil.2 rfl⟩⟩

end

/-! ## Operators -/

/-- The trees of an operator at the front spell it. -/
theorem spellsChars_of_starts {bars : List Char} {cs : List Char} {ts : List TokenTree}
    (h : startsChars cs ts = true) (bar : ∀ b ∈ bars, startsChars (cs ++ [b]) ts = false) :
    ∃ us, ts = us ++ ts.drop cs.length ∧ SpellsChars bars cs us (ts.drop cs.length) := by
  induction cs generalizing ts with
  | nil => exact ⟨[], rfl, rfl⟩
  | cons c cs ih =>
    obtain ⟨t, ts, rfl, kind, text, next⟩ := startsChars_front h
    have text' : t.text = String.singleton c := String.toList_inj.1 (by simpa using text)
    cases cs with
    | nil =>
      refine ⟨[.token t], rfl, t, [], rfl, kind, text', ?_, rfl⟩
      intro joint b mem
      simpa [startsChars, kind, text, joint] using bar b mem
    | cons d ds =>
      obtain ⟨joint, tail⟩ := next (List.cons_ne_nil d ds)
      obtain ⟨us, eq, spelled⟩ := ih tail fun b mem => by
        simpa [startsChars, kind, text, joint] using bar b mem
      refine ⟨.token t :: us, ?_, t, us, rfl, kind, text', by simpa using joint, spelled⟩
      simpa using eq

/-- What is joint to an operator is at the front after it. -/
theorem startsChars_append {cs ds : List Char} {ts : List TokenTree}
    (h : startsChars (cs ++ ds) ts = true) : startsChars ds (ts.drop cs.length) = true := by
  induction cs generalizing ts with
  | nil => exact h
  | cons c cs ih =>
    obtain ⟨t, ts, rfl, -, -, next⟩ := startsChars_front h
    cases ds with
    | nil => rfl
    | cons d ds => exact ih (next (by simp)).2

section

variable {c c₁ c' : Cursor}

theorem sign_width {op : String} (sign : op ∈ signs) : max 1 op.length = op.toList.length := by
  have := List.length_pos_iff.2 (signs_nonempty op sign)
  rw [String.length_toList] at this ⊢
  omega

/-- An operator that is taken as one marker. -/
theorem Takes.mark {op : String} {t : Token} (binary : Bool) (sign : op ∈ signs)
    (h : Parser.punct op c = .ok t c')
    (bar : ∀ b ∈ extensions binary op, startsChars (op.toList ++ [b]) c.rest = false) :
    Takes c [.mark t binary] c' := by
  obtain ⟨starts, ⟨span, rfl⟩, rest⟩ := Parser.punct_ok h
  obtain ⟨us, eq, spelled⟩ := spellsChars_of_starts starts bar
  rw [sign_width sign] at rest
  rw [← rest] at eq spelled
  exact ⟨us, eq, spells_mark.2 ⟨⟨rfl, rfl, sign⟩, us, [], by simp, spelled, spells_nil.2 rfl⟩⟩

/-- An operator that no longer one starts with. -/
theorem Takes.sign {op : String} {t : Token} (sign : op ∈ signs)
    (h : Parser.punct op c = .ok t c') (plain : extensions false op = []) :
    Takes c [.mark t false] c' :=
  .mark false sign h (by simp [plain])

/-- An operator after which no longer one can go on. -/
theorem Takes.markBefore {op : String} {t : Token} (binary : Bool) (sign : op ∈ signs)
    (h : Parser.punct op c = .ok t c')
    (next : ∀ b ∈ extensions binary op, startsChars [b] c'.rest = false) :
    Takes c [.mark t binary] c' := by
  refine .mark binary sign h fun b mem => ?_
  cases on : startsChars (op.toList ++ [b]) c.rest with
  | false => rfl
  | true =>
    obtain ⟨-, -, rest⟩ := Parser.punct_ok h
    have after := startsChars_append on
    rw [← sign_width sign, ← rest, next b mem] at after
    contradiction

/-! ## Words -/

theorem Parser.keyword_ok {w : String} {t : Token} (h : Parser.keyword w c = .ok t c') :
    c.rest = .token t :: c'.rest ∧ t.IsWord w := by
  obtain ⟨eq, met⟩ := take_ok h
  rw [eq] at met
  exact ⟨eq, .of_starts met⟩

theorem Parser.identifier_ok {t : Token} (h : Parser.identifier c = .ok t c') :
    c.rest = .token t :: c'.rest ∧ t.kind = .identifier := by
  obtain ⟨eq, met⟩ := take_ok h
  rw [eq] at met
  exact ⟨eq, by simpa [Expectation.isMet, startsIdentifier, startsKind, token?] using met⟩

theorem Parser.lifetime_ok {t : Token} (h : Parser.lifetime c = .ok t c') :
    c.rest = .token t :: c'.rest ∧ t.kind = .lifetime := by
  obtain ⟨eq, met⟩ := take_ok h
  rw [eq] at met
  exact ⟨eq, by simpa [Expectation.isMet, startsLifetime, startsKind, token?] using met⟩

theorem Parser.literal_ok {t : Token} (h : Parser.literal c = .ok t c') :
    c.rest = .token t :: c'.rest ∧ t.kind.isLiteral = true := by
  obtain ⟨eq, met⟩ := take_ok h
  rw [eq] at met
  exact ⟨eq, by simpa [Expectation.isMet, startsLiteral, startsKind, token?] using met⟩

theorem Takes.keyword {w : String} {t : Token} (h : Parser.keyword w c = .ok t c') :
    Takes c [.word t] c' := by
  obtain ⟨eq, word⟩ := Parser.keyword_ok h
  exact .word eq word.kind_ne

theorem Takes.anyWord {t : Token} (h : Parser.anyWord c = .ok t c') : Takes c [.word t] c' := by
  obtain ⟨eq, kind⟩ := Parser.anyWord_ok h
  exact .word eq (by obtain h | h := kind <;> simp [h])

theorem Takes.identifier {t : Token} (h : Parser.identifier c = .ok t c') :
    Takes c [.word t] c' := by
  obtain ⟨eq, kind⟩ := Parser.identifier_ok h
  exact .word eq (by simp [kind])

theorem Takes.lifetime {t : Token} (h : Parser.lifetime c = .ok t c') :
    Takes c [.word t] c' := by
  obtain ⟨eq, kind⟩ := Parser.lifetime_ok h
  exact .word eq (by simp [kind])

theorem Takes.literal {t : Token} (h : Parser.literal c = .ok t c') : Takes c [.word t] c' := by
  obtain ⟨eq, kind⟩ := Parser.literal_ok h
  refine .word eq fun punct => ?_
  simp [punct, TokenKind.isLiteral] at kind

theorem Takes.punct? {op : String} {t : Option Token} (sign : op ∈ signs)
    (h : Parser.punct? op c = .ok t c') (plain : extensions false op = []) :
    Takes c (markChunks t) c' := by
  obtain ⟨rfl, -, rfl⟩ | ⟨s, rfl, run⟩ := Parser.punct?_ok h
  · exact .refl c
  · exact .sign sign run plain

theorem Takes.keyword? {w : String} {t : Option Token} (h : Parser.keyword? w c = .ok t c') :
    Takes c (wordChunks t) c' := by
  obtain ⟨rfl, -, rfl⟩ | ⟨s, rfl, run⟩ := Parser.keyword?_ok h
  · exact .refl c
  · exact .keyword run

end

/-! ## Lists -/

section

variable {α : Type} {rule : Parser.ListRule} {item : Parser α} {f : α → List Chunk}
  {R : Cursor → List Chunk → Cursor → Prop}

/-- A relation between cursors that chunks compose. -/
structure Composes (R : Cursor → List Chunk → Cursor → Prop) : Prop where
  refl : ∀ c, R c [] c
  append : ∀ {c c₁ c' qs qs'}, R c qs c₁ → R c₁ qs' c' → R c (qs ++ qs') c'

theorem Takes.composes : Composes Takes := ⟨Takes.refl, Takes.append⟩

theorem Reads.composes : Composes Reads := ⟨Reads.refl, Reads.append⟩

variable (compose : Composes R)
  (separator : ∀ {s c c'}, Parser.punct rule.separator c = .ok s c' → R c [.mark s false] c')
  (value : ∀ {v c c'}, item c = .ok v c' → R c (f v) c')
include compose separator value

theorem Composes.listFrom {limit : Nat} {v : α} {p : Separated α} {c₀ c c' : Cursor}
    (first : R c₀ (f v) c) (h : Parser.listFrom rule item limit v c = .ok p c') :
    R c₀ (p.chunks f) c' := by
  induction limit generalizing v p c₀ c with
  | zero => simp [Parser.listFrom, Parser.fail_ok] at h
  | succ limit ih =>
    obtain ⟨n, eq, ⟨-, rfl, rfl⟩ | ⟨s, c₁, -, sep, ⟨-, rfl, rfl⟩ |
      ⟨w, c₂, q, -, next, rest, rfl⟩⟩⟩ := Parser.listFrom_ok h
    · exact first
    · exact compose.append first (separator sep)
    · cases eq
      exact compose.append first (compose.append (separator sep) (ih (value next) rest))

theorem Composes.list1 {p : Separated α} {c c' : Cursor}
    (h : Parser.list1 rule item c = .ok p c') : R c (p.chunks f) c' := by
  obtain ⟨v, c₁, first, rest⟩ := Parser.list1_ok h
  exact compose.listFrom separator value (value first) rest

theorem Composes.list {p : Separated α} {c c' : Cursor}
    (h : Parser.list rule item c = .ok p c') : R c (p.chunks f) c' := by
  obtain ⟨rfl, -, rfl⟩ | ⟨-, run⟩ := Parser.list_ok h
  · exact compose.refl c
  · exact compose.list1 separator value run

end

/-! ## Lifetimes and attributes -/

namespace Parse

variable {c c' : Cursor}

theorem startsChars_one {b : Char} {ts : List TokenTree} :
    startsChars [b] ts = true ↔
      ∃ t us, ts = .token t :: us ∧ t.kind = .punct ∧ t.text = String.singleton b := by
  match ts with
  | [] => simp [startsChars]
  | .group .. :: _ => simp [startsChars]
  | .token t :: us => simp [startsChars, ← String.toList_inj]

theorem startsChars_token {b : Char} {t : Token} {us : List TokenTree} (kind : t.kind ≠ .punct) :
    startsChars [b] (.token t :: us) = false := by
  simp [startsChars, kind]

/-- Only one character is at the front. -/
theorem startsChars_other {op : String} {a b : Char} {ts : List TokenTree}
    (h : startsPunct op ts = true) (single : op.toList = [a]) (ne : a ≠ b) :
    startsChars [b] ts = false := by
  rw [startsPunct, single] at h
  obtain ⟨t, us, rfl, -, text⟩ := startsChars_one.1 h
  simp [startsChars, text, ne]

theorem attributesUpTo_takes {limit : Nat} {as : List Attribute}
    (h : attributesUpTo limit c = .ok as c') : Takes c (as.flatMap Attribute.chunks) c' := by
  induction limit generalizing as c with
  | zero => simp [attributesUpTo, Parser.fail_ok] at h
  | succ limit ih =>
    obtain ⟨n, eq, ⟨rfl, -, rfl⟩ |
      ⟨pound, c₁, bracket, tokens, c₂, more, -, mark, group, rest, rfl⟩⟩ := attributesUpTo_ok h
    · exact .refl c
    · cases eq
      obtain ⟨o, e, eq, rfl⟩ := Parser.rawGroup_ok group
      exact ((Takes.sign (by decide) mark rfl).append (.raw eq)).append (ih rest)

theorem attributes_takes {as : List Attribute} (h : attributes c = .ok as c') :
    Takes c (as.flatMap Attribute.chunks) c' :=
  attributesUpTo_takes h

theorem lifetime_takes {l : Lifetime} (h : lifetime c = .ok l c') : Takes c l.chunks c' :=
  .lifetime (lifetime_ok h)

theorem lifetime?_takes {l : Option Lifetime} (h : lifetime? c = .ok l c') :
    Takes c ((l.map Lifetime.chunks).getD []) c' := by
  obtain ⟨rfl, -, rfl⟩ | ⟨t, rfl, run⟩ := lifetime?_ok h
  · exact .refl c
  · exact .lifetime run

/-- Bounds of a lifetime do not start with a colon. -/
theorem lifetimes_front {p : Separated Lifetime}
    (h : Parser.list Parser.boundsBeforeComma lifetime c = .ok p c') :
    startsChars [':'] c.rest = false := by
  obtain ⟨-, again, -⟩ | ⟨-, run⟩ := Parser.list_ok h
  · simp only [Parser.boundsBeforeComma, Bool.not_eq_false', Bool.or_eq_true] at again
    obtain stops | stops := again
    · exact startsChars_other stops rfl (by decide)
    · exact startsChars_other stops rfl (by decide)
  · obtain ⟨v, c₁, first, -⟩ := Parser.list1_ok run
    obtain ⟨eq, kind⟩ := Parser.lifetime_ok (lifetime_ok first)
    rw [eq]
    exact startsChars_token (by simp [kind])

theorem lifetimeDef_takes {d : LifetimeDef} (h : lifetimeDef c = .ok d c') :
    Takes c d.source c' := by
  obtain ⟨c₁, c₂, attrs, name, ⟨colon, bounds, -, rfl⟩ | ⟨colon, c₃, eq, mark, bounds⟩⟩ :=
    lifetimeDef_ok h
  · rw [LifetimeDef.source, colon, bounds]
    exact (attributes_takes attrs).append ((lifetime_takes name).append (.refl c₂))
  · rw [LifetimeDef.source, eq]
    have before : Takes c₂ [.mark _ false] c₃ :=
      .markBefore false (by decide) mark fun b mem => by
        obtain rfl : b = ':' := by simpa [extensions] using mem
        exact lifetimes_front bounds
    exact (attributes_takes attrs).append ((lifetime_takes name).append (before.append
      (Takes.composes.list (fun sep => .sign (by decide) sep rfl) lifetime_takes bounds)))

/-- A lifetime definition does not start with an operator other than `#`. -/
theorem lifetimeDef_front {d : LifetimeDef} (h : lifetimeDef c = .ok d c') {b : Char}
    (ne : b ≠ '#') : startsChars [b] c.rest = false := by
  obtain ⟨c₁, c₂, attrs, name, -⟩ := lifetimeDef_ok h
  obtain ⟨n, eq, ⟨-, -, rfl⟩ | ⟨pound, _, _, _, _, _, starts, -⟩⟩ := attributesUpTo_ok attrs
  · obtain ⟨eq, kind⟩ := Parser.lifetime_ok (lifetime_ok name)
    rw [eq]
    exact startsChars_token (by simp [kind])
  · simp only [startsAttribute, Bool.and_eq_true] at starts
    exact startsChars_other starts.1 rfl ne.symm

theorem binder_takes {b : Binder} (h : binder c = .ok b c') :
    Takes c b.source c' ∧ b.forToken.IsWord "for" ∧ b.lt.text = "<" := by
  obtain ⟨c₁, c₂, c₃, forToken, lt, lifetimes, gt⟩ := binder_ok h
  refine ⟨?_, (Parser.keyword_ok forToken).2, ?_⟩
  · refine (Takes.keyword forToken).append (.append (.markBefore false (by decide) lt ?_)
      (.append ?_ (.sign (by decide) gt rfl)))
    · intro b mem
      obtain rfl : b = '=' := by simpa [extensions] using mem
      obtain ⟨-, again, -⟩ | ⟨-, run⟩ := Parser.list_ok lifetimes
      · have stops : startsPunct ">" c₂.rest = true := by simpa [Parser.beforeAngle] using again
        exact startsChars_other stops rfl (by decide)
      · obtain ⟨d, _, first, -⟩ := Parser.list1_ok run
        exact lifetimeDef_front first (by decide)
    · exact Takes.composes.list (fun sep => .sign (by decide) sep rfl) lifetimeDef_takes lifetimes
  · obtain ⟨-, ⟨span, eq⟩, -⟩ := Parser.punct_ok lt
    rw [eq]
    rfl

theorem binder_reads {b : Binder} (h : binder c = .ok b c') : Reads c b.chunks c' := by
  obtain ⟨took, forToken, lt⟩ := binder_takes h
  refine ⟨b.source, took, ?_⟩
  simpa using Reprints.binder b forToken lt .nil

theorem binder?_reads {b : Option Binder} (h : binder? c = .ok b c') :
    Reads c (binderChunks b) c' := by
  obtain ⟨rfl, -, rfl⟩ | ⟨b', rfl, run⟩ := binder?_ok h
  · exact .refl c
  · exact binder_reads run

theorem abi_takes {a : Abi} (h : abi c = .ok a c') : Takes c a.chunks c' := by
  obtain ⟨c₁, word, ⟨name, -, rfl⟩ | ⟨s, name, -, run⟩⟩ := abi_ok h
  · rw [Abi.chunks, name]
    exact .keyword word
  · rw [Abi.chunks, name]
    exact (Takes.keyword word).append (.literal run)

end Parse

end TypeGrammar
