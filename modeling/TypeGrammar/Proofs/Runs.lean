import TypeGrammar.Parse

/-!
# Successful runs of parsers

What it means that a parser succeeds. The combinators are taken apart by equivalences, so that a run
of a parser that is written with `do` is a chain of runs of its parts; each primitive has one lemma
that says what stood ahead of the cursor and what stands ahead afterwards.
-/

namespace TypeGrammar

open TokenTree

/-! ## Questions about a word and what follows it -/

/-- True if a lifetime stands alone. -/
def startsLoneLifetime (ts : List TokenTree) : Bool :=
  startsLifetime ts && !startsPunct "+" (ts.drop 1)

/-- True if a name and `=` come next. -/
def startsBinding (ts : List TokenTree) : Bool :=
  startsIdentifier ts && startsPunct "=" (ts.drop 1)

/-- True if a name and a colon come next. -/
def startsConstraint (ts : List TokenTree) : Bool :=
  startsIdentifier ts && startsPunct ":" (ts.drop 1) && !startsPunct "::" (ts.drop 1)

/-- True if a name or `_` and a colon come next. -/
def startsFnName (ts : List TokenTree) : Bool :=
  (startsIdentifier ts || startsWord "_" ts) && startsPunct ":" (ts.drop 1) &&
    !startsPunct "::" (ts.drop 1)

/-- True if an attribute comes next. -/
def startsAttribute (ts : List TokenTree) : Bool :=
  startsPunct "#" ts && startsGroup .bracket (ts.drop 1)

theorem Cursor.skip_skip (c : Cursor) (m n : Nat) : (c.skip m).skip n = c.skip (m + n) := by
  simp [skip, Nat.add_assoc]

namespace Parser

variable {α β : Type} {c c' : Cursor}

/-! ## Combinators -/

theorem bind_ok {p : Parser α} {q : α → Parser β} {b : β} :
    (p >>= q) c = .ok b c' ↔ ∃ a c₁, p c = .ok a c₁ ∧ q a c₁ = .ok b c' := by
  change EStateM.bind p q c = _ ↔ _
  unfold EStateM.bind
  cases p c with
  | ok a c₁ => exact ⟨fun h => ⟨a, c₁, rfl, h⟩, fun ⟨_, _, eq, h⟩ => by cases eq; exact h⟩
  | error e c₁ => simp

/-- After a first part that succeeds, the second decides. -/
theorem bind_of_ok {p : Parser α} {q : α → Parser β} {a : α} (h : p c = .ok a c') :
    (p >>= q) c = q a c' := by
  change EStateM.bind p q c = _
  rw [EStateM.bind, h]

theorem pure_ok {a b : α} : (pure a : Parser α) c = .ok b c' ↔ a = b ∧ c = c' := by
  change EStateM.Result.ok a c = _ ↔ _
  simp

theorem map_ok {f : α → β} {p : Parser α} {b : β} :
    (f <$> p) c = .ok b c' ↔ ∃ a, p c = .ok a c' ∧ f a = b := by
  change EStateM.map f p c = _ ↔ _
  unfold EStateM.map
  cases p c with
  | ok a c₁ =>
    exact ⟨fun h => by cases h; exact ⟨a, rfl, rfl⟩, fun ⟨_, eq, h⟩ => by cases eq; cases h; rfl⟩
  | error e c₁ => simp

theorem look_bind {f : List TokenTree → α} {q : α → Parser β} :
    (look f >>= q) c = q (f c.rest) c :=
  rfl

theorem look_bind_ok {f : List TokenTree → α} {q : α → Parser β} {b : β} :
    (look f >>= q) c = .ok b c' ↔ q (f c.rest) c = .ok b c' :=
  Iff.rfl

/-- The two ways past a question. -/
theorem look_ite_ok {f : List TokenTree → Bool} {p q : Parser α} {a : α} :
    (look f >>= fun b => if b = true then p else q) c = .ok a c' ↔
      (f c.rest = true ∧ p c = .ok a c') ∨ (f c.rest = false ∧ q c = .ok a c') := by
  rw [look_bind_ok]
  cases f c.rest <;> simp

theorem look_yes {f : List TokenTree → Bool} {p q : Parser α} (on : f c.rest = true) :
    (look f >>= fun b => if b = true then p else q) c = p c := by
  rw [look_bind, if_pos on]

theorem look_no {f : List TokenTree → Bool} {p q : Parser α} (off : f c.rest = false) :
    (look f >>= fun b => if b = true then p else q) c = q c := by
  rw [look_bind, off, if_neg Bool.false_ne_true]

theorem fail_ok {f : ParseFault} {a : α} : (fail f : Parser α) c = .ok a c' ↔ False := by
  simp [fail]

theorem failNoneOf_ok {es : List Expectation} {a : α} :
    (failNoneOf es : Parser α) c = .ok a c' ↔ False := by
  simp [failNoneOf]

theorem atEnd_ok {u : Unit} : atEnd c = .ok u c' ↔ c.rest = [] ∧ c = c' := by
  unfold atEnd
  cases h : c.rest <;> simp

theorem remaining_ok {ts : List TokenTree} (h : remaining c = .ok ts c') :
    ts = c.rest ∧ c'.rest = [] := by
  unfold remaining at h
  cases h
  simp [Cursor.skip]

/-! ## Tokens and groups -/

theorem take_ok {e : Expectation} {t : Token} (h : take e c = .ok t c') :
    c.rest = .token t :: c'.rest ∧ e.isMet c.rest = true := by
  unfold take at h
  split at h
  · rename_i t' ts eq
    split at h
    · rename_i met
      cases h
      exact ⟨by simp [eq, Cursor.skip], met⟩
    · cases h
  · cases h

theorem anyWord_ok {t : Token} (h : anyWord c = .ok t c') :
    c.rest = .token t :: c'.rest ∧ (t.kind = .identifier ∨ t.kind = .keyword) := by
  unfold anyWord at h
  split at h
  · rename_i t' ts eq
    split at h
    · rename_i word
      cases h
      exact ⟨by simp [eq, Cursor.skip], word⟩
    · cases h
  · cases h

theorem advance_takes {t : TokenTree} {ts : List TokenTree} (ahead : c.rest = t :: ts) :
    advance c = .ok t (c.skip 1) := by
  rw [advance, ahead]

/-- One tree for each of some characters is as many trees at once, if there are as many. -/
theorem advanceFor_takes (last : TokenTree) {cs : List Char} (enough : cs.length ≤ c.rest.length) :
    advanceFor last cs c = .ok ((c.rest.take cs.length).getLastD last) (c.skip cs.length) := by
  induction cs generalizing c last with
  | nil => rfl
  | cons b cs ih =>
    cases ahead : c.rest with
    | nil => simp [ahead] at enough
    | cons next ts =>
      have rest : (c.skip 1).rest = ts := by simp [Cursor.skip, ahead]
      have enough' : cs.length ≤ (c.skip 1).rest.length := by
        simpa [rest, ahead] using enough
      rw [advanceFor, bind_of_ok (advance_takes ahead), ih next enough', rest, Cursor.skip_skip,
        List.length_cons, List.take_succ_cons, List.getLastD_cons, Nat.add_comm 1]

/-- An operator is no longer than the trees that begin with it. -/
theorem length_of_startsChars {cs : List Char} {ts : List TokenTree}
    (h : startsChars cs ts = true) : cs.length ≤ ts.length := by
  induction cs generalizing ts with
  | nil => exact Nat.zero_le _
  | cons c cs ih =>
    match ts with
    | .token t :: ts =>
      simp only [startsChars, Bool.and_eq_true, Bool.or_eq_true, List.isEmpty_iff] at h
      obtain rfl | ⟨-, more⟩ := h.2
      · simp
      · exact Nat.succ_le_succ (ih more)

section Operators

variable {op : String} {first : TokenTree} {ts : List TokenTree}

theorem width_le_of_startsPunct (starts : startsPunct op c.rest = true)
    (ahead : c.rest = first :: ts) : max 1 op.length ≤ c.rest.length := by
  have long := length_of_startsChars starts
  rw [String.length_toList] at long
  exact Nat.max_le.2 ⟨by simp [ahead], long⟩

/-- An operator that is next is taken in single trees, which are as many as its characters. The
empty operator takes one tree. -/
theorem punct_takes (starts : startsPunct op c.rest = true) (ahead : c.rest = first :: ts) :
    punct op c =
      .ok (Token.punct op
          (first.span.join ((c.rest.take (max 1 op.length)).getLastD first).span))
        (c.skip (max 1 op.length)) := by
  have rest : (c.skip 1).rest = ts := by simp [Cursor.skip, ahead]
  have width : max 1 op.length = op.toList.tail.length + 1 := by
    rw [List.length_tail, String.length_toList]
    omega
  have enough : op.toList.tail.length ≤ (c.skip 1).rest.length := by
    have long := width_le_of_startsPunct starts ahead
    rw [width, ahead] at long
    simpa [rest] using long
  rw [punct, look_yes starts, bind_of_ok (advance_takes ahead),
    bind_of_ok (advanceFor_takes first enough), rest, Cursor.skip_skip, width, ahead,
    List.take_succ_cons, List.getLastD_cons, Nat.add_comm 1]
  rfl

/-- The empty operator is next also where no tree is left. -/
theorem punct_ends (starts : startsPunct op c.rest = true) (ahead : c.rest = []) :
    punct op c = .error (c.fault .unexpectedEnd) c := by
  rw [punct, look_yes starts]
  change EStateM.bind advance _ c = _
  rw [EStateM.bind, advance, ahead]

theorem punct_refuses (other : startsPunct op c.rest = false) :
    punct op c = .error (c.fault (.expected (.punct op))) c := by
  rw [punct, look_no other]
  rfl

end Operators

theorem punct_ok {op : String} {t : Token} (h : punct op c = .ok t c') :
    startsPunct op c.rest = true ∧ (∃ span, t = Token.punct op span) ∧
      c'.rest = c.rest.drop (max 1 op.length) := by
  cases starts : startsPunct op c.rest with
  | false =>
    rw [punct_refuses starts] at h
    cases h
  | true =>
    cases ahead : c.rest with
    | nil =>
      rw [punct_ends starts ahead] at h
      cases h
    | cons first ts =>
      rw [punct_takes starts ahead] at h
      cases h
      exact ⟨rfl, ⟨_, rfl⟩, by rw [Cursor.skip, ahead]⟩

theorem punct_text {op : String} {t : Token} (h : punct op c = .ok t c') : t.text = op := by
  obtain ⟨-, ⟨span, rfl⟩, -⟩ := punct_ok h
  rfl

theorem openGroup_ok {d : Delimiter} {delim : Delim} {inner : Cursor}
    (h : openGroup d c = .ok (delim, inner) c') :
    ∃ us o e, c.rest = .group d us o e :: c'.rest ∧ delim = ⟨d, o⟩ ∧
      inner = Cursor.ofTrees us e := by
  unfold openGroup at h
  split at h
  · rename_i d' us o e ts eq
    split at h
    · rename_i same
      subst same
      cases h
      exact ⟨us, o, e, by simp [eq, Cursor.skip], rfl, rfl⟩
    · cases h
  · cases h

theorem runAt_ok {inner : Cursor} {p : Parser α} {a : α} :
    runAt inner p c = .ok a c' ↔ c = c' ∧ ∃ c₁, p inner = .ok a c₁ := by
  unfold runAt
  cases p inner with
  | ok b c₁ => simp [and_comm]
  | error e c₁ => simp

theorem inGroup_ok {d : Delimiter} {p : Parser α} {delim : Delim} {a : α}
    (h : inGroup d p c = .ok (delim, a) c') :
    ∃ us o e c₁, c.rest = .group d us o e :: c'.rest ∧ delim = ⟨d, o⟩ ∧
      p (Cursor.ofTrees us e) = .ok a c₁ ∧ c₁.rest = [] := by
  simp only [inGroup, bind_ok, runAt_ok, pure_ok, atEnd_ok] at h
  obtain ⟨⟨delim', inner⟩, c₀, opened, a', c₂, ⟨rfl, c₁, b, c₃, run, _, _, ⟨empty, rfl⟩, rfl, rfl⟩,
    eq, rfl⟩ := h
  cases eq
  obtain ⟨us, o, e, rest, rfl, rfl⟩ := openGroup_ok opened
  exact ⟨us, o, e, _, rest, rfl, run, empty⟩

theorem rawGroup_ok {d : Delimiter} {delim : Delim} {tokens : List TokenTree}
    (h : inGroup d remaining c = .ok (delim, tokens) c') :
    ∃ o e, c.rest = .group d tokens o e :: c'.rest ∧ delim = ⟨d, o⟩ := by
  obtain ⟨us, o, e, c₁, eq, rfl, run, -⟩ := inGroup_ok h
  obtain ⟨rfl, -⟩ := remaining_ok run
  exact ⟨o, e, eq, rfl⟩

theorem anyGroup_ok {delim : Delim} {tokens : List TokenTree}
    (h : anyGroup c = .ok (delim, tokens) c') :
    ∃ d o e, c.rest = .group d tokens o e :: c'.rest ∧ delim = ⟨d, o⟩ ∧ d ≠ .invisible := by
  unfold anyGroup at h
  split at h
  · rename_i d us o e ts eq
    split at h
    · cases h
    · rename_i visible
      cases h
      exact ⟨d, o, e, by simp [eq, Cursor.skip], rfl, visible⟩
  · cases h

/-! ## Options -/

theorem punct?_ok {op : String} {t : Option Token} (h : punct? op c = .ok t c') :
    (t = none ∧ startsPunct op c.rest = false ∧ c = c') ∨
      ∃ s, t = some s ∧ punct op c = .ok s c' := by
  simp only [punct?, look_bind_ok] at h
  split at h
  · simp only [bind_ok, pure_ok] at h
    obtain ⟨s, c₁, run, rfl, rfl⟩ := h
    exact .inr ⟨s, rfl, run⟩
  · rename_i starts
    obtain ⟨rfl, rfl⟩ := pure_ok.1 h
    exact .inl ⟨rfl, by simpa using starts, rfl⟩

theorem keyword?_ok {word : String} {t : Option Token} (h : keyword? word c = .ok t c') :
    (t = none ∧ startsWord word c.rest = false ∧ c = c') ∨
      ∃ s, t = some s ∧ keyword word c = .ok s c' := by
  simp only [keyword?, look_bind_ok] at h
  split at h
  · simp only [bind_ok, pure_ok] at h
    obtain ⟨s, c₁, run, rfl, rfl⟩ := h
    exact .inr ⟨s, rfl, run⟩
  · rename_i starts
    obtain ⟨rfl, rfl⟩ := pure_ok.1 h
    exact .inl ⟨rfl, by simpa using starts, rfl⟩

/-! ## Lists -/

section Lists

variable {rule : ListRule} {item : Parser α}

theorem listAfter_stop {v : α} (off : rule.asks c.rest = false) :
    listAfter rule item v c = .ok (.last v) c :=
  look_no off

/-- The three ways in which a list goes on after a value. -/
theorem listFrom_ok {limit : Nat} {v : α} {p : Separated α}
    (h : listFrom rule item limit v c = .ok p c') :
    ∃ n, limit = n + 1 ∧
      ((rule.asks c.rest = false ∧ p = .last v ∧ c = c') ∨
        ∃ s c₁, rule.asks c.rest = true ∧ punct rule.separator c = .ok s c₁ ∧
          ((rule.again c₁.rest = false ∧ p = .cons v s .empty ∧ c₁ = c') ∨
            ∃ w c₂ q, rule.again c₁.rest = true ∧ item c₁ = .ok w c₂ ∧
              listFrom rule item n w c₂ = .ok q c' ∧ p = .cons v s q)) := by
  cases limit with
  | zero => simp [listFrom, fail_ok] at h
  | succ n =>
    refine ⟨n, rfl, ?_⟩
    simp only [listFrom, look_bind_ok] at h
    split at h
    · rename_i asks
      obtain ⟨s, c₁, separator, h⟩ := bind_ok.1 h
      rw [look_bind_ok] at h
      refine .inr ⟨s, c₁, asks, separator, ?_⟩
      split at h
      · rename_i again
        simp only [bind_ok, pure_ok] at h
        obtain ⟨w, c₂, first, q, c₃, rest, rfl, rfl⟩ := h
        exact .inr ⟨w, c₂, q, again, first, rest, rfl⟩
      · rename_i again
        obtain ⟨rfl, rfl⟩ := pure_ok.1 h
        exact .inl ⟨by simpa using again, rfl, rfl⟩
    · rename_i asks
      obtain ⟨rfl, rfl⟩ := pure_ok.1 h
      exact .inl ⟨by simpa using asks, rfl, rfl⟩

theorem list1_ok {p : Separated α} (h : list1 rule item c = .ok p c') :
    ∃ v c₁, item c = .ok v c₁ ∧ listFrom rule item (c₁.rest.length + 1) v c₁ = .ok p c' :=
  bind_ok.1 h

theorem list_ok {p : Separated α} (h : list rule item c = .ok p c') :
    (p = .empty ∧ rule.again c.rest = false ∧ c = c') ∨
      (rule.again c.rest = true ∧ list1 rule item c = .ok p c') := by
  simp only [list, look_bind_ok] at h
  split at h
  · rename_i again
    exact .inr ⟨again, h⟩
  · rename_i again
    obtain ⟨rfl, rfl⟩ := pure_ok.1 h
    exact .inl ⟨rfl, by simpa using again, rfl⟩

end Lists

end Parser

/-! ## Lifetimes and attributes -/

namespace Parse

open TypeGrammar.Parser

variable {c c' : Cursor}

theorem attributesUpTo_ok {limit : Nat} {as : List Attribute}
    (h : attributesUpTo limit c = .ok as c') :
    ∃ n, limit = n + 1 ∧
      ((as = [] ∧ startsAttribute c.rest = false ∧ c = c') ∨
        ∃ pound c₁ bracket tokens c₂ more, startsAttribute c.rest = true ∧
          punct "#" c = .ok pound c₁ ∧ inGroup .bracket remaining c₁ = .ok (bracket, tokens) c₂ ∧
          attributesUpTo n c₂ = .ok more c' ∧ as = ⟨pound, bracket, tokens⟩ :: more) := by
  cases limit with
  | zero => simp [attributesUpTo, fail_ok] at h
  | succ n =>
    refine ⟨n, rfl, ?_⟩
    simp only [attributesUpTo, look_bind_ok] at h
    split at h
    · rename_i starts
      simp only [bind_ok, pure_ok] at h
      obtain ⟨pound, c₁, mark, ⟨bracket, tokens⟩, c₂, group, more, c₃, rest, rfl, rfl⟩ := h
      exact .inr ⟨pound, c₁, bracket, tokens, c₂, more, starts, mark, group, rest, rfl⟩
    · rename_i starts
      obtain ⟨rfl, rfl⟩ := pure_ok.1 h
      exact .inl ⟨rfl, by simpa [startsAttribute] using starts, rfl⟩

theorem lifetime?_ok {l : Option Lifetime} (h : lifetime? c = .ok l c') :
    (l = none ∧ startsLifetime c.rest = false ∧ c = c') ∨
      ∃ t, l = some ⟨t⟩ ∧ Parser.lifetime c = .ok t c' := by
  simp only [lifetime?, look_bind_ok] at h
  split at h
  · simp only [lifetime, bind_ok, pure_ok] at h
    obtain ⟨_, _, ⟨t, _, run, rfl, rfl⟩, rfl, rfl⟩ := h
    exact .inr ⟨t, rfl, run⟩
  · rename_i starts
    obtain ⟨rfl, rfl⟩ := pure_ok.1 h
    exact .inl ⟨rfl, by simpa using starts, rfl⟩

theorem lifetime_ok {l : Lifetime} (h : lifetime c = .ok l c') :
    Parser.lifetime c = .ok l.token c' := by
  simp only [lifetime, bind_ok, pure_ok] at h
  obtain ⟨t, _, run, rfl, rfl⟩ := h
  exact run

/-- A lifetime definition: attributes, a lifetime, and perhaps a colon with bounds after it. -/
theorem lifetimeDef_ok {d : LifetimeDef} (h : lifetimeDef c = .ok d c') :
    ∃ c₁ c₂, attributes c = .ok d.attributes c₁ ∧ lifetime c₁ = .ok d.lifetime c₂ ∧
      ((d.colon = none ∧ d.bounds = .empty ∧ startsPunct ":" c₂.rest = false ∧ c₂ = c') ∨
        ∃ colon c₃, d.colon = some colon ∧ punct ":" c₂ = .ok colon c₃ ∧
          list boundsBeforeComma lifetime c₃ = .ok d.bounds c') := by
  simp only [lifetimeDef, bind_ok] at h
  obtain ⟨as, c₁, attrs, l, c₂, name, colon, c₃, mark, h⟩ := h
  obtain ⟨rfl, starts, rfl⟩ | ⟨s, rfl, run⟩ := punct?_ok mark
  · obtain ⟨rfl, rfl⟩ := pure_ok.1 h
    exact ⟨c₁, c₂, attrs, name, .inl ⟨rfl, rfl, starts, rfl⟩⟩
  · simp only [bind_ok, pure_ok] at h
    obtain ⟨bounds, _, rest, rfl, rfl⟩ := h
    exact ⟨c₁, c₂, attrs, name, .inr ⟨s, c₃, rfl, run, rest⟩⟩

theorem binder_ok {b : Binder} (h : binder c = .ok b c') :
    ∃ c₁ c₂ c₃, keyword "for" c = .ok b.forToken c₁ ∧ punct "<" c₁ = .ok b.lt c₂ ∧
      list beforeAngle lifetimeDef c₂ = .ok b.lifetimes c₃ ∧ punct ">" c₃ = .ok b.gt c' := by
  simp only [binder, bind_ok, pure_ok] at h
  obtain ⟨_, c₁, forToken, _, c₂, lt, _, c₃, lifetimes, _, _, gt, rfl, rfl⟩ := h
  exact ⟨c₁, c₂, c₃, forToken, lt, lifetimes, gt⟩

theorem abi_ok {a : Abi} (h : abi c = .ok a c') :
    ∃ c₁, keyword "extern" c = .ok a.externToken c₁ ∧
      ((a.name = none ∧ startsKind (· == .string) c₁.rest = false ∧ c₁ = c') ∨
        ∃ s, a.name = some s ∧ startsKind (· == .string) c₁.rest = true ∧
          literal c₁ = .ok s c') := by
  simp only [abi, ↓look_bind_ok, bind_ok] at h
  obtain ⟨_, c₁, word, h⟩ := h
  split at h
  · rename_i starts
    simp only [bind_ok, pure_ok] at h
    obtain ⟨s, _, name, rfl, rfl⟩ := h
    exact ⟨c₁, word, .inr ⟨s, rfl, starts, name⟩⟩
  · rename_i starts
    obtain ⟨rfl, rfl⟩ := pure_ok.1 h
    exact ⟨c₁, word, .inl ⟨rfl, by simpa using starts, rfl⟩⟩

theorem binder?_ok {b : Option Binder} (h : binder? c = .ok b c') :
    (b = none ∧ startsWord "for" c.rest = false ∧ c = c') ∨
      ∃ b', b = some b' ∧ binder c = .ok b' c' := by
  simp only [binder?, look_bind_ok] at h
  split at h
  · simp only [bind_ok, pure_ok] at h
    obtain ⟨b', _, run, rfl, rfl⟩ := h
    exact .inr ⟨b', rfl, run⟩
  · rename_i starts
    obtain ⟨rfl, rfl⟩ := pure_ok.1 h
    exact .inl ⟨rfl, by simpa using starts, rfl⟩

end Parse

end TypeGrammar
