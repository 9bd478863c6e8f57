import TypeGrammar.Proofs.Outcomes
import TypeGrammar.Proofs.ReadingTypes

/-!
# Types with and without a `+`

A type is read with or without leave to go on at a `+`. Without it a trait object has one bound, and
the `+` is left to whoever asked for the type; only a bound with `?` in parentheses takes further
bounds all the same. Beyond that the leave matters at a `+` only: a type that does not end in front
of one is read alike in both ways, and with leave a type ends no earlier.
-/

namespace TypeGrammar

open TokenTree

namespace Parse

open TypeGrammar.Parser

variable {g : Grammar} {c c' : Cursor} {t : Ty} {dynToken : Option Token}
  {bounds : Node (.list .bound)}

/-! ## Trait objects without further bounds -/

theorem traitObject_single (h : traitObject g false c = .ok t c') :
    ∃ dynToken b, t = .traitObject dynToken (.last b) := by
  unfold traitObject at h
  simp only [bind_ok] at h
  obtain ⟨dynToken, _, -, bounds, _, run, h⟩ := h
  obtain ⟨b, -, rfl⟩ := map_ok.1 run
  split at h
  · obtain ⟨rfl, -⟩ := pure_ok.1 h
    exact ⟨dynToken, b, rfl⟩
  · simp [fail_ok] at h

/-- A binder does not change how many bounds there are. -/
theorem withBinder_single {binder : Binder} {b : Bound}
    (h : withBinder binder (.traitObject dynToken (.last b)) c = .ok t c') :
    ∃ b', t = .traitObject dynToken (.last b') := by
  cases b with
  | traitBound paren modifier old p => exact ⟨_, (pure_ok.1 h).1.symm⟩
  | lifetimeBound l => exact (fail_ok.1 h).elim

theorem pathLike_single {binder : Option Binder}
    (h : pathLike g binder false c = .ok (.traitObject dynToken bounds) c') :
    ∃ b, bounds = .last b := by
  unfold pathLike at h
  simp only [↓look_ite_ok, bind_ok] at h
  obtain ⟨-, object, c₁, run, h⟩ | ⟨-, ⟨self, p⟩, c₁, -, h⟩ := h
  · obtain ⟨dynToken', b, rfl⟩ := traitObject_single run
    cases binder with
    | none =>
      obtain ⟨eq, -⟩ := pure_ok.1 h
      cases eq
      exact ⟨b, rfl⟩
    | some binder =>
      obtain ⟨b', eq⟩ := withBinder_single h
      cases eq
      exact ⟨b', rfl⟩
  · split at h
    · cases (pure_ok.1 h).1
    · simp only [↓look_ite_ok, bind_ok, pure_ok] at h
      obtain ⟨-, _, _, -, ⟨⟩, -⟩ | ⟨-, ⟨-, h⟩ | ⟨-, ⟨⟩, -⟩⟩ := h
      rw [if_neg Bool.false_ne_true] at h
      obtain ⟨eq, -⟩ := pure_ok.1 h
      cases eq
      exact ⟨_, rfl⟩

/-- In front of a trait object that starts with parentheses stands a bound with `?` in them. -/
theorem parenthesized_single
    (h : parenthesized g false c = .ok (.traitObject dynToken bounds) c') :
    dynToken = none ∧ bounds.separated.trailing = false ∧ ∃ us o e more,
      c.rest = .group .paren us o e :: more ∧ startsPunct "?" us = true := by
  simp only [parenthesized, bind_ok] at h
  obtain ⟨⟨paren, x⟩, c₁, group, h⟩ := h
  cases x with
  | tuple elems => cases (pure_ok.1 h).1
  | object elem => cases (pure_ok.1 h).1
  | bound first =>
    obtain ⟨us, o, e, c₂, eq, -, run, -⟩ := inGroup_ok group
    simp only [objectAfter, bind_ok, pure_ok] at h
    obtain ⟨bounds, _, more, ⟨⟩, -⟩ := h
    have ends := listFrom_ends (fun _ => rfl) more
    rw [Separated.acceptsValue_eq, Bool.or_eq_false_iff] at ends
    refine ⟨rfl, ?_, us, o, e, _, eq, (parenContents_bound run).1⟩
    rw [Node.separated_ofSeparated]
    exact ends.2
  | type elem =>
    simp only [↓look_ite_ok, pure_ok] at h
    obtain ⟨⟨⟩, -⟩ | ⟨-, ⟨⟩, -⟩ := h

end Parse

/-- Without leave to go on at a `+` a trait object has one bound, unless it starts with a bound with
`?` in parentheses; and no `+` ends it. -/
theorem parseType_single {c c' : Cursor} {dynToken : Option Token} {bounds : Node (.list .bound)}
    (h : parseType false c = .ok (.traitObject dynToken bounds) c') :
    bounds.separated.trailing = false ∧ ((∃ b, bounds = .last b) ∨
      dynToken = none ∧ ∃ us o e more, c.rest = .group .paren us o e :: more ∧
        startsPunct "?" us = true) := by
  obtain h | ⟨binder, c₁, h | ⟨-, h⟩⟩ := Parse.type_object h
  · obtain ⟨noDyn, ends, starts⟩ := Parse.parenthesized_single h
    exact ⟨ends, .inr ⟨noDyn, starts⟩⟩
  · obtain ⟨b, rfl⟩ := Parse.pathLike_single h
    exact ⟨rfl, .inl ⟨b, rfl⟩⟩
  · obtain ⟨_, b, eq⟩ := Parse.traitObject_single h
    cases eq
    exact ⟨rfl, .inl ⟨b, rfl⟩⟩

/-- The path of one identifier outside any file. -/
def Node.ofName (text : String) : Path :=
  .path none (.last (.segment ⟨.identifier, text, .callSite, false⟩ .noArguments))

theorem parseType_single_dyn :
    ∃ c c' dynToken bounds, parseType false c = .ok (.traitObject dynToken bounds) c' ∧
      startsPunct "+" c'.rest = true ∧ bounds.separated.trailing = false ∧
      ((∃ b, bounds = .last b) ∨ dynToken = none ∧ ∃ us o e more,
        c.rest = .group .paren us o e :: more ∧ startsPunct "?" us = true) := by
  let word (text : String) : Token := ⟨.identifier, text, .callSite, false⟩
  have run : parseType false (.ofTrees [.token (word "dyn"), .token (word "A"),
      .token (.punct "+" .callSite), .token (word "B")] .callSite) =
        .ok (.traitObject (some (word "dyn")) (.last (.traitBound none none none (.ofName "A"))))
          ⟨2, [.token (.punct "+" .callSite), .token (word "B")], .callSite⟩ := by rfl
  exact ⟨_, _, _, _, run, rfl, parseType_single run⟩

/-- A bound with `?` in parentheses takes a further bound without leave. -/
theorem query_takes_plus :
    ∃ c c' bounds, parseType false c = .ok (.traitObject none bounds) c' ∧
      bounds.separated.toList.length = 2 := by
  let word (text : String) : Token := ⟨.identifier, text, .callSite, false⟩
  exact ⟨.ofTrees [.group .paren [.token (.punct "?" .callSite), .token (word "A")] .callSite
      .callSite, .token (.punct "+" .callSite), .token (word "B")] .callSite, _,
    .cons (.traitBound (some ⟨.paren, .callSite⟩) (some (.punct "?" .callSite)) none (.ofName "A"))
      (.punct "+" .callSite) (.last (.traitBound none none none (.ofName "B"))), by rfl, rfl⟩

/-! ## Two ways to read -/

/-- A parser with and without leave to go on at a `+`. What is read without leave is read with it,
too, if it does not end in front of a `+`; and with leave nothing ends earlier. -/
structure Extends {α : Type} (p : Bool → Parser α) : Prop where
  same : ∀ {c a c'}, p false c = .ok a c' → startsPunct "+" c'.rest = false → p true c = .ok a c'
  further : ∀ {c a c' b c''}, p false c = .ok a c' → p true c = .ok b c'' → c'.pos ≤ c''.pos

namespace Extends

variable {α β : Type}

open TypeGrammar.Parser

/-- A parser that never moves the cursor. -/
def Still (p : Parser α) : Prop :=
  ∀ ⦃c a c'⦄, p c = .ok a c' → c' = c

/-- A parser that never moves the cursor back. -/
def Forward (p : Parser α) : Prop :=
  ∀ ⦃c a c'⦄, p c = .ok a c' → c.pos ≤ c'.pos

theorem Still.pure (a : α) : Still (Pure.pure a : Parser α) :=
  fun _ _ _ h => (pure_ok.1 h).2.symm

theorem Still.fail (f : ParseFault) : Still (Parser.fail f : Parser α) :=
  fun _ _ _ h => (fail_ok.1 h).elim

theorem Still.forward {p : Parser α} (h : Still p) : Forward p :=
  fun _ _ _ run => Nat.le_of_eq (congrArg Cursor.pos (h run).symm)

theorem Forward.of_settled {p : Parser α} {least : Nat} {P : α → Prop}
    (h : ∀ c, Settled least P c (p c)) : Forward p := by
  intro c a c' run
  have settled := h c
  rw [run] at settled
  obtain ⟨n, -, -, rfl, -⟩ := settled
  exact Nat.le_add_right c.pos n

theorem Forward.bind {p : Parser α} {q : α → Parser β} (first : Forward p)
    (second : ∀ a, Forward (q a)) : Forward (p >>= q) := by
  intro c b c' run
  obtain ⟨a, c₁, run, run'⟩ := bind_ok.1 run
  exact Nat.le_trans (first run) (second a run')

theorem Forward.punct (op : String) : Forward (Parser.punct op) :=
  .of_settled fun c => (punct_settles op (Nat.lt_succ_self c.size)).2

theorem Forward.listAfter {rule : ListRule} {item : Parser α} (h : Forward item) (v : α) :
    Forward (Parser.listAfter rule item v) := by
  have loop : ∀ limit v, Forward (listFrom rule item limit v) := by
    intro limit
    induction limit with
    | zero => exact fun v => (Still.fail _).forward
    | succ limit ih =>
      intro v c xs c' run
      obtain ⟨n, eq, ⟨-, -, rfl⟩ | ⟨s, c₁, -, mark, ⟨-, -, rfl⟩ | ⟨w, c₂, q, -, next, rest, -⟩⟩⟩ :=
        listFrom_ok run
      · exact Nat.le_refl _
      · exact Forward.punct _ mark
      · cases eq
        exact Nat.le_trans (Forward.punct _ mark) (Nat.le_trans (h next) (ih w rest))
  exact fun _ _ _ run => loop _ v run

/-- What does not depend on the leave. -/
theorem const (p : Parser α) : Extends fun _ => p where
  same run _ := run
  further run run' := by
    rw [run] at run'
    cases run'
    exact Nat.le_refl _

theorem ite {f : List TokenTree → Bool} {p q : Bool → Parser α} (yes : Extends p)
    (no : Extends q) :
    Extends fun plus => look f >>= fun b => if b = true then p plus else q plus where
  same run off := by
    rw [look_ite_ok] at run ⊢
    exact run.imp (fun h => ⟨h.1, yes.same h.2 off⟩) fun h => ⟨h.1, no.same h.2 off⟩
  further run run' := by
    rw [look_ite_ok] at run run'
    obtain ⟨on, run⟩ | ⟨off, run⟩ := run <;> obtain ⟨on', run'⟩ | ⟨off', run'⟩ := run'
    · exact yes.further run run'
    · simp [on] at off'
    · simp [off] at on'
    · exact no.further run run'

/-- The leave matters after something that is read in any case. -/
theorem bind (p : Parser α) {q : Bool → α → Parser β} (h : ∀ a, Extends fun plus => q plus a) :
    Extends fun plus => p >>= q plus where
  same run off := by
    obtain ⟨a, c₁, first, run⟩ := bind_ok.1 run
    exact bind_ok.2 ⟨a, c₁, first, (h a).same run off⟩
  further run run' := by
    obtain ⟨a, c₁, first, run⟩ := bind_ok.1 run
    obtain ⟨a', c₁', first', run'⟩ := bind_ok.1 run'
    rw [first] at first'
    cases first'
    exact (h a).further run run'

/-- What was read is put into another form. -/
theorem keep {p : Bool → Parser α} (h : Extends p) {q : α → Parser β} (still : ∀ a, Still (q a)) :
    Extends fun plus => p plus >>= q where
  same run off := by
    obtain ⟨a, c₁, first, run⟩ := bind_ok.1 run
    obtain rfl := still a run
    exact bind_ok.2 ⟨a, _, h.same first off, run⟩
  further run run' := by
    obtain ⟨a, c₁, first, run⟩ := bind_ok.1 run
    obtain ⟨a', c₁', first', run'⟩ := bind_ok.1 run'
    obtain rfl := still a run
    obtain rfl := still a' run'
    exact h.further first first'

/-- The leave decides at a `+`. -/
theorem atPlus {p : Bool → Parser α} {q : Parser α} (forward : Forward (p true)) (still : Still q) :
    Extends fun plus =>
      look (fun ts => plus && startsPunct "+" ts) >>= fun b => if b = true then p plus else q where
  same run off := by
    obtain ⟨⟨⟩, -⟩ | ⟨-, run⟩ := look_ite_ok.1 run
    obtain rfl := still run
    exact look_ite_ok.2 (.inr ⟨off, run⟩)
  further run run' := by
    obtain ⟨⟨⟩, -⟩ | ⟨-, run⟩ := look_ite_ok.1 run
    obtain rfl := still run
    obtain ⟨-, run'⟩ | ⟨-, run'⟩ := look_ite_ok.1 run'
    · exact forward run'
    · exact still.forward run'

theorem congr {p q : Bool → Parser α} (h : Extends p) (eq : ∀ plus, p plus = q plus) :
    Extends q :=
  funext eq ▸ h

/-- Values that go on at a `+`, or stay alone. -/
theorem listAfter (rule : ListRule) {item : Parser α} (asks : rule.asks = startsPunct "+")
    (forward : Forward item) (v : α) :
    Extends fun plus =>
      if plus = true then Parser.listAfter rule item v else Pure.pure (.last v) where
  same run off := by
    obtain ⟨rfl, rfl⟩ := pure_ok.1 run
    rw [if_pos rfl]
    exact listAfter_stop (asks ▸ off)
  further run run' := by
    obtain ⟨-, rfl⟩ := pure_ok.1 run
    exact forward.listAfter v run'

end Extends

namespace Parse

open TypeGrammar.Parser Extends

variable {g : Grammar}

/-! ## Types -/

theorem withBinder_still (b : Binder) (t : Ty) : Still (withBinder b t) := by
  unfold withBinder
  split
  · split
    · exact .pure _
    · exact .fail _
  · exact .pure t

section

variable (forward : Forward (bound g))
include forward

theorem objectBounds_extends : Extends (objectBounds g) :=
  (Extends.bind (bound g) fun v => .listAfter boundsBeforeAngle rfl forward v).congr
    fun plus => by cases plus <;> rfl

theorem traitObject_extends : Extends (traitObject g) := by
  refine .bind _ fun dynToken => (objectBounds_extends forward).keep fun bounds => ?_
  split
  · exact .pure _
  · exact .fail _

theorem pathLike_extends (b : Option Binder) : Extends (pathLike g b) := by
  refine .ite ((traitObject_extends forward).keep fun object => ?_) <| .bind _ fun (self, p) => ?_
  · cases b with
    | none => exact .pure object
    | some b => exact withBinder_still b object
  dsimp only
  split
  · exact .const _
  refine .ite (.const _) ?_
  cases b with
  | some b =>
    -- behind a binder the path is a trait, and the leave decides about further bounds
    have object (first : Bound) : Extends fun plus =>
        if plus = true then Parser.listAfter boundsBeforeAngle (bound g) first >>= fun bounds =>
          pure (Node.traitObject none (.ofSeparated bounds))
        else pure (.last first) >>= fun bounds =>
          pure (Node.traitObject none (.ofSeparated bounds)) :=
      ((Extends.listAfter boundsBeforeAngle rfl forward first).keep
        fun _ => .pure _).congr fun plus => by cases plus <;> rfl
    exact (object _).congr fun _ => rfl
  | none =>
    refine .atPlus ?_ (.pure _)
    exact (forward.listAfter _).bind fun _ => (Still.pure _).forward

theorem parenthesized_extends : Extends (parenthesized g) := by
  refine .bind _ fun (paren, contents) => ?_
  cases contents with
  | tuple elems => exact .const _
  | object elem => exact .const _
  | bound b => exact .const _
  | type elem =>
    refine .atPlus ?_ (.pure _)
    split
    · exact (forward.listAfter _).bind fun _ => (Still.pure _).forward
    · exact (Still.pure _).forward

theorem type_extends : Extends (type g) :=
  .ite (.const _) <| .bind _ fun b => .ite (parenthesized_extends forward) <| .ite (.const _) <|
    .ite (pathLike_extends forward b) <| .ite (.const _) <| .ite (.const _) <| .ite (.const _) <|
    .ite (.const _) <| .ite (.const _) <| .ite (.const _) <| .ite (traitObject_extends forward)
    (.const _)

end

end Parse

/-- Leave to go on at a `+` matters at a `+` only: a type that does not end in front of one is read
alike with it and without it. Where both ways read a type, the one with leave reads as far as the
other or further. -/
theorem parseType_plus (c : Cursor) :
    (∀ t c', parseType false c = .ok t c' → startsPunct "+" c'.rest = false →
      parseType true c = .ok t c') ∧
    ∀ t c' u c'', parseType false c = .ok t c' → parseType true c = .ok u c'' →
      c'.pos ≤ c''.pos := by
  have bound : Extends.Forward (Parse.bound Grammar.whole) := by
    have deep : Parser.deep Parse.bound = Parse.bound Grammar.whole :=
      congrArg Grammar.bound Grammar.whole_eq_above
    rw [← deep]
    exact .of_settled (Parser.settled_deep fun h => (Parse.bound_settles h).smaller)
  have extend : Extends parseType := by
    have whole : parseType = Parse.type Grammar.whole :=
      congrArg Grammar.type Grammar.whole_eq_above
    rw [whole]
    exact Parse.type_extends bound
  exact ⟨fun t c' run off => extend.same run off,
    fun t c' u c'' run run' => extend.further run run'⟩

/-- In front of a comma a path is read alike; in front of a `+` it is a trait object with leave. -/
theorem parseType_plus_path :
    (∃ c t c', parseType false c = .ok t c' ∧ startsPunct "+" c'.rest = false ∧
      parseType true c = .ok t c') ∧
    ∃ c t c' u c'', parseType false c = .ok t c' ∧ parseType true c = .ok u c'' ∧ t ≠ u ∧
      c'.pos ≤ c''.pos := by
  let word (text : String) : TokenTree := .token ⟨.identifier, text, .callSite, false⟩
  let mark (op : String) : TokenTree := .token (.punct op .callSite)
  have comma : parseType false (.ofTrees [word "A", mark ","] .callSite) =
      .ok (.pathType .unqualified (.ofName "A")) ⟨1, [mark ","], .callSite⟩ := by rfl
  have without : parseType false (.ofTrees [word "A", mark "+", word "B"] .callSite) =
      .ok (.pathType .unqualified (.ofName "A")) ⟨1, [mark "+", word "B"], .callSite⟩ := by rfl
  have leave : parseType true (.ofTrees [word "A", mark "+", word "B"] .callSite) =
      .ok (.traitObject none (.cons (.traitBound none none none (.ofName "A"))
        (.punct "+" .callSite) (.last (.traitBound none none none (.ofName "B")))))
        ⟨3, [], .callSite⟩ := by rfl
  exact ⟨⟨_, _, _, comma, rfl, (parseType_plus _).1 _ _ comma rfl⟩, _, _, _, _, _, without, leave,
    by decide, (parseType_plus _).2 _ _ _ _ without leave⟩

end TypeGrammar
