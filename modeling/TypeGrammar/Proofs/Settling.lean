import TypeGrammar.Proofs.Runs

/-!
# Runs that settle

A parser settles if each of its runs ends in a value or in an error about the trees. A value comes
with a number of trees that were taken, and with a property; an error is not about the depth, so the
bound on the depth is never what ends a run. Two parsers that differ in the depth to which they read
settle together if they agree on all cursors that are small enough.

The rules follow the combinators: what comes after a taken tree has fewer trees ahead, and so have
the contents of a group. So a parser that is written with `do` settles if its parts do.
-/

namespace TypeGrammar

open TokenTree

/-- The end of a run from `c`: at least `least` trees are taken and the value has the property `P`,
or there is an error that is not about the depth. -/
def Settled {α : Type} (least : Nat) (P : α → Prop) (c : Cursor) :
    EStateM.Result ParseError Cursor α → Prop
  | .ok a c' => ∃ n, least ≤ n ∧ n ≤ c.rest.length ∧ c' = c.skip n ∧ P a
  | .error e _ => e.fault ≠ .tooDeep

/-- Two parsers do the same at a cursor, and the run settles. -/
def SettlesAt {α : Type} (least : Nat) (c : Cursor) (p p' : Parser α) (P : α → Prop) : Prop :=
  p' c = p c ∧ Settled least P c (p c)

/-- Two parsers do the same at all cursors with fewer than `size` trees ahead, those inside of
groups included, and their runs settle. -/
def Settles {α : Type} (least size : Nat) (p p' : Parser α) (P : α → Prop) : Prop :=
  ∀ ⦃c : Cursor⦄, c.size < size → SettlesAt least c p p' P

namespace Cursor

theorem sizeAll_drop {ts : List TokenTree} {n : Nat} (h : n ≤ ts.length) :
    sizeAll (ts.drop n) + n ≤ sizeAll ts := by
  induction ts generalizing n with
  | nil =>
    obtain rfl := Nat.le_zero.1 h
    exact Nat.le_refl _
  | cons t ts ih =>
    cases n with
    | zero => exact Nat.le_refl _
    | succ n =>
      have less := ih (Nat.le_of_succ_le_succ h)
      have positive : 0 < t.size := by
        cases t <;> simp only [TokenTree.size] <;> omega
      simp only [List.drop_succ_cons, sizeAll]
      omega

/-- Every tree that is taken makes the cursor smaller. -/
theorem size_skip {c : Cursor} {n : Nat} (h : n ≤ c.rest.length) : (c.skip n).size + n ≤ c.size :=
  sizeAll_drop h

theorem length_skip (c : Cursor) (n : Nat) : (c.skip n).rest.length = c.rest.length - n :=
  List.length_drop

end Cursor

/-- A run that settles leaves fewer trees ahead, by those that it took. -/
theorem Settled.length {α : Type} {least : Nat} {P : α → Prop} {c c' : Cursor} {x : α}
    (h : Settled least P c (.ok x c')) : c'.rest.length + least ≤ c.rest.length := by
  obtain ⟨n, enough, inside, rfl, -⟩ := h
  rw [Cursor.length_skip]
  omega

theorem SettlesAt.bind {α β : Type} {a b : Nat} {c : Cursor} {p p' : Parser α}
    {q q' : α → Parser β} {P : α → Prop} {Q : β → Prop} (first : SettlesAt a c p p' P)
    (second : ∀ x i, a ≤ i → i ≤ c.rest.length → P x → SettlesAt b (c.skip i) (q x) (q' x) Q) :
    SettlesAt (a + b) c (p >>= q) (p' >>= q') Q := by
  obtain ⟨same, settled⟩ := first
  change EStateM.bind p' q' c = EStateM.bind p q c ∧ Settled (a + b) Q c (EStateM.bind p q c)
  unfold EStateM.bind
  rw [same]
  cases run : p c with
  | error e c' =>
    rw [run] at settled
    exact ⟨rfl, settled⟩
  | ok x c' =>
    rw [run] at settled
    obtain ⟨i, enough, inside, rfl, value⟩ := settled
    obtain ⟨same', settled'⟩ := second x i enough inside value
    refine ⟨same', ?_⟩
    dsimp only
    cases run' : q x (c.skip i) with
    | error e c' =>
      rw [run'] at settled'
      exact settled'
    | ok y c' =>
      rw [run'] at settled'
      obtain ⟨j, enough', inside', rfl, value'⟩ := settled'
      rw [Cursor.length_skip] at inside'
      exact ⟨i + j, by omega, by omega, Cursor.skip_skip c i j, value'⟩

theorem SettlesAt.pure {α : Type} {c : Cursor} {P : α → Prop} {x : α} (value : P x) :
    SettlesAt 0 c (Pure.pure x) (Pure.pure x) P :=
  ⟨rfl, 0, Nat.le_refl 0, Nat.zero_le _, by simp [Cursor.skip], value⟩

theorem SettlesAt.look {α γ : Type} {a : Nat} {c : Cursor} {f : List TokenTree → γ}
    {q q' : γ → Parser α} {P : α → Prop} (h : SettlesAt a c (q (f c.rest)) (q' (f c.rest)) P) :
    SettlesAt a c (Parser.look f >>= q) (Parser.look f >>= q') P :=
  h

theorem SettlesAt.mono {α : Type} {a b : Nat} {c : Cursor} {p p' : Parser α} {P P' : α → Prop}
    (h : SettlesAt a c p p' P) (least : b ≤ a) (result : ∀ x, P x → P' x) :
    SettlesAt b c p p' P' := by
  obtain ⟨same, settled⟩ := h
  refine ⟨same, ?_⟩
  cases run : p c with
  | ok x c' =>
    rw [run] at settled
    obtain ⟨k, enough, inside, rfl, value⟩ := settled
    exact ⟨k, Nat.le_trans least enough, inside, rfl, result x value⟩
  | error e c' =>
    rw [run] at settled
    exact settled

namespace Settles

variable {α β : Type} {a b m n : Nat} {p p' p₁ p₁' : Parser α} {q q' : α → Parser β}
  {P P' : α → Prop} {Q : β → Prop}

/-! ## Rules -/

theorem mono (h : Settles a n p p' P) (least : b ≤ a) (size : m ≤ n) (result : ∀ x, P x → P' x) :
    Settles b m p p' P' :=
  fun _ small => (h (Nat.lt_of_lt_of_le small size)).mono least result

theorem weaken (h : Settles a n p p' P) (result : ∀ x, P x → P' x) : Settles a n p p' P' :=
  h.mono (Nat.le_refl a) (Nat.le_refl n) result

theorem smaller (h : Settles a (n + 1) p p' P) : Settles a n p p' P :=
  h.mono (Nat.le_refl a) (Nat.le_succ n) fun _ => id

theorem any (h : Settles a n p p' P) : Settles 0 n p p' P :=
  h.mono (Nat.zero_le a) (Nat.le_refl n) fun _ => id

theorem pure {x : α} (value : P x) : Settles 0 n (Pure.pure x) (Pure.pure x) P :=
  fun _ _ => .pure value

theorem fail {f : ParseFault} (shallow : f ≠ .tooDeep) :
    Settles a n (Parser.fail f : Parser α) (Parser.fail f) P :=
  fun _ _ => ⟨rfl, shallow⟩

theorem failNoneOf {es : List Expectation} :
    Settles a n (Parser.failNoneOf es : Parser α) (Parser.failNoneOf es) P :=
  fun _ _ => ⟨rfl, by simp [Parser.failNoneOf, Settled, Cursor.fault]⟩

/-- One parser after another. What comes after taken trees is run at a smaller cursor. -/
theorem bindAt {k : Nat} (first : Settles a n p p' P) (size : n ≤ k + a)
    (second : ∀ x, P x → Settles b k (q x) (q' x) Q) :
    Settles (a + b) n (p >>= q) (p' >>= q') Q := by
  intro c small
  refine (first small).bind fun x i enough inside value => ?_
  have less := Cursor.size_skip inside
  exact second x value (by omega)

/-- The second parser takes what has to be taken. -/
theorem bind (first : Settles a n p p' P) (second : ∀ x, P x → Settles b n (q x) (q' x) Q) :
    Settles b n (p >>= q) (p' >>= q') Q :=
  (first.bindAt (Nat.le_add_right n a) second).mono (Nat.le_add_left b a) (Nat.le_refl n)
    fun _ => id

/-- The first parser takes what has to be taken. -/
theorem keep (first : Settles a n p p' P) (second : ∀ x, P x → Settles b n (q x) (q' x) Q) :
    Settles a n (p >>= q) (p' >>= q') Q :=
  (first.bindAt (Nat.le_add_right n a) second).mono (Nat.le_add_right a b) (Nat.le_refl n)
    fun _ => id

/-- The first parser takes a tree, so the second one is run at a smaller cursor. -/
theorem next (first : Settles 1 (n + 1) p p' P) (second : ∀ x, P x → Settles b n (q x) (q' x) Q) :
    Settles 1 (n + 1) (p >>= q) (p' >>= q') Q :=
  (first.bindAt (Nat.le_refl _) second).mono (Nat.le_add_right 1 b) (Nat.le_refl _) fun _ => id

theorem returning {f : α → β} (h : Settles a n p p' P) (result : ∀ x, P x → Q (f x)) :
    Settles a n (p >>= fun x => Pure.pure (f x)) (p' >>= fun x => Pure.pure (f x)) Q :=
  h.keep fun x value => .pure (result x value)

theorem map {f : α → β} (h : Settles a n p p' P) (result : ∀ x, P x → Q (f x)) :
    Settles a n (f <$> p) (f <$> p') Q :=
  h.returning result

theorem look {γ : Type} {f : List TokenTree → γ} {q q' : γ → Parser α}
    (h : ∀ ts, Settles a n (q (f ts)) (q' (f ts)) P) :
    Settles a n (Parser.look f >>= q) (Parser.look f >>= q') P :=
  fun c small => h c.rest small

/-- The two ways past a question. -/
theorem ite {f : List TokenTree → Bool}
    (yes : ∀ ts, f ts = true → Settles a n p p' P)
    (no : ∀ ts, f ts = false → Settles a n p₁ p₁' P) :
    Settles a n (Parser.look f >>= fun x => if x = true then p else p₁)
      (Parser.look f >>= fun x => if x = true then p' else p₁') P := by
  refine .look fun ts => ?_
  cases answer : f ts with
  | true => simpa using yes ts answer
  | false => simpa using no ts answer

end Settles

namespace Parser

variable {α : Type} {a n : Nat} {p p' : Parser α} {P : α → Prop}

/-! ## Primitives -/

theorem take_settles (e : Expectation) : Settles 1 n (take e) (take e) fun _ => True := by
  intro c _
  refine ⟨rfl, ?_⟩
  unfold take
  split
  · rename_i eq
    split
    · exact ⟨1, Nat.le_refl 1, by simp [eq], rfl, trivial⟩
    · simp [Settled, Cursor.fault]
  · simp [Settled, Cursor.fault]

theorem anyWord_settles : Settles 1 n anyWord anyWord fun _ => True := by
  intro c _
  refine ⟨rfl, ?_⟩
  unfold anyWord
  split
  · rename_i eq
    split
    · exact ⟨1, Nat.le_refl 1, by simp [eq], rfl, trivial⟩
    · simp [Settled, Cursor.fault]
  · simp [Settled, Cursor.fault]

theorem punct_settles (op : String) : Settles 1 n (punct op) (punct op) fun _ => True := by
  intro c _
  refine ⟨rfl, ?_⟩
  cases starts : startsPunct op c.rest with
  | false => simp [punct_refuses starts, Settled, Cursor.fault]
  | true =>
    cases ahead : c.rest with
    | nil => simp [punct_ends starts ahead, Settled, Cursor.fault]
    | cons first ts =>
      have enough := width_le_of_startsPunct starts ahead
      rw [punct_takes starts ahead]
      exact ⟨max 1 op.length, Nat.le_max_left .., enough, rfl, trivial⟩

theorem anyGroup_settles : Settles 1 n anyGroup anyGroup fun _ => True := by
  intro c _
  refine ⟨rfl, ?_⟩
  unfold anyGroup
  split
  · rename_i eq
    split
    · simp [Settled, Cursor.fault]
    · exact ⟨1, Nat.le_refl 1, by simp [eq], rfl, trivial⟩
  · simp [Settled, Cursor.fault]

theorem remaining_settles : Settles 0 n remaining remaining fun _ => True :=
  fun c _ => ⟨rfl, c.rest.length, Nat.zero_le _, Nat.le_refl _, rfl, trivial⟩

theorem punct?_settles (op : String) : Settles 0 n (punct? op) (punct? op) fun _ => True :=
  .ite (fun _ _ => ((punct_settles op).returning fun _ => id).any) fun _ _ => .pure trivial

theorem keyword?_settles (word : String) :
    Settles 0 n (keyword? word) (keyword? word) fun _ => True :=
  .ite (fun _ _ => ((take_settles _).returning fun _ => id).any) fun _ _ => .pure trivial

theorem atEnd_settles : Settles 0 n atEnd atEnd fun _ => True := by
  intro c _
  refine ⟨rfl, ?_⟩
  unfold atEnd
  split
  · exact ⟨0, Nat.le_refl 0, Nat.zero_le _, by simp [Cursor.skip], trivial⟩
  · simp [Settled, Cursor.fault]

/-- A parser at another cursor leaves the first one where it is. -/
theorem runAt_settles {inner c : Cursor} (h : SettlesAt a inner p p' P) :
    SettlesAt 0 c (runAt inner p) (runAt inner p') P := by
  obtain ⟨same, settled⟩ := h
  unfold SettlesAt runAt
  rw [same]
  refine ⟨rfl, ?_⟩
  cases run : p inner with
  | ok x c' =>
    rw [run] at settled
    obtain ⟨-, -, -, -, value⟩ := settled
    exact ⟨0, Nat.le_refl 0, Nat.zero_le _, by simp [Cursor.skip], value⟩
  | error e c' =>
    rw [run] at settled
    exact settled

/-- The contents of a group are smaller than the group. -/
theorem inGroup_settles (d : Delimiter) (h : Settles a n p p' P) :
    Settles 1 (n + 1) (inGroup d p) (inGroup d p') fun x => P x.2 := by
  have opens : Settles 1 (n + 1) (openGroup d) (openGroup d) fun x => x.2.size < n := by
    intro c small
    refine ⟨rfl, ?_⟩
    unfold openGroup
    split
    · rename_i d' us o e ts eq
      have inside : sizeAll us < n := by
        simp only [Cursor.size, eq, sizeAll, size] at small
        omega
      split
      · exact ⟨1, Nat.le_refl 1, by simp [eq], rfl, inside⟩
      · simp [Settled, Cursor.fault]
    · simp [Settled, Cursor.fault]
  have contents : Settles 0 n (p >>= fun x => atEnd >>= fun _ => pure x)
      (p' >>= fun x => atEnd >>= fun _ => pure x) P :=
    h.bind fun x value => atEnd_settles.keep fun _ _ => .pure value
  exact opens.keep fun x inside =>
    Settles.returning (fun _ _ => runAt_settles (contents inside)) fun _ => id

/-- A group that is taken as it stands. -/
theorem rawGroup_settles (d : Delimiter) :
    Settles 1 n (inGroup d remaining) (inGroup d remaining) fun _ => True := by
  cases n with
  | zero => exact fun _ small => absurd small (Nat.not_lt_zero _)
  | succ n => exact inGroup_settles d remaining_settles

/-! ## Lists -/

/-- What is known of a list that was read by a rule: its values have a property, and if the rule
never stops after a separator, none is at the end. -/
structure ListRule.Reads (rule : ListRule) (P : α → Prop) (xs : Separated α) : Prop where
  all : ∀ x ∈ xs.toList, P x
  ends : (∀ ts, rule.again ts = true) → xs.acceptsValue = false

variable {rule : ListRule} {item item' : Parser α}

/-- Every turn of the loop takes a separator, so there are no more turns than trees ahead. -/
theorem listFrom_settles (h : Settles 1 n item item' P) {limit : Nat} {v : α} {c : Cursor}
    (small : c.size < n) (enough : c.rest.length < limit) (value : P v) :
    SettlesAt 0 c (listFrom rule item limit v) (listFrom rule item' limit v)
      fun xs => rule.Reads P xs ∧ xs.first? = some v := by
  induction limit generalizing v c with
  | zero => exact absurd enough (Nat.not_lt_zero _)
  | succ limit ih =>
    simp only [listFrom]
    refine .look ?_
    split
    · refine ((punct_settles _ small).bind (b := 0) fun s i taken inside _ => ?_).mono
        (Nat.zero_le _) fun _ => id
      have less := Cursor.size_skip inside
      refine .look ?_
      split
      · refine ((h (by omega)).bind (b := 0) fun x j _ inside' value' => ?_).mono (Nat.zero_le _)
          fun _ => id
        have less' := Cursor.size_skip inside'
        have rest := ih (v := x) (c := (c.skip i).skip j) (by omega)
          (by simp only [Cursor.length_skip]; omega) value'
        refine rest.bind (b := 0) fun xs k _ _ read => .pure ⟨⟨?_, ?_⟩, rfl⟩
        · simpa [Separated.toList, value] using read.1.all
        · exact read.1.ends
      · rename_i stop
        exact .pure ⟨⟨by simp [Separated.toList, value], fun never => absurd (never _) stop⟩, rfl⟩
    · exact .pure ⟨⟨by simp [Separated.toList, value], fun _ => rfl⟩, rfl⟩

theorem listAfter_settles (h : Settles 1 n item item' P) {v : α} (value : P v) :
    Settles 0 n (listAfter rule item v) (listAfter rule item' v)
      fun xs => rule.Reads P xs ∧ xs.first? = some v :=
  fun _ small => listFrom_settles h small (Nat.lt_succ_self _) value

theorem list1_settles (h : Settles 1 n item item' P) :
    Settles 1 n (list1 rule item) (list1 rule item') fun xs =>
      rule.Reads P xs ∧ ∃ v, xs.first? = some v :=
  h.keep fun v value => (listAfter_settles h value).weaken fun _ read => ⟨read.1, v, read.2⟩

theorem list_settles (h : Settles 1 n item item' P) :
    Settles 0 n (list rule item) (list rule item') (rule.Reads P) := by
  refine .ite (fun _ _ => ((list1_settles h).mono (Nat.zero_le 1) (Nat.le_refl n)
    fun _ => And.left)) fun ts stop => .pure ⟨by simp [Separated.toList], fun never => ?_⟩
  simp [never ts] at stop

end Parser

end TypeGrammar
