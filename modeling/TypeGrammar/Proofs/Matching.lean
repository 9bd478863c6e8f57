import TypeGrammar.Proofs.Seen
import TypeGrammar.Proofs.Settling

/-!
# Two runs side by side

Two runs are compared that start at cursors which match. A matching says of two cursors that they
match up to some number of trees and two trees past those. A parser follows another one if it takes
as many trees from every matching cursor and ends as the other does: with a value of which the same
is seen, or with the same fault at a matching place. Cursors have to match only up to where the
first run ends, so a parser that follows itself looks no further than that.

The rules follow the combinators. Loops have a bound on their repetition, which may differ between
the two runs; so what follows a parser is a family, with one parser for each bound.
-/

namespace TypeGrammar

open TokenTree

/-! ## Questions -/

namespace TokenTree

theorem eraseAll_eq_map (ts : List TokenTree) : eraseAll ts = ts.map erase := by
  induction ts with
  | nil => rfl
  | cons t ts ih => simp [eraseAll, ih]

@[simp]
theorem eraseAll_append (ts us : List TokenTree) :
    eraseAll (ts ++ us) = eraseAll ts ++ eraseAll us := by
  simp [eraseAll_eq_map]

theorem eraseAll_eq_append {us vs ws : List TokenTree} (h : eraseAll us = vs ++ ws) :
    ∃ xs ys, us = xs ++ ys ∧ eraseAll xs = vs ∧ eraseAll ys = ws := by
  simp only [eraseAll_eq_map] at h ⊢
  exact List.map_eq_append_iff.1 h

theorem eraseAll_eq_token {us : List TokenTree} {t : Token} (h : eraseAll us = [.token t]) :
    ∃ u, us = [.token u] ∧ u.erase = t := by
  rw [eraseAll_eq_map] at h
  obtain ⟨u, rfl, first⟩ := List.map_eq_singleton_iff.1 h
  cases u with
  | token u => exact ⟨u, rfl, TokenTree.token.inj first⟩
  | group => cases first

theorem eraseAll_eq_group {us ws : List TokenTree} {d : Delimiter} {o e : Span}
    (h : eraseAll us = [.group d ws o e]) :
    ∃ inner o e, us = [.group d inner o e] ∧ eraseAll inner = ws := by
  rw [eraseAll_eq_map] at h
  obtain ⟨u, rfl, first⟩ := List.map_eq_singleton_iff.1 h
  cases u with
  | token => cases first
  | group d' inner o e =>
    obtain ⟨rfl, same, -⟩ := TokenTree.group.inj first
    exact ⟨inner, o, e, rfl, same⟩

/-- Trees that are tokens outside any file. -/
theorem eraseAll_eq_tokens {us : List TokenTree} {ts : List Token}
    (h : eraseAll us = ts.map .token) :
    ∃ xs : List Token, us = xs.map .token ∧ xs.map Token.erase = ts := by
  induction ts generalizing us with
  | nil =>
    rw [eraseAll_eq_map] at h
    exact ⟨[], List.map_eq_nil_iff.1 h, rfl⟩
  | cons t ts ih =>
    obtain ⟨front, back, rfl, first, more⟩ :=
      eraseAll_eq_append (show eraseAll us = [.token t] ++ ts.map .token from h)
    obtain ⟨x, rfl, rfl⟩ := eraseAll_eq_token first
    obtain ⟨xs, rfl, rfl⟩ := ih more
    exact ⟨x :: xs, rfl, rfl⟩

mutual

theorem erase_erase : (t : TokenTree) → t.erase.erase = t.erase
  | .token _ => rfl
  | .group d ts o e => by rw [erase, erase, eraseAll_eraseAll ts]

theorem eraseAll_eraseAll : (ts : List TokenTree) → eraseAll (eraseAll ts) = eraseAll ts
  | [] => rfl
  | t :: ts => by rw [eraseAll, eraseAll, erase_erase t, eraseAll_eraseAll ts]

end

theorem startsChars_eraseAll (cs : List Char) (ts : List TokenTree) :
    startsChars cs (eraseAll ts) = startsChars cs ts := by
  induction cs generalizing ts with
  | nil => cases ts <;> rfl
  | cons c cs ih =>
    match ts with
    | [] => rfl
    | .group .. :: _ => rfl
    | .token t :: ts => simp [eraseAll, erase, startsChars, Token.erase, ih]

theorem startsChars_take {cs : List Char} {n : Nat} (short : cs.length ≤ n) (ts : List TokenTree) :
    startsChars cs (ts.take n) = startsChars cs ts := by
  induction cs generalizing ts n with
  | nil => cases ts.take n <;> cases ts <;> rfl
  | cons c cs ih =>
    obtain ⟨m, rfl⟩ : ∃ m, n = m + 1 :=
      Nat.exists_eq_add_of_le' (Nat.le_trans (Nat.le_add_left 1 _) short)
    match ts with
    | [] => rfl
    | .group .. :: _ => rfl
    | .token t :: ts => simp [startsChars, ih (Nat.le_of_succ_le_succ short)]

end TokenTree

/-- Two questions with the same answer if the next three trees are the same but for their places. -/
def IsNear {α : Type} (f f' : List TokenTree → α) : Prop :=
  ∀ ⦃ts ts'⦄, (eraseAll ts).take 3 = (eraseAll ts').take 3 → f ts = f' ts'

namespace IsNear

variable {α : Type} {f f' g g' : List TokenTree → Bool} {d : List TokenTree → α}

theorem const {a a' : α} (h : a = a') : IsNear (fun _ => a) fun _ => a' :=
  fun _ _ _ => h

theorem and (h : IsNear f f') (h' : IsNear g g') :
    IsNear (fun ts => f ts && g ts) fun ts => f' ts && g' ts := by
  intro ts ts' same
  dsimp only
  rw [h same, h' same]

theorem or (h : IsNear f f') (h' : IsNear g g') :
    IsNear (fun ts => f ts || g ts) fun ts => f' ts || g' ts := by
  intro ts ts' same
  dsimp only
  rw [h same, h' same]

theorem not (h : IsNear f f') : IsNear (fun ts => !f ts) fun ts => !f' ts :=
  fun _ _ same => congrArg (!·) (h same)

theorem any {β : Type} {xs : List β} {p : β → List TokenTree → Bool}
    (h : ∀ x ∈ xs, IsNear (p x) (p x)) :
    IsNear (fun ts => xs.any fun x => p x ts) fun ts => xs.any fun x => p x ts := by
  intro ts ts' same
  induction xs with
  | nil => rfl
  | cons x xs ih =>
    obtain ⟨here, later⟩ := List.forall_mem_cons.1 h
    have rest := ih later
    dsimp only at rest ⊢
    rw [List.any_cons, List.any_cons, here same, rest]

theorem find? {β : Type} {xs : List β} {p : β → List TokenTree → Bool}
    (h : ∀ x ∈ xs, IsNear (p x) (p x)) :
    IsNear (fun ts => xs.find? fun x => p x ts) fun ts => xs.find? fun x => p x ts := by
  intro ts ts' same
  induction xs with
  | nil => rfl
  | cons x xs ih =>
    obtain ⟨here, later⟩ := List.forall_mem_cons.1 h
    have rest := ih later
    dsimp only at rest ⊢
    rw [List.find?_cons, List.find?_cons, here same, rest]

/-- A question about the next tree. -/
theorem front (h : ∀ t ts, d (t :: ts) = d [t.erase]) : IsNear d d := by
  intro ts ts' same
  match ts, ts' with
  | [], [] => rfl
  | [], _ :: _ => cases same
  | _ :: _, [] => cases same
  | t :: ts, t' :: ts' =>
    have first : t.erase = t'.erase := (List.cons.inj same).1
    rw [h t ts, h t' ts', first]

/-- An operator within the next three trees. -/
theorem punctAfter (n : Nat) {op : String} (short : op.length + n ≤ 3) :
    IsNear (fun ts => startsPunct op (ts.drop n)) fun ts => startsPunct op (ts.drop n) := by
  have seen (ts : List TokenTree) :
      startsPunct op (ts.drop n) = startsPunct op (((eraseAll ts).take 3).drop n) := by
    have fits : op.toList.length ≤ 3 - n := by
      rw [String.length_toList]
      omega
    rw [startsPunct, startsPunct, List.drop_take, startsChars_take fits, eraseAll_eq_map,
      ← List.map_drop, ← eraseAll_eq_map, startsChars_eraseAll]
  intro ts ts' same
  dsimp only
  rw [seen, same, ← seen]

theorem punct {op : String} (short : op.length ≤ 3) : IsNear (startsPunct op) (startsPunct op) :=
  punctAfter 0 short

theorem kind (p : TokenKind → Bool) : IsNear (startsKind p) (startsKind p) :=
  front (by rintro (_ | _) _ <;> rfl)

theorem word (w : String) : IsNear (startsWord w) (startsWord w) :=
  front (by rintro (_ | _) _ <;> rfl)

theorem group (k : Delimiter) : IsNear (startsGroup k) (startsGroup k) :=
  front (by rintro (_ | _) _ <;> rfl)

theorem groupAfter (n : Nat) (short : n ≤ 2) (k : Delimiter) :
    IsNear (fun ts => startsGroup k (ts.drop n)) fun ts => startsGroup k (ts.drop n) := by
  have seen (ts : List TokenTree) :
      startsGroup k (ts.drop n) = startsGroup k (((eraseAll ts).take 3).drop n) := by
    obtain ⟨m, more⟩ : ∃ m, 3 - n = m + 1 := ⟨2 - n, by omega⟩
    rw [List.drop_take, more, eraseAll_eq_map, ← List.map_drop]
    cases ts.drop n with
    | nil => rfl
    | cons t us => cases t <;> rfl
  intro ts ts' same
  dsimp only
  rw [seen, same, ← seen]

theorem isEmpty : IsNear List.isEmpty List.isEmpty :=
  front fun _ _ => rfl

/-- All that may be expected is within the next three trees, unless it is a longer operator. -/
theorem isMet {e : Expectation} (short : ∀ op, e = .punct op → op.length ≤ 3) :
    IsNear e.isMet e.isMet := by
  cases e with
  | punct op => exact punct (short op rfl)
  | keyword w => exact word w
  | identifier => exact kind (· == .identifier)
  | lifetime => exact kind (· == .lifetime)
  | literal => exact kind TokenKind.isLiteral
  | group k => exact group k
  | anyGroup => exact front (by rintro (_ | _) _ <;> rfl)

end IsNear

/-! ## Matchings -/

/-- The cursor at which a run ends. -/
def cursorAfter {α : Type} : EStateM.Result ParseError Cursor α → Cursor
  | .ok _ c => c
  | .error _ c => c

/-- When two cursors match up to a number of trees and two trees past those, and which places of
errors match. -/
structure Matching where
  upTo : Nat → Cursor → Cursor → Prop
  places : Span → Span → Prop
  skip : ∀ {m n c c'}, upTo (m + n) c c' → upTo n (c.skip m) (c'.skip m)
  less : ∀ {m n c c'}, upTo (m + n) c c' → upTo m c c'
  near : ∀ {n c c'}, upTo n c c' →
    (eraseAll c.rest).take (n + 3) = (eraseAll c'.rest).take (n + 3)
  span : ∀ {n c c'}, upTo n c c' → places c.span c'.span
  inside : ∀ {m n c c' d us o e ts d' us' o' e' ts'}, upTo n c c' →
    c.rest = .group d us o e :: ts → c'.rest = .group d' us' o' e' :: ts' →
      upTo m (Cursor.ofTrees us e) (Cursor.ofTrees us' e')

namespace Matching

variable {α β γ δ : Type} {M : Matching}

/-- Two runs that end alike, where `f` is what is seen of values. -/
def Agree (M : Matching) (f : α → γ) :
    EStateM.Result ParseError Cursor α → EStateM.Result ParseError Cursor α → Prop
  | .ok a _, .ok a' _ => f a = f a'
  | .error e _, .error e' _ => e.fault = e'.fault ∧ M.places e.span e'.span
  | _, _ => False

/-- A run from `c` takes some trees, and a family of parsers follows it at all cursors that match up
to those. -/
def FollowsAt (M : Matching) (f : α → γ) (c : Cursor) (p : Parser α) (p' : Nat → Parser α) : Prop :=
  ∃ n, n ≤ c.rest.length ∧ cursorAfter (p c) = c.skip n ∧
    ∀ ⦃c' limit⦄, M.upTo n c c' → c'.rest.length < limit →
      M.Agree f (p c) (p' limit c') ∧ cursorAfter (p' limit c') = c'.skip n

/-- A parser follows another one at all cursors. -/
def Follows (M : Matching) (f : α → γ) (p p' : Parser α) : Prop :=
  ∀ c, M.FollowsAt f c p fun _ => p'

theorem less₀ {n : Nat} {c c' : Cursor} (h : M.upTo n c c') : M.upTo 0 c c' :=
  M.less (by rwa [Nat.zero_add])

theorem nearAll {n : Nat} {c c' : Cursor} (h : M.upTo n c c') :
    (eraseAll c.rest).take 3 = (eraseAll c'.rest).take 3 :=
  M.near (M.less₀ h)

/-- Trees that are taken are there in both runs. -/
theorem length_le {n : Nat} {c c' : Cursor} (h : M.upTo n c c') (inside : n ≤ c.rest.length) :
    n ≤ c'.rest.length := by
  have lengths := congrArg List.length (M.near h)
  simp only [List.length_take, eraseAll_eq_map, List.length_map] at lengths
  omega

/-- The trees at the front of matching cursors. -/
inductive Front : List TokenTree → List TokenTree → Prop
  | nil : Front [] []
  | token {t t' : Token} (ts ts' : List TokenTree) : t.erase = t'.erase →
      Front (.token t :: ts) (.token t' :: ts')
  | group {us us' : List TokenTree} (d : Delimiter) (o e o' e' : Span) (ts ts' : List TokenTree) :
      eraseAll us = eraseAll us' → Front (.group d us o e :: ts) (.group d us' o' e' :: ts')

theorem front {n : Nat} {c c' : Cursor} (h : M.upTo n c c') : Front c.rest c'.rest := by
  have near := M.nearAll h
  match eq : c.rest, eq' : c'.rest with
  | [], [] => exact .nil
  | [], _ :: _ => simp [eq, eq', eraseAll] at near
  | _ :: _, [] => simp [eq, eq', eraseAll] at near
  | .token t :: ts, .group .. :: _ => simp [eq, eq', eraseAll, erase] at near
  | .group .. :: _, .token t :: ts => simp [eq, eq', eraseAll, erase] at near
  | .token t :: ts, .token t' :: ts' =>
    simp only [eq, eq', eraseAll, erase, List.take_succ_cons, List.cons.injEq,
      TokenTree.token.injEq] at near
    exact .token ts ts' near.1
  | .group d us o e :: ts, .group d' us' o' e' :: ts' =>
    simp only [eq, eq', eraseAll, erase, List.take_succ_cons, List.cons.injEq,
      TokenTree.group.injEq] at near
    obtain ⟨rfl, same, -⟩ := near.1
    exact .group d o e o' e' ts ts' same

/-! ## Rules at one cursor -/

namespace FollowsAt

variable {f : α → γ} {g : β → δ} {c : Cursor} {p : Parser α} {p' p'' : Nat → Parser α}

theorem skip_inj {m n : Nat} (h : c.skip m = c.skip n) : m = n :=
  Nat.add_left_cancel (congrArg Cursor.pos h)

/-- The bound on repetition is never zero. -/
theorem congr (h : M.FollowsAt f c p p') (same : ∀ l, p' (l + 1) = p'' (l + 1)) :
    M.FollowsAt f c p p'' := by
  obtain ⟨n, inside, moved, agree⟩ := h
  refine ⟨n, inside, moved, fun c' limit up enough => ?_⟩
  obtain ⟨l, rfl⟩ : ∃ l, limit = l + 1 := ⟨limit - 1, by omega⟩
  rw [← same]
  exact agree up enough

/-- A larger bound does as well. -/
theorem wider (h : M.FollowsAt f c p p') {k : Nat → Nat} (le : ∀ l, l ≤ k l) :
    M.FollowsAt f c p fun l => p' (k l) := by
  obtain ⟨n, inside, moved, agree⟩ := h
  exact ⟨n, inside, moved, fun c' l up enough => agree up (Nat.lt_of_lt_of_le enough (le l))⟩

theorem pure {x x' : α} (same : f x = f x') :
    M.FollowsAt f c (Pure.pure x) fun _ => Pure.pure x' :=
  ⟨0, Nat.zero_le _, by simp [cursorAfter, Pure.pure, EStateM.pure, Cursor.skip], fun c' _ _ _ =>
    ⟨same, by simp [cursorAfter, Pure.pure, EStateM.pure, Cursor.skip]⟩⟩

/-- A parser that takes some trees with the same value seen. -/
theorem ok {n : Nat} {a : α} (run : p c = .ok a (c.skip n)) (inside : n ≤ c.rest.length)
    (again : ∀ ⦃c' l⦄, M.upTo n c c' → ∃ a', p' l c' = .ok a' (c'.skip n) ∧ f a = f a') :
    M.FollowsAt f c p p' := by
  refine ⟨n, inside, by rw [run]; rfl, fun c' l up _ => ?_⟩
  obtain ⟨a', run', same⟩ := again (l := l) up
  rw [run, run']
  exact ⟨same, rfl⟩

/-- A parser that fails at the next tree. -/
theorem fault {t : ParseFault} (run : p c = .error (c.fault t) c)
    (again : ∀ ⦃c' l⦄, M.upTo 0 c c' → p' l c' = .error (c'.fault t) c') :
    M.FollowsAt f c p p' := by
  refine ⟨0, Nat.zero_le _, by rw [run]; simp [cursorAfter, Cursor.skip], fun c' l up _ => ?_⟩
  rw [run, again (l := l) up]
  exact ⟨⟨rfl, M.span up⟩, by simp [cursorAfter, Cursor.skip]⟩

theorem look {q : γ → Parser β} {q' : Nat → γ → Parser β} {ask ask' : List TokenTree → γ}
    (near : IsNear ask ask') (h : M.FollowsAt g c (q (ask c.rest)) fun l => q' l (ask c.rest)) :
    M.FollowsAt g c (Parser.look ask >>= q) fun l => Parser.look ask' >>= q' l := by
  obtain ⟨n, inside, moved, agree⟩ := h
  refine ⟨n, inside, moved, fun c' l up enough => ?_⟩
  have next := agree up enough
  dsimp only at next
  change M.Agree g (q (ask c.rest) c) (q' l (ask' c'.rest) c') ∧
    cursorAfter (q' l (ask' c'.rest) c') = c'.skip n
  rwa [← near (M.nearAll up)]

/-- One parser after another; the second one has as many turns fewer as trees were taken. -/
theorem bind {q : α → Parser β} {q' : Nat → α → Parser β} (first : M.FollowsAt f c p p')
    (second : ∀ x x' i, f x = f x' → p c = .ok x (c.skip i) →
      M.FollowsAt g (c.skip i) (q x) fun l => q' (l + i) x') :
    M.FollowsAt g c (p >>= q) fun l => p' l >>= q' l := by
  obtain ⟨i, inside, moved, agree⟩ := first
  change ∃ n, n ≤ c.rest.length ∧ cursorAfter (EStateM.bind p q c) = c.skip n ∧
    ∀ ⦃c' limit⦄, M.upTo n c c' → c'.rest.length < limit →
      M.Agree g (EStateM.bind p q c) (EStateM.bind (p' limit) (q' limit) c') ∧
        cursorAfter (EStateM.bind (p' limit) (q' limit) c') = c'.skip n
  unfold EStateM.bind
  cases run : p c with
  | error e c₁ =>
    rw [run] at moved agree
    refine ⟨i, inside, moved, fun c' limit up enough => ?_⟩
    obtain ⟨same, moved'⟩ := agree up enough
    cases run' : p' limit c' with
    | error e' c₂ =>
      rw [run'] at same moved'
      exact ⟨same, moved'⟩
    | ok =>
      rw [run'] at same
      exact same.elim
  | ok x c₁ =>
    rw [run] at moved agree
    obtain rfl : c₁ = c.skip i := moved
    obtain ⟨j, inside', moved', -⟩ := second x x i rfl run
    rw [Cursor.length_skip] at inside'
    refine ⟨i + j, by omega, by rw [← Cursor.skip_skip]; exact moved', fun c' limit up enough => ?_⟩
    obtain ⟨same, moved₁⟩ := agree (M.less up) enough
    cases run' : p' limit c' with
    | error =>
      rw [run'] at same
      exact same.elim
    | ok x' c₂ =>
      rw [run'] at same moved₁
      obtain rfl : c₂ = c'.skip i := moved₁
      obtain ⟨k, -, moved₂, agree'⟩ := second x x' i same run
      obtain rfl : k = j := skip_inj (moved₂.symm.trans moved')
      have there := M.length_le (M.less up) inside
      have next := @agree' _ (limit - i) (M.skip up) (by rw [Cursor.length_skip]; omega)
      dsimp only at next
      rwa [show limit - i + i = limit by omega, Cursor.skip_skip] at next

end FollowsAt

/-! ## Rules -/

namespace Follows

variable {f : α → γ} {g : β → δ} {p p' : Parser α} {q q' : α → Parser β}

theorem pure {x x' : α} (same : f x = f x') : M.Follows f (Pure.pure x) (Pure.pure x') :=
  fun _ => .pure same

theorem fail (t : ParseFault) : M.Follows f (Parser.fail t) (Parser.fail t) :=
  fun _ => .fault rfl fun _ _ _ => rfl

theorem failNoneOf (es : List Expectation) :
    M.Follows f (Parser.failNoneOf es) (Parser.failNoneOf es) := by
  refine fun c => .fault (t := .noneOf es c.rest.isEmpty) rfl fun c' _ up => ?_
  rw [IsNear.isEmpty (M.nearAll up)]
  rfl

theorem bind (first : M.Follows f p p')
    (second : ∀ x x', f x = f x' → M.Follows g (q x) (q' x')) :
    M.Follows g (p >>= q) (p' >>= q') :=
  fun c => .bind (first c) fun x x' i same _ => second x x' same (c.skip i)

theorem returning {h : α → β} {h' : α → β} (first : M.Follows f p p')
    (value : ∀ x x', f x = f x' → g (h x) = g (h' x')) :
    M.Follows g (p >>= fun x => Pure.pure (h x)) (p' >>= fun x => Pure.pure (h' x)) :=
  first.bind fun x x' same => .pure (value x x' same)

theorem map {h h' : α → β} (first : M.Follows f p p')
    (value : ∀ x x', f x = f x' → g (h x) = g (h' x')) : M.Follows g (h <$> p) (h' <$> p') :=
  first.returning value

/-- A parser follows another one if both do the same but for what is not seen of values. -/
theorem of_map (h : M.Follows f p p) (same : f <$> p = f <$> p') : M.Follows f p p' := by
  intro c
  obtain ⟨n, inside, moved, agree⟩ := h c
  refine ⟨n, inside, moved, fun c' limit up enough => ?_⟩
  obtain ⟨alike, moved'⟩ := agree up enough
  have runs := congrFun same c'
  change EStateM.map f p c' = EStateM.map f p' c' at runs
  unfold EStateM.map at runs
  dsimp only at alike moved' ⊢
  cases run : p c' with
  | ok a c₁ =>
    cases run' : p' c' with
    | ok a' c₂ =>
      rw [run] at runs alike moved'
      rw [run'] at runs
      obtain ⟨value, rfl⟩ := EStateM.Result.ok.inj runs
      refine ⟨?_, moved'⟩
      cases first : p c <;> simp_all [Agree]
    | error => rw [run, run'] at runs; cases runs
  | error e c₁ =>
    cases run' : p' c' with
    | ok => rw [run, run'] at runs; cases runs
    | error e' c₂ =>
      rw [run] at runs alike moved'
      rw [run'] at runs
      obtain ⟨rfl, rfl⟩ := EStateM.Result.error.inj runs
      exact ⟨alike, moved'⟩

/-- What comes after an optional value. -/
theorem option {p p' : Parser (Option α)} {q q' : Option α → Parser β}
    (first : M.Follows (Option.map f) p p') (absent : M.Follows g (q none) (q' none))
    (present : ∀ x x', f x = f x' → M.Follows g (q (some x)) (q' (some x'))) :
    M.Follows g (p >>= q) (p' >>= q') := by
  refine first.bind ?_
  rintro (_ | x) (_ | x') same
  · exact absent
  · cases same
  · cases same
  · exact present x x' (Option.some.inj same)

theorem look {γ : Type} {ask ask' : List TokenTree → γ} {q q' : γ → Parser β}
    (near : IsNear ask ask') (h : ∀ ts, M.Follows g (q (ask ts)) (q' (ask ts))) :
    M.Follows g (Parser.look ask >>= q) (Parser.look ask' >>= q') :=
  fun c => .look near (h c.rest c)

/-- The two ways past a question. -/
theorem ite {ask ask' : List TokenTree → Bool} {p₁ p₁' : Parser α} (near : IsNear ask ask')
    (yes : M.Follows f p p') (no : M.Follows f p₁ p₁') :
    M.Follows f (Parser.look ask >>= fun x => if x = true then p else p₁)
      (Parser.look ask' >>= fun x => if x = true then p' else p₁') := by
  refine .look near fun ts => ?_
  split
  · exact yes
  · exact no

/-- A loop with more turns than there are trees ahead. -/
theorem loop (p p' : Nat → Parser α)
    (h : ∀ {c limit}, c.rest.length < limit → M.FollowsAt f c (p limit) p') :
    M.Follows f (fun c => p (c.rest.length + 1) c) fun c => p' (c.rest.length + 1) c := by
  intro c
  obtain ⟨n, inside, moved, agree⟩ := h (Nat.lt_succ_self c.rest.length)
  exact ⟨n, inside, moved, fun c' _ up _ => agree up (Nat.lt_succ_self _)⟩

end Follows

end Matching

/-! ## Primitives -/

namespace Parser

open Matching

variable {α γ : Type} {M : Matching} {f : α → γ} {p p' : Parser α}

/-- A parser that takes `n` trees if it can read a value from them. -/
theorem follows_of_read {n : Nat} {t : ParseFault} (read : List TokenTree → Option α)
    (run : ∀ c, p c = match read c.rest with
      | some a => .ok a (c.skip n)
      | none => .error (c.fault t) c)
    (inside : ∀ {ts a}, read ts = some a → n ≤ ts.length)
    (near : IsNear (fun ts => (read ts).map f) fun ts => (read ts).map f) : M.Follows f p p := by
  intro c
  cases known : read c.rest with
  | some a =>
    refine .ok (by rw [run, known]) (inside known) fun c' _ up => ?_
    have same := near (M.nearAll up)
    dsimp only at same
    rw [known, Option.map_some] at same
    obtain ⟨a', known', value⟩ := Option.map_eq_some_iff.1 same.symm
    exact ⟨a', by rw [run, known'], value.symm⟩
  | none =>
    refine .fault (t := t) (by rw [run, known]) fun c' _ up => ?_
    have same := near (M.nearAll up)
    dsimp only at same
    rw [known, Option.map_none] at same
    rw [run, Option.map_eq_none_iff.1 same.symm]

/-- What a parser reads may depend on a question. -/
theorem near_ite {ask : List TokenTree → Bool} {read : List TokenTree → Option α}
    (question : IsNear ask ask)
    (near : IsNear (fun ts => (read ts).map f) fun ts => (read ts).map f) :
    IsNear (fun ts => (if ask ts = true then read ts else none).map f)
      fun ts => (if ask ts = true then read ts else none).map f := by
  intro ts ts' same
  dsimp only
  rw [question same]
  split
  · exact near same
  · rfl

theorem near_token : IsNear (fun ts => (token? ts).map Token.erase) fun ts =>
    (token? ts).map Token.erase :=
  .front (by rintro (_ | _) _ <;> rfl)

theorem length_of_token {ts : List TokenTree} {t : Token} (h : token? ts = some t) :
    1 ≤ ts.length := by
  cases ts with
  | nil => cases h
  | cons => simp

theorem take_follows {e : Expectation} (short : ∀ op, e = .punct op → op.length ≤ 3) :
    M.Follows Token.erase (take e) (take e) := by
  refine follows_of_read (n := 1) (t := .expected e)
    (fun ts => if e.isMet ts = true then token? ts else none) (fun c => ?_)
    (fun known => length_of_token (Option.ite_none_right_eq_some.1 known).2)
    (near_ite (.isMet short) near_token)
  unfold take
  rcases c with ⟨pos, _ | ⟨t | _, ts⟩, e'⟩ <;> dsimp only <;> split <;> simp_all [token?]

theorem anyWord_follows : M.Follows Token.erase anyWord anyWord := by
  refine follows_of_read (n := 1) (t := .expected .identifier)
    (fun ts => if startsAnyWord ts = true then token? ts else none) (fun c => ?_)
    (fun known => length_of_token (Option.ite_none_right_eq_some.1 known).2)
    (near_ite (.kind _) near_token)
  unfold anyWord
  rcases c with ⟨pos, _ | ⟨t | _, ts⟩, e'⟩
  · rfl
  · simp only [startsAnyWord, startsKind, token?]; grind
  · rfl

theorem keyword_follows (word : String) :
    M.Follows Token.erase (keyword word) (keyword word) :=
  take_follows nofun

theorem identifier_follows : M.Follows Token.erase identifier identifier :=
  take_follows nofun

theorem lifetime_follows : M.Follows Token.erase lifetime lifetime :=
  take_follows nofun

theorem literal_follows : M.Follows Token.erase literal literal :=
  take_follows nofun

theorem punct_follows {op : String} (short : op.length ≤ 3) :
    M.Follows Token.erase (punct op) (punct op) := by
  intro c
  have again {n : Nat} {c' : Cursor} (up : M.upTo n c c') :
      startsPunct op c'.rest = startsPunct op c.rest := (IsNear.punct short (M.nearAll up)).symm
  cases starts : startsPunct op c.rest with
  | false =>
    refine .fault (punct_refuses starts) fun c' _ up => ?_
    exact punct_refuses ((again up).trans starts)
  | true =>
    cases ahead : c.rest with
    | nil =>
      refine .fault (punct_ends starts ahead) fun c' _ up =>
        punct_ends ((again up).trans starts) ?_
      have front := M.front up
      rw [ahead] at front
      generalize c'.rest = ts' at front
      cases front
      rfl
    | cons first ts =>
      have enough := width_le_of_startsPunct starts ahead
      refine .ok (punct_takes starts ahead) enough fun c' _ up => ?_
      cases ahead' : c'.rest with
      | nil =>
        have front := M.front up
        rw [ahead, ahead'] at front
        cases front
      | cons first' ts' => exact ⟨_, punct_takes ((again up).trans starts) ahead', rfl⟩

theorem punct?_follows {op : String} (short : op.length ≤ 3) :
    M.Follows (Option.map Token.erase) (punct? op) (punct? op) :=
  .ite (.punct short) ((punct_follows short).returning fun _ _ => congrArg some)
    (.pure rfl)

theorem keyword?_follows (word : String) :
    M.Follows (Option.map Token.erase) (keyword? word) (keyword? word) :=
  .ite (.word word) ((keyword_follows word).returning fun _ _ => congrArg some)
    (.pure rfl)

theorem atEnd_follows : M.Follows id atEnd atEnd := by
  refine follows_of_read (n := 0) (t := .unexpectedToken)
    (fun ts => if ts.isEmpty = true then some () else none) (fun c => ?_)
    (fun _ => Nat.zero_le _) (near_ite .isEmpty (.const rfl))
  unfold atEnd
  split <;> simp [*, Cursor.skip]

theorem remaining_follows : M.Follows eraseAll remaining remaining := by
  intro c
  refine .ok (n := c.rest.length) rfl (Nat.le_refl _) fun c' _ up => ?_
  have near := M.near up
  have here : c.rest.length = c'.rest.length := by
    have lengths := congrArg List.length near
    simp only [List.length_take, eraseAll_eq_map, List.length_map] at lengths
    omega
  refine ⟨c'.rest, by rw [here]; rfl, ?_⟩
  rwa [List.take_of_length_le (by simp [eraseAll_eq_map]),
    List.take_of_length_le (by simp [eraseAll_eq_map, here])] at near

/-- The group with visible delimiters at the front. -/
def visibleGroup? : List TokenTree → Option (Delim × List TokenTree)
  | [] => none
  | .token _ :: _ => none
  | .group d us o _ :: _ => if d = .invisible then none else some (⟨d, o⟩, us)

theorem anyGroup_follows : M.Follows (fun x => (x.1.erase, eraseAll x.2)) anyGroup anyGroup := by
  refine follows_of_read (n := 1) (t := .expected .anyGroup) visibleGroup? (fun c => ?_)
    (fun {ts} _ known => ?_) (.front ?_)
  · unfold anyGroup
    rcases c with ⟨pos, _ | ⟨_ | _, ts⟩, e'⟩
    · rfl
    · rfl
    · dsimp only [visibleGroup?]
      split <;> rfl
  · cases ts with
    | nil => cases known
    | cons => simp
  · rintro (_ | ⟨d, us, o, e⟩) ts
    · rfl
    · simp only [erase, visibleGroup?]
      split
      · rfl
      · simp [Delim.erase, eraseAll_eraseAll]

theorem startsGroup_cons {d : Delimiter} {ts : List TokenTree} (h : startsGroup d ts = true) :
    ∃ us o e rest, ts = .group d us o e :: rest := by
  match ts, h with
  | .group d' us o e :: rest, h =>
    obtain rfl := eq_of_beq h
    exact ⟨us, o, e, rest, rfl⟩

theorem inGroup_closed {d : Delimiter} {c : Cursor} (h : startsGroup d c.rest = false) :
    inGroup d p c = .error (c.fault (.expected (.group d))) c := by
  rcases c with ⟨pos, _ | ⟨_ | ⟨d', us, o, e⟩, ts⟩, e'⟩
  · rfl
  · rfl
  · have other : d' ≠ d := by simpa [startsGroup] using h
    simp [inGroup, openGroup, other, bind, EStateM.bind]

theorem inGroup_open {d : Delimiter} {c : Cursor} {us ts : List TokenTree} {o e : Span}
    (h : c.rest = .group d us o e :: ts) :
    inGroup d p c = match (p >>= fun x => atEnd >>= fun _ => pure x) (Cursor.ofTrees us e) with
      | .ok a _ => .ok (⟨d, o⟩, a) (c.skip 1)
      | .error e' _ => .error e' (c.skip 1) := by
  have opened : openGroup d c = .ok (⟨d, o⟩, Cursor.ofTrees us e) (c.skip 1) := by
    unfold openGroup
    rw [h]
    exact if_pos rfl
  unfold inGroup
  change EStateM.bind (openGroup d) _ c = _
  rw [EStateM.bind, opened]
  change EStateM.bind (runAt _ _) _ (c.skip 1) = _
  rw [EStateM.bind, runAt]
  cases (p >>= fun x => atEnd >>= fun _ => pure x) (Cursor.ofTrees us e) <;> rfl

/-- The contents of a group are read at cursors where all trees match. -/
theorem inGroup_follows (d : Delimiter) (h : M.Follows f p p') :
    M.Follows (fun x => (x.1.erase, f x.2)) (inGroup d p) (inGroup d p') := by
  have contents : M.Follows f (p >>= fun x => atEnd >>= fun _ => pure x)
      (p' >>= fun x => atEnd >>= fun _ => pure x) :=
    h.bind fun x x' same => atEnd_follows.bind fun _ _ _ => .pure same
  intro c
  have again {n : Nat} {c' : Cursor} (up : M.upTo n c c') :
      startsGroup d c'.rest = startsGroup d c.rest := (IsNear.group d (M.nearAll up)).symm
  cases starts : startsGroup d c.rest with
  | false =>
    exact .fault (inGroup_closed starts) fun c' _ up => inGroup_closed ((again up).trans starts)
  | true =>
    obtain ⟨us, o, e, ts, ahead⟩ := startsGroup_cons starts
    obtain ⟨n, -, -, agree⟩ := contents (Cursor.ofTrees us e)
    refine ⟨1, by simp [ahead], ?_, fun c' _ up _ => ?_⟩
    · rw [inGroup_open ahead]
      split <;> rfl
    · obtain ⟨us', o', e', ts', ahead'⟩ := startsGroup_cons ((again up).trans starts)
      have same := (agree (M.inside up ahead ahead') (Nat.lt_succ_self _)).1
      dsimp only
      rw [inGroup_open ahead, inGroup_open ahead']
      split <;> split <;> simp_all [Agree, cursorAfter, Delim.erase]

theorem inGroup_moves {d : Delimiter} {c : Cursor} {x : Delim × α} {i : Nat}
    (run : inGroup d p c = .ok x (c.skip i)) : 1 ≤ i ∧ 1 ≤ c.rest.length := by
  obtain ⟨us, o, e, c₁, ahead, -⟩ := inGroup_ok run
  have lengths := congrArg List.length ahead
  rw [List.length_cons, Cursor.length_skip] at lengths
  omega

/-! ## Lists -/

/-- A rule whose questions are about the next three trees. -/
structure ListRule.Near (rule : ListRule) : Prop where
  short : rule.separator.length ≤ 3
  asks : IsNear rule.asks rule.asks
  again : IsNear rule.again rule.again

variable {rule : ListRule} {item item' : Parser α}

/-- How many trees a run took that settles. -/
theorem moved_of_settles {a i : Nat} {P : α → Prop} {x : α} {c : Cursor}
    (h : ∀ n, Settles a n p p P) (run : p c = .ok x (c.skip i)) : a ≤ i ∧ i ≤ c.rest.length := by
  have settled := (h (c.size + 1) (Nat.lt_succ_self _)).2
  rw [run] at settled
  obtain ⟨n, enough, inside, moved, -⟩ := settled
  obtain rfl := FollowsAt.skip_inj moved
  exact ⟨enough, inside⟩

/-- One turn of the loop that reads a list; `more` reads the rest after a further value. -/
def listTurn (rule : ListRule) (item : Parser α) (more : α → Parser (Separated α)) (v : α) :
    Parser (Separated α) := do
  if ← look rule.asks then
    let separator ← punct rule.separator
    if ← look rule.again then
      return .cons v separator (← more (← item))
    else
      return .cons v separator .empty
  else
    return .last v

theorem listFrom_succ (limit : Nat) (v : α) :
    listFrom rule item (limit + 1) v = listTurn rule item (listFrom rule item limit) v := rfl

/-- Every turn of the loop takes a separator, so there are no more turns than trees ahead. -/
theorem listFrom_follows (near : rule.Near) (h : M.Follows f item item') {limit : Nat} {v v' : α}
    {c : Cursor} (enough : c.rest.length < limit) (same : f v = f v') :
    M.FollowsAt (Separated.seen f) c (listFrom rule item limit v)
      fun l => listFrom rule item' l v' := by
  induction limit generalizing v v' c with
  | zero => exact absurd enough (Nat.not_lt_zero _)
  | succ limit ih =>
    -- the follower has one turn less after this one
    have turn : M.FollowsAt (Separated.seen f) c (listTurn rule item (listFrom rule item limit) v)
        fun l => listTurn rule item' (listFrom rule item' (l - 1)) v' := by
      unfold listTurn
      refine .look near.asks ?_
      split
      · refine .bind (punct_follows near.short c) fun s s' i mark run => ?_
        obtain ⟨taken, inside⟩ := moved_of_settles (fun n => punct_settles _) run
        refine .look near.again ?_
        split
        · refine .bind (h _) fun x x' j next _ => ?_
          have rest : M.FollowsAt (Separated.seen f) ((c.skip i).skip j)
              (listFrom rule item limit x) fun l => listFrom rule item' l x' :=
            ih (by simp only [Cursor.length_skip]; omega) next
          refine .bind (rest.wider (k := fun l => l + j + i - 1) fun l => by omega)
            fun xs xs' k more _ => .pure ?_
          rw [Separated.seen_cons, Separated.seen_cons, same, mark, more]
        · refine .pure ?_
          rw [Separated.seen_cons, Separated.seen_cons, same, mark]
      · refine .pure ?_
        rw [Separated.seen_last, Separated.seen_last, same]
    exact turn.congr fun l => (listFrom_succ l v').symm

theorem listAfter_follows (near : rule.Near) (h : M.Follows f item item') {v v' : α}
    (same : f v = f v') :
    M.Follows (Separated.seen f) (listAfter rule item v) (listAfter rule item' v') :=
  .loop (listFrom rule item · v) (listFrom rule item' · v')
    fun enough => listFrom_follows near h enough same

theorem list1_follows (near : rule.Near) (h : M.Follows f item item') :
    M.Follows (Separated.seen f) (list1 rule item) (list1 rule item') :=
  h.bind fun _ _ same => listAfter_follows near h same

theorem list_follows (near : rule.Near) (h : M.Follows f item item') :
    M.Follows (Separated.seen f) (list rule item) (list rule item') :=
  .ite near.again (list1_follows near h) (.pure rfl)

theorem near_filling {separator : String} (short : separator.length ≤ 3) :
    (filling separator).Near :=
  ⟨short, .not .isEmpty, .not .isEmpty⟩

theorem near_joined {separator : String} (short : separator.length ≤ 3) :
    (joined separator).Near :=
  ⟨short, .punct short, .const rfl⟩

theorem near_boundsBeforeAngle : boundsBeforeAngle.Near :=
  ⟨by decide, .punct (by decide), .not (.punct (by decide))⟩

theorem near_boundsBeforeComma : boundsBeforeComma.Near :=
  ⟨by decide, .punct (by decide), .not (.or (.punct (by decide)) (.punct (by decide)))⟩

theorem near_beforeAngle : beforeAngle.Near :=
  ⟨by decide, .not (.punct (by decide)), .not (.punct (by decide))⟩

end Parser

end TypeGrammar
