import TypeGrammar.TokenTree.Nest

/-!
# Tokens that are nested

Tokens have trees if every opening delimiter has its partner: the trees then are the tokens with
each pair of partners around a group. `Nests` says so without a stack, and `nest_ok` relates it to
the frames that are kept while the tokens are read.
-/

namespace TypeGrammar

open TokenTree

/-- The tokens of some trees, each group between an opening and a closing token. -/
inductive Nests : List Token → List TokenTree → Prop
  | nil : Nests [] []
  | token {t : Token} {ts : List Token} {trees : List TokenTree} : t.kind.opens? = none →
      t.kind.closes? = none → Nests ts trees → Nests (t :: ts) (.token t :: trees)
  | group {o c : Token} {d : Delimiter} {inner ts : List Token} {body trees : List TokenTree} :
      o.kind.opens? = some d → c.kind.closes? = some d → Nests inner body → Nests ts trees →
      Nests (o :: (inner ++ c :: ts)) (.group d body o.span c.span :: trees)

theorem Nests.append {ts us : List Token} {trees more : List TokenTree} (h : Nests ts trees)
    (h' : Nests us more) : Nests (ts ++ us) (trees ++ more) := by
  induction h with
  | nil => exact h'
  | token opens closes _ ih => exact .token opens closes ih
  | group opens closes inner _ _ ih =>
    rw [List.cons_append, List.append_assoc]
    exact .group opens closes inner ih

/-- Trees do not depend on the places of the tokens. -/
theorem Nests.erase {ts : List Token} {trees : List TokenTree} (h : Nests ts trees) :
    Nests (ts.map Token.erase) (eraseAll trees) := by
  induction h with
  | nil => exact .nil
  | token opens closes _ ih => exact .token opens closes ih
  | @group o c d _ _ _ _ opens closes _ _ ihInner ih =>
    rw [List.map_cons, List.map_append, List.map_cons]
    exact .group (o := o.erase) (c := c.erase) opens closes ihInner ih

theorem TokenKind.opens?_of_closes {k : TokenKind} {d : Delimiter} (h : k.closes? = some d) :
    k.opens? = none := by
  cases k <;> first | rfl | cases h

namespace Nesting

variable {n : Nesting} {t : Token} {d : Delimiter}

/-! ## Steps -/

/-- The state in which a group has been opened. -/
def opened (n : Nesting) (t : Token) (d : Delimiter) (trees : List TokenTree) : Nesting :=
  { n with frames := ⟨t, d, trees⟩ :: n.frames }

theorem step_token (opens : t.kind.opens? = none) (closes : t.kind.closes? = none) :
    n.step t = n.add (.token t) := by
  simp only [step, opens, closes]

theorem step_opens (opens : t.kind.opens? = some d) : n.step t = n.opened t d [] := by
  simp only [step, opens, opened]

theorem step_closes (closes : t.kind.closes? = some d) : n.step t = n.close d t := by
  simp only [step, TokenKind.opens?_of_closes closes, closes]

theorem close_opened {o : Token} {trees : List TokenTree} :
    (n.opened o d trees).close d t = n.add (.group d trees.reverse o.span t.span) := by
  simp [close, opened]

@[simp]
theorem add_opened {o : Token} {trees : List TokenTree} (x : TokenTree) :
    (n.opened o d trees).add x = n.opened o d (x :: trees) := rfl

@[simp]
theorem add_faults (x : TokenTree) : (n.add x).faults = n.faults := by
  unfold add
  split <;> rfl

/-! ## Trees that are added -/

/-- The state after some trees are added to the innermost open group. -/
def addAll (n : Nesting) (trees : List TokenTree) : Nesting :=
  trees.foldl add n

@[simp]
theorem addAll_nil : n.addAll [] = n := rfl

@[simp]
theorem addAll_cons (x : TokenTree) (xs : List TokenTree) :
    n.addAll (x :: xs) = (n.add x).addAll xs := rfl

theorem addAll_opened {o : Token} (trees xs : List TokenTree) :
    (n.opened o d trees).addAll xs = n.opened o d (xs.reverse ++ trees) := by
  induction xs generalizing trees with
  | nil => rfl
  | cons x xs ih => simp [ih]

theorem addAll_outer (outer xs : List TokenTree) :
    addAll ⟨[], outer, []⟩ xs = ⟨[], xs.reverse ++ outer, []⟩ := by
  induction xs generalizing outer with
  | nil => rfl
  | cons x xs ih => simp [add, ih]

/-- Tokens that nest add their trees. -/
theorem foldl_step {ts : List Token} {trees : List TokenTree} (h : Nests ts trees) (n : Nesting) :
    ts.foldl step n = n.addAll trees := by
  induction h generalizing n with
  | nil => rfl
  | token opens closes _ ih => rw [List.foldl_cons, step_token opens closes, ih, addAll_cons]
  | group opens closes _ _ ihInner ih =>
    rw [List.foldl_cons, step_opens opens, List.foldl_append, ihInner, addAll_opened,
      List.foldl_cons, step_closes closes, close_opened, ih, List.append_nil, List.reverse_reverse,
      addAll_cons]

/-! ## States that are reached -/

/-- The tokens that were read before a state without faults. -/
inductive Reached : List Token → List Frame → List TokenTree → Prop
  | outer {ts : List Token} {outer : List TokenTree} : Nests ts outer.reverse →
      Reached ts [] outer
  | frame {ts inner : List Token} {f : Frame} {fs : List Frame} {outer : List TokenTree} :
      Reached ts fs outer → f.opening.kind.opens? = some f.delimiter →
      Nests inner f.trees.reverse → Reached (ts ++ f.opening :: inner) (f :: fs) outer

theorem Reached.add {ts us : List Token} {x : TokenTree} (h : Reached ts n.frames n.outer)
    (more : Nests us [x]) : Reached (ts ++ us) (n.add x).frames (n.add x).outer := by
  obtain ⟨frames, outer, faults⟩ := n
  cases h with
  | outer nested =>
    refine @Reached.outer _ (x :: outer) ?_
    rw [List.reverse_cons]
    exact nested.append more
  | @frame ts inner f fs _ below opens inside =>
    rw [List.append_assoc, List.cons_append]
    refine .frame (f := { f with trees := x :: f.trees }) below opens ?_
    rw [List.reverse_cons]
    exact inside.append more

/-- A step that reports nothing. -/
theorem Reached.step {ts : List Token} (h : Reached ts n.frames n.outer)
    (quiet : (n.step t).faults = []) :
    Reached (ts ++ [t]) (n.step t).frames (n.step t).outer := by
  cases opens : t.kind.opens? with
  | some d =>
    rw [step_opens opens]
    exact .frame (f := ⟨t, d, []⟩) h opens .nil
  | none =>
    cases closes : t.kind.closes? with
    | none =>
      rw [step_token opens closes]
      exact h.add (.token opens closes .nil)
    | some d =>
      rw [step_closes closes] at quiet ⊢
      obtain ⟨frames, outer, faults⟩ := n
      cases h with
      | outer => cases quiet
      | @frame ts inner f fs _ below opens inside =>
        simp only [close, add_faults] at quiet ⊢
        split at quiet
        · rename_i partners
          rw [List.append_assoc, List.cons_append]
          refine Reached.add (n := ⟨fs, outer, _⟩) below ?_
          exact .group opens (partners ▸ closes) inside .nil
        · cases quiet

/-- Faults stay. -/
theorem faults_step (n : Nesting) (t : Token) : n.faults <:+ (n.step t).faults := by
  cases opens : t.kind.opens? with
  | some d =>
    rw [step_opens opens]
    exact List.suffix_rfl
  | none =>
    cases closes : t.kind.closes? with
    | none =>
      have kept : (n.step t).faults = n.faults := by rw [step_token opens closes, add_faults]
      exact kept.symm ▸ List.suffix_rfl
    | some d =>
      rw [step_closes closes, close]
      split
      · exact List.suffix_cons _ _
      · rw [add_faults]
        split
        · exact List.suffix_rfl
        · exact List.suffix_cons _ _

theorem faults_foldl (n : Nesting) (us : List Token) :
    n.faults <:+ (us.foldl Nesting.step n).faults := by
  induction us generalizing n with
  | nil => exact List.suffix_rfl
  | cons u us ih => exact (faults_step n u).trans (ih (n.step u))

theorem Reached.foldl {ts us : List Token} (h : Reached ts n.frames n.outer)
    (quiet : (us.foldl Nesting.step n).faults = []) :
    Reached (ts ++ us) (us.foldl Nesting.step n).frames (us.foldl Nesting.step n).outer := by
  induction us generalizing ts n with
  | nil => rwa [List.append_nil]
  | cons u us ih =>
    have quietStep : (n.step u).faults = [] :=
      List.suffix_nil.1 (quiet ▸ faults_foldl (n.step u) us)
    have last := ih (h.step quietStep) quiet
    rwa [List.append_assoc] at last

theorem finish_ok {trees : List TokenTree} :
    n.finish = .ok trees ↔ n.faults = [] ∧ n.frames = [] ∧ n.outer.reverse = trees := by
  unfold finish
  simp only
  split
  · rename_i quiet
    obtain ⟨faults, frames⟩ := List.append_eq_nil_iff.1 quiet
    simp [List.reverse_eq_nil_iff.1 faults, List.map_eq_nil_iff.1 frames]
  · rename_i loud
    constructor
    · intro h
      cases h
    · rintro ⟨faults, frames, -⟩
      rw [faults, frames] at loud
      exact absurd rfl loud

end Nesting

/-- The trees of tokens are those whose groups stand between partners. -/
theorem nest_ok {tokens : List Token} {trees : List TokenTree} :
    nest tokens = .ok trees ↔ Nests (tokens.takeWhile fun t => t.kind != .eof) trees := by
  unfold nest
  generalize tokens.takeWhile (fun t => t.kind != .eof) = ts
  rw [Nesting.finish_ok]
  constructor
  · rintro ⟨quiet, closed, rfl⟩
    have start : Nesting.Reached [] Nesting.start.frames Nesting.start.outer := .outer .nil
    have last := start.foldl quiet
    rw [closed] at last
    cases last with
    | outer nested => exact nested
  · intro h
    rw [Nesting.foldl_step h, Nesting.start, Nesting.addAll_outer]
    simp

/-- Tokens have one list of trees at most. -/
theorem Nests.unique {ts : List Token} {trees trees' : List TokenTree} (h : Nests ts trees)
    (h' : Nests ts trees') : trees = trees' := by
  have same := (Nesting.foldl_step h .start).symm.trans (Nesting.foldl_step h' .start)
  rw [Nesting.start, Nesting.addAll_outer, Nesting.addAll_outer] at same
  simpa using same

/-! ## The flat view -/

namespace TokenTree

@[simp]
theorem flatten_append (ts us : List TokenTree) :
    flatten (ts ++ us) = flatten ts ++ flatten us := by
  induction ts with
  | nil => rfl
  | cons t ts ih => simp [flatten, ih]

end TokenTree

/-! ## Items of tokens -/

/-- The item of a token; that of a delimiter follows from its kind. -/
def itemOf (kind : TokenKind) (text : String) : FlatItem :=
  ((kind.opens?.map fun d => FlatItem.delimiter d d.opening).or
    (kind.closes?.map fun d => FlatItem.delimiter d d.closing)).getD (.token kind text)

/-- The item of a token. -/
def Token.item (t : Token) : FlatItem :=
  itemOf t.kind t.text

theorem itemOf_token {kind : TokenKind} {text : String} (opens : kind.opens? = none)
    (closes : kind.closes? = none) : itemOf kind text = .token kind text := by
  simp [itemOf, opens, closes]

theorem token_of_itemOf {kind kind' : TokenKind} {text text' : String}
    (h : itemOf kind text = .token kind' text') :
    kind.opens? = none ∧ kind.closes? = none ∧ kind = kind' ∧ text = text' := by
  unfold itemOf at h
  cases opens : kind.opens? with
  | some d => simp [opens] at h
  | none =>
    cases closes : kind.closes? with
    | some d => simp [opens, closes] at h
    | none => simpa [opens, closes] using h

theorem opens_of_itemOf {kind : TokenKind} {text : String} {d : Delimiter}
    (visible : d ≠ .invisible) (h : itemOf kind text = .delimiter d d.opening) :
    kind.opens? = some d := by
  revert h visible
  cases kind <;> cases d <;> simp [itemOf, TokenKind.opens?, TokenKind.closes?, Delimiter.opening,
    Delimiter.closing]

theorem closes_of_itemOf {kind : TokenKind} {text : String} {d : Delimiter}
    (visible : d ≠ .invisible) (h : itemOf kind text = .delimiter d d.closing) :
    kind.closes? = some d := by
  revert h visible
  cases kind <;> cases d <;> simp [itemOf, TokenKind.opens?, TokenKind.closes?, Delimiter.opening,
    Delimiter.closing]

/-! ## Tokens with the items of some trees -/

/-- An item that only one token can have. -/
def FlatItem.Single : FlatItem → Prop
  | .token kind text => kind = .punct → ∃ c, text = String.singleton c
  | .delimiter .. => False

theorem Token.single_flat {t : Token} : ∀ item ∈ t.flat, item.Single := by
  unfold Token.flat
  split
  · rintro item mem
    obtain ⟨c, -, rfl⟩ := List.mem_map.1 mem
    exact fun _ => ⟨c, rfl⟩
  · rename_i other
    rintro item mem
    cases List.mem_singleton.1 mem
    exact fun punct => absurd punct other

theorem Token.flat_eq_item {t : Token} (h : t.item.Single) :
    t.kind.opens? = none ∧ t.kind.closes? = none ∧ t.flat = [t.item] := by
  unfold Token.item at h ⊢
  cases eq : itemOf t.kind t.text with
  | delimiter d text =>
    rw [eq] at h
    exact h.elim
  | token kind text =>
    obtain ⟨opens, closes, rfl, rfl⟩ := token_of_itemOf eq
    rw [eq] at h
    refine ⟨opens, closes, ?_⟩
    unfold Token.flat
    split
    · rename_i punct
      obtain ⟨c, single⟩ := h punct
      simp [single, punct]
    · rfl

theorem nests_single {tokens : List Token} (h : ∀ t ∈ tokens, t.item.Single) :
    Nests tokens (tokens.map .token) ∧ flatten (tokens.map .token) = tokens.map Token.item := by
  induction tokens with
  | nil => exact ⟨.nil, rfl⟩
  | cons t ts ih =>
    obtain ⟨opens, closes, flat⟩ := Token.flat_eq_item (h t List.mem_cons_self)
    obtain ⟨nested, items⟩ := ih fun u mem => h u (List.mem_cons_of_mem t mem)
    exact ⟨.token opens closes nested, by simp [flatten, TokenTree.flat, flat, items]⟩

mutual

theorem nests_flat : (t : TokenTree) → {tokens : List Token} → tokens.map Token.item = t.flat →
    ∃ us, Nests tokens us ∧ flatten us = t.flat
  | .token t, tokens, h => by
    have single : ∀ u ∈ tokens, u.item.Single := fun u mem =>
      Token.single_flat (t := t) _ (by rw [← show _ = t.flat from h]; exact List.mem_map_of_mem mem)
    obtain ⟨nested, items⟩ := nests_single single
    exact ⟨_, nested, items.trans h⟩
  | .group d ts o e, tokens, h => by
    by_cases invisible : d = .invisible
    · subst invisible
      simp only [flat, flatDelimiter, List.nil_append, List.append_nil] at h ⊢
      exact nests_flatten ts h
    · have whole : (TokenTree.group d ts o e).flat =
          .delimiter d d.opening :: (flatten ts ++ [.delimiter d d.closing]) := by
        cases d <;> first | rfl | exact absurd rfl invisible
      rw [whole] at h ⊢
      obtain ⟨first, more, rfl, opening, h⟩ := List.map_eq_cons_iff.1 h
      obtain ⟨inner, back, rfl, inside, h⟩ := List.map_eq_append_iff.1 h
      obtain ⟨last, nothing, rfl, closing, h⟩ := List.map_eq_cons_iff.1 h
      cases List.map_eq_nil_iff.1 h
      obtain ⟨us, nested, items⟩ := nests_flatten ts inside
      refine ⟨_, .group (opens_of_itemOf invisible opening) (closes_of_itemOf invisible closing)
        nested .nil, ?_⟩
      rw [← whole, flatten, flatten, List.append_nil, flat, flat, items]

/-- Tokens with the items of some trees have trees with the same flat view. -/
theorem nests_flatten : (ts : List TokenTree) → {tokens : List Token} →
    tokens.map Token.item = flatten ts → ∃ us, Nests tokens us ∧ flatten us = flatten ts
  | [], tokens, h => by
    cases List.map_eq_nil_iff.1 h
    exact ⟨[], .nil, rfl⟩
  | t :: ts, tokens, h => by
    obtain ⟨front, back, rfl, first, more⟩ := List.map_eq_append_iff.1 h
    obtain ⟨us, nested, items⟩ := nests_flat t first
    obtain ⟨ws, nested', items'⟩ := nests_flatten ts more
    exact ⟨us ++ ws, nested.append nested', by rw [flatten_append, items, items', flatten]⟩

end

end TypeGrammar
