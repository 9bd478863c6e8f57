import TypeGrammar.Proofs.Unchanged

/-!
# Chunks with regular contents

Chunks are regular if their words and the contents of their raw groups are of a given sort, and
their marks are operators that nodes hold. What trees pass on to the trees inside of them holds of
the chunks that they spell; and what is printed of regular chunks is regular.
-/

namespace TypeGrammar

open TokenTree

mutual

/-- A chunk of a word that is allowed, of an operator, of allowed contents, or of a group of such
chunks. -/
def Chunk.Regular (word : Token → Prop) (body : List TokenTree → Prop) : Chunk → Prop
  | .word t => t.kind ≠ .punct ∧ word t
  | .mark t _ => t.kind = .punct ∧ t.joint = false ∧ t.text ∈ signs
  | .group _ inner => RegularAll word body inner
  | .raw _ tokens => body tokens
  | .verbatim _ => False

/-- Chunks that are all regular. -/
def RegularAll (word : Token → Prop) (body : List TokenTree → Prop) : List Chunk → Prop
  | [] => True
  | p :: ps => p.Regular word body ∧ RegularAll word body ps

end

/-- An operator that is no longer than one character. -/
theorem sign_of_short {op : String} (sign : op ∈ signs) (short : ¬ 1 < op.length) :
    ∃ c, op = String.singleton c := by
  obtain ⟨c, cs, eq⟩ := List.exists_cons_of_ne_nil (signs_nonempty _ sign)
  have single : op.toList.length ≤ 1 := by
    rw [String.length_toList]
    exact Nat.not_lt.1 short
  obtain rfl : cs = [] := by
    rw [eq] at single
    exact List.length_eq_zero_iff.1 (Nat.le_zero.1 (Nat.le_of_succ_le_succ single))
  exact ⟨c, String.toList_inj.1 (by simpa using eq)⟩

/-! ## Chunks that trees spell -/

/-- What holds of some trees passes on to the words and the groups among them. -/
structure Inherited (p : List TokenTree → Prop) (word : Token → Prop)
    (body : List TokenTree → Prop) : Prop where
  append {ts us : List TokenTree} : p (ts ++ us) → p ts ∧ p us
  group {d : Delimiter} {ts : List TokenTree} {o e : Span} : p [.group d ts o e] → p ts
  word {t u : Token} : p [.token t] → t.kind ≠ .punct → t.erase = u.erase → word u
  body {ts us : List TokenTree} : p ts → eraseAll ts = eraseAll us → body us

theorem Inherited.and {p p' : List TokenTree → Prop} {word word' : Token → Prop}
    {body body' : List TokenTree → Prop} (h : Inherited p word body)
    (h' : Inherited p' word' body') :
    Inherited (fun ts => p ts ∧ p' ts) (fun t => word t ∧ word' t)
      fun ts => body ts ∧ body' ts where
  append both :=
    ⟨⟨(h.append both.1).1, (h'.append both.2).1⟩, (h.append both.1).2, (h'.append both.2).2⟩
  group both := ⟨h.group both.1, h'.group both.2⟩
  word both other same := ⟨h.word both.1 other same, h'.word both.2 other same⟩
  body both same := ⟨h.body both.1 same, h'.body both.2 same⟩

section

variable {p : List TokenTree → Prop} {word : Token → Prop} {body : List TokenTree → Prop}

mutual

theorem Chunk.Spelled.regular (inherited : Inherited p word body) {q : Chunk}
    {ts rest : List TokenTree} (h : q.Spelled .full ts rest) (holds : p ts) :
    q.Regular word body := by
  match q, h with
  | .word t, ⟨⟨kind, _⟩, t', eq, same⟩ =>
    subst eq
    obtain ⟨kinds, -, -⟩ := erase_eq_iff.1 same
    exact ⟨kind, inherited.word holds (kinds ▸ kind) same⟩
  | .mark t binary, h => exact ⟨h.1, h.2.1, h.2.2.1⟩
  | .group d inner, ⟨us, o, e, eq, inside⟩ =>
    subst eq
    exact inside.regular inherited (inherited.group holds)
  | .raw d tokens, ⟨us, o, e, eq, same⟩ =>
    subst eq
    exact inherited.body (inherited.group holds) same

theorem Spells.regular (inherited : Inherited p word body) {qs : List Chunk}
    {ts rest : List TokenTree} (h : Spells .full qs ts rest) (holds : p ts) :
    RegularAll word body qs := by
  match qs with
  | [] => trivial
  | q :: qs =>
    obtain ⟨us, ws, rfl, first, more⟩ := spells_cons.1 h
    obtain ⟨front, back⟩ := inherited.append holds
    exact ⟨first.regular inherited front, more.regular inherited back⟩

end

end

/-! ## Chunks that are printed -/

section

variable {word : Token → Prop} {body : List TokenTree → Prop} {ps qs : List Chunk}

theorem regularAll_append :
    RegularAll word body (ps ++ qs) ↔ RegularAll word body ps ∧ RegularAll word body qs := by
  induction ps with
  | nil => simp [RegularAll]
  | cons p ps ih => simp [RegularAll, ih, and_assoc]

theorem Separated.regularAll_chunks {α : Type} {p : Separated α} {f g : α → List Chunk}
    (h : ∀ x, RegularAll word body (f x) → RegularAll word body (g x))
    (regular : RegularAll word body (p.chunks f)) :
    RegularAll word body (p.chunks g) := by
  induction p with
  | empty => trivial
  | last x => exact h x regular
  | cons x s rest ih =>
    simp only [chunks, regularAll_append, RegularAll] at regular ⊢
    exact ⟨h x regular.1, regular.2.1, ih regular.2.2⟩

theorem LifetimeDef.regular_chunks (d : LifetimeDef) (h : RegularAll word body d.source) :
    RegularAll word body d.chunks := by
  rcases d with ⟨as, l, colon, bounds⟩
  simp only [source, chunks, regularAll_append] at h ⊢
  refine ⟨⟨h.1, h.2.1⟩, ?_⟩
  have colon :
      (Chunk.mark (colon.getD (Token.punct ":" Span.callSite)) false).Regular word body := by
    cases colon with
    | none => exact ⟨rfl, rfl, by decide⟩
    | some s => exact h.2.2.1.1
  cases bounds with
  | empty => trivial
  | last | cons => exact ⟨colon, h.2.2.2⟩

theorem Binder.regular_chunks (b : Binder) (h : RegularAll word body b.source) :
    RegularAll word body b.chunks := by
  simp only [source, chunks, RegularAll, regularAll_append] at h ⊢
  exact ⟨h.1, h.2.1, Separated.regularAll_chunks LifetimeDef.regular_chunks h.2.2.1, h.2.2.2⟩

/-- What is printed of regular chunks is regular. -/
theorem Reprints.regular (h : Reprints qs ps) (regular : RegularAll word body qs) :
    RegularAll word body ps := by
  induction h with
  | nil => trivial
  | same p _ ih => exact ⟨regular.1, ih regular.2⟩
  | inside d _ _ inner ih => exact ⟨inner regular.1, ih regular.2⟩
  | binder b _ _ _ ih =>
    rw [regularAll_append] at regular ⊢
    exact ⟨b.regular_chunks regular.1, ih regular.2⟩
  | moved b b' _ _ _ _ _ ih =>
    rw [regularAll_append] at regular
    have inner := ih regular.2
    simp only [RegularAll, regularAll_append] at inner ⊢
    exact ⟨inner.1, inner.2.1, b.regular_chunks regular.1, inner.2.2.2⟩
  | movedInside b b' _ _ _ _ ih =>
    rw [regularAll_append] at regular
    have inner := ih regular.2
    simp only [RegularAll, Chunk.Regular, regularAll_append] at inner ⊢
    exact ⟨inner.1, ⟨inner.2.1.1, b.regular_chunks regular.1, inner.2.1.2.2⟩, inner.2.2⟩
  | dropped b _ _ _ _ _ _ ih => exact ih (regularAll_append.1 regular).2
  | unwrapped _ _ _ _ _ inner ih => exact ⟨⟨regular.1.1.1, inner regular.1.1.2⟩, ih regular.2⟩

end

/-- What the trees of a text pass on holds of the chunks of the type that is read from the text. -/
theorem regularAll_of_parseText {p : List TokenTree → Prop} {word : Token → Prop}
    {body : List TokenTree → Prop} (inherited : Inherited p word body) {text file : String}
    {line : Int} {plus : Bool} {t : Ty} (h : parseText text file line plus = .ok t)
    (holds : ∀ ts, tokenize text file line = .ok ts → p ts) :
    RegularAll word body t.layout.chunks := by
  obtain ⟨stream, e, c', source, run, done⟩ := tokenize_of_parseText h
  obtain ⟨qs, spelled, same⟩ := reprints_of_parseType run done
  exact same.regular (spelled.regular inherited (holds stream source))

end TypeGrammar
