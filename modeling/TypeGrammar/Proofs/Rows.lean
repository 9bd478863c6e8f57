import TypeGrammar.Proofs.Abutting
import TypeGrammar.Proofs.Orderly

/-!
# Rows of chunks

Most operators of a type are never glued to what follows, whatever stands next to each other. A row
of chunks starts with no operator that others might be glued to, and ends in none that might be
glued to others; so rows in order are a row, and a row is legible wherever nothing is glued to its
end.
-/

namespace TypeGrammar

open TokenTree
open Chunk (treesAll)

/-! ## Operators at the ends of rows -/

/-- The operators that may stand at both ends of a row. -/
def typeSigns : List String :=
  ["&", "*", ">", "::", "+", ",", ";", "#", "?", "!", "->", "..."]

/-- The operators that may stand at the front of a row. -/
def openers : List String :=
  typeSigns ++ ["<", "-", "||", "&&", "!=", "<=", ">=", "<<", ">>", "|", "^", "/", "%"]

/-- The operators that may stand at the end of a row, where they have no operand on both sides. -/
def closers : List String :=
  typeSigns ++ [":", "="]

/-- No opener lengthens a closer in front of it, but for `::` after `:`. -/
theorem openers_after_closers : ∀ op ∈ "<" :: closers, ∀ next ∈ openers,
    lengthens false op next = true → op = ":" ∧ next = "::" := by
  decide

section

variable {before : Option Atom} {next : Option Token} {t u : Token} {binary : Bool}
  {ps qs : List Chunk}

theorem not_glued_none : ¬ Glued before t binary none := by
  rintro ⟨u, ⟨⟩, -⟩

theorem not_glued (closes : t.text ∈ "<" :: closers) (opens : u.text ∈ openers) :
    ¬ Glued before t false (some u) := by
  rintro ⟨_, ⟨⟩, tight, longer⟩
  obtain ⟨colon, colons⟩ := openers_after_closers _ closes _ opens longer
  -- a blank stands between `:` and `::`
  rw [colon, colons] at tight
  cases tight

/-! ## Chunks that stay legible -/

/-- The last atom of some chunks, or else what stands before them. -/
def finalAtom (before : Option Atom) (ps : List Chunk) : Option Atom :=
  (ps.getLast?.map Chunk.final).or before

theorem finalAtom_append (before : Option Atom) (ps qs : List Chunk) :
    finalAtom before (ps ++ qs) = finalAtom (finalAtom before ps) qs := by
  rw [finalAtom, finalAtom, List.getLast?_append]
  cases qs.getLast? <;> rfl

/-- The operator at the end of some chunks, if there is one, is not glued to what follows. -/
def EndsFree (before : Option Atom) (ps : List Chunk) (next : Option Token) : Prop :=
  ∀ front t binary, ps = front ++ [.mark t binary] → ¬ Glued (finalAtom before front) t binary next

theorem EndsFree.none : EndsFree before ps none :=
  fun _ _ _ _ => not_glued_none

/-- Chunks that are legible wherever nothing is glued to their end. -/
def Sturdy (ps : List Chunk) : Prop :=
  ∀ before next, EndsFree before ps next → LegibleAll before next ps

theorem nextSign_of_ne (nonempty : qs ≠ []) : nextSign next qs = nextSign none qs := by
  cases qs with
  | nil => exact absurd rfl nonempty
  | cons => rfl

theorem legibleAll_append : LegibleAll before next (ps ++ qs) ↔
    LegibleAll before (nextSign next qs) ps ∧ LegibleAll (finalAtom before ps) next qs := by
  induction ps generalizing before with
  | nil => simp [LegibleAll, finalAtom]
  | cons p ps ih =>
    have ahead : nextSign next (ps ++ qs) = nextSign (nextSign next qs) ps := by cases ps <;> rfl
    have last : finalAtom before (p :: ps) = finalAtom (some p.final) ps :=
      finalAtom_append _ [p] ps
    rw [List.cons_append, LegibleAll, LegibleAll, ih, ahead, last, and_assoc]

theorem Sturdy.append (h : Sturdy ps) (h' : Sturdy qs)
    (seam : ∀ before, qs ≠ [] → EndsFree before ps (nextSign none qs)) : Sturdy (ps ++ qs) := by
  intro before next free
  by_cases nothing : qs = []
  · subst nothing
    rw [List.append_nil] at free ⊢
    exact h before next free
  · refine legibleAll_append.2 ⟨?_, h' _ _ fun front t binary eq => ?_⟩
    · rw [nextSign_of_ne nothing]
      exact h before _ (seam before nothing)
    · rw [← finalAtom_append]
      exact free _ t binary (by rw [eq, List.append_assoc])

theorem sturdy_mark (t : Token) (binary : Bool) : Sturdy [.mark t binary] :=
  fun _ _ free => ⟨free [] t binary rfl, trivial⟩

/-! ## Rows -/

/-- Chunks that can stand next to others of the same sort. -/
structure IsRow (ps : List Chunk) : Prop where
  opens : ∀ t binary, ps.head? = some (.mark t binary) → t.text ∈ openers
  closes : ∀ t binary, ps.getLast? = some (.mark t binary) → binary = false ∧ t.text ∈ closers
  sturdy : Sturdy ps

namespace IsRow

theorem nil : IsRow [] :=
  ⟨by rintro _ _ ⟨⟩, by rintro _ _ ⟨⟩, fun _ _ _ => trivial⟩

/-- What is no operator is a row. -/
theorem single {p : Chunk} (noSign : p.sign? = none) (h : ∀ before, p.Legible before none) :
    IsRow [p] := by
  refine ⟨?_, ?_, fun before next _ => ⟨?_, trivial⟩⟩
  · rintro _ _ ⟨⟩
    cases noSign
  · rintro _ _ ⟨⟩
    cases noSign
  · cases p with
    | mark => cases noSign
    | word | group | raw | verbatim => exact h before

theorem word (t : Token) : IsRow [.word t] :=
  .single rfl fun _ => trivial

theorem raw {d : Delim} (visible : d.delimiter ≠ .invisible) (tokens : List TokenTree) :
    IsRow [.raw d tokens] :=
  .single rfl fun _ => visible

theorem group {d : Delim} (visible : d.delimiter ≠ .invisible) (h : IsRow ps) :
    IsRow [.group d ps] :=
  .single rfl fun _ => ⟨visible, h.sturdy _ _ .none⟩

theorem parens {d : Delim} (paren : d.delimiter = .paren) (h : IsRow ps) : IsRow [.group d ps] :=
  .group (by simp [paren]) h

theorem brackets {d : Delim} (bracket : d.delimiter = .bracket) (h : IsRow ps) :
    IsRow [.group d ps] :=
  .group (by simp [bracket]) h

/-- An operator in front of a row is not glued to it. -/
theorem free (closes : t.text ∈ "<" :: closers) (h : IsRow qs) (before : Option Atom) :
    ¬ Glued before t false (nextSign none qs) := by
  cases qs with
  | nil => exact not_glued_none
  | cons q qs =>
    cases q with
    | mark u binary => exact not_glued closes (h.opens u binary rfl)
    | word | group | raw | verbatim => exact not_glued_none

theorem append (h : IsRow ps) (h' : IsRow qs) : IsRow (ps ++ qs) where
  opens t binary first := by
    cases ps with
    | nil => exact h'.opens t binary first
    | cons p ps => exact h.opens t binary first
  closes t binary last := by
    rw [List.getLast?_append] at last
    obtain last | ⟨-, last⟩ := Option.or_eq_some_iff.1 last
    · exact h'.closes t binary last
    · exact h.closes t binary last
  sturdy := h.sturdy.append h'.sturdy fun before _ front t binary eq => by
    obtain ⟨rfl, closes⟩ := h.closes t binary (by rw [eq, List.getLast?_concat])
    exact h'.free (List.mem_cons_of_mem _ closes) _

/-- A sign that may stand anywhere in a row. -/
theorem sign {op : String} (h : t.IsSign op) (known : op ∈ typeSigns) : IsRow [.mark t false] := by
  obtain ⟨span, rfl⟩ := h
  exact ⟨by rintro _ _ ⟨⟩; exact List.mem_append_left _ known,
    by rintro _ _ ⟨⟩; exact ⟨rfl, List.mem_append_left _ known⟩, sturdy_mark _ _⟩

/-- A word in front of a row. -/
theorem consWord (t : Token) (h : IsRow ps) : IsRow (.word t :: ps) :=
  (word t).append h

/-- A sign in front of a row. -/
theorem consSign {op : String} (h : t.IsSign op) (known : op ∈ typeSigns) (h' : IsRow ps) :
    IsRow (.mark t false :: ps) :=
  (sign h known).append h'

/-- A word with a sign after it. -/
theorem wordSign {op : String} (t : Token) (h : u.IsSign op) (closes : op ∈ closers) :
    IsRow [.word t, .mark u false] where
  opens := by rintro _ _ ⟨⟩
  closes := by
    obtain ⟨span, rfl⟩ := h
    rintro _ _ ⟨⟩
    exact ⟨rfl, closes⟩
  sturdy := (word t).sturdy.append (sturdy_mark u false) fun _ _ front _ _ eq => by
    obtain ⟨-, ends⟩ := List.append_inj' (show [] ++ [Chunk.word t] = _ from eq) rfl
    cases ends

/-- A sign in front of a row that is not empty, to which it is not glued. -/
theorem lead (opens : t.text ∈ openers) (nonempty : qs ≠ []) (h : IsRow qs)
    (free : ∀ before, ¬ Glued before t false (nextSign none qs)) : IsRow (.mark t false :: qs) where
  opens := by rintro _ _ ⟨⟩; exact opens
  closes u binary last := by
    obtain ⟨q, qs, rfl⟩ := List.exists_cons_of_ne_nil nonempty
    exact h.closes u binary (by rwa [List.getLast?_cons_cons] at last)
  sturdy := (sturdy_mark t false).append h.sturdy fun before _ front u binary eq => by
    obtain ⟨rfl, ends⟩ := List.append_inj' (show [] ++ [Chunk.mark t false] = _ from eq) rfl
    cases ends
    exact free _

/-- An angle bracket in front of a row that is not empty. -/
theorem angle (h : t.IsSign "<") (nonempty : qs ≠ []) (row : IsRow qs) :
    IsRow (.mark t false :: qs) := by
  obtain ⟨span, rfl⟩ := h
  have opens : "<" ∈ openers := by simp [openers]
  exact .lead opens nonempty row (row.free List.mem_cons_self)

theorem flatMap {α : Type} {xs : List α} {f : α → List Chunk} (h : ∀ x ∈ xs, IsRow (f x)) :
    IsRow (xs.flatMap f) := by
  induction xs with
  | nil => exact .nil
  | cons x xs ih =>
    obtain ⟨here, later⟩ := List.forall_mem_cons.1 h
    exact here.append (ih later)

/-- Values with separators that may stand anywhere in a row. -/
theorem separated {α : Type} {xs : Separated α} {f : α → List Chunk} {op : String}
    (known : op ∈ typeSigns) (split : xs.SplitBy op)
    (h : ∀ x ∈ xs.toList, IsRow (f x)) : IsRow (xs.chunks f) := by
  induction xs with
  | empty => exact .nil
  | last v => exact h v List.mem_cons_self
  | cons v s rest ih =>
    obtain ⟨here, later⟩ := List.forall_mem_cons.1 h
    exact here.append ((sign split.1 known).append (ih split.2 later))

theorem words (o : Option Token) : IsRow (wordChunks o) := by
  cases o with
  | none => exact .nil
  | some t => exact .word t

theorem marks {o : Option Token} {op : String} (h : ∀ t ∈ o, t.IsSign op)
    (known : op ∈ typeSigns) : IsRow (markChunks o) := by
  cases o with
  | none => exact .nil
  | some t => exact .sign (h t rfl) known

theorem getD_map {α : Type} {f : α → List Chunk} (h : ∀ x, IsRow (f x)) (o : Option α) :
    IsRow ((o.map f).getD []) := by
  cases o with
  | none => exact .nil
  | some x => exact h x

theorem whole (h : IsRow ps) : IsRow (ChunkLayout.whole ps).chunks := by
  rwa [ChunkLayout.chunks_whole]

end IsRow

/-! ## Parts without types inside -/

theorem Attribute.Signed.row {a : Attribute} (h : a.Signed) : IsRow a.chunks :=
  (IsRow.sign h.1 (by simp [typeSigns])).append (.raw (by simp [h.2]) a.tokens)

theorem Lifetime.row (l : Lifetime) : IsRow l.chunks :=
  .word l.token

theorem LifetimeDef.Signed.row {d : LifetimeDef} (h : d.Signed) : IsRow d.chunks := by
  obtain ⟨attributes, l, colon, bounds⟩ := d
  obtain ⟨signed, colons, split⟩ := h
  have front : IsRow (attributes.flatMap Attribute.chunks) :=
    .flatMap fun a mem => (signed a mem).row
  have sign : (colon.getD (Token.punct ":" Span.callSite)).IsSign ":" := by
    cases colon with
    | none => exact ⟨_, rfl⟩
    | some t => exact colons t rfl
  have named := IsRow.wordSign l.token sign (by simp [closers])
  rw [LifetimeDef.chunks, List.append_assoc]
  refine front.append ?_
  cases bounds with
  | empty => exact .word l.token
  | last b => exact named.append b.row
  | cons b s rest => exact named.append (.separated (by simp [typeSigns]) split fun b _ => b.row)

theorem Binder.Signed.row {b : Binder} (h : b.Signed) : IsRow b.chunks := by
  have inner := (IsRow.separated (by simp [typeSigns]) h.commas fun d mem =>
    (h.lifetimes d mem).row).append (.sign h.gt (by simp [typeSigns]))
  exact (IsRow.word b.forToken).append (.angle h.lt (by simp) inner)

theorem binderRow {b : Option Binder} (h : ∀ b' ∈ b, b'.Signed) : IsRow (binderChunks b) := by
  cases b with
  | none => exact .nil
  | some b => exact (h b rfl).row

theorem Abi.row (a : Abi) : IsRow a.chunks :=
  (IsRow.word a.externToken).append (.words a.name)

end

end TypeGrammar
