import TypeGrammar.Outline
import TypeGrammar.Proofs.Retokenizing
import TypeGrammar.Proofs.Trimming

/-!
# Equal fragments are shown alike

Two fragments are the same if they differ only in places. Then they are written with the same trees
and as the same text, and their outlines have the same lines. Trees and outlines of a fragment hold
its places, so this is shown by forgetting them: whatever is written or shown of a fragment outside
any file is what is written or shown of it.
-/

namespace TypeGrammar

open TokenTree

/-! ## Trees -/

@[simp]
theorem eraseAll_tokenTrees (t : Option Token) :
    eraseAll (tokenTrees t) = tokenTrees (t.map Token.erase) := by
  cases t <;> simp [tokenTrees, eraseAll]

@[simp]
theorem Separated.eraseAll_trees {α : Type} {f : α → List TokenTree} {g : α → α}
    (h : ∀ v, eraseAll (f v) = f (g v)) (p : Separated α) :
    eraseAll (p.trees f) = ((p.map g).mapSeparators Token.erase).trees f := by
  induction p with
  | empty => rfl
  | last v => exact h v
  | cons v s rest ih => simp [trees, map, mapSeparators, h, ih]

@[simp]
theorem Attribute.eraseAll_trees (a : Attribute) : eraseAll a.trees = a.erase.trees := by
  simp [Attribute.trees, erase]

theorem eraseAll_attributes (as : List Attribute) :
    eraseAll (as.flatMap Attribute.trees) = (as.map Attribute.erase).flatMap Attribute.trees := by
  induction as with
  | nil => rfl
  | cons a as ih => simp [ih]

@[simp]
theorem Lifetime.eraseAll_trees (l : Lifetime) : eraseAll l.trees = l.erase.trees := by
  simp [Lifetime.trees, erase]

@[simp]
theorem LifetimeDef.eraseAll_trees (d : LifetimeDef) : eraseAll d.trees = d.erase.trees := by
  rcases d with ⟨attributes, lifetime, colon, bounds⟩
  have marks : (colon.getD (Token.punct ":" Span.callSite)).erase =
      (colon.map Token.erase).getD (Token.punct ":" Span.callSite) := by
    cases colon <;> rfl
  have own := Separated.eraseAll_trees Lifetime.eraseAll_trees bounds
  cases bounds <;>
    simp_all [LifetimeDef.trees, erase, eraseAll_attributes, Separated.map, Separated.mapSeparators]

@[simp]
theorem Binder.eraseAll_trees (b : Binder) : eraseAll b.trees = b.erase.trees := by
  simp [Binder.trees, erase, Separated.eraseAll_trees LifetimeDef.eraseAll_trees]

@[simp]
theorem eraseAll_binderTrees_map (b : Option Binder) :
    eraseAll (binderTrees b) = binderTrees (b.map Binder.erase) := by
  cases b <;> simp [binderTrees, eraseAll]

@[simp]
theorem Abi.eraseAll_trees (a : Abi) : eraseAll a.trees = a.erase.trees := by
  simp [Abi.trees, erase]

namespace Node

variable {k : Category}

@[simp]
theorem acceptsValue_erase : (n : Node (.list k)) → n.erase.acceptsValue = n.acceptsValue
  | .nil | .last _ => rfl
  | .cons _ _ rest => acceptsValue_erase rest

end Node

/-! ## Text -/

theorem mergeAfter_erase (pending : String) (ms : List Mark) :
    mergeAfter pending (ms.map Mark.erase) = mergeAfter pending ms := by
  fun_induction mergeAfter pending ms <;> simp_all [mergeAfter, Mark.erase, Token.erase]

theorem render_eraseAll (ts : List TokenTree) : render (eraseAll ts) = render ts := by
  rw [render, render, atoms, atoms, marksAll_eraseAll, mergeAfter_erase]

namespace Fragment

end Fragment

/-! ## Outlines -/

namespace Outline

theorem itemLines_ofPairs (depth : Nat) (ps : List (Outline × Option Token)) :
    itemLines depth (.ofPairs ps) = ps.flatMap fun p => lines depth p.1 := by
  induction ps with
  | nil => simp [OutlineItems.ofPairs, itemLines]
  | cons p ps ih => simp [OutlineItems.ofPairs, itemLines, ih]

theorem fieldLines_cons (depth : Nat) (name : String) (value : Outline) (rest : OutlineFields) :
    fieldLines depth (.cons name value rest) =
      fieldLines depth (.cons name value .nil) ++ fieldLines depth rest := by
  cases value with
  | trees ts => cases ts <;> simp [fieldLines]
  | _ => simp [fieldLines]

/-- Outlines that have the same lines as values of a field. -/
def SameField (o o' : Outline) : Prop :=
  ∀ depth name, fieldLines depth (.cons name o .nil) = fieldLines depth (.cons name o' .nil)

/-- Outlines that have the same lines by themselves, as items of a list and as values of a field. -/
structure Same (o o' : Outline) : Prop where
  lines depth : lines depth o = lines depth o'
  field : SameField o o'

namespace SameField

@[simp, refl]
theorem refl (o : Outline) : SameField o o :=
  fun _ _ => rfl

@[simp]
theorem token (t : Token) : SameField (.token t.erase) (.token t) :=
  fun _ _ => by simp [fieldLines, tokenLeaf, Token.erase]

@[simp]
theorem delim (d : Delim) : SameField (.delim d.erase) (.delim d) :=
  fun depth name => by
    have leaf : delimLeaf d.erase = delimLeaf d := rfl
    simp [fieldLines, leaf]

theorem trees (ts : List TokenTree) : SameField (.trees (eraseAll ts)) (.trees ts) := by
  intro depth name
  cases ts with
  | nil => rfl
  | cons t ts =>
    have same := render_eraseAll (t :: ts)
    rw [eraseAll] at same
    simp [fieldLines, eraseAll, same]

theorem tuple {items items' : OutlineItems}
    (h : ∀ depth, itemLines depth items = itemLines depth items') :
    SameField (.tuple items) (.tuple items') :=
  fun _ _ => by simp [fieldLines, h]

theorem separated {items items' : OutlineItems}
    (h : ∀ depth, itemLines depth items = itemLines depth items') :
    SameField (.separated items) (.separated items') :=
  fun _ _ => by simp [fieldLines, h]

theorem optional {α : Type} {f : α → Outline} {g : α → α} (h : ∀ a, SameField (f (g a)) (f a))
    (o : Option α) : SameField (.optional f (o.map g)) (.optional f o) := by
  cases o with
  | none => exact .refl _
  | some a => exact h a

theorem ofSeparated {α : Type} {f : α → Outline} {g : α → α} (h : ∀ a, Same (f (g a)) (f a))
    (p : Separated α) :
    SameField (.ofSeparated f ((p.map g).mapSeparators Token.erase)) (.ofSeparated f p) := by
  refine separated fun depth => ?_
  rw [itemLines_ofPairs, itemLines_ofPairs]
  induction p with
  | empty => rfl
  | last v => simp [Separated.map, Separated.mapSeparators, Separated.pairs, (h v).lines]
  | cons v s rest ih =>
    simpa [Separated.map, Separated.mapSeparators, Separated.pairs, (h v).lines] using ih

end SameField

/-- Fields with the same names and with values that are shown alike. -/
def SameFields : List (String × Outline) → List (String × Outline) → Prop :=
  List.Forall₂ fun f f' => f.1 = f'.1 ∧ SameField f.2 f'.2

theorem SameFields.lines {fields fields' : List (String × Outline)} (h : SameFields fields fields')
    (depth : Nat) : fieldLines depth (.ofList fields) = fieldLines depth (.ofList fields') := by
  induction h with
  | nil => rfl
  | @cons f f' fields fields' first _ ih =>
    obtain ⟨name, value⟩ := f
    obtain ⟨name', value'⟩ := f'
    obtain ⟨rfl, value⟩ := first
    rw [OutlineFields.ofList, OutlineFields.ofList, fieldLines_cons, value, ih, ← fieldLines_cons]

theorem Same.fragment {self self' : Fragment} {fields fields' : List (String × Outline)}
    (kind : self.kind = self'.kind) (h : SameFields fields fields') :
    Same (.fragment self (.ofList fields)) (.fragment self' (.ofList fields')) where
  lines depth := by simp [Outline.lines, kind, h.lines]
  field depth name := by simp [fieldLines, kind, h.lines]

end Outline

open Outline

@[simp]
theorem Attribute.same (a : Attribute) : Same a.erase.outline a.outline :=
  .fragment rfl (by simp [SameFields, erase, SameField.trees])

@[simp]
theorem Attribute.sameField (as : List Attribute) :
    SameField (attributesOutline (as.map erase)) (attributesOutline as) := by
  refine .tuple fun depth => ?_
  rw [itemLines_ofPairs, itemLines_ofPairs]
  simp [List.flatMap_map, (same _).lines]

@[simp]
theorem Lifetime.same (l : Lifetime) : Same l.erase.outline l.outline :=
  .fragment rfl (by simp [SameFields, erase])

@[simp]
theorem LifetimeDef.same (d : LifetimeDef) : Same d.erase.outline d.outline :=
  .fragment rfl (by
    simp [SameFields, erase, d.lifetime.same.field, SameField.optional, SameField.ofSeparated])

@[simp]
theorem Binder.same (b : Binder) : Same b.erase.outline b.outline :=
  .fragment rfl (by simp [SameFields, erase, SameField.ofSeparated])

@[simp]
theorem Abi.same (a : Abi) : Same a.erase.outline a.outline :=
  .fragment rfl (by simp [SameFields, erase, SameField.optional])

/-! ## Outlines of nodes -/

/-- True for the categories of lists. -/
def Category.isList : Category → Bool
  | list _ => true
  | _ => false

/-- Outlines that have the same lines in the place of a node of a category. A list has no lines by
itself: it is shown as a record, with its places. -/
structure Outline.SameIn (k : Category) (o o' : Outline) : Prop where
  field : SameField o o'
  items depth : itemLines depth o.items = itemLines depth o'.items
  lines : k.isList = false → ∀ depth, Outline.lines depth o = Outline.lines depth o'

namespace Outline.SameIn

variable {k : Category}

theorem refl (o : Outline) : SameIn k o o :=
  ⟨.refl o, fun _ => rfl, fun _ _ => rfl⟩

theorem fragment {self self' : Fragment} {fields fields' : List (String × Outline)}
    (kind : self.kind = self'.kind) (h : SameFields fields fields') :
    SameIn k (.fragment self (.ofList fields)) (.fragment self' (.ofList fields')) :=
  ⟨(Same.fragment kind h).field, fun _ => rfl, fun _ => (Same.fragment kind h).lines⟩

theorem list {items items' : OutlineItems}
    (h : ∀ depth, itemLines depth items = itemLines depth items') :
    SameIn (.list k) (.separated items) (.separated items') :=
  ⟨.separated h, h, fun isList => by simp [Category.isList] at isList⟩

end Outline.SameIn

namespace Fragment

/-- True for lists. They are no syntax by themselves. -/
def isList : Fragment → Bool
  | node k _ => k.isList
  | _ => false

end Fragment

end TypeGrammar
