import TypeGrammar.Proofs.Balance
import TypeGrammar.Proofs.Retokenizing

/-!
# How canonical text is joined

The lexer joins punctuation to punctuation right after it, so the tokens of canonical text follow
from its atoms: the characters of an operator are joint to each other, and the last of them is joint
to the next atom if that is an operator, too, and no blank stands between the two. The joining of
the trees comes back if there is no such pair of operators, and if what is joint in the trees has
punctuation after it.
-/

namespace TypeGrammar

open TokenTree

/-! ## Delimiters -/

theorem proper_edgeTokens (text : String) : ∀ t ∈ edgeTokens text, t.Proper := by
  have known : ∀ x ∈ Lexeme.brackets,
      (∀ d ∈ x.2.opens?, String.singleton x.1 = d.opening) ∧
        ∀ d ∈ x.2.closes?, String.singleton x.1 = d.closing := by
    decide
  intro t mem
  obtain ⟨c, -, mem⟩ := List.mem_flatMap.1 mem
  obtain ⟨kind, bracket, rfl⟩ := Option.map_eq_some_iff.1 (Option.mem_toList.1 mem)
  obtain ⟨opens, closes⟩ := known _ (Lexeme.bracketKind?_mem bracket)
  exact ⟨fun d eq => ⟨opens d eq, rfl⟩, fun d eq => ⟨closes d eq, rfl⟩⟩

/-- A token that is no delimiter. -/
theorem Token.proper_plain {t : Token} (h : t.bracket? = none) : t.Proper := by
  obtain ⟨opens, closes⟩ := Token.bracket?_eq_none.1 h
  exact ⟨fun d eq => by simp [opens] at eq, fun d eq => by simp [closes] at eq⟩

theorem plain_operatorTokens (joint : Bool) (cs : List Char) :
    ∀ t ∈ operatorTokens joint cs, t.bracket? = none := by
  induction cs with
  | nil => exact fun _ mem => absurd mem List.not_mem_nil
  | cons c cs ih => exact List.forall_mem_cons.2 ⟨rfl, ih⟩

theorem proper_atomTokens {a : Atom} (h : a.Sound) (joint : Bool) :
    ∀ t ∈ a.tokens joint, t.Proper := by
  cases a with
  | delimiter text => exact proper_edgeTokens text
  | token kind text =>
    rw [Atom.tokens]
    split
    · exact fun t mem => Token.proper_plain (plain_operatorTokens joint _ t mem)
    · rename_i word
      obtain ⟨opens, closes, -⟩ := (if_neg word).mp h
      exact List.forall_mem_singleton.2
        (Token.proper_plain (Token.bracket?_eq_none.2 ⟨opens, closes⟩))

theorem proper_layTokens {before : Option Atom} {as : List Atom} (sound : ∀ a ∈ as, a.Sound) :
    ∀ t ∈ layTokens before as, t.Proper := by
  induction as generalizing before with
  | nil => exact fun _ mem => absurd mem List.not_mem_nil
  | cons a as ih =>
    obtain ⟨here, later⟩ := List.forall_mem_cons.1 sound
    exact List.forall_mem_append.2 ⟨proper_atomTokens here _, ih later⟩

/-! ## Joining that comes back -/

theorem operatorTokens_concat (joint : Bool) (cs : List Char) (c : Char) :
    operatorTokens joint (cs ++ [c]) =
      operatorTokens true cs ++ [⟨.punct, String.singleton c, .callSite, joint⟩] := by
  induction cs with
  | nil => rfl
  | cons d ds ih => simp [operatorTokens, ih]

/-- Rows of tokens that start with the same operator. -/
theorem operatorTokens_append_inj {j k : Bool} {cs : List Char} (nonempty : cs ≠ [])
    {ts us : List Token} :
    operatorTokens j cs ++ ts = operatorTokens k cs ++ us ↔ j = k ∧ ts = us := by
  obtain ⟨front, last, rfl⟩ := List.eq_nil_or_concat cs |>.resolve_left nonempty
  simp [operatorTokens_concat]

/-- True of punctuation. -/
def Mark.isPunct : Mark → Bool
  | .token t => t.kind == .punct
  | .edge _ => false

/-- True of punctuation that is joint to what follows. -/
def Mark.isJoint : Mark → Bool
  | .token t => t.kind == .punct && t.joint
  | .edge _ => false

/-- The tokens of a mark, outside any file. -/
def Mark.tokens : Mark → List Token
  | .token t => [t.erase]
  | .edge text => edgeTokens text

/-- A mark of a token of a text: it is no delimiter, and joint only if it is punctuation. -/
def Mark.Lexical : Mark → Prop
  | .token t => t.bracket? = none ∧ (t.kind ≠ .punct → t.joint = false)
  | .edge text => text ≠ ""

/-- Punctuation is joint only to punctuation. -/
def Effective : List Mark → Prop
  | [] => True
  | m :: ms => (m.isJoint = true → ms.head?.any Mark.isPunct = true) ∧ Effective ms

/-- A blank stands between any two operators that are laid out after `before`. -/
def Spaced (before : Option Atom) : List Atom → Prop
  | [] => True
  | a :: more => (a.isPunct = true → runsOn before a more = false) ∧ Spaced (some a) more

/-- An operator that is written in front of something else is not joint to it. -/
theorem layTokens_pendingAtom {before : Option Atom} {pending : String} {as : List Atom}
    {ts : List Token} (word : ∀ a ∈ as.head?, a.isPunct = false) :
    layTokens before (pendingAtom pending ++ as) = operatorTokens true pending.toList ++ ts ↔
      pending = "" ∧ layTokens before as = ts := by
  unfold pendingAtom
  split
  · rename_i empty
    subst empty
    simp [operatorTokens]
  · rename_i visible
    have nonempty : pending.toList ≠ [] := fun nil => visible (String.toList_eq_nil_iff.1 nil)
    have ends : runsOn before (.token .punct pending) as = false := by
      cases as with
      | nil => rfl
      | cons a as => simp [runsOn, word a rfl]
    rw [List.singleton_append, layTokens, ends, Atom.tokens, if_pos rfl,
      operatorTokens_append_inj nonempty]
    simp [visible]

/-- The tokens of the atoms of visible marks, where `pending` has been read as joint to them. -/
theorem layTokens_mergeAfter {before : Option Atom} {pending : String} {ms : List Mark}
    (sound : ∀ m ∈ ms, m.Sound) (lexical : ∀ m ∈ ms, m.Lexical) :
    layTokens before (mergeAfter pending ms) =
        operatorTokens true pending.toList ++ ms.flatMap Mark.tokens ↔
      (pending ≠ "" → ms.head?.any Mark.isPunct = true) ∧ Effective ms ∧
        Spaced before (mergeAfter pending ms) := by
  fun_induction mergeAfter pending ms generalizing before with
  | case1 pending =>
    rw [← List.append_nil (pendingAtom pending), List.flatMap_nil,
      layTokens_pendingAtom fun a first => by cases first]
    by_cases empty : pending = "" <;> simp [empty, pendingAtom, layTokens, Effective, Spaced]
  | case2 pending t ms punct joint ih =>
    obtain ⟨here, later⟩ := List.forall_mem_cons.1 sound
    obtain ⟨c, -, text⟩ := (if_pos punct).mp here
    have again := @ih before later (List.forall_mem_cons.1 lexical).2
    have token : t.erase = ⟨.punct, String.singleton c, .callSite, true⟩ := by
      rw [Token.erase, punct, text, joint]
    rw [text, String.toList_append, String.toList_singleton, operatorTokens_concat,
      List.append_assoc] at again
    rw [text, List.flatMap_cons, Mark.tokens, token, again]
    simp [Effective, Mark.isPunct, Mark.isJoint, punct, joint, and_assoc]
  | case3 pending t ms punct alone ih =>
    obtain ⟨here, later⟩ := List.forall_mem_cons.1 sound
    obtain ⟨c, -, text⟩ := (if_pos punct).mp here
    have again := @ih (some (.token .punct (pending ++ t.text))) later
      (List.forall_mem_cons.1 lexical).2
    have token : t.erase = ⟨.punct, String.singleton c, .callSite, false⟩ := by
      rw [Token.erase, punct, text, Bool.eq_false_iff.2 alone]
    have chars : (pending ++ t.text).toList = pending.toList ++ [c] := by
      rw [text, String.toList_append, String.toList_singleton]
    rw [layTokens, Atom.tokens, if_pos rfl, chars, operatorTokens_concat, List.append_assoc,
      List.flatMap_cons, Mark.tokens, token, List.append_cancel_left_eq]
    simp only [operatorTokens, ne_eq, not_true_eq_false, false_imp_iff, true_and,
      String.toList_empty, List.nil_append] at again
    simp [again, Effective, Spaced, Mark.isPunct, Mark.isJoint, Atom.isPunct, punct, alone,
      and_left_comm]
  | case4 pending t ms other ih =>
    obtain ⟨-, later⟩ := List.forall_mem_cons.1 sound
    obtain ⟨⟨-, free⟩, later'⟩ := List.forall_mem_cons.1 lexical
    have again := @ih (some (.token t.kind t.text)) later later'
    have token : t.erase = ⟨t.kind, t.text, .callSite, false⟩ := by
      rw [Token.erase, free other]
    rw [layTokens_pendingAtom (by simpa [Atom.isPunct] using other)]
    by_cases empty : pending = ""
    · subst empty
      simpa [pendingAtom, layTokens, operatorTokens, Atom.tokens, Mark.tokens, token, other,
        Effective, Spaced, Mark.isJoint, Atom.isPunct] using again
    · simp [empty, Mark.isPunct, other]
  | case5 pending text ms ih =>
    obtain ⟨-, later⟩ := List.forall_mem_cons.1 sound
    obtain ⟨visible, later'⟩ := List.forall_mem_cons.1 lexical
    have again := @ih (some (.delimiter text)) later later'
    rw [if_neg visible, List.append_assoc, layTokens_pendingAtom (by simp [Atom.isPunct])]
    by_cases empty : pending = ""
    · subst empty
      simpa [pendingAtom, layTokens, operatorTokens, Atom.tokens, Mark.tokens, Effective, Spaced,
        Mark.isJoint, Atom.isPunct] using again
    · simp [empty, Mark.isPunct]

/-- The joining of some trees comes back if they are laid out after `before`. -/
structure KeepsJoints (before : Option Atom) (ts : List TokenTree) : Prop where
  effective : Effective (marksAll ts)
  spaced : Spaced before (atoms ts)

instance decidableEffective : (ms : List Mark) → Decidable (Effective ms)
  | [] => isTrue trivial
  | _ :: ms =>
    have := decidableEffective ms
    inferInstanceAs (Decidable (_ ∧ _))

instance decidableSpaced (before : Option Atom) : (as : List Atom) → Decidable (Spaced before as)
  | [] => isTrue trivial
  | a :: more =>
    have := decidableSpaced (some a) more
    inferInstanceAs (Decidable (_ ∧ _))

instance (before : Option Atom) (ts : List TokenTree) : Decidable (KeepsJoints before ts) :=
  decidable_of_iff (Effective (marksAll ts) ∧ Spaced before (atoms ts))
    ⟨fun h => ⟨h.1, h.2⟩, fun h => ⟨h.effective, h.spaced⟩⟩

mutual

theorem tokens_erase : (t : TokenTree) → t.erase.tokens = (marks t).flatMap Mark.tokens
  | .token t => rfl
  | .group d ts o e => by
    have opening : d.openingTokens .callSite = edgeTokens d.opening := by cases d <;> rfl
    have closing : d.closingTokens .callSite = edgeTokens d.closing := by cases d <;> rfl
    simp [erase, tokens, marks, Mark.tokens, opening, closing, tokensAll_eraseAll ts]

theorem tokensAll_eraseAll : (ts : List TokenTree) →
    tokensAll (eraseAll ts) = (marksAll ts).flatMap Mark.tokens
  | [] => rfl
  | t :: ts => by
    rw [eraseAll, tokensAll, marksAll, List.flatMap_append, tokens_erase t, tokensAll_eraseAll ts]

end

mutual

theorem nested_erase : (t : TokenTree) → (∀ m ∈ marks t, m.Lexical) → t.erase.Nested
  | .token t, h => (h _ List.mem_cons_self).1
  | .group d ts o e, h => by
    obtain ⟨visible, h⟩ := List.forall_mem_cons.1 h
    refine ⟨?_, nestedAll_eraseAll ts (List.forall_mem_append.1 h).1⟩
    rintro rfl
    exact visible rfl

theorem nestedAll_eraseAll : (ts : List TokenTree) → (∀ m ∈ marksAll ts, m.Lexical) →
    NestedAll (eraseAll ts)
  | [], _ => trivial
  | t :: ts, h =>
    have ⟨here, later⟩ := List.forall_mem_append.1 h
    ⟨nested_erase t here, nestedAll_eraseAll ts later⟩

end

/-- What is read of trees that are laid out is the trees themselves if their joining comes back. -/
theorem eq_of_laid {before : Option Atom} {ts us : List TokenTree} (renderable : Renderable ts)
    (nested : Nests (layTokens before (atoms ts)) us) (lexical : ∀ m ∈ marksAll ts, m.Lexical) :
    us = eraseAll ts ↔ KeepsJoints before ts := by
  have tokens := @layTokens_mergeAfter before "" _ renderable.sound lexical
  rw [← tokensAll_eraseAll] at tokens
  constructor
  · rintro rfl
    have laid := nested.tokensAll_eq (proper_layTokens renderable.atoms)
    obtain ⟨-, effective, spaced⟩ := tokens.1 laid.symm
    exact ⟨effective, spaced⟩
  · rintro ⟨effective, spaced⟩
    have laid := tokens.2 ⟨fun nonempty => absurd rfl nonempty, effective, spaced⟩
    rw [atoms, laid] at nested
    exact nested.unique (nestedAll_eraseAll ts lexical).nests

/-! ## The trees of a text -/

theorem TokenKind.opening_ne {k : TokenKind} {d : Delimiter} (h : k.opens? = some d) :
    d.opening ≠ "" := by
  cases k <;> cases h <;> decide

theorem TokenKind.closing_ne {k : TokenKind} {d : Delimiter} (h : k.closes? = some d) :
    d.closing ≠ "" := by
  cases k <;> cases h <;> decide

theorem lexical_mark {t : Token} (h : t.kind ≠ .punct → t.joint = false) : t.mark.Lexical := by
  cases opens : t.kind.opens? with
  | some d =>
    rw [Token.mark_opens opens]
    exact TokenKind.opening_ne opens
  | none =>
    cases closes : t.kind.closes? with
    | some d =>
      rw [Token.mark_closes closes]
      exact TokenKind.closing_ne closes
    | none =>
      rw [Token.mark_token opens closes]
      exact ⟨Token.bracket?_eq_none.2 ⟨opens, closes⟩, h⟩

theorem lexical_tokensAt (file : String) (p : Place) (xs : List Piece) :
    ∀ t ∈ tokensAt file p xs, t.mark.Lexical := by
  intro t mem
  obtain ⟨⟨q, x⟩, -, eq⟩ := List.mem_filterMap.1 mem
  refine lexical_mark fun word => ?_
  simp only [Piece.token?] at eq
  split at eq
  · cases eq
    exact Bool.and_eq_false_imp.2 fun punct => absurd (beq_iff_eq.1 punct) word
  · cases eq

theorem lexical_of_tokenize {source file : String} {line : Int} {ts : List TokenTree}
    (h : tokenize source file line = .ok ts) : ∀ m ∈ marksAll ts, m.Lexical := by
  rw [(tokenize_ok.1 h).2.marksAll_eq]
  exact List.forall_mem_map.2 (lexical_tokensAt _ _ _)

/-- A text that is formatted has the same tokens as before; their joining is the same if there is a
blank between any two operators and nothing is joint to what is no punctuation. -/
theorem tokenize_render_joints {source file : String} {line : Int} {ts : List TokenTree}
    (h : tokenize source file line = .ok ts) (file' : String) (line' : Int) :
    ∃ us, tokenize (render ts) file' line' = .ok us ∧ flatten us = flatten ts ∧
      (eraseAll us = eraseAll ts ↔ KeepsJoints none ts) := by
  have renderable := Renderable.of_tokenize h
  obtain ⟨us, read, same, nested⟩ := renderable.tokenize_laid file' line'
  exact ⟨us, read, same, eq_of_laid renderable nested (lexical_of_tokenize h)⟩

end TypeGrammar
