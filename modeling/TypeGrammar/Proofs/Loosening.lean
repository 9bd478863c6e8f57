import TypeGrammar.Proofs.Joining
import TypeGrammar.Proofs.RoundTrip

/-!
# Trees without their joining

Trees that are laid out and read again come back as they were, except for the joining of
punctuation: the loosened trees, in which no token is joint to the next, are the same. So they are
what is compared of payloads where nothing is known of the blanks in them.
-/

namespace TypeGrammar

open TokenTree

/-- The token, joint to nothing. -/
def Token.loosen (t : Token) : Token :=
  { t with joint := false }

namespace TokenTree

mutual

/-- A tree in which no token is joint to the next. -/
def loosen : TokenTree → TokenTree
  | token t => token t.loosen
  | group d ts openSpan closeSpan => group d (loosenAll ts) openSpan closeSpan

/-- Trees in which no token is joint to the next. -/
def loosenAll : List TokenTree → List TokenTree
  | [] => []
  | t :: ts => loosen t :: loosenAll ts

end

mutual

theorem loosen_erase : (t : TokenTree) → t.erase.loosen = t.loosen.erase
  | token _ => rfl
  | group d ts o c => by rw [erase, loosen, loosen, erase, loosenAll_eraseAll ts]

theorem loosenAll_eraseAll :
    (ts : List TokenTree) → loosenAll (eraseAll ts) = eraseAll (loosenAll ts)
  | [] => rfl
  | t :: ts => by
    rw [eraseAll, loosenAll, loosenAll, eraseAll, loosen_erase t, loosenAll_eraseAll ts]

end

end TokenTree

theorem Nests.loosen {ts : List Token} {trees : List TokenTree} (h : Nests ts trees) :
    Nests (ts.map Token.loosen) (loosenAll trees) := by
  induction h with
  | nil => exact .nil
  | token opens closes _ ih => exact .token opens closes ih
  | @group o c d _ _ _ _ opens closes _ _ ihInner ih =>
    rw [List.map_cons, List.map_append, List.map_cons]
    exact .group (o := o.loosen) (c := c.loosen) opens closes ihInner ih

/-! ## Tokens that are laid out -/

/-- The characters of an operator, joint to nothing. -/
def looseOperator (cs : List Char) : List Token :=
  cs.map fun c => ⟨.punct, String.singleton c, .callSite, false⟩

/-- The tokens of an atom, joint to nothing. -/
def Atom.loose : Atom → List Token
  | .token kind text =>
    if kind = .punct then looseOperator text.toList else [⟨kind, text, .callSite, false⟩]
  | .delimiter text => edgeTokens text

theorem loosen_operatorTokens (joint : Bool) (cs : List Char) :
    (operatorTokens joint cs).map Token.loosen = looseOperator cs := by
  induction cs with
  | nil => rfl
  | cons c cs ih => exact congrArg (Token.mk .punct (String.singleton c) .callSite false :: ·) ih

theorem loosen_edgeTokens (text : String) :
    (edgeTokens text).map Token.loosen = edgeTokens text := by
  rw [edgeTokens, List.map_flatMap]
  refine congrArg (text.toList.flatMap ·) (funext fun c => ?_)
  cases Lexeme.bracketKind? c <;> rfl

theorem loosen_atomTokens (a : Atom) (joint : Bool) :
    (a.tokens joint).map Token.loosen = a.loose := by
  cases a with
  | delimiter text => exact loosen_edgeTokens text
  | token kind text =>
    rw [Atom.tokens, Atom.loose]
    split
    · exact loosen_operatorTokens joint _
    · rfl

theorem loosen_layTokens (before : Option Atom) (as : List Atom) :
    (layTokens before as).map Token.loosen = as.flatMap Atom.loose :=
  map_layTokens fun a _ => loosen_atomTokens a

theorem additive_loose : Additive Atom.loose where
  nothing := rfl
  append a b := by simp [Atom.loose, looseOperator]
  noEdge := rfl

theorem Mark.loosen_tokens {m : Mark} (sound : m.Sound) :
    m.tokens.map Token.loosen = m.atom.loose := by
  cases m with
  | edge text => exact loosen_edgeTokens text
  | token t =>
    rw [Mark.atom, Atom.loose]
    split
    · rename_i punct
      obtain ⟨c, -, text⟩ := (if_pos punct).mp sound
      simp [Mark.tokens, Token.erase, Token.loosen, looseOperator, punct, text]
    · rfl

/-- What is read of trees that are laid out is the trees themselves, up to their joining. -/
theorem loosenAll_of_laid {before : Option Atom} {ts us : List TokenTree}
    (sound : ∀ m ∈ marksAll ts, m.Sound) (lexical : ∀ m ∈ marksAll ts, m.Lexical)
    (nested : Nests (layTokens before (atoms ts)) us) : loosenAll us = loosenAll (eraseAll ts) := by
  have own := (nestedAll_eraseAll ts lexical).nests.loosen
  have same : (layTokens before (atoms ts)).map Token.loosen =
      (tokensAll (eraseAll ts)).map Token.loosen := by
    rw [loosen_layTokens, atoms, additive_loose.mergeAfter, tokensAll_eraseAll, List.map_flatMap]
    exact List.flatMap_congr fun m mem => (Mark.loosen_tokens (sound m mem)).symm
  rw [← same] at own
  exact nested.loosen.unique own

/-! ## The loose view -/

/-- The view that does not see how the tokens of payloads are joined. -/
def View.loose : View :=
  ⟨loosenAll, View.strict.word⟩

theorem View.proper_loose : View.loose.Proper :=
  View.proper_strict

end TypeGrammar
