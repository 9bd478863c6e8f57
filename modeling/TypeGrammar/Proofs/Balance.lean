import TypeGrammar.Proofs.Nesting

/-!
# Balanced tokens

Tokens have trees if their delimiters are balanced, and the trees are then the tokens themselves:
written out in a row, with each group between an opening and a closing token, they give back every
token with its text, its joining and its place. Tokens that are not balanced are reported.
-/

namespace TypeGrammar

open TokenTree

/-! ## Balance -/

/-- A delimiter as it stands among tokens. -/
inductive Bracket where
  | opening (d : Delimiter)
  | closing (d : Delimiter)
  deriving DecidableEq, Repr

/-- The bracket that a token is. -/
def Token.bracket? (t : Token) : Option Bracket :=
  (t.kind.opens?.map .opening).or (t.kind.closes?.map .closing)

/-- Brackets that stand in pairs, of which any two lie apart or one inside of the other. -/
inductive Balanced : List Bracket → Prop
  | nil : Balanced []
  | pair {d : Delimiter} {inner rest : List Bracket} : Balanced inner → Balanced rest →
      Balanced (.opening d :: (inner ++ .closing d :: rest))

section

variable {t : Token} {d : Delimiter}

theorem Token.bracket?_opens (h : t.kind.opens? = some d) : t.bracket? = some (.opening d) := by
  simp [bracket?, h]

theorem Token.bracket?_closes (h : t.kind.closes? = some d) : t.bracket? = some (.closing d) := by
  simp [bracket?, h, TokenKind.opens?_of_closes h]

theorem Token.bracket?_eq_none :
    t.bracket? = none ↔ t.kind.opens? = none ∧ t.kind.closes? = none := by
  simp [bracket?]

theorem Token.opens_of_bracket? (h : t.bracket? = some (.opening d)) : t.kind.opens? = some d := by
  simpa [bracket?, Option.or_eq_some_iff] using h

theorem Token.closes_of_bracket? (h : t.bracket? = some (.closing d)) :
    t.kind.closes? = some d := by
  simp only [bracket?, Option.or_eq_some_iff, Option.map_eq_some_iff] at h
  obtain ⟨_, -, ⟨⟩⟩ | ⟨-, _, closes, ⟨⟩⟩ := h
  exact closes

end

/-- Tokens that nest are balanced. -/
theorem Nests.balanced {ts : List Token} {trees : List TokenTree} (h : Nests ts trees) :
    Balanced (ts.filterMap Token.bracket?) := by
  induction h with
  | nil => exact .nil
  | token opens closes _ ih =>
    rwa [List.filterMap_cons_none (Token.bracket?_eq_none.2 ⟨opens, closes⟩)]
  | group opens closes _ _ ihInner ih =>
    rw [List.filterMap_cons_some (Token.bracket?_opens opens), List.filterMap_append,
      List.filterMap_cons_some (Token.bracket?_closes closes)]
    exact .pair ihInner ih

/-- Tokens without brackets are their own trees. -/
theorem nests_plain {ts : List Token} (h : ∀ t ∈ ts, t.bracket? = none) :
    Nests ts (ts.map .token) := by
  induction ts with
  | nil => exact .nil
  | cons t ts ih =>
    obtain ⟨here, later⟩ := List.forall_mem_cons.1 h
    obtain ⟨opens, closes⟩ := Token.bracket?_eq_none.1 here
    exact .token opens closes (ih later)

/-- Balanced tokens nest. -/
theorem exists_nests {ts : List Token} (h : Balanced (ts.filterMap Token.bracket?)) :
    ∃ trees, Nests ts trees := by
  generalize brackets : ts.filterMap Token.bracket? = bs at h
  induction h generalizing ts with
  | nil => exact ⟨_, nests_plain (List.filterMap_eq_nil_iff.1 brackets)⟩
  | pair _ _ ihInner ih =>
    obtain ⟨front, o, more, rfl, plain, opens, brackets⟩ := List.filterMap_eq_cons_iff.1 brackets
    obtain ⟨inner, back, rfl, inside, brackets⟩ := List.filterMap_eq_append_iff.1 brackets
    obtain ⟨gap, c, rest, rfl, plain', closes, after⟩ := List.filterMap_eq_cons_iff.1 brackets
    obtain ⟨body, nested⟩ := ihInner inside
    obtain ⟨trees, nested'⟩ := ih after
    have group := Nests.group (Token.opens_of_bracket? opens) (Token.closes_of_bracket? closes)
      (nested.append (nests_plain plain')) nested'
    rw [List.append_assoc] at group
    exact ⟨_, (nests_plain plain).append group⟩

/-! ## Trees in a row -/

/-- The token that opens a group; the invisible pair has none. -/
def Delimiter.openingTokens (d : Delimiter) (span : Span) : List Token :=
  match d with
  | paren => [⟨.openParen, d.opening, span, false⟩]
  | bracket => [⟨.openBracket, d.opening, span, false⟩]
  | brace => [⟨.openBrace, d.opening, span, false⟩]
  | invisible => []

/-- The token that closes a group; the invisible pair has none. -/
def Delimiter.closingTokens (d : Delimiter) (span : Span) : List Token :=
  match d with
  | paren => [⟨.closeParen, d.closing, span, false⟩]
  | bracket => [⟨.closeBracket, d.closing, span, false⟩]
  | brace => [⟨.closeBrace, d.closing, span, false⟩]
  | invisible => []

namespace TokenTree

mutual

/-- The tokens of a tree in a row. -/
def tokens : TokenTree → List Token
  | token t => [t]
  | group d ts o c => d.openingTokens o ++ (tokensAll ts ++ d.closingTokens c)

/-- The tokens of some trees in a row. -/
def tokensAll : List TokenTree → List Token
  | [] => []
  | t :: ts => tokens t ++ tokensAll ts

end

mutual

/-- A tree whose delimiters are those of its groups, which are all visible. -/
def Nested : TokenTree → Prop
  | token t => t.bracket? = none
  | group d ts _ _ => d ≠ .invisible ∧ NestedAll ts

/-- Trees whose delimiters are those of their groups. -/
def NestedAll : List TokenTree → Prop
  | [] => True
  | t :: ts => Nested t ∧ NestedAll ts

end

end TokenTree

/-- A delimiter token has the text of its delimiter and is joint to nothing. -/
structure Token.Proper (t : Token) : Prop where
  opens : ∀ d ∈ t.kind.opens?, t.text = d.opening ∧ t.joint = false
  closes : ∀ d ∈ t.kind.closes?, t.text = d.closing ∧ t.joint = false

section

variable {t : Token} {d : Delimiter}

theorem Token.Proper.openingTokens (h : t.Proper) (opens : t.kind.opens? = some d) :
    d.openingTokens t.span = [t] := by
  obtain ⟨text, joint⟩ := h.opens d opens
  obtain ⟨kind, _, span, _⟩ := t
  subst text joint
  revert opens
  cases kind <;> cases d <;> simp [TokenKind.opens?, Delimiter.openingTokens]

theorem Token.Proper.closingTokens (h : t.Proper) (closes : t.kind.closes? = some d) :
    d.closingTokens t.span = [t] := by
  obtain ⟨text, joint⟩ := h.closes d closes
  obtain ⟨kind, _, span, _⟩ := t
  subst text joint
  revert closes
  cases kind <;> cases d <;> simp [TokenKind.closes?, Delimiter.closingTokens]

theorem TokenKind.visible_of_opens {k : TokenKind} (h : k.opens? = some d) : d ≠ .invisible := by
  rintro rfl
  cases k <;> cases h

end

theorem Nests.nestedAll {ts : List Token} {trees : List TokenTree} (h : Nests ts trees) :
    NestedAll trees := by
  induction h with
  | nil => trivial
  | token opens closes _ ih => exact ⟨Token.bracket?_eq_none.2 ⟨opens, closes⟩, ih⟩
  | group opens _ _ _ ihInner ih => exact ⟨⟨TokenKind.visible_of_opens opens, ihInner⟩, ih⟩

/-- The trees of tokens give back the tokens. -/
theorem Nests.tokensAll_eq {ts : List Token} {trees : List TokenTree} (h : Nests ts trees)
    (proper : ∀ t ∈ ts, t.Proper) : tokensAll trees = ts := by
  induction h with
  | nil => rfl
  | token _ _ _ ih =>
    rw [TokenTree.tokensAll, ih (List.forall_mem_cons.1 proper).2]
    rfl
  | group opens closes _ _ ihInner ih =>
    obtain ⟨first, proper⟩ := List.forall_mem_cons.1 proper
    obtain ⟨inside, proper⟩ := List.forall_mem_append.1 proper
    obtain ⟨last, later⟩ := List.forall_mem_cons.1 proper
    simp [TokenTree.tokensAll, TokenTree.tokens, first.openingTokens opens,
      last.closingTokens closes, ihInner inside, ih later]

mutual

theorem TokenTree.Nested.nests : {t : TokenTree} → t.Nested → Nests t.tokens [t]
  | .token t, h =>
    .token (Token.bracket?_eq_none.1 h).1 (Token.bracket?_eq_none.1 h).2 .nil
  | .group d ts o c, h => by
    have inside := TokenTree.NestedAll.nests h.2
    cases d with
    | paren => exact .group (o := ⟨_, _, o, _⟩) (c := ⟨_, _, c, _⟩) rfl rfl inside .nil
    | bracket => exact .group (o := ⟨_, _, o, _⟩) (c := ⟨_, _, c, _⟩) rfl rfl inside .nil
    | brace => exact .group (o := ⟨_, _, o, _⟩) (c := ⟨_, _, c, _⟩) rfl rfl inside .nil
    | invisible => exact absurd rfl h.1

/-- Trees in a row nest as those trees. -/
theorem TokenTree.NestedAll.nests : {ts : List TokenTree} → NestedAll ts → Nests (tokensAll ts) ts
  | [], _ => .nil
  | _ :: _, h => (TokenTree.Nested.nests h.1).append (TokenTree.NestedAll.nests h.2)

end

/-- Tokens nest as the trees that they are when these are written in a row. -/
theorem nests_iff {ts : List Token} {trees : List TokenTree} (proper : ∀ t ∈ ts, t.Proper) :
    Nests ts trees ↔ NestedAll trees ∧ tokensAll trees = ts := by
  constructor
  · exact fun h => ⟨h.nestedAll, h.tokensAll_eq proper⟩
  · rintro ⟨nested, rfl⟩
    exact nested.nests

/-! ## Reports -/

/-- A report of a delimiter without its partner. -/
def Diagnostic.IsUnbalanced (d : Diagnostic) : Prop :=
  d.code = "E101" ∨ d.code = "E102"

namespace Nesting

/-- The reports of a state are about delimiters. -/
def Reports (n : Nesting) : Prop :=
  ∀ d ∈ n.faults, d.IsUnbalanced

theorem Reports.step {n : Nesting} (h : n.Reports) (t : Token) : (n.step t).Reports := by
  cases opens : t.kind.opens? with
  | some d => rwa [step_opens opens]
  | none =>
    cases closes : t.kind.closes? with
    | none =>
      rw [step_token opens closes, Reports, add_faults]
      exact h
    | some d =>
      rw [step_closes closes, close]
      split
      · exact List.forall_mem_cons.2 ⟨.inr rfl, h⟩
      · rw [Reports, add_faults]
        split
        · exact h
        · exact List.forall_mem_cons.2 ⟨.inr rfl, h⟩

theorem Reports.foldl {n : Nesting} (h : n.Reports) (ts : List Token) :
    (ts.foldl Nesting.step n).Reports := by
  induction ts generalizing n with
  | nil => exact h
  | cons t ts ih => exact ih (h.step t)

/-- A state that does not give trees gives reports. -/
theorem Reports.finish {n : Nesting} (h : n.Reports) {e : CompileError}
    (failed : n.finish = .error e) :
    e.diagnostics ≠ [] ∧ ∀ d ∈ e.diagnostics, d.IsUnbalanced := by
  unfold Nesting.finish at failed
  simp only at failed
  split at failed
  · cases failed
  · rename_i loud
    cases failed
    refine ⟨loud, List.forall_mem_append.2 ⟨fun d mem => h d (List.mem_reverse.1 mem), ?_⟩⟩
    exact List.forall_mem_map.2 fun _ _ => .inl rfl

end Nesting

theorem nest_error {tokens : List Token} {e : CompileError} (h : nest tokens = .error e) :
    e.diagnostics ≠ [] ∧ ∀ d ∈ e.diagnostics, d.IsUnbalanced := by
  have start : Nesting.start.Reports := fun _ mem => absurd mem List.not_mem_nil
  exact (start.foldl _).finish h

/-! ## Tokens up to the end marker -/

/-- The tokens in front of the first end marker. -/
def beforeEnd (tokens : List Token) : List Token :=
  tokens.takeWhile fun t => t.kind != .eof

/-- Nesting is the inverse of writing trees in a row. It succeeds for balanced tokens and no others,
and reports the others as unbalanced. -/
theorem nest_tokensAll {tokens : List Token} (proper : ∀ t ∈ tokens, t.Proper) :
    (∀ trees, nest tokens = .ok trees ↔ NestedAll trees ∧ tokensAll trees = beforeEnd tokens) ∧
      ((∃ trees, nest tokens = .ok trees) ↔
        Balanced ((beforeEnd tokens).filterMap Token.bracket?)) ∧
      (¬ Balanced ((beforeEnd tokens).filterMap Token.bracket?) →
        ∃ e, nest tokens = .error e ∧ e.diagnostics ≠ [] ∧
          ∀ d ∈ e.diagnostics, d.IsUnbalanced) := by
  have front : ∀ t ∈ beforeEnd tokens, t.Proper :=
    fun t mem => proper t ((List.takeWhile_prefix _).mem mem)
  have succeeds : (∃ trees, nest tokens = .ok trees) ↔
      Balanced ((beforeEnd tokens).filterMap Token.bracket?) := by
    constructor
    · rintro ⟨trees, nested⟩
      exact (nest_ok.1 nested).balanced
    · intro balanced
      obtain ⟨trees, nested⟩ := exists_nests balanced
      exact ⟨trees, nest_ok.2 nested⟩
  refine ⟨fun trees => nest_ok.trans (nests_iff front), succeeds, fun unbalanced => ?_⟩
  cases result : nest tokens with
  | ok trees => exact absurd (succeeds.1 ⟨trees, result⟩) unbalanced
  | error e => exact ⟨e, rfl, nest_error result⟩

/-- The tokens of `([a])`, behind which the tokens of another text follow. -/
theorem nest_tokensAll_pairs : ∃ tokens trees, (∀ t ∈ tokens, t.Proper) ∧
    nest tokens = .ok trees ∧ tokensAll trees = beforeEnd tokens ∧ beforeEnd tokens ≠ tokens := by
  let place (col : Int) : Span := ⟨"", 1, col, 1, col⟩
  let mark (kind : TokenKind) (text : String) (col : Int) : Token := ⟨kind, text, place col, false⟩
  let tokens : List Token :=
    [mark .openParen "(" 1, mark .openBracket "[" 2, mark .identifier "a" 3,
    mark .closeBracket "]" 4, mark .closeParen ")" 5, mark .eof "" 6, mark .closeBrace "\x7d" 7]
  have proper : ∀ t ∈ tokens, t.Proper := by
    intro t mem
    simp only [tokens, List.mem_cons, List.not_mem_nil, or_false] at mem
    obtain rfl | rfl | rfl | rfl | rfl | rfl | rfl := mem <;>
      exact ⟨by rintro _ ⟨⟩ <;> exact ⟨rfl, rfl⟩, by rintro _ ⟨⟩ <;> exact ⟨rfl, rfl⟩⟩
  have nested : nest tokens = .ok [.group .paren [.group .bracket [.token (mark .identifier "a" 3)]
      (place 2) (place 4)] (place 1) (place 5)] := rfl
  exact ⟨tokens, _, proper, nested, (((nest_tokensAll proper).1 _).1 nested).2, by decide⟩

end TypeGrammar
