import TypeGrammar.Proofs.Nesting
import TypeGrammar.Proofs.ReadingTypes

/-!
# Types that print as they were read

The flat view of the trees from which a type is read is that of its chunks. So printing keeps all
kinds and texts in their order, unless one of the four forms occurs that come back in another order
or with fewer trees. They start with `for`, or are a pair of parentheses around `(?A)`.
-/

namespace TypeGrammar

open TokenTree
open Chunk (treesAll)

/-! ## The flat view -/

namespace TokenTree

mutual

theorem flat_erase : (t : TokenTree) → t.erase.flat = t.flat
  | .token _ => rfl
  | .group d ts o e => by rw [erase, flat, flat, flatten_eraseAll ts]

/-- The flat view shows no places. -/
theorem flatten_eraseAll : (ts : List TokenTree) → flatten (eraseAll ts) = flatten ts
  | [] => rfl
  | t :: ts => by rw [eraseAll, flatten, flatten, flat_erase t, flatten_eraseAll ts]

end

theorem flatten_of_erase {ts us : List TokenTree} (h : eraseAll ts = eraseAll us) :
    flatten ts = flatten us := by
  rw [← flatten_eraseAll ts, ← flatten_eraseAll us, h]

end TokenTree

theorem Token.flatten_go (t : Token) (cs : List Char) :
    flatten ((Token.split.go t cs).map .token) =
      cs.map fun c => .token .punct (String.singleton c) := by
  induction cs with
  | nil => rfl
  | cons c cs ih => simp [Token.split.go, flatten, TokenTree.flat, Token.flat, ih]

theorem Token.flatten_trees (t : Token) : flatten t.trees = t.flat := by
  unfold Token.trees
  split
  · rename_i long
    simp [Token.split, flatten_go, Token.flat, long.1]
  · simp [flatten, TokenTree.flat]

/-- Trees that spell an operator have its characters. -/
theorem SpellsChars.flatten {bars cs : List Char} {ts rest : List TokenTree}
    (h : SpellsChars bars cs ts rest) :
    TokenTree.flatten ts = cs.map fun c => .token .punct (String.singleton c) := by
  induction cs generalizing ts with
  | nil =>
    cases h
    rfl
  | cons c cs ih =>
    obtain ⟨t, us, rfl, kind, text, -, tail⟩ := h
    simp [TokenTree.flatten, flat, Token.flat, kind, text, ih tail]

mutual

theorem Chunk.Spelled.flatten {p : Chunk} {ts rest : List TokenTree} (h : p.Spelled .full ts rest) :
    TokenTree.flatten ts = TokenTree.flatten p.trees := by
  match p, h with
  | .word t, h =>
    obtain ⟨-, t', rfl, same⟩ := h
    obtain ⟨kind, text, -⟩ := erase_eq_iff.1 same
    simp [Token.flatten_trees, TokenTree.flatten, flat, Token.flat, kind, text]
  | .mark t binary, h =>
    obtain ⟨kind, -, -, chars⟩ := h
    simp [chars.flatten, Token.flatten_trees, Token.flat, kind]
  | .group d inner, h =>
    obtain ⟨us, o, e, rfl, inside⟩ := h
    simp [TokenTree.flatten, flat, Delim.around, Spells.flatten inside]
  | .raw d tokens, h =>
    obtain ⟨us, o, e, rfl, same⟩ := h
    have same : TokenTree.flatten us = TokenTree.flatten tokens := flatten_of_erase same
    simp [TokenTree.flatten, flat, Delim.around, same]

/-- Trees that spell chunks have their kinds and texts. -/
theorem Spells.flatten {ps : List Chunk} {ts rest : List TokenTree} (h : Spells .full ps ts rest) :
    TokenTree.flatten ts = TokenTree.flatten (treesAll ps) := by
  match ps with
  | [] =>
    cases spells_nil.1 h
    rfl
  | p :: ps =>
    obtain ⟨us, ws, rfl, first, more⟩ := spells_cons.1 h
    simp [Chunk.Spelled.flatten first, Spells.flatten more]

end

/-! ## Streams without the four forms -/

namespace TokenTree

mutual

/-- True if `p` holds of a tree or of a tree inside of it. -/
def occurs (p : TokenTree → Bool) : TokenTree → Bool
  | .token t => p (.token t)
  | .group d ts o e => p (.group d ts o e) || occursAny p ts

/-- True if `p` holds of one of some trees or of a tree inside of them. -/
def occursAny (p : TokenTree → Bool) : List TokenTree → Bool
  | [] => false
  | t :: ts => occurs p t || occursAny p ts

end

theorem occursAny_append (p : TokenTree → Bool) (ts us : List TokenTree) :
    occursAny p (ts ++ us) = (occursAny p ts || occursAny p us) := by
  induction ts with
  | nil => rfl
  | cons t ts ih => simp [occursAny, ih, Bool.or_assoc]

mutual

theorem occurs_or (p q : TokenTree → Bool) :
    (t : TokenTree) → occurs (fun t => p t || q t) t = (occurs p t || occurs q t)
  | .token _ => rfl
  | .group d ts o e => by
    rw [occurs, occurs, occurs, occursAny_or p q ts]
    ac_rfl

theorem occursAny_or (p q : TokenTree → Bool) :
    (ts : List TokenTree) →
      occursAny (fun t => p t || q t) ts = (occursAny p ts || occursAny q ts)
  | [] => rfl
  | t :: ts => by
    rw [occursAny, occursAny, occursAny, occurs_or p q t, occursAny_or p q ts]
    ac_rfl

end

/-- True of a token with the text `for`. -/
def isFor : TokenTree → Bool
  | .token t => t.text == "for"
  | .group .. => false

/-- True of a pair of parentheses that holds nothing but another pair that starts with `?`. -/
def wrapsQuery : TokenTree → Bool
  | .group .paren [.group .paren ts _ _] _ _ => startsPunct "?" ts
  | _ => false

/-- True of what comes back in another order or with fewer trees. -/
def isRearranged (t : TokenTree) : Bool :=
  isFor t || wrapsQuery t

end TokenTree

/-- The source of a binder starts with `for`. -/
theorem Spells.not_binder {v : View} {b : Binder} {more : List Chunk} {ts rest : List TokenTree}
    (forToken : b.forToken.IsWord "for") (h : Spells v (b.source ++ more) ts rest) :
    occursAny isRearranged ts = true := by
  obtain ⟨-, t, us, rfl, same, -⟩ := spells_word.1 h
  obtain ⟨-, text⟩ := forToken.of_erase same
  simp [occursAny, occurs, isRearranged, isFor, text]

/-- Chunks are printed as they are read if none of the four forms is among the trees. -/
theorem Reprints.eq {v : View} {qs ps : List Chunk} {ts rest : List TokenTree}
    (h : Reprints qs ps) (spelled : Spells v qs ts rest)
    (plain : occursAny isRearranged ts = false) : qs = ps := by
  induction h generalizing ts rest with
  | nil => rfl
  | same p _ ih =>
    obtain ⟨us, ws, rfl, -, more⟩ := spells_cons.1 spelled
    rw [occursAny_append, Bool.or_eq_false_iff] at plain
    rw [ih more plain.2]
  | inside d _ _ ihInner ih =>
    obtain ⟨us, o, e, ws, rfl, inner, more⟩ := spells_group.1 spelled
    simp only [occursAny, occurs, Bool.or_eq_false_iff] at plain
    rw [ihInner inner plain.1.2, ih more plain.2]
  | unwrapped outer inner modifier =>
    obtain ⟨us, o, e, ws, rfl, wrapped, -⟩ := spells_group.1 spelled
    obtain ⟨xs, o', e', ys, rfl, body, nothing⟩ := spells_group.1 wrapped
    obtain ⟨-, zs, more, rfl, chars, -⟩ := spells_mark.1 body
    cases spells_nil.1 nothing
    rw [modifier] at chars
    obtain ⟨m, _, rfl, kind, text, -, nothing⟩ := chars
    cases nothing
    replace text : m.text = "?" := text
    simp [occursAny, occurs, isRearranged, wrapsQuery, outer, inner, startsPunct, startsChars, kind,
      text] at plain
  | binder b forToken | moved b _ forToken | movedInside b _ forToken | dropped b forToken =>
    rw [spelled.not_binder forToken] at plain
    contradiction

/-! ## Texts -/

theorem wholeType_ok {plus : Bool} {t : Ty} {c c' : Cursor} :
    Parser.wholeType plus c = .ok t c' ↔ parseType plus c = .ok t c' ∧ c'.rest = [] := by
  simp only [Parser.wholeType, Parser.bind_ok, Parser.pure_ok, Parser.atEnd_ok]
  constructor
  · rintro ⟨_, _, run, _, _, ⟨done, rfl⟩, rfl, rfl⟩
    exact ⟨run, done⟩
  · rintro ⟨run, done⟩
    exact ⟨t, c', run, (), c', ⟨done, rfl⟩, rfl, rfl⟩

theorem mapError_bind_ok {ε ε' α β : Type} {x : Except ε α} {f : ε → ε'} {g : α → Except ε' β}
    {b : β} : (x.mapError f >>= g) = .ok b ↔ ∃ a, x = .ok a ∧ g a = .ok b := by
  cases x with
  | error e => exact ⟨(by cases ·), fun ⟨a, eq, _⟩ => by cases eq⟩
  | ok a => exact ⟨fun h => ⟨a, rfl, h⟩, fun ⟨_, eq, h⟩ => by cases eq; exact h⟩

theorem tokenize_eq_ok {text file : String} {line : Int} {trees : List TokenTree} :
    tokenize text file line = .ok trees ↔
      ∃ tokens, lex text file line = .ok tokens ∧ nest tokens = .ok trees := by
  unfold tokenize
  cases lex text file line with
  | error e => exact ⟨fun h => (by cases h), fun ⟨_, h, _⟩ => (by cases h)⟩
  | ok tokens => exact ⟨fun h => ⟨tokens, rfl, h⟩, fun ⟨_, eq, h⟩ => by cases eq; exact h⟩

/-- A text holds a type if its trees are read to their end. -/
theorem parseText_ok {text file : String} {line : Int} {plus : Bool} {t : Ty} :
    parseText text file line plus = .ok t ↔
      ∃ tokens trees c', lex text file line = .ok tokens ∧ nest tokens = .ok trees ∧
        parseType plus (Cursor.ofTrees trees (endOf tokens)) = .ok t c' ∧ c'.rest = [] := by
  simp only [← wholeType_ok, parseText, mapError_bind_ok]
  constructor
  · rintro ⟨tokens, lexed, trees, nested, h⟩
    split at h
    · rename_i c' run
      cases h
      exact ⟨tokens, trees, c', lexed, nested, run⟩
    · cases h
  · rintro ⟨tokens, trees, c', lexed, nested, run⟩
    refine ⟨tokens, lexed, trees, nested, ?_⟩
    rw [run]
    rfl

/-- A text that holds a type has trees, and the type is read from them to their end. -/
theorem tokenize_of_parseText {text file : String} {line : Int} {plus : Bool} {t : Ty}
    (h : parseText text file line plus = .ok t) :
    ∃ stream e c', tokenize text file line = .ok stream ∧
      parseType plus (Cursor.ofTrees stream e) = .ok t c' ∧ c'.rest = [] := by
  obtain ⟨tokens, trees, c', lexed, nested, read⟩ := parseText_ok.1 h
  exact ⟨trees, _, c', tokenize_eq_ok.2 ⟨tokens, lexed, nested⟩, read⟩

/-- The trees of a text, and a type that they are read as. -/
theorem parseText_stream {text file : String} {line : Int} {plus : Bool} {t : Ty}
    {stream : List TokenTree} (source : tokenize text file line = .ok stream)
    (h : parseText text file line plus = .ok t) :
    ∃ e c', parseType plus (Cursor.ofTrees stream e) = .ok t c' ∧ c'.rest = [] := by
  obtain ⟨trees, e, c', source', read⟩ := tokenize_of_parseText h
  obtain rfl := Except.ok.inj (source.symm.trans source')
  exact ⟨e, c', read⟩

/-- Trees that are read as a type to their end spell the chunks of the type, but for what printing
changes. -/
theorem reprints_of_parseType {plus : Bool} {t : Ty} {stream : List TokenTree} {e : Span}
    {c' : Cursor} (h : parseType plus (Cursor.ofTrees stream e) = .ok t c') (done : c'.rest = []) :
    ∃ qs, Spells .full qs stream [] ∧ Reprints qs t.layout.chunks := by
  obtain ⟨qs, ⟨ts, eq, spelled⟩, same⟩ := parseType_reads h
  rw [done] at spelled eq
  simp only [Cursor.ofTrees, List.append_nil] at eq
  subst eq
  exact ⟨qs, spelled, same⟩

/-- A type is printed with the kinds and texts of the trees from which it is read, unless one of the
four forms is among them. -/
theorem Node.flatten_trees {plus : Bool} {t : Ty} {stream : List TokenTree} {e : Span}
    {c' : Cursor} (plain : occursAny isRearranged stream = false)
    (h : parseType plus (Cursor.ofTrees stream e) = .ok t c') (done : c'.rest = []) :
    flatten t.trees = flatten stream := by
  obtain ⟨qs, spelled, same⟩ := reprints_of_parseType h done
  rw [Node.trees_eq, ← same.eq spelled plain, spelled.flatten]

/-- Printing loses, adds and reorders nothing, unless `for` or `((?A))` occurs. -/
theorem flatten_trees_of_parseText {text file : String} {line : Int} {plus : Bool} {t : Ty}
    {stream : List TokenTree} (source : tokenize text file line = .ok stream)
    (noFor : occursAny isFor stream = false) (noQuery : occursAny wrapsQuery stream = false)
    (h : parseText text file line plus = .ok t) : flatten t.trees = flatten stream := by
  obtain ⟨e, c', run, done⟩ := parseText_stream source h
  refine Node.flatten_trees ?_ run done
  rw [show isRearranged = fun t => isFor t || wrapsQuery t from rfl, occursAny_or, noFor, noQuery]
  rfl

theorem flatten_trees_of_parseText_slice :
    ∃ stream t, tokenize "&[T]" "" 1 = .ok stream ∧ occursAny isFor stream = false ∧
      occursAny wrapsQuery stream = false ∧ parseText "&[T]" "" 1 true = .ok t ∧
      flatten t.trees = flatten stream := by
  let place (col : Int) : Span := ⟨"", 1, col, 1, col⟩
  let name : Token := ⟨.identifier, "T", place 3, false⟩
  let path : Path := .path none (.last (.segment name .noArguments))
  have source : tokenize "&[T]" "" 1 = .ok [.token (.punct "&" (place 1)),
      .group .bracket [.token name] (place 2) (place 4)] := rfl
  have run : parseText "&[T]" "" 1 true = .ok (.reference (.punct "&" (place 1)) none none
      (.slice ⟨.bracket, place 2⟩ (.pathType .unqualified path))) := rfl
  exact ⟨_, _, source, by decide, by decide, run,
    flatten_trees_of_parseText source (by decide) (by decide) run⟩

end TypeGrammar
