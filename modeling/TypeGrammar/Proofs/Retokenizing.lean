import TypeGrammar.Proofs.Regular
import TypeGrammar.Proofs.Rendering

/-!
# Rendering keeps the tokens

The trees of a text, and those of a type that was read from a text, have a canonical text with the
same kinds and texts of tokens. For their words, numbers and literals are texts of tokens, and no
two of their characters that are joint open a comment: in a text such characters would have been
one.
-/

namespace TypeGrammar

open TokenTree
open Chunk (treesAll)

/-! ## The trees of a text -/

/-- The mark of a token; that of a delimiter follows from its kind. -/
def Token.mark (t : Token) : Mark :=
  ((t.kind.opens?.map fun d => Mark.edge d.opening).or
    (t.kind.closes?.map fun d => Mark.edge d.closing)).getD (.token t)

theorem Token.mark_opens {t : Token} {d : Delimiter} (h : t.kind.opens? = some d) :
    t.mark = .edge d.opening := by
  simp [mark, h]

theorem Token.mark_closes {t : Token} {d : Delimiter} (h : t.kind.closes? = some d) :
    t.mark = .edge d.closing := by
  simp [mark, h, TokenKind.opens?_of_closes h]

theorem Token.mark_token {t : Token} (opens : t.kind.opens? = none)
    (closes : t.kind.closes? = none) : t.mark = .token t := by
  simp [mark, opens, closes]

theorem marksAll_append (ts us : List TokenTree) :
    marksAll (ts ++ us) = marksAll ts ++ marksAll us := by
  induction ts with
  | nil => rfl
  | cons t ts ih => simp [marksAll, ih]

theorem Nests.marksAll_eq {ts : List Token} {trees : List TokenTree} (h : Nests ts trees) :
    marksAll trees = ts.map Token.mark := by
  induction h with
  | nil => rfl
  | token opens closes _ ih => simp [marksAll, marks, ih, Token.mark_token opens closes]
  | group opens closes _ _ ihInner ih =>
    simp [marksAll, marks, ihInner, ih, Token.mark_opens opens, Token.mark_closes closes]

theorem Mark.freeAfter_of_ne {c : Char} (h : c ≠ '/') (m : Mark) : m.FreeAfter c := by
  cases m with
  | token t => exact fun _ _ _ opens => h opens.1
  | edge => trivial

/-- The text of a token that was read from a source. -/
theorem sound_mark {c : Char} {cs : List Char} {kind : TokenKind} {n : Nat}
    (h : Lexeme.scan c cs = ⟨.token kind, n⟩) (span : Span) (joint : Bool) :
    (Token.mark ⟨kind, String.ofList (c :: cs.take n), span, joint⟩).Sound := by
  cases opens : kind.opens? with
  | some d =>
    rw [Token.mark_opens opens]
    exact ⟨d, .inl rfl⟩
  | none =>
    cases closes : kind.closes? with
    | some d =>
      rw [Token.mark_closes closes]
      exact ⟨d, .inr rfl⟩
    | none =>
      rw [Token.mark_token opens closes]
      by_cases punct : kind = .punct
      · obtain ⟨rfl, isPunct⟩ := (Lexeme.scan_token_front h).2 punct
        exact (if_pos punct).mpr ⟨c, isPunct, rfl⟩
      · exact (if_neg punct).mpr ⟨opens, closes, c, cs, n, h, rfl⟩

/-- What follows `/` in a source is no character with which it opens a comment. -/
theorem freeAfter_tokensAt {d : Char} {ds : List Char} {limit : Nat}
    (enough : (d :: ds).length ≤ limit) (punct : isPunctChar d = true) (slash : d ≠ '/')
    (star : d ≠ '*') (file : String) (p : Place) :
    ∀ u ∈ (tokensAt file p (piecesUpTo limit (d :: ds))).head?, u.mark.FreeAfter '/' := by
  obtain ⟨limit, rfl⟩ : ∃ l, limit = l + 1 := ⟨limit - 1, by simp at enough; omega⟩
  have scanned : Lexeme.scan d ds = ⟨.token .punct, 0⟩ :=
    Lexeme.scan_punct punct fun eq => absurd eq slash
  intro u first
  simp only [piecesUpTo, scanned, tokensAt_cons] at first
  cases first
  rw [Token.mark_token rfl rfl]
  intro _ e text opens
  obtain rfl : d = e := by simpa using congrArg String.toList text
  obtain ⟨-, rfl | rfl⟩ := opens
  · exact slash rfl
  · exact star rfl

theorem apart_tokensAt {c : Char} {cs : List Char} {kind : TokenKind} {n limit : Nat}
    (h : Lexeme.scan c cs = ⟨.token kind, n⟩) (enough : (cs.drop n).length ≤ limit) (span : Span)
    (file : String) (p : Place) :
    ∀ u ∈ (tokensAt file p (piecesUpTo limit (cs.drop n))).head?,
      (Token.mark ⟨kind, String.ofList (c :: cs.take n), span,
        kind == .punct && (cs.drop n).head?.any isPunctChar⟩).Apart u.mark := by
  intro u first
  cases opens : kind.opens? with
  | some d =>
    rw [Token.mark_opens opens]
    trivial
  | none =>
    cases closes : kind.closes? with
    | some d =>
      rw [Token.mark_closes closes]
      trivial
    | none =>
      rw [Token.mark_token opens closes]
      intro punct joint b text
      obtain ⟨rfl, -⟩ := (Lexeme.scan_token_front h).2 punct
      obtain rfl : c = b := by simpa using congrArg String.toList text
      by_cases slash : c = '/'
      · subst slash
        obtain ⟨-, -, free⟩ := Lexeme.scan_slash_token h
        obtain ⟨-, next⟩ := Bool.and_eq_true_iff.1 joint
        cases cs with
        | nil => cases next
        | cons d ds =>
          obtain ⟨noSlash, noStar⟩ := free d rfl
          exact freeAfter_tokensAt enough next noSlash noStar file p u first
      · exact Mark.freeAfter_of_ne slash _

/-- The tokens of a source can be read one by one. -/
theorem sound_tokensAt {limit : Nat} {cs : List Char} (enough : cs.length ≤ limit) (file : String)
    (p : Place) (quiet : faultsAt file p (piecesUpTo limit cs) = []) :
    (∀ t ∈ tokensAt file p (piecesUpTo limit cs), t.mark.Sound) ∧
      (tokensAt file p (piecesUpTo limit cs)).IsChain fun t u => t.mark.Apart u.mark := by
  induction limit generalizing cs p with
  | zero =>
    obtain rfl := List.length_eq_zero_iff.1 (Nat.le_zero.1 enough)
    exact ⟨fun _ mem => absurd mem List.not_mem_nil, .nil⟩
  | succ limit ih =>
    cases cs with
    | nil => exact ⟨fun _ mem => absurd mem List.not_mem_nil, .nil⟩
    | cons c cs =>
      cases scanned : Lexeme.scan c cs with
      | mk sort n =>
      have short : (cs.drop n).length ≤ limit := by
        simp only [List.length_cons, List.length_drop] at enough ⊢
        omega
      simp only [piecesUpTo, scanned, faultsAt_cons, tokensAt_cons] at quiet ⊢
      obtain ⟨here, later⟩ := List.append_eq_nil_iff.1 quiet
      obtain ⟨sound, apart⟩ := ih short _ later
      cases sort with
      | gap => exact ⟨sound, apart⟩
      | token kind =>
        exact ⟨List.forall_mem_cons.2 ⟨sound_mark scanned _ _, sound⟩,
          List.isChain_cons.2 ⟨apart_tokensAt scanned short _ file _, apart⟩⟩
      | fault cause => simp [Piece.fault?] at here

theorem Renderable.of_tokenize {source file : String} {line : Int} {ts : List TokenTree}
    (h : tokenize source file line = .ok ts) : Renderable ts := by
  obtain ⟨quiet, nested⟩ := tokenize_ok.1 h
  obtain ⟨sound, apart⟩ := sound_tokensAt (Nat.le_refl _) file ⟨line, 1⟩ quiet
  have marks := nested.marksAll_eq
  refine ⟨?_, ?_⟩
  · rw [marks]
    exact List.forall_mem_map.2 sound
  · rw [marks]
    exact (List.isChain_map Token.mark).2 apart

/-! ## The trees of a type -/

/-- A mark that opens no comment with what follows. -/
def Mark.Loose (m : Mark) : Prop :=
  ∀ m', m.Apart m'

theorem Mark.loose_token {t : Token} (h : t.kind = .punct → t.joint = false) :
    (Mark.token t).Loose :=
  fun _ punct joint => absurd ((h punct).symm.trans joint) Bool.false_ne_true

theorem Renderable.append {ts us : List TokenTree} (h : Renderable (ts ++ us)) :
    Renderable ts ∧ Renderable us := by
  obtain ⟨sound, apart⟩ := h
  rw [marksAll_append] at sound apart
  obtain ⟨first, second⟩ := List.forall_mem_append.1 sound
  obtain ⟨chain, chain', -⟩ := List.isChain_append.1 apart
  exact ⟨⟨first, chain⟩, ⟨second, chain'⟩⟩

/-- Trees that can be read one by one in front of any other such trees. -/
structure Detached (ts : List TokenTree) : Prop extends Renderable ts where
  loose : ∀ m ∈ (marksAll ts).getLast?, m.Loose

theorem Detached.nil : Detached [] where
  sound _ mem := absurd mem List.not_mem_nil
  apart := .nil
  loose _ last := by cases last

theorem Detached.append {ts us : List TokenTree} (h : Detached ts) (h' : Detached us) :
    Detached (ts ++ us) where
  sound := by
    rw [marksAll_append]
    exact List.forall_mem_append.2 ⟨h.sound, h'.sound⟩
  apart := by
    rw [marksAll_append]
    exact List.isChain_append.2 ⟨h.apart, h'.apart, fun m last m' _ => h.loose m last m'⟩
  loose m last := by
    rw [marksAll_append, List.getLast?_append] at last
    obtain last | ⟨-, last⟩ := Option.or_eq_some_iff.1 last
    · exact h'.loose m last
    · exact h.loose m last

theorem Detached.token {t : Token} (sound : (Mark.token t).Sound)
    (free : t.kind = .punct → t.joint = false) : Detached [.token t] where
  sound m mem := by
    cases List.mem_singleton.1 mem
    exact sound
  apart := .singleton _
  loose m last := by
    cases last
    exact Mark.loose_token free

theorem marksAll_group (d : Delimiter) (ts : List TokenTree) (o e : Span) :
    marksAll [.group d ts o e] = .edge d.opening :: (marksAll ts ++ [.edge d.closing]) := by
  simp [marksAll, marks]

theorem Renderable.inside {d : Delimiter} {ts : List TokenTree} {o e : Span}
    (h : Renderable [.group d ts o e]) : Renderable ts := by
  obtain ⟨sound, apart⟩ := h
  rw [marksAll_group] at sound apart
  exact ⟨(List.forall_mem_append.1 (List.forall_mem_cons.1 sound).2).1,
    (List.isChain_append.1 (List.isChain_cons.1 apart).2).1⟩

theorem Renderable.around {d : Delimiter} {ts : List TokenTree} {o e : Span} (h : Renderable ts) :
    Detached [.group d ts o e] := by
  refine ⟨⟨?_, ?_⟩, ?_⟩ <;> rw [marksAll_group]
  · exact List.forall_mem_cons.2 ⟨⟨d, .inl rfl⟩, List.forall_mem_append.2
      ⟨h.sound, List.forall_mem_singleton.2 ⟨d, .inr rfl⟩⟩⟩
  · refine List.isChain_cons.2 ⟨fun _ _ => trivial, List.isChain_append.2
      ⟨h.apart, .singleton _, fun m _ m' first => ?_⟩⟩
    cases first
    cases m with
    | token t => exact fun _ _ _ _ => trivial
    | edge => trivial
  · rw [← List.cons_append, List.getLast?_concat]
    rintro m ⟨⟩
    exact fun _ => trivial

theorem signs_chars : ∀ op ∈ signs, op.toList.all isPunctChar = true ∧
    op.toList.IsChain fun c d => ¬ OpensComment c d := by
  decide

theorem detached_go (t : Token) {cs : List Char} (h : OperatorChars cs) :
    Detached ((Token.split.go t cs).map .token) := by
  induction cs with
  | nil => exact .nil
  | cons c cs ih =>
    obtain ⟨punct, later⟩ := List.forall_mem_cons.1 h.punct
    obtain ⟨first, apart⟩ := List.isChain_cons.1 h.apart
    have next := ih ⟨later, apart⟩
    have sound : (Mark.token ⟨.punct, String.singleton c, t.span, !cs.isEmpty⟩).Sound :=
      ⟨c, punct, rfl⟩
    cases cs with
    | nil => exact .token sound fun _ => rfl
    | cons d ds =>
      refine ⟨⟨List.forall_mem_cons.2 ⟨sound, next.sound⟩, List.isChain_cons.2
        ⟨fun m front => ?_, next.apart⟩⟩, fun m last => next.loose m last⟩
      cases front
      intro _ _ b text _ e text' opens
      obtain rfl : c = b := by simpa using congrArg String.toList text
      obtain rfl : d = e := by simpa using congrArg String.toList text'
      exact first d rfl opens

theorem detached_sign {t : Token} (punct : t.kind = .punct) (free : t.joint = false)
    (sign : t.text ∈ signs) : Detached t.trees := by
  obtain ⟨all, apart⟩ := signs_chars t.text sign
  have chars := List.all_eq_true.1 all
  unfold Token.trees
  split
  · exact detached_go t ⟨chars, apart⟩
  · rename_i short
    obtain ⟨c, text⟩ := sign_of_short sign fun long => short ⟨punct, long⟩
    refine .token ((if_pos punct).mpr ⟨c, chars c ?_, text⟩) fun _ => free
    rw [text, String.toList_singleton]
    exact List.mem_cons_self

mutual

theorem Chunk.Regular.detached : {p : Chunk} →
    p.Regular (fun t => IsWordText t.kind t.text) Renderable → Detached p.trees
  | .word t, h => by
    rw [Chunk.trees_word, Token.trees, if_neg fun long => h.1 long.1]
    exact .token ((if_neg h.1).mpr h.2) fun punct => absurd punct h.1
  | .mark t binary, h => detached_sign h.1 h.2.1 h.2.2
  | .group d inner, h => (RegularAll.detached h).toRenderable.around
  | .raw d tokens, h => h.around

theorem RegularAll.detached : {ps : List Chunk} →
    RegularAll (fun t => IsWordText t.kind t.text) Renderable ps → Detached (treesAll ps)
  | [], _ => .nil
  | _ :: _, h => h.1.detached.append h.2.detached

end

/-- The same mark outside any file. -/
def Mark.erase : Mark → Mark
  | .token t => .token t.erase
  | .edge text => .edge text

mutual

theorem marks_erase : (t : TokenTree) → marks t.erase = (marks t).map Mark.erase
  | .token _ => rfl
  | .group d ts o e => by simp [erase, marks, marksAll_eraseAll ts, Mark.erase]

theorem marksAll_eraseAll : (ts : List TokenTree) →
    marksAll (eraseAll ts) = (marksAll ts).map Mark.erase
  | [] => rfl
  | t :: ts => by simp [eraseAll, marksAll, marks_erase t, marksAll_eraseAll ts]

end

theorem Mark.sound_erase (m : Mark) : m.erase.Sound ↔ m.Sound := by
  cases m <;> rfl

theorem Mark.apart_erase (m m' : Mark) : m.erase.Apart m'.erase ↔ m.Apart m' := by
  cases m <;> cases m' <;> rfl

/-- It does not matter where the tokens stand. -/
theorem renderable_eraseAll {ts : List TokenTree} : Renderable (eraseAll ts) ↔ Renderable ts := by
  have sound : (∀ m ∈ marksAll (eraseAll ts), m.Sound) ↔ ∀ m ∈ marksAll ts, m.Sound := by
    simp only [marksAll_eraseAll, List.forall_mem_map, Mark.sound_erase]
  have apart : (marksAll (eraseAll ts)).IsChain Mark.Apart ↔ (marksAll ts).IsChain Mark.Apart := by
    simp only [marksAll_eraseAll, List.isChain_map, Mark.apart_erase]
  exact ⟨fun h => ⟨sound.1 h.sound, apart.1 h.apart⟩, fun h => ⟨sound.2 h.sound, apart.2 h.apart⟩⟩

theorem Renderable.inherited :
    Inherited Renderable (fun t => IsWordText t.kind t.text) Renderable where
  append := Renderable.append
  group h := h.inside
  word {t u} h other same := by
    obtain ⟨kind, text, -⟩ := erase_eq_iff.1 same
    have sound := (if_neg other).mp (h.sound (.token t) List.mem_cons_self)
    rwa [kind, text] at sound
  body h same := by
    rw [← renderable_eraseAll, ← same, renderable_eraseAll]
    exact h

theorem Renderable.of_parseText {text file : String} {line : Int} {plus : Bool} {t : Ty}
    (h : parseText text file line plus = .ok t) : Renderable t.trees := by
  rw [Node.trees_eq]
  have regular := regularAll_of_parseText Renderable.inherited h fun _ => Renderable.of_tokenize
  exact regular.detached.toRenderable

/-- Rendering the trees of a text, or those of a type, changes neither the kinds nor the texts of
the tokens, and it moves no delimiter. -/
theorem tokenize_render {ts : List TokenTree}
    (h : (∃ source file line, tokenize source file line = .ok ts) ∨
      ∃ text file line plus t, parseText text file line plus = .ok t ∧ ts = t.trees)
    (file : String) (line : Int) :
    ∃ us, tokenize (render ts) file line = .ok us ∧ flatten us = flatten ts := by
  have renderable : Renderable ts := by
    obtain ⟨source, file, line, trees⟩ | ⟨text, file, line, plus, t, read, rfl⟩ := h
    · exact .of_tokenize trees
    · exact .of_parseText read
  exact renderable.read_again file line

/-- The operators `/` and `*` are not written as the start of a comment. -/
theorem tokenize_render_slash :
    ∃ ts, tokenize "a/ *b" "" 1 = .ok ts ∧ render ts = "a / *b" ∧
      ∃ us, tokenize (render ts) "" 1 = .ok us ∧ flatten us = flatten ts := by
  have source : tokenize "a/ *b" "" 1 = .ok [
      .token ⟨.identifier, "a", ⟨"", 1, 1, 1, 1⟩, false⟩,
      .token ⟨.punct, "/", ⟨"", 1, 2, 1, 2⟩, false⟩,
      .token ⟨.punct, "*", ⟨"", 1, 4, 1, 4⟩, false⟩,
      .token ⟨.identifier, "b", ⟨"", 1, 5, 1, 5⟩, false⟩] := rfl
  exact ⟨_, source, by decide, tokenize_render (.inl ⟨_, _, _, source⟩) "" 1⟩

end TypeGrammar
