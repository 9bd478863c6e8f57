import TypeGrammar.Proofs.Lexemes
import TypeGrammar.Proofs.Nesting
import TypeGrammar.Proofs.Spelling

/-!
# Joint punctuation

A mark of punctuation is joint if the next character of the text is one of the characters of
operators. That character belongs to the next token, which is punctuation then, or it begins a
comment: the comment is not recognized before the mark is made. So joint marks stand next to each
other in the text, or have a comment right after the first, and an operator of several characters is
spelled in one piece up to such comments.
-/

namespace TypeGrammar

open TokenTree

/-! ## Texts that are tiled by tokens with their marks -/

/-- A text that starts with a comment. -/
def StartsComment (text : List Char) : Prop :=
  ['/', '/'] <+: text ∨ ['/', '*'] <+: text

/-- A token whose text stands in a source between `before` and `after`, at the place of its span. -/
structure Token.StandsIn (t : Token) (source : List Char) (file : String) (line : Int)
    (before after : List Char) : Prop where
  text : source = before ++ (t.text.toList ++ after)
  span : t.span = spanAfter file line before t.text.toList

/-- What the characters of a token and of the text after it say about the token. -/
structure Token.Marked (t : Token) (after : List Char) : Prop where
  visible : t.text.toList ≠ []
  punct : t.kind = .punct ↔ t.text.toList.head?.any isPunctChar = true
  joint : t.kind = .punct → t.joint = after.head?.any isPunctChar

/-- A text after `before` is made of gaps and of the texts of the tokens up to the end marker, which
is the last of them. -/
inductive Joined (file : String) (line : Int) : (before : List Char) → List Token → List Char → Prop
  | last {before gap : List Char} {t : Token} : Gap gap [] → t.kind = .eof →
      Joined file line before [t] gap
  | token {before gap rest : List Char} {t : Token} {ts : List Token} :
      Gap gap (t.text.toList ++ rest) → t.Marked rest →
      t.span = spanAfter file line (before ++ gap) t.text.toList →
      Joined file line (before ++ gap ++ t.text.toList) ts rest →
      Joined file line before (t :: ts) (gap ++ (t.text.toList ++ rest))

/-- The comment of a gap is what begins with a character of an operator. -/
theorem Gap.startsComment {gap after : List Char} (h : Gap gap after) (nonempty : gap ≠ [])
    (punct : gap.head?.any isPunctChar = true) : StartsComment gap := by
  cases h with
  | nil => exact absurd rfl nonempty
  | @blank c gap _ blank _ =>
    rw [List.head?_cons, Option.any_some] at punct
    simp only [List.mem_cons, List.not_mem_nil, or_false] at blank
    obtain rfl | rfl | rfl | rfl := blank <;> exact absurd punct (by decide)
  | line => exact .inl ⟨_, rfl⟩
  | block => exact .inr ⟨_, rfl⟩

theorem StartsComment.append {text : List Char} (h : StartsComment text) (rest : List Char) :
    StartsComment (text ++ rest) :=
  h.imp (·.trans (List.prefix_append ..)) (·.trans (List.prefix_append ..))

theorem StartsComment.punct {text : List Char} (h : StartsComment text) :
    text.head?.any isPunctChar = true := by
  obtain ⟨rest, rfl⟩ | ⟨rest, rfl⟩ := h <;> rfl

namespace Lexeme

/-- The first character of a token tells if it is punctuation. -/
theorem scan_punct_iff {c : Char} {cs : List Char} {kind : TokenKind} {n : Nat}
    (h : scan c cs = ⟨.token kind, n⟩) : kind = .punct ↔ isPunctChar c = true := by
  constructor
  · exact fun punct => ((scan_token_front h).2 punct).2
  · intro punct
    by_cases slash : c = '/'
    · subst slash
      exact (scan_slash_token h).1
    · rw [scan_punct punct fun eq => absurd eq slash] at h
      cases h
      rfl

/-- The marks of the token that is made of a lexeme. -/
theorem scan_marked {c : Char} {cs : List Char} {kind : TokenKind} {n : Nat}
    (h : scan c cs = ⟨.token kind, n⟩) (span : Span) :
    Token.Marked ⟨kind, String.ofList (c :: cs.take n), span,
      kind == .punct && (cs.drop n).head?.any isPunctChar⟩ (cs.drop n) where
  visible := by simp
  punct := by simpa using scan_punct_iff h
  joint := fun punct => by simp [show kind = .punct from punct]

end Lexeme

namespace Joined

variable {file : String} {line : Int} {before rest : List Char} {ts : List Token}

theorem afterGap {front : List Char} (h : Joined file line (before ++ front) ts rest)
    (goes : ∀ gap after, rest = gap ++ after → Gap gap after → Gap (front ++ gap) after) :
    Joined file line before ts (front ++ rest) := by
  cases h with
  | last gap mark => exact .last (goes _ [] (List.append_nil _).symm gap) mark
  | @token _ gap rest t ts between marked span more =>
    rw [← List.append_assoc]
    simp only [List.append_assoc] at span more
    exact .token (goes _ _ rfl between) marked (by simpa using span) (by simpa using more)

theorem afterToken {t : Token} {text : List Char} (h : Joined file line (before ++ text) ts rest)
    (eq : t.text.toList = text) (marked : t.Marked rest)
    (span : t.span = spanAfter file line before text) :
    Joined file line before (t :: ts) (text ++ rest) := by
  subst eq
  rw [← List.append_nil before] at span h
  exact .token (.nil _) marked span h

/-- The tokens of pieces without a fault, with an end marker, tile the text of the pieces. -/
theorem of_pieces {limit : Nat} {cs : List Char} {mark : Token} (ends : mark.kind = .eof)
    (enough : cs.length ≤ limit)
    (sound : faultsAt file ((⟨line, 1⟩ : Place).after before) (piecesUpTo limit cs) = []) :
    Joined file line before
      (tokensAt file ((⟨line, 1⟩ : Place).after before) (piecesUpTo limit cs) ++ [mark]) cs := by
  induction limit generalizing before cs with
  | zero =>
    obtain rfl := List.length_eq_zero_iff.1 (Nat.le_zero.1 enough)
    exact .last (.nil []) ends
  | succ limit ih =>
    cases cs with
    | nil => exact .last (.nil []) ends
    | cons c cs =>
      cases scanned : Lexeme.scan c cs with
      | mk sort n =>
      have short : (cs.drop n).length ≤ limit := by
        simp only [List.length_cons, List.length_drop] at enough ⊢
        omega
      have whole : c :: cs = (c :: cs.take n) ++ cs.drop n := by
        rw [List.cons_append, List.take_append_drop]
      simp only [piecesUpTo, scanned, faultsAt_cons, tokensAt_cons,
        ← Place.after_append] at sound ⊢
      obtain ⟨here, later⟩ := List.append_eq_nil_iff.1 sound
      have joined := ih short later
      cases sort with
      | gap =>
        rw [whole]
        exact joined.afterGap fun gap after eq more => Lexeme.scan_gap scanned eq more
      | token kind =>
        obtain ⟨-, d, last, noFeed⟩ := Lexeme.scan_token scanned
        have text : (String.ofList (c :: cs.take n)).toList = c :: cs.take n := String.toList_ofList
        rw [whole]
        exact joined.afterToken text (Lexeme.scan_marked scanned _)
          (Place.spanOf_eq file line last noFeed)
      | fault cause => simp [Piece.fault?] at here

/-- What is left of a text after some of its tokens. -/
theorem split {front more : List Token} {text : List Char} (nonempty : more ≠ [])
    (h : Joined file line before (front ++ more) text) :
    ∃ mid after, text = mid ++ after ∧ Joined file line (before ++ mid) more after := by
  induction front generalizing before text with
  | nil => exact ⟨[], text, rfl, by rwa [List.append_nil]⟩
  | cons t front ih =>
    generalize eq : t :: front ++ more = tokens at h
    cases h with
    | last =>
      obtain ⟨-, empty⟩ := List.cons.inj eq
      exact absurd (List.append_eq_nil_iff.1 empty).2 nonempty
    | @token _ gap rest _ _ between marked span joined =>
      obtain ⟨rfl, rfl⟩ := List.cons.inj eq
      obtain ⟨mid, after, rfl, later⟩ := ih joined
      exact ⟨gap ++ (t.text.toList ++ mid), after, by simp, by simpa using later⟩

/-- The text of a token behind the gap in front of it, if the token is not the end marker. -/
theorem front {t : Token} {text : List Char} (h : Joined file line before (t :: ts) text)
    (known : t.kind ≠ .eof) :
    ∃ gap after, text = gap ++ (t.text.toList ++ after) ∧ Gap gap (t.text.toList ++ after) ∧
      t.StandsIn (before ++ text) file line (before ++ gap) after ∧ t.Marked after ∧
      Joined file line (before ++ gap ++ t.text.toList) ts after := by
  cases h with
  | last _ mark => exact absurd mark known
  | @token _ gap after _ _ between marked span joined =>
    exact ⟨gap, after, rfl, between, ⟨by simp, span⟩, marked, joined⟩

end Joined

/-- The tokens of a text tile it, and their marks follow from its characters. -/
theorem lex_joined {source file : String} {line : Int} {tokens : List Token}
    (h : lex source file line = .ok tokens) :
    ∃ marks last, tokens = marks ++ [last] ∧ last.kind = .eof ∧ (∀ t ∈ marks, t.kind ≠ .eof) ∧
      Joined file line [] tokens source.toList := by
  unfold lex at h
  simp only at h
  split at h
  · rename_i sound
    cases h
    have start : faultsAt file ((⟨line, 1⟩ : Place).after []) (pieces source.toList) = [] := sound
    exact ⟨_, _, rfl, rfl, (tiled_piecesUpTo (Nat.le_refl _) start).1,
      Joined.of_pieces rfl (Nat.le_refl _) start⟩
  · cases h

/-! ## Cursors over the trees of a text -/

/-- The cursors over some trees: at the start, further on, or inside a group. -/
inductive Cursor.Over (trees : List TokenTree) : Cursor → Prop
  | start (endSpan : Span) : Over trees (.ofTrees trees endSpan)
  | skip {c : Cursor} (n : Nat) : Over trees c → Over trees (c.skip n)
  | enter {c : Cursor} {d : Delimiter} {body more : List TokenTree} {o e : Span} :
      Over trees c → c.rest = .group d body o e :: more → Over trees (.ofTrees body e)

/-- The tokens of a list of trees without its first ones. -/
theorem Nests.drop {ts : List Token} {trees : List TokenTree} (h : Nests ts trees) (n : Nat) :
    ∃ front back, ts = front ++ back ∧ Nests back (trees.drop n) := by
  induction h generalizing n with
  | nil => exact ⟨[], [], rfl, by simpa using .nil⟩
  | @token t ts trees opens closes more ih =>
    cases n with
    | zero => exact ⟨[], _, rfl, .token opens closes more⟩
    | succ n =>
      obtain ⟨front, back, rfl, rest⟩ := ih n
      exact ⟨t :: front, back, rfl, rest⟩
  | @group o c d inner ts body trees opens closes inside more _ ih =>
    cases n with
    | zero => exact ⟨[], _, rfl, .group opens closes inside more⟩
    | succ n =>
      obtain ⟨front, back, rfl, rest⟩ := ih n
      exact ⟨o :: (inner ++ c :: front), back, by simp, rest⟩

/-- The tokens of the trees ahead of a cursor are a part of all tokens. -/
theorem Cursor.Over.tokens {trees : List TokenTree} {c : Cursor} (h : Over trees c)
    {ts : List Token} (nests : Nests ts trees) :
    ∃ front mid back, ts = front ++ (mid ++ back) ∧ Nests mid c.rest := by
  induction h with
  | start => exact ⟨[], ts, [], (List.append_nil ts).symm, nests⟩
  | skip n _ ih =>
    obtain ⟨front, _, back, rfl, ahead⟩ := ih
    obtain ⟨skipped, mid, rfl, further⟩ := ahead.drop n
    exact ⟨front ++ skipped, mid, back, by simp, further⟩
  | enter _ eq ih =>
    obtain ⟨front, _, back, rfl, ahead⟩ := ih
    rw [eq] at ahead
    cases ahead with
    | @group o e _ inner us _ _ _ _ inside _ =>
      exact ⟨front ++ [o], inner, e :: us ++ back, by simp, inside⟩

/-! ## Operators -/

/-- A text starts with the characters of an operator, between which nothing stands but gaps that
start with a comment. -/
inductive SpelledOut : (op text : List Char) → Prop
  | nil (text : List Char) : SpelledOut [] text
  | cons {c : Char} {op gap text : List Char} : Gap gap text → (gap ≠ [] → StartsComment gap) →
      SpelledOut op text → SpelledOut (c :: op) (c :: (gap ++ text))

/-- An operator in front of a cursor is spelled out in the text, from the mark of its first
character on. -/
theorem Joined.spelledOut {file : String} {line : Int} {before text : List Char} {c : Char}
    {op : List Char} {ahead : List TokenTree} {mid back : List Token} (nests : Nests mid ahead)
    (joined : Joined file line before (mid ++ back) text) (starts : startsChars (c :: op) ahead) :
    ∃ t more gap after, ahead = .token t :: more ∧ t.kind = .punct ∧
      text = gap ++ (t.text.toList ++ after) ∧ Gap gap (t.text.toList ++ after) ∧
      t.StandsIn (before ++ text) file line (before ++ gap) after ∧
      SpelledOut (c :: op) (t.text.toList ++ after) := by
  obtain ⟨t, more, rfl, punct, text, goesOn⟩ := startsChars_front starts
  cases nests with
  | @token _ mid _ opens closes nests =>
  have known : t.kind ≠ .eof := by
    rw [punct]
    decide
  obtain ⟨gap, after, rfl, between, stands, marked, joined⟩ := joined.front known
  refine ⟨t, more, gap, after, rfl, punct, rfl, between, stands, ?_⟩
  rw [text]
  cases op with
  | nil =>
    exact .cons (.nil after) (fun nonempty => absurd rfl nonempty) (.nil after)
  | cons d op =>
    obtain ⟨joint, starts⟩ := goesOn (List.cons_ne_nil d op)
    -- the next mark of the operator stands behind a gap that must not start with a blank
    obtain ⟨u, _, gap', after', -, -, rfl, between', -, spelled⟩ := joined.spelledOut nests starts
    have next := marked.joint punct
    rw [joint] at next
    have comment : gap' ≠ [] → StartsComment gap' := by
      intro nonempty
      refine between'.startsComment nonempty ?_
      cases gap' with
      | nil => exact absurd rfl nonempty
      | cons b gap' => exact next.symm
    exact (SpelledOut.cons between' comment spelled :)

/-- The first character of a token that is in front of a text. -/
theorem Token.Marked.punct_front {t : Token} {after rest : List Char} (h : t.Marked after) :
    t.kind = .punct ↔ (t.text.toList ++ rest).head?.any isPunctChar = true := by
  obtain ⟨c, cs, eq⟩ := List.exists_cons_of_ne_nil h.visible
  simp [h.punct, eq]

/-- Punctuation is joint if a comment or more punctuation comes right after it. -/
theorem Joined.joint_iff {file : String} {line : Int} {before text : List Char} {t : Token}
    {ts : List Token} (joined : Joined file line before (t :: ts) text) (punct : t.kind = .punct) :
    ∃ gap after, t.StandsIn (before ++ text) file line (before ++ gap) after ∧
      (t.joint = true ↔ StartsComment after ∨ ∃ u ∈ ts.head?, u.kind = .punct ∧ ∃ after',
        u.StandsIn (before ++ text) file line (before ++ gap ++ t.text.toList) after') := by
  have known {u : Token} (punct : u.kind = .punct) : u.kind ≠ .eof := by
    rw [punct]
    decide
  obtain ⟨gap, after, rfl, -, stands, marked, more⟩ := joined.front (known punct)
  refine ⟨gap, after, stands, ?_⟩
  rw [marked.joint punct]
  constructor
  · intro next
    -- the next character is of the gap in front of the next token, or of this token itself
    cases more with
    | last between _ =>
      refine .inl (between.startsComment ?_ next)
      rintro rfl
      cases next
    | @token _ gap' rest u _ between marked' span _ =>
      cases gap' with
      | nil =>
        exact .inr ⟨u, rfl, marked'.punct_front.2 next, rest, by simp, by simpa using span⟩
      | cons b gap' => exact .inl ((between.startsComment (List.cons_ne_nil b gap') next).append _)
  · rintro (comment | ⟨u, next, punct', after', stands'⟩)
    · exact comment.punct
    · obtain ⟨us, rfl⟩ := List.head?_eq_some_iff.1 next
      obtain ⟨_, _, -, -, -, marked', -⟩ := more.front (known punct')
      have same : after = u.text.toList ++ after' := by
        have whole := stands.text.symm.trans stands'.text
        simpa [List.append_assoc] using whole
      exact same ▸ marked'.punct_front.1 punct'

/-- In a text that has tokens, punctuation is joint exactly if a comment or more punctuation comes
right after it. An operator in front of a cursor over the trees is spelled out in the text, without
a gap or with gaps that start with a comment. -/
theorem lex_joint {source file : String} {line : Int} {tokens : List Token}
    (h : lex source file line = .ok tokens) :
    (∀ front t back, tokens = front ++ t :: back → t.kind = .punct →
      ∃ before after, t.StandsIn source.toList file line before after ∧
        (t.joint = true ↔ StartsComment after ∨ ∃ u ∈ back.head?, u.kind = .punct ∧
          ∃ after', u.StandsIn source.toList file line (before ++ t.text.toList) after')) ∧
    ∀ trees c op, nest tokens = .ok trees → Cursor.Over trees c → op ≠ "" →
      startsPunct op c.rest = true → ∃ t more before after, c.rest = .token t :: more ∧
        t.StandsIn source.toList file line before after ∧
        SpelledOut op.toList (t.text.toList ++ after) := by
  obtain ⟨marks, last, rfl, ends, known, joined⟩ := lex_joined h
  constructor
  · intro front t back eq punct
    rw [eq] at joined
    obtain ⟨mid, text, whole, joined⟩ := joined.split (List.cons_ne_nil t back)
    obtain ⟨gap, after, stands, iff⟩ := joined.joint_iff punct
    rw [List.nil_append, ← whole] at stands iff
    exact ⟨_, after, stands, iff⟩
  · intro trees c op nested ahead nonempty starts
    rw [nest_ok, List.takeWhile_append_of_pos fun t mem => bne_iff_ne.2 (known t mem),
      List.takeWhile_cons_of_neg (by simp [ends]), List.append_nil] at nested
    obtain ⟨front, mid, back, rfl, nests⟩ := ahead.tokens nested
    rw [List.append_assoc, List.append_assoc] at joined
    obtain ⟨before, text, whole, joined⟩ := joined.split (by simp)
    rw [List.nil_append] at joined
    obtain ⟨b, bs, eq⟩ := List.exists_cons_of_ne_nil (mt String.toList_eq_nil_iff.1 nonempty)
    rw [startsPunct, eq] at starts
    obtain ⟨t, more, gap, after, next, -, -, -, stands, spelled⟩ := joined.spelledOut nests starts
    rw [← whole] at stands
    exact ⟨t, more, _, after, next, stands, eq ▸ spelled⟩

/-- Two colons, of which the first is joint. -/
theorem lex_joint_colons :
    ∃ tokens trees, lex "a:: b" "f" 7 = .ok tokens ∧ nest tokens = .ok trees ∧
      (∃ front t back before after, tokens = front ++ t :: back ∧ t.joint = true ∧
        t.StandsIn "a:: b".toList "f" 7 before after ∧
        (t.joint = true ↔ StartsComment after ∨ ∃ u ∈ back.head?, u.kind = .punct ∧
          ∃ after', u.StandsIn "a:: b".toList "f" 7 (before ++ t.text.toList) after')) ∧
      ∃ t more before after, ((Cursor.ofTrees trees .callSite).skip 1).rest = .token t :: more ∧
        t.StandsIn "a:: b".toList "f" 7 before after ∧
        SpelledOut "::".toList (t.text.toList ++ after) := by
  have lexed : lex "a:: b" "f" 7 = .ok ([⟨.identifier, "a", ⟨"f", 7, 1, 7, 1⟩, false⟩] ++
      ⟨.punct, ":", ⟨"f", 7, 2, 7, 2⟩, true⟩ :: [⟨.punct, ":", ⟨"f", 7, 3, 7, 3⟩, false⟩,
        ⟨.identifier, "b", ⟨"f", 7, 5, 7, 5⟩, false⟩, ⟨.eof, "", ⟨"f", 7, 6, 7, 5⟩, false⟩]) := rfl
  obtain ⟨marks, spelled⟩ := lex_joint lexed
  obtain ⟨before, after, stands, iff⟩ := marks _ _ _ rfl rfl
  exact ⟨_, _, lexed, rfl, ⟨_, _, _, before, after, rfl, rfl, stands, iff⟩,
    spelled _ _ "::" rfl (.skip 1 (.start _)) (by decide) rfl⟩

/-- Punctuation is joint to a comment that stands between it and more punctuation, or the end. -/
theorem joint_at_comment :
    (∃ t e, lex "+//" "f" 1 = .ok [t, e] ∧ t.kind = .punct ∧ t.joint = true ∧ e.kind = .eof) ∧
      ∃ tokens trees, lex ":/**/:" "f" 1 = .ok tokens ∧ nest tokens = .ok trees ∧
        startsPunct "::" (Cursor.ofTrees trees .callSite).rest = true ∧
        ¬ "::".toList <:+: ":/**/:".toList :=
  ⟨⟨_, _, rfl, rfl, rfl, rfl⟩, _, _, rfl, rfl, rfl, by decide⟩

end TypeGrammar
