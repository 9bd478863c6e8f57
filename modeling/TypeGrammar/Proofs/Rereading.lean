import TypeGrammar.Proofs.ReadingTypes
import TypeGrammar.Proofs.Seen

/-!
# Reading what was printed

What was read once is printed as chunks, and trees that spell those chunks are read again. A parser
rereads chunks if it takes any trees that spell them, in front of trees that are linked to those
that were ahead after the first reading, and returns a value with a given property. The combinators
keep this, so a parser that is written with `do` rereads if its parts do. Two numbers bound what is
taken: the trees bound the turns of a loop, and the trees with those inside of groups bound the
nesting.
-/

namespace TypeGrammar

open TokenTree

/-- A relation between the trees ahead in a first and in a second reading. -/
abbrev Link := List TokenTree → List TokenTree → Prop

/-- Any two lists of trees. -/
def Link.any : Link := fun _ _ => True

/-- The same answer to a question. -/
def Link.ask {α : Type} (f : List TokenTree → α) : Link := fun r r' => f r = f r'

/-- Trees that spell chunks carry a link in front of them. -/
def Carries (v : View) (before after : Link) (ps : List Chunk) (r r' : List TokenTree) : Prop :=
  ∀ ⦃ts rest : List TokenTree⦄, Spells v ps ts rest → after r' rest → before r (ts ++ rest)

/-- A parser takes trees that spell some chunks, if there are fewer than `width` and with those in
groups fewer than `size`, and returns a value with a property. -/
def Rereads {α : Type} (v : View) (link : Link) (width size : Nat) (p : Parser α) (R : α → Prop)
    (ps : List Chunk) (r : List TokenTree) : Prop :=
  ∀ ⦃d : Cursor⦄ ⦃ts rest : List TokenTree⦄, d.rest = ts ++ rest → Spells v ps ts rest →
    link r rest → ts.length < width → sizeAll ts < size →
    ∃ a d', p d = .ok a d' ∧ d'.rest = rest ∧ R a

theorem TokenTree.sizeAll_append (ts us : List TokenTree) :
    sizeAll (ts ++ us) = sizeAll ts + sizeAll us := by
  induction ts with
  | nil => simp [sizeAll]
  | cons t ts ih => simp [sizeAll, ih, Nat.add_assoc]

/-! ## Links -/

section

variable {v : View} {ps : List Chunk} {c c' : Cursor}

/-- What is printed as it was read carries the answers. -/
theorem Reads.carries (proper : v.Proper) (h : Reads c ps c') :
    Carries v Alike Alike ps c.rest c'.rest := by
  obtain ⟨qs, ⟨us, eq, took⟩, same⟩ := h
  intro ts rest spelled link
  rw [eq]
  exact same.alike proper took spelled link

theorem Reads.asks {α : Type} {f : List TokenTree → α} (proper : v.Proper) (h : Reads c ps c')
    (known : ∀ {r r'}, Alike r r' → f r = f r') :
    Carries v (.ask f) Alike ps c.rest c'.rest :=
  fun _ _ spelled link => known (h.carries proper spelled link)

/-- Without a binder at the front nothing has changed there. -/
theorem Reads.carriesSame (proper : v.Proper) (h : Reads c ps c')
    (off : startsWord "for" c.rest = false) : Carries v SameAhead Alike ps c.rest c'.rest :=
  fun _ _ spelled link => (h.carries proper spelled link).same off

theorem Reads.carriesFront (proper : v.Proper) (h : Reads c ps c')
    (front : Carries v (.ask shape) Alike ps c.rest c'.rest) :
    Carries v SameAhead Alike ps c.rest c'.rest :=
  fun _ _ spelled link => (h.carries proper spelled link).sameFront (front spelled link)

theorem Carries.mono {E L E' F : Link} {r r' : List TokenTree} (h : Carries v E E' ps r r')
    (before : ∀ {r r'}, E r r' → L r r') (after : ∀ {r r'}, F r r' → E' r r') :
    Carries v L F ps r r' :=
  fun _ _ spelled link => before (h spelled (after link))

theorem Carries.append {E E₁ E' : Link} {a b : List Chunk} {r x r' : List TokenTree}
    (h : Carries v E E₁ a r x) (h' : Carries v E₁ E' b x r') :
    Carries v E E' (a ++ b) r r' := by
  intro ts rest spelled link
  obtain ⟨us, ws, rfl, front, back⟩ := spells_append.1 spelled
  rw [List.append_assoc]
  exact h front (h' back link)

theorem Carries.any {E : Link} {r r' : List TokenTree} : Carries v .any E ps r r' :=
  fun _ _ _ _ => trivial

theorem Carries.nil {E : Link} {r : List TokenTree} : Carries v E E [] r r := by
  intro ts rest spelled link
  cases spells_nil.1 spelled
  exact link

end

/-! ## Combinators -/

namespace Rereads

variable {α β : Type} {v : View} {E L : Link} {w n : Nat} {p : Parser α} {q : α → Parser β}
  {R R₁ : α → Prop} {S : β → Prop} {ps qs : List Chunk} {r x : List TokenTree}

theorem mono (h : Rereads v L w n p R₁ ps r) {w' n' : Nat} (width : w' ≤ w) (size : n' ≤ n)
    (link : ∀ {r r'}, E r r' → L r r') (result : ∀ {a}, R₁ a → R a) :
    Rereads v E w' n' p R ps r := by
  intro d ts rest eq spelled linked narrow small
  obtain ⟨a, d', run, done, value⟩ :=
    h eq spelled (link linked) (Nat.lt_of_lt_of_le narrow width) (Nat.lt_of_lt_of_le small size)
  exact ⟨a, d', run, done, result value⟩

theorem smaller (h : Rereads v E w (n + 1) p R ps r) : Rereads v E w n p R ps r :=
  h.mono (Nat.le_refl w) (Nat.le_succ n) id id

theorem weaken (h : Rereads v E w n p R₁ ps r) (result : ∀ {a}, R₁ a → R a) :
    Rereads v E w n p R ps r :=
  h.mono (Nat.le_refl w) (Nat.le_refl n) id result

theorem linked (h : Rereads v L w n p R ps r) (link : ∀ {r r'}, E r r' → L r r') :
    Rereads v E w n p R ps r :=
  h.mono (Nat.le_refl w) (Nat.le_refl n) link id

theorem pure {a : α} (value : R a) : Rereads v E w n (Pure.pure a) R [] r := by
  intro d ts rest eq spelled _ _ _
  cases spells_nil.1 spelled
  exact ⟨a, d, rfl, eq, value⟩

theorem bind (carry : Carries v L E qs x r) (first : Rereads v L w n p R ps x)
    (second : ∀ a, R a → Rereads v E w n (q a) S qs r) :
    Rereads v E w n (p >>= q) S (ps ++ qs) r := by
  intro d ts rest eq spelled link narrow small
  obtain ⟨us, ws, rfl, front, back⟩ := spells_append.1 spelled
  rw [List.length_append] at narrow
  rw [sizeAll_append] at small
  obtain ⟨a, d₁, run, done, value⟩ :=
    first (by rw [eq, List.append_assoc]) front (carry back link) (by omega) (by omega)
  obtain ⟨b, d', run', done', value'⟩ := second a value done back link (by omega) (by omega)
  exact ⟨b, d', Parser.bind_ok.2 ⟨a, d₁, run, run'⟩, done', value'⟩

/-- A first part that does not look at what follows. -/
theorem free {a b : List Chunk} (first : Rereads v .any w n p R a [])
    (second : ∀ y, R y → Rereads v E w n (q y) S b r) :
    Rereads v E w n (p >>= q) S (a ++ b) r :=
  .bind (x := []) .any first second

theorem look {f : List TokenTree → α} {s : List TokenTree} (carry : Carries v (.ask f) E qs s r)
    (h : Rereads v E w n (q (f s)) S qs r) : Rereads v E w n (Parser.look f >>= q) S qs r := by
  intro d ts rest eq spelled link narrow small
  obtain ⟨b, d', run, done, value⟩ := h eq spelled link narrow small
  have same : f s = f d.rest := by
    rw [eq]
    exact carry spelled link
  exact ⟨b, d', Parser.look_bind_ok.2 (same ▸ run), done, value⟩

section

variable {f : List TokenTree → Bool} {p₁ p₂ : Parser α} {s : List TokenTree}

theorem yes (carry : Carries v (.ask f) E ps s r) (on : f s = true)
    (h : Rereads v E w n p₁ R ps r) :
    Rereads v E w n (Parser.look f >>= fun b => if b = true then p₁ else p₂) R ps r :=
  .look carry (by rwa [if_pos on])

theorem no (carry : Carries v (.ask f) E ps s r) (off : f s = false)
    (h : Rereads v E w n p₂ R ps r) :
    Rereads v E w n (Parser.look f >>= fun b => if b = true then p₁ else p₂) R ps r :=
  .look carry (by rwa [if_neg (by simp [off])])

end

end Rereads

/-! ## Tokens -/

/-- A parser that takes any token with the kind and text of `t`. -/
def TakesToken (p : Parser Token) (t : Token) : Prop :=
  ∀ {d : Cursor} {t' : Token} {rest : List TokenTree}, d.rest = .token t' :: rest →
    t'.erase = t.erase → ∃ d', p d = .ok t' d' ∧ d'.rest = rest

section

variable {c c' : Cursor} {t : Token}

theorem takesToken_of_take {e : Expectation} (h : Parser.take e c = .ok t c')
    (known : ∀ {t' rest}, t'.erase = t.erase →
      e.isMet (.token t' :: rest) = e.isMet (.token t :: c'.rest)) :
    TakesToken (Parser.take e) t := by
  intro d t' rest eq same
  obtain ⟨eq', met⟩ := Parser.take_ok h
  rw [eq', ← @known _ rest same] at met
  refine ⟨d.skip 1, ?_, by simp [Cursor.skip, eq]⟩
  unfold Parser.take
  rw [eq]
  simp [met]

theorem takesToken_keyword {word : String} (h : Parser.keyword word c = .ok t c') :
    TakesToken (Parser.keyword word) t :=
  takesToken_of_take h fun same => by
    obtain ⟨kind, text, -⟩ := erase_eq_iff.1 same
    simp [Expectation.isMet, startsWord, token?, kind, text]

theorem takesToken_identifier (h : Parser.identifier c = .ok t c') :
    TakesToken Parser.identifier t :=
  takesToken_of_take h fun same => by
    obtain ⟨kind, -, -⟩ := erase_eq_iff.1 same
    simp [Expectation.isMet, startsIdentifier, startsKind, token?, kind]

theorem takesToken_lifetime (h : Parser.lifetime c = .ok t c') : TakesToken Parser.lifetime t :=
  takesToken_of_take h fun same => by
    obtain ⟨kind, -, -⟩ := erase_eq_iff.1 same
    simp [Expectation.isMet, startsLifetime, startsKind, token?, kind]

theorem takesToken_literal (h : Parser.literal c = .ok t c') : TakesToken Parser.literal t :=
  takesToken_of_take h fun same => by
    obtain ⟨kind, -, -⟩ := erase_eq_iff.1 same
    simp [Expectation.isMet, startsLiteral, startsKind, token?, kind]

theorem takesToken_anyWord (h : Parser.anyWord c = .ok t c') : TakesToken Parser.anyWord t := by
  intro d t' rest eq same
  obtain ⟨-, kind⟩ := Parser.anyWord_ok h
  rw [← (erase_eq_iff.1 same).1] at kind
  refine ⟨d.skip 1, ?_, by simp [Cursor.skip, eq]⟩
  unfold Parser.anyWord
  rw [eq]
  simp [kind]

end

/-- Trees that spell an operator start with it. -/
theorem SpellsChars.startsChars {bars cs : List Char} {ts rest : List TokenTree}
    (h : SpellsChars bars cs ts rest) :
    TokenTree.startsChars cs (ts ++ rest) = true ∧ ts.length = cs.length := by
  induction cs generalizing ts with
  | nil =>
    cases h
    exact ⟨rfl, rfl⟩
  | cons c cs ih =>
    obtain ⟨t, us, rfl, kind, text, joint, tail⟩ := h
    obtain ⟨starts, length⟩ := ih tail
    refine ⟨?_, by simp [length]⟩
    simp only [List.cons_append, TokenTree.startsChars, kind, text, starts, String.toList_singleton]
    cases cs with
    | nil => simp
    | cons d ds => simpa using joint

/-- An operator is taken from the trees that spell it, which are not empty. -/
theorem punct_spelled {op : String} {bars : List Char} {ts rest : List TokenTree} {d : Cursor}
    (sign : op ∈ signs) (chars : SpellsChars bars op.toList ts rest) (eq : d.rest = ts ++ rest) :
    (∃ span d', Parser.punct op d = .ok (Token.punct op span) d' ∧ d'.rest = rest) ∧
      0 < ts.length ∧ 0 < sizeAll ts := by
  obtain ⟨starts, length⟩ := chars.startsChars
  obtain ⟨first, us, rfl⟩ : ∃ first us', ts = first :: us' := by
    refine List.exists_cons_of_ne_nil fun empty => signs_nonempty op sign ?_
    rw [empty] at length
    exact List.length_eq_zero_iff.1 length.symm
  have next : startsPunct op d.rest = true := by rw [startsPunct, eq, starts]
  refine ⟨⟨_, _, Parser.punct_takes next eq, ?_⟩, by simp, ?_⟩
  · simp only [Cursor.skip]
    rw [eq, sign_width sign, ← length, List.drop_left]
  · cases first with
    | token t =>
      simp only [sizeAll, size]
      omega
    | group d ts o e =>
      simp only [sizeAll, size]
      omega

namespace Rereads

variable {α β : Type} {v : View} {E : Link} {w n : Nat} {q : Token → Parser β} {S : β → Prop}
  {ps : List Chunk} {r : List TokenTree} {t : Token}

theorem token {p : Parser Token} (took : TakesToken p t) :
    Rereads v E w n p (fun t' => t'.erase = t.erase) [.word t] r := by
  intro d ts rest eq spelled _ _ _
  obtain ⟨-, t', us, rfl, same, nothing⟩ := spells_word.1 spelled
  cases spells_nil.1 nothing
  obtain ⟨d', run, done⟩ := took eq same
  exact ⟨t', d', run, done, same⟩

/-- A word and what comes after it, which is smaller. -/
theorem word {p : Parser Token} (took : TakesToken p t)
    (second : ∀ t', t'.erase = t.erase → Rereads v E (w - 1) n (q t') S ps r) :
    Rereads v E w (n + 1) (p >>= q) S (.word t :: ps) r := by
  intro d ts rest eq spelled link narrow small
  obtain ⟨-, t', us, rfl, same, more⟩ := spells_word.1 spelled
  obtain ⟨d₁, run, done⟩ := took eq same
  simp only [List.length_cons, sizeAll, size] at narrow small
  obtain ⟨b, d', run', done', value⟩ := second t' same done more link (by omega) (by omega)
  exact ⟨b, d', Parser.bind_ok.2 ⟨t', d₁, run, run'⟩, done', value⟩

/-- An operator that was taken is taken again. -/
theorem punct {c c' : Cursor} {op : String} {binary : Bool} (h : Parser.punct op c = .ok t c') :
    Rereads v E w n (Parser.punct op) (fun t' => t'.erase = t.erase) [.mark t binary] r := by
  intro d ts rest eq spelled _ _ _
  obtain ⟨-, ⟨span, rfl⟩, -⟩ := Parser.punct_ok h
  obtain ⟨⟨-, -, sign⟩, us, ws, rfl, chars, nothing⟩ := spells_mark.1 spelled
  cases spells_nil.1 nothing
  obtain ⟨⟨span', d', run, done⟩, -⟩ := punct_spelled sign chars (by simpa using eq)
  exact ⟨_, d', run, done, rfl⟩

/-- An operator and what comes after it, which is smaller. -/
theorem mark {c c' : Cursor} {op : String} {binary : Bool} (h : Parser.punct op c = .ok t c')
    (second : ∀ t', t'.erase = t.erase → Rereads v E (w - 1) n (q t') S ps r) :
    Rereads v E w (n + 1) (Parser.punct op >>= q) S (.mark t binary :: ps) r := by
  intro d ts rest eq spelled link narrow small
  obtain ⟨-, ⟨span, rfl⟩, -⟩ := Parser.punct_ok h
  obtain ⟨⟨-, -, sign⟩, us, ws, rfl, chars, more⟩ := spells_mark.1 spelled
  obtain ⟨⟨span', d₁, run, done⟩, long, big⟩ := punct_spelled sign chars (by simpa using eq)
  rw [List.length_append] at narrow
  rw [sizeAll_append] at small
  obtain ⟨b, d', run', done', value⟩ :=
    second (.punct op span') rfl done more link (by omega) (by omega)
  exact ⟨b, d', Parser.bind_ok.2 ⟨_, d₁, run, run'⟩, done', value⟩

end Rereads

/-! ## Groups and options -/

namespace Rereads

variable {α β : Type} {v : View} {E E₀ : Link} {w n : Nat} {p : Parser α} {R : α → Prop}
  {S : β → Prop} {ps : List Chunk} {r : List TokenTree} {k : Delim}

/-- What is returned at the end. -/
theorem returning {f : α → β} (h : Rereads v E w n p R ps r) (value : ∀ a, R a → S (f a)) :
    Rereads v E w n (p >>= fun a => Pure.pure (f a)) S ps r := by
  intro d ts rest eq spelled link narrow small
  obtain ⟨a, d', run, done, good⟩ := h eq spelled link narrow small
  exact ⟨f a, d', Parser.bind_ok.2 ⟨a, d', run, rfl⟩, done, value a good⟩

theorem openGroup_run {d : Cursor} {us rest : List TokenTree} {o e : Span}
    (eq : d.rest = .group k.delimiter us o e :: rest) :
    Parser.openGroup k.delimiter d =
        .ok (⟨k.delimiter, o⟩, Cursor.ofTrees us e) (d.skip 1) ∧ (d.skip 1).rest = rest := by
  refine ⟨?_, by simp [Cursor.skip, eq]⟩
  unfold Parser.openGroup
  rw [eq]
  simp

/-- A group whose contents are read again. -/
theorem group {inner : List Chunk} (link : E₀ [] []) (h : ∀ w, Rereads v E₀ w n p R inner []) :
    Rereads v E w (n + 1) (Parser.inGroup k.delimiter p)
      (fun x => x.1.erase = k.erase ∧ R x.2) [.group k inner] r := by
  intro d ts rest eq spelled _ _ small
  obtain ⟨us, o, e, ws, rfl, inside, nothing⟩ := spells_group.1 spelled
  cases spells_nil.1 nothing
  simp only [sizeAll, size] at small
  obtain ⟨a, d', run, done, value⟩ := h (us.length + 1) (d := Cursor.ofTrees us e)
    (by simp [Cursor.ofTrees]) inside link (by omega) (by omega)
  obtain ⟨opened, after⟩ := openGroup_run eq
  refine ⟨(⟨k.delimiter, o⟩, a), d.skip 1, ?_, after, rfl, value⟩
  simp only [Parser.inGroup, Parser.bind_ok, Parser.runAt_ok, Parser.pure_ok, Parser.atEnd_ok]
  exact ⟨_, _, opened, a, _, ⟨rfl, d', a, d', run, (), d', ⟨done, rfl⟩, rfl, rfl⟩, rfl, rfl⟩

/-- What comes after a group, which is smaller. -/
theorem groupNext {inner : List Chunk} {q : α → Parser β}
    (first : Rereads v .any w (n + 1) p R [.group k inner] [])
    (second : ∀ a, R a → Rereads v E (w - 1) n (q a) S ps r) :
    Rereads v E w (n + 1) (p >>= q) S (.group k inner :: ps) r := by
  intro d ts rest eq spelled link narrow small
  obtain ⟨us, o, e, ws, rfl, inside, more⟩ := spells_group.1 spelled
  simp only [List.length_cons, sizeAll, size] at narrow small
  replace eq : d.rest = [.group k.delimiter us o e] ++ (ws ++ rest) := eq
  obtain ⟨a, d₁, run, done, value⟩ :=
    first eq (spells_group.2 ⟨us, o, e, [], rfl, inside, spells_nil.2 rfl⟩) trivial
    (by simp only [List.length_cons, List.length_nil]; omega)
    (by simp only [sizeAll, size]; omega)
  obtain ⟨b, d', run', done', value'⟩ := second a value done more link (by omega) (by omega)
  exact ⟨b, d', Parser.bind_ok.2 ⟨a, d₁, run, run'⟩, done', value'⟩

/-- A group whose contents are taken as they stand. -/
theorem raw {tokens : List TokenTree} :
    Rereads v E w n (Parser.inGroup k.delimiter Parser.remaining)
      (fun x => x.1.erase = k.erase ∧ eraseAll (v.raw x.2) = eraseAll (v.raw tokens))
      [.raw k tokens] r := by
  intro d ts rest eq spelled _ _ _
  obtain ⟨us, o, e, ws, rfl, same, nothing⟩ := spells_raw.1 spelled
  cases spells_nil.1 nothing
  obtain ⟨opened, after⟩ := openGroup_run eq
  refine ⟨(⟨k.delimiter, o⟩, us), d.skip 1, ?_, after, rfl, same⟩
  simp only [Parser.inGroup, Parser.bind_ok, Parser.runAt_ok, Parser.pure_ok, Parser.atEnd_ok]
  exact ⟨_, _, opened, us, _, ⟨rfl, _, us, _, rfl, (), _, ⟨by simp [Cursor.skip], rfl⟩, rfl, rfl⟩,
    rfl, rfl⟩

theorem anyGroup {tokens : List TokenTree} (visible : k.delimiter ≠ .invisible) :
    Rereads v E w n Parser.anyGroup
      (fun x => x.1.erase = k.erase ∧ eraseAll (v.raw x.2) = eraseAll (v.raw tokens))
      [.raw k tokens] r := by
  intro d ts rest eq spelled _ _ _
  obtain ⟨us, o, e, ws, rfl, same, nothing⟩ := spells_raw.1 spelled
  cases spells_nil.1 nothing
  refine ⟨(⟨k.delimiter, o⟩, us), d.skip 1, ?_, by simp [Cursor.skip, eq], rfl, same⟩
  unfold Parser.anyGroup
  rw [eq]
  simp [visible]

/-- What comes after a mark that is not there. -/
theorem withoutMark {op : String} {q : Option Token → Parser β} {s : List TokenTree}
    (carry : Carries v (.ask (startsPunct op)) E ps s r) (off : startsPunct op s = false)
    (h : Rereads v E w n (q none) S ps r) : Rereads v E w n (Parser.punct? op >>= q) S ps r := by
  rw [← List.nil_append ps]
  refine .bind (L := .ask (startsPunct op)) carry (R := (· = none))
    (.no (s := s) .nil off (.pure rfl)) fun t absent => ?_
  subst absent
  exact h

/-- What comes after an optional mark that is there. -/
theorem withMark {c c' : Cursor} {op : String} {t : Token} {q : Option Token → Parser β}
    (h : Parser.punct op c = .ok t c')
    (second : ∀ t', t'.erase = t.erase → Rereads v E w n (q (some t')) S ps r) :
    Rereads v E w n (Parser.punct? op >>= q) S (.mark t false :: ps) r := by
  have first : Rereads v .any w n (Parser.punct? op) (fun t' => t'.map Token.erase = some t.erase)
      [.mark t false] [] := by
    refine .yes (s := c.rest) (fun ts rest spelled link => ?_) (Parser.punct_ok h).1
      ((punct h).returning fun s' same => by simp [same])
    obtain ⟨-, ⟨span, rfl⟩, -⟩ := Parser.punct_ok h
    obtain ⟨-, us, ws, rfl, chars, nothing⟩ := spells_mark.1 spelled
    cases spells_nil.1 nothing
    rw [Link.ask, (Parser.punct_ok h).1, List.append_nil]
    exact chars.startsChars.1.symm
  refine .free first fun t' same => ?_
  obtain ⟨t', rfl, same'⟩ := Option.map_eq_some_iff.1 same
  exact second t' same'

/-- What comes after an optional mark. -/
theorem optionalMark {c c' : Cursor} {op : String} {t : Option Token} {q : Option Token → Parser β}
    (h : Parser.punct? op c = .ok t c')
    (carry : Carries v (.ask (startsPunct op)) E ps c'.rest r)
    (second : ∀ t', t'.map Token.erase = t.map Token.erase → Rereads v E w n (q t') S ps r) :
    Rereads v E w n (Parser.punct? op >>= q) S (markChunks t ++ ps) r := by
  obtain ⟨rfl, off, rfl⟩ | ⟨s, rfl, run⟩ := Parser.punct?_ok h
  · exact .withoutMark carry off (second none rfl)
  · exact .withMark run fun t' same => second (some t') (by simp [same])

/-- What comes after a word that is not there. -/
theorem withoutWord {word : String} {q : Option Token → Parser β} {s : List TokenTree}
    (carry : Carries v (.ask (startsWord word)) E ps s r) (off : startsWord word s = false)
    (h : Rereads v E w n (q none) S ps r) :
    Rereads v E w n (Parser.keyword? word >>= q) S ps r := by
  rw [← List.nil_append ps]
  refine .bind (L := .ask (startsWord word)) carry (R := (· = none))
    (.no (s := s) .nil off (.pure rfl)) fun t absent => ?_
  subst absent
  exact h

/-- What comes after an optional word that is there. -/
theorem withWord {c c' : Cursor} {word : String} {t : Token} {q : Option Token → Parser β}
    (h : Parser.keyword word c = .ok t c')
    (second : ∀ t', t'.erase = t.erase → Rereads v E w n (q (some t')) S ps r) :
    Rereads v E w n (Parser.keyword? word >>= q) S (.word t :: ps) r := by
  obtain ⟨eq, isWord⟩ := Parser.keyword_ok h
  have starts := startsWord_of_isWord isWord c'.rest
  rw [← eq] at starts
  have first : Rereads v .any w n (Parser.keyword? word)
      (fun t' => t'.map Token.erase = some t.erase) [.word t] [] := by
    refine .yes (s := c.rest) (fun ts rest spelled link => ?_) starts
      ((token (takesToken_keyword h)).returning fun s' same => by simp [same])
    obtain ⟨-, t', us, rfl, same, -⟩ := spells_word.1 spelled
    rw [Link.ask, starts]
    exact (startsWord_of_isWord (isWord.of_erase same) _).symm
  refine .free first fun t' same => ?_
  obtain ⟨t', rfl, same'⟩ := Option.map_eq_some_iff.1 same
  exact second t' same'

/-- What comes after an optional word. -/
theorem optionalWord {c c' : Cursor} {word : String} {t : Option Token}
    {q : Option Token → Parser β} (h : Parser.keyword? word c = .ok t c')
    (carry : Carries v (.ask (startsWord word)) E ps c'.rest r)
    (second : ∀ t', t'.map Token.erase = t.map Token.erase → Rereads v E w n (q t') S ps r) :
    Rereads v E w n (Parser.keyword? word >>= q) S (wordChunks t ++ ps) r := by
  obtain ⟨rfl, off, rfl⟩ | ⟨s, rfl, run⟩ := Parser.keyword?_ok h
  · exact .withoutWord carry off (second none rfl)
  · exact .withWord run fun t' same => second (some t') (by simp [same])

end Rereads

/-! ## Lists -/

/-- A rule that asks only for what printing does not change. -/
structure Parser.ListRule.Steady (rule : Parser.ListRule) : Prop where
  sign : rule.separator ∈ signs
  plain : extensions false rule.separator = []
  asks : ∀ {r r'}, Alike r r' → rule.asks r = rule.asks r'
  again : ∀ {r r'}, Alike r r' → rule.again r = rule.again r'

/-- A list in chunks, without its first value. -/
def Separated.chunksAfter {α : Type} (f : α → List Chunk) : Separated α → List Chunk
  | .empty => []
  | .last _ => []
  | .cons _ s rest => .mark s false :: rest.chunks f

theorem Separated.chunks_first {α : Type} {f : α → List Chunk} {p : Separated α} {x : α}
    (h : p.first? = some x) : p.chunks f = f x ++ p.chunksAfter f := by
  cases p with
  | empty => cases h
  | last w =>
    cases h
    simp [chunks, chunksAfter]
  | cons w s rest =>
    cases h
    rfl

namespace Rereads

variable {α β : Type} {v : View} {D E : Link} {w n : Nat} {rule : Parser.ListRule}
  {item item' : Parser α} {f : α → List Chunk} {F G : α → β} {p : Separated α} {c c' : Cursor}

/-- Values that are read again as elements of a list, where `E` links what follows a value and `D`
what follows a separator. -/
structure Items (v : View) (D E : Link) (n : Nat) (rule : Parser.ListRule)
    (item item' : Parser α) (f : α → List Chunk) (F G : α → β) : Prop where
  asks : ∀ {r r'}, E r r' → rule.asks r = rule.asks r'
  again : ∀ {r r'}, D r r' → rule.again r = rule.again r'
  stop : ∀ {r r'}, E r r' → D r r'
  separator : ∀ {s c c'}, Parser.punct rule.separator c = .ok s c' →
    Carries v E D [.mark s false] c.rest c'.rest
  value : ∀ {a c c'}, item c = .ok a c' → Carries v D E (f a) c.rest c'.rest
  rereads : ∀ {w a c c'}, item c = .ok a c' →
    Rereads v E w n item' (fun a' => F a' = G a) (f a) c'.rest

theorem narrow {p : Parser α} {R : α → Prop} {ps : List Chunk} {r : List TokenTree} :
    Rereads v E 0 n p R ps r := by
  intro d ts rest _ _ _ short _
  exact absurd short (Nat.not_lt_zero _)

theorem tiny {p : Parser α} {R : α → Prop} {ps : List Chunk} {r : List TokenTree} :
    Rereads v E w 0 p R ps r := by
  intro d ts rest _ _ _ _ small
  exact absurd small (Nat.not_lt_zero _)

namespace Items

variable (items : Items v D E n rule item item' f F G)
include items

/-- What follows the first value of a list. -/
theorem after {limit : Nat} {x : α} (h : Parser.listFrom rule item limit x c = .ok p c') :
    Carries v E E (p.chunksAfter f) c.rest c'.rest := by
  induction limit generalizing x p c with
  | zero => simp [Parser.listFrom, Parser.fail_ok] at h
  | succ limit ih =>
    obtain ⟨_, eq, ⟨-, rfl, rfl⟩ |
      ⟨s, c₁, -, sep, ⟨-, rfl, rfl⟩ | ⟨y, c₂, q, -, next, rest, rfl⟩⟩⟩ := Parser.listFrom_ok h
    · exact .nil
    · exact (items.separator sep).mono id items.stop
    · cases eq
      refine .append (a := [_]) (items.separator sep) ?_
      rw [Separated.chunks_first (Parse.listFrom_first rest)]
      exact (items.value next).append (ih rest)

/-- The rest of a list after a value. -/
theorem listFrom {limit limit' m : Nat} {x x' : α} (small : m ≤ n) (wide : w ≤ limit')
    (same : F x' = G x) (h : Parser.listFrom rule item limit x c = .ok p c') :
    Rereads v E w m (Parser.listFrom rule item' limit' x') (fun p' => p'.seen F = p.seen G)
      (p.chunksAfter f) c'.rest := by
  induction limit generalizing x x' p c w limit' m with
  | zero => simp [Parser.listFrom, Parser.fail_ok] at h
  | succ limit ih =>
    cases limit' with
    | zero =>
      obtain rfl := Nat.le_zero.1 wide
      exact narrow
    | succ limit' =>
      have asks := (items.after h).mono (L := .ask rule.asks) items.asks id
      obtain ⟨_, eq, ⟨off, rfl, rfl⟩ | ⟨s, c₁, on, sep, more⟩⟩ := Parser.listFrom_ok h
      · exact .no asks off (.pure (by simp [same]))
      · cases eq
        refine .yes asks on ?_
        cases m with
        | zero => exact tiny
        | succ m =>
          obtain ⟨stop, rfl, rfl⟩ | ⟨y, c₂, q, go, next, rest, rfl⟩ := more
          · exact .mark sep fun s' same' =>
              .no (s := c₁.rest) (Carries.nil.mono items.again items.stop) stop
                (.pure (by simp [same, same']))
          · have first := (items.value next).append (items.after rest)
            refine .mark sep fun s' same' => ?_
            rw [Separated.chunks_first (Parse.listFrom_first rest)]
            refine .yes (first.mono items.again id) go (.bind (items.after rest)
              ((items.rereads next).mono (Nat.le_refl _) (by omega) id id) fun y' same'' => ?_)
            exact (ih (by omega) (by omega) same'' rest).returning fun q' tail => by
              simp [same, same', tail]

theorem listAfter {m : Nat} {x x' : α} (small : m ≤ n) (same : F x' = G x)
    (h : Parser.listAfter rule item x c = .ok p c') :
    Rereads v E w m (Parser.listAfter rule item' x') (fun p' => p'.seen F = p.seen G)
      (p.chunksAfter f) c'.rest := by
  intro d ts rest eq spelled link _ narrow
  have length : ts.length + 1 ≤ d.rest.length + 1 := by
    rw [eq, List.length_append]
    omega
  exact items.listFrom small length same h eq spelled link (by omega) narrow

/-- A list with at least one value. -/
theorem list1 (h : Parser.list1 rule item c = .ok p c') :
    Carries v D E (p.chunks f) c.rest c'.rest ∧
      Rereads v E w n (Parser.list1 rule item') (fun p' => p'.seen F = p.seen G) (p.chunks f)
        c'.rest := by
  obtain ⟨x, c₁, first, rest⟩ := Parser.list1_ok h
  rw [Separated.chunks_first (Parse.listFrom_first rest)]
  exact ⟨(items.value first).append (items.after rest),
    .bind (items.after rest) (items.rereads first) fun x' same =>
      items.listAfter (Nat.le_refl n) same rest⟩

theorem list (h : Parser.list rule item c = .ok p c') :
    Carries v D E (p.chunks f) c.rest c'.rest ∧
      Rereads v E w n (Parser.list rule item') (fun p' => p'.seen F = p.seen G) (p.chunks f)
        c'.rest := by
  obtain ⟨rfl, stop, rfl⟩ | ⟨go, run⟩ := Parser.list_ok h
  · have carry : Carries v D E [] c.rest c.rest := Carries.nil.mono items.stop id
    exact ⟨carry, .no (carry.mono items.again id) stop (.pure rfl)⟩
  · obtain ⟨carry, again⟩ := items.list1 (w := w) run
    exact ⟨carry, .yes (carry.mono items.again id) go again⟩

end Items

/-- Values that are printed as they are read. -/
theorem Items.ofReads (proper : v.Proper) (steady : rule.Steady)
    (alike : ∀ {r r'}, E r r' → Alike r r')
    (link : ∀ {r r'}, startsPunct rule.separator r = true → Alike r r' → E r r')
    (reads : ∀ {a c c'}, item c = .ok a c' → Reads c (f a) c')
    (rereads : ∀ {w a c c'}, item c = .ok a c' →
      Rereads v E w n item' (fun a' => F a' = G a) (f a) c'.rest) :
    Items v Alike E n rule item item' f F G where
  asks h := steady.asks (alike h)
  again := steady.again
  stop := alike
  separator sep _ _ spelled after := link (Parser.punct_ok sep).1
    ((Takes.sign steady.sign sep steady.plain).reads.carries proper spelled after)
  value h := (reads h |>.carries proper).mono id alike
  rereads := rereads

end Rereads

/-! ### The rules of lists -/

namespace Parser

theorem steady_filling : (filling ",").Steady :=
  ⟨by decide, rfl, fun h => congrArg (!·) h.isEmpty, fun h => congrArg (!·) h.isEmpty⟩

theorem steady_joined {op : String} (sign : op ∈ signs) (plain : extensions false op = [])
    (known : op ∈ longSigns ∨ op.toList.length = 1) : (joined op).Steady :=
  ⟨sign, plain, fun h => h.startsPunct known, fun _ => rfl⟩

theorem steady_boundsBeforeAngle : boundsBeforeAngle.Steady :=
  ⟨by decide, rfl, fun h => h.startsPunct (.inr rfl),
    fun h => congrArg (!·) (h.startsPunct (.inr rfl))⟩

theorem steady_boundsBeforeComma : boundsBeforeComma.Steady where
  sign := by decide
  plain := rfl
  asks h := h.startsPunct (.inr rfl)
  again h := by
    simp only [boundsBeforeComma]
    rw [h.startsPunct (.inr rfl : "," ∈ longSigns ∨ _),
      h.startsPunct (.inr rfl : ">" ∈ longSigns ∨ _)]

theorem steady_beforeAngle : beforeAngle.Steady :=
  ⟨by decide, rfl, fun h => congrArg (!·) (h.startsPunct (.inr rfl)),
    fun h => congrArg (!·) (h.startsPunct (.inr rfl))⟩

end Parser

end TypeGrammar
