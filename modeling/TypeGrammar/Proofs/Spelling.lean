import TypeGrammar.Cursor
import TypeGrammar.Proofs.Layout

/-!
# Trees that spell chunks

Some trees spell chunks if they are the trees of the chunks up to what a parser does not see: the
places of tokens, and the joining of the last character of an operator to what follows it. That
joining may not make a longer operator where the parser asks for one; `extensions` lists the
characters that would. A view tells how the contents of raw groups are compared, and which words are
allowed.
-/

namespace TypeGrammar

open TokenTree

/-! ## Operators -/

/-- The operators that nodes hold. -/
def signs : List String :=
  ["&", "*", "<", ">", "::", ":", "=", "+", ",", ";", "#", "?", "!", "->", "...", "-", "||", "&&",
   "==", "!=", "<=", ">=", "<<", ">>", "|", "^", "/", "%"]

/-- The operators of several characters that are asked for before shorter ones in a type. -/
def longSigns : List String :=
  ["::", "!=", "<=", "->", "..."]

/-- The characters that must not be joint to `op`, as a longer operator would be read. Between two
operands the longer binary operators are asked for as well. -/
def extensions (binary : Bool) (op : String) : List Char :=
  if op = ":" then [':']
  else if op = "!" then ['=']
  else if op = "-" then ['>']
  else if op = "<" then if binary then ['<', '='] else ['=']
  else if op = ">" then if binary then ['>', '='] else []
  else if op = "&" then if binary then ['&'] else []
  else if op = "|" then if binary then ['|'] else []
  else []

/-- True if `op` is no part of the longer operator `long`, or goes on with one of `bars`. -/
def guarded (bars op long : List Char) : Bool :=
  !op.isPrefixOf long || (long.drop op.length).head?.all bars.contains

theorem guarded_long (binary : Bool) :
    ∀ op ∈ signs, ∀ long ∈ longSigns,
      guarded (extensions binary op) op.toList long.toList = true := by
  cases binary <;> decide

/-- Single characters spell an operator: each but the last is joint to the next, and the last is not
joint to any of `bars`. -/
def SpellsChars (bars : List Char) : List Char → List TokenTree → List TokenTree → Prop
  | [], ts, _ => ts = []
  | c :: cs, ts, rest => ∃ t us, ts = .token t :: us ∧ t.kind = .punct ∧
      t.text = String.singleton c ∧
      (if cs = [] then t.joint = true → ∀ b ∈ bars, startsChars [b] rest = false
        else t.joint = true) ∧
      SpellsChars bars cs us rest

/-- An operator at the front is a mark with its first character, joint to the rest of it. -/
theorem startsChars_front {c : Char} {op : List Char} {ahead : List TokenTree}
    (h : startsChars (c :: op) ahead = true) :
    ∃ t more, ahead = .token t :: more ∧ t.kind = .punct ∧ t.text.toList = [c] ∧
      (op ≠ [] → t.joint = true ∧ startsChars op more = true) := by
  cases ahead with
  | nil => cases h
  | cons x more =>
    cases x with
    | group => cases h
    | token t =>
      simp only [startsChars, Bool.and_eq_true, Bool.or_eq_true, beq_iff_eq,
        List.isEmpty_iff] at h
      obtain ⟨⟨punct, text⟩, goesOn⟩ := h
      exact ⟨t, more, rfl, punct, text, goesOn.resolve_left⟩

theorem startsChars_cons {c : Char} {cs : List Char} {ts : List TokenTree}
    (h : startsChars (c :: cs) ts = true) : startsChars [c] ts = true := by
  obtain ⟨t, us, rfl, kind, text, -⟩ := startsChars_front h
  simp [startsChars, kind, text]

/-- What an operator at the front starts with can be told from its characters. -/
theorem SpellsChars.starts {bars cs : List Char} {ts rest : List TokenTree}
    (h : SpellsChars bars cs ts rest) (nonempty : cs ≠ []) (op : List Char)
    (bar : guarded bars cs op = true) :
    startsChars op (ts ++ rest) = op.isPrefixOf cs := by
  induction cs generalizing ts op with
  | nil => exact absurd rfl nonempty
  | cons c cs ih =>
    obtain ⟨t, us, rfl, kind, text, joint, tail⟩ := h
    cases op with
    | nil => simp [startsChars]
    | cons d ds =>
      by_cases same : d = c
      · subst same
        cases cs with
        | nil =>
          cases tail
          cases ds with
          | nil => simp [startsChars, kind, text]
          | cons b more =>
            have mem : b ∈ bars := by simpa [guarded] using bar
            have off : (t.joint && startsChars (b :: more) rest) = false := by
              cases j : t.joint with
              | false => rfl
              | true =>
                have bare := joint j b mem
                cases on : startsChars (b :: more) rest with
                | false => rfl
                | true => rw [startsChars_cons on] at bare; contradiction
            simp [startsChars, off, List.isPrefixOf]
        | cons c' cs =>
          have next := ih tail (by simp) ds (by simpa [guarded] using bar)
          simp only [reduceCtorEq, if_false] at joint
          rw [List.cons_append, startsChars, next]
          cases ds <;> simp [kind, text, joint]
      · have : (c == d) = false := by simpa using fun e => same e.symm
        simp [startsChars, text, List.isPrefixOf, this, same]

/-! ## Chunks -/

/-- How chunks and the trees that spell them are compared: by what is seen of the contents of raw
groups, and with which words. -/
structure View where
  raw : List TokenTree → List TokenTree
  word : Token → Prop

/-- The view that sees all contents and allows all words. -/
def View.full : View := ⟨id, fun _ => True⟩

mutual

/-- The trees spell a chunk in front of `rest`. -/
def Chunk.Spelled (v : View) : Chunk → List TokenTree → List TokenTree → Prop
  | .word t, ts, _ => (t.kind ≠ .punct ∧ v.word t) ∧ ∃ t', ts = [.token t'] ∧ t'.erase = t.erase
  | .mark t binary, ts, rest => t.kind = .punct ∧ t.joint = false ∧ t.text ∈ signs ∧
      SpellsChars (extensions binary t.text) t.text.toList ts rest
  | .group d inner, ts, _ => ∃ us o e, ts = [.group d.delimiter us o e] ∧ Spells v inner us []
  | .raw d tokens, ts, _ => ∃ us o e, ts = [.group d.delimiter us o e] ∧
      eraseAll (v.raw us) = eraseAll (v.raw tokens)
  | .verbatim _, _, _ => False

/-- The trees spell chunks in front of `rest`. -/
def Spells (v : View) : List Chunk → List TokenTree → List TokenTree → Prop
  | [], ts, _ => ts = []
  | p :: ps, ts, rest => ∃ us ws, ts = us ++ ws ∧ p.Spelled v us (ws ++ rest) ∧ Spells v ps ws rest

end

section

variable {v : View} {ps qs : List Chunk} {ts rest : List TokenTree}

@[simp]
theorem spells_nil : Spells v [] ts rest ↔ ts = [] := by
  simp [Spells]

theorem spells_cons {p : Chunk} :
    Spells v (p :: ps) ts rest ↔
      ∃ us ws, ts = us ++ ws ∧ p.Spelled v us (ws ++ rest) ∧ Spells v ps ws rest := by
  simp [Spells]

theorem spells_append :
    Spells v (ps ++ qs) ts rest ↔
      ∃ us ws, ts = us ++ ws ∧ Spells v ps us (ws ++ rest) ∧ Spells v qs ws rest := by
  induction ps generalizing ts with
  | nil =>
    constructor
    · exact fun h => ⟨[], ts, rfl, spells_nil.2 rfl, h⟩
    · rintro ⟨us, ws, rfl, empty, h⟩
      cases spells_nil.1 empty
      exact h
  | cons p ps ih =>
    simp only [List.cons_append, spells_cons, ih]
    constructor
    · rintro ⟨us, _, rfl, first, ws, xs, rfl, more, last⟩
      exact ⟨us ++ ws, xs, by simp, ⟨us, ws, rfl, by simpa using first, more⟩, last⟩
    · rintro ⟨_, xs, rfl, ⟨us, ws, rfl, first, more⟩, last⟩
      exact ⟨us, ws ++ xs, by simp, by simpa using first, ws, xs, rfl, more, last⟩

theorem spells_word {t : Token} :
    Spells v (.word t :: ps) ts rest ↔
      (t.kind ≠ .punct ∧ v.word t) ∧ ∃ t' ws, ts = .token t' :: ws ∧ t'.erase = t.erase ∧
        Spells v ps ws rest := by
  rw [spells_cons]
  constructor
  · rintro ⟨_, ws, rfl, ⟨kind, t', rfl, same⟩, more⟩
    exact ⟨kind, t', ws, rfl, same, more⟩
  · rintro ⟨kind, t', ws, rfl, same, more⟩
    exact ⟨[.token t'], ws, rfl, ⟨kind, t', rfl, same⟩, more⟩

/-- A chunk that is spelled by one group is spelled by the first tree. -/
theorem spells_enclosed {p : Chunk} {d : Delim} {inside : List TokenTree → Prop}
    (enclosed : ∀ us ahead, p.Spelled v us ahead ↔
      ∃ xs o e, us = [.group d.delimiter xs o e] ∧ inside xs) :
    Spells v (p :: ps) ts rest ↔
      ∃ xs o e ws, ts = .group d.delimiter xs o e :: ws ∧ inside xs ∧ Spells v ps ws rest := by
  simp only [spells_cons, enclosed]
  constructor
  · rintro ⟨_, ws, rfl, ⟨xs, o, e, rfl, spelled⟩, more⟩
    exact ⟨xs, o, e, ws, rfl, spelled, more⟩
  · rintro ⟨xs, o, e, ws, rfl, spelled, more⟩
    exact ⟨[.group d.delimiter xs o e], ws, rfl, ⟨xs, o, e, rfl, spelled⟩, more⟩

theorem spells_group {d : Delim} {inner : List Chunk} :
    Spells v (.group d inner :: ps) ts rest ↔
      ∃ us o e ws, ts = .group d.delimiter us o e :: ws ∧ Spells v inner us [] ∧
        Spells v ps ws rest :=
  spells_enclosed fun _ _ => .rfl

theorem spells_raw {d : Delim} {tokens : List TokenTree} :
    Spells v (.raw d tokens :: ps) ts rest ↔
      ∃ us o e ws, ts = .group d.delimiter us o e :: ws ∧
        eraseAll (v.raw us) = eraseAll (v.raw tokens) ∧ Spells v ps ws rest :=
  spells_enclosed fun _ _ => .rfl

theorem spells_mark {t : Token} {binary : Bool} :
    Spells v (.mark t binary :: ps) ts rest ↔
      (t.kind = .punct ∧ t.joint = false ∧ t.text ∈ signs) ∧
        ∃ us ws, ts = us ++ ws ∧
          SpellsChars (extensions binary t.text) t.text.toList us (ws ++ rest) ∧
          Spells v ps ws rest := by
  rw [spells_cons]
  constructor
  · rintro ⟨us, ws, rfl, ⟨kind, joint, sign, chars⟩, more⟩
    exact ⟨⟨kind, joint, sign⟩, us, ws, rfl, chars, more⟩
  · rintro ⟨⟨kind, joint, sign⟩, us, ws, rfl, chars, more⟩
    exact ⟨us, ws, rfl, ⟨kind, joint, sign, chars⟩, more⟩

end

end TypeGrammar
