import Mathlib.Data.List.DropRight
import Mathlib.Tactic.NthRewrite
import TypeGrammar.Highlighter
import TypeGrammar.Proofs.Lines
import TypeGrammar.Text.Escape

/-!
# Highlighters that only add colour

A highlighter is lawful if all that it does to a text, apart from the line feeds at its ends, is to
put escape sequences into it: the pieces into which it cuts a text make up the text, and each piece
is written with escape sequences put into it. The highlighter for a terminal is lawful whatever its
rules are.
-/

namespace TypeGrammar

open Text

namespace Text

/-! ## Texts with escape sequences in them -/

/-- The text `shown` is `plain` with escape sequences put into it. -/
inductive Decorated : (plain shown : List Char) → Prop
  | nil : Decorated [] []
  | char {plain shown : List Char} (c : Char) : Decorated plain shown →
      Decorated (c :: plain) (c :: shown)
  | sequence {plain shown tail : List Char} : escapeTail? tail = some tail.length →
      Decorated plain shown → Decorated plain (escape :: (tail ++ shown))

theorem isEscapeParameter_of_isAlpha {c : Char} (h : c.isAlpha = true) :
    isEscapeParameter c = false := by
  have letter : '9'.val < c.val := by
    obtain upper | lower := Bool.or_eq_true_iff.1 h
    · exact Nat.lt_of_lt_of_le (by decide) (of_decide_eq_true upper).1
    · exact Nat.lt_of_lt_of_le (by decide) (of_decide_eq_true (Bool.and_eq_true_iff.1 lower).1)
  have notDigit : c.isDigit = false := Bool.eq_false_iff.2 fun digit =>
    absurd letter (Nat.not_lt.2 (of_decide_eq_true (Bool.and_eq_true_iff.1 digit).2))
  have notSign : c ≠ ';' ∧ c ≠ '?' := by
    constructor <;> rintro rfl <;> cases h
  simp [isEscapeParameter, notDigit, notSign]

/-- What completes an escape sequence. -/
theorem escapeTail?_eq_some {cs : List Char} {n : Nat} :
    escapeTail? cs = some n ↔ ∃ parameters letter rest,
      (∀ c ∈ parameters, isEscapeParameter c = true) ∧ letter.isAlpha = true ∧
        cs = '[' :: (parameters ++ letter :: rest) ∧ n = parameters.length + 2 := by
  constructor
  · intro h
    unfold escapeTail? at h
    split at h
    · rename_i cs
      dsimp only at h
      split at h
      · rename_i letter rest behind
        split at h
        · rename_i alpha
          refine ⟨cs.takeWhile isEscapeParameter, letter, rest,
            fun c mem => List.mem_takeWhile_imp mem, alpha, ?_, (Option.some.inj h).symm⟩
          rw [← behind, List.prefix_iff_eq_append.1 (List.takeWhile_prefix _)]
        · cases h
      · cases h
    · cases h
  · rintro ⟨parameters, letter, rest, all, alpha, rfl, rfl⟩
    have stops : (parameters ++ letter :: rest).takeWhile isEscapeParameter = parameters := by
      rw [List.takeWhile_append_of_pos all, List.takeWhile_cons, isEscapeParameter_of_isAlpha alpha]
      exact List.append_nil _
    rw [escapeTail?, stops, List.drop_left]
    exact if_pos alpha

/-- An escape sequence is at the front of what follows the escape character, whatever comes next. -/
theorem escapeTail?_append {cs : List Char} {n : Nat} (h : escapeTail? cs = some n) :
    n ≤ cs.length ∧ ∀ rest, escapeTail? (cs.take n ++ rest) = some n := by
  obtain ⟨parameters, letter, rest, all, alpha, rfl, rfl⟩ := escapeTail?_eq_some.1 h
  refine ⟨by simp, fun rest' =>
    escapeTail?_eq_some.2 ⟨parameters, letter, rest', all, alpha, ?_, rfl⟩⟩
  simp [List.take_append, List.take_of_length_le]

theorem dropEscapes_eq (skip : Nat) (cs : List Char) :
    dropEscapes skip cs = dropEscapes 0 (cs.drop skip) := by
  induction cs generalizing skip with
  | nil => simp [dropEscapes]
  | cons c cs ih =>
    cases skip with
    | zero => rfl
    | succ skip =>
      rw [List.drop_succ_cons, ← ih]
      rfl

namespace Decorated

variable {plain shown : List Char}

theorem append {plain' shown' : List Char} (h : Decorated plain shown)
    (h' : Decorated plain' shown') : Decorated (plain ++ plain') (shown ++ shown') := by
  induction h with
  | nil => exact h'
  | char c _ ih => exact .char c ih
  | sequence whole _ ih =>
    rw [List.cons_append, List.append_assoc]
    exact .sequence whole ih

theorem refl (cs : List Char) : Decorated cs cs := by
  induction cs with
  | nil => exact .nil
  | cons c cs ih => exact .char c ih

theorem flatMap {α : Type} {f g : α → List Char} (h : ∀ x, Decorated (f x) (g x)) (xs : List α) :
    Decorated (xs.flatMap f) (xs.flatMap g) := by
  induction xs with
  | nil => exact .nil
  | cons x xs ih => exact (h x).append ih

/-- Every text is decorated with its own escape sequences. -/
theorem dropEscapes (cs : List Char) : Decorated (Text.dropEscapes 0 cs) cs := by
  induction len : cs.length using Nat.strong_induction_on generalizing cs with
  | h n ih =>
    cases cs with
    | nil => exact .nil
    | cons c cs =>
      subst len
      have plain : Decorated (c :: Text.dropEscapes 0 cs) (c :: cs) :=
        .char c (ih cs.length (Nat.lt_succ_self _) cs rfl)
      rw [Text.dropEscapes]
      split
      · rename_i opens
        split
        · rename_i n found
          obtain ⟨inside, whole⟩ := escapeTail?_append found
          have tail : (cs.take n).length = n := List.length_take_of_le inside
          have shorter : (cs.drop n).length < (c :: cs).length := by
            rw [List.length_drop, List.length_cons]
            omega
          have rest := ih _ shorter (cs.drop n) rfl
          rw [Text.dropEscapes_eq, beq_iff_eq.1 opens, ← List.take_append_drop n cs,
            List.drop_left' tail]
          refine .sequence ?_ rest
          rw [tail, ← whole [], List.append_nil]
        · exact plain
      · exact plain

/-- The escape sequences in a decorated text can be dropped if it has no others. -/
theorem dropEscapes_eq (h : Decorated plain shown) (quiet : escape ∉ plain) :
    Text.dropEscapes 0 shown = plain := by
  induction h with
  | nil => rfl
  | char c _ ih =>
    obtain ⟨other, quiet⟩ := not_or.1 (mt List.mem_cons.2 quiet)
    rw [Text.dropEscapes, if_neg (by simpa using Ne.symm other), ih quiet]
  | @sequence _ _ tail whole _ ih =>
    have found := (escapeTail?_append whole).2
    rw [List.take_length] at found
    rw [Text.dropEscapes, if_pos (by simp), found]
    dsimp only
    rw [Text.dropEscapes_eq, List.drop_left, ih quiet]

end Decorated

end Text

namespace Highlighter

variable {Mode : Type}

/-! ## Pieces of a text -/

/-- The pieces of a text make up the text. -/
theorem flatMap_piecesUpTo {rules : Mode → List (Rule Mode)} {start : Mode} {limit : Nat}
    {modes : List Mode} {before : Option Char} {cs : List Char} (enough : cs.length ≤ limit) :
    (piecesUpTo rules start limit modes before cs).flatMap (·.text) = cs := by
  induction limit generalizing modes before cs with
  | zero =>
    obtain rfl := List.length_eq_zero_iff.1 (Nat.le_zero.1 enough)
    rfl
  | succ limit ih =>
    cases cs with
    | nil => rfl
    | cons c cs =>
      rw [List.length_cons] at enough
      rw [piecesUpTo]
      split
      · rename_i r found
        have matching : r.width before (c :: cs) ≠ 0 := by
          simpa using List.find?_some found
        have width : ((c :: cs).take (r.width before (c :: cs))).length ≠ 0 := by
          rw [List.length_take, List.length_cons]
          omega
        dsimp only
        rw [List.flatMap_cons, ih]
        · exact List.prefix_iff_eq_append.1 (List.take_prefix _ _)
        · rw [List.length_drop, List.length_cons]
          omega
      · split <;>
        · rw [List.flatMap_cons, ih (Nat.le_of_succ_le_succ enough)]
          rfl

theorem dropByteOrderMark_eq {cs : List Char} (h : cs.head? ≠ some '\ufeff') :
    dropByteOrderMark cs = cs := by
  unfold dropByteOrderMark
  split
  · exact absurd rfl h
  · rfl

/-! ## Colours -/

theorem dropEscapes_color {style : Style} {color : String} (h : style.color? = some color) :
    Text.dropEscapes 0 color.toList = [] := by
  cases style <;> cases h <;> decide

theorem decorated_color {style : Style} {color : String} (h : style.color? = some color) :
    Decorated [] color.toList :=
  dropEscapes_color h ▸ Decorated.dropEscapes color.toList

theorem decorated_reset : Decorated [] resetColor.toList := by
  have nothing : Text.dropEscapes 0 resetColor.toList = [] := by decide
  exact nothing ▸ Decorated.dropEscapes resetColor.toList

/-- A line is decorated if what is in front of its line feed is. -/
theorem decorated_line (paint : List Char → String)
    (h : ∀ body, Decorated body (paint body).toList) (l : Line) :
    let feed := l.ending.getLast? == some '\n'
    Decorated l.whole (paint (if feed then l.whole.dropLast else l.whole) ++
      if feed then "\n" else "").toList := by
  dsimp only
  rw [String.toList_append]
  by_cases feed : l.ending.getLast? = some '\n'
  · obtain ⟨front, ends⟩ := List.getLast?_eq_some_iff.1 feed
    have whole : l.whole = l.whole.dropLast ++ ['\n'] := by
      rw [Line.whole, ends, ← List.append_assoc, List.dropLast_concat]
    rw [beq_iff_eq.2 feed, if_pos rfl, if_pos rfl]
    nth_rewrite 1 [whole]
    exact (h _).append (.refl ['\n'])
  · rw [beq_eq_false_iff_ne.2 feed, if_neg Bool.false_ne_true, if_neg Bool.false_ne_true]
    have rest := (h l.whole).append .nil
    rwa [List.append_nil] at rest

theorem decorated_paintLine (style : Style) (l : Line) :
    Decorated l.whole (paintLine style l).toList := by
  unfold paintLine
  cases found : style.color? with
  | none =>
    refine decorated_line String.ofList (fun body => ?_) l
    rw [String.toList_ofList]
    exact .refl body
  | some color =>
    refine decorated_line (fun body => color ++ String.ofList body ++ resetColor) (fun body => ?_) l
    rw [String.toList_append, String.toList_append, String.toList_ofList]
    simpa using ((decorated_color found).append (.refl body)).append decorated_reset

theorem decorated_paint (p : Piece) : Decorated p.text p.paint.toList := by
  rw [Piece.paint, String.toList_join, List.flatMap_map]
  have lines := Decorated.flatMap (decorated_paintLine p.style) (cutLines p.text)
  rwa [flatMap_cutLines] at lines

/-! ## Laws -/

/-- What is relied on of a highlighter. Preparation takes the line feeds at the ends of a text away
and adds one at its end, cutting loses nothing, and a piece is written with escape sequences in it.
-/
structure Lawful (h : Highlighter Mode) : Prop where
  prepare : ∀ cs, '\r' ∉ cs → cs.head? ≠ some '\ufeff' → h.prepare cs = stripLineEnds cs
  cut : ∀ rules start cs, (h.cut rules start cs).flatMap (·.text) = cs
  paint : ∀ p : Piece, Decorated p.text (h.paint p).toList

/-- A lawful highlighter only puts escape sequences into a text, apart from the line feeds at the
ends of the text. -/
theorem Lawful.decorated {h : Highlighter Mode} (lawful : h.Lawful)
    (rules : Mode → List (Rule Mode)) (start : Mode) {text : String} (noReturn : '\r' ∉ text.toList)
    (noMark : text.toList.head? ≠ some '\ufeff') :
    Decorated (stripLineEnds text.toList) (h.highlight rules start text).toList := by
  have whole : (h.pieces rules start text).flatMap (·.text) = stripLineEnds text.toList := by
    rw [pieces, lawful.cut, lawful.prepare _ noReturn noMark]
  rw [highlight, String.toList_join, List.flatMap_map, ← whole]
  exact Decorated.flatMap lawful.paint _

/-- The highlighter for a terminal is lawful. -/
theorem lawful_terminal : (terminal : Highlighter Mode).Lawful where
  prepare cs noReturn noMark := by
    change stripLineEnds (unifyBreaks (dropByteOrderMark cs)) = _
    rw [dropByteOrderMark_eq noMark, unifyBreaks_eq noReturn]
  cut _ _ _ := flatMap_piecesUpTo (Nat.le_refl _)
  paint := decorated_paint

end Highlighter

end TypeGrammar
