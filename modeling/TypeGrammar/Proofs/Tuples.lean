import TypeGrammar.Proofs.Matching
import TypeGrammar.Proofs.Plus

/-!
# Tuples

A tuple is read in two ways: by a parser of its own, as a list of types between parentheses, and in
the place of any type, where the contents of the parentheses first tell what they are. Both ways
read the same tuples, unless the contents start with a lifetime: then only the first one does, as
the second takes such contents for a trait object and expects nothing after it.
-/

namespace TypeGrammar

open TokenTree

namespace Parser

variable {α β : Type} {c c' : Cursor}

/-- What follows a parser matters only where the parser succeeds. -/
theorem bind_congr {p p' : Parser α} {q q' : α → Parser β} (same : p c = p' c)
    (h : ∀ a c₁, p c = .ok a c₁ → q a c₁ = q' a c₁) : (p >>= q) c = (p' >>= q') c := by
  change EStateM.bind p q c = EStateM.bind p' q' c
  unfold EStateM.bind
  rw [← same]
  cases run : p c with
  | ok a c₁ => exact h a c₁ run
  | error e c₁ => rfl

/-- What is read in a group that comes next. -/
theorem inGroup_iff {d : Delimiter} {p : Parser α} {us more : List TokenTree} {o e : Span}
    (front : c.rest = .group d us o e :: more) {x : Delim × α} :
    inGroup d p c = .ok x c' ↔ ∃ a c₁, p (Cursor.ofTrees us e) = .ok a c₁ ∧ c₁.rest = [] ∧
      x = (⟨d, o⟩, a) ∧ c' = c.skip 1 := by
  rw [inGroup_open front]
  constructor
  · intro h
    split at h
    · rename_i a c₁ run
      simp only [bind_ok, pure_ok, atEnd_ok] at run
      obtain ⟨a, c₂, run, _, _, ⟨empty, rfl⟩, rfl, rfl⟩ := run
      cases h
      exact ⟨a, _, run, empty, rfl, rfl⟩
    · cases h
  · rintro ⟨a, c₁, run, empty, rfl, rfl⟩
    have all : (p >>= fun x => atEnd >>= fun _ => pure x) (Cursor.ofTrees us e) = .ok a c₁ := by
      simp only [bind_ok, pure_ok, atEnd_ok]
      exact ⟨a, c₁, run, (), c₁, ⟨empty, rfl⟩, rfl, rfl⟩
    rw [all]

/-! ## Lists -/

theorem punct_shorter {op : String} {s : Token} (h : punct op c = .ok s c') :
    c'.rest.length < c.rest.length := by
  have settled := (punct_settles op (Nat.lt_succ_self c.size)).2
  rw [h] at settled
  exact settled.length

theorem filling_goesOn (separator : String) (ts : List TokenTree) :
    ((filling separator).asks ts = true ↔ ts ≠ []) ∧
      ((filling separator).asks ts = false ↔ ts = []) ∧
      (filling separator).again ts = (filling separator).asks ts := by
  cases ts <;> simp [filling]

theorem list_filling {item : Parser α} {separator : String} {xs : Separated α} :
    list (filling separator) item c = .ok xs c' ↔
      (c.rest = [] ∧ .empty = xs ∧ c = c') ∨
        (c.rest ≠ [] ∧ list1 (filling separator) item c = .ok xs c') := by
  unfold list
  rw [look_ite_ok, pure_ok]
  simp only [filling_goesOn]
  exact or_comm

section

variable {rule : ListRule} {item : Parser α}
  (shorter : ∀ {c a c'}, item c = .ok a c' → c'.rest.length ≤ c.rest.length)
include shorter

/-- The bound on the repetition of a list cannot be seen if it is above the number of trees
ahead. -/
theorem listFrom_limit {m n : Nat} {v : α} (enough : c.rest.length < m)
    (enough' : c.rest.length < n) : listFrom rule item m v c = listFrom rule item n v c := by
  induction m generalizing n v c with
  | zero => exact absurd enough (Nat.not_lt_zero _)
  | succ m ih =>
    obtain ⟨n, rfl⟩ := Nat.exists_eq_succ_of_ne_zero (Nat.ne_zero_of_lt enough')
    simp only [listFrom, look_bind]
    split
    · refine bind_congr rfl fun s c₁ mark => ?_
      have taken := punct_shorter mark
      rw [look_bind, look_bind]
      split
      · refine bind_congr rfl fun w c₂ next => ?_
        have left := shorter next
        exact bind_congr (ih (by omega) (by omega)) fun _ _ _ => rfl
      · rfl
    · rfl

/-- After a value and its separator a list goes on as a list. -/
theorem listAfter_eq (v : α) : listAfter rule item v c = (do
    if ← look rule.asks then
      let separator ← punct rule.separator
      return .cons v separator (← list rule item)
    else
      return .last v : Parser (Separated α)) c := by
  simp only [listAfter, listFrom, look_bind]
  split
  · refine bind_congr rfl fun s c₁ mark => ?_
    have taken := punct_shorter mark
    rw [list, list1, look_bind, bind_assoc, look_bind]
    split
    · rw [bind_assoc]
      refine bind_congr rfl fun w c₂ next => ?_
      have left := shorter next
      exact bind_congr (listFrom_limit shorter (by omega) (Nat.lt_succ_self _)) fun _ _ _ => rfl
    · rfl
  · rfl

/-- After a value a list that fills what is left ends there, or goes on with a separator and again
such a list. -/
theorem listAfter_filling {separator : String} {first : α} {xs : Separated α} :
    listAfter (filling separator) item first c = .ok xs c' ↔
      (c.rest = [] ∧ .last first = xs ∧ c = c') ∨
        ∃ mark c₁ more, punct separator c = .ok mark c₁ ∧
          list (filling separator) item c₁ = .ok more c' ∧ .cons first mark more = xs := by
  rw [listAfter_eq shorter]
  simp only [↓look_ite_ok, bind_ok, pure_ok, filling_goesOn]
  constructor
  · rintro (⟨-, mark, c₁, run, more, c₂, rest, rfl, rfl⟩ | ⟨empty, rfl, rfl⟩)
    · exact .inr ⟨mark, c₁, more, run, rest, rfl⟩
    · exact .inl ⟨empty, rfl, rfl⟩
  · rintro (⟨empty, rfl, rfl⟩ | ⟨mark, c₁, more, run, rest, rfl⟩)
    · exact .inr ⟨empty, rfl, rfl⟩
    · have ahead : c.rest ≠ [] := List.ne_nil_of_length_pos (Nat.zero_lt_of_lt (punct_shorter run))
      exact .inl ⟨ahead, mark, c₁, run, more, c', rest, rfl, rfl⟩

end

end Parser

namespace Parse

open TypeGrammar.Parser

variable {g : Grammar} {c c' : Cursor} {elems : Separated Ty}

/-! ## Contents of parentheses -/

/-- The runs that read the elements of a tuple: nothing is taken, or a type, a comma and a list of
types. -/
def TupleRun (g : Grammar) (c : Cursor) (elems : Separated Ty) (c' : Cursor) : Prop :=
  (c.rest = [] ∧ .empty = elems ∧ c = c') ∨
    (c.rest ≠ [] ∧ ∃ first c₁ comma c₂ more, g.type true c = .ok first c₁ ∧
      punct "," c₁ = .ok comma c₂ ∧ list (filling ",") (g.type true) c₂ = .ok more c' ∧
      .cons first comma more = elems)

theorem tupleContents_iff
    (shorter : ∀ {c t c'}, g.type true c = .ok t c' → c'.rest.length ≤ c.rest.length) :
    tupleContents g c = .ok elems c' ↔ TupleRun g c elems c' := by
  unfold tupleContents
  rw [bind_ok]
  constructor
  · rintro ⟨_, c₁, listed, h⟩
    obtain ⟨empty, rfl, rfl⟩ | ⟨ahead, listed⟩ := list_filling.1 listed
    · exact .inl ⟨empty, pure_ok.1 h⟩
    · obtain ⟨first, c₂, run, after⟩ := bind_ok.1 listed
      obtain ⟨-, rfl, -⟩ | ⟨comma, c₃, more, mark, rest, rfl⟩ := (listAfter_filling shorter).1 after
      · exact (fail_ok.1 h).elim
      · obtain ⟨rfl, rfl⟩ := pure_ok.1 h
        exact .inr ⟨ahead, first, c₂, comma, c₃, more, run, mark, rest, rfl⟩
  · rintro (⟨empty, rfl, rfl⟩ | ⟨ahead, first, c₁, comma, c₂, more, run, mark, rest, rfl⟩)
    · exact ⟨.empty, c, list_filling.2 (.inl ⟨empty, rfl, rfl⟩), rfl⟩
    · have after :
          listAfter (filling ",") (g.type true) first c₁ = .ok (.cons first comma more) c' :=
        (listAfter_filling shorter).2 (.inr ⟨comma, c₂, more, mark, rest, rfl⟩)
      exact ⟨_, c', list_filling.2 (.inr ⟨ahead, bind_ok.2 ⟨first, c₁, run, after⟩⟩), rfl⟩

theorem parenContents_tuple
    (front : ∀ {c t c'}, g.type true c = .ok t c' → startsPunct "?" c.rest = false) :
    parenContents g c = .ok (.tuple elems) c' ↔
      startsLifetime c.rest = false ∧ TupleRun g c elems c' := by
  unfold parenContents TupleRun
  simp only [↓look_ite_ok, bind_ok, pure_ok, List.isEmpty_iff, List.isEmpty_eq_false_iff]
  constructor
  · rintro (⟨empty, eq, rfl⟩ | ⟨ahead, ⟨-, _, _, -, ⟨⟩, -⟩ | ⟨lifetime, ⟨-, _, _, -, ⟨⟩, -⟩ |
      ⟨-, first, c₁, run, ⟨-, comma, c₂, mark, more, c₃, rest, eq, rfl⟩ | ⟨-, ⟨⟩, -⟩⟩⟩⟩)
    · cases eq
      exact ⟨by simp [empty, startsLifetime, startsKind, token?], .inl ⟨empty, rfl, rfl⟩⟩
    · cases eq
      exact ⟨lifetime, .inr ⟨ahead, first, c₁, comma, c₂, more, run, mark, rest, rfl⟩⟩
  · rintro ⟨lifetime, ⟨empty, rfl, rfl⟩ | ⟨ahead, first, c₁, comma, c₂, more, run, mark, rest, rfl⟩⟩
    · exact .inl ⟨empty, rfl, rfl⟩
    · refine .inr ⟨ahead, .inr ⟨lifetime, .inr ⟨front run, first, c₁, run, .inl ⟨?_, ?_⟩⟩⟩⟩
      · exact (punct_ok mark).1
      · exact ⟨comma, c₂, mark, more, c', rest, rfl, rfl⟩

/-! ## Two ways to a tuple -/

theorem tupleContents_settles {n : Nat} {g' : Grammar} (h : g.Settles n g') :
    Settles 0 n (tupleContents g) (tupleContents g') fun _ => True :=
  (list_settles (h.type true)).bind fun elems _ => by
    cases elems with
    | last => exact .fail (by decide)
    | _ => exact .pure trivial

theorem tuple_settles {n : Nat} {g' : Grammar} (h : g.Settles n g') :
    Settles 1 (n + 1) (tuple g) (tuple g') fun _ => True :=
  (inGroup_settles .paren (tupleContents_settles h)).returning fun _ _ => trivial

/-- In front of parentheses a type is what the parentheses hold. -/
theorem type_paren {plus : Bool} {us more : List TokenTree} {o e : Span}
    (front : c.rest = .group .paren us o e :: more) : type g plus c = parenthesized g plus c := by
  have unbound : typeBinder? c = .ok none c := look_no (by rw [front]; rfl)
  rw [type, look_no (by rw [front]; rfl), bind_of_ok unbound, typeAfter,
    look_yes (by rw [front]; rfl)]

theorem objectAfter_ne {b : Bound} {paren : Delim} {elems : Node (.list .type)} :
    objectAfter g b c ≠ .ok (.tuple paren elems) c' := by
  intro h
  obtain ⟨bounds, _, -, eq⟩ := bind_ok.1 h
  cases eq

/-- A type in front of parentheses is a tuple exactly if their contents are read as one. -/
theorem parenthesized_tuple {plus : Bool} {us more : List TokenTree} {o e : Span} {t : Ty}
    (front : c.rest = .group .paren us o e :: more) :
    (parenthesized g plus c = .ok t c' ∧ ∃ paren elems, t = .tuple paren elems) ↔
      ∃ elems c₁, parenContents g (.ofTrees us e) = .ok (.tuple elems) c₁ ∧ c₁.rest = [] ∧
        t = .tuple ⟨.paren, o⟩ (.ofSeparated elems) ∧ c' = c.skip 1 := by
  unfold parenthesized
  rw [bind_ok]
  simp only [inGroup_iff front]
  constructor
  · rintro ⟨⟨_, _, ⟨contents, c₁, run, done, rfl, rfl⟩, h⟩, paren, elems, rfl⟩
    cases contents with
    | tuple elems =>
      obtain ⟨eq, rfl⟩ := pure_ok.1 h
      exact ⟨elems, c₁, run, done, eq.symm, rfl⟩
    | object elem => cases h
    | bound b => exact (objectAfter_ne h).elim
    | type elem =>
      obtain ⟨-, h⟩ | ⟨-, ⟨⟩⟩ := look_ite_ok.1 h
      cases known : boundOfType? ⟨.paren, o⟩ elem with
      | some b =>
        rw [known] at h
        exact (objectAfter_ne h).elim
      | none =>
        rw [known] at h
        cases h
  · rintro ⟨elems, c₁, run, done, rfl, rfl⟩
    exact ⟨⟨_, _, ⟨.tuple elems, c₁, run, done, rfl, rfl⟩, rfl⟩, _, _, rfl⟩

end Parse

/-- In front of parentheses a tuple is read in the place of a type exactly if the parser of tuples
reads it there, and the contents of the parentheses do not start with a lifetime. -/
theorem parseType_tuple {plus : Bool} {c c' : Cursor} {us more : List TokenTree} {o e : Span}
    {t : Ty} (front : c.rest = .group .paren us o e :: more) :
    (parseType plus c = .ok t c' ∧ ∃ paren elems, t = .tuple paren elems) ↔
      startsLifetime us = false ∧ Parser.deep Parse.tuple c = .ok t c' := by
  have whole : Grammar.whole.type = Parse.type Grammar.whole := Parser.parseType_eq
  have shorter {c : Cursor} {t : Ty} {c' : Cursor} (run : Grammar.whole.type true c = .ok t c') :
      c'.rest.length ≤ c.rest.length := by
    have settled := Parser.settled_deep (fun h => (Parse.type_settles h true).smaller) c
    change Settled 1 _ c (Grammar.whole.type true c) at settled
    rw [run] at settled
    exact Nat.le_of_succ_le settled.length
  have query {c : Cursor} {t : Ty} {c' : Cursor} (run : Grammar.whole.type true c = .ok t c') :
      startsPunct "?" c.rest = false := by
    rw [whole] at run
    exact Parse.type_front run '?' (by decide)
  have tuple : Parser.deep Parse.tuple = Parse.tuple Grammar.whole :=
    Parser.deep_eq fun h => (Parse.tuple_settles h).smaller
  rw [Parser.parseType_eq, Parse.type_paren front, Parse.parenthesized_tuple front, tuple,
    Parse.tuple, Parser.bind_ok]
  simp only [Parser.inGroup_iff front, Parse.parenContents_tuple query,
    Parse.tupleContents_iff shorter]
  constructor
  · rintro ⟨elems, c₁, ⟨lifetime, run⟩, done, rfl, rfl⟩
    exact ⟨lifetime, _, _, ⟨elems, c₁, run, done, rfl, rfl⟩, rfl⟩
  · rintro ⟨lifetime, _, _, ⟨elems, c₁, run, done, rfl, rfl⟩, h⟩
    obtain ⟨rfl, rfl⟩ := Parser.pure_ok.1 h
    exact ⟨elems, c₁, ⟨lifetime, run⟩, done, rfl, rfl⟩

theorem parseType_tuple_single :
    ∃ c c' us more o e t, c.rest = .group .paren us o e :: more ∧
      startsLifetime us = false ∧ Parser.deep Parse.tuple c = .ok t c' ∧
      parseType false c = .ok t c' ∧ ∃ paren elems, t = .tuple paren elems := by
  let us : List TokenTree :=
    [.token ⟨.identifier, "A", .callSite, false⟩, .token (.punct "," .callSite)]
  let c : Cursor := .ofTrees [.group .paren us .callSite .callSite] .callSite
  have front : c.rest = .group .paren us .callSite .callSite :: [] := rfl
  have run : Parser.deep Parse.tuple c = .ok (.tuple ⟨.paren, .callSite⟩
      (.cons (.pathType .unqualified (.ofName "A")) (.punct "," .callSite) .nil))
        ⟨1, [], .callSite⟩ := by rfl
  exact ⟨c, _, us, [], .callSite, .callSite, _, front, rfl, run,
    (parseType_tuple front).2 ⟨rfl, run⟩⟩

/-- A tuple whose first element starts with a lifetime is read as a tuple only. -/
theorem tuple_after_lifetime :
    ∃ c t c', startsGroup .paren c.rest = true ∧ Parser.deep Parse.tuple c = .ok t c' ∧
      ∀ plus u c'', parseType plus c ≠ .ok u c'' := by
  let word (text : String) : Token := ⟨.identifier, text, .callSite, false⟩
  let lifetime : Token := ⟨.lifetime, "'a", .callSite, false⟩
  let us : List TokenTree :=
    [.token lifetime, .token (.punct "+" .callSite), .token (word "T"),
      .token (.punct "," .callSite), .token (word "B")]
  let c : Cursor := .ofTrees [.group .paren us .callSite .callSite] .callSite
  let object : Ty := .traitObject none (.cons (.lifetimeBound ⟨lifetime⟩) (.punct "+" .callSite)
    (.last (.traitBound none none none (.ofName "T"))))
  refine ⟨c, .tuple ⟨.paren, .callSite⟩ (.cons object (.punct "," .callSite)
    (.last (.pathType .unqualified (.ofName "B")))), ⟨1, [], .callSite⟩, rfl, by rfl, ?_⟩
  rintro (_ | _) u c'' h
  · cases h
  · cases h

end TypeGrammar
