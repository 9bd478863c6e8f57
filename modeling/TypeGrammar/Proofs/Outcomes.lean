import TypeGrammar.Proofs.SettlingTypes
import TypeGrammar.Proofs.Building

/-!
# What a run ends in

A parser with a grammar that is deep enough ends in a value, for which at least one tree was taken,
or in an error about the trees. The grammar of all depths is its own next level, so the bound on the
depth cannot be seen in any result. The types that are read are well formed, and no list in them was
built out of turn.
-/

namespace TypeGrammar

open TokenTree

namespace Grammar

/-- The parsers for syntax of any depth. -/
def whole : Grammar :=
  ⟨parseType, Parser.deep Parse.bound, fun power => Parser.deep fun g => Parse.expr g power⟩

/-- The parsers of depth `n` settle with those of any depth. -/
theorem settles_whole (n : Nat) : (ofDepth n).Settles n whole := by
  -- at a cursor, the grammar of any depth is one level above a grammar that is deep enough for it
  have agree {c : Cursor} (small : c.size < n) : c.size + 1 ≤ n ∧ c.size + 1 ≤ c.size + 2 :=
    ⟨small, Nat.le_succ _⟩
  have shallow := ofDepth_settles (Nat.le_refl n)
  refine ⟨fun plus c small => ⟨?_, ((shallow.type plus) small).2⟩,
    fun c small => ⟨?_, (shallow.bound small).2⟩,
    fun power c small => ⟨?_, ((shallow.expr power) small).2⟩⟩
  · have here := (ofDepth_settles (agree small).1).type plus (Nat.lt_succ_self c.size)
    have above := (ofDepth_settles (agree small).2).type plus (Nat.lt_succ_self c.size)
    exact above.1.trans here.1.symm
  · have here := (ofDepth_settles (agree small).1).bound (Nat.lt_succ_self c.size)
    have above := (ofDepth_settles (agree small).2).bound (Nat.lt_succ_self c.size)
    exact above.1.trans here.1.symm
  · have here := (ofDepth_settles (agree small).1).expr power (Nat.lt_succ_self c.size)
    have above := (ofDepth_settles (agree small).2).expr power (Nat.lt_succ_self c.size)
    exact above.1.trans here.1.symm

/-- The parsers of any depth read nested syntax by themselves. -/
theorem whole_eq_above : whole = above whole := by
  have level (c : Cursor) := above_settles (settles_whole (c.size + 1))
  have small (c : Cursor) : c.size < c.size + 1 + 1 := Nat.lt_succ_of_lt (Nat.lt_succ_self _)
  have type : parseType = (above whole).type :=
    funext fun plus => funext fun c => ((level c).type plus (small c)).1.symm
  have bound : Parser.deep Parse.bound = (above whole).bound :=
    funext fun c => ((level c).bound (small c)).1.symm
  have expr : (fun power => Parser.deep fun g => Parse.expr g power) = (above whole).expr :=
    funext fun power => funext fun c => ((level c).expr power (small c)).1.symm
  change Grammar.mk parseType (Parser.deep Parse.bound) _ = above whole
  rw [type, bound, expr]

end Grammar

namespace Parser

variable {α : Type}

/-- Every run ends in a value, after one tree at least, or in an error that is not about the
depth. -/
def Ends (p : Parser α) : Prop :=
  ∀ c, (∃ a n, 0 < n ∧ n ≤ c.rest.length ∧ p c = .ok a (c.skip n)) ∨
    ∃ e c', p c = .error e c' ∧ e.fault ≠ .tooDeep

theorem settled_deep {p : Grammar → Parser α} {P : α → Prop}
    (h : ∀ {n g g'}, g.Settles n g' → Settles 1 n (p g) (p g') P) (c : Cursor) :
    Settled 1 P c (deep p c) :=
  (h (Grammar.ofDepth_settles (Nat.le_refl _)) (Nat.lt_succ_self c.size)).2

/-- With a grammar of any depth a parser does what it does with a grammar that is deep enough. -/
theorem deep_eq {p : Grammar → Parser α} {least : Nat} {P : α → Prop}
    (h : ∀ {n g g'}, g.Settles n g' → Settles least n (p g) (p g') P) :
    deep p = p Grammar.whole :=
  funext fun c => (h (Grammar.settles_whole (c.size + 1)) (Nat.lt_succ_self c.size)).1.symm

/-- A type is read with a grammar of any depth. -/
theorem parseType_eq : parseType = Parse.type Grammar.whole :=
  funext fun plus => deep_eq fun h => (Parse.type_settles h plus).smaller

theorem ends_deep {p : Grammar → Parser α} {P : α → Prop}
    (h : ∀ {n g g'}, g.Settles n g' → Settles 1 n (p g) (p g') P) : (deep p).Ends := by
  intro c
  have settled := settled_deep h c
  cases run : deep p c with
  | ok a c' =>
    rw [run] at settled
    obtain ⟨n, taken, inside, rfl, -⟩ := settled
    exact .inl ⟨a, n, taken, inside, rfl⟩
  | error e c' =>
    rw [run] at settled
    exact .inr ⟨e, c', rfl, settled⟩

end Parser

/-- A type that was read took one tree at least, and its nodes are sound. -/
theorem settled_of_parseType {plus : Bool} {c c' : Cursor} {t : Ty}
    (h : parseType plus c = .ok t c') : Settled 1 Node.WellFormed c (.ok t c') := by
  rw [← h]
  exact Parser.settled_deep (fun h => (Parse.type_settles h plus).smaller) c

/-! ## Results -/

/-- Reading ends for all trees, with a value after at least one of them or with an error about them;
the bounds on depth and on repetition are never met; and no list is built out of turn. -/
theorem parsers_end :
    (Grammar.whole = Grammar.above Grammar.whole ∧
      (∀ plus, (parseType plus).Ends) ∧
      (∀ power, (Parser.deep fun g => Parse.expr g power).Ends) ∧
      (∀ inExpr, (Parser.deep fun g => Parse.path g inExpr).Ends) ∧
      (∀ inExpr, (Parser.deep fun g => Parse.qualifiedPath g inExpr).Ends) ∧
      (Parser.deep Parse.traitBound).Ends ∧
      (Parser.deep Parse.argument).Ends ∧
      (Parser.deep Parse.bareFn).Ends) ∧
    ∀ g, Parse.Builds g := by
  refine ⟨⟨Grammar.whole_eq_above, fun plus => ?_, fun power => ?_, fun inExpr => ?_,
    fun inExpr => ?_, ?_, ?_, ?_⟩, Parse.builds⟩
  · exact Parser.ends_deep fun h => (Parse.type_settles h plus).smaller
  · exact Parser.ends_deep fun h => (Parse.expr_settles h power).smaller
  · exact Parser.ends_deep fun h => (Parse.path_settles h inExpr).smaller
  · exact Parser.ends_deep fun h => (Parse.qualifiedPath_settles h inExpr).smaller
  · exact Parser.ends_deep fun h => (Parse.traitBound_settles h).smaller
  · exact Parser.ends_deep Parse.argument_settles
  · exact Parser.ends_deep fun h => (Parse.bareFn_settles h).smaller

/-- Every node of a type that was read is sound. -/
theorem parseType_wellFormed {plus : Bool} {c c' : Cursor} {t : Ty}
    (h : parseType plus c = .ok t c') : t.WellFormed := by
  have settled := Parser.settled_deep (fun h => (Parse.type_settles h plus).smaller) c
  change Settled 1 _ c (parseType plus c) at settled
  rw [h] at settled
  obtain ⟨-, -, -, -, known⟩ := settled
  exact known

theorem parseType_wellFormed_object :
    ∃ t c', parseType true (Cursor.ofTrees [.token ⟨.identifier, "dyn", .callSite, false⟩,
      .token ⟨.identifier, "A", .callSite, false⟩, .token (.punct "+" .callSite),
      .token ⟨.lifetime, "'a", .callSite, false⟩] .callSite) = .ok t c' ∧ t.WellFormed := by
  let word (text : String) : Token := ⟨.identifier, text, .callSite, false⟩
  let bounds : Node (.list .bound) :=
    .cons (.traitBound none none none (.path none (.last (.segment (word "A") .noArguments))))
      (.punct "+" .callSite) (.last (.lifetimeBound ⟨⟨.lifetime, "'a", .callSite, false⟩⟩))
  have run : parseType true (Cursor.ofTrees [.token (word "dyn"), .token (word "A"),
      .token (.punct "+" .callSite), .token ⟨.lifetime, "'a", .callSite, false⟩] .callSite) =
        .ok (.traitObject (some (word "dyn")) bounds) ⟨4, [], .callSite⟩ := by rfl
  exact ⟨_, _, run, parseType_wellFormed run⟩

end TypeGrammar
