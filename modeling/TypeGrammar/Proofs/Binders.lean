import TypeGrammar.Proofs.Building
import TypeGrammar.Proofs.ReadingTypes

/-!
# Where the binder of a type goes

A binder in front of a type is kept by the type that is read after it: a function type holds it
itself, a trait object at its first bound. A macro call is read after a binder, too, and has no
place for it; and a first bound with a binder of its own gets the one in front instead.
-/

namespace TypeGrammar

open TokenTree

/-- A type that holds a binder: a function type, or a trait object whose first bound has it. -/
def Node.HoldsBinder (b : Binder) : Ty → Prop
  | .bareFn binder .. => binder = some b
  | .traitObject _ bounds =>
    ∃ paren modifier p, bounds.separated.first? = some (.traitBound paren modifier (some b) p)
  | _ => False

namespace Parse

open TypeGrammar.Parser

variable {g : Grammar} {plus : Bool} {b : Binder} {t : Ty} {c c' : Cursor}

theorem bareFnAfter_holds (h : bareFnAfter g (some b) c = .ok t c') : t.HoldsBinder b := by
  unfold bareFnAfter at h
  simp only [↓look_ite_ok, bind_ok, pure_ok] at h
  obtain ⟨_, _, -, ⟨-, _, _, -, _, _, -, _, _, -, _, _, -, rfl, -⟩ |
    ⟨-, _, _, -, _, _, -, _, _, -, _, _, -, rfl, -⟩⟩ := h <;> rfl

theorem withBinder_holds {dynToken : Option Token} {bounds : Separated Bound} {first : Bound}
    (starts : bounds.first? = some first)
    (h : withBinder b (.traitObject dynToken (.ofSeparated bounds)) c = .ok t c') :
    t.HoldsBinder b := by
  cases first with
  | traitBound paren modifier old p =>
    obtain ⟨attach, attached, run⟩ := @withBinder_eq b dynToken _ _ _ _ _ starts
    rw [run] at h
    obtain ⟨rfl, -⟩ := pure_ok.1 h
    refine ⟨paren, modifier, p, ?_⟩
    rw [Node.separated_ofSeparated]
    cases bounds with
    | empty => cases starts
    | last v | cons v s rest =>
      obtain rfl := Option.some.inj starts
      exact congrArg some attached
  | lifetimeBound l => simp [withBinder, starts, fail_ok] at h

/-- Behind a binder a path is the first bound of a trait object, or the name of a macro. -/
theorem pathLike_holds (follows : (afterBinder.any fun e => e.isMet c.rest) = true)
    (h : pathLike g (some b) plus c = .ok t c') :
    t.HoldsBinder b ∨ ∃ call, t = .macroType call := by
  unfold pathLike at h
  simp only [↓look_ite_ok, bind_ok] at h
  obtain ⟨-, object, c₁, run, attach⟩ | ⟨-, ⟨self, p⟩, c₁, path, h⟩ := h
  · obtain ⟨dynToken, bounds, first, rfl, starts⟩ := traitObject_starts run
    exact .inl (withBinder_holds starts attach)
  · obtain ⟨rfl, -⟩ := qualifiedPathWithInputs_word follows path
    rw [if_neg (fun qualified => qualified rfl)] at h
    simp only [↓look_ite_ok, bind_ok, pure_ok] at h
    obtain ⟨-, call, _, -, rfl, -⟩ | ⟨-, ⟨-, h⟩ | ⟨off, -⟩⟩ := h
    · exact .inr ⟨call, rfl⟩
    · have first : ∃ bounds, t = .traitObject none (.ofSeparated bounds) ∧
          bounds.first? = some (.traitBound none none (some b) p) := by
        split at h
        · simp only [bind_ok, pure_ok] at h
          obtain ⟨bounds, _, run, rfl, -⟩ := h
          exact ⟨bounds, rfl, listFrom_first run⟩
        · obtain ⟨_, _, start, h⟩ := bind_ok.1 h
          obtain ⟨rfl, -⟩ := pure_ok.1 start
          obtain ⟨rfl, -⟩ := pure_ok.1 h
          exact ⟨_, rfl, rfl⟩
      obtain ⟨bounds, rfl, first⟩ := first
      exact .inl ⟨none, none, p, by rwa [Node.separated_ofSeparated]⟩
    · cases off

theorem typeAfter_holds (follows : (afterBinder.any fun e => e.isMet c.rest) = true)
    (h : typeAfter g (some b) plus c = .ok t c') :
    t.HoldsBinder b ∨ ∃ call, t = .macroType call := by
  unfold typeAfter at h
  simp only [↓look_ite_ok, failNoneOf_ok] at h
  cases fn : startsBareFn c.rest with
  | true =>
    obtain ⟨u, us, eq, -⟩ := afterBinder_word follows
    obtain ⟨paren, -⟩ | ⟨-, ⟨-, h⟩ | ⟨off, -⟩⟩ := h
    · rw [eq] at paren
      cases paren
    · exact .inl (bareFnAfter_holds h)
    · rw [fn] at off
      cases off
  | false =>
    obtain ⟨paren, path⟩ := afterBinder_path follows fn
    simp only [fn, paren, path, Bool.false_eq_true, false_and, false_or, true_and,
      reduceCtorEq, or_false] at h
    exact pathLike_holds follows h

end Parse

/-- A type behind a binder holds it, unless it is a macro call. -/
theorem parseType_holds {plus : Bool} {b : Binder} {t : Ty} {c c₁ c' : Cursor}
    (front : Parse.binder c = .ok b c₁) (h : parseType plus c = .ok t c') :
    t.HoldsBinder b ∨ ∃ call, t = .macroType call := by
  obtain ⟨_, _, _, word, -⟩ := Parse.binder_ok front
  obtain ⟨eq, -⟩ := Parser.keyword_ok word
  unfold parseType Parser.deep Parse.type at h
  simp only [↓Parser.look_ite_ok, Parser.bind_ok] at h
  obtain ⟨group, -⟩ | ⟨-, binder, c₂, run, h⟩ := h
  · rw [eq] at group
    cases group
  · have run := Parse.typeBinder?_ok run
    cases binder with
    | none =>
      obtain ⟨-, off⟩ := run
      rw [show startsWord "for" c.rest = true from (Parser.take_ok word).2] at off
      cases off
    | some b' =>
      obtain ⟨same, follows⟩ := run
      rw [front] at same
      cases same
      exact Parse.typeAfter_holds follows h

/-- The binder `for<name>` outside any file. -/
def Binder.ofName (name : String) : Binder :=
  ⟨.keyword "for" .callSite, .punct "<" .callSite,
    .last ⟨[], ⟨.lifetime name .callSite⟩, none, .empty⟩, .punct ">" .callSite⟩

theorem parseType_holds_trait :
    ∃ c c₁ t c', Parse.binder c = .ok (.ofName "'a") c₁ ∧ parseType true c = .ok t c' ∧
      (t.HoldsBinder (.ofName "'a") ∨ ∃ call, t = .macroType call) := by
  let name : Token := ⟨.identifier, "A", .callSite, false⟩
  let c : Cursor := .ofTrees ((Binder.ofName "'a").trees ++ [.token name]) .callSite
  have front : Parse.binder c = .ok (.ofName "'a") ⟨4, [.token name], .callSite⟩ := by rfl
  have run : parseType true c = .ok (.traitObject none (.last (.traitBound none none
      (some (.ofName "'a")) (.path none (.last (.segment name .noArguments))))))
        ⟨5, [], .callSite⟩ := by rfl
  exact ⟨c, _, _, _, front, run, parseType_holds front run⟩

/-- A binder is lost in front of a macro call, and replaces that of the first bound. -/
theorem binder_lost_or_replaced :
    (∃ c c₁ b t c', Parse.binder c = .ok b c₁ ∧ parseType true c = .ok t c' ∧
      ¬ t.HoldsBinder b) ∧
    ∃ c c₁ c₂ c₃ b word old t c', Parse.binder c = .ok b c₁ ∧
      Parser.keyword "dyn" c₁ = .ok word c₂ ∧ Parse.binder c₂ = .ok old c₃ ∧ old ≠ b ∧
      parseType true c = .ok t c' ∧ t.HoldsBinder b := by
  let name (text : String) : Token := ⟨.identifier, text, .callSite, false⟩
  let path (text : String) : Path := .path none (.last (.segment (name text) .noArguments))
  refine ⟨⟨.ofTrees ((Binder.ofName "'a").trees ++ [.token (name "m"),
    .token (.punct "!" .callSite), .group .paren [] .callSite .callSite]) .callSite, _,
    .ofName "'a",
    .macroType (.invocation (path "m") (.punct "!" .callSite) ⟨.paren, .callSite⟩ []), _,
    by rfl, by rfl, id⟩, ?_⟩
  exact ⟨.ofTrees ((Binder.ofName "'a").trees ++ .token (name "dyn") ::
    ((Binder.ofName "'b").trees ++ [.token (name "A")])) .callSite, _, _, _, .ofName "'a", _,
    .ofName "'b", .traitObject (some (name "dyn")) (.last (.traitBound none none
      (some (.ofName "'a")) (path "A"))), _, by rfl, by rfl, by rfl, by decide, by rfl,
    none, none, path "A", rfl⟩

end TypeGrammar
