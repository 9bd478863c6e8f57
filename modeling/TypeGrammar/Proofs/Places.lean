import TypeGrammar.Proofs.MatchingTypes
import TypeGrammar.Proofs.Tiling

/-!
# Places do not matter

What a text is read as does not depend on the file and on the line at which it starts. The pieces of
a text have no places yet. Tokens and trees get theirs from the pieces, and no step asks for them:
each step does the same with tokens outside any file. An error says the same wherever it is
reported.
-/

namespace TypeGrammar

open TokenTree

/-! ## Errors outside any file -/

/-- The label outside any file. -/
def Label.erase (l : Label) : Label :=
  { l with span := Span.callSite }

/-- The diagnostic with its labels outside any file. -/
def Diagnostic.erase (d : Diagnostic) : Diagnostic :=
  { d with labels := d.labels.map Label.erase }

/-- The diagnostics outside any file. -/
def CompileError.erase (e : CompileError) : CompileError :=
  ⟨e.diagnostics.map Diagnostic.erase⟩

/-- The error outside any file. -/
def ParseError.erase (e : ParseError) : ParseError :=
  { e with span := Span.callSite }

/-- The error outside any file. -/
def SourceError.erase : SourceError → SourceError
  | .compile e => .compile e.erase
  | .parse e => .parse e.erase

/-- A value if nothing is wrong. -/
def reported {α : Type} (value : α) : List Diagnostic → Except CompileError α
  | [] => .ok value
  | faults => .error ⟨faults⟩

theorem reported_erase {α β : Type} (f : α → β) (value : α) (ds : List Diagnostic) :
    ((reported value ds).mapError CompileError.erase).map f =
      reported (f value) (ds.map Diagnostic.erase) := by
  cases ds <;> rfl

/-! ## Tokens -/

section

variable (file file' : String)

theorem Piece.token?_erase (p p' : Place) (x : Piece) :
    (x.token? file p).map Token.erase = (x.token? file' p').map Token.erase := by
  unfold Piece.token?
  cases x.sort <;> rfl

theorem Piece.fault?_erase (p p' : Place) (x : Piece) :
    (x.fault? file p).map Diagnostic.erase = (x.fault? file' p').map Diagnostic.erase := by
  unfold Piece.fault?
  cases x.sort <;> rfl

theorem tokensAt_erase (p p' : Place) (xs : List Piece) :
    (tokensAt file p xs).map Token.erase = (tokensAt file' p' xs).map Token.erase := by
  induction xs generalizing p p' with
  | nil => rfl
  | cons x xs ih =>
    simp only [tokensAt_cons, List.map_append, ← Option.toList_map]
    rw [Piece.token?_erase file file' p p', ih (p.after x.text) (p'.after x.text)]

theorem faultsAt_erase (p p' : Place) (xs : List Piece) :
    (faultsAt file p xs).map Diagnostic.erase = (faultsAt file' p' xs).map Diagnostic.erase := by
  induction xs generalizing p p' with
  | nil => rfl
  | cons x xs ih =>
    simp only [faultsAt_cons, List.map_append, ← Option.toList_map]
    rw [Piece.fault?_erase file file' p p', ih (p.after x.text) (p'.after x.text)]

/-- The tokens of a text, or what is wrong with it, are the same wherever it starts. -/
theorem lex_erase (source : String) (line line' : Int) :
    ((lex source file line).mapError CompileError.erase).map (List.map Token.erase) =
      ((lex source file' line').mapError CompileError.erase).map (List.map Token.erase) := by
  have eq (file : String) (line : Int) : lex source file line =
      reported (tokensAt file ⟨line, 1⟩ (pieces source.toList) ++
        [⟨.eof, "", ((⟨line, 1⟩ : Place).after source.toList).spanOf file [], false⟩])
        (faultsAt file ⟨line, 1⟩ (pieces source.toList)) := by
    rfl
  rw [eq, eq]
  rw [reported_erase, reported_erase, faultsAt_erase file file' ⟨line, 1⟩ ⟨line', 1⟩,
    List.map_append, List.map_append, tokensAt_erase file file' ⟨line, 1⟩ ⟨line', 1⟩]
  rfl

end

/-! ## Trees -/

/-- The frame outside any file. -/
def Frame.erase (f : Frame) : Frame :=
  ⟨f.opening.erase, f.delimiter, eraseAll f.trees⟩

namespace Nesting

/-- The state outside any file. -/
def erase (n : Nesting) : Nesting :=
  ⟨n.frames.map Frame.erase, eraseAll n.outer, n.faults.map Diagnostic.erase⟩

theorem add_erase (n : Nesting) (t : TokenTree) : (n.add t).erase = n.erase.add t.erase := by
  rcases n with ⟨_ | ⟨f, fs⟩, outer, faults⟩ <;> rfl

theorem close_erase (n : Nesting) (d : Delimiter) (t : Token) :
    (n.close d t).erase = n.erase.close d t.erase := by
  rcases n with ⟨_ | ⟨f, fs⟩, outer, faults⟩
  · rfl
  · change (add ⟨fs, outer, _⟩ _).erase = add ⟨fs.map Frame.erase, eraseAll outer, _⟩ _
    rw [add_erase]
    simp only [erase, TokenTree.erase, Frame.erase, eraseAll_eq_map, List.map_reverse]
    split <;> rfl

theorem step_erase (n : Nesting) (t : Token) : (n.step t).erase = n.erase.step t.erase := by
  have kind : t.erase.kind = t.kind := rfl
  unfold step
  rw [kind]
  cases t.kind.opens? with
  | some d => rfl
  | none =>
    cases t.kind.closes? with
    | some d => exact close_erase n d t
    | none => exact add_erase n (.token t)

theorem foldl_step_erase (n : Nesting) (tokens : List Token) :
    (tokens.foldl step n).erase = (tokens.map Token.erase).foldl step n.erase := by
  induction tokens generalizing n with
  | nil => rfl
  | cons t ts ih => rw [List.foldl_cons, ih, step_erase, List.map_cons, List.foldl_cons]

theorem finish_erase (n : Nesting) :
    (n.finish.mapError CompileError.erase).map eraseAll = n.erase.finish := by
  have eq (n : Nesting) : n.finish = reported n.outer.reverse (n.faults.reverse ++
      n.frames.map fun f => (DelimiterFault.unclosed f.opening.text).diagnostic f.opening) := rfl
  rw [eq, eq, reported_erase]
  simp only [erase, eraseAll_eq_map, List.map_reverse, List.map_append, List.map_map]
  rfl

end Nesting

/-- Tokens outside any file have the same trees, outside any file. -/
theorem nest_erase (tokens : List Token) :
    ((nest tokens).mapError CompileError.erase).map eraseAll = nest (tokens.map Token.erase) := by
  unfold nest
  rw [Nesting.finish_erase, Nesting.foldl_step_erase, List.takeWhile_map]
  rfl

/-! ## Types -/

namespace Matching

/-- Cursors with the same trees outside any file, wherever errors are reported. -/
def anywhere : Matching where
  upTo _ c c' := eraseAll c.rest = eraseAll c'.rest
  places _ _ := True
  skip {m n c c'} up := by
    simp only [Cursor.skip, eraseAll_eq_map, List.map_drop] at up ⊢
    rw [up]
  less up := up
  near up := by rw [up]
  span _ := trivial
  inside {m n c c' d us o e ts d' us' o' e' ts'} up here there := by
    rw [here, there] at up
    exact (TokenTree.group.inj (List.cons.inj up).1).2.1

end Matching

/-- Streams that are the same outside any file are read alike, whatever is the place of their end.
-/
theorem parseType_anywhere {plus : Bool} {trees trees' : List TokenTree} (e e' : Span)
    (same : eraseAll trees = eraseAll trees') :
    ending ParseError.message (parseType plus (.ofTrees trees e)) =
      ending ParseError.message (parseType plus (.ofTrees trees' e')) := by
  have up (n : Nat) : Matching.anywhere.upTo n (.ofTrees trees e) (.ofTrees trees' e') := same
  exact parseType_ending (Nat.zero_add _).symm (up _) rfl fun e e' fault _ =>
    congrArg ParseFault.message fault

/-- What is seen of the outcome for a text. -/
def outcome (r : Except SourceError Ty) : Except SourceError Ty :=
  (r.mapError SourceError.erase).map Node.erase

theorem outcome_bind {α β : Type} {f : α → β} {x x' : Except CompileError α}
    {q q' : α → Except SourceError Ty}
    (first : (x.mapError CompileError.erase).map f = (x'.mapError CompileError.erase).map f)
    (second : ∀ a a', f a = f a' → outcome (q a) = outcome (q' a')) :
    outcome (x.mapError .compile >>= q) = outcome (x'.mapError .compile >>= q') := by
  cases x with
  | ok a =>
    cases x' with
    | ok a' => exact second a a' (Except.ok.inj first)
    | error => cases first
  | error e =>
    cases x' with
    | ok => cases first
    | error e' =>
      have same : e.erase = e'.erase := Except.error.inj first
      exact congrArg (fun e => Except.error (SourceError.compile e)) same

/-- A text is read alike wherever it starts: as the same type, or errors are reported that differ
only in their places. -/
theorem parseText_anywhere (text file file' : String) (line line' : Int) (plus : Bool) :
    outcome (parseText text file line plus) = outcome (parseText text file' line' plus) := by
  refine outcome_bind (lex_erase file file' text line line') fun tokens tokens' same => ?_
  have trees : ((nest tokens).mapError CompileError.erase).map eraseAll =
      ((nest tokens').mapError CompileError.erase).map eraseAll := by
    rw [nest_erase, nest_erase, same]
  refine outcome_bind trees fun trees trees' same => ?_
  obtain ⟨n, -, -, agree⟩ := wholeType_follows .anywhere plus (.ofTrees trees (endOf tokens))
  have alike := (@agree (.ofTrees trees' (endOf tokens')) _ same (Nat.lt_succ_self _)).1
  dsimp only at alike
  cases run : Parser.wholeType plus (.ofTrees trees (endOf tokens)) <;>
    cases run' : Parser.wholeType plus (.ofTrees trees' (endOf tokens')) <;>
    rw [run, run'] at alike
  · rename_i t _ t' _
    have value : t.erase = t'.erase := by
      rw [← Node.seen_full, ← Node.seen_full]
      exact alike
    exact congrArg Except.ok value
  · exact alike.elim
  · exact alike.elim
  · exact congrArg (fun fault => Except.error (SourceError.parse ⟨fault, .callSite⟩)) alike.1

/-- Places never matter: not those of trees for what is read from them, and not the file and the
line of a text for what the text is read as. -/
theorem reading_anywhere :
    (∀ (plus : Bool) (trees trees' : List TokenTree) (e e' : Span),
      eraseAll trees = eraseAll trees' →
        ending ParseError.message (parseType plus (.ofTrees trees e)) =
          ending ParseError.message (parseType plus (.ofTrees trees' e'))) ∧
    ∀ (text file file' : String) (line line' : Int) (plus : Bool),
      outcome (parseText text file line plus) = outcome (parseText text file' line' plus) :=
  ⟨fun _ _ _ e e' => parseType_anywhere e e', parseText_anywhere⟩

/-- A reference that is read from two streams, and a text that is no type in two files. -/
theorem reading_anywhere_reference :
    ∃ (trees trees' : List TokenTree) (e e' : Span),
      trees ≠ trees' ∧ eraseAll trees = eraseAll trees' ∧
      (ending ParseError.message (parseType true (.ofTrees trees e))).2 = 2 ∧
      ending ParseError.message (parseType true (.ofTrees trees e)) =
        ending ParseError.message (parseType true (.ofTrees trees' e')) ∧
      parseText "& \n+" "a" 1 true ≠ parseText "& \n+" "b" 7 true ∧
      outcome (parseText "& \n+" "a" 1 true) = outcome (parseText "& \n+" "b" 7 true) := by
  let name : Token := ⟨.identifier, "T", .callSite, false⟩
  let there : Span := ⟨"a", 2, 1, 2, 1⟩
  let trees : List TokenTree := [.token (.punct "&" .callSite), .token name]
  let trees' : List TokenTree := [.token (.punct "&" there), .token { name with span := there }]
  have same : eraseAll trees = eraseAll trees' := rfl
  have stops : (ending ParseError.message (parseType true (.ofTrees trees .callSite))).2 = 2 := by
    rfl
  refine ⟨trees, trees', .callSite, there, by decide, same, stops,
    reading_anywhere.1 true _ _ .callSite there same, ?_, reading_anywhere.2 _ "a" "b" 1 7 true⟩
  decide

end TypeGrammar
