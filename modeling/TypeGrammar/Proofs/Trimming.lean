import TypeGrammar.Proofs.Matching
import TypeGrammar.Proofs.Payload
import TypeGrammar.Proofs.YieldingTypes

/-!
# Tokens that are supplied

Four tokens of a type are supplied where they are missing: the colon of a lifetime definition, the
`const` of a pointer, the `as` of a self type and the comma before the `...` of a function. Here
such tokens are taken out of a type that was read, at any places and any depth. What is left is
written with the same trees as before.
-/

namespace TypeGrammar

open TokenTree

/-! ## Taking tokens out -/

namespace Separated

variable {α : Type}

/-- Two lists with the same separators and with values that are related one by one. -/
inductive Related (R : α → α → Prop) : Separated α → Separated α → Prop
  | empty : Related R .empty .empty
  | last {v w : α} : R v w → Related R (.last v) (.last w)
  | cons {v w : α} {s : Token} {xs ys : Separated α} : R v w → Related R xs ys →
      Related R (.cons v s xs) (.cons w s ys)

/-- The list without a separator at its end. -/
def withoutTrailing : Separated α → Separated α
  | .cons v _ .empty => .last v
  | .cons v s rest => .cons v s rest.withoutTrailing
  | xs => xs

end Separated

/-- The same lifetime, perhaps without its colon. -/
def LifetimeDef.Trimmed (d d' : LifetimeDef) : Prop :=
  d' = d ∨ d' = { d with colon := none }

/-- The same binder, with trimmed lifetimes. -/
def Binder.Trimmed (b b' : Binder) : Prop :=
  ∃ lifetimes, b.lifetimes.Related LifetimeDef.Trimmed lifetimes ∧ b' = { b with lifetimes }

namespace Node

/-- `Trimmed n n'`: the node `n'` is `n`, but some tokens may be missing that are supplied when it
is written. -/
inductive Trimmed : {k : Category} → Node k → Node k → Prop
  | same {k : Category} (n : Node k) : Trimmed n n
  | array {bracket elem elem' semi length length'} : Trimmed elem elem' → Trimmed length length' →
      Trimmed (.array bracket elem semi length) (.array bracket elem' semi length')
  /-- The comma after the last input may be missing in front of `...`. -/
  | bareFn {binder binder' unsafety abi fnToken paren inputs trimmed inputs' variadic output
      output'} :
      Option.Rel Binder.Trimmed binder binder' → Trimmed inputs trimmed →
      (inputs' = trimmed ∨
        variadic.isSome ∧ inputs' = .ofSeparated trimmed.separated.withoutTrailing) →
      Trimmed output output' →
      Trimmed (.bareFn binder unsafety abi fnToken paren inputs variadic output)
        (.bareFn binder' unsafety abi fnToken paren inputs' variadic output')
  | group {delim elem elem'} : Trimmed elem elem' → Trimmed (.group delim elem) (.group delim elem')
  | implTrait {implToken bounds bounds'} : Trimmed bounds bounds' →
      Trimmed (.implTrait implToken bounds) (.implTrait implToken bounds')
  | macroType {call call'} : Trimmed call call' → Trimmed (.macroType call) (.macroType call')
  | parenType {paren elem elem'} : Trimmed elem elem' →
      Trimmed (.parenType paren elem) (.parenType paren elem')
  | pathType {self self' p p'} : Trimmed self self' → Trimmed p p' →
      Trimmed (.pathType self p) (.pathType self' p')
  /-- The `const` may be missing if there is no `mut`. -/
  | pointer {star constToken constToken' mutability elem elem'} :
      (constToken' = constToken ∨ mutability = none ∧ constToken' = none) → Trimmed elem elem' →
      Trimmed (.pointer star constToken mutability elem)
        (.pointer star constToken' mutability elem')
  | reference {ampersand lifetime mutability elem elem'} : Trimmed elem elem' →
      Trimmed (.reference ampersand lifetime mutability elem)
        (.reference ampersand lifetime mutability elem')
  | slice {bracket elem elem'} : Trimmed elem elem' →
      Trimmed (.slice bracket elem) (.slice bracket elem')
  | traitObject {dynToken bounds bounds'} : Trimmed bounds bounds' →
      Trimmed (.traitObject dynToken bounds) (.traitObject dynToken bounds')
  | tuple {paren elems elems'} : Trimmed elems elems' →
      Trimmed (.tuple paren elems) (.tuple paren elems')
  | pathExpr {self self' p p'} : Trimmed self self' → Trimmed p p' →
      Trimmed (.pathExpr self p) (.pathExpr self' p')
  | unary {op operand operand'} : Trimmed operand operand' →
      Trimmed (.unary op operand) (.unary op operand')
  | binary {left left' op right right'} : Trimmed left left' → Trimmed right right' →
      Trimmed (.binary left op right) (.binary left' op right')
  | cast {operand operand' asToken target target'} : Trimmed operand operand' →
      Trimmed target target' →
      Trimmed (.cast operand asToken target) (.cast operand' asToken target')
  | call {function function' paren args args'} : Trimmed function function' → Trimmed args args' →
      Trimmed (.call function paren args) (.call function' paren args')
  | parenExpr {paren inner inner'} : Trimmed inner inner' →
      Trimmed (.parenExpr paren inner) (.parenExpr paren inner')
  | macroExpr {call call'} : Trimmed call call' → Trimmed (.macroExpr call) (.macroExpr call')
  | invocation {p p' bang delimiter tokens} : Trimmed p p' →
      Trimmed (.invocation p bang delimiter tokens) (.invocation p' bang delimiter tokens)
  | path {leading segments segments'} : Trimmed segments segments' →
      Trimmed (.path leading segments) (.path leading segments')
  | segment {ident arguments arguments'} : Trimmed arguments arguments' →
      Trimmed (.segment ident arguments) (.segment ident arguments')
  | angle {colons lt args args' gt} : Trimmed args args' →
      Trimmed (.angle colons lt args gt) (.angle colons lt args' gt)
  | parenthesized {paren inputs inputs' output output'} : Trimmed inputs inputs' →
      Trimmed output output' →
      Trimmed (.parenthesized paren inputs output) (.parenthesized paren inputs' output')
  /-- The `as` may be missing if there is a trait in front of the closing bracket. -/
  | qualified {lt type type' position asToken asToken' gt} : Trimmed type type' →
      (asToken' = asToken ∨ 0 < position ∧ asToken' = none) →
      Trimmed (.qualified lt type position asToken gt) (.qualified lt type' position asToken' gt)
  | binding {ident eq type type'} : Trimmed type type' →
      Trimmed (.binding ident eq type) (.binding ident eq type')
  | constraint {ident colon bounds bounds'} : Trimmed bounds bounds' →
      Trimmed (.constraint ident colon bounds) (.constraint ident colon bounds')
  | constArg {value value'} : Trimmed value value' → Trimmed (.constArg value) (.constArg value')
  | typeArg {type type'} : Trimmed type type' → Trimmed (.typeArg type) (.typeArg type')
  | traitBound {paren modifier binder binder' p p'} : Option.Rel Binder.Trimmed binder binder' →
      Trimmed p p' →
      Trimmed (.traitBound paren modifier binder p) (.traitBound paren modifier binder' p')
  | fnArg {attributes name type type'} : Trimmed type type' →
      Trimmed (.fnArg attributes name type) (.fnArg attributes name type')
  | arrow {mark type type'} : Trimmed type type' → Trimmed (.arrow mark type) (.arrow mark type')
  | last {k : Category} {v v' : Node k} : Trimmed v v' → Trimmed (.last v) (.last v')
  | cons {k : Category} {v v' : Node k} {s : Token} {rest rest' : Node (.list k)} : Trimmed v v' →
      Trimmed rest rest' → Trimmed (.cons v s rest) (.cons v' s rest')

end Node

/-! ## Places of trees -/

namespace TokenTree

@[simp]
theorem eraseAll_trees (t : Token) : eraseAll t.trees = t.erase.trees := by
  have split : ∀ cs, eraseAll ((Token.split.go t cs).map .token) =
      (Token.split.go t.erase cs).map .token := by
    intro cs
    induction cs with
    | nil => rfl
    | cons c cs ih =>
      simp only [Token.split.go, List.map_cons, eraseAll, erase, ih]
      rfl
  unfold Token.trees
  change eraseAll (if t.kind = .punct ∧ 1 < t.text.length then _ else _) =
    if t.kind = .punct ∧ 1 < t.text.length then _ else _
  split_ifs
  · exact split t.text.toList
  · rfl

end TokenTree

@[simp]
theorem Delim.eraseAll_around (d : Delim) (ts : List TokenTree) :
    eraseAll (d.around ts) = d.erase.around (eraseAll ts) := rfl

namespace Printed

/-- The same pieces outside any file. -/
def erase (p : Printed) : Printed :=
  ⟨eraseAll p.lead, p.parts.map fun (value, separator) => (eraseAll value, eraseAll separator)⟩

@[simp]
theorem erase_whole (ts : List TokenTree) : (whole ts).erase = whole (eraseAll ts) := rfl

@[simp]
theorem eraseAll_joined (parts : List (List TokenTree × List TokenTree)) :
    eraseAll (joined parts) =
      joined (parts.map fun (value, separator) => (eraseAll value, eraseAll separator)) := by
  induction parts with
  | nil => rfl
  | cons part parts ih => simp_all [joined]

@[simp]
theorem eraseAll_trees (p : Printed) : eraseAll p.trees = p.erase.trees := by
  simp [trees, erase]

@[simp]
theorem eraseAll_qualify (lt self : List TokenTree) (position : Int) (asToken gt : List TokenTree)
    (p : Printed) :
    eraseAll (p.qualify lt self position asToken gt) =
      p.erase.qualify (eraseAll lt) (eraseAll self) position (eraseAll asToken) (eraseAll gt) := by
  unfold qualify
  simp only [erase, List.length_map, ChunkLayout.slice_map]
  generalize (if 0 < position ∧ (p.parts.length : Int) ≤ position then
    (p.parts.length : Int) - 1 else position) = at'
  split
  · cases h : (slice p.parts 0 at').getLast? with
    | none => simp [h]
    | some x => simp [h, List.map_dropLast]
  · simp

theorem trees_congr {p q : Printed} (h : p.erase = q.erase) :
    eraseAll p.trees = eraseAll q.trees := by
  rw [eraseAll_trees, eraseAll_trees, h]

end Printed

/-! ## Lists -/

namespace Separated

variable {α : Type} {R : α → α → Prop} {f : α → List TokenTree} {xs ys : Separated α}

theorem Related.trees (h : xs.Related R ys)
    (value : ∀ v ∈ xs.toList, ∀ w, R v w → eraseAll (f w) = eraseAll (f v)) :
    eraseAll (ys.trees f) = eraseAll (xs.trees f) := by
  induction h with
  | empty => rfl
  | last r => exact value _ List.mem_cons_self _ r
  | cons r _ ih =>
    simp only [Separated.trees, eraseAll_append, value _ List.mem_cons_self _ r,
      ih fun v mem => value v (List.mem_cons_of_mem _ mem)]

theorem acceptsValue_map {β : Type} (g : α → β) (xs : Separated α) :
    (xs.map g).acceptsValue = xs.acceptsValue := by
  induction xs with
  | empty => rfl
  | last => rfl
  | cons v s rest ih => exact ih

theorem splitBy_map {β : Type} {op : String} (g : α → β) (xs : Separated α) :
    (xs.map g).SplitBy op ↔ xs.SplitBy op := by
  induction xs with
  | empty => rfl
  | last => rfl
  | cons v s rest ih => exact and_congr_right fun _ => ih

end Separated

/-! ## Binders -/

theorem LifetimeDef.Trimmed.trees {d d' : LifetimeDef} (h : d.Trimmed d')
    (colons : ∀ colon ∈ d.colon, ∃ span, colon = Token.punct ":" span) :
    eraseAll d'.trees = eraseAll d.trees := by
  rcases d with ⟨attributes, lifetime, colon, bounds⟩
  obtain rfl | rfl := h
  · rfl
  · cases colon with
    | none => rfl
    | some colon =>
      obtain ⟨span, rfl⟩ := colons colon rfl
      cases bounds with
      | empty => rfl
      | last | cons =>
        simp only [LifetimeDef.trees, eraseAll_append, eraseAll_trees, Option.getD]
        rfl

theorem Binder.Trimmed.trees {b b' : Binder} (h : b.Trimmed b') (standard : b.Standard) :
    eraseAll b'.trees = eraseAll b.trees := by
  obtain ⟨lifetimes, related, rfl⟩ := h
  have same := related.trees fun d mem d' (trimmed : d.Trimmed d') =>
    trimmed.trees (standard d mem)
  simp only [Binder.trees, eraseAll_append, same]

theorem eraseAll_binderTrees {b b' : Option Binder} (h : Option.Rel Binder.Trimmed b b')
    (standard : ∀ b' ∈ b, b'.Standard) : eraseAll (binderTrees b') = eraseAll (binderTrees b) := by
  cases h with
  | none => rfl
  | some h => exact h.trees (standard _ rfl)

/-! ## Nodes -/

namespace Node

variable {k : Category}

theorem trees_cons (v : Node k) (s : Token) (rest : Node (.list k)) :
    (cons v s rest).print.trees = v.print.trees ++ s.trees ++ rest.print.trees := by
  cases rest <;> simp [print, Printed.trees, Printed.joined]

/-- Trimming keeps the separators of a list. -/
theorem Trimmed.separators : {n n' : Node (.list k)} → n.Trimmed n' →
    n'.separated.map (fun _ => ()) = n.separated.map fun _ => ()
  | _, _, .same _ => rfl
  | _, _, .last _ => rfl
  | _, _, .cons _ h => by simp only [separated_cons, Separated.map, h.separators]

theorem eraseAll_punct (op : String) (span span' : Span) :
    eraseAll (Token.punct op span).trees = eraseAll (Token.punct op span').trees := by
  rw [eraseAll_trees, eraseAll_trees]
  rfl

/-- What is written between the parentheses of a function type. -/
def inputTrees (inputs : Node (.list k)) (variadic : Option Token) : List TokenTree :=
  inputs.print.trees ++ variadicTrees inputs variadic

theorem inputTrees_cons (v : Node k) (s : Token) (rest : Node (.list k)) (variadic : Option Token) :
    (cons v s rest).inputTrees variadic = v.print.trees ++ s.trees ++ rest.inputTrees variadic := by
  rw [inputTrees, inputTrees, trees_cons, List.append_assoc]
  cases variadic <;> rfl

/-- The comma in front of `...` is supplied where the list does not end in one. -/
theorem inputTrees_withoutTrailing {xs : Separated (Node k)} (split : xs.SplitBy ",")
    (dots : Token) : eraseAll ((ofSeparated xs.withoutTrailing).inputTrees (some dots)) =
      eraseAll ((ofSeparated xs).inputTrees (some dots)) := by
  induction xs with
  | empty => rfl
  | last v => rfl
  | cons v s rest ih =>
    obtain ⟨⟨span, rfl⟩, split⟩ := split
    cases rest with
    | empty =>
      have single : (Node.last v).inputTrees (some dots) =
          v.print.trees ++ ((Token.punct "," dots.span).trees ++ dots.trees) := by
        simp [inputTrees, print, Printed.trees, Printed.joined, variadicTrees, acceptsValue,
          Separated.acceptsValue]
      change eraseAll ((Node.last v).inputTrees _) = eraseAll ((Node.cons v _ .nil).inputTrees _)
      rw [inputTrees_cons, single, ← List.append_assoc, eraseAll_append, eraseAll_append,
        eraseAll_punct "," dots.span span, ← eraseAll_append, ← eraseAll_append]
      rfl
    | last w => rfl
    | cons w s' more =>
      change eraseAll
          ((Node.cons v _ (ofSeparated (.withoutTrailing (.cons w s' more)))).inputTrees _) =
        eraseAll ((Node.cons v _ (ofSeparated (.cons w s' more))).inputTrees _)
      rw [inputTrees_cons, inputTrees_cons, eraseAll_append, ih split, ← eraseAll_append]

theorem Trimmed.inputTrees_eq {inputs trimmed inputs' : Node (.list k)} {variadic : Option Token}
    (h : inputs.Trimmed trimmed) (same : trimmed.print.erase = inputs.print.erase)
    (split : inputs.separated.SplitBy ",")
    (comma : inputs' = trimmed ∨
      variadic.isSome ∧ inputs' = .ofSeparated trimmed.separated.withoutTrailing) :
    eraseAll (inputs'.inputTrees variadic) = eraseAll (inputs.inputTrees variadic) := by
  have kept : eraseAll (trimmed.inputTrees variadic) = eraseAll (inputs.inputTrees variadic) := by
    have accepts : trimmed.acceptsValue = inputs.acceptsValue := by
      rw [acceptsValue, acceptsValue, ← Separated.acceptsValue_map fun _ => (), h.separators,
        Separated.acceptsValue_map]
    have dots : trimmed.variadicTrees variadic = inputs.variadicTrees variadic := by
      cases variadic with
      | none => rfl
      | some dots => simp only [variadicTrees, accepts]
    rw [inputTrees, inputTrees, eraseAll_append, eraseAll_append, Printed.trees_congr same, dots]
  obtain rfl | ⟨variadic', rfl⟩ := comma
  · exact kept
  · obtain ⟨dots, rfl⟩ := Option.isSome_iff_exists.1 variadic'
    have split' : trimmed.separated.SplitBy "," := by
      rw [← Separated.splitBy_map fun _ => (), h.separators, Separated.splitBy_map]
      exact split
    rw [inputTrees_withoutTrailing split', ofSeparated_separated]
    exact kept

section

variable {word : Token → Prop}
  (keyword : ∀ {t w}, w ∈ keywords → word t → t.IsWord w → t.erase = Token.keyword w .callSite)
include keyword

/-- A word that may be missing, and the one that stands for it. -/
theorem erase_getD {w : String} (mem : w ∈ keywords) {o : Option Token}
    (known : ∀ t ∈ o, word t ∧ t.IsWord w) :
    (o.getD (Token.keyword w .callSite)).erase = Token.keyword w .callSite := by
  cases o with
  | none => rfl
  | some t => exact keyword mem (known t rfl).1 (known t rfl).2

theorem asMark_eq {asToken asToken' : Option Token} {position : Int}
    (known : ∀ t ∈ asToken, word t ∧ t.IsWord "as")
    (missing : asToken' = asToken ∨ 0 < position ∧ asToken' = none) :
    (asMark asToken').erase = (asMark asToken).erase := by
  obtain rfl | ⟨-, rfl⟩ := missing
  · rfl
  · exact (erase_getD keyword (by decide) known).symm

theorem pointerMark_eq {constToken constToken' mutability : Option Token}
    (known : ∀ t ∈ constToken, word t ∧ t.IsWord "const")
    (missing : constToken' = constToken ∨ mutability = none ∧ constToken' = none) :
    (pointerMark constToken' mutability).erase = (pointerMark constToken mutability).erase := by
  obtain rfl | ⟨rfl, rfl⟩ := missing
  · rfl
  · exact (erase_getD keyword (by decide) known).symm

/-- A node from which tokens were taken is written as before: its pieces are the same, but for
places. -/
theorem Trimmed.print_eq {k : Category} : {n n' : Node k} → n.Trimmed n' → n.Canonical word →
    n'.print.erase = n.print.erase
  -- The recursion is on the node, but the cases are those of the derivation: so a node that is left
  -- as it is needs one case only.
  | _, _, .same _, _ => rfl
  | _, _, .group h, known | _, _, .implTrait h, known | _, _, .macroType h, known
  | _, _, .parenType h, known | _, _, .reference h, known | _, _, .slice h, known
  | _, _, .traitObject h, known | _, _, .tuple h, known | _, _, .unary h, known
  | _, _, .parenExpr h, known | _, _, .macroExpr h, known | _, _, .invocation h, known
  | _, _, .segment h, known | _, _, .angle h, known | _, _, .binding h, known
  | _, _, .constraint h, known | _, _, .constArg h, known | _, _, .typeArg h, known
  | _, _, .fnArg h, known | _, _, .arrow h, known => by
    simp [print, h.print_eq known.2]
  | _, _, .array h h', known | _, _, .binary h h', known | _, _, .cast h h', known
  | _, _, .call h h', known | _, _, .parenthesized h h', known => by
    simp [print, h.print_eq known.2.1, h'.print_eq known.2.2]
  | _, _, .path h, known => congrArg (Printed.mk _) (congrArg Printed.parts (h.print_eq known.2))
  | _, _, .last h, known =>
    congrArg (fun ts => Printed.mk [] [(ts, [])]) (Printed.trees_congr (h.print_eq known.2))
  | _, _, .cons (s := separator) h h', known =>
    congrArg₂ (fun ts ps => Printed.mk [] ((ts, eraseAll separator.trees) :: ps))
      (Printed.trees_congr (h.print_eq known.2.1)) (congrArg Printed.parts (h'.print_eq known.2.2))
  | _, _, .bareFn lifetimes h comma h', known => by
    obtain ⟨⟨standard, split⟩, known, known'⟩ := known
    have binder := eraseAll_binderTrees lifetimes standard
    have inputs := h.inputTrees_eq (h.print_eq known) split comma
    simp only [inputTrees, eraseAll_append] at inputs
    simp only [print, Printed.erase_whole, eraseAll_append, Delim.eraseAll_around, binder, inputs,
      Printed.trees_congr (h'.print_eq known')]
  | _, _, .pathType (.same self) h, known | _, _, .pathExpr (.same self) h, known => by
    cases self <;> simp [print, h.print_eq known.2.2]
  | _, _, .pathType (.qualified h' missing) h, known
  | _, _, .pathExpr (.qualified h' missing) h, known => by
    simp [print, h.print_eq known.2.2, h'.print_eq known.2.1.2,
      asMark_eq keyword known.2.1.1 missing]
  | _, _, .pointer missing h, known => by
    simp [print, h.print_eq known.2, pointerMark_eq keyword known.1 missing]
  | _, _, .qualified _ _, _ => rfl
  | _, _, @traitBound paren _ _ _ _ _ lifetimes h, known => by
    have binder := eraseAll_binderTrees lifetimes known.1
    cases paren <;> simp [print, h.print_eq known.2, binder]
termination_by structural n => n

end

end Node

/-! ## Types that were read -/

/-- A keyword of a text is a keyword by its kind, too. -/
theorem IsPlainWord.keyword {t : Token} {w : String} (reserved : w ∈ keywords)
    (plain : IsPlainWord t) (isWord : t.IsWord w) : t.erase = Token.keyword w .callSite := by
  obtain ⟨text, alone⟩ := plain
  obtain ⟨kind | kind, rfl⟩ := isWord
  · rw [Token.erase, Token.keyword, kind, alone]
  · exact absurd reserved (text.not_keyword kind)

/-- All nodes of a type that a text holds are orderly, with words as they stand in a text. -/
theorem orderly_of_parseText {text file : String} {line : Int} {plus : Bool} {t : Ty}
    (h : parseText text file line plus = .ok t) : t.Orderly IsTextual IsPlainWord := by
  obtain ⟨stream, e, c', source, run, -⟩ := tokenize_of_parseText h
  exact (Parse.type_yields textual_inherited (Grammar.ofDepth_yields textual_inherited _) plus
    (textual_of_tokenize source) run).2

/-- Tokens that are supplied may be taken out of a type that was read, at any places: what is left
is written with the same trees. -/
theorem trees_trimmed {text file : String} {line : Int} {plus : Bool} {t t' : Ty}
    (h : parseText text file line plus = .ok t) (trimmed : t.Trimmed t') :
    eraseAll t'.trees = eraseAll t.trees :=
  Printed.trees_congr (trimmed.print_eq IsPlainWord.keyword (orderly_of_parseText h).canonical)

/-- The type of a function with all four tokens, and what is left without them. -/
theorem trees_trimmed_function :
    ∃ t t', parseText "for<'a:'b> fn(*const <T as A>::B,...)" "" 1 true = .ok t ∧ t.Trimmed t' ∧
      t' ≠ t ∧ eraseAll t'.trees = eraseAll t.trees := by
  let place (first last : Int) : Span := ⟨"", 1, first, 1, last⟩
  let name (text : String) (col : Int) : Token := ⟨.identifier, text, place col col, false⟩
  let lifetime (text : String) (col : Int) : Lifetime :=
    ⟨⟨.lifetime, text, place col (col + 1), false⟩⟩
  let segment (text : String) (col : Int) : Segment := .segment (name text col) .noArguments
  let word (text : String) (first last : Int) : Token := .keyword text (place first last)
  let sign (text : String) (first last : Int) : Token := .punct text (place first last)
  let binder (colon : Option Token) : Binder := ⟨word "for" 1 3, sign "<" 4 4,
    .last ⟨[], lifetime "'a" 5, colon, .last (lifetime "'b" 8)⟩, sign ">" 10 10⟩
  let bound : Ty := .pathType .unqualified (.path none (.last (segment "T" 23)))
  let path : Path := .path none (.cons (segment "A" 28) (sign "::" 30 31) (.last (segment "B" 32)))
  let pointer (isConst isAs : Option Token) : Ty := .pointer (sign "*" 15 15) isConst none
    (.pathType (.qualified (sign "<" 22 22) bound 1 isAs (sign ">" 29 29)) path)
  let function (b : Binder) (inputs : Node (.list .fnArg)) : Ty := .bareFn (some b) none none
    (word "fn" 12 13) ⟨.paren, place 14 14⟩ inputs (some (sign "..." 34 36)) .defaultOutput
  let isConst := word "const" 16 20
  let isAs := word "as" 25 26
  let t := function (binder (some (sign ":" 7 7)))
    (.cons (.fnArg [] none (pointer (some isConst) (some isAs))) (sign "," 33 33) .nil)
  have run : parseText "for<'a:'b> fn(*const <T as A>::B,...)" "" 1 true = .ok t := by
    decide +kernel
  have trimmed : t.Trimmed (function (binder none) (.last (.fnArg [] none (pointer none none)))) :=
    .bareFn (.some ⟨_, .last (.inr rfl), rfl⟩)
      (.cons (.fnArg (.pointer (.inr ⟨rfl, rfl⟩)
        (.pathType (.qualified (.same _) (.inr ⟨Int.one_pos, rfl⟩)) (.same _)))) (.same _))
      (.inr ⟨rfl, rfl⟩) (.same _)
  exact ⟨t, _, run, trimmed, by simp [t, function], trees_trimmed run trimmed⟩

end TypeGrammar
