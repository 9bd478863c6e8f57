import TypeGrammar.Node.Tokens
import TypeGrammar.Proofs.Separated

/-!
# The layout of a node

A node is printed in chunks: words, operators, groups of chunks, and groups whose contents stand as
they were read. `Node.layout` gives the chunks of a node in the pieces in which `Node.print` gives
its trees, and `trees_eq` says that the trees of a node are those of its chunks. What a parser takes
from a cursor is compared with the chunks of the node that it returns.
-/

namespace TypeGrammar

/-! ## Chunks -/

/-- A unit of printing. The flag of a mark is set for an operator between two operands. -/
inductive Chunk where
  | word (t : Token)
  | mark (t : Token) (binary : Bool)
  | group (d : Delim) (inner : List Chunk)
  | raw (d : Delim) (tokens : List TokenTree)
  | verbatim (tree : TokenTree)

namespace Chunk

mutual

/-- The trees of a chunk. -/
def trees : Chunk → List TokenTree
  | word t => t.trees
  | mark t _ => t.trees
  | group d inner => d.around (treesAll inner)
  | raw d tokens => d.around tokens
  | verbatim tree => [tree]

/-- The trees of chunks in order. -/
def treesAll : List Chunk → List TokenTree
  | [] => []
  | p :: ps => trees p ++ treesAll ps

end

@[simp]
theorem trees_word (t : Token) : (word t).trees = t.trees := rfl

@[simp]
theorem trees_mark (t : Token) (binary : Bool) : (mark t binary).trees = t.trees := rfl

@[simp]
theorem trees_group (d : Delim) (inner : List Chunk) :
    (group d inner).trees = d.around (treesAll inner) := rfl

@[simp]
theorem trees_raw (d : Delim) (ts : List TokenTree) : (raw d ts).trees = d.around ts := rfl

@[simp]
theorem treesAll_nil : treesAll [] = [] := rfl

@[simp]
theorem treesAll_cons (p : Chunk) (ps : List Chunk) :
    treesAll (p :: ps) = p.trees ++ treesAll ps := rfl

@[simp]
theorem treesAll_append (ps qs : List Chunk) :
    treesAll (ps ++ qs) = treesAll ps ++ treesAll qs := by
  induction ps with
  | nil => rfl
  | cons p ps ih => simp [ih]

@[simp]
theorem treesAll_flatMap {α : Type} (xs : List α) (f : α → List Chunk) :
    treesAll (xs.flatMap f) = xs.flatMap fun x => treesAll (f x) := by
  induction xs with
  | nil => rfl
  | cons x xs ih => simp [ih]

@[simp]
theorem treesAll_verbatim (ts : List TokenTree) : treesAll (ts.map verbatim) = ts := by
  induction ts with
  | nil => rfl
  | cons t ts ih => simp [ih, trees]

end Chunk

open Chunk (treesAll)

/-! ## Parts without types inside -/

/-- An optional word in chunks. -/
def wordChunks (t : Option Token) : List Chunk :=
  (t.map Chunk.word).toList

/-- An optional operator in chunks. -/
def markChunks (t : Option Token) : List Chunk :=
  (t.map (Chunk.mark · false)).toList

/-- A list of values in chunks. -/
def Separated.chunks {α : Type} (f : α → List Chunk) : Separated α → List Chunk
  | .empty => []
  | .last v => f v
  | .cons v s rest => f v ++ .mark s false :: rest.chunks f

/-- An attribute in chunks. -/
def Attribute.chunks (a : Attribute) : List Chunk :=
  [.mark a.pound false, .raw a.bracket a.tokens]

/-- A lifetime in chunks. -/
def Lifetime.chunks (l : Lifetime) : List Chunk :=
  [.word l.token]

/-- A lifetime definition in chunks. -/
def LifetimeDef.chunks (d : LifetimeDef) : List Chunk :=
  d.attributes.flatMap Attribute.chunks ++ d.lifetime.chunks ++
    match d.bounds with
    | .empty => []
    | bounds => .mark (d.colon.getD (Token.punct ":" Span.callSite)) false ::
        bounds.chunks Lifetime.chunks

/-- A binder in chunks. -/
def Binder.chunks (b : Binder) : List Chunk :=
  .word b.forToken :: .mark b.lt false ::
    (b.lifetimes.chunks LifetimeDef.chunks ++ [.mark b.gt false])

/-- An optional binder in chunks. -/
def binderChunks (b : Option Binder) : List Chunk :=
  match b with
  | some b => b.chunks
  | none => []

/-- A calling convention in chunks. -/
def Abi.chunks (a : Abi) : List Chunk :=
  .word a.externToken :: wordChunks a.name

@[simp]
theorem treesAll_wordChunks (t : Option Token) : treesAll (wordChunks t) = tokenTrees t := by
  cases t <;> simp [wordChunks, tokenTrees]

@[simp]
theorem treesAll_markChunks (t : Option Token) : treesAll (markChunks t) = tokenTrees t := by
  cases t <;> simp [markChunks, tokenTrees]

theorem Separated.treesAll_chunks {α : Type} (f : α → List Chunk) (p : Separated α) :
    treesAll (p.chunks f) = p.trees fun v => treesAll (f v) := by
  induction p with
  | empty => rfl
  | last v => rfl
  | cons v s rest ih => simp [Separated.chunks, Separated.trees, ih]

@[simp]
theorem Attribute.treesAll_chunks (a : Attribute) : treesAll a.chunks = a.trees := by
  simp [Attribute.chunks, Attribute.trees]

@[simp]
theorem Lifetime.treesAll_chunks (l : Lifetime) : treesAll l.chunks = l.trees := by
  simp [Lifetime.chunks, Lifetime.trees]

@[simp]
theorem LifetimeDef.treesAll_chunks (d : LifetimeDef) : treesAll d.chunks = d.trees := by
  cases h : d.bounds <;> simp [LifetimeDef.chunks, LifetimeDef.trees, h, Separated.treesAll_chunks]

@[simp]
theorem Binder.treesAll_chunks (b : Binder) : treesAll b.chunks = b.trees := by
  simp [Binder.chunks, Binder.trees, Separated.treesAll_chunks]

@[simp]
theorem treesAll_binderChunks (b : Option Binder) : treesAll (binderChunks b) = binderTrees b := by
  cases b <;> simp [binderChunks, binderTrees]

@[simp]
theorem Abi.treesAll_chunks (a : Abi) : treesAll a.chunks = a.trees := by
  simp [Abi.chunks, Abi.trees]

/-! ## Layouts -/

/-- The chunks of a node in pieces, divided as in `Printed`. -/
structure ChunkLayout where
  lead : List Chunk
  parts : List (List Chunk × List Chunk)

namespace ChunkLayout

/-- The chunks of some elements with their separators. -/
def joined (parts : List (List Chunk × List Chunk)) : List Chunk :=
  parts.flatMap fun (value, separator) => value ++ separator

/-- All chunks in order. -/
def chunks (p : ChunkLayout) : List Chunk :=
  p.lead ++ joined p.parts

/-- The chunks of a node that is no list and no path. -/
def whole (chunks : List Chunk) : ChunkLayout :=
  ⟨chunks, []⟩

/-- A path of which the first `position` segments are the trait of a qualified self type, as in
`Printed.qualify`. -/
def qualify (lt self : List Chunk) (position : Int) (asToken gt : List Chunk) (p : ChunkLayout) :
    List Chunk :=
  let count : Int := p.parts.length
  let position := if 0 < position ∧ count ≤ position then count - 1 else position
  let after := joined (slice p.parts position count)
  if 0 < position then
    let trait := slice p.parts 0 position
    let tail :=
      match trait.getLast? with
      | some (value, separator) => joined trait.dropLast ++ value ++ gt ++ separator
      | none => []
    lt ++ self ++ asToken ++ p.lead ++ tail ++ after
  else lt ++ self ++ gt ++ p.lead ++ after

/-- The trees of the pieces. -/
def printed (p : ChunkLayout) : Printed :=
  ⟨treesAll p.lead, p.parts.map fun (v, s) => (treesAll v, treesAll s)⟩

@[simp]
theorem treesAll_joined (parts : List (List Chunk × List Chunk)) :
    treesAll (joined parts) =
      Printed.joined (parts.map fun (v, s) => (treesAll v, treesAll s)) := by
  simp only [joined, Printed.joined, Chunk.treesAll_flatMap, List.flatMap_map,
    Chunk.treesAll_append]

@[simp]
theorem trees_printed (p : ChunkLayout) : p.printed.trees = treesAll p.chunks := by
  simp [printed, Printed.trees, chunks]

@[simp]
theorem printed_whole (ps : List Chunk) : (whole ps).printed = .whole (treesAll ps) := rfl

@[simp]
theorem chunks_whole (ps : List Chunk) : (whole ps).chunks = ps := by
  simp [whole, chunks, joined]

theorem slice_map {α β : Type} (f : α → β) (xs : List α) (low high : Int) :
    slice (xs.map f) low high = (slice xs low high).map f := by
  simp [slice]

theorem clampIndex_of_le {length n : Nat} (h : n ≤ length) : clampIndex length n = n := by
  rw [clampIndex, if_neg (by omega), Int.toNat_natCast, Nat.min_eq_left h]

theorem slice_take {α : Type} {xs : List α} {n : Nat} (h : n ≤ xs.length) :
    slice xs 0 n = xs.take n := by
  rw [slice, clampIndex_of_le h]
  exact congrArg (List.drop · (xs.take n)) (clampIndex_of_le (Nat.zero_le xs.length))

theorem slice_drop {α : Type} {xs : List α} {n : Nat} (h : n ≤ xs.length) :
    slice xs n xs.length = xs.drop n := by
  rw [slice, clampIndex_of_le h, clampIndex_of_le (Nat.le_refl _), List.take_length]

theorem treesAll_qualify (lt self : List Chunk) (position : Int) (asToken gt : List Chunk)
    (p : ChunkLayout) :
    treesAll (p.qualify lt self position asToken gt) =
      p.printed.qualify (treesAll lt) (treesAll self) position (treesAll asToken)
        (treesAll gt) := by
  unfold Printed.qualify qualify
  simp only [printed, List.length_map, slice_map]
  generalize (if 0 < position ∧ (p.parts.length : Int) ≤ position then
    (p.parts.length : Int) - 1 else position) = at'
  split
  · cases h : (slice p.parts 0 at').getLast? with
    | none => simp [h]
    | some x => simp [h, List.map_dropLast]
  · simp

end ChunkLayout

/-! ## Nodes -/

namespace Node

variable {k : Category}

/-- The chunks between the inputs of a function type and its closing parenthesis. -/
def variadicChunks (inputs : Node (.list k)) (variadic : Option Token) : List Chunk :=
  match variadic with
  | none => []
  | some dots =>
    (if inputs.acceptsValue then [] else [.mark (Token.punct "," dots.span) false]) ++
      [.mark dots false]

/-- The chunks of a node in pieces. -/
def layout {c : Category} : Node c → ChunkLayout
  | .array bracket elem semi length =>
    .whole [.group bracket (elem.layout.chunks ++ .mark semi false :: length.layout.chunks)]
  | .bareFn binder unsafety abi fnToken paren inputs variadic output =>
    .whole (binderChunks binder ++ (wordChunks unsafety ++ ((abi.map Abi.chunks).getD [] ++
      .word fnToken :: .group paren (inputs.layout.chunks ++ variadicChunks inputs variadic) ::
      output.layout.chunks)))
  | .group delim elem => .whole [.group delim elem.layout.chunks]
  | .implTrait implToken bounds => .whole (.word implToken :: bounds.layout.chunks)
  | .infer underscore => .whole [.word underscore]
  | .macroType m => .whole m.layout.chunks
  | .never bang => .whole [.mark bang false]
  | .parenType paren elem => .whole [.group paren elem.layout.chunks]
  | .pathType .unqualified p => .whole p.layout.chunks
  | .pathType (.qualified lt type position asToken gt) p =>
    .whole (p.layout.qualify [.mark lt false] type.layout.chunks position
      [.word (asMark asToken)] [.mark gt false])
  | .pointer star constToken mutability elem =>
    .whole (.mark star false :: .word (pointerMark constToken mutability) :: elem.layout.chunks)
  | .reference ampersand lifetime mutability elem =>
    .whole (.mark ampersand false :: ((lifetime.map Lifetime.chunks).getD [] ++
      (wordChunks mutability ++ elem.layout.chunks)))
  | .slice bracket elem => .whole [.group bracket elem.layout.chunks]
  | .traitObject dynToken bounds => .whole (wordChunks dynToken ++ bounds.layout.chunks)
  | .tuple paren elems => .whole [.group paren elems.layout.chunks]
  | .verbatim tokens => .whole (tokens.map .verbatim)
  | .literal token => .whole [.word token]
  | .pathExpr .unqualified p => .whole p.layout.chunks
  | .pathExpr (.qualified lt type position asToken gt) p =>
    .whole (p.layout.qualify [.mark lt false] type.layout.chunks position
      [.word (asMark asToken)] [.mark gt false])
  | .unary op operand => .whole (.mark op false :: operand.layout.chunks)
  | .binary left op right =>
    .whole (left.layout.chunks ++ .mark op true :: right.layout.chunks)
  | .cast operand asToken target =>
    .whole (operand.layout.chunks ++ .word asToken :: target.layout.chunks)
  | .call function paren args =>
    .whole (function.layout.chunks ++ [.group paren args.layout.chunks])
  | .parenExpr paren inner => .whole [.group paren inner.layout.chunks]
  | .block brace tokens => .whole [.raw brace tokens]
  | .macroExpr m => .whole m.layout.chunks
  | .invocation p bang delimiter tokens =>
    .whole (p.layout.chunks ++ [.mark bang false, .raw delimiter tokens])
  | .path leading segments => ⟨markChunks leading, segments.layout.parts⟩
  | .segment ident arguments => .whole (.word ident :: arguments.layout.chunks)
  | .noArguments => .whole []
  | .angle colons lt args gt =>
    .whole (markChunks colons ++ .mark lt false :: (args.layout.chunks ++ [.mark gt false]))
  | .parenthesized paren inputs output =>
    .whole (.group paren inputs.layout.chunks :: output.layout.chunks)
  | .unqualified => .whole []
  | .qualified _ _ _ _ _ => .whole []
  | .lifetimeArg lifetime => .whole lifetime.chunks
  | .binding ident eq type => .whole (.word ident :: .mark eq false :: type.layout.chunks)
  | .constraint ident colon bounds =>
    .whole (.word ident :: .mark colon false :: bounds.layout.chunks)
  | .constArg value => .whole value.layout.chunks
  | .typeArg type => .whole type.layout.chunks
  | .traitBound paren modifier binder p =>
    let body := markChunks modifier ++ (binderChunks binder ++ p.layout.chunks)
    .whole (match paren with
      | some paren => [.group paren body]
      | none => body)
  | .lifetimeBound lifetime => .whole lifetime.chunks
  | .fnArg attributes name type =>
    .whole (attributes.flatMap Attribute.chunks ++
      ((match name with
        | some (ident, colon) => [.word ident, .mark colon false]
        | none => []) ++ type.layout.chunks))
  | .defaultOutput => .whole []
  | .arrow mark type => .whole (.mark mark false :: type.layout.chunks)
  | .nil => ⟨[], []⟩
  | .last value => ⟨[], [(value.layout.chunks, [])]⟩
  | .cons value separator rest =>
    ⟨[], (value.layout.chunks, [.mark separator false]) :: rest.layout.parts⟩

@[simp]
theorem treesAll_variadicChunks (inputs : Node (.list k)) (variadic : Option Token) :
    treesAll (variadicChunks inputs variadic) = variadicTrees inputs variadic := by
  cases variadic with
  | none => rfl
  | some t => by_cases h : inputs.acceptsValue <;> simp [variadicChunks, variadicTrees, h]

theorem treesAll_getD_map {α : Type} (f : α → List Chunk) (o : Option α) :
    treesAll ((o.map f).getD []) = (o.map fun x => treesAll (f x)).getD [] := by
  cases o <;> rfl

/-- The pieces of a node are the trees of the pieces of its layout. -/
theorem print_eq {c : Category} (n : Node c) : n.print = n.layout.printed := by
  fun_induction Node.print n <;>
    simp [Node.layout, ChunkLayout.treesAll_qualify, treesAll_getD_map, *]
  case case28 => simp [ChunkLayout.printed]
  case case40 paren _ _ _ body ih =>
    cases paren <;> simp [body, ih]
  case case42 name _ _ =>
    cases name <;> simp
  case case45 => simp [ChunkLayout.printed]
  case case46 => simp [ChunkLayout.printed]
  case case47 => simp [ChunkLayout.printed]

theorem trees_eq (n : Node k) : n.trees = treesAll n.layout.chunks := by
  rw [trees, print_eq, ChunkLayout.trees_printed]

/-! ## Lists and paths -/

theorem parts_ofSeparated (p : Separated (Node k)) :
    (ofSeparated p).layout.parts = p.pairs.map fun (v, s) => (v.layout.chunks, markChunks s) := by
  induction p with
  | empty => rfl
  | last v => rfl
  | cons v s rest ih =>
    rw [Separated.pairs, List.map_cons, ← ih]
    rfl

theorem joined_pairs {α : Type} (f : α → List Chunk) (p : Separated α) :
    ChunkLayout.joined (p.pairs.map fun (v, s) => (f v, markChunks s)) = p.chunks f := by
  induction p with
  | empty => rfl
  | last v => simp [Separated.pairs, ChunkLayout.joined, markChunks, Separated.chunks]
  | cons v s rest ih =>
    simp only [ChunkLayout.joined] at ih
    simp [Separated.pairs, ChunkLayout.joined, Separated.chunks, ih]
    rfl

@[simp]
theorem chunks_ofSeparated (p : Separated (Node k)) :
    (ofSeparated p).layout.chunks = p.chunks fun n => n.layout.chunks := by
  have lead : (ofSeparated p).layout.lead = [] := by cases p <;> rfl
  simp only [ChunkLayout.chunks, lead, parts_ofSeparated, List.nil_append]
  exact joined_pairs (fun n : Node k => n.layout.chunks) p

theorem layout_path (leading : Option Token) (segments : Node (.list .segment)) :
    (path leading segments).layout = ⟨markChunks leading, segments.layout.parts⟩ := rfl

theorem chunks_path (leading : Option Token) (p : Separated Segment) :
    (path leading (ofSeparated p)).layout.chunks =
      markChunks leading ++ p.chunks fun n => n.layout.chunks := by
  have parts := joined_pairs (fun n : Segment => n.layout.chunks) p
  rw [← parts, ← parts_ofSeparated]
  rfl

theorem chunks_segment (ident : Token) (arguments : Node .arguments) :
    (segment ident arguments).layout.chunks = .word ident :: arguments.layout.chunks :=
  ChunkLayout.chunks_whole _

theorem chunks_noArguments : noArguments.layout.chunks = [] := rfl

/-- The last segment of a path takes its arguments at its end. -/
theorem chunks_mapLast {p : Separated Segment} (ends : p.acceptsValue = false)
    (plain : p.last?.any isPlain = true) (a : Node .arguments) :
    (p.mapLast (withArguments a)).chunks (fun n => n.layout.chunks) =
      p.chunks (fun n => n.layout.chunks) ++ a.layout.chunks := by
  induction p with
  | empty => simp [Separated.acceptsValue] at ends
  | last v =>
    cases v with
    | segment ident arguments =>
      cases arguments with
      | noArguments =>
        rw [Separated.mapLast, withArguments, Separated.chunks, Separated.chunks, chunks_segment,
          chunks_segment, chunks_noArguments, List.singleton_append]
      | angle | parenthesized => simp [Separated.last?, isPlain] at plain
  | cons v s rest ih =>
    cases rest with
    | empty => simp [Separated.acceptsValue] at ends
    | last | cons =>
      have := ih ends plain
      simp [Separated.mapLast, Separated.chunks] at this ⊢
      exact this

theorem chunks_withFinalArguments {leading : Option Token} {s : Separated Segment} {p : Path}
    (form : p = .path leading (ofSeparated s)) (ends : s.acceptsValue = false)
    (plain : p.endsPlain = true) (a : Node .arguments) :
    (p.withFinalArguments a).layout.chunks = p.layout.chunks ++ a.layout.chunks := by
  subst form
  simp only [endsPlain, segments, separated_ofSeparated] at plain
  rw [withFinalArguments, separated_ofSeparated, chunks_path, chunks_path,
    chunks_mapLast ends plain, List.append_assoc]

theorem chunks_lone (b : Bound) : (traitObject none (last b)).layout.chunks = b.layout.chunks :=
  (ChunkLayout.chunks_whole _).trans (chunks_ofSeparated (.last b))

theorem chunks_unqualified (p : Path) :
    (pathType .unqualified p).layout.chunks = p.layout.chunks :=
  ChunkLayout.chunks_whole _

theorem chunks_pathExpr (self : Node .selfType) (p : Path) :
    (pathExpr self p).layout.chunks = (pathType self p).layout.chunks := by
  cases self <;> rfl

theorem chunks_pathType (lt gt : Token) (type : Ty) (position : Int) (asToken : Option Token)
    (p : Path) :
    (pathType (.qualified lt type position asToken gt) p).layout.chunks =
      p.layout.qualify [.mark lt false] type.layout.chunks position [.word (asMark asToken)]
        [.mark gt false] :=
  ChunkLayout.chunks_whole _

/-- A path after a qualified self type without a trait. -/
theorem chunks_qualified (lt gt : Token) (type : Ty) (asToken leading : Option Token)
    (p : Separated Segment) :
    (pathType (.qualified lt type 0 asToken gt) (path leading (ofSeparated p))).layout.chunks =
      .mark lt false :: (type.layout.chunks ++ .mark gt false ::
        (markChunks leading ++ p.chunks fun n => n.layout.chunks)) := by
  have parts := joined_pairs (fun n : Segment => n.layout.chunks) p
  rw [← parts, ← parts_ofSeparated]
  have all := ChunkLayout.slice_drop (Nat.zero_le (ofSeparated p).layout.parts.length)
  rw [chunks_pathType, layout_path]
  simp only [ChunkLayout.qualify, Int.lt_irrefl, false_and, if_false]
  erw [all]
  simp

/-- A path after a qualified self type with the trait `s`. -/
theorem chunks_qualified_trait (lt gt separator : Token) (type : Ty)
    (asToken leading : Option Token) {s r : Separated Segment} (ends : s.acceptsValue = false)
    (goes : r.acceptsValue = false) :
    (pathType (.qualified lt type s.toList.length asToken gt)
      (path leading (ofSeparated (s.join separator r)))).layout.chunks =
      .mark lt false :: (type.layout.chunks ++ .word (asMark asToken) ::
        (markChunks leading ++ (s.chunks (fun n => n.layout.chunks) ++ .mark gt false ::
          .mark separator false :: r.chunks fun n => n.layout.chunks))) := by
  obtain ⟨front, v, eq, eq'⟩ := Separated.pairs_join ends separator r
  obtain ⟨front', w, eqr, -⟩ := Separated.pairs_join goes separator .empty
  have count : s.toList.length = front.length + 1 := by
    rw [← Separated.length_pairs, eq]
    simp
  rw [← joined_pairs (fun n : Segment => n.layout.chunks) s,
    ← joined_pairs (fun n : Segment => n.layout.chunks) r, eq, count]
  rw [chunks_pathType, layout_path]
  simp only [ChunkLayout.qualify, parts_ofSeparated, eq']
  generalize eqf : (fun x : Segment × Option Token => (x.1.layout.chunks, markChunks x.2)) = f
  have fits : ¬ ((0 : Int) < ↑(front.length + 1) ∧
      (((front ++ (v, some separator) :: r.pairs).map f).length : Int) ≤ ↑(front.length + 1)) := by
    simp only [List.length_map, List.length_append, List.length_cons, eqr, List.length_nil]
    omega
  rw [if_neg fits, if_pos (by omega)]
  rw [ChunkLayout.slice_take (by simp), ChunkLayout.slice_drop (by simp)]
  have split : (front ++ (v, some separator) :: r.pairs).map f =
      (front.map f ++ [f (v, some separator)]) ++ r.pairs.map f := by simp
  have width : front.length + 1 = (front.map f ++ [f (v, some separator)]).length := by simp
  rw [split, width, List.take_left, List.drop_left]
  subst eqf
  simp [ChunkLayout.joined, markChunks]

end Node

end TypeGrammar
