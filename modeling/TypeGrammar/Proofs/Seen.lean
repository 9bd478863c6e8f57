import TypeGrammar.Parse.Path
import TypeGrammar.Proofs.Spelling

/-!
# What is seen of a node

Two nodes are compared by what is seen of them. Places are never seen. How the contents of macro
calls, attributes and blocks are seen, and whether the colon of a lifetime definition without bounds
is, depends on the sight. What the parsers ask of a node that they have read can be answered from
what is seen of it.
-/

namespace TypeGrammar

open TokenTree (eraseAll)

/-- How closely nodes are looked at: what is seen of raw contents, and whether the colon of a
lifetime definition without bounds is seen. -/
structure Sight where
  raw : List TokenTree → List TokenTree
  colons : Bool

/-- All but the places is seen. -/
def Sight.full : Sight := ⟨eraseAll, true⟩

/-- All but the places is seen, and the colons without bounds are not. -/
def Sight.settled : Sight := ⟨eraseAll, false⟩

/-- The sight of a view. -/
def View.sight (v : View) (colons : Bool) : Sight := ⟨fun ts => eraseAll (v.raw ts), colons⟩

/-- What is seen of values and of the separators between them. -/
def Separated.seen {α β : Type} (f : α → β) (p : Separated α) : Separated β :=
  (p.map f).mapSeparators Token.erase

/-- What is seen of an attribute. -/
def Attribute.seen (s : Sight) (a : Attribute) : Attribute :=
  ⟨a.pound.erase, a.bracket.erase, s.raw a.tokens⟩

/-- What is seen of a lifetime definition. -/
def LifetimeDef.seen (s : Sight) (d : LifetimeDef) : LifetimeDef :=
  ⟨d.attributes.map (Attribute.seen s), d.lifetime.erase,
    match d.bounds with
    | .empty => if s.colons then d.colon.map Token.erase else none
    | _ => d.colon.map Token.erase,
    d.bounds.seen Lifetime.erase⟩

/-- What is seen of a binder. -/
def Binder.seen (s : Sight) (b : Binder) : Binder :=
  ⟨b.forToken.erase, b.lt.erase, b.lifetimes.seen (LifetimeDef.seen s), b.gt.erase⟩

/-- What is seen of a node. -/
def Node.seen (s : Sight) {k : Category} : Node k → Node k
  | .array bracket elem semi length => .array bracket.erase (elem.seen s) semi.erase (length.seen s)
  | .bareFn binder unsafety abi fnToken paren inputs variadic output =>
    .bareFn (binder.map (Binder.seen s)) (unsafety.map Token.erase) (abi.map Abi.erase)
      fnToken.erase paren.erase (inputs.seen s) (variadic.map Token.erase) (output.seen s)
  | .group delim elem => .group delim.erase (elem.seen s)
  | .implTrait implToken bounds => .implTrait implToken.erase (bounds.seen s)
  | .infer underscore => .infer underscore.erase
  | .macroType m => .macroType (m.seen s)
  | .never bang => .never bang.erase
  | .parenType paren elem => .parenType paren.erase (elem.seen s)
  | .pathType self p => .pathType (self.seen s) (p.seen s)
  | .pointer star constToken mutability elem =>
    .pointer star.erase (constToken.map Token.erase) (mutability.map Token.erase) (elem.seen s)
  | .reference ampersand lifetime mutability elem =>
    .reference ampersand.erase (lifetime.map Lifetime.erase) (mutability.map Token.erase)
      (elem.seen s)
  | .slice bracket elem => .slice bracket.erase (elem.seen s)
  | .traitObject dynToken bounds => .traitObject (dynToken.map Token.erase) (bounds.seen s)
  | .tuple paren elems => .tuple paren.erase (elems.seen s)
  | .verbatim tokens => .verbatim (s.raw tokens)
  | .literal token => .literal token.erase
  | .pathExpr self p => .pathExpr (self.seen s) (p.seen s)
  | .unary op operand => .unary op.erase (operand.seen s)
  | .binary left op right => .binary (left.seen s) op.erase (right.seen s)
  | .cast operand asToken target => .cast (operand.seen s) asToken.erase (target.seen s)
  | .call function paren args => .call (function.seen s) paren.erase (args.seen s)
  | .parenExpr paren inner => .parenExpr paren.erase (inner.seen s)
  | .block brace tokens => .block brace.erase (s.raw tokens)
  | .macroExpr m => .macroExpr (m.seen s)
  | .invocation p bang delimiter tokens =>
    .invocation (p.seen s) bang.erase delimiter.erase (s.raw tokens)
  | .path leading segments => .path (leading.map Token.erase) (segments.seen s)
  | .segment ident arguments => .segment ident.erase (arguments.seen s)
  | .noArguments => .noArguments
  | .angle colons lt args gt => .angle (colons.map Token.erase) lt.erase (args.seen s) gt.erase
  | .parenthesized paren inputs output => .parenthesized paren.erase (inputs.seen s) (output.seen s)
  | .unqualified => .unqualified
  | .qualified lt type position asToken gt =>
    .qualified lt.erase (type.seen s) position (asToken.map Token.erase) gt.erase
  | .lifetimeArg lifetime => .lifetimeArg lifetime.erase
  | .binding ident eq type => .binding ident.erase eq.erase (type.seen s)
  | .constraint ident colon bounds => .constraint ident.erase colon.erase (bounds.seen s)
  | .constArg value => .constArg (value.seen s)
  | .typeArg type => .typeArg (type.seen s)
  | .traitBound paren modifier binder p =>
    .traitBound (paren.map Delim.erase) (modifier.map Token.erase) (binder.map (Binder.seen s))
      (p.seen s)
  | .lifetimeBound lifetime => .lifetimeBound lifetime.erase
  | .fnArg attributes name type =>
    .fnArg (attributes.map (Attribute.seen s)) (name.map fun (a, b) => (a.erase, b.erase))
      (type.seen s)
  | .defaultOutput => .defaultOutput
  | .arrow mark type => .arrow mark.erase (type.seen s)
  | .nil => .nil
  | .last value => .last (value.seen s)
  | .cons value separator rest => .cons (value.seen s) separator.erase (rest.seen s)

/-- The node outside any file, without the colons of lifetime definitions that have no bounds. -/
def Node.settled {k : Category} (n : Node k) : Node k :=
  n.seen .settled

theorem LifetimeDef.seen_full (d : LifetimeDef) : d.seen .full = d.erase := by
  rcases d with ⟨as, l, colon, bounds⟩
  cases bounds <;> rfl

theorem Binder.seen_full (b : Binder) : b.seen .full = b.erase := by
  have : LifetimeDef.seen .full = LifetimeDef.erase := funext LifetimeDef.seen_full
  rw [Binder.seen, this]
  rfl

/-- The node outside any file is seen if only the places are not. -/
theorem Node.seen_full {k : Category} (n : Node k) : n.seen .full = n.erase := by
  have binder : Binder.seen .full = Binder.erase := funext Binder.seen_full
  have attr : Attribute.seen .full = Attribute.erase := rfl
  have raw : Sight.full.raw = eraseAll := rfl
  induction n <;> simp only [Node.seen, Node.erase, *]

/-! ## Questions about what is seen -/

namespace Separated

variable {α β γ : Type} {f : α → β}

@[simp]
theorem seen_empty : (empty : Separated α).seen f = empty := rfl

@[simp]
theorem seen_last (v : α) : (last v).seen f = last (f v) := rfl

@[simp]
theorem seen_cons (v : α) (s : Token) (rest : Separated α) :
    (cons v s rest).seen f = cons (f v) s.erase (rest.seen f) := rfl

theorem toList_seen (p : Separated α) : (p.seen f).toList = p.toList.map f := by
  induction p with
  | empty | last => rfl
  | cons v s rest ih => simp [toList, ih]

theorem acceptsValue_seen (p : Separated α) : (p.seen f).acceptsValue = p.acceptsValue := by
  induction p with
  | empty | last => rfl
  | cons v s rest ih => exact ih

theorem last?_seen (p : Separated α) : (p.seen f).last? = p.last?.map f := by
  induction p with
  | empty | last => rfl
  | cons v s rest ih => cases rest <;> first | rfl | exact ih

theorem mapLast_seen {g : α → α} {g' : β → β} (commute : ∀ v, f (g v) = g' (f v))
    (p : Separated α) : (p.mapLast g).seen f = (p.seen f).mapLast g' := by
  induction p with
  | empty => rfl
  | last v => simp [mapLast, commute]
  | cons v s rest ih =>
    cases rest with
    | empty => simp [mapLast, commute]
    | last w => simp [mapLast, commute]
    | cons w t more =>
      simp only [mapLast, seen_cons] at ih ⊢
      rw [ih]

theorem join_seen (p : Separated α) (s : Token) (q : Separated α) :
    (p.join s q).seen f = (p.seen f).join s.erase (q.seen f) := by
  induction p with
  | empty | last => rfl
  | cons v t rest ih => simp [join, ih]

end Separated

namespace Node

variable {s : Sight} {k : Category}

@[simp]
theorem seen_ofSeparated (p : Separated (Node k)) :
    (ofSeparated p).seen s = ofSeparated (p.seen (Node.seen s)) := by
  induction p with
  | empty | last => rfl
  | cons v t rest ih => exact congrArg (cons (v.seen s) t.erase) ih

@[simp]
theorem separated_seen :
    (n : Node (.list k)) → (n.seen s).separated = n.separated.seen (Node.seen s)
  | .nil => rfl
  | .last _ => rfl
  | .cons v t rest => congrArg (Separated.cons (v.seen s) t.erase) (separated_seen rest)

theorem seen_path (leading : Option Token) (segments : Node (.list .segment)) :
    (path leading segments).seen s = path (leading.map Token.erase) (segments.seen s) := rfl

theorem segments_seen : (p : Path) → (p.seen s).segments = p.segments.seen (Node.seen s)
  | .path _ segments => separated_seen segments

theorem isPlain_seen (n : Segment) : (n.seen s).isPlain = n.isPlain := by
  match n with
  | .segment ident a => cases a <;> rfl

theorem hasNoArguments_seen (p : Path) : (p.seen s).hasNoArguments = p.hasNoArguments := by
  rw [hasNoArguments, hasNoArguments, segments_seen, Separated.toList_seen, List.all_map]
  congr 1
  exact funext isPlain_seen

theorem endsPlain_seen (p : Path) : (p.seen s).endsPlain = p.endsPlain := by
  rw [endsPlain, endsPlain, segments_seen, Separated.last?_seen, Option.any_map]
  congr 1
  exact funext isPlain_seen

theorem withFinalArguments_seen (p : Path) (a : Node .arguments) :
    (p.withFinalArguments a).seen s = (p.seen s).withFinalArguments (a.seen s) := by
  match p with
  | .path leading segments =>
    have commute : ∀ n : Segment, (withArguments a n).seen s = withArguments (a.seen s) (n.seen s)
      | .segment _ _ => rfl
    simp only [withFinalArguments, seen_path, seen_ofSeparated, separated_seen,
      Separated.mapLast_seen commute]

theorem joinPath_seen (trait : Path) (colons : Token) (rest : Separated Segment) :
    (Parse.joinPath trait colons rest).seen s =
      Parse.joinPath (trait.seen s) colons.erase (rest.seen (Node.seen s)) := by
  match trait with
  | .path leading segments =>
    simp only [Parse.joinPath, seen_path, seen_ofSeparated, separated_seen, Separated.join_seen]

theorem unqualified_seen (a : Node .selfType) : a.seen s = .unqualified ↔ a = .unqualified := by
  cases a with
  | unqualified => exact iff_of_true rfl rfl
  | qualified => exact iff_of_false nofun nofun

/-- A node that was read again, as it is seen. -/
abbrev Again (v : View) (keep : Bool) (a a' : Node k) : Prop :=
  a'.seen (v.sight keep) = a.seen (v.sight false)

namespace Again

variable {v : View} {keep : Bool}

theorem hasNoArguments {p p' : Path} (h : p.Again v keep p') :
    p'.hasNoArguments = p.hasNoArguments := by
  rw [← hasNoArguments_seen p' (s := v.sight keep), h, hasNoArguments_seen]

theorem endsPlain {p p' : Path} (h : p.Again v keep p') : p'.endsPlain = p.endsPlain := by
  rw [← endsPlain_seen p' (s := v.sight keep), h, endsPlain_seen]

theorem withFinalArguments {p p' : Path} {a a' : Node .arguments} (h : p.Again v keep p')
    (ha : a.Again v keep a') :
    (p.withFinalArguments a).Again v keep (p'.withFinalArguments a') := by
  rw [Again, withFinalArguments_seen, withFinalArguments_seen, h, ha]

theorem segments {p p' : Path} (h : p.Again v keep p') :
    p'.segments.seen (Node.seen (v.sight keep)) = p.segments.seen (Node.seen (v.sight false)) := by
  rw [← segments_seen, h, segments_seen]

theorem length {p p' : Path} (h : p.Again v keep p') :
    p'.segments.toList.length = p.segments.toList.length := by
  have := congrArg (fun q => q.toList.length) h.segments
  simpa [Separated.toList_seen] using this

theorem unqualified {a a' : Node .selfType} (h : a.Again v keep a') :
    a' = .unqualified ↔ a = .unqualified := by
  rw [← unqualified_seen a' (s := v.sight keep), h, unqualified_seen]

end Again

end Node

end TypeGrammar
