import TypeGrammar.Proofs.Adjacency
import TypeGrammar.Proofs.Retokenizing
import TypeGrammar.Proofs.Tuples
import TypeGrammar.Proofs.YieldingTypes

/-!
# Bounds in parentheses that are read as types

A trait object whose first bound is in parentheses is read in two ways. Where bounds are asked for,
the parentheses hold a bound. In the place of a type they hold a type, and only the `+` after them
turns it into a bound. For a list that ends in a bound both ways come to the same trait object, at
the same place, exactly if the first bound is one that a type can stand for.

A bound may start where a type means something else: with the word `dyn`, which starts a trait
object; with the word `extern` alone, which starts a function; and with `::` behind a binder, which
no type goes on with.
-/

namespace TypeGrammar

open TokenTree

/-! ## Cursors over trees of a sort -/

/-- What trees pass on holds of the trees ahead of every cursor over them. -/
theorem Cursor.Over.holds {p : List TokenTree → Prop} {word : Token → Prop}
    {body : List TokenTree → Prop} (inherited : Inherited p word body) {trees : List TokenTree}
    {c : Cursor} (h : Over trees c) (holds : p trees) : p c.rest := by
  induction h with
  | start => exact holds
  | skip n _ ih => exact inherited.drop ih n
  | enter _ front ih =>
    rw [front] at ih
    exact inherited.group (inherited.cons ih).1

/-- No identifier of a text is spelled like a keyword. -/
theorem Renderable.named {t : Token} {us : List TokenTree} (h : Renderable (.token t :: us))
    (identifier : t.kind = .identifier) : t.text ∉ keywords := by
  have word : IsWordText t.kind t.text :=
    Renderable.inherited.word (Renderable.inherited.cons h).1 (by simp [identifier]) rfl
  exact word.not_keyword identifier

/-! ## Bounds that types stand for -/

/-- A path that is read as a path in the place of a type, too, behind the given binder. -/
def Node.OpensType (binder : Option Binder) : Path → Prop
  | .path leading segments =>
    (leading.isSome → binder = none) ∧
      (leading = none → ∀ ident arguments,
        segments.separated.first? = some (.segment ident arguments) →
        ident.text ≠ "dyn" ∧ (ident.text = "extern" → 1 < segments.separated.toList.length))

/-- A bound that a type in parentheses can stand for: with `?`, or with a path that a type starts
with. -/
def Node.Promotes : Bound → Prop
  | .traitBound _ modifier binder p => modifier.isSome ∨ p.OpensType binder
  | .lifetimeBound _ => False

namespace Parser

variable {α : Type} {c c' : Cursor}

/-- A list that ends in a value is read alike where a value has to follow every separator. -/
theorem listFrom_always {rule rule' : ListRule} {item : Parser α} (asks : rule'.asks = rule.asks)
    (separator : rule'.separator = rule.separator) (always : ∀ ts, rule'.again ts = true)
    {limit : Nat} {v : α} {xs : Separated α} (h : listFrom rule item limit v c = .ok xs c')
    (ends : xs.acceptsValue = false) : listFrom rule' item limit v c = .ok xs c' := by
  induction limit generalizing v c xs with
  | zero => simp [listFrom, fail_ok] at h
  | succ limit ih =>
    obtain ⟨n, eq, ⟨off, rfl, rfl⟩ | ⟨s, c₁, on, mark, ⟨-, rfl, -⟩ |
      ⟨w, c₂, q, -, next, rest, rfl⟩⟩⟩ := listFrom_ok h
    · exact look_no (asks ▸ off)
    · cases ends
    · cases eq
      rw [listFrom, look_yes (asks ▸ on), separator, bind_of_ok mark, look_yes (always _),
        bind_of_ok next, bind_of_ok (ih rest ends)]
      rfl

theorem listAfter_always {rule rule' : ListRule} {item : Parser α} (asks : rule'.asks = rule.asks)
    (separator : rule'.separator = rule.separator) (always : ∀ ts, rule'.again ts = true) {v : α}
    {xs : Separated α} (h : listAfter rule item v c = .ok xs c') (ends : xs.acceptsValue = false) :
    listAfter rule' item v c = .ok xs c' :=
  listFrom_always asks separator always h ends

end Parser

namespace Separated

variable {α : Type}

theorem first?_mapLast (f : α → α) {p : Separated α} {v : α} (first : p.first? = some v) :
    (p.mapLast f).first? = some v ∨ (p.mapLast f).first? = some (f v) := by
  match p with
  | .last _ | .cons _ _ .empty =>
    obtain rfl := Option.some.inj first
    exact .inr rfl
  | .cons _ _ (.last _) | .cons _ _ (.cons ..) => exact .inl first

theorem length_mapLast (f : α → α) (p : Separated α) :
    (p.mapLast f).toList.length = p.toList.length := by
  match p with
  | .empty | .last _ | .cons _ _ .empty => rfl
  | .cons _ _ (.last _) => rfl
  | .cons _ _ (.cons v s rest) => exact congrArg Nat.succ (length_mapLast f (.cons v s rest))

end Separated

namespace Parse

open TypeGrammar.Parser

variable {g : Grammar} {c c₁ c' : Cursor}

/-! ## Fronts of paths -/

/-- How trees start from which a path is read: with `::`, or with its first name; `extern` has `::`
behind it exactly if it has a segment behind it. -/
inductive PathFront (ts : List TokenTree) : Path → Prop
  | colons {leading : Token} {segments : Node (.list .segment)} :
      startsPunct "::" ts = true → PathFront ts (.path (some leading) segments)
  | name {ident : Token} {arguments : Node .arguments} {us : List TokenTree}
      {segments : Node (.list .segment)} :
      ts = .token ident :: us → ident.IsWord ident.text →
      (ident.kind = .identifier ∨ ident.text ∈ pathRoots) →
      segments.separated.first? = some (.segment ident arguments) →
      (ident.text = "extern" →
        (startsPunct "::" us = true ↔ 1 < segments.separated.toList.length)) →
      PathFront ts (.path none segments)

theorem segment_root {inExpr : Bool} {s : Segment} {ident : Token} {us : List TokenTree}
    (front : c.rest = .token ident :: us) (word : ident.IsWord ident.text)
    (root : ident.text ∈ bareRoots) (h : segment g inExpr c = .ok s c') : c'.rest = us := by
  have starts : (bareRoots.any fun w => startsWord w c.rest) = true :=
    List.any_eq_true.2 ⟨_, root, front ▸ startsWord_of_isWord word us⟩
  rw [segment, look_yes starts] at h
  obtain ⟨ident', _, name, h⟩ := bind_ok.1 h
  obtain ⟨-, rfl⟩ := pure_ok.1 h
  have eq := (anyWord_ok name).1
  rw [front] at eq
  exact (List.cons.inj eq).2.symm

theorem path_opens {inExpr : Bool} {p : Path} (h : path g inExpr c = .ok p c') :
    PathFront c.rest p := by
  simp only [path, bind_ok, pure_ok] at h
  obtain ⟨leading, c₁, colons, segments, _, run, rfl, rfl⟩ := h
  obtain ⟨rfl, -, rfl⟩ | ⟨_, rfl, mark⟩ := punct?_ok colons
  · obtain ⟨v, c₂, first, more⟩ := list1_ok run
    obtain ⟨ident, arguments, us, rfl, eq, word, root⟩ := segment_front first
    have starts : (Node.ofSeparated segments).separated.first? =
        some (.segment ident arguments) := by
      rw [Node.separated_ofSeparated]
      exact listFrom_first more
    refine .name eq word root starts fun known => ?_
    obtain rfl := segment_root eq word (known ▸ by decide) first
    rw [Node.separated_ofSeparated]
    obtain ⟨n, -, ⟨off, rfl, -⟩ | ⟨s, c₃, on, -, ⟨off, -⟩ | ⟨w, c₄, q, -, -, rest, rfl⟩⟩⟩ :=
      listFrom_ok more
    · have off : startsPunct "::" c₂.rest = false := off
      simp [off, Separated.toList]
    · cases off
    · have length := Separated.length_pos (listFrom_ends (fun _ => rfl) rest)
      exact ⟨fun _ => Nat.succ_lt_succ length, fun _ => on⟩
  · exact .colons (punct_ok mark).1

theorem PathFront.withFinalArguments {ts : List TokenTree} {p : Path} (h : PathFront ts p)
    (arguments : Node .arguments) : PathFront ts (p.withFinalArguments arguments) := by
  cases h with
  | colons on => exact .colons on
  | @name ident old us segments eq word root first further =>
    have final := Separated.first?_mapLast (Node.withArguments arguments) first
    obtain ⟨new, starts⟩ : ∃ new, (Node.ofSeparated (segments.separated.mapLast
        (Node.withArguments arguments))).separated.first? = some (.segment ident new) := by
      rw [Node.separated_ofSeparated]
      exact final.elim (⟨old, ·⟩) (⟨arguments, ·⟩)
    refine .name eq word root starts ?_
    rwa [Node.separated_ofSeparated, Separated.length_mapLast]

theorem pathWithInputs_opens {p : Path} (h : pathWithInputs g c = .ok p c') :
    PathFront c.rest p := by
  unfold pathWithInputs at h
  simp only [↓look_ite_ok, bind_ok, pure_ok] at h
  obtain ⟨p, c₁, run, ⟨-, arguments, _, -, rfl, -⟩ | ⟨-, rfl, -⟩⟩ := h
  · exact (path_opens run).withFinalArguments arguments
  · exact path_opens run

/-! ## Paths in the place of a type -/

/-- The type that a path is read as behind the given binder, in front of the end. -/
def standing (binder : Option Binder) (p : Path) : Ty :=
  match binder with
  | none => .pathType .unqualified p
  | some _ => .traitObject none (.last (.traitBound none none binder p))

namespace PathFront

variable {ts : List TokenTree} {p : Path} (h : PathFront ts p)
include h

theorem token : ∃ t us, ts = .token t :: us ∧ t.kind ≠ .lifetime := by
  cases h with
  | colons on =>
    obtain ⟨t, us, rfl, punct, -⟩ := startsChars_front on
    exact ⟨t, us, rfl, by simp [punct]⟩
  | name eq word => exact ⟨_, _, eq, by obtain kind | kind := word.1 <;> simp [kind]⟩

/-- When a type may start with the path behind a binder: nothing else starts there. -/
theorem opensType_iff {binder : Option Binder} (sound : Renderable ts) :
    p.OpensType binder ↔ (startsPunct "::" ts = true → binder = none) ∧
      startsWord "dyn" ts = false ∧ startsBareFn ts = false := by
  cases h with
  | colons on =>
    obtain ⟨t, us, rfl, punct, -⟩ := startsChars_front on
    simp [Node.OpensType, on, startsBareFn, startsWord, token?, punct]
  | @name ident arguments us segments eq word root first further =>
    subst eq
    have colons : startsPunct "::" (.token ident :: us) = false :=
      startsPunct_word word.kind_ne (by decide)
    have starts (w : String) : startsWord w (.token ident :: us) = (ident.text == w) := by
      obtain kind | kind := word.1 <;> simp [startsWord, token?, kind]
    have noFn : ident.text ≠ "fn" ∧ ident.text ≠ "unsafe" := by
      obtain identifier | root := root
      · have other := sound.named identifier
        exact ⟨fun eq => other (eq ▸ by decide), fun eq => other (eq ▸ by decide)⟩
      · exact ⟨fun eq => absurd (eq ▸ root) (by decide), fun eq => absurd (eq ▸ root) (by decide)⟩
    have fn : startsBareFn (.token ident :: us) = false ↔
        (ident.text = "extern" → startsPunct "::" us = true) := by
      simp [startsBareFn, starts, noFn]
    have opens : Node.OpensType binder (.path none segments) ↔ ident.text ≠ "dyn" ∧
        (ident.text = "extern" → 1 < segments.separated.toList.length) := by
      simp [Node.OpensType, first]
    rw [opens, fn, starts, colons, beq_eq_false_iff_ne]
    constructor
    · rintro ⟨dyn, more⟩
      exact ⟨fun on => absurd on Bool.false_ne_true, dyn, fun eq => (further eq).2 (more eq)⟩
    · rintro ⟨-, dyn, more⟩
      exact ⟨dyn, fun eq => (further eq).1 (more eq)⟩

theorem starts : startsPunct "::" ts = true ∨ startsIdentifier ts = true ∨
    ∃ w ∈ pathRoots, startsWord w ts = true := by
  cases h with
  | colons on => exact .inl on
  | name eq word root =>
    subst eq
    refine .inr (root.imp (fun kind => ?_) fun root => ⟨_, root, startsWord_of_isWord word _⟩)
    simp [startsIdentifier, startsKind, token?, kind]

/-- A binder may stand in front of a path that does not start with `::`. -/
theorem follows (off : startsPunct "::" ts = false) :
    (afterBinder.any fun e => e.isMet ts) = true := by
  refine List.any_eq_true.2 ?_
  obtain on | on | ⟨w, mem, on⟩ := h.starts
  · rw [off] at on
    cases on
  · exact ⟨.identifier, by decide, on⟩
  · have known : ∀ w ∈ pathRoots, .keyword w ∈ afterBinder := by decide
    exact ⟨.keyword w, known w mem, on⟩

theorem startsPath : startsPath ts = true := by
  simp only [Parse.startsPath, startsPathRoot, Bool.or_eq_true, List.any_eq_true]
  obtain on | on | root := h.starts
  · exact .inl (.inr on)
  · exact .inl (.inl (.inl on))
  · exact .inl (.inl (.inr root))

theorem unqualified : startsPunct "<" ts = false := by
  cases h with
  | colons on =>
    obtain ⟨t, us, rfl, -, text, -⟩ := startsChars_front on
    have text : t.text.toList = [':'] := text
    simp [startsPunct, startsChars, text]
  | name eq word => rw [eq, startsPunct_word word.kind_ne (by decide)]

end PathFront

theorem qualifiedPathWithInputs_eq {p : Path} (off : startsPunct "<" c.rest = false)
    (h : pathWithInputs g c = .ok p c') :
    qualifiedPathWithInputs g c = .ok (.unqualified, p) c' := by
  unfold pathWithInputs at h
  simp only [↓look_ite_ok, bind_ok, pure_ok] at h
  obtain ⟨p₀, c₁, run, inputs⟩ := h
  have qualified : qualifiedPath g false c = .ok (.unqualified, p₀) c₁ := by
    rw [qualifiedPath, look_no off, bind_of_ok run]
    rfl
  rw [qualifiedPathWithInputs, bind_of_ok qualified]
  obtain ⟨plain, arguments, _, inputs, rfl, rfl⟩ | ⟨off, rfl, rfl⟩ := inputs
  · exact (look_yes plain).trans (bind_of_ok inputs)
  · exact look_no off

/-- A path that stands alone behind a binder, and not behind `dyn`. -/
theorem pathLike_standing {binder : Option Binder} {p : Path}
    (path : pathWithInputs g c = .ok p c') (done : c'.rest = [])
    (dyn : startsWord "dyn" c.rest = false) :
    pathLike g binder true c = .ok (standing binder p) c' := by
  have qualified := qualifiedPathWithInputs_eq (pathWithInputs_opens path).unqualified path
  rw [pathLike, look_no dyn, bind_of_ok qualified]
  dsimp only
  rw [if_neg (fun other => other rfl), look_no (by rw [done]; rfl)]
  cases binder with
  | none => exact look_no (by rw [done]; rfl)
  | some binder =>
    rw [look_yes rfl, if_pos rfl, bind_of_ok (listAfter_stop (by rw [done]; rfl))]
    rfl

/-- Behind `dyn` there is a trait object that keeps the word. -/
theorem pathLike_dyn {binder : Option Binder} {plus : Bool} {t : Ty}
    (dyn : startsWord "dyn" c.rest = true) (h : pathLike g binder plus c = .ok t c') :
    ∃ dynToken bounds, t = .traitObject (some dynToken) bounds := by
  rw [pathLike, look_yes dyn] at h
  obtain ⟨object, c₁, run, h⟩ := bind_ok.1 h
  obtain ⟨word, c₂, dynToken, run⟩ := bind_ok.1 run
  obtain ⟨-, off, -⟩ | ⟨word, rfl, -⟩ := keyword?_ok dynToken
  · rw [dyn] at off
    cases off
  · obtain ⟨bounds, c₃, -, run⟩ := bind_ok.1 run
    split at run
    · obtain ⟨rfl, -⟩ := pure_ok.1 run
      cases binder with
      | none => exact ⟨word, _, (pure_ok.1 h).1.symm⟩
      | some binder =>
        have h : withBinder binder (.traitObject (some word) (.ofSeparated bounds)) c₁ = .ok t c' :=
          h
        cases first : bounds.first? with
        | none => simp [withBinder, first, fail_ok] at h
        | some bound =>
          cases bound with
          | traitBound =>
            obtain ⟨attach, -, eq⟩ := @withBinder_eq binder (some word) _ _ _ _ _ first
            rw [eq] at h
            exact ⟨word, _, (pure_ok.1 h).1.symm⟩
          | lifetimeBound => simp [withBinder, first, fail_ok] at h
    · exact (fail_ok.1 run).elim

theorem typeAfter_path {binder : Option Binder} {plus : Bool} {p : Path}
    (front : PathFront c.rest p) (fn : startsBareFn c.rest = false) :
    typeAfter g binder plus c = pathLike g binder plus c := by
  obtain ⟨t, us, eq, -⟩ := front.token
  rw [typeAfter, look_no (by rw [eq]; rfl), look_no fn, look_yes front.startsPath]

/-! ## Bounds in the place of a type -/

section

variable {b : Option Binder} {p : Path} {plus : Bool}

theorem binder?_token (run : binder? c = .ok b c₁) (front : PathFront c₁.rest p) :
    ∃ t us, c.rest = .token t :: us ∧ t.kind ≠ .lifetime := by
  obtain ⟨-, -, rfl⟩ | ⟨_, -, run⟩ := binder?_ok run
  · exact front.token
  · obtain ⟨_, _, _, word, -⟩ := binder_ok run
    obtain ⟨eq, kind, -⟩ := keyword_ok word
    exact ⟨_, _, eq, by obtain kind | kind := kind <;> simp [kind]⟩

/-- A type goes on behind a binder in front of a path, unless that starts with `::`. -/
theorem type_behind (run : binder? c = .ok b c₁) (front : PathFront c₁.rest p)
    (follows : startsPunct "::" c₁.rest = true → b = none) :
    type g plus c = typeAfter g b plus c₁ := by
  obtain ⟨t, us, eq, -⟩ := binder?_token run front
  have before : typeBinder? c = .ok b c₁ := by
    obtain ⟨rfl, off, rfl⟩ | ⟨_, rfl, read⟩ := binder?_ok run
    · exact look_no off
    · have off : startsPunct "::" c₁.rest = false :=
        Bool.eq_false_iff.2 fun on => nomatch follows on
      obtain ⟨_, _, _, word, -⟩ := binder_ok read
      have on : startsWord "for" c.rest = true := (take_ok word).2
      rw [typeBinder?, look_yes on, bind_of_ok read, look_yes (front.follows off)]
      rfl
  rw [type, look_no (by rw [eq]; rfl), bind_of_ok before]

/-- No type goes on with `::` behind a binder. -/
theorem type_refused {binder : Binder} {t : Ty} (run : Parse.binder c = .ok binder c₁)
    (on : startsPunct "::" c₁.rest = true) : type g plus c ≠ .ok t c' := by
  intro h
  obtain ⟨_, _, _, word, -⟩ := binder_ok run
  obtain ⟨eq, -⟩ := keyword_ok word
  have starts : startsWord "for" c.rest = true := (take_ok word).2
  obtain ⟨t, us, ahead, punct, -⟩ := startsChars_front on
  have refused : (afterBinder.any fun e => e.isMet c₁.rest) = false := by
    rw [ahead]
    simp [afterBinder, Expectation.isMet, startsIdentifier, startsKind, startsWord, token?, punct]
  rw [type, look_no (by rw [eq]; rfl)] at h
  obtain ⟨_, _, h, -⟩ := bind_ok.1 h
  rw [typeBinder?, look_yes starts, bind_of_ok run, look_no refused] at h
  exact failNoneOf_ok.1 h

variable (sound : Renderable c₁.rest)
include sound

theorem type_standing (run : binder? c = .ok b c₁) (path : pathWithInputs g c₁ = .ok p c')
    (done : c'.rest = []) (opens : p.OpensType b) :
    type g true c = .ok (standing b p) c' := by
  have front := pathWithInputs_opens path
  obtain ⟨follows, dyn, fn⟩ := (front.opensType_iff sound).1 opens
  rw [type_behind run front follows, typeAfter_path front fn, pathLike_standing path done dyn]

/-- If a type is read in the place of a bound, and is promoted to one, the path opens it. -/
theorem opens_of_type {t : Ty} {paren : Delim} {first : Bound} (run : binder? c = .ok b c₁)
    (front : PathFront c₁.rest p) (h : type g plus c = .ok t c')
    (promoted : boundOfType? paren t = some first) : p.OpensType b := by
  have follows : startsPunct "::" c₁.rest = true → b = none := by
    intro on
    obtain ⟨rfl, -⟩ | ⟨_, rfl, read⟩ := binder?_ok run
    · rfl
    · exact (type_refused read on h).elim
  rw [type_behind run front follows] at h
  refine (front.opensType_iff sound).2 ⟨follows, ?_⟩
  cases fn : startsBareFn c₁.rest with
  | true =>
    obtain ⟨u, us, eq, -⟩ := front.token
    rw [typeAfter, look_no (by rw [eq]; rfl), look_yes fn] at h
    unfold bareFnAfter at h
    simp only [↓look_ite_ok, bind_ok, pure_ok] at h
    obtain ⟨_, _, -, ⟨-, _, _, -, _, _, -, _, _, -, _, _, -, rfl, -⟩ |
      ⟨-, _, _, -, _, _, -, _, _, -, _, _, -, rfl, -⟩⟩ := h <;> cases promoted
  | false =>
    rw [typeAfter_path front fn] at h
    refine ⟨Bool.eq_false_iff.2 fun dyn => ?_, rfl⟩
    obtain ⟨word, bounds, rfl⟩ := pathLike_dyn dyn h
    cases promoted

end

/-! ## Contents of parentheses -/

section

variable {first : Bound}

theorem promotes_inParens (paren : Delim) : (inParens paren first).Promotes ↔ first.Promotes := by
  cases first <;> rfl

theorem traitBound_ok (h : traitBound g c = .ok first c') :
    ∃ modifier b p c₁ c₂, first = .traitBound none modifier b p ∧
      punct? "?" c = .ok modifier c₁ ∧ binder? c₁ = .ok b c₂ ∧ pathWithInputs g c₂ = .ok p c' := by
  simp only [traitBound, bind_ok, pure_ok] at h
  obtain ⟨modifier, c₁, query, b, c₂, before, p, _, path, rfl, rfl⟩ := h
  exact ⟨modifier, b, p, c₁, c₂, rfl, query, before, path⟩

variable (same : g.type = type g) (sound : Renderable c.rest) (run : traitBound g c = .ok first c')
include same sound run

/-- The contents of parentheses that hold a bound, if it is one that a type can stand for. -/
theorem parenContents_promotes (done : c'.rest = []) (kept : first.Promotes) :
    parenContents g c = .ok (.bound first) c' ∨ ∃ t, parenContents g c = .ok (.type t) c' ∧
      ∀ paren, boundOfType? paren t = some (inParens paren first) := by
  obtain ⟨modifier, b, p, c₁, c₂, rfl, query, before, path⟩ := traitBound_ok run
  obtain ⟨rfl, off, rfl⟩ | ⟨s, rfl, mark⟩ := punct?_ok query
  · have opens : p.OpensType b := kept.resolve_left Bool.false_ne_true
    have sound₂ : Renderable c₂.rest := (binder?_yields Renderable.inherited sound before).1
    have read : g.type true c = .ok (standing b p) c' := by
      rw [same]
      exact type_standing sound₂ before path done opens
    obtain ⟨t, us, eq, noLifetime⟩ := binder?_token before (pathWithInputs_opens path)
    refine .inr ⟨standing b p, ?_, fun paren => by cases b <;> rfl⟩
    rw [parenContents, look_no (by rw [eq]; rfl),
      look_no (by rw [eq]; simpa [startsLifetime, startsKind, token?] using noLifetime),
      look_no off, bind_of_ok read, look_no (by rw [done]; rfl)]
    rfl
  · have on := (punct_ok mark).1
    obtain ⟨t, us, eq, punct, -⟩ := startsChars_front on
    left
    rw [parenContents, look_no (by rw [eq]; rfl),
      look_no (by rw [eq]; simp [startsLifetime, startsKind, token?, punct]), look_yes on,
      bind_of_ok run]
    rfl

omit same sound in
theorem promotes_of_bound {b : Bound} (h : parenContents g c = .ok (.bound b) c₁) :
    first.Promotes := by
  obtain ⟨query, -⟩ := parenContents_bound h
  obtain ⟨modifier, b, p, _, _, rfl, mark, -⟩ := traitBound_ok run
  obtain ⟨-, off, -⟩ | ⟨s, rfl, -⟩ := punct?_ok mark
  · rw [query] at off
    cases off
  · exact .inl rfl

/-- A type stands for the bound only if it is one that a type can stand for. -/
theorem promotes_of_type {t : Ty} {paren : Delim} {b : Bound}
    (h : parenContents g c = .ok (.type t) c₁) (promoted : boundOfType? paren t = some b) :
    first.Promotes := by
  obtain ⟨modifier, b, p, c₂, c₃, rfl, query, before, path⟩ := traitBound_ok run
  obtain ⟨rfl, off, rfl⟩ | ⟨s, rfl, -⟩ := punct?_ok query
  · have sound₃ : Renderable c₃.rest := (binder?_yields Renderable.inherited sound before).1
    unfold parenContents at h
    simp only [↓look_ite_ok, bind_ok, pure_ok] at h
    obtain ⟨-, ⟨⟩, -⟩ | ⟨-, ⟨-, _, _, -, ⟨⟩, -⟩ | ⟨-, ⟨-, _, _, -, ⟨⟩, -⟩ |
      ⟨-, t, c₄, read, rest⟩⟩⟩ := h
    rw [same] at read
    obtain ⟨-, _, _, -, _, _, -, ⟨⟩, -⟩ | ⟨-, eq, -⟩ := rest
    cases eq
    exact .inr (opens_of_type sound₃ before (pathWithInputs_opens path) read promoted)
  · exact .inl rfl

end

/-! ## Two ways to a trait object -/

theorem traitObject_paren {us more : List TokenTree} {o e : Span} {t : Ty}
    (front : c.rest = .group .paren us o e :: more) (h : traitObject g true c = .ok t c') :
    ∃ first c₁ bounds, traitBound g (.ofTrees us e) = .ok first c₁ ∧ c₁.rest = [] ∧
      t = .traitObject none (.ofSeparated bounds) ∧
      listAfter boundsBeforeAngle (bound g) (inParens ⟨.paren, o⟩ first) (c.skip 1) =
        .ok bounds c' := by
  obtain ⟨_, _, word, h⟩ := bind_ok.1 h
  obtain ⟨rfl, -, rfl⟩ | ⟨_, -, word⟩ := keyword?_ok word
  · obtain ⟨bounds, _, listed, h⟩ := bind_ok.1 h
    split at h
    · obtain ⟨rfl, rfl⟩ := pure_ok.1 h
      obtain ⟨_, _, start, listed⟩ := list1_ok listed
      rw [bound, look_no (by rw [front]; rfl), look_yes (by rw [front]; rfl)] at start
      obtain ⟨_, _, start, last⟩ := bind_ok.1 start
      obtain ⟨first, c₁, run, done, rfl, rfl⟩ := (inGroup_iff front).1 start
      obtain ⟨rfl, rfl⟩ := pure_ok.1 last
      exact ⟨first, c₁, bounds, run, done, rfl, listed⟩
    · exact (fail_ok.1 h).elim
  · obtain ⟨eq, -⟩ := keyword_ok word
    rw [front] at eq
    cases eq

/-- Parentheses that hold a bound go on as a trait object, just as where bounds are asked for, if a
type can stand for the bound. -/
theorem parenthesized_promotes {us more : List TokenTree} {o e : Span} {first : Bound}
    {plus : Token} {rest : Separated Bound} (same : g.type = type g)
    (front : c.rest = .group .paren us o e :: more) (sound : Renderable us)
    (run : traitBound g (.ofTrees us e) = .ok first c₁) (done : c₁.rest = [])
    (listed : listAfter boundsBeforeAngle (bound g) (inParens ⟨.paren, o⟩ first) (c.skip 1) =
      .ok (.cons (inParens ⟨.paren, o⟩ first) plus rest) c')
    (ends : rest.acceptsValue = false) :
    parenthesized g true c =
        .ok (.traitObject none (.ofSeparated (.cons (inParens ⟨.paren, o⟩ first) plus rest))) c' ↔
      (inParens ⟨.paren, o⟩ first).Promotes := by
  rw [promotes_inParens]
  constructor
  · intro h
    obtain ⟨⟨paren, contents⟩, _, group, h⟩ := bind_ok.1 h
    obtain ⟨_, c₂, read, -, eq, rfl⟩ := (inGroup_iff front).1 group
    cases eq
    cases contents with
    | tuple | object => cases h
    | bound b => exact promotes_of_bound run read
    | type t =>
      obtain ⟨-, h⟩ | ⟨-, ⟨⟩, -⟩ := look_ite_ok.1 h
      cases promoted : boundOfType? ⟨.paren, o⟩ t with
      | none =>
        rw [promoted] at h
        cases h
      | some b => exact promotes_of_type same sound run read promoted
  · intro kept
    -- both rules stop at the same trees; they differ in a `+` at the end only
    have asks : (joined "+").asks = boundsBeforeAngle.asks := rfl
    have object : objectAfter g (inParens ⟨.paren, o⟩ first) (c.skip 1) =
        .ok (.traitObject none (.ofSeparated (.cons (inParens ⟨.paren, o⟩ first) plus rest))) c' :=
      bind_of_ok (listAfter_always asks rfl (fun _ => rfl) listed ends)
    obtain contents | ⟨t, contents, promoted⟩ :=
      parenContents_promotes same sound run done kept
    · rw [parenthesized, bind_of_ok ((inGroup_iff front).2 ⟨_, _, contents, done, rfl, rfl⟩)]
      exact object
    · have goesOn : startsPunct "+" (c.skip 1).rest = true := by
        obtain ⟨-, -, ⟨-, ⟨⟩, -⟩ | ⟨_, _, on, -⟩⟩ := listFrom_ok listed
        exact on
      rw [parenthesized, bind_of_ok ((inGroup_iff front).2 ⟨_, _, contents, done, rfl, rfl⟩)]
      refine (look_yes goesOn).trans ?_
      rw [promoted]
      exact object

end Parse

/-- A list of bounds whose first one is in parentheses is read alike in the place of a type exactly
if a type can stand for the first bound; the list has to go on at a `+` and to end in a bound. -/
theorem parseType_promoted {text file : String} {line : Int} {trees : List TokenTree}
    {c c' : Cursor} {us more : List TokenTree} {o e : Span} {dynToken : Option Token}
    {first : Bound} {plus : Token} {rest : Node (.list .bound)}
    (source : tokenize text file line = .ok trees) (within : Cursor.Over trees c)
    (front : c.rest = .group .paren us o e :: more)
    (direct : Parser.deep (fun g => Parse.traitObject g true) c =
      .ok (.traitObject dynToken (.cons first plus rest)) c')
    (ends : rest.separated.acceptsValue = false) :
    parseType true c = .ok (.traitObject dynToken (.cons first plus rest)) c' ↔
      first.Promotes := by
  have whole : Parser.deep (fun g => Parse.traitObject g true) =
      (fun g => Parse.traitObject g true) Grammar.whole :=
    Parser.deep_eq fun h => (Parse.traitObject_settles h true).smaller
  have same : Grammar.whole.type = Parse.type Grammar.whole := Parser.parseType_eq
  have sound : Renderable us := by
    have ahead := within.holds Renderable.inherited (.of_tokenize source)
    rw [front] at ahead
    exact (Renderable.inherited.cons ahead).1.inside
  rw [whole] at direct
  obtain ⟨inner, c₁, bounds, run, done, object, listed⟩ := Parse.traitObject_paren front direct
  obtain ⟨rfl, eq⟩ := Node.traitObject.inj object
  obtain rfl : bounds = .cons first plus rest.separated := by
    rw [← Node.separated_ofSeparated bounds, ← eq]
    rfl
  obtain rfl : Parse.inParens ⟨.paren, o⟩ inner = first :=
    (Option.some.inj (Parse.listFrom_first listed)).symm
  rw [object, Parser.parseType_eq, Parse.type_paren front]
  exact Parse.parenthesized_promotes same front sound run done listed ends

theorem parseType_promoted_path :
    ∃ trees c c' us more o e first plus rest, tokenize "(A)+B" "" 1 = .ok trees ∧
      Cursor.Over trees c ∧ c.rest = .group .paren us o e :: more ∧
      Parser.deep (fun g => Parse.traitObject g true) c =
        .ok (.traitObject none (.cons first plus rest)) c' ∧
      rest.separated.acceptsValue = false ∧
      (parseType true c = .ok (.traitObject none (.cons first plus rest)) c' ↔
        first.Promotes) := by
  let place (column : Int) : Span := ⟨"", 1, column, 1, column⟩
  let word (text : String) (column : Int) : Token := ⟨.identifier, text, place column, false⟩
  let name (text : String) (column : Int) : Path :=
    .path none (.last (.segment (word text column) .noArguments))
  let trees : List TokenTree :=
    [.group .paren [.token (word "A" 2)] (place 1) (place 3), .token (.punct "+" ⟨"", 1, 4, 1, 4⟩),
      .token (word "B" 5)]
  let c : Cursor := .ofTrees trees .callSite
  let first : Bound := .traitBound (some ⟨.paren, place 1⟩) none none (name "A" 2)
  let rest : Node (.list .bound) := .last (.traitBound none none none (name "B" 5))
  have source : tokenize "(A)+B" "" 1 = .ok trees := by rfl
  have direct : Parser.deep (fun g => Parse.traitObject g true) c =
      .ok (.traitObject none (.cons first (.punct "+" ⟨"", 1, 4, 1, 4⟩) rest))
        ⟨3, [], .callSite⟩ := by rfl
  exact ⟨trees, c, _, _, _, _, _, first, _, rest, source, .start _, rfl, direct, rfl,
    parseType_promoted source (.start _) rfl direct rfl⟩

/-- The word `dyn` names a trait where bounds are asked for, and starts a type. -/
theorem dyn_not_promoted :
    ∃ trees c us more o e first plus rest c', tokenize "(dyn::A)+B" "" 1 = .ok trees ∧
      Cursor.Over trees c ∧ c.rest = .group .paren us o e :: more ∧
      Parser.deep (fun g => Parse.traitObject g true) c =
        .ok (.traitObject none (.cons first plus rest)) c' ∧
      parseType true c ≠ .ok (.traitObject none (.cons first plus rest)) c' := by
  let place (column : Int) : Span := ⟨"", 1, column, 1, column⟩
  let word (text : String) (start stop : Int) : Token :=
    ⟨.identifier, text, ⟨"", 1, start, 1, stop⟩, false⟩
  let segment (text : String) (start stop : Int) : Segment :=
    .segment (word text start stop) .noArguments
  let trees : List TokenTree :=
    [.group .paren [.token (word "dyn" 2 4), .token ⟨.punct, ":", ⟨"", 1, 5, 1, 5⟩, true⟩,
      .token (.punct ":" ⟨"", 1, 6, 1, 6⟩), .token (word "A" 7 7)] (place 1) (place 8),
      .token (.punct "+" ⟨"", 1, 9, 1, 9⟩), .token (word "B" 10 10)]
  let first : Bound := .traitBound (some ⟨.paren, place 1⟩) none none (.path none
    (.cons (segment "dyn" 2 4) (.punct "::" ⟨"", 1, 5, 1, 6⟩) (.last (segment "A" 7 7))))
  refine ⟨trees, .ofTrees trees .callSite, _, _, _, _, first, .punct "+" ⟨"", 1, 9, 1, 9⟩,
    .last (.traitBound none none none (.path none (.last (segment "B" 10 10)))), ⟨3, [], .callSite⟩,
    by rfl, .start _, rfl, by rfl, fun h => ?_⟩
  cases h

end TypeGrammar
