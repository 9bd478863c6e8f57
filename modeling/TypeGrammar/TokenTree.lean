import TypeGrammar.Token

/-!
# Token trees

A token tree is a token or a delimited group of token trees. Two views of a list of trees forget
part of it: `erase` forgets the places, `flatten` the places and the joining of punctuation.
-/

namespace TypeGrammar

/-- A token or a delimited group. -/
inductive TokenTree where
  | token (t : Token)
  | group (delimiter : Delimiter) (stream : List TokenTree) (openSpan closeSpan : Span)

namespace TokenTree

/-- Where a tree stands; a group stands where it is opened. -/
def span : TokenTree → Span
  | token t => t.span
  | group _ _ openSpan _ => openSpan

mutual

/-- Equality of trees, spans included. -/
def decEq : (a b : TokenTree) → Decidable (a = b)
  | token s, token t => if h : s = t then isTrue (by rw [h]) else isFalse (by simp [h])
  | group d ts o c, group d' ts' o' c' =>
    if h : d = d' ∧ o = o' ∧ c = c' then
      match decEqList ts ts' with
      | isTrue hs => isTrue (by simp [h.1, h.2.1, h.2.2, hs])
      | isFalse hs => isFalse (by simp [hs])
    else isFalse (by simp only [group.injEq]; intro e; exact h ⟨e.1, e.2.2.1, e.2.2.2⟩)
  | token _, group .. => isFalse (by simp)
  | group .., token _ => isFalse (by simp)

/-- Equality of lists of trees, spans included. -/
def decEqList : (as bs : List TokenTree) → Decidable (as = bs)
  | [], [] => isTrue rfl
  | a :: as, b :: bs =>
    match decEq a b, decEqList as bs with
    | isTrue h, isTrue hs => isTrue (by rw [h, hs])
    | isFalse h, _ => isFalse (by simp [h])
    | _, isFalse hs => isFalse (by simp [hs])
  | [], _ :: _ => isFalse (by simp)
  | _ :: _, [] => isFalse (by simp)

end

instance : DecidableEq TokenTree := decEq

mutual

/-- The same tree outside any file. -/
def erase : TokenTree → TokenTree
  | token t => token t.erase
  | group d ts _ _ => group d (eraseAll ts) Span.callSite Span.callSite

/-- The same trees outside any file. -/
def eraseAll : List TokenTree → List TokenTree
  | [] => []
  | t :: ts => erase t :: eraseAll ts

end

mutual

/-- The number of tokens and groups in a tree. -/
def size : TokenTree → Nat
  | token _ => 1
  | group _ ts _ _ => 1 + sizeAll ts

/-- The number of tokens and groups in a list of trees. -/
def sizeAll : List TokenTree → Nat
  | [] => 0
  | t :: ts => size t + sizeAll ts

end

end TokenTree

/-- One item of the flat view of token trees. -/
inductive FlatItem where
  | token (kind : TokenKind) (text : String)
  | delimiter (delimiter : Delimiter) (text : String)
  deriving DecidableEq, Repr

/-- The text of an item. -/
def FlatItem.text : FlatItem → String
  | token _ text => text
  | delimiter _ text => text

/-- A token as flat items: punctuation comes one character at a time. -/
def Token.flat (t : Token) : List FlatItem :=
  match t.kind with
  | .punct => t.text.toList.map fun c => .token .punct (String.singleton c)
  | kind => [.token kind t.text]

namespace TokenTree

/-- The items that a delimiter adds to the flat view; the invisible one adds none. -/
def flatDelimiter (d : Delimiter) (text : String) : List FlatItem :=
  match d with
  | .invisible => []
  | d => [.delimiter d text]

mutual

/-- The kinds and texts of a tree in order. -/
def flat : TokenTree → List FlatItem
  | token t => t.flat
  | group d ts _ _ => flatDelimiter d d.opening ++ flatten ts ++ flatDelimiter d d.closing

/-- The kinds and texts of a list of trees in order. -/
def flatten : List TokenTree → List FlatItem
  | [] => []
  | t :: ts => flat t ++ flatten ts

end

end TokenTree

/-- The single characters of a marker, each but the last joint to the next. -/
def Token.split (t : Token) : List Token :=
  go t.text.toList
where
  /-- The characters still to come. -/
  go : List Char → List Token
    | [] => []
    | c :: cs => ⟨.punct, String.singleton c, t.span, !cs.isEmpty⟩ :: go cs

end TypeGrammar
