import TaggedOutline.Text.Basic

/-!
# Similar words

Two words are compared by what they have in common: the longest piece of one that is also in the
other, and what the parts before it and after it have in common in turn. Words are similar if that
makes up three fifths of both or more.
-/

namespace TaggedOutline.Frontend

open Text (precedes sort)

/-- The number of characters that two texts start with alike. -/
def commonStart : Text → Text → Nat
  | a :: r, b :: s => if a = b then commonStart r s + 1 else 0
  | _, _ => 0

/-- A piece that two texts share: where it starts in each of them, and its length. -/
structure Shared where
  left : Nat
  right : Nat
  length : Nat

/-- The pieces that two texts share, by their starts in the first and then in the second. -/
def sharedPieces (a b : Text) : List Shared :=
  (List.range a.length).flatMap fun i =>
    (List.range b.length).map fun j => ⟨i, j, commonStart (a.drop i) (b.drop j)⟩

/-- The first of the longest pieces that two texts share. -/
def longestShared (a b : Text) : Shared :=
  (sharedPieces a b).foldl (fun best s => if best.length < s.length then s else best) ⟨0, 0, 0⟩

/-- The number of characters that two texts have in common. There are at most `fuel` pieces inside
of one another. -/
def inCommonFrom : Nat → Text → Text → Nat
  | 0, _, _ => 0
  | fuel + 1, a, b =>
    let s := longestShared a b
    if s.length = 0 then 0
    else
      inCommonFrom fuel (a.take s.left) (b.take s.right) + s.length +
        inCommonFrom fuel (a.drop (s.left + s.length)) (b.drop (s.right + s.length))

/-- The number of characters that two texts have in common. -/
def inCommon (a b : Text) : Nat := inCommonFrom a.length a b

/-- A candidate and how much of both words is in common, as a fraction. -/
structure Similarity where
  candidate : Text
  common : Nat
  total : Nat

/-- Whether the fraction is three fifths or more. -/
def Similarity.suffices (s : Similarity) : Bool := 3 * s.total ≤ 10 * s.common

/-- The order of the more similar candidates, and of those that are alike the later by name. -/
def Similarity.before (s t : Similarity) : Bool :=
  let left := s.common * t.total
  let right := t.common * s.total
  right < left || (left = right && precedes t.candidate s.candidate)

/-- Whether the shorter of two words is long enough for them to be similar. -/
def mayBeSimilar (a b : Text) : Bool := 3 * (a.length + b.length) ≤ 10 * min a.length b.length

/-- The most candidates that are suggested for a word. -/
def suggestionLimit : Nat := 3

/-- The candidates that are similar to a word, by name. -/
def similarTo (word : Text) (candidates : List Text) : List Text :=
  let compared : List Similarity :=
    (candidates.filter (mayBeSimilar · word)).map fun c =>
      ⟨c, inCommon c word, c.length + word.length⟩
  let found := ((compared.filter (·.suffices)).mergeSort Similarity.before).take suggestionLimit
  sort (found.map (·.candidate))

end TaggedOutline.Frontend
