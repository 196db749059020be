import TaggedOutline.Text.Basic

/-!
# Filled lines

The words of a text are set on lines of a width: a word goes on the line of the word before it if
it fits there, and starts a new line otherwise. Nothing is lost but the spaces where lines end.
-/

namespace TaggedOutline.Frontend

open Text (splitWhere)

/-- The lines that words fill after the ones that are on a line already. -/
def fillAfter (width : Nat) (line : Text) : List Text → List Text
  | [] => [line]
  | w :: ws =>
    if line.length + 1 + w.length ≤ width then fillAfter width (line ++ ' ' :: w) ws
    else line :: fillAfter width w ws

/-- The lines of a width that the words of a text fill. -/
def fill (width : Nat) (t : Text) : List Text :=
  match splitWhere (· == ' ') t with
  | [] => []
  | w :: ws => fillAfter width w ws

/-- What a text that is cut short ends with. -/
def cutMark : Text := "...".toList

/-- The text, cut short after a word if it is longer than a width. -/
def brief (width : Nat) (t : Text) : Text :=
  if t.length ≤ width then t
  else (fill (width - cutMark.length) t).headD [] ++ cutMark

end TaggedOutline.Frontend
