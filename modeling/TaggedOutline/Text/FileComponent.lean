import TaggedOutline.Text.Lowercase

/-!
# File names from titles

A title is turned into a part of a file name. Each run of blanks and of characters that file names do
not take becomes a hyphen, each run of hyphens becomes a single one, and none is left at the ends.
Letters become lower case, and the result is cut after `maxComponentLength` characters.
-/

namespace TaggedOutline.Text

/-- The longest part of a file name, in characters. -/
def maxComponentLength : Nat := 60

/-- The characters that do not go into a file name. -/
def isUnsafe (c : Char) : Bool :=
  isBlank c || c ∈ ['/', '\\', ':', '?', '*', '\x22', '<', '>', '|']

/-- Each run of characters that satisfy `p` becomes a hyphen. `inRun` says that the one for the run
at the start is there already. -/
def hyphenate (p : Char → Bool) (inRun : Bool) : Text → Text
  | [] => []
  | c :: r =>
    if ¬ p c then c :: hyphenate p false r
    else if inRun then hyphenate p true r
    else '-' :: hyphenate p true r

def isHyphen (c : Char) : Bool := c == '-'

/-- The text without hyphens at either end. -/
def trimHyphens (t : Text) : Text := ((t.dropWhile isHyphen).reverse.dropWhile isHyphen).reverse

/-- The part of a file name for a title without one. -/
def untitledComponent : Text := "untitled".toList

/-- The part of a file name for a title. -/
def fileComponent (title : Text) : Text :=
  let trimmed := trim title
  if trimmed = [] then untitledComponent
  else
    let safe := hyphenate isUnsafe false trimmed
    let component := lower (trimHyphens (hyphenate isHyphen false safe))
    let cut := component.take maxComponentLength
    if cut = [] then untitledComponent else cut

end TaggedOutline.Text
