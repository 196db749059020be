import TaggedOutline.Heading.Basic
import TaggedOutline.Heading.Fence

/-!
# The headings of a text

The lines of a text are scanned in order with the state of the code fences. A line outside of all
code regions that has the form of a heading is one.
-/

namespace TaggedOutline.Heading

/-- The headings on lines that are numbered from `number`, read in a given fence state. -/
def ofLines (fence : Fence) (number : Int) : List Text → List Heading
  | [] => []
  | line :: rest =>
    let (code, fence') := fence.step line
    let later := ofLines fence' (number + 1) rest
    if code then later
    else match ofLine? line number with
      | some h => h :: later
      | none => later

/-- The headings of a text, in line order. -/
def ofText (t : Text) : List Heading := ofLines {} 0 (Line.contents t)

/-- The headings of a document. -/
def ofDocument (d : Document) : List Heading := ofText d.text

end TaggedOutline.Heading
