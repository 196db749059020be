import TaggedOutline.Edit.Error
import TaggedOutline.Heading.Scan
import TaggedOutline.Outline.Block
import TaggedOutline.Table

/-!
# Edits of heading lines

Levels, tags and remarks are edited on the lines of headings. `changeLines` changes the contents
of some lines and keeps every break, so all other lines stay as they are.
-/

namespace TaggedOutline

/-- Changes of the contents of lines, by the numbers of the lines. -/
abbrev LineChanges := Table Int (Text → Text)

/-- Makes the changes to the lines, which are numbered from `number`. -/
def changeFrom (changes : LineChanges) (number : Int) : List Line → List Line
  | [] => []
  | l :: r =>
    { l with content := ((changes.get? number).getD id) l.content } ::
      changeFrom changes (number + 1) r

/-- The text with the contents of some of its lines changed. -/
def changeLines (t : Text) (changes : LineChanges) : Text :=
  Line.join (changeFrom changes 0 (Line.ofText t))

/-! ## Levels -/

/-- The sign that heading lines of a markup start with. -/
def sign : Markup → Char
  | .markdown => '#'
  | .typst => '='

/-- A level between the smallest and the largest that shifting gives. -/
def clampLevel (level : Int) : Int := min 6 (max 1 level)

/-- The line of a heading with its level changed by `delta`. -/
def shiftLine (h : Heading) (delta : Int) (line : Text) : Text :=
  List.replicate (clampLevel (h.level + delta)).toNat (sign h.markup) ++ line.drop h.level.toNat

/-- Changes the levels of the headings on the given lines. Other lines are left alone. -/
def shiftLevels (d : Document) (lines : List Int) (delta : Int) : Text :=
  changeLines d.text <|
    ((Heading.ofDocument d).filter (·.line ∈ lines)).map fun h => (h.line, shiftLine h delta)

/-- Changes the levels of a heading and of all headings in its block. -/
def shiftBlock (d : Document) (ordered : List Node) (n : Node) (delta : Int) : Text :=
  let range := blockRange d ordered n
  shiftLevels d ((ordered.filter fun m => range.contains m.range).map Node.line) delta

/-! ## Tags and remarks -/

/-- The tag that a remark is found under where there is no other. -/
def defaultRemarkTag : Text := "remark".toList

/-- The heading on a line. -/
def headingAt (d : Document) (line : Int) : Except EditError Heading :=
  if 0 ≤ line ∧ line < d.lineCount then
    match (Heading.ofDocument d).find? (·.line = line) with
    | some h => .ok h
    | none => .error (.notHeading line)
  else .error (.lineOutside line d.uri)

/-- The change of the line of a heading that gives it other marks. -/
def markLine (h : Heading) (marks : Marks) : Int × (Text → Text) :=
  (h.line, fun line => Comment.update h.markup line marks)

/-- Replaces the tags of the heading on a line. Its remark is kept if a tag is. -/
def setTags (d : Document) (line : Int) (tags : List Text) (remarkTag : Text) :
    Except EditError Text := do
  let names ← (tags.mapM tagName).mapError .badTagName
  let h ← headingAt d line
  return changeLines d.text
    [markLine h (Marks.normalize { tags := names, remark := h.remark } remarkTag false)]

/-- Replaces the remark of the heading on a line, which gets the remark tag if it has no other. -/
def setRemark (d : Document) (line : Int) (remark : Option Text) (remarkTag : Text) :
    Except EditError Text := do
  let h ← headingAt d line
  return changeLines d.text
    [markLine h (Marks.normalize { tags := h.tags, remark := remark } remarkTag true)]

/-- The tags with `old` replaced by `new`, each at its first place. -/
def renameIn (old new : Text) (tags : List Text) : List Text :=
  Text.distinct (tags.map fun t => if t = old then new else t)

/-- Renames a tag in every heading that carries it. -/
def renameTag (d : Document) (old new : Text) : Except EditError Text := do
  let _ ← (tagName new).mapError .badTagName
  return changeLines d.text <|
    ((Heading.ofDocument d).filter (Text.isIn old ·.tags)).map fun h =>
      markLine h { tags := renameIn old new h.tags, remark := h.remark }

end TaggedOutline
