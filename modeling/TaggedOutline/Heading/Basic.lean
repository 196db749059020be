import TaggedOutline.Comment.Trailing
import TaggedOutline.Title.Display

/-!
# Heading lines

A Markdown heading is one to six number signs, blanks and a title; a Typst heading is any number of
equals signs and a title that is not empty. Either may end with a comment that holds its marks.
-/

namespace TaggedOutline

/-- A heading line: its markup and level, its title as written and as displayed, its place and its
marks. -/
structure Heading where
  markup : Markup
  level : Int
  text : Text
  display : Text
  line : Int
  range : Range
  tags : List Text := []
  remark : Option Text := none
  deriving DecidableEq, Repr

namespace Heading

/-- The title and the marks that follow the signs of a heading line. -/
def splitTitle (markup : Markup) (raw : Text) : Text × Marks :=
  match Comment.find? markup raw with
  | none => (Text.trim raw, {})
  | some found => (Text.trim (raw.take found.start), Marks.decode found.body)

/-- The heading with the given parts on a line of `length` characters. -/
def ofParts (markup : Markup) (line : Int) (level length : Nat) (title : Text) (marks : Marks) :
    Heading where
  markup := markup
  level := level
  text := title
  display := Title.display markup title
  line := line
  range := Range.ofLine line length
  tags := marks.tags
  remark := marks.remark

/-- The text after the number signs and blanks of a Markdown heading, and its level. It reaches to
the end of the line, of which only a final line feed may be left over. -/
def markdownTitle? (line : Text) : Option (Nat × Text) :=
  let level := (line.takeWhile (· = '#')).length
  match line.drop level with
  | c :: r =>
    if 1 ≤ level ∧ level ≤ 6 ∧ Text.isBlank c then
      let bare := Text.trimStart r
      let raw := bare.takeWhile (· ≠ '\n')
      if (bare.drop raw.length).length ≤ 1 then some (level, raw) else none
    else none
  | [] => none

/-- The text after the equals signs of a Typst heading, and its level. -/
def typstTitle? (line : Text) : Option (Nat × Text) :=
  let level := (line.takeWhile (· = '=')).length
  if level = 0 then none else some (level, line.drop level)

/-- The heading on a line, code fences aside. -/
def ofLine? (line : Text) (number : Int) : Option Heading :=
  match markdownTitle? line with
  | some (level, raw) =>
    let (title, marks) := splitTitle .markdown raw
    some (ofParts .markdown number level line.length title marks)
  | none =>
    match typstTitle? line with
    | some (level, raw) =>
      let (title, marks) := splitTitle .typst raw
      if title = [] then none else some (ofParts .typst number level line.length title marks)
    | none => none

end Heading

end TaggedOutline
