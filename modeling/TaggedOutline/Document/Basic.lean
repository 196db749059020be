import TaggedOutline.Document.Line
import TaggedOutline.Document.Position

/-!
# Documents

A document is a text with a name and a markup. Positions are turned into offsets by its lines:
a character past the end of its line stops at the end of that line, and a line past the end of the
document at the end of the text.
-/

namespace TaggedOutline

/-- The two markups of a heading line. A heading in `markdown` starts with number signs and its
comment stands between `<!--` and `-->`; in `typst` it starts with equals signs and its comment
follows `//`. -/
inductive Markup
  | markdown
  | typst
  deriving DecidableEq, Repr

/-- A text, the name it is known by, and the markup of the comments in it. -/
structure Document where
  uri : Text
  text : Text
  markup : Markup := .markdown
  deriving DecidableEq, Repr

namespace Document

/-- The contents of the lines. -/
def lines (d : Document) : List Text := Line.contents d.text

def lineCount (d : Document) : Nat := d.lines.length

/-- The end of the last line. -/
def endPosition (d : Document) : Position :=
  let ls := d.lines
  ⟨ls.length - 1, (ls.getLast?.getD []).length⟩

/-- The offset of a character of line `k` in a sequence of lines. -/
def offsetIn : List Line → Nat → Int → Int
  | [], _, _ => 0
  | l :: _, 0, character => min character l.content.length
  | l :: ls, k + 1, character =>
    if ls = [] then l.text.length else l.text.length + offsetIn ls k character

/-- The number of characters before a position. A negative line stands for the last one. -/
def offsetAt (d : Document) (p : Position) : Int :=
  let ls := Line.ofText d.text
  offsetIn ls (if p.line < 0 then ls.length - 1 else p.line.toNat) p.character

/-- The text between the two ends of a range. -/
def textIn (d : Document) (r : Range) : Text :=
  Text.slice d.text (d.offsetAt r.start) (d.offsetAt r.stop)

end Document

end TaggedOutline
