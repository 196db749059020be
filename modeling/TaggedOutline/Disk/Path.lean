import TaggedOutline.Document.Basic
import TaggedOutline.Text.Lowercase

/-!
# Paths

A path is the names between its slashes. Single dots and repeated slashes say nothing and are left
out; two dots are kept, since what they mean depends on links. The suffix of the last name tells the
markup of a document.
-/

namespace TaggedOutline

/-- A path: the slashes that it starts with, and its names. A relative path starts with none. -/
structure Path where
  anchor : Text := []
  names : List Text
  deriving DecidableEq, Repr

namespace Path

/-- The slashes that a text starts with: more than two count as one. -/
def anchorOf : Text → Text
  | '/' :: '/' :: '/' :: _ => ['/']
  | '/' :: '/' :: _ => ['/', '/']
  | '/' :: _ => ['/']
  | _ => []

/-- The names that say something between the slashes of a text. -/
def namesOf (t : Text) : List Text :=
  (Text.splitWhere (· == '/') t).filter fun n => n ≠ [] ∧ n ≠ ['.']

/-- The path that a text writes. -/
def ofText (t : Text) : Path := ⟨anchorOf t, namesOf t⟩

/-- The absolute path of some names. -/
def absolute (names : List Text) : Path := ⟨['/'], names⟩

/-- The written form. The path without names is a dot. -/
def text (p : Path) : Text :=
  if p.anchor = [] ∧ p.names = [] then ['.'] else p.anchor ++ Text.joinWith ['/'] p.names

def isAbsolute (p : Path) : Bool := p.anchor ≠ []

/-- The last name; a path without names has the empty one. -/
def name (p : Path) : Text := p.names.getLast?.getD []

def parent (p : Path) : Path := { p with names := p.names.dropLast }

/-- The path of a file that lies some names further down. -/
def join (p : Path) (names : List Text) : Path := { p with names := p.names ++ names }

/-- The slashes and names that a path is made of. -/
def parts (p : Path) : List Text := if p.anchor = [] then p.names else p.anchor :: p.names

/-- The name before its last dot, and the rest from that dot on. Nothing is cut off a name at whose
start or end the dot stands. -/
def splitName (name : Text) : Text × Text :=
  let tail := name.reverse.takeWhile (· ≠ '.')
  let stem := (name.reverse.drop (tail.length + 1)).reverse
  if tail = [] ∨ stem = [] then (name, []) else (stem, '.' :: tail.reverse)

/-- The last name without its suffix. -/
def stem (p : Path) : Text := (splitName p.name).1

/-- The end of the last name from its last dot on. -/
def suffix (p : Path) : Text := (splitName p.name).2

/-- The path with another last name. -/
def withName (p : Path) (name : Text) : Path := { p with names := p.names.dropLast ++ [name] }

/-- The path that two more dots lead to. Where nothing is known of a path but that it starts with
two dots, they are kept. -/
def up (p : Path) : Path :=
  match p.names.getLast? with
  | none => if p.isAbsolute then p else { p with names := [['.', '.']] }
  | some name =>
    if name = ['.', '.'] then { p with names := p.names ++ [['.', '.']] } else p.parent

/-- What follows the names of `base` in a path that lies below it. -/
def below? (base p : Path) : Option Path :=
  if base.anchor = p.anchor then (base.names.isPrefixOf? p.names).map (⟨[], ·⟩) else none

/-- Whether the last name has one of some suffixes, whatever its case. -/
def hasSuffix (suffixes : List Text) (p : Path) : Bool := Text.isIn (Text.lower p.suffix) suffixes

/-- The suffixes of documents with the second markup. -/
def typstSuffixes : List Text := [".typ".toList]

/-- The markup of a document at a path. -/
def markup (p : Path) : Markup := if p.hasSuffix typstSuffixes then .typst else .markdown

end Path

end TaggedOutline
