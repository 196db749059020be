import TaggedOutline.Heading.Scan
import TaggedOutline.Outline.Breadcrumb
import TaggedOutline.Outline.Tagged

/-!
# The index of tags

The index keeps the tagged headings of documents under their tags, and the breadcrumbs of all
headings under the documents. A document is indexed by dropping what the index has of it and adding
what its text has now, so that a heading stands under a tag as often as it is in the list of indexed
documents, in the order of that list and of the lines.
-/

namespace TaggedOutline

/-- The tagged headings by tag, and the breadcrumbs by document and line. -/
structure Index where
  tagged : Table Text (List TaggedHeading) := []
  crumbs : Table Text (Table Int (List Text)) := []
  deriving Repr

namespace Index

/-- Puts headings at the end of those under a tag. -/
def addUnder (hs : List TaggedHeading) (t : Table Text (List TaggedHeading)) (tag : Text) :
    Table Text (List TaggedHeading) :=
  t.put tag ((t.get? tag).getD [] ++ hs.filter fun h => Text.isIn tag h.heading.tags)

/-- Drops the headings of a document, and the tags that are left without any. -/
def dropFrom (t : Table Text (List TaggedHeading)) (uri : Text) :
    Table Text (List TaggedHeading) :=
  t.filterMap fun (tag, hs) =>
    match hs.filter (·.uri ≠ uri) with
    | [] => none
    | rest => some (tag, rest)

/-- The index without a document. -/
def remove (i : Index) (uri : Text) : Index := ⟨dropFrom i.tagged uri, i.crumbs.erase uri⟩

/-- The headings of a document, with their breadcrumbs. -/
def headingsOf (d : Document) : List TaggedHeading :=
  let hs := Heading.ofDocument d
  let crumbs := breadcrumbs hs
  hs.map fun h => ⟨h, d.uri, (crumbs.get? h.line).getD []⟩

/-- The tagged headings under the tags after those of one more document, each under all its tags. -/
def addHeadings (t : Table Text (List TaggedHeading)) (hs : List TaggedHeading) :
    Table Text (List TaggedHeading) :=
  (Text.distinct (hs.flatMap (·.heading.tags))).foldl (addUnder hs) t

/-- The index with what a document says now. -/
def add (i : Index) (d : Document) : Index :=
  let rest := i.remove d.uri
  ⟨addHeadings rest.tagged (headingsOf d), rest.crumbs.put d.uri (breadcrumbs (Heading.ofDocument d))⟩

/-! ## Queries -/

/-- The tags that headings have. -/
def tags (i : Index) : List Text := i.tagged.keys

/-- The headings under a tag. -/
def under (i : Index) (tag : Text) : List TaggedHeading := (i.tagged.get? tag).getD []

/-- The indexed documents, by name. -/
def uris (i : Index) : List Text := Text.sort i.crumbs.keys

/-- The tags of a document, by name. -/
def tagsOf (i : Index) (uri : Text) : List Text :=
  Text.sort (Table.keys (i.tagged.filter fun (_, hs) => hs.any (·.uri = uri)))

/-- The first headings of a list with their ids. -/
def distinctIds : List TaggedHeading → List TaggedHeading
  | [] => []
  | h :: r => h :: (distinctIds r).filter (·.id ≠ h.id)

/-- The headings of a document under a tag, or under any tag, by line. -/
def headingsIn (i : Index) (uri : Text) (tag : Option Text) : List TaggedHeading :=
  let candidates := match tag with
    | some tag => i.under tag
    | none => i.tagged.values.flatten
  (distinctIds (candidates.filter (·.uri = uri))).mergeSort fun a b => a.line ≤ b.line

/-- The breadcrumb of the heading on a line of a document. -/
def breadcrumb? (i : Index) (uri : Text) (line : Int) : Option (List Text) :=
  (i.crumbs.get? uri).bind (·.get? line)

end Index

end TaggedOutline
