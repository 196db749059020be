import TaggedOutline.Edit.Error
import TaggedOutline.Heading.Scan
import TaggedOutline.Outline.Block
import TaggedOutline.Outline.Tagged

/-!
# New documents from blocks

A block is exported as a document of its own, and the blocks of tagged headings of several
documents are gathered into one. New documents have line feeds for breaks and end with one.
-/

namespace TaggedOutline

/-- The block of a node as a document of its own, after a preamble if there is one. -/
def exportBlock (d : Document) (ordered : List Node) (n : Node) (preamble : Text) : Text :=
  let opening := Text.trim (Text.unifyBreaks preamble)
  let block := Text.trimStart (Text.unifyBreaks (blockText d ordered n))
  let combined := if opening = [] then block else opening ++ ['\n', '\n'] ++ block
  if Text.endsWith ['\n'] combined then combined else combined ++ ['\n']

/-- What a header line of a Typst document starts with. -/
def headerStarts : List Text := ["#import".toList, "#set".toList, "#show".toList]

/-- The header lines among some lines: the search ends at a line with other content that does not
start with a number sign. -/
def headersOf : List Text → List Text
  | [] => []
  | line :: rest =>
    let bare := Text.trim line
    if headerStarts.any (Text.startsWith · bare) then line :: headersOf rest
    else if bare ≠ [] ∧ bare.head? ≠ some '#' then []
    else headersOf rest

/-- The header lines that open a Typst document. A Markdown document has none. -/
def fileHeaders (d : Document) : List Text :=
  match d.markup with
  | .typst => headersOf d.lines
  | .markdown => []

/-- The signs of a heading that is written anew. Markdown has no more than six. -/
def markerText : Markup → Nat → Text
  | .typst, level => List.replicate level '='
  | .markdown, level => List.replicate (min level 6) '#'

/-- The headings above a gathered block, one level each, from `level` on. -/
def ancestorLines (markup : Markup) (level : Nat) : List Text → List Text
  | [] => []
  | label :: r =>
    (markerText markup level ++ ' ' :: label) :: ancestorLines markup (level + 1) r

/-- The section of a gathered block: the headings above it, and its text. -/
def sectionOf (d : Document) (ordered : List Node) (breadcrumb : List Text) (n : Node) : Text :=
  let block := Text.dropFinalFeeds (Text.unifyBreaks (blockText d ordered n))
  Text.joinWith ['\n'] (ancestorLines d.markup 1 breadcrumb.dropLast ++ [block])

/-- The blocks that are to be gathered, by document and by line; the first of a line counts. -/
def groupByDocument (blocks : List TaggedHeading) : Table Text (Table Int TaggedHeading) :=
  blocks.foldl (fun groups b =>
    let group := (groups.get? b.uri).getD []
    groups.put b.uri (if group.has b.line then group else group ++ [(b.line, b)])) []

/-- The nodes on the lines of a group. -/
def nodesOn (o : Outline) (uri : Text) (group : Table Int TaggedHeading) :
    Except EditError (List Node) :=
  group.keys.mapM fun line =>
    match o.findByLine? line with
    | some n => .ok n
    | none => .error (.headingMissing line uri)

/-- The sections of a group of blocks. -/
def sectionsOf (d : Document) (uri : Text) (group : Table Int TaggedHeading) :
    Except EditError (List Text) := do
  let o := Outline.ofHeadings (Heading.ofDocument d)
  let nodes ← nodesOn o uri group
  return (outermost d o.ordered nodes).map fun n =>
    sectionOf d o.ordered (((group.get? n.line).map (·.breadcrumb)).getD []) n

/-- What the documents of some groups contribute: their markups, their header lines and their
sections. -/
def gatherGroups (documents : Table Text Document) :
    Table Text (Table Int TaggedHeading) →
    Except EditError (List (Markup × List Text × List Text))
  | [] => .ok []
  | (uri, group) :: r => do
    let d ← match documents.get? uri with
      | some d => .ok d
      | none => .error (.documentMissing uri)
    let sections ← sectionsOf d uri group
    let later ← gatherGroups documents r
    return (d.markup, fileHeaders d, sections) :: later

/-- Gathers the blocks of tagged headings into one document: the header lines of all documents,
a title, and the sections. The first document decides how the title is written. -/
def gatherBlocks (documents : Table Text Document) (blocks : List TaggedHeading)
    (title : Option Text) : Except EditError Text := do
  let parts ← gatherGroups documents (groupByDocument blocks)
  let headers := Text.distinct (parts.flatMap (·.2.1))
  let markup := (parts.head?.map (·.1)).getD .typst
  let titleText := Text.trim (title.getD [])
  let pieces :=
    (if headers = [] then [] else [Text.joinWith ['\n'] headers]) ++
    (if titleText = [] then [] else [markerText markup 1 ++ ' ' :: titleText]) ++
    parts.flatMap (·.2.2)
  return Text.joinWith ['\n', '\n'] pieces ++ ['\n']

end TaggedOutline
