import TaggedOutline.Edit.Error
import TaggedOutline.Outline.Block

/-!
# Edits of blocks

Blocks are deleted and moved as wholes. The nodes come from an outline of the very text that is
edited. `removeBlocks` cuts blocks out of a text; `relocate` puts them back in one piece at another
place. A block that lacks its final break gets one when it is moved, and a break of that kind is
taken off the end of the text again.
-/

namespace TaggedOutline

/-- The block of a node: its range, the offsets of its ends, and its text. -/
structure Block where
  node : Node
  range : Range
  start : Nat
  stop : Nat
  text : Text

namespace Block

/-- The block of a node of a document. -/
def ofNode (d : Document) (ordered : List Node) (n : Node) : Block :=
  let range := blockRange d ordered n
  { node := n
    range := range
    start := (d.offsetAt range.start).toNat
    stop := (d.offsetAt range.stop).toNat
    text := d.textIn range }

/-- The blocks of the outermost selected nodes. -/
def select (d : Document) (ordered selected : List Node) : List Block :=
  (outermost d ordered selected).map (ofNode d ordered)

end Block

/-- The text without the blocks, the last of which is cut out first. -/
def removeBlocks (t : Text) (blocks : List Block) : Text :=
  blocks.foldr (fun b t => t.take b.start ++ t.drop b.stop) t

/-- The text of a document without the blocks of the selected nodes. -/
def deleteBlocks (d : Document) (ordered selected : List Node) : Text :=
  removeBlocks d.text (Block.select d ordered selected)

/-- The break that new line ends are written with: a carriage return and a line feed if there is
one in the text. -/
def lineBreak (t : Text) : Text :=
  if (Line.ofText t).any (·.terminator = .crlf) then ['\r', '\n'] else ['\n']

/-- A text with a break at its end. -/
def terminated (newline t : Text) : Text :=
  if Text.endsWith ['\n'] t then t else t ++ newline

/-- The text of a document with the blocks moved to offset `target`, which lies outside of them. -/
def relocate (d : Document) (blocks : List Block) (target : Nat) : Text :=
  let newline := lineBreak d.text
  let removedBefore := (blocks.filter (·.start < target)).foldl (fun n b => n + (b.stop - b.start)) 0
  let bare := removeBlocks d.text blocks
  let moved := blocks.flatMap fun b => terminated newline b.text
  let place := target - removedBefore
  let atOpenEnd := bare.length ≤ place ∧ bare ≠ [] ∧ ¬ Text.endsWith ['\n'] bare
  let rest := if atOpenEnd then bare ++ newline else bare
  let place := if atOpenEnd then rest.length else place
  let result := rest.take place ++ moved ++ rest.drop place
  if Text.endsWith ['\n'] d.text then result else (Text.before? newline result).getD result

/-- Moves nodes of one parent by `offset` places among its children. A move beyond the first or the
last of them changes nothing. -/
def moveBlocks (o : Outline) (d : Document) (selected : List Node) (offset : Int) :
    Except EditError Text :=
  match sortByLine selected with
  | [] => .ok d.text
  | first :: rest =>
    let parent := (o.parentOf? first).map Node.id
    if rest.any fun n => (o.parentOf? n).map Node.id ≠ parent then .error .differentParents
    else
      let siblings := o.siblingsOf first
      let places := (first :: rest).map fun n => siblings.findIdx (·.id = n.id)
      let place : Int :=
        if offset < 0 then places.foldl min siblings.length + offset
        else places.foldl max 0 + offset
      if place < 0 then .ok d.text
      else match siblings[place.toNat]? with
        | none => .ok d.text
        | some sibling =>
          let range := blockRange d o.ordered sibling
          let target := d.offsetAt (if offset < 0 then range.start else range.stop)
          .ok (relocate d (Block.select d o.ordered selected) target.toNat)

/-- Moves nodes before `target`, or to the end of the document if there is none. -/
def moveBlocksBefore (o : Outline) (d : Document) (selected : List Node) (target : Option Node) :
    Except EditError Text :=
  match Block.select d o.ordered selected with
  | [] => .ok d.text
  | blocks@(_ :: _) =>
    match target with
    | none => .ok (relocate d blocks d.text.length)
    | some n =>
      let range := blockRange d o.ordered n
      if blocks.any fun b => b.range.contains range || range.contains b.range then
        .error .intoOwnSubtree
      else .ok (relocate d blocks (d.offsetAt range.start).toNat)

end TaggedOutline
