import TaggedOutline.Outline.Basic

/-!
# Blocks

The block of a heading runs from its line up to the next heading of the same or a smaller level,
or to the end of the document. Ranges are computed from the nodes of an outline, and belong to the
text that the outline was made from.
-/

namespace TaggedOutline

/-- The range of the block of `n` among the nodes of an outline. A node that is not among them has
only its own line. -/
def blockRange (d : Document) (ordered : List Node) (n : Node) : Range :=
  match ordered.dropWhile (·.id ≠ n.id) with
  | [] => n.range
  | _ :: later =>
    match later.find? (·.level ≤ n.level) with
    | some next => ⟨n.range.start, next.range.start⟩
    | none => ⟨n.range.start, d.endPosition⟩

/-- The text of the block of a node. -/
def blockText (d : Document) (ordered : List Node) (n : Node) : Text :=
  d.textIn (blockRange d ordered n)

/-- The nodes in line order; nodes of one line keep their order. -/
def sortByLine (ns : List Node) : List Node := ns.mergeSort fun a b => decide (a.line ≤ b.line)

/-- Adds nodes to the kept ones, each unless its block lies inside the block of a kept one. -/
def keepOutermost (d : Document) (ordered : List Node) : List Node → List Node → List Node
  | kept, [] => kept
  | kept, n :: r =>
    if kept.any fun m => (blockRange d ordered m).contains (blockRange d ordered n) then
      keepOutermost d ordered kept r
    else keepOutermost d ordered (kept ++ [n]) r

/-- The selected nodes that do not lie inside the block of another selected node, in line order
and each once. -/
def outermost (d : Document) (ordered selected : List Node) : List Node :=
  keepOutermost d ordered [] (sortByLine selected)

end TaggedOutline
