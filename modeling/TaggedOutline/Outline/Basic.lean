import TaggedOutline.Heading.Basic
import TaggedOutline.Table

/-!
# Outlines

Headings nest by level: a heading belongs under the nearest earlier heading of a smaller level.
`openedBy` is that rule as a walk with the stack of open headings; `forest` builds the trees. An
outline holds the trees, the nodes in document order and the parent of each node.
-/

namespace TaggedOutline

/-- A heading in an outline. Its identifier is unique within the outline. -/
structure Node where
  id : Text
  label : Text
  level : Int
  markup : Markup
  range : Range
  deriving DecidableEq, Repr

/-- The line of the heading. -/
def Node.line (n : Node) : Int := n.range.start.line

/-- A heading and the trees of the headings under it. -/
inductive Tree
  | node (root : Node) (children : List Tree)
  deriving Repr

namespace Tree

def root : Tree → Node
  | node n _ => n

def children : Tree → List Tree
  | node _ ts => ts

mutual

/-- The headings of a tree, each before those under it. -/
def flatten : Tree → List Node
  | node n ts => n :: flattenAll ts

/-- The headings of some trees, tree by tree. -/
def flattenAll : List Tree → List Node
  | [] => []
  | t :: ts => flatten t ++ flattenAll ts

end

mutual

/-- The tree under the node with the given identifier. -/
def find? (id : Text) : Tree → Option Tree
  | node n ts => if n.id = id then some (node n ts) else findIn? id ts

/-- The first tree under the node with the given identifier among some trees. -/
def findIn? (id : Text) : List Tree → Option Tree
  | [] => none
  | t :: ts => (find? id t).or (findIn? id ts)

end

end Tree

/-- The trees of a sequence of headings: each heading takes the deeper headings that directly
follow it. -/
def forest : List Node → List Tree
  | [] => []
  | n :: r =>
    .node n (forest (r.takeWhile (n.level < ·.level))) ::
      forest (r.dropWhile (n.level < ·.level))
  termination_by ns => ns.length
  decreasing_by
    · have := (List.takeWhile_sublist (l := r) fun m => decide (n.level < m.level)).length_le
      simp only [List.length_cons]
      omega
    · have := (List.dropWhile_sublist (l := r) fun m => decide (n.level < m.level)).length_le
      simp only [List.length_cons]
      omega

/-- Each item of a sequence with the items it lies under, the innermost first, when `stack` holds
the items that are open before the sequence. -/
def openedBy {α : Type} (level : α → Int) : List α → List α → List (α × List α)
  | _, [] => []
  | stack, a :: r =>
    let above := stack.dropWhile (level a ≤ level ·)
    (a, above) :: openedBy level (a :: above) r

/-- The headings of a document as trees, as a sequence, and with their parents. -/
structure Outline where
  roots : List Tree := []
  ordered : List Node := []
  parents : Table Text (Option Node) := []

namespace Outline

/-- The node of the heading that comes at place `ordinal` of its document. -/
def nodeOf (h : Heading) (ordinal : Nat) : Node where
  id := Text.ofInt h.line ++ '-' :: Text.ofNat ordinal
  label := h.text
  level := h.level
  markup := h.markup
  range := h.range

/-- The nodes of a sequence of headings, the first of which comes at place `ordinal`. -/
def nodesFrom (ordinal : Nat) : List Heading → List Node
  | [] => []
  | h :: hs => nodeOf h ordinal :: nodesFrom (ordinal + 1) hs

/-- The outline of a sequence of headings. -/
def ofHeadings (hs : List Heading) : Outline :=
  let nodes := nodesFrom 0 hs
  { roots := forest nodes
    ordered := nodes
    parents := (openedBy Node.level [] nodes).map fun (n, above) => (n.id, above.head?) }

/-- The heading directly above a node. -/
def parentOf? (o : Outline) (n : Node) : Option Node := (o.parents.get? n.id).join

/-- The headings directly under a node. -/
def childrenOf (o : Outline) (n : Node) : List Node :=
  match Tree.findIn? n.id o.roots with
  | some t => t.children.map Tree.root
  | none => []

/-- The headings under the same parent, the node itself among them. -/
def siblingsOf (o : Outline) (n : Node) : List Node :=
  match o.parentOf? n with
  | some p => o.childrenOf p
  | none => o.roots.map Tree.root

/-- The last `fuel` headings above a node, the outermost first. -/
def ancestorsWithin (o : Outline) : Nat → Node → List Node
  | 0, _ => []
  | fuel + 1, n =>
    match o.parentOf? n with
    | some p => ancestorsWithin o fuel p ++ [p]
    | none => []

/-- The headings above a node, the outermost first. -/
def ancestorsOf (o : Outline) (n : Node) : List Node := o.ancestorsWithin o.ordered.length n

/-- The first heading on a line. -/
def findByLine? (o : Outline) (line : Int) : Option Node := o.ordered.find? (·.line = line)

/-- The last heading at or before a line. -/
def headingAtLine? (o : Outline) (line : Int) : Option Node :=
  (o.ordered.takeWhile (·.line ≤ line)).getLast?

end Outline

end TaggedOutline
