import TaggedOutline.Proofs.Outline.Breadcrumb
import TaggedOutline.Proofs.Outline.Forest

/-!
# The shape of an outline

1. The parent of a heading is the last heading before it that is less deep; it has none if all
   headings before it are at least as deep (`parentOf?_eq_some_iff`, `parentOf?_eq_none_iff`).
2. The way up from a node depends on its identifier only (`ancestorsOf_congr`), so from any node at
   all it comes to an end, and it passes less and less deep headings (`ascent_ancestorsOf`,
   `pairwise_ancestorsOf`).
3. A walk over trees with a stack passes each root before what is under it
   (`Tree.flattenAll_cons`). So an outline is determined by the levels of its headings
   (`nested_ofHeadings`).
-/

namespace TaggedOutline

variable {hs : List Heading} {pre post above : List Node} {m n p : Node}

/-- `p` is the last node of a sequence that is less deep than `level`. -/
def IsNearest (pre : List Node) (level : Int) (p : Node) : Prop :=
  ∃ front later, pre = front ++ p :: later ∧ p.level < level ∧ ∀ m ∈ later, level ≤ m.level

theorem find?_reverse_eq_some_iff {level : Int} :
    pre.reverse.find? (·.level < level) = some p ↔ IsNearest pre level p := by
  rw [List.find?_eq_some_iff_append]
  constructor
  · rintro ⟨hp, later, front, hsplit, hlater⟩
    refine ⟨front.reverse, later.reverse, ?_, of_decide_eq_true hp, fun m hm => ?_⟩
    · rw [← List.reverse_reverse pre, hsplit]
      simp
    · simpa using hlater m (List.mem_reverse.mp hm)
  · rintro ⟨front, later, rfl, hp, hlater⟩
    refine ⟨decide_eq_true hp, later.reverse, front.reverse, by simp, fun m hm => ?_⟩
    simpa using hlater m (List.mem_reverse.mp hm)

/-! ## Walking over trees -/

namespace Tree

theorem flattenAll_append (ts us : List Tree) :
    flattenAll (ts ++ us) = flattenAll ts ++ flattenAll us := by
  induction ts with
  | nil => rw [List.nil_append, flattenAll, List.nil_append]
  | cons t ts ih => rw [List.cons_append, flattenAll, ih, flattenAll, List.append_assoc]

/-- The walk with a stack of trees: after the root of the first tree come the trees under it, and
then the others. -/
theorem flattenAll_cons (t : Tree) (ts : List Tree) :
    flattenAll (t :: ts) = t.root :: flattenAll (t.children ++ ts) := by
  obtain ⟨n, children⟩ := t
  rw [flattenAll, flatten, flattenAll_append]
  rfl

end Tree

namespace Outline

/-! ## Parents -/

section Parent

variable (h : (ofHeadings hs).ordered = pre ++ n :: post)

include h

theorem parentOf?_eq_find? :
    (ofHeadings hs).parentOf? n = pre.reverse.find? (·.level < n.level) := by
  have hsplit : nodesFrom 0 hs = pre ++ n :: post := h
  have hnodup : (pre ++ n :: post).Nodup := by
    rw [← hsplit]
    exact (nodup_id_nodesFrom 0 hs).of_map
  have hnot : n ∉ pre := fun hp =>
    (List.nodup_append.mp hnodup).2.2 n hp n List.mem_cons_self rfl
  rw [parentOf?_eq_parentIn (by rw [hsplit]; simp), hsplit, parentIn_append_cons hnot]

/-- The parent of a heading is the last one before it that is less deep. -/
theorem parentOf?_eq_some_iff :
    (ofHeadings hs).parentOf? n = some p ↔ IsNearest pre n.level p := by
  rw [parentOf?_eq_find? h, find?_reverse_eq_some_iff]

/-- A heading has no parent if all headings before it are at least as deep. -/
theorem parentOf?_eq_none_iff :
    (ofHeadings hs).parentOf? n = none ↔ ∀ m ∈ pre, n.level ≤ m.level := by
  rw [parentOf?_eq_find? h, List.find?_eq_none]
  simp

end Parent

/-- Each heading is recorded with its parent. -/
theorem parents_eq_map :
    (ofHeadings hs).parents =
      (ofHeadings hs).ordered.map fun n => (n.id, (ofHeadings hs).parentOf? n) := by
  have hordered : (ofHeadings hs).ordered =
      (openedBy Node.level [] (nodesFrom 0 hs)).map Prod.fst := (map_fst_openedBy _ _ _).symm
  rw [hordered, List.map_map]
  exact List.map_congr_left fun e he => by rw [Function.comp_apply, parentOf?_eq_head? he]

/-! ## The way up -/

/-- The way up from a node, from parent to parent until there is none, passes the nodes of a list;
the last one that it passes comes first. -/
inductive Ascent (o : Outline) : Node → List Node → Prop
  | root {n : Node} : o.parentOf? n = none → Ascent o n []
  | step {n p : Node} {above : List Node} :
    o.parentOf? n = some p → Ascent o p above → Ascent o n (above ++ [p])

theorem parentOf?_congr (o : Outline) (hid : m.id = n.id) : o.parentOf? m = o.parentOf? n := by
  rw [parentOf?, parentOf?, hid]

theorem ancestorsOf_congr (o : Outline) (hid : m.id = n.id) :
    o.ancestorsOf m = o.ancestorsOf n := by
  unfold ancestorsOf
  cases o.ordered.length with
  | zero => rfl
  | succ fuel => rw [ancestorsWithin, ancestorsWithin, parentOf?_congr o hid]

/-- A node with a parent has the identifier of one of the headings. -/
theorem exists_openedBy_of_parentOf? (hp : (ofHeadings hs).parentOf? n = some p) :
    ∃ m above, m.id = n.id ∧ (m, p :: above) ∈ openedBy Node.level [] (nodesFrom 0 hs) := by
  have hget : (ofHeadings hs).parents.get? n.id = some (some p) := by
    rw [parentOf?] at hp
    exact Option.join_eq_some_iff.mp hp
  obtain ⟨⟨m, above⟩, hmem, he⟩ := List.mem_map.mp (Table.mem_of_get? hget)
  obtain ⟨hid, hhead⟩ := Prod.mk.inj he
  cases above with
  | nil => exact absurd hhead (by simp)
  | cons q above =>
    obtain rfl : q = p := by simpa using hhead
    exact ⟨m, above, hid, hmem⟩

theorem ascent_of_mem_openedBy (h : (n, above) ∈ openedBy Node.level [] (nodesFrom 0 hs)) :
    (ofHeadings hs).Ascent n above.reverse := by
  induction above generalizing n with
  | nil => exact .root (parentOf?_eq_head? h)
  | cons p above ih =>
    rw [List.reverse_cons]
    exact .step (parentOf?_eq_head? h) (ih (mem_openedBy_of_cons h))

/-- A node without a parent has nothing above it, and any other node what a heading with its
identifier has. -/
theorem ancestorsOf_cases (hs : List Heading) (n : Node) :
    ((ofHeadings hs).parentOf? n = none ∧ (ofHeadings hs).ancestorsOf n = []) ∨
      ∃ m p above, (m, p :: above) ∈ openedBy Node.level [] (nodesFrom 0 hs) ∧
        (ofHeadings hs).parentOf? n = some p ∧
        (ofHeadings hs).ancestorsOf n = above.reverse ++ [p] := by
  cases hp : (ofHeadings hs).parentOf? n with
  | none =>
    refine .inl ⟨rfl, ?_⟩
    unfold ancestorsOf
    cases (ofHeadings hs).ordered.length with
    | zero => rfl
    | succ fuel => rw [ancestorsWithin, hp]
  | some p =>
    obtain ⟨m, above, hid, hopened⟩ := exists_openedBy_of_parentOf? hp
    refine .inr ⟨m, p, above, hopened, rfl, ?_⟩
    rw [← ancestorsOf_congr _ hid, ancestorsOf_eq_reverse hopened, List.reverse_cons]

/-- The way up from any node comes to an end, and passes the headings above the node. -/
theorem ascent_ancestorsOf (hs : List Heading) (n : Node) :
    (ofHeadings hs).Ascent n ((ofHeadings hs).ancestorsOf n) := by
  rcases ancestorsOf_cases hs n with ⟨hp, hnone⟩ | ⟨m, p, above, hopened, hp, habove⟩
  · rw [hnone]
    exact .root hp
  · rw [habove]
    exact .step hp (ascent_of_mem_openedBy (mem_openedBy_of_cons hopened))

/-- The headings above any node are deeper and deeper from the outermost on. -/
theorem pairwise_ancestorsOf (hs : List Heading) (n : Node) :
    ((ofHeadings hs).ancestorsOf n).Pairwise (·.level < ·.level) := by
  rcases ancestorsOf_cases hs n with ⟨-, hnone⟩ | ⟨m, p, above, hopened, -, habove⟩
  · rw [hnone]
    exact List.Pairwise.nil
  · rw [habove, ← List.reverse_cons, List.pairwise_reverse]
    exact decreasing_of_mem_openedBy List.Pairwise.nil hopened

/-! ## The whole outline -/

/-- The outline has a node for each heading, in order and under an identifier of its own; a walk over
its trees with a stack passes the nodes in that order. The parent of a node is the last one before it
that is less deep, the roots are the nodes without a parent, and the children of a node are those
whose parent it is. The way up from any node comes to an end at the outermost of the nodes above
it. -/
theorem nested_ofHeadings (hs : List Heading) :
    let o := ofHeadings hs
    o.ordered = (hs.zipIdx.map fun e => nodeOf e.1 e.2) ∧
    (o.ordered.map Node.id).Nodup ∧
    Tree.flattenAll o.roots = o.ordered ∧
    (∀ t ts, Tree.flattenAll (t :: ts) = t.root :: Tree.flattenAll (t.children ++ ts)) ∧
    o.parents = (o.ordered.map fun n => (n.id, o.parentOf? n)) ∧
    (∀ pre n post, o.ordered = pre ++ n :: post →
      (∀ p, o.parentOf? n = some p ↔ IsNearest pre n.level p) ∧
      (o.parentOf? n = none ↔ ∀ m ∈ pre, n.level ≤ m.level)) ∧
    o.roots.map Tree.root = (o.ordered.filter fun n => o.parentOf? n = none) ∧
    (∀ p ∈ o.ordered, o.childrenOf p = o.ordered.filter fun n => o.parentOf? n = some p) ∧
    ∀ n, o.Ascent n (o.ancestorsOf n) ∧ (o.ancestorsOf n).Pairwise (·.level < ·.level) := by
  intro o
  exact ⟨nodesFrom_eq_map 0 hs, nodup_id_nodesFrom 0 hs, flattenAll_forest _,
    Tree.flattenAll_cons, parents_eq_map,
    fun pre n post h => ⟨fun p => parentOf?_eq_some_iff h, parentOf?_eq_none_iff h⟩,
    roots_eq_filter, fun p hp => childrenOf_eq_filter hp,
    fun n => ⟨ascent_ancestorsOf hs n, pairwise_ancestorsOf hs n⟩⟩

/-- A skipped level, a level below one, and headings on one line. -/
theorem nested_ofHeadings_uneven :
    let heading (level : Int) (title : Char) : Heading :=
      { markup := .markdown, level := level, text := [title], display := [title], line := 0,
        range := Range.ofLine 0 1 }
    let o := ofHeadings [heading 2 'a', heading 4 'b', heading 3 'c', heading (-1) 'd',
      heading 5 'e']
    ∃ a b c d e, o.ordered = [a, b, c, d, e] ∧ Tree.flattenAll o.roots = [a, b, c, d, e] ∧
      o.parentOf? c = some a ∧ o.parentOf? d = none ∧ o.roots.map Tree.root = [a, d] ∧
      o.childrenOf a = [b, c] ∧ o.ancestorsOf e = [d] := by
  intro heading o
  obtain ⟨hordered, -, hflatten, -, -, hparent, hroots, hchildren, -⟩ := nested_ofHeadings
    [heading 2 'a', heading 4 'b', heading 3 'c', heading (-1) 'd', heading 5 'e']
  have ha : nodeOf (heading 2 'a') 0 ∈ o.ordered := List.mem_cons_self
  refine ⟨nodeOf (heading 2 'a') 0, nodeOf (heading 4 'b') 1, nodeOf (heading 3 'c') 2,
    nodeOf (heading (-1) 'd') 3, nodeOf (heading 5 'e') 4, hordered, hflatten.trans hordered,
    ?_, ?_, ?_, ?_, by decide⟩
  · refine ((hparent [_, _] _ [_, _] hordered).1 _).mpr ⟨[], [_], rfl, by decide, by decide⟩
  · exact (hparent [_, _, _] _ [_] hordered).2.mpr (by decide)
  · exact hroots.trans (by decide)
  · exact (hchildren _ ha).trans (by decide)

end Outline

end TaggedOutline
