import Mathlib.Data.List.Find
import Mathlib.Data.List.Pairwise
import Mathlib.Data.List.Perm.Basic
import TaggedOutline.Proofs.Outline.Forest

/-!
# Branches in another order

1. A sequence of headings is one of branches, of which none is rooted deeper than one before it:
   a heading has its parent in its branch, and the roots have none (`exists_branches`,
   `parentIn_nodesOf`).
2. The headings with one parent are the roots of branches that stand in a row (`exists_family`).
   In another order of these branches all headings keep their parents iff again no branch is
   rooted deeper than one before it (`Family.parentIn_eq_iff`), and then the children of any other
   heading keep their order too (`Family.filter_parentIn_eq`).
-/

namespace TaggedOutline

variable {ns a b : List Node} {m n p : Node}

/-! ## Parents in a sequence of two parts -/

theorem parentIn_append_left (hm : m ∈ a) : parentIn (a ++ b) m = parentIn a m := by
  obtain ⟨pre, post, rfl, hnot⟩ := List.eq_append_cons_of_mem hm
  rw [List.append_assoc, List.cons_append, parentIn_append_cons hnot, parentIn_append_cons hnot]

theorem parentIn_append_right (hm : m ∈ b) (hnot : m ∉ a) :
    parentIn (a ++ b) m = (parentIn b m).or (a.reverse.find? (·.level < m.level)) := by
  obtain ⟨pre, post, rfl, hpre⟩ := List.eq_append_cons_of_mem hm
  rw [← List.append_assoc, parentIn_append_cons (by simp [hnot, hpre]), parentIn_append_cons hpre,
    List.reverse_append, List.find?_append]

/-- Headings that are replaced by others of the same levels keep their parents. -/
theorem parentIn_map {carry : Node → Node} (hinj : ∀ m ∈ ns, ∀ n ∈ ns, carry m = carry n → m = n)
    (hlevel : ∀ m ∈ ns, (carry m).level = m.level) (hn : n ∈ ns) :
    parentIn (ns.map carry) (carry n) = (parentIn ns n).map carry := by
  obtain ⟨pre, post, rfl, hnot⟩ := List.eq_append_cons_of_mem hn
  have hnot' : carry n ∉ pre.map carry := by
    intro hmem
    obtain ⟨m, hm, heq⟩ := List.mem_map.mp hmem
    obtain rfl := hinj m (List.mem_append_left _ hm) n hn heq
    exact hnot hm
  rw [List.map_append, List.map_cons, parentIn_append_cons hnot', parentIn_append_cons hnot,
    ← List.map_reverse, List.find?_map]
  refine congrArg _ (List.find?_congr fun m hm => ?_)
  rw [Function.comp_apply, hlevel n hn, hlevel m (List.mem_append_left _ (List.mem_reverse.mp hm))]

/-- No heading before one without a parent is less deep. -/
theorem level_le_of_parentIn_eq_none (h : parentIn (a ++ n :: b) n = none) (hn : n ∉ a)
    (hm : m ∈ a) : n.level ≤ m.level := by
  rw [parentIn_append_cons hn] at h
  have := List.find?_eq_none.mp h m (List.mem_reverse.mpr hm)
  simpa using this

theorem level_le_head_of_parentIn_eq_none (h : parentIn ns m = none) (hm : m ∈ ns) :
    ∀ n ∈ ns.head?, m.level ≤ n.level := by
  obtain ⟨pre, post, rfl, hnot⟩ := List.eq_append_cons_of_mem hm
  intro n hn
  cases pre with
  | nil =>
    obtain rfl : m = n := Option.some.inj hn
    exact Int.le_refl _
  | cons first pre =>
    obtain rfl : first = n := Option.some.inj hn
    exact level_le_of_parentIn_eq_none h hnot List.mem_cons_self

/-! ## Branches -/

/-- A heading and headings under it. -/
structure Branch where
  root : Node
  under : List Node
  deeper : ∀ m ∈ under, root.level < m.level

/-- The headings of a branch, the root first. -/
def Branch.nodes (b : Branch) : List Node := b.root :: b.under

/-- The headings of some branches in a row. -/
def nodesOf (bs : List Branch) : List Node := bs.flatMap Branch.nodes

/-- No branch is rooted deeper than one before it. -/
def Descending (bs : List Branch) : Prop := bs.Pairwise fun b c => c.root.level ≤ b.root.level

section Branches

variable {bs bs' : List Branch} {c : Branch}

theorem nodesOf_cons (c : Branch) (bs : List Branch) : nodesOf (c :: bs) = c.nodes ++ nodesOf bs :=
  List.flatMap_cons

theorem nodesOf_append (bs bs' : List Branch) : nodesOf (bs ++ bs') = nodesOf bs ++ nodesOf bs' :=
  List.flatMap_append

theorem mem_nodesOf : m ∈ nodesOf bs ↔ ∃ c ∈ bs, m ∈ c.nodes := List.mem_flatMap

theorem root_mem_nodes (c : Branch) : c.root ∈ c.nodes := List.mem_cons_self

theorem root_mem_nodesOf (hc : c ∈ bs) : c.root ∈ nodesOf bs :=
  mem_nodesOf.mpr ⟨c, hc, root_mem_nodes c⟩

/-- A sequence of headings is one of branches. -/
theorem exists_branches (ns : List Node) : ∃ bs, nodesOf bs = ns ∧ Descending bs := by
  induction ns using forest_induction with
  | nil => exact ⟨[], rfl, List.Pairwise.nil⟩
  | cons n under after hunder hafter _ ih =>
    obtain ⟨bs, rfl, hbs⟩ := ih
    refine ⟨⟨n, under, hunder⟩ :: bs, rfl, List.pairwise_cons.mpr ⟨fun c hc => ?_, hbs⟩⟩
    cases bs with
    | nil => exact absurd hc (by simp)
    | cons first bs =>
      have hfirst : first.root.level ≤ n.level := hafter first.root rfl
      rcases List.mem_cons.mp hc with rfl | hc
      · exact hfirst
      · exact Int.le_trans ((List.pairwise_cons.mp hbs).1 c hc) hfirst

/-- In descending branches the roots have no parents, and all other headings have theirs in their
branches. -/
theorem parentIn_nodesOf (hbs : Descending bs) (hnodup : (nodesOf bs).Nodup) (hc : c ∈ bs)
    (hm : m ∈ c.nodes) : parentIn (nodesOf bs) m = parentIn c.nodes m := by
  induction bs with
  | nil => exact absurd hc (by simp)
  | cons first bs ih =>
    obtain ⟨hfirst, hrest⟩ := List.pairwise_cons.mp hbs
    have hhead : ∀ x ∈ (nodesOf bs).head?, x.level ≤ first.root.level := by
      cases bs with
      | nil => exact fun x hx => absurd hx (by simp [nodesOf])
      | cons next bs =>
        rintro x hx
        obtain rfl : next.root = x := Option.some.inj hx
        exact hfirst next List.mem_cons_self
    rw [nodesOf_cons] at hnodup ⊢
    rcases List.mem_cons.mp hc with rfl | hc
    · exact parentIn_append_left hm
    · have hafter : m ∈ nodesOf bs := mem_nodesOf.mpr ⟨c, hc, hm⟩
      rw [← ih hrest (List.nodup_append.mp hnodup).2.1 hc]
      exact parentIn_of_mem_after first.deeper hhead hnodup hafter

theorem parentIn_root (c : Branch) : parentIn c.nodes c.root = none := by
  rw [Branch.nodes, parentIn, List.takeWhile_cons_of_neg (by simp)]
  rfl

theorem exists_parentIn_nodes (hnodup : c.nodes.Nodup) (hm : m ∈ c.under) :
    ∃ q ∈ c.nodes, parentIn c.nodes m = some q := by
  have hwhole : c.root :: (c.under ++ []) = c.nodes := by rw [List.append_nil, Branch.nodes]
  have hunder := parentIn_of_mem_under c.deeper (hwhole ▸ hnodup) hm
  rw [hwhole] at hunder
  cases hq : parentIn c.under m with
  | none => exact ⟨c.root, root_mem_nodes c, by rw [hunder, hq]; rfl⟩
  | some q => exact ⟨q, List.mem_cons_of_mem _ (mem_of_parentIn hq), by rw [hunder, hq]; rfl⟩

/-- Branches of which no root has a parent are descending. -/
theorem descending_of_parentIn (pre : List Node) (hnodup : (pre ++ nodesOf bs).Nodup)
    (h : ∀ c ∈ bs, parentIn (pre ++ nodesOf bs) c.root = none) : Descending bs := by
  induction bs generalizing pre with
  | nil => exact List.Pairwise.nil
  | cons first bs ih =>
    rw [nodesOf_cons, ← List.append_assoc] at hnodup h
    refine List.pairwise_cons.mpr ⟨fun c hc => ?_, ih _ hnodup fun c hc =>
      h c (List.mem_cons_of_mem first hc)⟩
    have hroot : c.root ∈ nodesOf bs := root_mem_nodesOf hc
    have hnot : c.root ∉ pre ++ first.nodes := fun hp =>
      (List.nodup_append.mp hnodup).2.2 _ hp _ hroot rfl
    have hnone := h c (List.mem_cons_of_mem first hc)
    rw [parentIn_append_right hroot hnot, Option.or_eq_none_iff] at hnone
    have := List.find?_eq_none.mp hnone.2 first.root (by simp [root_mem_nodes])
    simpa using this

/-- The headings of some of the branches. -/
theorem filter_nodesOf {p : Node → Bool} {q : Branch → Bool}
    (h : ∀ c ∈ bs, ∀ m ∈ c.nodes, p m = q c) : (nodesOf bs).filter p = nodesOf (bs.filter q) := by
  induction bs with
  | nil => rfl
  | cons first bs ih =>
    have hfirst := h first List.mem_cons_self
    rw [nodesOf_cons, List.filter_append, ih fun c hc => h c (List.mem_cons_of_mem first hc),
      List.filter_cons]
    cases hq : q first with
    | true =>
      rw [List.filter_eq_self.mpr fun m hm => (hfirst m hm).trans hq, if_pos rfl, nodesOf_cons]
    | false =>
      rw [List.filter_eq_nil_iff.mpr fun m hm => by rw [hfirst m hm, hq]; simp, if_neg (by simp),
        List.nil_append]

/-- A heading lies in one branch only. -/
theorem branch_eq_of_mem (hnodup : (nodesOf bs).Nodup) {c' : Branch} (hc : c ∈ bs) (hc' : c' ∈ bs)
    (hm : m ∈ c.nodes) (hm' : m ∈ c'.nodes) : c = c' := by
  by_contra hne
  have hapart : bs.Pairwise fun b b' => List.Disjoint b.nodes b'.nodes :=
    (List.nodup_flatMap.mp hnodup).2
  have : Std.Symm fun b b' : Branch => List.Disjoint b.nodes b'.nodes :=
    ⟨fun _ _ hd _ hx hy => hd hy hx⟩
  exact hapart.forall hc hc' hne hm hm'

end Branches

/-- Items of which no two have anything to give can be taken in any order. -/
theorem flatMap_eq_of_perm {α β : Type} {f : α → List β} {l l' : List α} (hperm : l.Perm l')
    (h : ∀ a ∈ l, ∀ b ∈ l, f a ≠ [] → f b ≠ [] → a = b) : l.flatMap f = l'.flatMap f := by
  induction hperm with
  | nil => rfl
  | cons a _ ih =>
    rw [List.flatMap_cons, List.flatMap_cons,
      ih fun x hx y hy => h x (List.mem_cons_of_mem a hx) y (List.mem_cons_of_mem a hy)]
  | swap a b l =>
    rw [List.flatMap_cons, List.flatMap_cons, List.flatMap_cons, List.flatMap_cons]
    by_cases ha : f a = []
    · rw [ha, List.nil_append, List.nil_append]
    · by_cases hb : f b = []
      · rw [hb, List.nil_append, List.nil_append]
      · rw [h a (by simp) b (by simp) ha hb]
  | trans hperm _ ih ih' =>
    rw [ih h, ih' fun x hx y hy => h x (hperm.mem_iff.mpr hx) y (hperm.mem_iff.mpr hy)]

/-! ## Branches with one parent -/

/-- No heading outside of the branches below `p` has `p` as its parent: those up to it stand before
what is below it, and the first one after the branches is no deeper. -/
theorem parentIn_ne_of_outside {pre under back : List Node} {p : Node}
    (hnodup : (pre ++ p :: under ++ back).Nodup) (hpre : p ∉ pre)
    (hhead : ∀ n ∈ back.head?, n.level ≤ p.level) (hm : m ∈ pre ++ [p] ∨ m ∈ back) :
    parentIn (pre ++ p :: under ++ back) m ≠ some p := by
  intro hmp
  rcases hm with hm | hm
  · -- The parent of a heading stands before it.
    rcases List.mem_append.mp hm with hm | hm
    · rw [List.append_assoc, parentIn_append_left hm] at hmp
      exact hpre (mem_of_parentIn hmp)
    · obtain rfl := List.mem_singleton.mp hm
      rw [List.append_assoc, List.cons_append, parentIn_append_cons hpre] at hmp
      exact hpre (List.mem_reverse.mp (List.mem_of_find?_eq_some hmp))
  · have hapart := (List.nodup_append.mp hnodup).2.2
    rw [parentIn_append_right hm fun hfront => hapart m hfront m hm rfl] at hmp
    cases hq : parentIn back m with
    | some q =>
      rw [hq] at hmp
      obtain rfl : q = p := Option.some.inj hmp
      exact hapart q (by simp) q (mem_of_parentIn hq) rfl
    | none =>
      rw [hq, Option.none_or] at hmp
      have hlevel := List.find?_some hmp
      rw [decide_eq_true_eq] at hlevel
      obtain ⟨first, rest, hback⟩ := List.exists_cons_of_ne_nil (List.ne_nil_of_mem hm)
      have hfirst : first ∈ back.head? := by rw [hback]; rfl
      have hle := level_le_head_of_parentIn_eq_none hq hm first hfirst
      have := hhead first hfirst
      omega

/-- The headings with one parent are the roots of branches that stand in a row. -/
structure Family (ns : List Node) (parent : Option Node) (front : List Node) (bs : List Branch)
    (back : List Node) : Prop where
  split : ns = front ++ nodesOf bs ++ back
  descending : Descending bs
  above : ∀ m ∈ nodesOf bs, front.reverse.find? (·.level < m.level) = parent
  below : ∀ m ∈ nodesOf bs, ∀ n ∈ back.head?, n.level ≤ m.level
  others : ∀ m, m ∈ front ∨ m ∈ back → parentIn ns m ≠ parent

theorem exists_family {parent : Option Node} (hnodup : ns.Nodup) (hparent : ∀ p ∈ parent, p ∈ ns) :
    ∃ front bs back, Family ns parent front bs back := by
  cases parent with
  | none =>
    obtain ⟨bs, rfl, hbs⟩ := exists_branches ns
    exact ⟨[], bs, [], ⟨by simp, hbs, fun m _ => rfl, by simp, by simp⟩⟩
  | some p =>
    obtain ⟨pre, post, rfl, hpre⟩ := List.eq_append_cons_of_mem (hparent p rfl)
    obtain ⟨bs, hnodes, hbs⟩ := exists_branches (post.takeWhile (p.level < ·.level))
    have hdeeper : ∀ m ∈ nodesOf bs, p.level < m.level := by
      intro m hm
      rw [hnodes] at hm
      simpa using List.mem_takeWhile_imp hm
    have hhead : ∀ n ∈ (post.dropWhile (p.level < ·.level)).head?, n.level ≤ p.level := by
      intro n hn
      have hstop := List.head?_dropWhile_not (fun m : Node => decide (p.level < m.level)) post
      rw [Option.mem_def.mp hn] at hstop
      simpa using hstop
    have hpost : nodesOf bs ++ post.dropWhile (p.level < ·.level) = post := by
      rw [hnodes, List.takeWhile_append_dropWhile]
    set back := post.dropWhile (p.level < ·.level)
    have hsplit : pre ++ p :: post = pre ++ p :: nodesOf bs ++ back := by rw [← hpost]; simp
    refine ⟨pre ++ [p], bs, back, ⟨by rw [hsplit]; simp, hbs, fun m hm => ?_, fun m hm n hn => ?_,
      fun m hm => ?_⟩⟩
    · rw [List.reverse_append, List.reverse_singleton, List.singleton_append,
        List.find?_cons_of_pos (by simpa using hdeeper m hm)]
    · have := hhead n hn
      have := hdeeper m hm
      omega
    · rw [hsplit] at hnodup ⊢
      exact parentIn_ne_of_outside hnodup hpre hhead hm

namespace Family

variable {bs bs' : List Branch} {parent q : Option Node} {front back : List Node} {c : Branch}
  (h : Family ns parent front bs back)

include h

theorem perm (hperm : bs'.Perm bs) : (front ++ nodesOf bs' ++ back).Perm ns := by
  rw [h.split]
  exact ((hperm.flatMap_right Branch.nodes).append_left front).append_right back

variable (hnodup : ns.Nodup)

include hnodup

theorem nodup_nodesOf (hperm : bs'.Perm bs) : (front ++ nodesOf bs').Nodup :=
  (List.nodup_append.mp ((h.perm hperm).nodup_iff.mpr hnodup)).1

/-- The common parent stands before the branches. -/
theorem parent_ne (hp : p ∈ nodesOf bs) : parent ≠ some p := by
  rintro rfl
  have hfront := List.mem_reverse.mp (List.mem_of_find?_eq_some (h.above p hp))
  exact (List.nodup_append.mp (h.nodup_nodesOf hnodup (List.Perm.refl bs))).2.2 p hfront p hp rfl

section Reordered

variable (hperm : bs'.Perm bs)

include hperm

/-- Headings in the branches have the parents they have among these, or the common one. -/
theorem parentIn_of_inside (hm : m ∈ nodesOf bs) :
    parentIn (front ++ nodesOf bs' ++ back) m = (parentIn (nodesOf bs') m).or parent := by
  have hm' : m ∈ nodesOf bs' := (hperm.flatMap_right Branch.nodes).mem_iff.mpr hm
  have hnot : m ∉ front := fun hfront =>
    (List.nodup_append.mp (h.nodup_nodesOf hnodup hperm)).2.2 m hfront m hm' rfl
  rw [parentIn_append_left (List.mem_append_right front hm'), parentIn_append_right hm' hnot,
    h.above m hm]

theorem parentIn_of_mem_back (hm : m ∈ back) : parentIn (front ++ nodesOf bs' ++ back) m =
    (parentIn back m).or (front.reverse.find? (·.level < m.level)) := by
  have hnot : m ∉ front ++ nodesOf bs' := fun hfront =>
    (List.nodup_append.mp ((h.perm hperm).nodup_iff.mpr hnodup)).2.2 m hfront m hm rfl
  rw [parentIn_append_right hm hnot]
  cases hq : parentIn back m with
  | some q => rfl
  | none =>
    obtain ⟨first, rest, hfirst⟩ := List.exists_cons_of_ne_nil (List.ne_nil_of_mem hm)
    have hle := level_le_head_of_parentIn_eq_none hq hm first (by rw [hfirst]; rfl)
    have hnone : (nodesOf bs').reverse.find? (·.level < m.level) = none := by
      refine List.find?_eq_none.mpr fun x hx => ?_
      have hx := (hperm.flatMap_right Branch.nodes).mem_iff.mp (List.mem_reverse.mp hx)
      have := h.below x hx first (by rw [hfirst]; rfl)
      rw [decide_eq_true_eq]
      omega
    rw [List.reverse_append, List.find?_append, hnone]
    rfl

/-- Headings outside of the branches keep their parents in any order of these. -/
theorem parentIn_of_outside (hm : m ∈ front ∨ m ∈ back) :
    parentIn (front ++ nodesOf bs' ++ back) m = parentIn ns m := by
  rcases hm with hm | hm
  · rw [h.split, List.append_assoc, List.append_assoc, parentIn_append_left hm,
      parentIn_append_left hm]
  · rw [h.parentIn_of_mem_back hnodup hperm hm, h.split,
      h.parentIn_of_mem_back hnodup (List.Perm.refl bs) hm]

end Reordered

/-- A heading has its parent in its branch, and the root of a branch has the common one. -/
theorem parentIn_eq (hc : c ∈ bs) (hm : m ∈ c.nodes) :
    parentIn ns m = (parentIn c.nodes m).or parent := by
  have hrefl := List.Perm.refl bs
  have hinside := h.parentIn_of_inside hnodup hrefl (mem_nodesOf.mpr ⟨c, hc, hm⟩)
  rw [← h.split] at hinside
  rw [hinside, parentIn_nodesOf h.descending
    (List.nodup_append.mp (h.nodup_nodesOf hnodup hrefl)).2.1 hc hm]

/-- The headings with the common parent are the roots. -/
theorem parentIn_eq_parent_iff (hc : c ∈ bs) (hm : m ∈ c.nodes) :
    parentIn ns m = parent ↔ m = c.root := by
  rw [h.parentIn_eq hnodup hc hm]
  rcases List.mem_cons.mp hm with rfl | hunder
  · rw [parentIn_root]
    exact iff_of_true rfl rfl
  · have hnodes : c.nodes.Nodup := by
      have hall := (List.nodup_append.mp (h.nodup_nodesOf hnodup (List.Perm.refl bs))).2.1
      exact (List.nodup_flatMap.mp hall).1 c hc
    obtain ⟨q, hq, hparent⟩ := exists_parentIn_nodes hnodes hunder
    rw [hparent, Option.some_or]
    refine iff_of_false (h.parent_ne hnodup (mem_nodesOf.mpr ⟨c, hc, hq⟩)).symm ?_
    rintro rfl
    exact (List.nodup_cons.mp hnodes).1 hunder

theorem mem_map_root_iff (hm : m ∈ ns) : m ∈ bs.map Branch.root ↔ parentIn ns m = parent := by
  rw [List.mem_map]
  constructor
  · rintro ⟨c, hc, rfl⟩
    exact (h.parentIn_eq_parent_iff hnodup hc (root_mem_nodes c)).mpr rfl
  · intro hparent
    have hin := hm
    rw [h.split, List.mem_append, List.mem_append] at hin
    rcases hin with (hin | hin) | hin
    · exact absurd hparent (h.others m (.inl hin))
    · obtain ⟨c, hc, hmc⟩ := mem_nodesOf.mp hin
      exact ⟨c, hc, ((h.parentIn_eq_parent_iff hnodup hc hmc).mp hparent).symm⟩
    · exact absurd hparent (h.others m (.inr hin))

variable (hperm : bs'.Perm bs)

include hperm

/-- In another order of the branches all headings keep their parents iff no branch is rooted deeper
than one before it. -/
theorem parentIn_eq_iff :
    (∀ m ∈ ns, parentIn (front ++ nodesOf bs' ++ back) m = parentIn ns m) ↔ Descending bs' := by
  have hnodes := (List.nodup_append.mp (h.nodup_nodesOf hnodup hperm)).2.1
  constructor
  · intro hall
    refine descending_of_parentIn [] hnodes fun c hc => ?_
    have hroot : c.root ∈ nodesOf bs := root_mem_nodesOf (hperm.mem_iff.mp hc)
    have hkept := hall c.root (by rw [h.split]; simp [hroot])
    rw [h.parentIn_of_inside hnodup hperm hroot,
      h.parentIn_eq hnodup (hperm.mem_iff.mp hc) (root_mem_nodes c), parentIn_root,
      Option.none_or] at hkept
    rw [List.nil_append]
    cases hq : parentIn (nodesOf bs') c.root with
    | none => rfl
    | some q =>
      rw [hq, Option.some_or] at hkept
      have hmem := (hperm.flatMap_right Branch.nodes).mem_iff.mp (mem_of_parentIn hq)
      exact absurd hkept.symm (h.parent_ne hnodup hmem)
  · intro hdesc m hm
    rw [h.split, List.mem_append, List.mem_append] at hm
    rcases hm with (hm | hm) | hm
    · exact h.parentIn_of_outside hnodup hperm (.inl hm)
    · obtain ⟨c, hc, hmc⟩ := mem_nodesOf.mp hm
      rw [h.parentIn_of_inside hnodup hperm hm,
        parentIn_nodesOf hdesc hnodes (hperm.mem_iff.mpr hc) hmc, h.parentIn_eq hnodup hc hmc]
    · exact h.parentIn_of_outside hnodup hperm (.inr hm)

/-- The children of any other heading keep their order, as they lie in one branch or outside of
all. -/
theorem filter_parentIn_eq (hq : q ≠ parent) :
    ((front ++ nodesOf bs' ++ back).filter fun m => parentIn ns m = q) =
      ns.filter fun m => parentIn ns m = q := by
  have hchild {c : Branch} (hc : c ∈ bs)
      (hne : (c.nodes.filter fun m => parentIn ns m = q) ≠ []) : ∃ p ∈ c.nodes, q = some p := by
    obtain ⟨m, hm⟩ := List.exists_mem_of_ne_nil _ hne
    obtain ⟨hm, hparent⟩ := List.mem_filter.mp hm
    rw [decide_eq_true_eq, h.parentIn_eq hnodup hc hm] at hparent
    cases hp : parentIn c.nodes m with
    | none => exact absurd (by rw [← hparent, hp]; rfl) hq
    | some p => exact ⟨p, mem_of_parentIn hp, by rw [← hparent, hp]; rfl⟩
  have hbranches : ((nodesOf bs').filter fun m => parentIn ns m = q) =
      (nodesOf bs).filter fun m => parentIn ns m = q := by
    rw [nodesOf, nodesOf, List.filter_flatMap, List.filter_flatMap]
    refine flatMap_eq_of_perm hperm fun c hc c' hc' hne hne' => ?_
    obtain ⟨p, hp, rfl⟩ := hchild (hperm.mem_iff.mp hc) hne
    obtain ⟨p', hp', hsame⟩ := hchild (hperm.mem_iff.mp hc') hne'
    obtain rfl := Option.some.inj hsame
    have hnodes := (List.nodup_append.mp (h.nodup_nodesOf hnodup (List.Perm.refl bs))).2.1
    exact branch_eq_of_mem hnodes (hperm.mem_iff.mp hc) (hperm.mem_iff.mp hc') hp hp'
  have hsplit : (ns.filter fun m => parentIn ns m = q) =
      (front ++ nodesOf bs ++ back).filter fun m => parentIn ns m = q := by rw [← h.split]
  rw [hsplit, List.filter_append, List.filter_append, hbranches, List.filter_append,
    List.filter_append]

end Family

end TaggedOutline
