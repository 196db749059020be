import TaggedOutline.Proofs.Outline.Ancestors

/-!
# Parents and siblings

1. The parent of a heading is the nearest earlier one that is less deep (`parentOf?_eq_parentIn`).
2. A heading takes the deeper ones that directly follow it, and these have their parents among
   themselves or in it; so the roots of a forest are the headings without a parent, and the
   children of a heading those whose parent it is (`map_root_forest`, `exists_findIn?_forest`).
3. So the siblings of a heading are the headings with the same parent, in document order
   (`siblingsOf_eq_filter`), and the trees hold all headings in that order (`flattenAll_forest`).
-/

namespace TaggedOutline

/-- The nearest earlier item of a sequence that is less deep than an item. -/
def parentIn (ns : List Node) (n : Node) : Option Node :=
  (ns.takeWhile (· ≠ n)).reverse.find? (·.level < n.level)

variable {ns pre post : List Node} {n m p : Node}

theorem parentIn_append_cons (h : n ∉ pre) :
    parentIn (pre ++ n :: post) n = pre.reverse.find? (·.level < n.level) := by
  have htaken : (pre ++ n :: post).takeWhile (· ≠ n) = pre := by
    rw [List.takeWhile_append_of_pos fun m hm => by
      simpa using fun e : m = n => h (e ▸ hm), List.takeWhile_cons_of_neg (by simp),
      List.append_nil]
  rw [parentIn, htaken]

theorem mem_of_parentIn (h : parentIn ns n = some p) : p ∈ ns :=
  (List.takeWhile_sublist _).subset (List.mem_reverse.mp (List.mem_of_find?_eq_some h))

/-! ## The nearest less deep heading -/

section Nearest

variable (hlines : ns.Pairwise (·.line < ·.line)) (hn : n ∈ ns)

include hlines hn

theorem exists_parentIn_eq_find? :
    ∃ pre post, ns = pre ++ n :: post ∧ (∀ m ∈ pre, m.line < n.line) ∧
      parentIn ns n = pre.reverse.find? (·.level < n.level) := by
  obtain ⟨pre, post, rfl, hnot⟩ := List.eq_append_cons_of_mem hn
  have hpre := (List.pairwise_append.mp hlines).2.2
  exact ⟨pre, post, rfl, fun m hm => hpre m hm n List.mem_cons_self, parentIn_append_cons hnot⟩

theorem line_lt_of_parentIn (h : parentIn ns n = some p) : p.line < n.line := by
  obtain ⟨pre, post, -, hpre, hfind⟩ := exists_parentIn_eq_find? hlines hn
  rw [hfind] at h
  exact hpre p (List.mem_reverse.mp (List.mem_of_find?_eq_some h))

/-- No less deep heading stands between a heading and its parent. -/
theorem exists_parentIn_of_level_lt (hm : m ∈ ns) (hmn : m.line < n.line)
    (hlevel : m.level < n.level) : ∃ p, parentIn ns n = some p ∧ m.line ≤ p.line := by
  obtain ⟨pre, post, rfl, hpre, hfind⟩ := exists_parentIn_eq_find? hlines hn
  have hmpre : m ∈ pre := by
    rcases List.mem_append.mp hm with hm | hm
    · exact hm
    · rcases List.mem_cons.mp hm with rfl | hm
      · omega
      · have hpost := (List.pairwise_cons.mp (List.pairwise_append.mp hlines).2.1).1 m hm
        omega
  rw [hfind]
  cases hp : pre.reverse.find? (·.level < n.level) with
  | none =>
    have := List.find?_eq_none.mp hp m (List.mem_reverse.mpr hmpre)
    simp only [decide_eq_true_eq] at this
    omega
  | some p =>
    obtain ⟨-, later, before, hsplit, hlater⟩ := List.find?_eq_some_iff_append.mp hp
    refine ⟨p, rfl, ?_⟩
    have hsorted : (pre.reverse).Pairwise fun x y => y.line < x.line :=
      List.pairwise_reverse.mpr (List.pairwise_append.mp hlines).1
    rw [← List.mem_reverse, hsplit] at hmpre
    rw [hsplit] at hsorted
    rcases List.mem_append.mp hmpre with hm | hm
    · have := hlater m hm
      simp only [Bool.not_eq_eq_eq_not, Bool.not_true, decide_eq_false_iff_not] at this
      omega
    · rcases List.mem_cons.mp hm with rfl | hm
      · exact Int.le_refl _
      · exact Int.le_of_lt ((List.pairwise_cons.mp (List.pairwise_append.mp hsorted).2.1).1 m hm)

end Nearest

/-! ## The parent in an outline -/

section Stack

variable {α : Type} {level : α → Int} {b q : α} {stack r above seen : List α}

theorem decreasing_of_mem_openedBy (hs : stack.Pairwise (level · > level ·))
    (h : (b, above) ∈ openedBy level stack r) : above.Pairwise (level · > level ·) := by
  induction r generalizing stack with
  | nil => exact absurd h (by simp [openedBy])
  | cons x r ih =>
    have hdrop := hs.sublist (List.dropWhile_sublist fun y => decide (level x ≤ level y))
    rcases List.mem_cons.mp h with he | h
    · obtain ⟨rfl, rfl⟩ := Prod.mk.inj he
      exact hdrop
    · refine ih (List.pairwise_cons.mpr ⟨fun a ha => ?_, hdrop⟩) h
      exact ((mem_dropWhile_of_decreasing hs (level x)).mp ha).2

/-- The innermost of the items that are open and less deep is the nearest less deep item. -/
theorem find?_reverse_eq_head? (hdecreasing : above.Pairwise (level · > level ·))
    (habove : ∀ a, a ∈ above ↔ OpenAfter level seen a ∧ level a < level b) :
    seen.reverse.find? (level · < level b) = above.head? := by
  -- The nearest less deep item is open, as all items after it are as deep as `b`.
  have hnearest {q : α} (hq : seen.reverse.find? (level · < level b) = some q) : q ∈ above := by
    obtain ⟨hlevel, later, before, hsplit, hlater⟩ := List.find?_eq_some_iff_append.mp hq
    rw [decide_eq_true_eq] at hlevel
    refine (habove q).mpr ⟨⟨before.reverse, later.reverse, ?_, fun x hx => ?_⟩, hlevel⟩
    · rw [← List.reverse_reverse seen, hsplit]
      simp
    · have := hlater x (List.mem_reverse.mp hx)
      simp only [Bool.not_eq_eq_eq_not, Bool.not_true, decide_eq_false_iff_not] at this
      omega
  cases above with
  | nil =>
    cases hq : seen.reverse.find? (level · < level b) with
    | none => rfl
    | some q => exact absurd (hnearest hq) (by simp)
  | cons p above =>
    obtain ⟨⟨before, later, rfl, hlater⟩, hlevel⟩ := (habove p).mp List.mem_cons_self
    have hfirst := (List.pairwise_cons.mp hdecreasing).1
    rw [List.reverse_append, List.reverse_cons, List.append_assoc, List.find?_append] at hnearest ⊢
    cases hq : later.reverse.find? (level · < level b) with
    | none => simp [hlevel]
    | some q =>
      -- An item after `p` is deeper than `p`, and so not among the open ones.
      have hqlater := hlater q (List.mem_reverse.mp (List.mem_of_find?_eq_some hq))
      rcases List.mem_cons.mp (hnearest (by rw [hq]; rfl)) with rfl | hqabove
      · omega
      · have := hfirst q hqabove
        omega

end Stack

namespace Outline

variable {hs : List Heading}

/-- The parent of a heading is the nearest earlier one that is less deep. -/
theorem parentOf?_eq_parentIn (hn : n ∈ nodesFrom 0 hs) :
    (ofHeadings hs).parentOf? n = parentIn (nodesFrom 0 hs) n := by
  rw [← map_fst_openedBy Node.level [] (nodesFrom 0 hs)] at hn
  obtain ⟨⟨n', above⟩, hopened, rfl⟩ := List.mem_map.mp hn
  obtain ⟨pre, post, hsplit, habove⟩ := exists_of_mem_openedBy isStack_nil hopened
  have hnodup : (pre ++ n' :: post).Nodup := by
    rw [← hsplit]
    exact (nodup_id_nodesFrom 0 hs).of_map
  have hpre : n' ∉ pre := fun hp =>
    (List.nodup_append.mp hnodup).2.2 n' hp n' List.mem_cons_self rfl
  rw [parentOf?_eq_head? hopened, hsplit, parentIn_append_cons hpre]
  refine (find?_reverse_eq_head? (decreasing_of_mem_openedBy List.Pairwise.nil hopened) ?_).symm
  simpa using habove

end Outline

/-! ## Forests -/

section Forest

variable {under after : List Node} (hunder : ∀ m ∈ under, n.level < m.level)
  (hafter : ∀ m ∈ after.head?, m.level ≤ n.level)

include hunder hafter

theorem forest_cons_append :
    forest (n :: (under ++ after)) = .node n (forest under) :: forest after := by
  have hunder' : ∀ m ∈ under, decide (n.level < m.level) = true := by simpa using hunder
  have htake : after.takeWhile (n.level < ·.level) = [] := by
    cases after with
    | nil => rfl
    | cons o after => exact List.takeWhile_cons_of_neg (by simpa using hafter)
  have hdrop : after.dropWhile (n.level < ·.level) = after := by
    cases after with
    | nil => rfl
    | cons o after => exact List.dropWhile_cons_of_neg (by simpa using hafter)
  rw [forest, List.takeWhile_append_of_pos hunder', List.dropWhile_append_of_pos hunder', htake,
    hdrop, List.append_nil]

omit hafter in
/-- A heading under `n` has its parent among those under `n`, or in `n`. -/
theorem parentIn_of_mem_under (hnodup : (n :: (under ++ after)).Nodup) (hm : m ∈ under) :
    parentIn (n :: (under ++ after)) m = (parentIn under m).or (some n) := by
  obtain ⟨before, later, rfl, hnot⟩ := List.eq_append_cons_of_mem hm
  have hne : m ≠ n := by
    rintro rfl
    exact (List.nodup_cons.mp hnodup).1 (List.mem_append_left _ hm)
  have hwhole : n :: (before ++ m :: later ++ after) = (n :: before) ++ m :: (later ++ after) := by
    simp
  rw [hwhole, parentIn_append_cons (by simp [hne, hnot]), parentIn_append_cons hnot,
    List.reverse_cons, List.find?_append, List.find?_cons_of_pos (by simpa using hunder m hm)]

/-- A heading after those under `n` has its parent among the headings after these. -/
theorem parentIn_of_mem_after (hnodup : (n :: (under ++ after)).Nodup) (hm : m ∈ after) :
    parentIn (n :: (under ++ after)) m = parentIn after m := by
  obtain ⟨before, later, rfl, hnot⟩ := List.eq_append_cons_of_mem hm
  have hwhole : n :: (under ++ (before ++ m :: later)) = (n :: under ++ before) ++ m :: later := by
    simp
  have hnot' : m ∉ n :: under ++ before := by
    rw [hwhole] at hnodup
    exact fun hp => (List.nodup_append.mp hnodup).2.2 m hp m List.mem_cons_self rfl
  rw [parentIn_append_cons hnot, hwhole, parentIn_append_cons hnot', List.reverse_append,
    List.find?_append]
  cases hfind : before.reverse.find? (·.level < m.level) with
  | some q => rfl
  | none =>
    -- The first heading after those under `n` is not deeper than `n`, and `m` not deeper than it.
    have hlevel : m.level ≤ n.level := by
      cases before with
      | nil => exact hafter m rfl
      | cons o before =>
        have ho := hafter o rfl
        have := List.find?_eq_none.mp hfind o (by simp)
        simp only [decide_eq_true_eq] at this
        omega
    rw [Option.none_or, List.find?_eq_none]
    intro x hx
    rw [decide_eq_true_eq]
    rcases List.mem_cons.mp (List.mem_reverse.mp hx) with rfl | hx
    · omega
    · have := hunder x hx
      omega

/-- The headings with a given parent are found under `n` and after those. -/
theorem filter_parentIn_cons (hnodup : (n :: (under ++ after)).Nodup) (q : Option Node) :
    ((n :: (under ++ after)).filter fun m => parentIn (n :: (under ++ after)) m = q) =
      (if q = none then [n] else []) ++
      (under.filter fun m => (parentIn under m).or (some n) = q) ++
      after.filter fun m => parentIn after m = q := by
  have hself : parentIn (n :: (under ++ after)) n = none := by
    rw [parentIn, List.takeWhile_cons_of_neg (by simp)]
    rfl
  have hunder' : (under.filter fun m => parentIn (n :: (under ++ after)) m = q) =
      under.filter fun m => (parentIn under m).or (some n) = q :=
    List.filter_congr fun m hm => by rw [parentIn_of_mem_under hunder hnodup hm]
  have hafter' : (after.filter fun m => parentIn (n :: (under ++ after)) m = q) =
      after.filter fun m => parentIn after m = q :=
    List.filter_congr fun m hm => by rw [parentIn_of_mem_after hunder hafter hnodup hm]
  rw [List.filter_cons, List.filter_append, hunder', hafter', hself]
  cases q <;> simp

end Forest

/-- Induction along a forest: the first heading, those under it and those after these. -/
@[elab_as_elim]
theorem forest_induction {motive : List Node → Prop} (ns : List Node) (nil : motive [])
    (cons : ∀ n under after, (∀ m ∈ under, n.level < m.level) →
      (∀ m ∈ after.head?, m.level ≤ n.level) → motive under → motive after →
      motive (n :: (under ++ after))) : motive ns := by
  induction ns using forest.induct with
  | case1 => exact nil
  | case2 n r ihUnder ihAfter =>
    rw [← List.takeWhile_append_dropWhile (p := fun m : Node => decide (n.level < m.level)) (l := r)]
    refine cons n _ _ (fun m hm => ?_) (fun m hm => ?_) ihUnder ihAfter
    · simpa using List.mem_takeWhile_imp hm
    · have hhead := List.head?_dropWhile_not (fun m : Node => decide (n.level < m.level)) r
      rw [Option.mem_def.mp hm] at hhead
      simpa using hhead

/-- The roots of a forest are the headings without a parent. -/
theorem map_root_forest (hnodup : ns.Nodup) :
    (forest ns).map Tree.root = ns.filter fun m => parentIn ns m = none := by
  induction ns using forest_induction with
  | nil => simp [forest]
  | cons n under after hunder hafter _ ihAfter =>
    have hlater := (List.nodup_append.mp (List.nodup_cons.mp hnodup).2).2.1
    rw [forest_cons_append hunder hafter, List.map_cons, ihAfter hlater,
      filter_parentIn_cons hunder hafter hnodup]
    simp [Tree.root]

theorem findIn?_forest_eq_none {id : Text} (h : ∀ n ∈ ns, n.id ≠ id) :
    Tree.findIn? id (forest ns) = none := by
  induction ns using forest_induction with
  | nil => simp [forest, Tree.findIn?]
  | cons n under after hunder hafter ihUnder ihAfter =>
    have hmissUnder := ihUnder fun m hm => h m (by simp [hm])
    have hmissAfter := ihAfter fun m hm => h m (by simp [hm])
    rw [forest_cons_append hunder hafter, Tree.findIn?, Tree.find?,
      if_neg (h n List.mem_cons_self), hmissUnder, hmissAfter]
    rfl

/-- The tree under a heading has those headings for children whose parent it is. -/
theorem exists_findIn?_forest (hids : (ns.map Node.id).Nodup) (hp : p ∈ ns) :
    ∃ t, Tree.findIn? p.id (forest ns) = some t ∧
      t.children.map Tree.root = ns.filter fun m => parentIn ns m = some p := by
  induction ns using forest_induction with
  | nil => exact absurd hp (by simp)
  | cons n under after hunder hafter ihUnder ihAfter =>
    have hnodup : (n :: (under ++ after)).Nodup := hids.of_map
    obtain ⟨hfirst, hrest⟩ := List.nodup_cons.mp hids
    rw [List.map_append] at hfirst hrest
    obtain ⟨hidsUnder, hidsAfter, hapart⟩ := List.nodup_append.mp hrest
    have hids_ne {m q : Node} (hm : m ∈ under) (hq : q ∈ after) : m.id ≠ q.id :=
      hapart _ (List.mem_map_of_mem hm) _ (List.mem_map_of_mem hq)
    have hfirst_ne {m : Node} (hm : m ∈ under ∨ m ∈ after) : n.id ≠ m.id := by
      intro e
      refine hfirst ?_
      rw [e, ← List.map_append]
      exact List.mem_map_of_mem (List.mem_append.mpr hm)
    -- A heading has no children among headings that it is not one of.
    have hnone {l : List Node} (hl : p ∉ l) : (l.filter fun m => parentIn l m = some p) = [] :=
      List.filter_eq_nil_iff.mpr fun m _ h => hl (mem_of_parentIn (by simpa using h))
    rw [forest_cons_append hunder hafter, Tree.findIn?, Tree.find?,
      filter_parentIn_cons hunder hafter hnodup, if_neg (Option.some_ne_none p),
      List.nil_append]
    rcases List.mem_cons.mp hp with rfl | hp
    · have hroots {m : Node} : (parentIn under m).or (some p) = some p ↔ parentIn under m = none := by
        cases hm : parentIn under m with
        | none => simp
        | some q =>
          have : q ≠ p := fun e => hfirst_ne (.inl (mem_of_parentIn hm)) (congrArg Node.id e).symm
          simpa using this
      have hafterNone := hnone (l := after) fun h => hfirst_ne (.inr h) rfl
      rw [if_pos rfl, hafterNone, List.append_nil]
      simp only [hroots]
      exact ⟨_, rfl, map_root_forest hidsUnder.of_map⟩
    · have hne : n.id ≠ p.id := hfirst_ne (List.mem_append.mp hp)
      have hsame {m : Node} : (parentIn under m).or (some n) = some p ↔
          parentIn under m = some p := by
        cases parentIn under m with
        | none => simpa using fun e : n = p => hne (congrArg Node.id e)
        | some q => simp
      rw [if_neg hne]
      simp only [hsame]
      rcases List.mem_append.mp hp with hp | hp
      · obtain ⟨t, ht, hchildren⟩ := ihUnder hidsUnder hp
        rw [hnone fun h => hids_ne hp h rfl, List.append_nil]
        exact ⟨t, by rw [ht]; rfl, hchildren⟩
      · obtain ⟨t, ht, hchildren⟩ := ihAfter hidsAfter hp
        rw [hnone fun h => hids_ne h hp rfl, List.nil_append,
          findIn?_forest_eq_none fun m hm => hids_ne hm hp]
        exact ⟨t, ht, hchildren⟩

/-- The headings of a forest, each before those under it, are the headings in order. -/
theorem flattenAll_forest (ns : List Node) : Tree.flattenAll (forest ns) = ns := by
  induction ns using forest_induction with
  | nil => simp [forest, Tree.flattenAll]
  | cons n under after hunder hafter ihUnder ihAfter =>
    rw [forest_cons_append hunder hafter, Tree.flattenAll, Tree.flatten, ihUnder, ihAfter,
      List.cons_append]

namespace Outline

variable {hs : List Heading}

theorem filter_parentOf?_eq (q : Option Node) :
    ((ofHeadings hs).ordered.filter fun m => (ofHeadings hs).parentOf? m = q) =
      (nodesFrom 0 hs).filter fun m => parentIn (nodesFrom 0 hs) m = q :=
  List.filter_congr fun m hm => by rw [parentOf?_eq_parentIn hm]

/-- The roots are the headings without a parent, in document order. -/
theorem roots_eq_filter :
    (ofHeadings hs).roots.map Tree.root =
      (ofHeadings hs).ordered.filter fun m => (ofHeadings hs).parentOf? m = none := by
  rw [filter_parentOf?_eq]
  exact map_root_forest (nodup_id_nodesFrom 0 hs).of_map

/-- The children of a heading are the headings whose parent it is, in document order. -/
theorem childrenOf_eq_filter (hp : p ∈ (ofHeadings hs).ordered) :
    (ofHeadings hs).childrenOf p =
      (ofHeadings hs).ordered.filter fun m => (ofHeadings hs).parentOf? m = some p := by
  obtain ⟨t, ht, hchildren⟩ := exists_findIn?_forest (nodup_id_nodesFrom 0 hs) hp
  rw [filter_parentOf?_eq, childrenOf,
    show (ofHeadings hs).roots = forest (nodesFrom 0 hs) from rfl, ht]
  exact hchildren

/-- The siblings of a heading are the headings with the same parent, in document order. -/
theorem siblingsOf_eq_filter (hn : n ∈ (ofHeadings hs).ordered) :
    (ofHeadings hs).siblingsOf n =
      (ofHeadings hs).ordered.filter fun m => (ofHeadings hs).parentOf? m =
        (ofHeadings hs).parentOf? n := by
  rw [siblingsOf]
  cases hp : (ofHeadings hs).parentOf? n with
  | none => exact roots_eq_filter
  | some p =>
    rw [parentOf?_eq_parentIn hn] at hp
    exact childrenOf_eq_filter (mem_of_parentIn hp)

end Outline

end TaggedOutline
