import TaggedOutline.Proofs.Outline.Block

/-!
# Outermost nodes

1. Of nodes whose blocks are apart, each lies in its own block only (`Apart.eq_of_inBlock`), and a
   line in at most one of the blocks (`Apart.unique`).
2. So the blocks that are kept are those of the selected nodes without a selected node above them,
   each once and in document order (`outermost_eq_filter`).
3. This depends on nothing but which nodes are selected, and keeps what it has kept
   (`outermost_selection`).
-/

namespace TaggedOutline

variable {d : Document} {ordered kept r selected ns : List Node} {a m n : Node}

theorem mem_of_mem_keepOutermost (h : n ∈ keepOutermost d ordered kept r) : n ∈ kept ∨ n ∈ r := by
  induction r generalizing kept with
  | nil => exact .inl h
  | cons m r ih =>
    rw [keepOutermost] at h
    split at h
    · exact (ih h).imp_right (List.mem_cons_of_mem m)
    · rcases ih h with h | h
      · rcases List.mem_append.mp h with h | h
        · exact .inl h
        · rw [List.mem_singleton.mp h]
          exact .inr List.mem_cons_self
      · exact .inr (List.mem_cons_of_mem m h)

theorem mem_of_mem_outermost (h : n ∈ outermost d ordered selected) : n ∈ selected :=
  mem_sortByLine.mp ((mem_of_mem_keepOutermost h).resolve_left (by simp))

theorem Apart.pairwise_line (hapart : Apart ordered ns) : ns.Pairwise (·.line < ·.line) := by
  refine hapart.imp fun {m n} h => ?_
  have hne : m.line ≠ n.line := fun e => h.2 (e ▸ inBlock_line ordered m)
  have := h.1
  omega

theorem Apart.eq_of_inBlock (hapart : Apart ordered ns) (hm : m ∈ ns) (hn : n ∈ ns)
    (h : InBlock ordered m n.line) : m = n := by
  obtain ⟨pre, post, rfl⟩ := List.append_of_mem hm
  obtain ⟨-, hpost, hpre⟩ := List.pairwise_append.mp hapart
  have hlines := (List.pairwise_append.mp hapart.pairwise_line).2.2
  rcases List.mem_append.mp hn with hn | hn
  · have := hlines n hn m List.mem_cons_self
    have := h.1
    omega
  · rcases List.mem_cons.mp hn with rfl | hn
    · rfl
    · exact absurd h ((List.pairwise_cons.mp hpost).1 n hn).2

/-- A line lies in at most one of the blocks. -/
theorem Apart.unique (hapart : Apart ordered ns) (hm : m ∈ ns) (hn : n ∈ ns) {k : Int}
    (hmk : InBlock ordered m k) (hnk : InBlock ordered n k) : m = n := by
  rcases Int.le_total m.line n.line with h | h
  · exact hapart.eq_of_inBlock hm hn (hmk.of_le h hnk.1)
  · exact (hapart.eq_of_inBlock hn hm (hnk.of_le h hmk.1)).symm

namespace Outline

/-- A selected node without a selected node above it. -/
def IsOutermost (o : Outline) (selected : List Node) (n : Node) : Prop :=
  n ∈ selected ∧ ∀ a ∈ o.ancestorsOf n, a ∉ selected

instance (o : Outline) (selected : List Node) (n : Node) : Decidable (o.IsOutermost selected n) :=
  inferInstanceAs (Decidable (_ ∧ _))

theorem level_lt_of_mem_ancestorsOf (hn : n ∈ (ofDocument d).ordered)
    (ha : a ∈ (ofDocument d).ancestorsOf n) : a ∈ (ofDocument d).ordered ∧ a.level < n.level := by
  obtain ⟨pre, post, hsplit⟩ := List.append_of_mem hn
  obtain ⟨⟨front, later, rfl, -⟩, hlevel⟩ := (mem_ancestorsOf_iff hsplit).mp ha
  refine ⟨?_, hlevel⟩
  rw [hsplit]
  simp

section Selection

variable (hselected : ∀ n ∈ selected, n ∈ (ofDocument d).ordered)

include hselected

theorem mem_outermost_iff : n ∈ outermost d (ofDocument d).ordered selected ↔
    (ofDocument d).IsOutermost selected n := by
  have ho := isOrdered d
  obtain ⟨hmem, hapart, hcovered⟩ := outermost_spec ho hselected
  constructor
  · refine fun hn => ⟨mem_of_mem_outermost hn, fun a ha hsel => ?_⟩
    -- The kept block that `a` lies in is not that of `n`, which lies under `a`.
    obtain ⟨haorder, hlevel⟩ := level_lt_of_mem_ancestorsOf (hmem n hn) ha
    obtain ⟨m, hm, hin⟩ := (hcovered a.line).mpr ⟨a, hsel, inBlock_line _ a⟩
    have hinn := (inBlock_line_iff d haorder (hmem n hn)).mpr (.inr ha)
    obtain rfl := hapart.eq_of_inBlock hm hn (hin.trans ho (hmem m hm) haorder hinn)
    rcases (inBlock_line_iff d (hmem m hm) haorder).mp hin with rfl | habove
    · omega
    · have := (level_lt_of_mem_ancestorsOf haorder habove).2
      omega
  · rintro ⟨hsel, habove⟩
    obtain ⟨m, hm, hin⟩ := (hcovered n.line).mpr ⟨n, hsel, inBlock_line _ n⟩
    rcases (inBlock_line_iff d (hmem m hm) (hselected n hsel)).mp hin with rfl | ha
    · exact hm
    · exact absurd (mem_of_mem_outermost hm) (habove m ha)

/-- The outermost of the selected nodes, each once and in document order. -/
theorem outermost_eq_filter : outermost d (ofDocument d).ordered selected =
    (ofDocument d).ordered.filter fun n => (ofDocument d).IsOutermost selected n := by
  obtain ⟨hmem, hapart, -⟩ := outermost_spec (isOrdered d) hselected
  have hlines := hapart.pairwise_line
  have hfiltered := (isOrdered d).lines.filter fun n => (ofDocument d).IsOutermost selected n
  refine List.Perm.eq_of_pairwise (fun m n _ _ _ _ => by omega) hlines hfiltered
    ((List.perm_ext_iff_of_nodup (Heading.nodup_of_lines hlines)
      (Heading.nodup_of_lines hfiltered)).mpr fun n => ?_)
  rw [mem_outermost_iff hselected, List.mem_filter, decide_eq_true_eq]
  exact ⟨fun h => ⟨hselected n h.1, h⟩, And.right⟩

/-- The outermost nodes of two selections of the same nodes are the same. -/
theorem outermost_congr {selected' : List Node} (hsame : ∀ n, n ∈ selected' ↔ n ∈ selected) :
    outermost d (ofDocument d).ordered selected' = outermost d (ofDocument d).ordered selected := by
  rw [outermost_eq_filter hselected,
    outermost_eq_filter fun n hn => hselected n ((hsame n).mp hn)]
  refine List.filter_congr fun n _ => decide_eq_decide.mpr ?_
  simp only [IsOutermost, hsame]

/-- Outermost nodes do not lie above each other, so all of them are kept. -/
theorem outermost_outermost :
    outermost d (ofDocument d).ordered (outermost d (ofDocument d).ordered selected) =
      outermost d (ofDocument d).ordered selected := by
  have hkept : ∀ n ∈ outermost d (ofDocument d).ordered selected, n ∈ (ofDocument d).ordered :=
    fun n hn => hselected n (mem_of_mem_outermost hn)
  conv_rhs => rw [outermost_eq_filter hselected]
  rw [outermost_eq_filter hkept]
  refine List.filter_congr fun n _ => decide_eq_decide.mpr ?_
  rw [← mem_outermost_iff hselected]
  refine ⟨And.left, fun hn => ⟨hn, fun a ha hkept => ?_⟩⟩
  exact ((mem_outermost_iff hselected).mp hn).2 a ha (mem_of_mem_outermost hkept)

end Selection

/-- The nodes that are kept of a selection are those without a selected node above them, each once
and in document order. It does not matter in which order and how often nodes are selected, and
selecting the kept nodes keeps them all. -/
theorem outermost_selection (d : Document) (selected : List Node)
    (hselected : ∀ n ∈ selected, n ∈ (ofDocument d).ordered) :
    let o := ofDocument d
    let kept := outermost d o.ordered selected
    (∀ n, n ∈ kept ↔ n ∈ selected ∧ ∀ a ∈ o.ancestorsOf n, a ∉ selected) ∧
      kept.Nodup ∧ kept.Sublist o.ordered ∧
      (∀ selected' : List Node, (∀ n, n ∈ selected' ↔ n ∈ selected) →
        outermost d o.ordered selected' = kept) ∧
      outermost d o.ordered kept = kept := by
  intro o kept
  have hsub : kept.Sublist o.ordered := by
    show (outermost d o.ordered selected).Sublist o.ordered
    rw [outermost_eq_filter hselected]
    exact List.filter_sublist
  have hnodup : o.ordered.Nodup := (isOrdered d).ids.of_map
  exact ⟨fun n => mem_outermost_iff hselected, hnodup.sublist hsub, hsub,
    fun selected' hsame => outermost_congr hselected hsame, outermost_outermost hselected⟩

/-- Nodes of three depths in another order, one of them twice; the blocks that lie in each other end
together. -/
theorem outermost_selection_nested :
    let d : Document := ⟨[], "# A\n## B\r\n#### C\n# D\n## E\n### F\ntext".toList, .markdown⟩
    let o := ofDocument d
    ∃ b ∈ o.ordered, ∃ c ∈ o.ordered, ∃ e ∈ o.ordered, ∃ f ∈ o.ordered,
      [b.label, c.label, e.label, f.label] = [['B'], ['C'], ['E'], ['F']] ∧
        (∀ n ∈ [f, c, b, e, c, b], n ∈ o.ordered) ∧
        b ∈ outermost d o.ordered [f, c, b, e, c, b] ∧
        c ∉ outermost d o.ordered [f, c, b, e, c, b] ∧
        (outermost d o.ordered [f, c, b, e, c, b]).Nodup ∧
        outermost d o.ordered [b, c, e, f] = outermost d o.ordered [f, c, b, e, c, b] := by
  intro d o
  let node (k : Fin 6) : Node := o.ordered.get (k.castLE (by decide))
  have hnode (k : Fin 6) : node k ∈ o.ordered := List.get_mem _ _
  have hselected : ∀ n ∈ [node 5, node 2, node 1, node 4, node 2, node 1], n ∈ o.ordered := by
    decide
  obtain ⟨hmem, hnodup, -, hcongr, -⟩ := outermost_selection d _ hselected
  refine ⟨_, hnode 1, _, hnode 2, _, hnode 4, _, hnode 5, by decide, hselected, ?_, ?_, hnodup,
    hcongr _ ?_⟩
  · exact (hmem _).mpr (by decide)
  · exact fun hc => absurd ((hmem _).mp hc) (by decide)
  · intro n
    simp only [List.mem_cons, List.not_mem_nil, or_false]
    clear_value node
    tauto

end Outline

end TaggedOutline
