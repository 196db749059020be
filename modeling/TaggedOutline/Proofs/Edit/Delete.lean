import TaggedOutline.Proofs.Edit.Cut
import TaggedOutline.Proofs.Heading.Keep

/-!
# Deleting blocks

1. The outermost of the selected blocks are apart and cover the lines of all of them, so deleting
   them leaves out those lines (`deleteBlocks_eq`).
2. Blocks begin and end at headings, so the headings that are left are found again.
-/

namespace TaggedOutline

variable {d : Document}

/-! ## Deleted blocks -/

/-- A node is left if neither it nor a heading above it is selected. -/
def Survives (o : Outline) (selected : List Node) (n : Node) : Prop :=
  n ∉ selected ∧ ∀ a ∈ o.ancestorsOf n, a ∉ selected

instance (o : Outline) (selected : List Node) (n : Node) : Decidable (Survives o selected n) :=
  inferInstanceAs (Decidable (_ ∧ _))

/-- A line of a document is deleted with the block of a selected node. -/
def deletedLine (d : Document) (selected : List Node) (k : Nat) : Bool :=
  Covered (Outline.ofDocument d).ordered selected k

section Deleted

variable {selected : List Node} (h : ∀ n ∈ selected, n ∈ (Outline.ofDocument d).ordered)

include h

theorem deletedLine_iff {n : Node} (hn : n ∈ (Outline.ofDocument d).ordered) :
    deletedLine d selected n.line.toNat = false ↔ Survives (Outline.ofDocument d) selected n := by
  have hline := (Outline.isOrdered d).nonneg n hn
  rw [deletedLine, decide_eq_false_iff_not, Int.toNat_of_nonneg hline]
  constructor
  · intro hout
    refine ⟨fun hsel => hout ⟨n, hsel, inBlock_line _ n⟩, fun a ha hsel => ?_⟩
    exact hout ⟨a, hsel, (Outline.inBlock_line_iff d (h a hsel) hn).mpr (.inr ha)⟩
  · rintro ⟨hsel, habove⟩ ⟨m, hm, hin⟩
    rcases (Outline.inBlock_line_iff d (h m hm) hn).mp hin with rfl | ha
    · exact hsel hm
    · exact habove m ha hm

/-- The deleted lines begin at headings. -/
theorem exists_of_deletedLine_zero (hdeleted : deletedLine d selected 0 = true) :
    ∃ g ∈ Heading.ofDocument d, g.line = 0 := by
  obtain ⟨n, hn, hin⟩ := of_decide_eq_true hdeleted
  obtain ⟨g, hg, -, hline⟩ := Outline.exists_of_mem_ordered (h n hn)
  have := (Outline.isOrdered d).nonneg n (h n hn)
  have := hin.1
  exact ⟨g, hg, by omega⟩

/-- The deleted lines begin and end at headings. -/
theorem exists_of_deletedLine_ne {k : Nat}
    (hne : deletedLine d selected (k + 1) ≠ deletedLine d selected k) :
    ∃ g ∈ Heading.ofDocument d, g.line = (k + 1 : Nat) := by
  by_contra hno
  refine hne (decide_eq_decide.mpr (exists_congr fun n => and_congr_right fun hn => ?_))
  rw [Int.natCast_succ]
  refine inBlock_succ_iff (h n hn) fun m hm hline => hno ?_
  obtain ⟨g, hg, -, hgline⟩ := Outline.exists_of_mem_ordered hm
  exact ⟨g, hg, by omega⟩

/-- Deleting blocks leaves out their lines. -/
theorem deleteBlocks_eq :
    deleteBlocks d (Outline.ofDocument d).ordered selected =
      Line.join (keep (deletedLine d selected) 0 (Line.ofText d.text)) := by
  obtain ⟨hmem, hapart, hcovered⟩ := outermost_spec (Outline.isOrdered d) h
  rw [deleteBlocks, Block.select, removeBlocks_eq (Outline.isOrdered d) hmem hapart]
  refine congrArg _ (keep_congr fun k _ _ => ?_)
  exact decide_eq_decide.mpr (hcovered k)

end Deleted

/-- Deleting blocks leaves all other lines as they are, and all other headings. -/
theorem ofText_deleteBlocks (d : Document) (selected : List Node)
    (h : ∀ n ∈ selected, n ∈ (Outline.ofDocument d).ordered) :
    deleteBlocks d (Outline.ofDocument d).ordered selected =
        Line.join (keep (deletedLine d selected) 0 (Line.ofText d.text)) ∧
      Heading.ofText (deleteBlocks d (Outline.ofDocument d).ordered selected) =
        (((Heading.ofDocument d).zip (Outline.ofDocument d).ordered).filter fun e =>
          Survives (Outline.ofDocument d) selected e.2).map fun e =>
            e.1.movedUp (outBefore (deletedLine d selected) e.1.line.toNat) := by
  refine ⟨deleteBlocks_eq h, ?_⟩
  rw [deleteBlocks_eq h, Heading.ofText_join_keep (exists_of_deletedLine_zero h)
    fun k => exists_of_deletedLine_ne h]
  have hzip : ((Heading.ofDocument d).zip (Outline.ofDocument d).ordered).map Prod.fst =
      Heading.ofText d.text :=
    List.map_fst_zip (Nat.le_of_eq (Outline.length_nodesFrom 0 _).symm)
  conv_lhs => rw [← hzip, List.filter_map, List.map_map]
  refine congrArg (List.map _) (List.filter_congr fun e he => ?_)
  obtain ⟨hn, hline⟩ := Outline.line_of_mem_zip he
  have hsurvives := deletedLine_iff h hn
  rw [hline] at hsurvives
  by_cases hleft : Survives (Outline.ofDocument d) selected e.2
  · rw [decide_eq_true hleft, Function.comp_apply, hsurvives.mpr hleft]
    rfl
  · rw [decide_eq_false hleft, Function.comp_apply,
      Bool.eq_true_of_not_eq_false fun hout => hleft (hsurvives.mp hout)]
    rfl

/-- Mixed breaks, a look-alike in code, and a code region that is open at the end. -/
def mixedBreaks : Document :=
  ⟨[], "# A\r\n## B\n```\n# no\n```\n# C\r\ntext\n## D\n~~~\n# no".toList, .markdown⟩

/-- A nested node comes before the one it lies under, which is selected twice. -/
theorem ofText_deleteBlocks_mixed :
    let ordered := (Outline.ofDocument mixedBreaks).ordered
    let selected := ordered.drop 3 ++ (ordered.take 2).reverse ++ ordered.take 1
    (∀ n ∈ selected, n ∈ ordered) ∧
      deleteBlocks mixedBreaks ordered selected = "# C\r\ntext\n".toList ∧
      (Heading.ofText (deleteBlocks mixedBreaks ordered selected)).map Heading.line = [0] := by
  intro ordered selected
  have hselected : ∀ n ∈ selected, n ∈ ordered := by decide
  obtain ⟨htext, hheadings⟩ := ofText_deleteBlocks mixedBreaks selected hselected
  refine ⟨hselected, htext.trans ?_, ?_⟩
  · decide
  · rw [hheadings]
    decide

end TaggedOutline
