import Mathlib.Data.List.Perm.Basic
import Mathlib.Order.Bounds.Basic
import TaggedOutline.Proofs.Edit.Relocate
import TaggedOutline.Proofs.Outline.Tiling

/-!
# Moving blocks

1. Siblings do not lie in each other's blocks, so selected siblings are all outermost
   (`isOutermost_iff_of_parentOf?_eq`), and none of their blocks reaches over an end of another
   sibling.
2. The place that siblings are moved to is counted from the first or the last of them
   (`moveBlocks_eq`).
3. Blocks are moved before every target but those in them and above them
   (`moveBlocksBefore_eq_error_iff`).
-/

namespace TaggedOutline

open Outline (ofDocument isOrdered)

variable {d : Document} {selected : List Node} {m n first s target : Node} {line : Nat}

/-- The blocks of the outermost selected nodes stand before a line outside of them. -/
theorem movedBefore_select (hend : Text.endsWith ['\n'] d.text = true)
    (hselected : ∀ n ∈ selected, n ∈ (ofDocument d).ordered)
    (hline : line ≤ (Line.ofText d.text).length)
    (houtside : ∀ n ∈ selected, (ofDocument d).IsOutermost selected n →
      line ≤ n.line.toNat ∨ (blockEnd d.lineCount (ofDocument d).ordered n).toNat ≤ line) :
    MovedBefore d (ofDocument d).ordered
      ((ofDocument d).ordered.filter fun n => (ofDocument d).IsOutermost selected n) line
      (relocate d (Block.select d (ofDocument d).ordered selected)
        (lineStart (Line.ofText d.text) line)) := by
  obtain ⟨hmem, hapart, -⟩ := outermost_spec (isOrdered d) hselected
  rw [← Outline.outermost_eq_filter hselected, Block.select]
  refine movedBefore_relocate hend (isOrdered d) hmem hapart hline fun n hn => ?_
  exact houtside n (mem_of_mem_outermost hn) ((Outline.mem_outermost_iff hselected).mp hn)

/-! ## Among siblings -/

namespace Outline

/-- The places of the selected nodes among their siblings. -/
def places (o : Outline) (selected : List Node) : Set Nat :=
  {k | ∃ n ∈ selected, (o.siblingsOf n)[k]? = some n}

/-- A node is found by its identifier where it stands. -/
theorem findIdx_id_eq {l : List Node} {k : Nat} (hids : (l.map Node.id).Nodup)
    (hk : l[k]? = some n) : l.findIdx (·.id = n.id) = k := by
  obtain ⟨hlt, rfl⟩ := List.getElem?_eq_some_iff.mp hk
  rw [List.findIdx_eq hlt]
  refine ⟨decide_eq_true rfl, fun j hj => decide_eq_false fun hid => ?_⟩
  have hsame : (l.map Node.id)[j]? = (l.map Node.id)[k]? := by
    rw [List.getElem?_map, List.getElem?_map, hk, List.getElem?_eq_getElem (by omega)]
    exact congrArg some hid
  have := (List.getElem?_inj (by rw [List.length_map]; omega) hids).mp hsame
  omega

end Outline

/-- Folding with an operation that leads to one of the items and leaves that item. -/
theorem foldl_eq_of_fixed {op : Nat → Nat → Nat} [RightCommutative op] {l : List Nat} {b i : Nat}
    (hi : i ∈ l) (hb : op b i = i) (hfixed : ∀ k ∈ l, op i k = i) : l.foldl op b = i := by
  rw [(List.perm_cons_erase hi).foldl_eq b, List.foldl_cons, hb]
  have hrest : ∀ k ∈ l.erase i, op i k = i := fun k hk => hfixed k (List.mem_of_mem_erase hk)
  generalize l.erase i = r at hrest
  induction r with
  | nil => rfl
  | cons k r ih =>
    rw [List.foldl_cons, hrest k List.mem_cons_self]
    exact ih fun x hx => hrest x (List.mem_cons_of_mem k hx)

/-- The place that items are moved to is counted from the first or the last of them. -/
theorem place_eq {ks : List Nat} {places : Set Nat} {i j count : Nat} {offset : Int}
    (hks : ∀ k, k ∈ ks ↔ k ∈ places) (hcount : ∀ k ∈ ks, k ≤ count)
    (hi : if offset < 0 then IsLeast places i else IsGreatest places i)
    (hj : (j : Int) = i + offset) :
    (if offset < 0 then ((ks.foldl min count : Nat) : Int) + offset
      else ((ks.foldl max 0 : Nat) : Int) + offset) = j := by
  split at hi
  · next hup =>
    have hmem := (hks i).mpr hi.1
    rw [if_pos hup, foldl_eq_of_fixed hmem (Nat.min_eq_right (hcount i hmem))
      fun k hk => Nat.min_eq_left (hi.2 ((hks k).mp hk)), hj]
  · next hdown =>
    have hmem := (hks i).mpr hi.1
    rw [if_neg hdown, foldl_eq_of_fixed hmem (Nat.max_eq_right (Nat.zero_le i))
      fun k hk => Nat.max_eq_left (hi.2 ((hks k).mp hk)), hj]

section Siblings

variable {parent : Option Node} (hselected : ∀ n ∈ selected, n ∈ (ofDocument d).ordered)
  (hparent : ∀ n ∈ selected, (ofDocument d).parentOf? n = parent)

include hselected hparent

/-- Selected siblings are all outermost. -/
theorem isOutermost_iff_of_parentOf?_eq :
    (ofDocument d).IsOutermost selected n ↔ n ∈ selected := by
  refine ⟨And.left, fun hn => ⟨hn, fun a ha hsel => ?_⟩⟩
  have hin := (Outline.inBlock_line_iff d (hselected a hsel) (hselected n hn)).mpr (.inr ha)
  have hlevel := (Outline.level_lt_of_mem_ancestorsOf (hselected n hn) ha).2
  by_cases hlt : a.line < n.line
  · refine not_inBlock_of_parentOf?_eq (hselected a hsel) (hselected n hn) ?_ hlt hin
    rw [hparent a hsel, hparent n hn]
  · have hline : a.line = n.line := by
      have := hin.1
      omega
    rw [Heading.eq_of_line_eq (isOrdered d).lines (hselected a hsel) (hselected n hn) hline] at hlevel
    omega

theorem siblingsOf_of_mem (hn : n ∈ selected) : (ofDocument d).siblingsOf n =
    (ofDocument d).ordered.filter fun m => (ofDocument d).parentOf? m = parent := by
  rw [Outline.siblingsOf_eq_filter (hselected n hn), hparent n hn]

/-- The places of the selected nodes are those that their identifiers are found at. -/
theorem mem_map_findIdx_iff {siblings ns : List Node} {k : Nat}
    (hsiblings : siblings = (ofDocument d).ordered.filter fun m =>
      (ofDocument d).parentOf? m = parent) (hns : ∀ n, n ∈ ns ↔ n ∈ selected) :
    k ∈ ns.map (fun n => siblings.findIdx (·.id = n.id)) ↔ k ∈ (ofDocument d).places selected := by
  have hids : (siblings.map Node.id).Nodup := by
    rw [hsiblings]
    exact (isOrdered d).ids.sublist (List.filter_sublist.map _)
  have hfound {n : Node} (hn : n ∈ selected) : ∃ k : Nat, siblings[k]? = some n := by
    refine List.mem_iff_getElem?.mp ?_
    rw [hsiblings, List.mem_filter, decide_eq_true_eq]
    exact ⟨hselected n hn, hparent n hn⟩
  rw [List.mem_map]
  constructor
  · rintro ⟨n, hn, rfl⟩
    obtain ⟨k, hk⟩ := hfound ((hns n).mp hn)
    refine ⟨n, (hns n).mp hn, ?_⟩
    rwa [siblingsOf_of_mem hselected hparent ((hns n).mp hn), ← hsiblings,
      Outline.findIdx_id_eq hids hk]
  · rintro ⟨n, hn, hk⟩
    rw [siblingsOf_of_mem hselected hparent hn, ← hsiblings] at hk
    exact ⟨n, (hns n).mpr hn, Outline.findIdx_id_eq hids hk⟩

/-- Siblings are moved to the place that is counted from the first or the last of them. -/
theorem moveBlocks_eq {i j : Nat} {offset : Int} (hfirst : first ∈ selected)
    (hs : ((ofDocument d).siblingsOf first)[j]? = some s) (hj : (j : Int) = i + offset)
    (hi : if offset < 0 then IsLeast ((ofDocument d).places selected) i
      else IsGreatest ((ofDocument d).places selected) i) :
    moveBlocks (ofDocument d) d selected offset =
      .ok (relocate d (Block.select d (ofDocument d).ordered selected)
        (d.offsetAt (if offset < 0 then (blockRange d (ofDocument d).ordered s).start
          else (blockRange d (ofDocument d).ordered s).stop)).toNat) := by
  rw [siblingsOf_of_mem hselected hparent hfirst] at hs
  cases hsorted : sortByLine selected with
  | nil => exact absurd (mem_sortByLine.mpr hfirst) (by simp [hsorted])
  | cons n rest =>
    have hmem (m : Node) : m ∈ n :: rest ↔ m ∈ selected := by rw [← hsorted, mem_sortByLine]
    have hn := (hmem n).mp List.mem_cons_self
    have hsame : (rest.any fun m => ((ofDocument d).parentOf? m).map Node.id ≠
        ((ofDocument d).parentOf? n).map Node.id) = false := by
      rw [List.any_eq_false]
      intro m hm
      rw [hparent n hn, hparent m ((hmem m).mp (List.mem_cons_of_mem n hm))]
      simp
    have hsiblings := siblingsOf_of_mem hselected hparent hn
    have hcount : ∀ k ∈ (n :: rest).map fun m =>
        ((ofDocument d).siblingsOf n).findIdx (·.id = m.id),
        k ≤ ((ofDocument d).siblingsOf n).length := by
      intro k hk
      obtain ⟨m, -, rfl⟩ := List.mem_map.mp hk
      exact List.findIdx_le_length
    have hplace := place_eq (fun k => mem_map_findIdx_iff hselected hparent hsiblings hmem)
      hcount hi hj
    unfold moveBlocks
    rw [hsorted]
    simp only [hsame, Bool.false_eq_true, if_false]
    rw [hplace, if_neg (by omega), Int.toNat_natCast, hsiblings, hs]

theorem outermost_eq_of_parentOf?_eq : outermost d (ofDocument d).ordered selected =
    (ofDocument d).ordered.filter (· ∈ selected) := by
  rw [Outline.outermost_eq_filter hselected]
  exact List.filter_congr fun n _ =>
    decide_eq_decide.mpr (isOutermost_iff_of_parentOf?_eq hselected hparent)

/-- An end of a sibling is the start of a line, and no block of the others reaches over it. -/
theorem offsetAt_sibling (up : Prop) [Decidable up] (hsmem : s ∈ (ofDocument d).ordered)
    (hsparent : (ofDocument d).parentOf? s = parent) :
    let line := if up then s.line.toNat else (blockEnd d.lineCount (ofDocument d).ordered s).toNat
    (d.offsetAt (if up then (blockRange d (ofDocument d).ordered s).start
      else (blockRange d (ofDocument d).ordered s).stop)).toNat =
        lineStart (Line.ofText d.text) line ∧
    line ≤ (Line.ofText d.text).length ∧
    ∀ n ∈ selected, line ≤ n.line.toNat ∨
      (blockEnd d.lineCount (ofDocument d).ordered n).toNat ≤ line := by
  have ho := isOrdered d
  have hcount := lineCount_eq d
  have hline := ho.line_lt hsmem
  have hnonneg := ho.nonneg s hsmem
  have hlt := line_lt_blockEnd ho hsmem
  have hle := blockEnd_le ho s
  obtain ⟨hstart, hstop⟩ := offsetAt_blockRange ho hsmem
  have hsame {n : Node} (hn : n ∈ selected) :
      (ofDocument d).parentOf? n = (ofDocument d).parentOf? s := by rw [hparent n hn, hsparent]
  by_cases hup : up
  · simp only [if_pos hup]
    rw [hstart, Int.toNat_natCast]
    refine ⟨rfl, by omega, fun n hn => ?_⟩
    by_cases hbefore : n.line < s.line
    · have := blockEnd_le_of_parentOf?_eq (hselected n hn) hsmem (hsame hn) hbefore
      omega
    · omega
  · simp only [if_neg hup]
    rw [hstop, Int.toNat_natCast]
    refine ⟨rfl, by omega, fun n hn => ?_⟩
    rcases Int.lt_trichotomy n.line s.line with hbefore | hsline | hafter
    · have := blockEnd_le_of_parentOf?_eq (hselected n hn) hsmem (hsame hn) hbefore
      omega
    · rw [Heading.eq_of_line_eq ho.lines (hselected n hn) hsmem hsline]
      exact .inr (Nat.le_refl _)
    · have := blockEnd_le_of_parentOf?_eq hsmem (hselected n hn) (hsame hn).symm hafter
      omega

/-- Siblings that are put back at an end of a sibling stand before its line, or after its block. -/
theorem movedBefore_sibling (up : Prop) [Decidable up] (hend : Text.endsWith ['\n'] d.text = true)
    (hsmem : s ∈ (ofDocument d).ordered) (hsparent : (ofDocument d).parentOf? s = parent) :
    MovedBefore d (ofDocument d).ordered ((ofDocument d).ordered.filter (· ∈ selected))
      (if up then s.line.toNat else (blockEnd d.lineCount (ofDocument d).ordered s).toNat)
      (relocate d (Block.select d (ofDocument d).ordered selected)
        (d.offsetAt (if up then (blockRange d (ofDocument d).ordered s).start
          else (blockRange d (ofDocument d).ordered s).stop)).toNat) := by
  obtain ⟨hoffset, hline, houtside⟩ := offsetAt_sibling hselected hparent up hsmem hsparent
  rw [← outermost_eq_of_parentOf?_eq hselected hparent, Outline.outermost_eq_filter hselected,
    hoffset]
  exact movedBefore_select hend hselected hline fun n hn _ => houtside n hn

/-- Siblings are moved before the one at the place they are moved up to, or after the one at the
place they are moved down to. -/
theorem exists_moveBlocks {i j : Nat} {offset : Int} (hend : Text.endsWith ['\n'] d.text = true)
    (hfirst : first ∈ selected) (hs : ((ofDocument d).siblingsOf first)[j]? = some s)
    (hj : (j : Int) = i + offset)
    (hi : if offset < 0 then IsLeast ((ofDocument d).places selected) i
      else IsGreatest ((ofDocument d).places selected) i) :
    ∃ t, moveBlocks (ofDocument d) d selected offset = .ok t ∧
      MovedBefore d (ofDocument d).ordered ((ofDocument d).ordered.filter (· ∈ selected))
        (if offset < 0 then s.line.toNat
          else (blockEnd d.lineCount (ofDocument d).ordered s).toNat) t := by
  have hsmem := List.mem_of_getElem? hs
  rw [siblingsOf_of_mem hselected hparent hfirst, List.mem_filter, decide_eq_true_eq] at hsmem
  exact ⟨_, moveBlocks_eq hselected hparent hfirst hs hj hi,
    movedBefore_sibling hselected hparent (offset < 0) hend hsmem.1 hsmem.2⟩

end Siblings

theorem mem_ordered_of_parentOf? {p : Node} (hn : n ∈ (ofDocument d).ordered)
    (hp : (ofDocument d).parentOf? n = some p) : p ∈ (ofDocument d).ordered := by
  rw [Outline.parentOf?_eq_parentIn hn] at hp
  exact mem_of_parentIn hp

/-- Parents are told apart by their identifiers. -/
theorem parentOf?_eq_of_id_eq (hm : m ∈ (ofDocument d).ordered) (hn : n ∈ (ofDocument d).ordered)
    (hids : ((ofDocument d).parentOf? m).map Node.id = ((ofDocument d).parentOf? n).map Node.id) :
    (ofDocument d).parentOf? m = (ofDocument d).parentOf? n := by
  cases hp : (ofDocument d).parentOf? m with
  | none =>
    rw [hp, Option.map_none, eq_comm, Option.map_eq_none_iff] at hids
    rw [hids]
  | some p =>
    rw [hp, Option.map_some, eq_comm, Option.map_eq_some_iff] at hids
    obtain ⟨q, hq, hid⟩ := hids
    rw [hq, List.inj_on_of_nodup_map (isOrdered d).ids (mem_ordered_of_parentOf? hn hq)
      (mem_ordered_of_parentOf? hm hp) hid]

/-- A move that succeeds is one of siblings, and leaves the text alone or puts their blocks back at
an end of a sibling. -/
theorem moveBlocks_eq_relocate {offset : Int} {t : Text}
    (hselected : ∀ n ∈ selected, n ∈ (ofDocument d).ordered)
    (h : moveBlocks (ofDocument d) d selected offset = .ok t) :
    ∃ parent, (∀ n ∈ selected, (ofDocument d).parentOf? n = parent) ∧
      (∀ p ∈ parent, p ∈ (ofDocument d).ordered) ∧
      (t = d.text ∨ ∃ s ∈ (ofDocument d).ordered, (ofDocument d).parentOf? s = parent ∧
        t = relocate d (Block.select d (ofDocument d).ordered selected)
          (d.offsetAt (if offset < 0 then (blockRange d (ofDocument d).ordered s).start
            else (blockRange d (ofDocument d).ordered s).stop)).toNat) := by
  unfold moveBlocks at h
  cases hsorted : sortByLine selected with
  | nil =>
    rw [hsorted] at h
    refine ⟨none, fun n hn => ?_, by simp, .inl (Except.ok.inj h).symm⟩
    exact absurd (mem_sortByLine.mpr hn) (by simp [hsorted])
  | cons first rest =>
    rw [hsorted] at h
    have hmem (n : Node) : n ∈ first :: rest ↔ n ∈ selected := by rw [← hsorted, mem_sortByLine]
    have hfirst := (hmem first).mp List.mem_cons_self
    simp only at h
    split at h
    · exact absurd h (by simp)
    · next hsame =>
      have hparent : ∀ n ∈ selected,
          (ofDocument d).parentOf? n = (ofDocument d).parentOf? first := by
        intro n hn
        rcases List.mem_cons.mp ((hmem n).mpr hn) with rfl | hrest
        · rfl
        · have hids := List.any_eq_false.mp (Bool.eq_false_of_not_eq_true hsame) n hrest
          rw [decide_eq_true_eq, not_not] at hids
          exact parentOf?_eq_of_id_eq (hselected n hn) (hselected first hfirst) hids
      refine ⟨(ofDocument d).parentOf? first, hparent,
        fun p hp => mem_ordered_of_parentOf? (hselected first hfirst) hp, ?_⟩
      generalize (if offset < 0 then ((_ : Nat) : Int) + offset else ((_ : Nat) : Int) + offset) =
        place at h
      split at h
      · exact .inl (Except.ok.inj h).symm
      · split at h
        · exact .inl (Except.ok.inj h).symm
        · next s hs =>
          have hsmem := List.mem_of_getElem? hs
          rw [siblingsOf_of_mem hselected hparent hfirst, List.mem_filter,
            decide_eq_true_eq] at hsmem
          exact .inr ⟨s, hsmem.1, hsmem.2, (Except.ok.inj h).symm⟩

/-- A move that succeeds is one of siblings, and leaves the text alone or puts their blocks before
a sibling or after one. -/
theorem moveBlocks_eq_ok {offset : Int} {t : Text} (hend : Text.endsWith ['\n'] d.text = true)
    (hselected : ∀ n ∈ selected, n ∈ (ofDocument d).ordered)
    (h : moveBlocks (ofDocument d) d selected offset = .ok t) :
    ∃ parent, (∀ n ∈ selected, (ofDocument d).parentOf? n = parent) ∧
      (∀ p ∈ parent, p ∈ (ofDocument d).ordered) ∧
      (t = d.text ∨ ∃ s ∈ (ofDocument d).ordered, (ofDocument d).parentOf? s = parent ∧
        MovedBefore d (ofDocument d).ordered ((ofDocument d).ordered.filter (· ∈ selected))
          (if offset < 0 then s.line.toNat
            else (blockEnd d.lineCount (ofDocument d).ordered s).toNat) t) := by
  obtain ⟨parent, hparent, hmem, hcases⟩ := moveBlocks_eq_relocate hselected h
  refine ⟨parent, hparent, hmem, hcases.imp_right ?_⟩
  rintro ⟨s, hsmem, hsparent, rfl⟩
  exact ⟨s, hsmem, hsparent,
    movedBefore_sibling hselected hparent (offset < 0) hend hsmem hsparent⟩

/-! ## Before a target -/

/-- The target lies in the block of a selected node, or above an outermost one. -/
def Outline.IntoOwnSubtree (o : Outline) (selected : List Node) (target : Node) : Prop :=
  Covered o.ordered selected target.line ∨
    ∃ n, o.IsOutermost selected n ∧ target ∈ o.ancestorsOf n

instance (o : Outline) (selected : List Node) (target : Node) :
    Decidable (o.IntoOwnSubtree selected target) :=
  decidable_of_iff (Covered o.ordered selected target.line ∨
    ∃ n ∈ selected, o.IsOutermost selected n ∧ target ∈ o.ancestorsOf n)
    (or_congr Iff.rfl ⟨fun ⟨n, _, h⟩ => ⟨n, h⟩, fun ⟨n, h⟩ => ⟨n, h.1.1, h⟩⟩)

section Target

variable (hselected : ∀ n ∈ selected, n ∈ (ofDocument d).ordered)

include hselected

theorem any_contains_iff_intoOwnSubtree (htarget : target ∈ (ofDocument d).ordered) :
    ((Block.select d (ofDocument d).ordered selected).any fun b =>
      b.range.contains (blockRange d (ofDocument d).ordered target) ||
        (blockRange d (ofDocument d).ordered target).contains b.range) = true ↔
      (ofDocument d).IntoOwnSubtree selected target := by
  have ho := isOrdered d
  obtain ⟨hmem, -, hcovered⟩ := outermost_spec ho hselected
  rw [Block.select, List.any_map, List.any_eq_true, Outline.IntoOwnSubtree, ← hcovered]
  constructor
  · rintro ⟨n, hn, hcontains⟩
    rcases Bool.or_eq_true_iff.mp hcontains with hin | hin
    · exact .inl ⟨n, hn, (contains_blockRange_iff ho (hmem n hn) htarget).mp hin⟩
    · have hin := (contains_blockRange_iff ho htarget (hmem n hn)).mp hin
      rcases (Outline.inBlock_line_iff d htarget (hmem n hn)).mp hin with rfl | habove
      · exact .inl ⟨target, hn, inBlock_line _ target⟩
      · exact .inr ⟨n, (Outline.mem_outermost_iff hselected).mp hn, habove⟩
  · rintro (⟨n, hn, hin⟩ | ⟨n, hn, habove⟩)
    · exact ⟨n, hn, Bool.or_eq_true_iff.mpr
        (.inl ((contains_blockRange_iff ho (hmem n hn) htarget).mpr hin))⟩
    · have hin := (Outline.inBlock_line_iff d htarget (hselected n hn.1)).mpr (.inr habove)
      exact ⟨n, (Outline.mem_outermost_iff hselected).mpr hn, Bool.or_eq_true_iff.mpr
        (.inr ((contains_blockRange_iff ho htarget (hselected n hn.1)).mpr hin))⟩

omit hselected in
/-- The line of a target that is neither in a selected block nor above one is in none of them. -/
theorem outside_of_not_intoOwnSubtree (htarget : target ∈ (ofDocument d).ordered)
    (hout : ¬ (ofDocument d).IntoOwnSubtree selected target) :
    ∀ n ∈ selected, target.line.toNat ≤ n.line.toNat ∨
      (blockEnd d.lineCount (ofDocument d).ordered n).toNat ≤ target.line.toNat := by
  intro n hn
  have hin : ¬ InBlock (ofDocument d).ordered n target.line := fun hin => hout (.inl ⟨n, hn, hin⟩)
  rw [inBlock_iff (isOrdered d) ((isOrdered d).line_lt htarget)] at hin
  omega

variable (hne : selected ≠ [])

include hne

theorem select_ne_nil : Block.select d (ofDocument d).ordered selected ≠ [] := by
  obtain ⟨n, hn⟩ := List.exists_mem_of_ne_nil selected hne
  obtain ⟨-, -, hcovered⟩ := outermost_spec (isOrdered d) hselected
  obtain ⟨m, hm, -⟩ := (hcovered n.line).mpr ⟨n, hn, inBlock_line _ n⟩
  exact List.ne_nil_of_mem (List.mem_map_of_mem hm)

theorem moveBlocksBefore_none : moveBlocksBefore (ofDocument d) d selected none =
    .ok (relocate d (Block.select d (ofDocument d).ordered selected) d.text.length) := by
  have hblocks := select_ne_nil hselected hne
  unfold moveBlocksBefore
  split
  · next hnil => exact absurd hnil hblocks
  · next hblocks => rw [hblocks]

theorem moveBlocksBefore_some : moveBlocksBefore (ofDocument d) d selected (some target) =
    if (Block.select d (ofDocument d).ordered selected).any fun b =>
        b.range.contains (blockRange d (ofDocument d).ordered target) ||
          (blockRange d (ofDocument d).ordered target).contains b.range then
      .error .intoOwnSubtree
    else .ok (relocate d (Block.select d (ofDocument d).ordered selected)
      (d.offsetAt (blockRange d (ofDocument d).ordered target).start).toNat) := by
  have hblocks := select_ne_nil hselected hne
  unfold moveBlocksBefore
  split
  · next hnil => exact absurd hnil hblocks
  · next hblocks => rw [hblocks]

/-- Blocks are not moved before a target in them or above them. -/
theorem moveBlocksBefore_eq_error_iff (htarget : target ∈ (ofDocument d).ordered) :
    moveBlocksBefore (ofDocument d) d selected (some target) = .error .intoOwnSubtree ↔
      (ofDocument d).IntoOwnSubtree selected target := by
  rw [moveBlocksBefore_some hselected hne, ← any_contains_iff_intoOwnSubtree hselected htarget]
  split
  · next hany => exact iff_of_true rfl hany
  · next hany => exact iff_of_false (by simp) hany

end Target

/-- Selected siblings are moved up before a sibling or down after one, counted from the first or
the last of them. Outermost selected blocks are moved before a target that is neither in them nor
above them, or to the end of the text. -/
theorem movedBefore_moveBlocks (d : Document) (selected : List Node)
    (hend : Text.endsWith ['\n'] d.text = true) (hne : selected ≠ [])
    (hselected : ∀ n ∈ selected, n ∈ (ofDocument d).ordered) :
    let o := ofDocument d
    let siblings := o.ordered.filter (· ∈ selected)
    let outermost := o.ordered.filter fun n => o.IsOutermost selected n
    (∀ parent, (∀ n ∈ selected, o.parentOf? n = parent) →
      ∀ first ∈ selected, ∀ (i j : Nat) (s : Node) (offset : Int),
        (o.siblingsOf first)[j]? = some s → (j : Int) = i + offset →
        (offset < 0 → IsLeast (o.places selected) i →
          ∃ t, moveBlocks o d selected offset = .ok t ∧
            MovedBefore d o.ordered siblings s.line.toNat t) ∧
        (0 < offset → IsGreatest (o.places selected) i →
          ∃ t, moveBlocks o d selected offset = .ok t ∧
            MovedBefore d o.ordered siblings (blockEnd d.lineCount o.ordered s).toNat t)) ∧
    (∀ target ∈ o.ordered,
      (moveBlocksBefore o d selected (some target) = .error .intoOwnSubtree ↔
        o.IntoOwnSubtree selected target) ∧
      (¬ o.IntoOwnSubtree selected target →
        ∃ t, moveBlocksBefore o d selected (some target) = .ok t ∧
          MovedBefore d o.ordered outermost target.line.toNat t)) ∧
    ∃ t, moveBlocksBefore o d selected none = .ok t ∧
      MovedBefore d o.ordered outermost d.lineCount t := by
  intro o siblings outermost
  have ho := isOrdered d
  have hcount := lineCount_eq d
  refine ⟨fun parent hparent first hfirst i j s offset hs hj => ⟨fun hup hi => ?_, fun hdown hi => ?_⟩,
    fun target htarget => ⟨moveBlocksBefore_eq_error_iff hselected hne htarget, fun hout => ?_⟩, ?_⟩
  · have hmoved := exists_moveBlocks hselected hparent hend hfirst hs hj (by rwa [if_pos hup])
    rwa [if_pos hup] at hmoved
  · have hnot : ¬ offset < 0 := by omega
    have hmoved := exists_moveBlocks hselected hparent hend hfirst hs hj (by rwa [if_neg hnot])
    rwa [if_neg hnot] at hmoved
  · have hline := ho.line_lt htarget
    have hany := fun h => hout ((any_contains_iff_intoOwnSubtree hselected htarget).mp h)
    refine ⟨_, (moveBlocksBefore_some hselected hne).trans (if_neg hany), ?_⟩
    rw [(offsetAt_blockRange ho htarget).1, Int.toNat_natCast]
    exact movedBefore_select hend hselected (by omega)
      fun n hn _ => outside_of_not_intoOwnSubtree htarget hout n hn
  · refine ⟨_, moveBlocksBefore_none hselected hne, ?_⟩
    have hlength : d.text.length = lineStart (Line.ofText d.text) d.lineCount := by
      rw [lineStart, hcount, List.take_length, Line.join_ofText]
    rw [hlength]
    refine movedBefore_select hend hselected (by omega) fun n _ _ => ?_
    have := blockEnd_le ho n
    omega

/-- Mixed breaks, a skipped level, and a look-alike in code. -/
def mixedBlocks : Document :=
  ⟨[], "# A\r\n### B\n#### C\n# D\r\n~~~\n# no\n~~~\n# E\n# F\r\n".toList, .markdown⟩

/-- Two roots are moved down, and a node with one under it and a root up before another root. -/
theorem movedBefore_moveBlocks_mixed :
    let o := ofDocument mixedBlocks
    let a := o.ordered[0]
    let b := o.ordered[1]
    let c := o.ordered[2]
    let e := o.ordered[4]
    Text.endsWith ['\n'] mixedBlocks.text = true ∧
      (∀ n ∈ [e, a], n ∈ o.ordered) ∧ (∀ n ∈ [e, c, b], n ∈ o.ordered) ∧
      moveBlocks o mixedBlocks [e, a] 1 = .ok
        "# D\r\n~~~\n# no\n~~~\n# F\r\n# A\r\n### B\n#### C\n# E\n".toList ∧
      moveBlocksBefore o mixedBlocks [e, c, b] (some o.ordered[3]) = .ok
        "# A\r\n### B\n#### C\n# E\n# D\r\n~~~\n# no\n~~~\n# F\r\n".toList ∧
      moveBlocksBefore o mixedBlocks [e, c, b] (some a) = .error .intoOwnSubtree := by
  intro o a b c e
  have hend : Text.endsWith ['\n'] mixedBlocks.text = true := by decide
  have hroots : ∀ n ∈ [e, a], n ∈ o.ordered := by decide
  have hnested : ∀ n ∈ [e, c, b], n ∈ o.ordered := by decide
  obtain ⟨hmove, -⟩ := movedBefore_moveBlocks mixedBlocks [e, a] hend (by simp) hroots
  obtain ⟨-, hbefore, -⟩ := movedBefore_moveBlocks mixedBlocks [e, c, b] hend (by simp) hnested
  have hsiblings : ∀ n ∈ [e, a], o.siblingsOf n = [a, o.ordered[3], e, o.ordered[5]] := by
    intro n hn
    rw [siblingsOf_of_mem hroots (by decide : ∀ n ∈ [e, a], o.parentOf? n = none) hn]
    decide
  have hlast : IsGreatest (o.places [e, a]) 2 := by
    refine ⟨⟨e, by decide, by rw [hsiblings e (by decide)]; rfl⟩, ?_⟩
    rintro k ⟨n, hn, hk⟩
    rw [hsiblings n hn] at hk
    have hlt : k < 4 := (List.getElem?_eq_some_iff.mp hk).1
    by_contra hgt
    obtain rfl : k = 3 := by omega
    obtain rfl : o.ordered[5] = n := Option.some.inj hk
    exact absurd hn (by decide)
  refine ⟨hend, hroots, hnested, ?_, ?_, ?_⟩
  · obtain ⟨t, ht, hmoved⟩ := (hmove none (by decide) e (by decide) 2 3 o.ordered[5] 1
      (by rw [hsiblings e (by decide)]; rfl) (by decide)).2 (by decide) hlast
    rw [ht, hmoved.text]
    decide
  · obtain ⟨t, ht, hmoved⟩ := (hbefore o.ordered[3] (by decide)).2 (by decide)
    rw [ht, hmoved.text]
    decide
  · exact (hbefore a (by decide)).1.mpr (by decide)

end TaggedOutline
