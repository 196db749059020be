import TaggedOutline.Proofs.Edit.Cut

/-!
# Putting blocks back at another place

1. In a text that ends with a break the blocks end with breaks of their own, so they are put back
   as they are (`relocate_eq`).
2. The offset at which blocks are put back is that of a line less the lengths of the blocks before
   it, which is the length of the lines that are left before that line (`removedBefore_eq`).
3. So the blocks stand before that line in one piece, and no line is lost, added or changed
   (`movedBefore_relocate`).
-/

namespace TaggedOutline

/-- Blocks that end with breaks are put back as they are, in a text that ends with a break. -/
theorem relocate_eq {d : Document} {blocks : List Block} (target : Nat)
    (hend : Text.endsWith ['\n'] d.text = true)
    (hblocks : ∀ b ∈ blocks, Text.endsWith ['\n'] b.text = true)
    (hbare : removeBlocks d.text blocks = [] ∨
      Text.endsWith ['\n'] (removeBlocks d.text blocks) = true) :
    let place := target -
      (blocks.filter (·.start < target)).foldl (fun n b => n + (b.stop - b.start)) 0
    relocate d blocks target = (removeBlocks d.text blocks).take place ++
      blocks.flatMap Block.text ++ (removeBlocks d.text blocks).drop place := by
  intro place
  have hopen : ¬ ((removeBlocks d.text blocks).length ≤ place ∧ removeBlocks d.text blocks ≠ [] ∧
      ¬ Text.endsWith ['\n'] (removeBlocks d.text blocks) = true) :=
    fun h => hbare.elim h.2.1 h.2.2
  have hmoved : (blocks.flatMap fun b => terminated (lineBreak d.text) b.text) =
      blocks.flatMap Block.text :=
    List.flatMap_congr fun b hb => if_pos (hblocks b hb)
  unfold relocate
  simp only
  rw [if_neg hopen, if_neg hopen, if_pos hend, hmoved]

/-! ## Where blocks are put back -/

/-- The characters of the lines that are kept before a line. -/
theorem lineStart_sub (out : Nat → Bool) (ls : List Line) (k : Nat) :
    lineStart ls k - (Line.join (keep (fun i => !out i) 0 (ls.take k))).length =
      (Line.join (keep out 0 (ls.take k))).length := by
  have hlength := ((perm_keep out 0 (ls.take k)).flatMap_right Line.text).length_eq
  rw [List.flatMap_append, List.length_append] at hlength
  unfold lineStart Line.join
  omega

section Relocate

variable {d : Document} {ordered ns : List Node} {n : Node} {line : Nat}

/-- A line that holds a heading is not empty, so the lines after it start later. -/
theorem lineStart_lt_iff (ho : IsOrdered d ordered) (hn : n ∈ ordered) :
    lineStart (Line.ofText d.text) n.line.toNat < lineStart (Line.ofText d.text) line ↔
      n.line.toNat < line := by
  have hmono {a b : Nat} (hab : a ≤ b) :
      lineStart (Line.ofText d.text) a ≤ lineStart (Line.ofText d.text) b := by
    obtain ⟨rest, hrest⟩ := List.take_prefix_take_left (l := Line.ofText d.text) hab
    rw [lineStart, lineStart, ← hrest, Line.join_append, List.length_append]
    omega
  constructor
  · intro hlt
    by_contra hle
    have := hmono (a := line) (b := n.line.toNat) (by omega)
    omega
  · intro hlt
    obtain ⟨content, hcontent, hne⟩ := ho.solid n hn
    rw [Document.lines, Line.contents, List.getElem?_map, Option.map_eq_some_iff] at hcontent
    obtain ⟨l, hl, rfl⟩ := hcontent
    have hnext : lineStart (Line.ofText d.text) (n.line.toNat + 1) =
        lineStart (Line.ofText d.text) n.line.toNat + l.text.length := by
      rw [lineStart, List.take_add_one, hl, Line.join_append, List.length_append]
      simp [lineStart, Line.join]
    have hpos : 0 < l.text.length := by
      have := List.length_pos_of_ne_nil hne
      rw [Line.text, List.length_append]
      omega
    have := hmono (a := n.line.toNat + 1) (b := line) hlt
    omega

theorem length_blockText (ho : IsOrdered d ordered) (hn : n ∈ ordered) :
    (blockText d ordered n).length =
      (Block.ofNode d ordered n).stop - (Block.ofNode d ordered n).start := by
  obtain ⟨hstart, hstop⟩ := block_ends ho hn
  have hend := line_lt_blockEnd ho hn
  rw [hstart, hstop, blockText_eq ho hn, linesText]
  have hsplit := List.take_append_drop n.line.toNat
    ((Line.ofText d.text).take (blockEnd d.lineCount ordered n).toNat)
  rw [List.take_take, Nat.min_eq_left (by omega)] at hsplit
  unfold lineStart
  conv_rhs => rw [← hsplit, Line.join_append, List.length_append]
  omega

theorem blockText_ne_nil (ho : IsOrdered d ordered) (hn : n ∈ ordered) :
    blockText d ordered n ≠ [] := by
  intro hnil
  have hlength := length_blockText ho hn
  have hnonneg := ho.nonneg n hn
  have hend := line_lt_blockEnd ho hn
  have hlt : lineStart (Line.ofText d.text) n.line.toNat <
      lineStart (Line.ofText d.text) (blockEnd d.lineCount ordered n).toNat :=
    (lineStart_lt_iff ho hn).mpr (by omega)
  rw [hnil, (block_ends ho hn).1, (block_ends ho hn).2, List.length_nil] at hlength
  omega

variable (ho : IsOrdered d ordered) (hns : ∀ n ∈ ns, n ∈ ordered) (hapart : Apart ordered ns)
  (hline : line ≤ (Line.ofText d.text).length)
  (houtside : ∀ n ∈ ns, line ≤ n.line.toNat ∨ (blockEnd d.lineCount ordered n).toNat ≤ line)

include ho hns hapart hline houtside

/-- The blocks before a line have the lines before it that are in blocks. -/
theorem flatMap_blockText_filter :
    (ns.filter fun n => n.line.toNat < line).flatMap (blockText d ordered) =
      Line.join (keep (fun k => !decide (Covered ordered ns k)) 0
        ((Line.ofText d.text).take line)) := by
  have hcount := lineCount_eq d
  have hcovered (k : Nat) (hk : k < (Line.ofText d.text).length) :
      Covered ordered (ns.filter fun n => n.line.toNat < line) k ↔
        k < line ∧ Covered ordered ns k := by
    constructor
    · rintro ⟨n, hn, hin⟩
      obtain ⟨hn, hlt⟩ := List.mem_filter.mp hn
      rw [decide_eq_true_eq] at hlt
      have := ((inBlock_iff ho (by omega)).mp hin).2
      have := houtside n hn
      exact ⟨by omega, n, hn, hin⟩
    · rintro ⟨hlt, n, hn, hin⟩
      have := ho.nonneg n (hns n hn)
      have := hin.1
      exact ⟨n, List.mem_filter.mpr ⟨hn, decide_eq_true (by omega)⟩, hin⟩
  rw [flatMap_blockText ho (fun n hn => hns n (List.mem_filter.mp hn).1) (hapart.filter _),
    keep_split _ hline]
  have hafter : keep (fun k => !decide (Covered ordered (ns.filter fun n => n.line.toNat < line) k))
      line ((Line.ofText d.text).drop line) = [] := by
    refine keep_eq_nil fun k hk hlt => ?_
    rw [List.length_drop] at hlt
    rw [decide_eq_false fun h => absurd ((hcovered k (by omega)).mp h).1 (by omega)]
    rfl
  rw [hafter, List.append_nil]
  refine congrArg Line.join (keep_congr fun k _ hlt => ?_)
  rw [List.length_take] at hlt
  have hsame := (hcovered k (by omega)).trans (and_iff_right (show k < line by omega))
  rw [decide_eq_decide.mpr hsame]

/-- The characters of the blocks before a line. -/
theorem removedBefore_eq :
    ((ns.map (Block.ofNode d ordered)).filter fun b =>
        b.start < lineStart (Line.ofText d.text) line).foldl (fun k b => k + (b.stop - b.start)) 0 =
      (Line.join (keep (fun k => !decide (Covered ordered ns k)) 0
        ((Line.ofText d.text).take line))).length := by
  have hfilter : ((ns.map (Block.ofNode d ordered)).filter fun b =>
      b.start < lineStart (Line.ofText d.text) line) =
        (ns.filter fun n => n.line.toNat < line).map (Block.ofNode d ordered) := by
    rw [List.filter_map]
    refine congrArg _ (List.filter_congr fun n hn => decide_eq_decide.mpr ?_)
    rw [(block_ends ho (hns n hn)).1, lineStart_lt_iff ho (hns n hn)]
  rw [hfilter, ← flatMap_blockText_filter ho hns hapart hline houtside, List.length_flatMap,
    List.foldl_map, List.sum_eq_foldl, List.foldl_map]
  refine List.foldl_ext _ _ _ fun k n hn => ?_
  rw [length_blockText ho (hns n (List.mem_filter.mp hn).1)]

end Relocate

/-- The lines of a document with those of the blocks of some nodes in one piece before a line. -/
def arranged (d : Document) (ordered ns : List Node) (line : Nat) : List Line :=
  keep (fun k => Covered ordered ns k) 0 ((Line.ofText d.text).take line) ++
    (keep (fun k => !decide (Covered ordered ns k)) 0 (Line.ofText d.text) ++
      keep (fun k => Covered ordered ns k) line ((Line.ofText d.text).drop line))

theorem perm_arranged {d : Document} {ordered ns : List Node} {line : Nat}
    (hline : line ≤ (Line.ofText d.text).length) :
    (arranged d ordered ns line).Perm (Line.ofText d.text) := by
  have hall := perm_keep (fun k => Covered ordered ns k) 0 (Line.ofText d.text)
  rw [keep_split _ hline, List.append_assoc] at hall
  exact (List.perm_append_comm.append_left _).trans hall

/-- The blocks of some nodes are cut out of a document and put back before a line, in one piece.
Every line stays as it is, and those of no block keep their order. -/
structure MovedBefore (d : Document) (ordered ns : List Node) (line : Nat) (result : Text) :
    Prop where
  text : result =
    Line.join (keep (fun k => Covered ordered ns k) 0 ((Line.ofText d.text).take line)) ++
      ns.flatMap (blockText d ordered) ++
      Line.join (keep (fun k => Covered ordered ns k) line ((Line.ofText d.text).drop line))
  lines : (Line.ofText result).Perm (Line.ofText d.text)
  order : (keep (fun k => Covered ordered ns k) 0 (Line.ofText d.text)).Sublist (Line.ofText result)

section Moved

variable {d : Document} {ordered ns : List Node} {line : Nat} {out : Nat → Bool}

/-- Closed lines that change their places are split as they are. -/
theorem perm_ofText_join {ls : List Line} (hend : Text.endsWith ['\n'] d.text = true)
    (hperm : ls.Perm (Line.ofText d.text)) :
    (Line.ofText (Line.join ls)).Perm (Line.ofText d.text) := by
  have hclosed := Line.isClosed_of_endsWith hend
  have hsplit := Line.ofText_join_of_isClosed hclosed
  rw [Line.join_ofText] at hsplit
  rw [hsplit, Line.ofText_join_of_isClosed fun l hl => hclosed l (hperm.mem_iff.mp hl)]
  exact (hperm.filter _).append_right _

/-- Lines that are among closed lines in their order are among the lines these are split into. -/
theorem sublist_ofText_join {ls ls' : List Line} (hend : Text.endsWith ['\n'] d.text = true)
    (hperm : ls.Perm (Line.ofText d.text)) (hsub : ls'.Sublist ls)
    (hsub' : ls'.Sublist (Line.ofText d.text)) : ls'.Sublist (Line.ofText (Line.join ls)) := by
  obtain ⟨ended, hsplit, hended⟩ := Line.exists_ofText_of_endsWith hend
  have hclosed := Line.isClosed_of_endsWith hend
  rw [Line.ofText_join_of_isClosed fun l hl => hclosed l (hperm.mem_iff.mp hl)]
  rw [hsplit] at hsub'
  obtain ⟨front, last, rfl, hfront, hlast⟩ := List.sublist_append_iff.mp hsub'
  refine List.Sublist.append ?_ hlast
  have hself : front.filter (· ≠ ⟨[], .none⟩) = front :=
    List.filter_eq_self.mpr fun l hl => decide_eq_true (hended l (hfront.subset hl)).ne_empty
  rw [← hself]
  exact ((List.sublist_append_left front last).trans hsub).filter _

variable (hend : Text.endsWith ['\n'] d.text = true) (ho : IsOrdered d ordered)
  (hns : ∀ n ∈ ns, n ∈ ordered) (hapart : Apart ordered ns)
  (hline : line ≤ (Line.ofText d.text).length)

include hend ho hns

/-- A block ends with a break of its own. -/
theorem endsWith_blockText {n : Node} (hn : n ∈ ns) :
    Text.endsWith ['\n'] (blockText d ordered n) = true := by
  have hclosed := Line.isClosed_of_endsWith hend
  have hne := blockText_ne_nil ho (hns n hn)
  rw [blockText_eq ho (hns n hn), linesText] at hne ⊢
  refine (Line.endsWith_join fun l hl => hclosed l ?_).resolve_left hne
  exact List.take_subset _ _ (List.drop_subset _ _ hl)

include hapart hline

theorem movedBefore_join :
    MovedBefore d ordered ns line
      (Line.join (keep (fun k => Covered ordered ns k) 0 ((Line.ofText d.text).take line)) ++
        ns.flatMap (blockText d ordered) ++
        Line.join (keep (fun k => Covered ordered ns k) line ((Line.ofText d.text).drop line))) := by
  have hkeep := keep_split (fun k => Covered ordered ns k) hline
  have hperm : (arranged d ordered ns line).Perm (Line.ofText d.text) := perm_arranged hline
  have htext := flatMap_blockText ho hns hapart
  unfold arranged at hperm
  set front := keep (fun k => decide (Covered ordered ns k)) 0 ((Line.ofText d.text).take line)
  set back := keep (fun k => decide (Covered ordered ns k)) line ((Line.ofText d.text).drop line)
  set moved := keep (fun k => !decide (Covered ordered ns k)) 0 (Line.ofText d.text)
  rw [← List.append_assoc] at hperm
  have hsub : (front ++ back).Sublist (Line.ofText d.text) := by
    rw [← hkeep]
    exact keep_sublist _ 0 _
  have hjoin : Line.join front ++ ns.flatMap (blockText d ordered) ++ Line.join back =
      Line.join (front ++ moved ++ back) := by
    rw [htext, Line.join_append, Line.join_append]
  rw [hjoin]
  refine ⟨hjoin.symm, perm_ofText_join hend hperm, ?_⟩
  rw [hkeep]
  refine sublist_ofText_join hend hperm ?_ hsub
  exact (List.sublist_append_left front moved).append_right back

/-- Blocks that are put back at the start of a line outside of them stand before that line. -/
theorem movedBefore_relocate
    (houtside : ∀ n ∈ ns, line ≤ n.line.toNat ∨ (blockEnd d.lineCount ordered n).toNat ≤ line) :
    MovedBefore d ordered ns line
      (relocate d (ns.map (Block.ofNode d ordered)) (lineStart (Line.ofText d.text) line)) := by
  have hclosed := Line.isClosed_of_endsWith hend
  have hblocks : ∀ b ∈ ns.map (Block.ofNode d ordered), Text.endsWith ['\n'] b.text = true := by
    intro b hb
    obtain ⟨n, hn, rfl⟩ := List.mem_map.mp hb
    exact endsWith_blockText hend ho hns hn
  have hbare : removeBlocks d.text (ns.map (Block.ofNode d ordered)) = [] ∨
      Text.endsWith ['\n'] (removeBlocks d.text (ns.map (Block.ofNode d ordered))) = true := by
    rw [removeBlocks_eq ho hns hapart]
    exact Line.endsWith_join fun l hl => hclosed l (mem_of_mem_keep hl)
  rw [relocate_eq _ hend hblocks hbare, removeBlocks_eq ho hns hapart,
    removedBefore_eq ho hns hapart hline houtside, lineStart_sub, keep_split _ hline,
    Line.join_append, List.take_left, List.drop_left, List.flatMap_map]
  exact movedBefore_join hend ho hns hapart hline

end Moved

end TaggedOutline
