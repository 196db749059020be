import TaggedOutline.Edit.Blocks
import TaggedOutline.Proofs.Outline.Tiling

/-!
# Cutting blocks out

The ends of a block are starts of lines (`block_ends`). So cutting blocks that are apart out of a
text leaves out their lines (`removeBlocks_eq`).
-/

namespace TaggedOutline

variable {d : Document} {ordered ns : List Node} {n : Node}

/-! ## The ends of a block -/

/-- A block is cut out from the start of its heading to the start of the line after it. -/
theorem block_ends (ho : IsOrdered d ordered) (hn : n ∈ ordered) :
    (Block.ofNode d ordered n).start = lineStart (Line.ofText d.text) n.line.toNat ∧
      (Block.ofNode d ordered n).stop =
        lineStart (Line.ofText d.text) (blockEnd d.lineCount ordered n).toNat := by
  obtain ⟨hstart, hstop⟩ := offsetAt_blockRange ho hn
  unfold Block.ofNode
  simp only
  rw [hstart, hstop]
  exact ⟨Int.toNat_natCast _, Int.toNat_natCast _⟩

/-! ## Cutting -/

/-- Cutting out the lines from `a` up to `b`, where all lines left out before lie after these. -/
theorem cut_join_keep {out out' : Nat → Bool} {ls : List Line} {a b : Nat} (hab : a ≤ b)
    (hb : b ≤ ls.length) (hout : ∀ k < b, out k = false)
    (hout' : ∀ k < ls.length, out' k = (decide (a ≤ k ∧ k < b) || out k)) :
    (Line.join (keep out 0 ls)).take (lineStart ls a) ++
        (Line.join (keep out 0 ls)).drop (lineStart ls b) =
      Line.join (keep out' 0 ls) := by
  obtain ⟨front, rest, hls, hfront⟩ : ∃ front rest, ls = front ++ rest ∧ front.length = a :=
    ⟨ls.take a, ls.drop a, (List.take_append_drop a ls).symm, by rw [List.length_take]; omega⟩
  obtain ⟨middle, later, rfl, hmiddle⟩ : ∃ middle later, rest = middle ++ later ∧
      middle.length = b - a :=
    ⟨rest.take (b - a), rest.drop (b - a), (List.take_append_drop _ rest).symm, by
      have := congrArg List.length hls
      rw [List.length_append] at this
      rw [List.length_take]
      omega⟩
  have hlength : ls.length = b + later.length := by
    rw [hls, List.length_append, List.length_append]
    omega
  have hstart : lineStart ls a = (Line.join front).length := by
    rw [lineStart, hls, ← hfront, List.take_left]
  have hstop : lineStart ls b = (Line.join front ++ Line.join middle).length := by
    rw [lineStart, hls, ← List.append_assoc, List.take_left' (by rw [List.length_append]; omega),
      Line.join_append]
  have hkeep : keep out 0 ls = front ++ middle ++ keep out b later := by
    rw [hls, ← List.append_assoc, keep_append, keep_eq_self, List.length_append, hfront, hmiddle,
      show 0 + (a + (b - a)) = b by omega]
    intro k _ hk
    rw [List.length_append] at hk
    exact hout k (by omega)
  have hkeep' : keep out' 0 ls = front ++ keep out b later := by
    rw [hls, keep_append, keep_append, keep_eq_self, keep_eq_nil, List.nil_append,
      show 0 + front.length + middle.length = b by omega]
    · refine congrArg _ (keep_congr fun k hk hlt => ?_)
      rw [hout' k (by omega), decide_eq_false (by omega), Bool.false_or]
    · intro k hk hlt
      rw [hout' k (by omega), decide_eq_true (by omega), Bool.true_or]
    · intro k _ hlt
      rw [hout' k (by omega), decide_eq_false (by omega), Bool.false_or]
      exact hout k (by omega)
  rw [hkeep, hkeep', Line.join_append, Line.join_append, Line.join_append, hstart, hstop, List.drop_left,
    List.append_assoc, List.take_left]

/-- Cutting blocks that are apart out of a text leaves out their lines. -/
theorem removeBlocks_eq (ho : IsOrdered d ordered) (hns : ∀ n ∈ ns, n ∈ ordered)
    (hapart : Apart ordered ns) :
    removeBlocks d.text (ns.map (Block.ofNode d ordered)) =
      Line.join (keep (fun k => Covered ordered ns k) 0 (Line.ofText d.text)) := by
  induction ns with
  | nil =>
    rw [keep_eq_self (by simp [Covered]), Line.join_ofText]
    rfl
  | cons n ns ih =>
    have hn := hns n List.mem_cons_self
    have hrest := ih (fun m hm => hns m (List.mem_cons_of_mem n hm)) (List.pairwise_cons.mp hapart).2
    obtain ⟨hstart, hstop⟩ := block_ends ho hn
    obtain ⟨hbefore, hcovered⟩ := covered_cons_of_apart ho hns hapart
    have hline := line_lt_blockEnd ho hn
    have hle := blockEnd_le ho n
    have hcount := lineCount_eq d
    show (removeBlocks d.text (ns.map _)).take _ ++ (removeBlocks d.text (ns.map _)).drop _ = _
    rw [hrest, hstart, hstop]
    refine cut_join_keep (by omega) (by omega) (fun k hk => decide_eq_false (hbefore k hk))
      fun k hk => ?_
    rw [← Bool.decide_or]
    exact decide_eq_decide.mpr (hcovered k hk)

end TaggedOutline
