import TaggedOutline.Proofs.Outline.Block

/-!
# The ranges of blocks

The range of a block contains that of another iff its heading is the other one or above it, and the
ranges of blocks are nested or have no position in common. A line lies in the ranges of the last
heading at or before it and of the headings above that one, as all headings between a heading and a
line of its block are deeper (`contains_blockRange_iff_ancestor`). The range of a block contains that
of the line of a heading iff it contains that of its block (`contains_range_iff`).

With the nodes of another text a block still ends at a later heading of that text, but without one
it ends with the document, which may have fewer lines than come before the heading
(`start_le_stop_blockRange_iff`).
-/

namespace TaggedOutline

/-- A position lies in a range: it is not before the start, and before the end. -/
def Range.Covers (r : Range) (p : Position) : Prop := r.start ≤ p ∧ p < r.stop

theorem Position.lt_iff {p q : Position} :
    p < q ↔ p.line < q.line ∨ p.line = q.line ∧ p.character < q.character :=
  Iff.rfl

theorem Position.not_le_of_lt {p q : Position} (h : p < q) : ¬ q ≤ p := by
  rw [Position.lt_iff] at h
  rw [Position.le_iff]
  omega

theorem Position.lt_of_lt_of_le {p q r : Position} (hpq : p < q) (hqr : q ≤ r) : p < r := by
  rw [Position.lt_iff] at hpq ⊢
  rw [Position.le_iff] at hqr
  omega

section Covers

variable {d : Document} {ordered : List Node} {m n : Node}

theorem line_lt_of_lt_endPosition {l : Int} (hl : (⟨l, 0⟩ : Position) < d.endPosition) :
    l < d.lineCount := by
  have hlast : d.endPosition.line = d.lineCount - 1 := rfl
  rw [Position.lt_iff, hlast] at hl
  simp only at hl
  omega

/-- The lines whose starts a range covers are those of the block. -/
theorem covers_blockRange_iff (ho : IsOrdered d ordered) (hn : n ∈ ordered) {l : Int}
    (hl : (⟨l, 0⟩ : Position) < d.endPosition) :
    (blockRange d ordered n).Covers ⟨l, 0⟩ ↔ InBlock ordered n l := by
  have hcount := line_lt_of_lt_endPosition hl
  have hstart : (⟨n.line, 0⟩ : Position) ≤ ⟨l, 0⟩ ↔ n.line ≤ l := by
    rw [Position.le_iff]
    simp only
    omega
  have hstop : (⟨l, 0⟩ : Position) < placeBefore d (blockEnd d.lineCount ordered n) ↔
      l < blockEnd d.lineCount ordered n := by
    unfold placeBefore
    split
    · rw [Position.lt_iff]
      simp only
      omega
    · exact iff_of_true hl (by omega)
  rw [blockRange_eq ho hn, Range.Covers, inBlock_iff ho hcount, hstart, hstop]

/-- A block that does not reach to a later heading ends before it. -/
theorem stop_le_start (ho : IsOrdered d ordered) (hm : m ∈ ordered) (hn : n ∈ ordered)
    (hmn : m.line ≤ n.line) (hout : ¬ InBlock ordered m n.line) :
    (blockRange d ordered m).stop ≤ (blockRange d ordered n).start := by
  have hline := ho.line_lt hn
  rw [inBlock_iff ho hline] at hout
  rw [blockRange_eq ho hm, blockRange_eq ho hn]
  simp only
  rw [placeBefore, if_pos (by omega), Position.le_iff]
  simp only
  omega

/-- Blocks of which neither lies in the other have no position in common. -/
theorem not_covers_both (ho : IsOrdered d ordered) (hm : m ∈ ordered) (hn : n ∈ ordered)
    (hmn : ¬ InBlock ordered m n.line) (hnm : ¬ InBlock ordered n m.line) (p : Position) :
    ¬ ((blockRange d ordered m).Covers p ∧ (blockRange d ordered n).Covers p) := by
  rintro ⟨⟨hmstart, hmstop⟩, hnstart, hnstop⟩
  rcases Int.le_total m.line n.line with h | h
  · exact Position.not_le_of_lt
      (Position.lt_of_lt_of_le hmstop (stop_le_start ho hm hn h hmn)) hnstart
  · exact Position.not_le_of_lt
      (Position.lt_of_lt_of_le hnstop (stop_le_start ho hn hm h hnm)) hmstart

end Covers

namespace Outline

variable {d : Document} {n g : Node} {l : Int}

/-! ## The range of a heading -/

/-- A heading is on a line that is not empty, all of which is its range. -/
theorem exists_range_eq (hn : n ∈ (ofDocument d).ordered) :
    ∃ line, d.lines[n.line.toNat]? = some line ∧ line ≠ [] ∧
      n.range = Range.ofLine n.line line.length := by
  obtain ⟨h, hh, hrange, hline⟩ := exists_of_mem_ordered hn
  obtain ⟨line, hget, hread⟩ := Heading.exists_line_of_mem_ofText hh
  obtain ⟨solid, hsolid, hne⟩ := (isOrdered d).solid n hn
  rw [← hline] at hget
  obtain rfl : solid = line := Option.some.inj (hsolid.symm.trans hget)
  exact ⟨solid, hget, hne, by rw [hrange, hline, Heading.range_of_ofLine? hread]⟩

/-- The range of a block contains that of a heading iff the heading lies in the block. -/
theorem contains_range_iff (hn : n ∈ (ofDocument d).ordered) (hg : g ∈ (ofDocument d).ordered) :
    (blockRange d (ofDocument d).ordered n).contains g.range = true ↔
      InBlock (ofDocument d).ordered n g.line := by
  have ho := isOrdered d
  have hline := ho.line_lt hg
  obtain ⟨line, hget, hne, hrange⟩ := exists_range_eq hg
  have hpos := List.length_pos_of_ne_nil hne
  have hstart : (⟨n.line, 0⟩ : Position) ≤ ⟨g.line, 0⟩ ↔ n.line ≤ g.line := by
    rw [Position.le_iff]
    simp only
    omega
  have hstop : (⟨g.line, line.length⟩ : Position) ≤
      placeBefore d (blockEnd d.lineCount (ofDocument d).ordered n) ↔
        g.line < blockEnd d.lineCount (ofDocument d).ordered n := by
    unfold placeBefore
    rw [Position.le_iff]
    split
    · simp only
      omega
    · refine iff_of_true ?_ (by omega)
      -- The line of the heading ends at the end of the document, or is not the last one.
      have hlast : d.endPosition.line = d.lineCount - 1 := rfl
      by_cases h : g.line = d.lineCount - 1
      · exact .inr ⟨h.trans hlast.symm, Int.le_of_eq (character_endPosition hget h).symm⟩
      · exact .inl (by rw [hlast]; simp only; omega)
  rw [inBlock_iff ho hline, blockRange_eq ho hn, hrange, Range.contains, Bool.and_eq_true,
    decide_eq_true_eq, decide_eq_true_eq]
  exact and_congr hstart hstop

/-! ## The heading at a line -/

/-- The items in line order that come at or before a line are those that are taken first. -/
theorem mem_takeWhile_line {ns : List Node} (hns : ns.Pairwise (·.line < ·.line)) (hn : n ∈ ns)
    (hl : n.line ≤ l) : n ∈ ns.takeWhile (·.line ≤ l) := by
  induction ns with
  | nil => exact absurd hn (by simp)
  | cons x ns ih =>
    obtain ⟨hfirst, hrest⟩ := List.pairwise_cons.mp hns
    rcases List.mem_cons.mp hn with rfl | hn
    · rw [List.takeWhile_cons_of_pos (by simpa using hl)]
      exact List.mem_cons_self
    · have := hfirst n hn
      rw [List.takeWhile_cons_of_pos (by simp; omega)]
      exact List.mem_cons_of_mem x (ih hrest hn)

theorem exists_headingAtLine? (hn : n ∈ (ofDocument d).ordered) (hl : n.line ≤ l) :
    ∃ g, (ofDocument d).headingAtLine? l = some g := by
  have hmem := mem_takeWhile_line (isOrdered d).lines hn hl
  exact ⟨_, List.getLast?_eq_some_getLast (List.ne_nil_of_mem hmem)⟩

/-- The heading at a line is the last one that does not come after it. -/
theorem headingAtLine?_spec (h : (ofDocument d).headingAtLine? l = some g) :
    g ∈ (ofDocument d).ordered ∧ g.line ≤ l ∧
      ∀ m ∈ (ofDocument d).ordered, m.line ≤ l → m.line ≤ g.line := by
  have hlines := (isOrdered d).lines
  have hmem := List.mem_of_getLast? h
  obtain ⟨front, hfront⟩ := List.getLast?_eq_some_iff.mp h
  refine ⟨(List.takeWhile_sublist _).subset hmem, by simpa using List.mem_takeWhile_imp hmem,
    fun m hm hl => ?_⟩
  have htaken := hlines.sublist (List.takeWhile_sublist fun x : Node => decide (x.line ≤ l))
  have hm' := mem_takeWhile_line hlines hm hl
  rw [hfront] at htaken hm'
  rcases List.mem_append.mp hm' with hm' | hm'
  · exact Int.le_of_lt ((List.pairwise_append.mp htaken).2.2 m hm' g (by simp))
  · rw [List.mem_singleton.mp hm']

/-- A line lies in the blocks of the heading at it and of the headings above that one. -/
theorem inBlock_iff_headingAtLine? (hn : n ∈ (ofDocument d).ordered) :
    InBlock (ofDocument d).ordered n l ↔ ∃ g, (ofDocument d).headingAtLine? l = some g ∧
      (n = g ∨ n ∈ (ofDocument d).ancestorsOf g) := by
  constructor
  · intro h
    obtain ⟨g, hg⟩ := exists_headingAtLine? hn h.1
    obtain ⟨hmem, hgl, hlast⟩ := headingAtLine?_spec hg
    have hin := h.of_le (hlast n hn h.1) hgl
    exact ⟨g, hg, (inBlock_line_iff d hn hmem).mp hin⟩
  · rintro ⟨g, hg, habove⟩
    obtain ⟨hmem, hgl, hlast⟩ := headingAtLine?_spec hg
    have hin := (inBlock_line_iff d hn hmem).mpr habove
    -- No heading stands between `g` and the line.
    refine ⟨by have := hin.1; omega, fun m hm hnm hml => ?_⟩
    exact hin.2 m hm hnm (hlast m hm hml)

/-- Ranges contain each other as the headings lie under each other, and are apart otherwise; a line
lies in the ranges of the heading at it and of those above that one. -/
theorem contains_blockRange_iff_ancestor (d : Document) :
    let o := ofDocument d
    (∀ m ∈ o.ordered, ∀ n ∈ o.ordered,
      ((blockRange d o.ordered m).contains (blockRange d o.ordered n) = true ↔
        m = n ∨ m ∈ o.ancestorsOf n) ∧
      ((blockRange d o.ordered m).contains (blockRange d o.ordered n) = false →
        (blockRange d o.ordered n).contains (blockRange d o.ordered m) = false →
        ∀ p, ¬ ((blockRange d o.ordered m).Covers p ∧ (blockRange d o.ordered n).Covers p))) ∧
    ∀ l : Int, (⟨l, 0⟩ : Position) < d.endPosition →
      (∀ n ∈ o.ordered, (blockRange d o.ordered n).Covers ⟨l, 0⟩ ↔
        ∃ g, o.headingAtLine? l = some g ∧ (n = g ∨ n ∈ o.ancestorsOf g)) ∧
      ((∀ n ∈ o.ordered, l < n.line) → o.headingAtLine? l = none) := by
  intro o
  have ho := isOrdered d
  refine ⟨fun m hm n hn => ⟨?_, fun hmn hnm => ?_⟩, fun l hl => ⟨fun n hn => ?_, fun hfirst => ?_⟩⟩
  · rw [contains_blockRange_iff ho hm hn, inBlock_line_iff d hm hn]
  · rw [Bool.eq_false_iff, ne_eq, contains_blockRange_iff ho hm hn] at hmn
    rw [Bool.eq_false_iff, ne_eq, contains_blockRange_iff ho hn hm] at hnm
    exact not_covers_both ho hm hn hmn hnm
  · rw [covers_blockRange_iff ho hn hl, inBlock_iff_headingAtLine? hn]
  · cases hg : o.headingAtLine? l with
    | none => rfl
    | some g =>
      obtain ⟨hmem, hgl, -⟩ := headingAtLine?_spec hg
      have := hfirst g hmem
      omega

/-- A text before the first heading, a skipped level, and a block that ends with the document. -/
theorem contains_blockRange_iff_ancestor_skipped :
    let d : Document := ⟨[], "intro\n## A\n#### B\r\ntext\n### C\n# D\nend".toList, .markdown⟩
    let o := ofDocument d
    (⟨3, 0⟩ : Position) < d.endPosition ∧
      ∃ a ∈ o.ordered, ∃ b ∈ o.ordered, ∃ c ∈ o.ordered,
        [a.label, b.label, c.label] = [['A'], ['B'], ['C']] ∧
        (blockRange d o.ordered a).contains (blockRange d o.ordered b) = true ∧
        (∀ p, ¬ ((blockRange d o.ordered b).Covers p ∧ (blockRange d o.ordered c).Covers p)) ∧
        (blockRange d o.ordered a).Covers ⟨3, 0⟩ ∧ (blockRange d o.ordered b).Covers ⟨3, 0⟩ ∧
        ¬ (blockRange d o.ordered c).Covers ⟨3, 0⟩ := by
  intro d o
  have hl : (⟨3, 0⟩ : Position) < d.endPosition := by decide
  obtain ⟨hranges, hline⟩ := contains_blockRange_iff_ancestor d
  have hcovers := (hline 3 hl).1
  have ha : o.ordered[0] ∈ o.ordered := List.getElem_mem _
  have hb : o.ordered[1] ∈ o.ordered := List.getElem_mem _
  have hc : o.ordered[2] ∈ o.ordered := List.getElem_mem _
  have hat : o.headingAtLine? 3 = some o.ordered[1] := by decide
  refine ⟨hl, _, ha, _, hb, _, hc, by decide, ?_, ?_, ?_, ?_, ?_⟩
  · exact ((hranges _ ha _ hb).1).mpr (by decide)
  · exact (hranges _ hb _ hc).2 (by decide) (by decide)
  · exact (hcovers _ ha).mpr ⟨_, hat, by decide⟩
  · exact (hcovers _ hb).mpr ⟨_, hat, by decide⟩
  · rw [hcovers _ hc]
    rintro ⟨g, hg, habove⟩
    obtain rfl := Option.some.inj (hat.symm.trans hg)
    revert habove
    decide

/-! ## Nodes of another text -/

/-- A later heading that is not deeper; the first of them ends the block of `n`. -/
def EndsBlock (n m : Node) : Prop := n.line < m.line ∧ m.level ≤ n.level

instance (n m : Node) : Decidable (EndsBlock n m) := inferInstanceAs (Decidable (_ ∧ _))

/-- With the nodes of another text `e`, a block ends at the first later heading that is not deeper, or
with the document if there is none. The start of its range is not after the end iff there is such a
heading, or the document has the line of the heading. -/
theorem start_le_stop_blockRange_iff (d e : Document) (n : Node)
    (hn : n ∈ (ofDocument e).ordered) :
    let r := blockRange d (ofDocument e).ordered n
    r.start = ⟨n.line, 0⟩ ∧
      ((∀ m ∈ (ofDocument e).ordered, ¬ EndsBlock n m) → r.stop = d.endPosition) ∧
      (∀ m ∈ (ofDocument e).ordered, EndsBlock n m →
        (∀ k ∈ (ofDocument e).ordered, EndsBlock n k → m.line ≤ k.line) → r.stop = ⟨m.line, 0⟩) ∧
      (r.start ≤ r.stop ↔ n.line < d.lineCount ∨ ∃ m ∈ (ofDocument e).ordered, EndsBlock n m) := by
  intro r
  have hr : r = _ := blockRange_eq_find? d (isOrdered e) hn
  rw [hr]
  cases hnext : (ofDocument e).ordered.find? fun m => n.line < m.line ∧ m.level ≤ n.level with
  | none =>
    have hnone : ∀ m ∈ (ofDocument e).ordered, ¬ EndsBlock n m :=
      fun m hm hends => List.find?_eq_none.mp hnext m hm (decide_eq_true hends)
    refine ⟨rfl, fun _ => rfl, fun m hm hends => absurd hends (hnone m hm), ?_⟩
    rw [Option.map_none, Option.getD_none, or_iff_left fun ⟨m, hm, h⟩ => hnone m hm h]
    have hlast : d.endPosition.line = d.lineCount - 1 := rfl
    have hcharacter : 0 ≤ d.endPosition.character := Int.natCast_nonneg _
    rw [Position.le_iff, hlast]
    simp only
    omega
  | some next =>
    have hmem := List.mem_of_find?_eq_some hnext
    have hends : EndsBlock n next := by
      have := List.find?_some hnext
      exact of_decide_eq_true this
    rw [Option.map_some, Option.getD_some]
    refine ⟨rfl, fun hnone => absurd hends (hnone next hmem), fun m hm hm' hfirst => ?_,
      iff_of_true (.inl hends.1) (.inr ⟨next, hmem, hends⟩)⟩
    have hle := (isOrdered e).line_le_of_find? hnext hm (decide_eq_true hm')
    rw [Int.le_antisymm hle (hfirst next hmem hends)]

/-- The document has lost its last line: the first heading still ends at the last one, and that one
begins on a line that is left. -/
theorem start_le_stop_blockRange_shrunk :
    let d : Document := ⟨[], "x\r\ny\nz".toList, .markdown⟩
    let e : Document := ⟨[], "# A\n## B\r\n# C\nend".toList, .markdown⟩
    ∃ a ∈ (ofDocument e).ordered, ∃ c ∈ (ofDocument e).ordered,
      (blockRange d (ofDocument e).ordered a).start ≤ (blockRange d (ofDocument e).ordered a).stop ∧
        blockRange d (ofDocument e).ordered c = ⟨⟨2, 0⟩, ⟨2, 1⟩⟩ ∧
        (blockRange d (ofDocument e).ordered c).start ≤
          (blockRange d (ofDocument e).ordered c).stop := by
  intro d e
  have ha : (ofDocument e).ordered[0] ∈ (ofDocument e).ordered := List.getElem_mem _
  have hc : (ofDocument e).ordered[2] ∈ (ofDocument e).ordered := List.getElem_mem _
  have hlater := (start_le_stop_blockRange_iff d e _ ha).2.2.2
  have hlast := (start_le_stop_blockRange_iff d e _ hc).2.2.2
  exact ⟨_, ha, _, hc, hlater.mpr (.inr ⟨_, hc, by decide⟩), by decide, hlast.mpr (.inl (by decide))⟩

/-- The last heading begins after the end of a document that has lost its line. -/
theorem not_start_le_stop_blockRange :
    let d : Document := ⟨[], [], .markdown⟩
    let e : Document := ⟨[], "# A\n# B\n".toList, .markdown⟩
    ∃ n ∈ (ofDocument e).ordered, blockRange d (ofDocument e).ordered n = ⟨⟨1, 0⟩, ⟨0, 0⟩⟩ ∧
      ¬ (blockRange d (ofDocument e).ordered n).start ≤
        (blockRange d (ofDocument e).ordered n).stop := by
  intro d e
  have hn : (ofDocument e).ordered[1] ∈ (ofDocument e).ordered := List.getElem_mem _
  exact ⟨_, hn, by decide, by decide⟩

end Outline

end TaggedOutline
