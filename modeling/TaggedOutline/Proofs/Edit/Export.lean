import TaggedOutline.Proofs.Edit.Excerpt

/-!
# Exported blocks

A block that is exported on its own has the lines it has in its document, and so its headings
(`Excerpt.contents_exported`). The first of them is that of the block and the others lie deeper
(`Excerpt.headings_eq_cons`), so that in the new document all of them are under the first one.
-/

namespace TaggedOutline

open Outline (ofDocument)

namespace Excerpt

/-- The document that the block makes on its own. -/
def exported (b : Excerpt) : Text := exportBlock b.document b.ordered b.node []

variable {b : Excerpt}

/-! ## The headings of the block -/

/-- The first heading in a block is that of its node, and the others are deeper. -/
theorem headings_eq_cons (hb : b.node ∈ b.ordered) : ∃ g rest i, b.headings = g :: rest ∧
    b.node = Outline.nodeOf g i ∧ g.line = b.node.line ∧ ∀ h ∈ rest, g.level < h.level := by
  obtain ⟨g, hg, i, -, hnode⟩ := Outline.mem_nodesFrom hb
  have hline : g.line = b.node.line := by
    rw [hnode]
    exact (congrArg Position.line (Outline.start_of_mem_ofDocument hg)).symm
  have hin : g ∈ b.headings := by
    refine List.mem_filter.mpr ⟨hg, decide_eq_true ?_⟩
    rw [hline]
    exact inBlock_line b.ordered b.node
  have hpairwise : b.headings.Pairwise (·.line < ·.line) :=
    (Heading.ofText_pairwise_line b.document.text).filter _
  have hblock : ∀ h ∈ b.headings, InBlock b.ordered b.node h.line := fun h hh =>
    of_decide_eq_true (List.mem_filter.mp hh).2
  obtain ⟨first, rest, hheadings⟩ := List.exists_cons_of_ne_nil (List.ne_nil_of_mem hin)
  rw [hheadings] at hin hpairwise hblock
  have hlater := (List.pairwise_cons.mp hpairwise).1
  obtain rfl : g = first := by
    refine (List.mem_cons.mp hin).resolve_right fun hg => ?_
    have := hlater g hg
    have := (hblock first List.mem_cons_self).1
    omega
  refine ⟨g, rest, i, hheadings, hnode, hline, fun h hh => ?_⟩
  have hmem : h ∈ Heading.ofDocument b.document := by
    have : h ∈ b.headings := by
      rw [hheadings]
      exact List.mem_cons_of_mem g hh
    exact (List.mem_filter.mp this).1
  -- The node of a later heading is one of those that the block does not end at.
  rw [← Outline.map_fst_zip_ordered b.document] at hmem
  obtain ⟨⟨h, m⟩, he, rfl⟩ := List.mem_map.mp hmem
  obtain ⟨hm, hmline⟩ := Outline.line_of_mem_zip he
  obtain ⟨j, hj⟩ := Outline.exists_of_mem_zip he
  simp only at hm hmline hj hh
  have hgh := hlater h hh
  have hdeeper := (hblock h (List.mem_cons_of_mem g hh)).2 m hm (by omega) (by omega)
  rw [hnode, hj] at hdeeper
  exact hdeeper

/-- The headings in a block are those of its node and of the nodes under it. -/
theorem headings_eq_filter (hb : b.node ∈ b.ordered) :
    b.headings = (((Heading.ofDocument b.document).zip b.ordered).filter fun e =>
      e.2 = b.node ∨ b.node ∈ (ofDocument b.document).ancestorsOf e.2).map Prod.fst := by
  unfold headings
  conv_lhs => rw [← Outline.map_fst_zip_ordered b.document]
  rw [List.filter_map]
  refine congrArg _ (List.filter_congr fun e he => decide_eq_decide.mpr ?_)
  obtain ⟨hmem, hline⟩ := Outline.line_of_mem_zip he
  rw [← hline, Outline.inBlock_line_iff b.document hb hmem, eq_comm]

/-! ## The text of the block -/

/-- The lines of the block start with a sign. -/
theorem exists_lines_eq_cons (hb : b.node ∈ b.ordered) :
    ∃ c r rest, b.lines = (c :: r) :: rest ∧ (c = '#' ∨ c = '=') := by
  obtain ⟨g, rest, i, hheadings, -, hline, -⟩ := headings_eq_cons hb
  have hg : g ∈ Heading.ofLines {} b.node.line b.lines := by
    rw [ofLines_lines hb, hheadings]
    exact List.mem_cons_self
  obtain ⟨line, hfirst, hread⟩ := Heading.exists_line_of_mem_ofLines hg
  rw [hline, Int.sub_self] at hfirst
  obtain ⟨lines, hlines⟩ := List.head?_eq_some_iff.mp (List.head?_eq_getElem?.trans hfirst)
  have hn : '\n' ∉ line := lineFeed_not_mem_of_mem_lines (by rw [hlines]; simp)
  obtain ⟨c, r, rfl, hc⟩ := Heading.exists_cons_of_ofLine? hn hread
  exact ⟨c, r, lines, hlines, hc⟩

/-- The text of a block loses the carriage returns of its breaks, and gets a line feed if it does not
end with one. -/
theorem exported_eq (hb : b.node ∈ b.ordered) :
    let text := Text.unifyBreaks (blockText b.document b.ordered b.node)
    b.exported = if Text.endsWith ['\n'] text then text else text ++ ['\n'] := by
  intro text
  obtain ⟨k, -, hcontents⟩ := exists_contents_blockText hb
  obtain ⟨c, r, rest, hlines, hc⟩ := exists_lines_eq_cons hb
  have htext : text = Text.joinWith ['\n'] ((c :: r) :: (rest ++ List.replicate k [])) := by
    rw [← List.cons_append, ← hlines, ← hcontents]
    exact Line.unifyBreaks_eq_joinWith _
  have hhead : text.head? = some c := by
    rw [htext]
    cases rest ++ List.replicate k [] with
    | nil => rfl
    | cons line lines => rfl
  have htrim : Text.trimStart text = text := by
    refine Text.trimStart_of_head fun x hx => ?_
    rw [hhead] at hx
    obtain rfl := Option.mem_some_iff.mp hx
    rcases hc with rfl | rfl <;> rfl
  show (if Text.endsWith ['\n'] (Text.trimStart text) then Text.trimStart text
    else Text.trimStart text ++ ['\n']) = _
  rw [htrim]

section Export

variable (hb : b.node ∈ b.ordered) (hreturns : Line.ReturnsBreak b.document.text)

include hb hreturns

/-- Without its carriage returns the block has the same lines. -/
theorem contents_unifyBreaks :
    let text := Text.unifyBreaks (blockText b.document b.ordered b.node)
    '\r' ∉ text ∧ ∃ k ≤ 1, Line.contents text = b.lines ++ List.replicate k [] := by
  intro text
  obtain ⟨k, hk, hcontents⟩ := exists_contents_blockText hb
  have hplain : ∀ line ∈ b.lines ++ List.replicate k [], '\r' ∉ line := by
    intro line hline
    rcases List.mem_append.mp hline with hline | hline
    · exact hreturns.return_not_mem line (List.mem_of_mem_take (List.mem_of_mem_drop hline))
    · rw [List.eq_of_mem_replicate hline]
      exact List.not_mem_nil
  have hnone : '\r' ∉ text := by
    have htext : text = Text.joinWith ['\n'] (b.lines ++ List.replicate k []) := by
      rw [← hcontents]
      exact Line.unifyBreaks_eq_joinWith _
    intro hmem
    rw [htext] at hmem
    rcases Text.mem_joinWith hmem with hmem | ⟨line, hline, hmem⟩
    · exact absurd hmem (by decide)
    · exact hplain line hline hmem
  refine ⟨hnone, k, hk, ?_⟩
  rw [← Line.fed_of_getLast? fun h => hnone (List.mem_of_getLast? h), Line.fed_unifyBreaks, hcontents]
  refine (List.map_congr_left fun line hline => ?_).trans (List.map_id _)
  exact Line.withoutReturn_of_getLast? fun h => hplain line hline (List.mem_of_getLast? h)

theorem contents_exported : '\r' ∉ b.exported ∧ b.exported.getLast? = some '\n' ∧
    ∃ k ≤ 1, Line.contents b.exported = b.lines ++ List.replicate k [] := by
  obtain ⟨hnone, k, hk, hcontents⟩ := contents_unifyBreaks hb hreturns
  have hexported := exported_eq hb
  simp only at hexported
  generalize Text.unifyBreaks (blockText b.document b.ordered b.node) = text at *
  split at hexported
  · next hend =>
    obtain ⟨front, hfront⟩ := Option.isSome_iff_exists.mp hend
    obtain rfl := Text.before?_eq_some_iff.mp hfront
    rw [hexported]
    exact ⟨hnone, List.getLast?_concat, k, hk, hcontents⟩
  · next hopen =>
    have hzero : k = 0 := by
      by_contra hne
      obtain rfl : k = 1 := by omega
      obtain ⟨c, r, rest, hlines, -⟩ := exists_lines_eq_cons hb
      exact hopen (Line.endsWith_of_contents (by rw [hlines]; simp) hcontents)
    rw [hzero, List.replicate_zero, List.append_nil] at hcontents
    rw [hexported]
    refine ⟨by simpa using hnone, List.getLast?_concat, 1, Nat.le_refl 1, ?_⟩
    rw [Line.contents_append_lineFeed fun h => hnone (List.mem_of_getLast? h), hcontents]
    rfl

theorem ofText_exported : Heading.ofText b.exported = b.headings.map (·.movedUp b.node.line) := by
  obtain ⟨-, -, k, -, hcontents⟩ := contents_exported hb hreturns
  have hmoved := Heading.ofLines_add {} 0 b.node.line b.lines
  rw [Int.zero_add, ofLines_lines hb] at hmoved
  rw [Heading.ofText, hcontents, Heading.ofLines_append_replicate_nil, hmoved, List.map_map]
  refine ((List.map_congr_left fun h _ => ?_).trans (List.map_id _)).symm
  exact h.movedUp_movedDown b.node.line

end Export

end Excerpt

/-- A document of which the first heading is above all others has one tree. -/
theorem Outline.roots_ofHeadings_cons {g : Heading} {rest : List Heading}
    (h : ∀ h ∈ rest, g.level < h.level) :
    (Outline.ofHeadings (g :: rest)).roots =
      [.node (Outline.nodeOf g 0) (forest (Outline.nodesFrom 1 rest))] := by
  have hdeeper : ∀ m ∈ Outline.nodesFrom 1 rest, (Outline.nodeOf g 0).level < m.level := by
    intro m hm
    obtain ⟨h', hh', i, -, rfl⟩ := Outline.mem_nodesFrom hm
    exact h h' hh'
  have hnext : ∀ m ∈ ([] : List Node).head?, m.level ≤ (Outline.nodeOf g 0).level := by simp
  have hforest := forest_cons_append hdeeper hnext
  rw [List.append_nil, forest] at hforest
  exact hforest

/-- In a document where carriage returns only stand in breaks, an exported block has no carriage
return, ends with a line feed and has the lines it has in the document, and maybe an empty line after
them. Its headings are those of its node and of the nodes under it, on the lines that are counted from
that of the node, and the first of them is the root of the others. -/
theorem exportBlock_headings (d : Document) (hreturns : Line.ReturnsBreak d.text) (n : Node)
    (hn : n ∈ (ofDocument d).ordered) :
    let block := (d.lines.take (blockEnd d.lineCount (ofDocument d).ordered n).toNat).drop
      n.line.toNat
    let text := exportBlock d (ofDocument d).ordered n []
    '\r' ∉ text ∧ text.getLast? = some '\n' ∧
    (Line.contents text = block ∨ Line.contents text = block ++ [[]]) ∧
    Heading.ofText text = (((Heading.ofDocument d).zip (ofDocument d).ordered).filter fun e =>
      e.2 = n ∨ n ∈ (ofDocument d).ancestorsOf e.2).map (fun e => e.1.movedUp n.line) ∧
    ∃ root under, (Outline.ofHeadings (Heading.ofText text)).roots = [.node root under] ∧
      root.line = 0 ∧ root.label = n.label ∧ root.level = n.level ∧ root.markup = n.markup := by
  intro block text
  let b : Excerpt := ⟨d, n⟩
  have hb : b.node ∈ b.ordered := hn
  obtain ⟨hnone, hend, k, hk, hcontents⟩ := Excerpt.contents_exported hb hreturns
  have hheadings := Excerpt.ofText_exported hb hreturns
  obtain ⟨g, rest, i, hcons, hnode, hline, hdeeper⟩ := Excerpt.headings_eq_cons hb
  refine ⟨hnone, hend, ?_, ?_, ?_⟩
  · rcases Nat.le_one_iff_eq_zero_or_eq_one.mp hk with rfl | rfl
    · exact .inl (hcontents.trans (List.append_nil _))
    · exact .inr hcontents
  · refine hheadings.trans ?_
    rw [Excerpt.headings_eq_filter hb, List.map_map]
    rfl
  · have htext : Heading.ofText text = g.movedUp n.line :: rest.map (·.movedUp n.line) := by
      rw [show Heading.ofText text = _ from hheadings, hcons]
      rfl
    have hunder : ∀ h ∈ rest.map (·.movedUp n.line), (g.movedUp n.line).level < h.level := by
      intro h hh
      obtain ⟨h', hh', rfl⟩ := List.mem_map.mp hh
      exact hdeeper h' hh'
    have hstart : n.line = g.range.start.line := congrArg Node.line hnode
    have hroots := Outline.roots_ofHeadings_cons hunder
    rw [← htext] at hroots
    refine ⟨_, _, hroots, ?_, ?_, ?_, ?_⟩
    · show g.range.start.line - n.line = 0
      rw [hstart, Int.sub_self]
    · exact (congrArg Node.label hnode).symm
    · exact (congrArg Node.level hnode).symm
    · exact (congrArg Node.markup hnode).symm

/-- A block with breaks of both kinds, which ends before a heading of the same level. -/
theorem exportBlock_headings_mixed :
    let d : Document := ⟨['a'], "x\r\n# A\r\n\n### B <!-- #t -->\n## C\r\n# D".toList, .markdown⟩
    let n : Node := ⟨"1-0".toList, ['A'], 1, .markdown, Range.ofLine 1 3⟩
    let text := exportBlock d (ofDocument d).ordered n []
    Line.ReturnsBreak d.text ∧ n ∈ (ofDocument d).ordered ∧
      text = "# A\n\n### B <!-- #t -->\n## C\n".toList ∧
      (Heading.ofText text).map (fun h => (h.line, h.level, h.tags)) =
        [(0, 1, []), (2, 3, [['t']]), (3, 2, [])] := by
  intro d n text
  have hreturns : Line.ReturnsBreak d.text := by decide
  have hn : n ∈ (ofDocument d).ordered := by decide
  obtain ⟨-, -, -, hheadings, -⟩ := exportBlock_headings d hreturns n hn
  refine ⟨hreturns, hn, by decide, ?_⟩
  rw [hheadings]
  decide

end TaggedOutline
