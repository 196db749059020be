import TaggedOutline.Proofs.Comment.Normal
import TaggedOutline.Proofs.Edit.Lines
import TaggedOutline.Proofs.Tag.Name

/-!
# Setting the tags of a heading

The line of one heading is written again with other marks, and all other lines stay as they are.
The headings are the same with the other marks iff the heading can hold these
(`ofText_markLine_iff`): marks after a title that opens a comment take a part of the title along,
and no heading is left of a line with neither a title nor marks.
-/

namespace TaggedOutline

variable {d : Document} {h : Heading} {m : Marks}

/-! ## Marks on one line -/

section MarkLine

variable (hh : h ∈ Heading.ofDocument d)

include hh

theorem headingAt_eq : headingAt d h.line = .ok h := by
  obtain ⟨line, hline, -⟩ := Heading.exists_line_of_mem_ofText hh
  have hnonneg := (Heading.line_of_mem_ofLines hh).1
  have hlt : h.line < d.lineCount := by
    have := (List.getElem?_eq_some_iff.mp hline).1
    unfold Document.lineCount Document.lines
    omega
  have hfind : (Heading.ofDocument d).find? (·.line = h.line) = some h :=
    Heading.find?_line (Heading.nodup_map_line (Heading.ofText_pairwise_line d.text)) hh
  unfold headingAt
  rw [if_pos ⟨hnonneg, hlt⟩, hfind]

/-- The heading on a line is the only one there. -/
theorem changesOf_line (f : Heading → Text → Text) :
    changesOf (Heading.ofDocument d) (fun g => g.line = h.line) f = [(h.line, f h)] := by
  have hlines := Heading.ofText_pairwise_line d.text
  have hnodup : (Heading.ofDocument d).Nodup := Heading.nodup_of_lines hlines
  have honly : ((Heading.ofDocument d).filter fun g => g.line = h.line) = [h] := by
    have hself : ((Heading.ofDocument d).filter fun g => g.line = h.line) =
        (Heading.ofDocument d).filter (· = h) := by
      refine List.filter_congr fun g hg => decide_eq_decide.mpr ⟨fun hline => ?_, fun e => ?_⟩
      · exact Heading.eq_of_line_eq hlines hg hh hline
      · rw [e]
    rw [hself, List.filter_eq, List.count_eq_one_of_mem hnodup hh]
    rfl
  rw [changesOf, honly]
  rfl

omit hh in
theorem keeps_markLine (hm : m.Clean) (k : Nat) (line : Text)
    (hk : (Line.contents d.text)[k]? = some line) : Keeps [markLine h m] k line := by
  have hn := Line.lineFeed_not_mem_of_mem_contents (List.mem_of_getElem? hk)
  by_cases hline : h.line = k
  · refine .inr ?_
    rw [changeAt, markLine, Table.get?_cons, if_pos hline]
    exact staysLine_update hn hm h.markup
  · refine .inl ?_
    rw [changeAt, markLine, Table.get?_cons, if_neg hline]
    rfl

omit hh in
theorem sameLines_markLine (hm : m.Clean) :
    SameLines d.text (changeLines d.text [markLine h m]) (· = h.line) := by
  refine sameLines_changeLines (keeps_markLine hm) fun k hk => ?_
  rw [changeAt, markLine, Table.get?_cons, if_neg fun e => hk e.symm]
  rfl

theorem getElem?_contents_markLine (hm : m.Clean) :
    (Line.contents (changeLines d.text [markLine h m]))[h.line.toNat]? =
      (Line.contents d.text)[h.line.toNat]?.map fun line => Comment.update h.markup line m := by
  have hnonneg := (Heading.line_of_mem_ofLines hh).1
  rw [contents_changeLines (keeps_markLine hm), getElem?_mapLines, changeAt, markLine,
    Table.get?_cons, if_pos (by omega)]
  rfl

/-- The headings are the same with the other marks iff the heading can hold them. -/
theorem ofText_markLine_iff (hm : m.Clean) :
    Heading.ofText (changeLines d.text [markLine h m]) =
      ((Heading.ofDocument d).map fun g => if g.line = h.line then
        g.withMarks m ((Line.contents (changeLines d.text [markLine h m]))[g.line.toNat]?.getD
          []).length else g) ↔ h.CanHold m := by
  obtain ⟨line, hline, hread⟩ := Heading.exists_line_of_mem_ofText hh
  have hn := Line.lineFeed_not_mem_of_mem_contents (List.mem_of_getElem? hline)
  have hcontent := getElem?_contents_markLine hh hm
  rw [hline, Option.map_some] at hcontent
  constructor
  · intro hsame
    have hmem : h.withMarks m (Comment.update h.markup line m).length ∈
        Heading.ofText (changeLines d.text [markLine h m]) := by
      rw [hsame]
      refine List.mem_map.mpr ⟨h, hh, ?_⟩
      rw [if_pos rfl, hcontent]
      rfl
    obtain ⟨line', hline', hread'⟩ := Heading.exists_line_of_mem_ofText hmem
    obtain rfl : Comment.update h.markup line m = line' :=
      Option.some.inj (hcontent.symm.trans hline')
    exact (Heading.ofLine?_update_iff hn hread hm).mp hread'
  · intro hhold
    have honly {g : Heading} (hg : g ∈ Heading.ofDocument d) (hgline : g.line = h.line) : g = h :=
      Heading.eq_of_line_eq (Heading.ofText_pairwise_line d.text) hg hh hgline
    have hreplaces := replaces_of_canHold d.text (fun g => g.line = h.line) (fun _ => m)
      fun g hg hgline => ⟨hm, by rwa [honly hg (of_decide_eq_true hgline)]⟩
    have hnew := hreplaces.ofText_changeLines
    rw [show Heading.ofText d.text = Heading.ofDocument d from rfl, changesOf_line hh] at hnew
    refine hnew.trans (List.map_congr_left fun g hg => ?_)
    by_cases hgline : g.line = h.line
    · obtain rfl := honly hg hgline
      rw [if_pos (decide_eq_true rfl), if_pos rfl, hline, hcontent]
      rfl
    · rw [if_neg (by simpa using hgline), if_neg hgline]

end MarkLine

/-- Setting the tags of a heading changes no other line. The headings are the same with the other
marks iff the heading can hold these. -/
theorem ofText_setTags_iff (d : Document) (h : Heading) (tags : List Text) (remarkTag : Text)
    (hh : h ∈ Heading.ofDocument d) (htags : ∀ t ∈ tags, ∃ name, tagName t = .ok name) :
    let m := Marks.normalize { tags := tags.map Text.trim, remark := h.remark } remarkTag false
    ∃ t, setTags d h.line tags remarkTag = .ok t ∧ SameLines d.text t (· = h.line) ∧
      (Heading.ofText t = ((Heading.ofDocument d).map fun g => if g.line = h.line then
        { g with
          tags := m.tags
          remark := m.remark
          range := Range.ofLine g.line ((Line.contents t)[g.line.toNat]?.getD []).length }
        else g) ↔ h.CanHold m) := by
  intro m
  have hm : m.Clean := by
    obtain ⟨line, -, hread⟩ := Heading.exists_line_of_mem_ofText hh
    refine Marks.clean_normalize (fun t ht => ?_) (fun r hr hfeed => ?_) (by simp)
    · obtain ⟨s, hs, rfl⟩ := List.mem_map.mp ht
      obtain ⟨name, hname⟩ := htags s hs
      obtain ⟨rfl, hword⟩ := tagName_eq_ok_iff.mp hname
      rw [Text.trim_trim]
      exact hword.2
    · exact ((Heading.clean_of_ofLine? hread).remark r hr).2.2 (Text.mem_of_mem_trim hfeed)
  refine ⟨changeLines d.text [markLine h m], ?_, sameLines_markLine hm, ofText_markLine_iff hh hm⟩
  rw [setTags, mapM_tagName htags, headingAt_eq hh]
  rfl

/-- A heading with a remark before code with a look-alike gets another tag. -/
theorem ofText_setTags_iff_remark :
    let d : Document := ⟨[], "# A <!-- #a :: r :: -->\r\n~~~\n# no\n~~~\n## B".toList, .markdown⟩
    ∃ h ∈ Heading.ofDocument d, (∀ t ∈ [[' ', 'b']], ∃ name, tagName t = .ok name) ∧
      ∃ t, setTags d h.line [[' ', 'b']] defaultRemarkTag = .ok t ∧
        (Heading.ofText t).map (fun g => (g.text, g.tags, g.remark)) =
          [(['A'], [['b']], some ['r']), (['B'], [], none)] := by
  intro d
  have hh : (Heading.ofDocument d)[0] ∈ Heading.ofDocument d := List.getElem_mem _
  have htags : ∀ t ∈ [[' ', 'b']], ∃ name, tagName t = .ok name :=
    fun t ht => ⟨['b'], by rw [List.mem_singleton.mp ht]; rfl⟩
  obtain ⟨t, ht, -, hiff⟩ := ofText_setTags_iff d _ [[' ', 'b']] defaultRemarkTag hh htags
  refine ⟨_, hh, htags, t, ht, ?_⟩
  rw [hiff.mpr (by decide)]
  rfl

/-- A title with a comment in it is cut off at the comment that is written after it, and a heading
without a title is lost with its last tag. -/
theorem ofText_setTags_cut :
    let d : Document := ⟨[], "## A <!-- #x --> trailing\n".toList, .markdown⟩
    let e : Document := ⟨[], "# <!-- #a -->\n".toList, .markdown⟩
    (Heading.ofDocument d).map (fun g => (g.line, g.markup, g.text, g.tags)) =
        [(0, .markdown, "A <!-- #x --> trailing".toList, [])] ∧
      (setTags d 0 [['y']] defaultRemarkTag).map (fun t =>
        (Heading.ofText t).map fun g => (g.line, g.markup, g.text, g.tags)) =
          .ok [(0, .markdown, ['A'], [['x'], ['y']])] ∧
      (Heading.ofDocument e).map (fun g => (g.line, g.markup, g.text, g.tags)) =
        [(0, .markdown, [], [['a']])] ∧
      (setTags e 0 [] defaultRemarkTag).map Heading.ofText = .ok [] := by
  intro d e
  exact ⟨by decide, by rfl, by decide, by rfl⟩

end TaggedOutline
