import TaggedOutline.Proofs.Edit.Tags

/-!
# Setting the remark of a heading

A remark is written to the line of its heading, and what it holds besides colons and backslashes
stands there as it is.

1. The line begins with a sign whatever is written to it (`Heading.exists_update_eq`), so it opens no
   code region, and the other headings are found as before as long as it stays one line
   (`filter_ofText_markLine`).
2. The only line feeds that come to the text are those of the remark (`count_lineFeed_markLine`).
3. So nothing but the line is changed iff the remark is on one line (`setRemark_frame_iff`).
-/

namespace TaggedOutline

/-! ## Signs -/

namespace Heading

variable {markup : Markup} {level : Nat} {line raw : Text} {number : Int} {h : Heading} {m : Marks}

theorem opening?_sign (markup : Markup) (r : Text) :
    Fence.opening? (sign markup :: r) = none := by
  cases markup <;> rfl

theorem isBlank_sign (markup : Markup) : Text.isBlank (sign markup) = false := by
  cases markup <;> rfl

/-- What precedes the raw title begins with a sign. -/
theorem Signed.exists_sign {pre : Text} (hn : '\n' ∉ pre ++ raw)
    (hs : Signed markup level (pre ++ raw) raw) : ∃ r, pre = sign markup :: r := by
  cases markup with
  | markdown =>
    obtain ⟨h1, -, -, gap, -, -, hline⟩ := (markdownTitle?_eq_some_iff hn).mp hs
    obtain ⟨k, rfl⟩ := Nat.exists_eq_add_of_le' h1
    exact ⟨_, List.append_cancel_right (hline.trans (List.append_assoc ..).symm)⟩
  | typst =>
    obtain ⟨h0, -, hline⟩ := typstTitle?_eq_some_iff.mp hs.2
    obtain ⟨k, rfl⟩ := Nat.exists_eq_succ_of_ne_zero h0
    exact ⟨_, List.append_cancel_right hline⟩

theorem exists_trimEnd_sign (markup : Markup) (t : Text) :
    ∃ r, Text.trimEnd (sign markup :: t) = sign markup :: r := by
  have hsolid : ∃ c ∈ sign markup :: t, Text.isBlank c = false :=
    ⟨_, List.mem_cons_self, isBlank_sign markup⟩
  have hhead := Text.head?_trimEnd hsolid
  exact ⟨_, (List.cons_head?_tail hhead).symm⟩

/-- The line of a heading begins with a sign whatever marks are written to it. -/
theorem exists_update_eq (hn : '\n' ∉ line) (hh : ofLine? line number = some h) (m : Marks) :
    ∃ r, Comment.update h.markup line m = sign h.markup :: r := by
  obtain ⟨markup, level, raw, hs, -, rfl⟩ := ofLine?_eq_some_iff.mp hh
  obtain ⟨pre, a, tail, rfl, rfl, -, hstrip, -⟩ := hs.exists_title hn
  obtain ⟨r, rfl⟩ := hs.exists_sign hn
  obtain ⟨s, hs⟩ := exists_trimEnd_sign markup (r ++ a)
  show ∃ r, Comment.update markup _ m = sign markup :: r
  unfold Comment.update
  simp only
  rw [hstrip.trans hs]
  split
  · exact ⟨s, rfl⟩
  · exact exists_trimEnd_sign markup _

end Heading

/-! ## One line among others -/

section MarkedLine

variable {d : Document} {h : Heading} {m : Marks}

/-- The line of a heading among the lines of its text. -/
theorem exists_ofText_eq {t : Text} (hh : h ∈ Heading.ofText t) :
    ∃ a l b, Line.ofText t = a ++ l :: b ∧ h.line = a.length ∧
      Heading.read? (({} : Fence).afterLines (a.map Line.content)) h.line l.content = some h := by
  have hline := Heading.line_of_mem_ofLines hh
  rw [Line.contents, List.length_map] at hline
  have hlt : h.line.toNat < (Line.ofText t).length := by omega
  obtain ⟨a, l, b, hsplit, hlength⟩ : ∃ a l b, Line.ofText t = a ++ l :: b ∧
      a.length = h.line.toNat := by
    refine ⟨(Line.ofText t).take h.line.toNat, (Line.ofText t)[h.line.toNat],
      (Line.ofText t).drop (h.line.toNat + 1), ?_, ?_⟩
    · rw [← List.drop_eq_getElem_cons hlt, List.take_append_drop]
    · rw [List.length_take]
      omega
  have hnumber : h.line = a.length := by omega
  refine ⟨a, l, b, hsplit, hnumber, ?_⟩
  -- A heading with this number is on no line before and on none after.
  rw [Heading.ofText, Line.contents, hsplit, List.map_append, List.map_cons, Heading.ofLines_append,
    Heading.ofLines_cons, List.mem_append, List.mem_append, List.length_map, Int.zero_add] at hh
  rcases hh with hh | hh | hh
  · have := Heading.line_of_mem_ofLines hh
    rw [List.length_map] at this
    omega
  · rw [hnumber]
    exact Option.mem_toList.mp hh
  · have := Heading.line_of_mem_ofLines hh
    omega

/-- The headings on the lines before and after a line on which there may be another one. -/
theorem Heading.filter_ofLines_append {fence : Fence} {number : Int} {a b : List Text} {line : Text}
    (hstep : (fence.afterLines a).step line = (false, fence.afterLines a)) :
    (ofLines fence number (a ++ line :: b)).filter (·.line ≠ number + a.length) =
      ofLines fence number a ++ ofLines (fence.afterLines a) (number + a.length + 1) b := by
  rw [ofLines_append, ofLines_cons, hstep, List.filter_append, List.filter_append]
  have hfirst : (ofLines fence number a).filter (·.line ≠ number + a.length) =
      ofLines fence number a := by
    refine List.filter_eq_self.mpr fun g hg => decide_eq_true ?_
    have := line_of_mem_ofLines hg
    omega
  have hown : (read? (fence.afterLines a) (number + a.length) line).toList.filter
      (·.line ≠ number + a.length) = [] := by
    refine List.filter_eq_nil_iff.mpr fun g hg => ?_
    rw [line_of_read? (Option.mem_toList.mp hg)]
    simp
  have hlater : (ofLines (fence.afterLines a) (number + a.length + 1) b).filter
      (·.line ≠ number + a.length) = ofLines (fence.afterLines a) (number + a.length + 1) b := by
    refine List.filter_eq_self.mpr fun g hg => decide_eq_true ?_
    have := line_of_mem_ofLines hg
    omega
  rw [hfirst, hown, hlater, List.nil_append]

variable (hh : h ∈ Heading.ofDocument d)

include hh

/-- Marks are written to one line, which is outside of code. -/
theorem exists_markLine (m : Marks) :
    ∃ a l b, Line.ofText d.text = a ++ l :: b ∧ h.line = a.length ∧ '\n' ∉ l.content ∧
      Heading.read? (({} : Fence).afterLines (a.map Line.content)) h.line l.content = some h ∧
      changeFrom [markLine h m] 0 (Line.ofText d.text) =
        a ++ { l with content := Comment.update h.markup l.content m } :: b := by
  obtain ⟨a, l, b, hsplit, hline, hread⟩ := exists_ofText_eq hh
  refine ⟨a, l, b, hsplit, hline, ?_, hread, ?_⟩
  · have hmem : l.content ∈ Line.contents d.text := by
      rw [Line.contents, hsplit]
      simp
    exact Line.lineFeed_not_mem_of_mem_contents hmem
  · have hchange := changeFrom_singleton (fun line => Comment.update h.markup line m) 0 a l b
    rwa [Int.zero_add, ← hline, ← hsplit] at hchange

/-- Marks that are written to the line of a heading have no effect on the other headings. -/
theorem filter_ofText_markLine (hm : m.Clean) :
    (Heading.ofText (changeLines d.text [markLine h m])).filter (·.line ≠ h.line) =
      (Heading.ofDocument d).filter (·.line ≠ h.line) := by
  obtain ⟨a, l, b, hsplit, hline, hn, hread, hchange⟩ := exists_markLine hh m
  obtain ⟨hinside, hstep⟩ := Heading.step_of_read? hn hread
  have hstep' : (({} : Fence).afterLines (a.map Line.content)).step
      (Comment.update h.markup l.content m) =
        (false, ({} : Fence).afterLines (a.map Line.content)) := by
    obtain ⟨r, hr⟩ := Heading.exists_update_eq hn (Heading.ofLine?_of_read? hread) m
    rw [hr]
    exact Heading.step_of_opening? hinside (Heading.opening?_sign h.markup r)
  have hnumber : h.line = 0 + ((a.map Line.content).length : Int) := by
    rw [List.length_map]
    omega
  rw [Heading.ofDocument, Heading.ofText, Heading.ofText, Line.contents, Line.contents,
    ofText_changeLines (keeps_markLine hm), hchange, hsplit, List.map_append, List.map_append,
    List.map_cons, List.map_cons, hnumber, Heading.filter_ofLines_append hstep,
    Heading.filter_ofLines_append hstep']

/-- The changed text has the line feeds of the remark besides its own. -/
theorem count_lineFeed_markLine (hm : ∀ t ∈ m.tags, Text.IsWord t) :
    (changeLines d.text [markLine h m]).count '\n' =
      d.text.count '\n' + ((Marks.trimmedRemark m.remark).getD []).count '\n' := by
  obtain ⟨a, l, b, hsplit, -, hn, -, hchange⟩ := exists_markLine hh m
  have hcount := Comment.count_lineFeed_update hn (Marks.isTrimmed_encode hm) h.markup
  rw [Marks.count_lineFeed_encode hm] at hcount
  have hold : l.content.count '\n' = 0 := List.count_eq_zero.mpr hn
  conv_rhs => rw [← Line.join_ofText d.text, hsplit]
  rw [changeLines, hchange]
  simp only [Line.join, Line.text, List.flatMap_append, List.flatMap_cons, List.count_append, hcount,
    hold]
  omega

end MarkedLine

/-! ## The remark -/

/-- Setting the remark of a heading adds one line for each line feed in the remark. All other lines,
all breaks and the headings on the other lines stay iff there is none. -/
theorem setRemark_frame_iff (d : Document) (h : Heading) (remark : Option Text) (remarkTag : Text)
    (hh : h ∈ Heading.ofDocument d) (htag : Text.IsWord remarkTag) :
    ∃ t, setRemark d h.line remark remarkTag = .ok t ∧
      (Line.ofText t).length =
        (Line.ofText d.text).length + ((remark.map Text.trim).getD []).count '\n' ∧
      (SameLines d.text t (· = h.line) ∧
          (Heading.ofText t).filter (·.line ≠ h.line) =
            (Heading.ofDocument d).filter (·.line ≠ h.line) ↔
        ∀ r ∈ remark, '\n' ∉ Text.trim r) := by
  obtain ⟨line, -, hread⟩ := Heading.exists_line_of_mem_ofText hh
  have htags : ∀ t ∈ h.tags, ∀ c ∈ Text.trim t, Text.isBlank c = false := fun t ht c hc =>
    ((Heading.clean_of_ofLine? hread).tags t ht).2 c (Text.mem_of_mem_trim hc)
  have hkept : Marks.trimmedRemark
      (Marks.normalize { tags := h.tags, remark := remark } remarkTag true).remark =
        Marks.trimmedRemark remark := by
    rw [Marks.remark_normalize htag.1, Marks.trimmedRemark_trimmedRemark]
  have hwords : ∀ t ∈ (Marks.normalize { tags := h.tags, remark := remark } remarkTag true).tags,
      Text.IsWord t := Marks.isWord_of_mem_normalize htags fun _ => htag.2
  have hcount := count_lineFeed_markLine hh hwords
  rw [hkept, Marks.getD_trimmedRemark] at hcount
  refine ⟨_, by rw [setRemark, headingAt_eq hh]; rfl, ?_, ?_, ?_⟩
  · rw [Line.length_ofText, Line.length_ofText, hcount]
    omega
  · rintro ⟨hsame, -⟩ r hr hfeed
    have hlines := hsame.count
    rw [Line.length_ofText, Line.length_ofText, hcount, Option.mem_def.mp hr] at hlines
    have := List.count_pos_iff.mpr hfeed
    simp only [Option.map_some, Option.getD_some] at hlines
    omega
  · intro hremark
    have hm : (Marks.normalize { tags := h.tags, remark := remark } remarkTag true).Clean :=
      Marks.clean_normalize htags hremark fun _ => htag.2
    exact ⟨sameLines_markLine hm, filter_ofText_markLine hh hm⟩

/-- A remark of one line with signs, a fence, escapes and an opening in it, before another heading. -/
theorem setRemark_frame_iff_signs :
    let d : Document := ⟨[], "## A <!-- #a -->\r\n= B // #b\n".toList, .markdown⟩
    let remark := some " # x \\:: ~~~ <!-- \n".toList
    ∃ h ∈ Heading.ofDocument d, Text.IsWord defaultRemarkTag ∧
      ∃ t, setRemark d h.line remark defaultRemarkTag = .ok t ∧ SameLines d.text t (· = h.line) ∧
        (Heading.ofText t).filter (·.line ≠ h.line) =
          (Heading.ofDocument d).filter (·.line ≠ h.line) := by
  intro d remark
  have hh : (Heading.ofDocument d)[0] ∈ Heading.ofDocument d := List.getElem_mem _
  have htag : Text.IsWord defaultRemarkTag := by decide
  obtain ⟨t, ht, -, hiff⟩ := setRemark_frame_iff d _ remark defaultRemarkTag hh htag
  exact ⟨_, hh, htag, t, ht, hiff.mpr (by decide)⟩

/-- The second line of a remark becomes a heading, or it hides one. -/
theorem setRemark_breaks :
    let d : Document := ⟨[], "# A\n# B\n".toList, .markdown⟩
    (Heading.ofDocument d).map (fun g => (g.line, g.text)) = [(0, ['A']), (1, ['B'])] ∧
      setRemark d 0 (some "x\n# C".toList) defaultRemarkTag =
        .ok "# A <!-- #remark :: x\n# C :: -->\n# B\n".toList ∧
      (setRemark d 0 (some "x\n# C".toList) defaultRemarkTag).map (fun t =>
        (Heading.ofText t).map fun g => (g.line, g.text)) =
          .ok [(0, "A <!-- #remark :: x".toList), (1, "C :: -->".toList), (2, ['B'])] ∧
      (setRemark d 0 (some "x\n~~~".toList) defaultRemarkTag).map (fun t =>
        (Heading.ofText t).map fun g => (g.line, g.text)) =
          .ok [(0, "A <!-- #remark :: x".toList)] := by
  intro d
  exact ⟨by decide, by rfl, by rfl, by rfl⟩

end TaggedOutline
