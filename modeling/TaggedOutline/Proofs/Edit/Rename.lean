import TaggedOutline.Proofs.Edit.Lines
import TaggedOutline.Proofs.Tag.Name
import TaggedOutline.Proofs.Text.Names

/-!
# Renaming a tag

A heading that carries the renamed tag has a comment on its line, and its marks with the new name
are such as a comment can hold. So its line is read as the same heading with the renamed tags, and
by `Replaces.ofText_changeLines` this is all that renaming does to a document.

A new name with blanks around it is written without them, but compared with the other tags as it was
given. The difference shows where a heading has the bare name already (`Collides`): it then has it
twice (`nodup_map_trim_iff`), and nowhere else (`renameTag_trim_iff`).
-/

namespace TaggedOutline

open Text (IsWord)

variable {old new : Text} {tags : List Text}

/-! ## Names -/

theorem mem_renameIn {tag : Text} (h : tag ∈ renameIn old new tags) : tag ∈ tags ∨ tag = new := by
  obtain ⟨t, ht, rfl⟩ := List.mem_map.mp (Text.mem_distinct.mp h)
  by_cases hold : t = old
  · exact .inr (if_pos hold)
  · rw [if_neg hold]
    exact .inl ht

theorem renameIn_ne_nil (h : tags ≠ []) : renameIn old new tags ≠ [] := by
  obtain ⟨t, ts, rfl⟩ := List.exists_cons_of_ne_nil h
  simp [renameIn, Text.distinct]

/-- Renamed marks of a heading can be held by a comment. -/
theorem clean_renameIn {remark : Option Text} (hnew : IsWord new)
    (h : Marks.Clean { tags := tags, remark := remark }) :
    Marks.Clean { tags := renameIn old new tags, remark := remark } := by
  refine ⟨fun t ht => ?_, h.remark⟩
  rcases mem_renameIn ht with ht | rfl
  · exact h.tags t ht
  · exact hnew

/-- Headings with tags are read with the tags that are written in place of these. -/
theorem replaces_markLine (t : Text) (p : Heading → Bool) (marks : Heading → Marks)
    (hp : ∀ h ∈ Heading.ofText t, p h → h.tags ≠ [])
    (hm : ∀ h ∈ Heading.ofText t, p h → (marks h).Clean ∧ (marks h).tags ≠ []) :
    Replaces t p (fun h line => Comment.update h.markup line (marks h)) fun h =>
      h.withMarks (marks h) (Comment.update h.markup
        ((Line.contents t)[h.line.toNat]?.getD []) (marks h)).length := by
  refine replaces_of_canHold t p marks fun h hh hph => ?_
  obtain ⟨line, hline, hread⟩ := Heading.exists_line_of_mem_ofText hh
  have hn := Line.lineFeed_not_mem_of_mem_contents (List.mem_of_getElem? hline)
  obtain ⟨hclean, htags⟩ := hm h hh hph
  exact ⟨hclean, Heading.canHold_of_tags hn hread hclean (hp h hh hph) htags⟩

/-! ## The document -/

/-- The lines of the headings that carry a tag are read with the tag renamed. -/
theorem replaces_renameIn (t old : Text) (hnew : IsWord new) :
    Replaces t (fun h => Text.isIn old h.tags)
      (fun h line => Comment.update h.markup line ⟨renameIn old new h.tags, h.remark⟩) fun h =>
      h.withMarks ⟨renameIn old new h.tags, h.remark⟩ (Comment.update h.markup
        ((Line.contents t)[h.line.toNat]?.getD []) ⟨renameIn old new h.tags, h.remark⟩).length := by
  have htags {h : Heading} (hp : Text.isIn old h.tags = true) : h.tags ≠ [] :=
    List.ne_nil_of_mem (Text.isIn_iff.mp hp)
  refine replaces_markLine t _ (fun h => ⟨renameIn old new h.tags, h.remark⟩)
    (fun h _ hp => htags hp) fun h hh hp => ?_
  obtain ⟨line, -, hread⟩ := Heading.exists_line_of_mem_ofText hh
  exact ⟨clean_renameIn hnew (Heading.clean_of_ofLine? hread), renameIn_ne_nil (htags hp)⟩

/-- A document with a tag renamed has the same lines, apart from those of the headings that carry the
tag, and the same headings, apart from their tags. -/
theorem ofText_renameTag (d : Document) (old : Text) {new : Text} (h : tagName new = .ok new) :
    ∃ t, renameTag d old new = .ok t ∧
      SameLines d.text t (fun k => ∃ h ∈ Heading.ofDocument d, h.line = k ∧ old ∈ h.tags) ∧
      Heading.ofText t = (Heading.ofDocument d).map fun h =>
        if old ∈ h.tags then
          { h with
            tags := (h.tags.map fun tag => if tag = old then new else tag).eraseDups
            range := Range.ofLine h.line ((Line.contents t)[h.line.toNat]?.getD []).length }
        else h := by
  have hcarries (h : Heading) : Text.isIn old h.tags = true ↔ old ∈ h.tags := Text.isIn_iff
  have hreplaces := replaces_renameIn d.text old (tagName_eq_ok_self_iff.mp h)
  refine ⟨changeLines d.text (changesOf (Heading.ofText d.text) (fun h => Text.isIn old h.tags)
    fun h line => Comment.update h.markup line ⟨renameIn old new h.tags, h.remark⟩),
    by rw [renameTag, h]; rfl, ?_, ?_⟩
  · have := hreplaces.sameLines
    simp only [hcarries] at this
    exact this
  · rw [Heading.ofDocument]
    refine hreplaces.ofText_changeLines.trans (List.map_congr_left fun g hg => ?_)
    simp only [hcarries]
    split
    · next hold =>
      obtain ⟨line, hline, -⟩ := Heading.exists_line_of_mem_ofText hg
      rw [hreplaces.getElem?_contents hg ((hcarries g).mpr hold), hline,
        ← Text.distinct_eq_eraseDups]
      rfl
    · rfl

/-- Both markups, mixed breaks, a heading that has both names and a line of code that looks like
one. -/
theorem ofText_renameTag_mixed :
    tagName ['b'] = .ok ['b'] ∧
      ∃ t, renameTag ⟨[], "# A <!-- #a #x #b -->\r\n```\n# F <!-- #a -->\n```\n== B // #a".toList,
          .markdown⟩ ['a'] ['b'] = .ok t ∧
        (Heading.ofText t).map Heading.tags = [[['b'], ['x']], [['b']]] := by
  refine ⟨by decide, ?_⟩
  obtain ⟨t, ht, -, hs⟩ := ofText_renameTag ⟨[],
    "# A <!-- #a #x #b -->\r\n```\n# F <!-- #a -->\n```\n== B // #a".toList, .markdown⟩ ['a']
    (show tagName ['b'] = .ok ['b'] by decide)
  refine ⟨t, ht, ?_⟩
  rw [hs]
  rfl

/-! ## Names with blanks around them -/

/-- Among the tags are the one that is renamed and another one, which the new name is without the
blanks around it. -/
def Collides (old new : Text) (tags : List Text) : Prop :=
  old ∈ tags ∧ Text.trim new ∈ tags ∧ old ≠ Text.trim new ∧ new ≠ Text.trim new

instance (old new : Text) (tags : List Text) : Decidable (Collides old new tags) :=
  inferInstanceAs (Decidable (_ ∧ _))

section Padded

variable (hwords : ∀ t ∈ tags, IsWord t)

include hwords

/-- Without a collision the tags are those with the bare name. -/
theorem map_trim_renameIn (hold : old ∈ tags) (h : ¬ Collides old new tags) :
    (renameIn old new tags).map Text.trim = renameIn old (Text.trim new) tags := by
  have htrim {t : Text} (ht : t ∈ tags) : Text.trim t = t :=
    Text.trim_of_isTrimmed (hwords t ht).isTrimmed
  -- Another tag that is the bare name would collide with the new one.
  have hbare {t : Text} (ht : t ∈ tags) (hne : t ≠ old) (heq : Text.trim new = t) : new = t := by
    by_contra hnew
    exact h ⟨hold, heq ▸ ht, fun e => hne (heq ▸ e.symm), fun e => hnew (e.trans heq)⟩
  have hmap : (tags.map fun t => if t = old then new else t).map Text.trim =
      tags.map fun t => if t = old then Text.trim new else t := by
    rw [List.map_map]
    refine List.map_congr_left fun t ht => ?_
    rw [Function.comp_apply]
    split
    · rfl
    · exact htrim ht
  rw [renameIn, ← Text.distinct_map, hmap, ← renameIn]
  intro a ha b hb hab
  obtain ⟨s, hs, rfl⟩ := List.mem_map.mp ha
  obtain ⟨t, ht, rfl⟩ := List.mem_map.mp hb
  by_cases hsold : s = old <;> by_cases htold : t = old
  · rw [if_pos hsold, if_pos htold]
  · rw [if_pos hsold, if_neg htold] at hab ⊢
    exact hbare ht htold (hab.trans (htrim ht))
  · rw [if_neg hsold, if_pos htold] at hab ⊢
    exact (hbare hs hsold (hab.symm.trans (htrim hs))).symm
  · rw [if_neg hsold, if_neg htold] at hab ⊢
    rwa [htrim hs, htrim ht] at hab

/-- The tags are distinct without the blanks around them iff there is no collision. -/
theorem nodup_map_trim_iff (hold : old ∈ tags) :
    ((renameIn old new tags).map Text.trim).Nodup ↔ ¬ Collides old new tags := by
  refine ⟨?_, fun h => ?_⟩
  · rintro hnodup ⟨-, hbare, hne, hpadded⟩
    have hnew : new ∈ renameIn old new tags :=
      Text.mem_distinct.mpr (List.mem_map.mpr ⟨old, hold, if_pos rfl⟩)
    have hother : Text.trim new ∈ renameIn old new tags :=
      Text.mem_distinct.mpr (List.mem_map.mpr ⟨Text.trim new, hbare, if_neg hne.symm⟩)
    exact hpadded (List.inj_on_of_nodup_map hnodup hnew hother (Text.trim_trim new).symm)
  · rw [map_trim_renameIn hwords hold h]
    exact Text.nodup_distinct _

end Padded

/-- The lines of the headings that carry a tag are read with the tag renamed to the bare name. -/
theorem replaces_map_trim (t old : Text) (hnew : IsWord (Text.trim new)) :
    Replaces t (fun h => Text.isIn old h.tags)
      (fun h line => Comment.update h.markup line ⟨renameIn old new h.tags, h.remark⟩) fun h =>
      h.withMarks ⟨(renameIn old new h.tags).map Text.trim, h.remark⟩ (Comment.update h.markup
        ((Line.contents t)[h.line.toNat]?.getD []) ⟨renameIn old new h.tags, h.remark⟩).length := by
  have hupdate (h : Heading) (line : Text) :
      Comment.update h.markup line ⟨(renameIn old new h.tags).map Text.trim, h.remark⟩ =
        Comment.update h.markup line ⟨renameIn old new h.tags, h.remark⟩ := by
    unfold Comment.update
    rw [Marks.encode_map_trim]
  have htags {h : Heading} (hp : Text.isIn old h.tags = true) : h.tags ≠ [] :=
    List.ne_nil_of_mem (Text.isIn_iff.mp hp)
  simp only [← hupdate]
  refine replaces_markLine t _ (fun h => ⟨(renameIn old new h.tags).map Text.trim, h.remark⟩)
    (fun h _ hp => htags hp) fun h hh hp => ?_
  obtain ⟨line, -, hread⟩ := Heading.exists_line_of_mem_ofText hh
  have hclean := Heading.clean_of_ofLine? hread
  refine ⟨⟨fun tag htag => ?_, hclean.remark⟩, ?_⟩
  · obtain ⟨s, hs, rfl⟩ := List.mem_map.mp htag
    rcases mem_renameIn hs with hs | rfl
    · rw [Text.trim_of_isTrimmed (hclean.tags s hs).isTrimmed]
      exact hclean.tags s hs
    · exact hnew
  · exact fun hnil => renameIn_ne_nil (htags hp) (List.map_eq_nil_iff.mp hnil)

section Document

variable {d : Document} {name : Text} {h : Heading}

theorem isWord_of_mem_tags (hh : h ∈ Heading.ofDocument d) : ∀ tag ∈ h.tags, IsWord tag := by
  obtain ⟨line, -, hread⟩ := Heading.exists_line_of_mem_ofText hh
  exact (Heading.clean_of_ofLine? hread).tags

/-- Renaming gives the headings that carry the tag the other tags without blanks around them. -/
theorem exists_renameTag (d : Document) (old : Text) (hname : tagName new = .ok name) :
    ∃ t, renameTag d old new = .ok t ∧
      SameLines d.text t (fun k => ∃ h ∈ Heading.ofDocument d, h.line = k ∧ old ∈ h.tags) ∧
      Heading.ofText t = (Heading.ofDocument d).map fun h =>
        if old ∈ h.tags then
          { h with
            tags := (renameIn old new h.tags).map Text.trim
            range := Range.ofLine h.line ((Line.contents t)[h.line.toNat]?.getD []).length }
        else h := by
  obtain ⟨rfl, hword⟩ := tagName_eq_ok_iff.mp hname
  have hcarries (h : Heading) : Text.isIn old h.tags = true ↔ old ∈ h.tags := Text.isIn_iff
  have hreplaces := replaces_map_trim d.text old hword
  refine ⟨changeLines d.text (changesOf (Heading.ofText d.text) (fun h => Text.isIn old h.tags)
    fun h line => Comment.update h.markup line ⟨renameIn old new h.tags, h.remark⟩),
    by rw [renameTag, hname]; rfl, ?_, ?_⟩
  · have := hreplaces.sameLines
    simp only [hcarries] at this
    exact this
  · rw [Heading.ofDocument]
    refine hreplaces.ofText_changeLines.trans (List.map_congr_left fun g hg => ?_)
    simp only [hcarries]
    split
    · next hold =>
      obtain ⟨line, hline, -⟩ := Heading.exists_line_of_mem_ofText hg
      rw [hreplaces.getElem?_contents hg ((hcarries g).mpr hold), hline]
      rfl
    · rfl

/-- The headings that were rewritten have distinct tags iff there are no collisions. -/
theorem nodup_tags_iff {t : Text} {length : Heading → Nat}
    (ht : Heading.ofText t = (Heading.ofDocument d).map fun h =>
      if old ∈ h.tags then
        { h with
          tags := (renameIn old new h.tags).map Text.trim
          range := Range.ofLine h.line (length h) }
      else h) :
    (∀ g ∈ Heading.ofText t,
        (∃ h ∈ Heading.ofDocument d, h.line = g.line ∧ old ∈ h.tags) → g.tags.Nodup) ↔
      ∀ h ∈ Heading.ofDocument d, ¬ Collides old new h.tags := by
  rw [ht]
  constructor
  · intro hnodup h hh hcollides
    have hold := hcollides.1
    have hg := hnodup _ (List.mem_map_of_mem hh) ⟨h, hh, by rw [if_pos hold], hold⟩
    rw [if_pos hold] at hg
    exact (nodup_map_trim_iff (isWord_of_mem_tags hh) hold).mp hg hcollides
  · rintro hnone g hg ⟨h, hh, hline, hold⟩
    obtain ⟨h', hh', rfl⟩ := List.mem_map.mp hg
    have hsame : h.line = h'.line := hline.trans (by split <;> rfl)
    obtain rfl := Heading.eq_of_line_eq (Heading.ofText_pairwise_line d.text) hh hh' hsame
    rw [if_pos hold]
    exact (nodup_map_trim_iff (isWord_of_mem_tags hh) hold).mpr (hnone h hh)

/-- Without collisions a name is written as the bare name is. -/
theorem renameTag_trim (hname : tagName new = .ok name)
    (h : ∀ h ∈ Heading.ofDocument d, ¬ Collides old new h.tags) :
    renameTag d old new = renameTag d old name := by
  obtain ⟨rfl, hword⟩ := tagName_eq_ok_iff.mp hname
  rw [renameTag, renameTag, hname, tagName_eq_ok_self_iff.mpr hword]
  refine congrArg (fun changes => Except.ok (changeLines d.text changes)) ?_
  refine List.map_congr_left fun g hg => ?_
  obtain ⟨hmem, hold⟩ := List.mem_filter.mp hg
  have htags := map_trim_renameIn (isWord_of_mem_tags hmem) (Text.isIn_iff.mp hold) (h g hmem)
  refine congrArg (Prod.mk g.line) (funext fun line => ?_)
  unfold Comment.update
  rw [← Marks.encode_map_trim, htags]

end Document

/-- Renaming to a name with blanks around it gives headings with the bare name among their tags. It
gives the same text as renaming to the bare name, and distinct tags to the headings that it rewrites,
iff none of these has the bare name beside the renamed tag. -/
theorem renameTag_trim_iff (d : Document) (old : Text) {new name : Text}
    (hname : tagName new = .ok name) :
    ∃ t t', renameTag d old new = .ok t ∧ renameTag d old name = .ok t' ∧
      SameLines d.text t (fun k => ∃ h ∈ Heading.ofDocument d, h.line = k ∧ old ∈ h.tags) ∧
      Heading.ofText t = ((Heading.ofDocument d).map fun h =>
        if old ∈ h.tags then
          { h with
            tags := (h.tags.map fun tag => if tag = old then new else tag).eraseDups.map Text.trim
            range := Range.ofLine h.line ((Line.contents t)[h.line.toNat]?.getD []).length }
        else h) ∧
      (t = t' ↔ ∀ h ∈ Heading.ofDocument d, ¬ Collides old new h.tags) ∧
      ((∀ g ∈ Heading.ofText t,
          (∃ h ∈ Heading.ofDocument d, h.line = g.line ∧ old ∈ h.tags) → g.tags.Nodup) ↔
        ∀ h ∈ Heading.ofDocument d, ¬ Collides old new h.tags) := by
  obtain ⟨rfl, hword⟩ := tagName_eq_ok_iff.mp hname
  obtain ⟨t, ht, hlines, hheadings⟩ := exists_renameTag d old hname
  obtain ⟨t', ht', -, hheadings'⟩ := exists_renameTag d old (tagName_eq_ok_self_iff.mpr hword)
  have hdistinct := nodup_tags_iff hheadings
  refine ⟨t, t', ht, ht', hlines, ?_, ⟨fun heq => ?_, fun hnone => ?_⟩, hdistinct⟩
  · simp only [← Text.distinct_eq_eraseDups]
    exact hheadings
  · -- The bare name collides with no tag, so the headings of that text have distinct tags.
    rw [← hdistinct, heq]
    exact (nodup_tags_iff hheadings').mpr fun h _ hcollides =>
      hcollides.2.2.2 (Text.trim_trim new).symm
  · exact Except.ok.inj (ht.symm.trans ((renameTag_trim hname hnone).trans ht'))

/-- Blanks around a name that no heading has yet make no difference. -/
theorem renameTag_trim_iff_new :
    let d : Document := ⟨[], "# A <!-- #a #x -->\r\n== B // #y #a\n## C <!-- #b -->".toList, .markdown⟩
    tagName " b\t".toList = .ok ['b'] ∧
      ∃ t, renameTag d ['a'] " b\t".toList = .ok t ∧ renameTag d ['a'] ['b'] = .ok t ∧
        (Heading.ofText t).map Heading.tags = [[['b'], ['x']], [['y'], ['b']], [['b']]] := by
  intro d
  have hname : tagName " b\t".toList = .ok ['b'] := by decide
  obtain ⟨t, t', ht, ht', -, hs, heq, -⟩ := renameTag_trim_iff d ['a'] hname
  obtain rfl := heq.mpr (by decide)
  refine ⟨hname, t, ht, ht', ?_⟩
  rw [hs]
  rfl

/-- A heading that has the bare name already gets it a second time. -/
theorem renameTag_twice :
    let d : Document := ⟨[], "# A <!-- #old #x -->\n".toList, .markdown⟩
    let t := "# A <!-- #x #x -->\n".toList
    tagName " x ".toList = .ok ['x'] ∧
      renameTag d "old".toList " x ".toList = .ok t ∧
      renameTag d "old".toList ['x'] = .ok "# A <!-- #x -->\n".toList ∧
      (Heading.ofText t).map Heading.tags = [[['x'], ['x']]] := by
  intro d t
  exact ⟨by decide, by rfl, by rfl, by rfl⟩

end TaggedOutline
