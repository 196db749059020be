import TaggedOutline.Proofs.Edit.Lines
import TaggedOutline.Proofs.Outline.Range

/-!
# Shifting the levels of headings

The line of a heading is its signs and a rest that no sign begins (`Signed.exists_rest`). With
another number of signs, from one to six, the rest is read as it was, so the heading is on another
level and has the same title and marks (`exists_shiftLine`). The end of the line stays. So shifting
changes nothing but the levels of the headings on the given lines, which for a block are its own and
those under it, and is undone by shifting back where no level is clamped (`ofText_shiftLevels`).
-/

namespace TaggedOutline

namespace Heading

variable {markup : Markup} {level : Nat} {line raw : Text} {number : Int} {h : Heading}

/-- The heading on another level, on a line of another length. -/
def withLevel (h : Heading) (level : Int) (length : Nat) : Heading :=
  { h with level := level, range := Range.ofLine h.line length }

/-- After the signs of a line there is a rest that no sign begins, before which any number of signs
from one to six may stand. -/
theorem Signed.exists_rest (hn : '\n' ∉ line) (hs : Signed markup level line raw)
    (hraw : markup = .typst → raw ≠ []) :
    ∃ rest, rest ≠ [] ∧ rest.head? ≠ some (sign markup) ∧
      line = List.replicate level (sign markup) ++ rest ∧
      ∀ n, 1 ≤ n → n ≤ 6 → Signed markup n (List.replicate n (sign markup) ++ rest) raw := by
  cases markup with
  | markdown =>
    obtain ⟨-, -, hhead, gap, hgap, hblank, rfl⟩ := (markdownTitle?_eq_some_iff hn).mp hs
    have hrest : '\n' ∉ gap ++ raw := fun h => hn (List.mem_append_right _ h)
    have hsign : (gap ++ raw).head? ≠ some '#' := by
      rw [List.head?_append_of_ne_nil gap hgap]
      intro hhash
      exact absurd (hblank _ (List.mem_of_head? hhash)) (by decide)
    refine ⟨gap ++ raw, List.append_ne_nil_of_left_ne_nil hgap _, hsign, rfl, fun n h1 h6 => ?_⟩
    have hline : '\n' ∉ List.replicate n '#' ++ (gap ++ raw) := by
      intro h
      rcases List.mem_append.mp h with h | h
      · exact absurd (List.mem_replicate.mp h).2 (by decide)
      · exact hrest h
    exact (markdownTitle?_eq_some_iff hline).mpr ⟨h1, h6, hhead, gap, hgap, hblank, rfl⟩
  | typst =>
    obtain ⟨-, hhead, rfl⟩ := typstTitle?_eq_some_iff.mp hs.2
    refine ⟨raw, hraw rfl, hhead, rfl, fun n h1 _ => ?_⟩
    have hn0 : n ≠ 0 := by omega
    exact ⟨markdownTitle?_of_equals n raw hn0, typstTitle?_eq_some_iff.mpr ⟨hn0, hhead, rfl⟩⟩

theorem splitTitle_nil (markup : Markup) : splitTitle markup [] = ([], {}) := by
  cases markup <;> rfl

end Heading

open Heading (Signed withLevel splitTitle ofLine?)

variable {line : Text} {number delta : Int} {h : Heading}

theorem exists_clampLevel_eq (level : Int) : ∃ n : Nat, clampLevel level = n ∧ 1 ≤ n ∧ n ≤ 6 := by
  have hbounds : 1 ≤ clampLevel level ∧ clampLevel level ≤ 6 := by
    unfold clampLevel
    omega
  exact ⟨(clampLevel level).toNat, by omega, by omega, by omega⟩

/-- The shifted line of a heading keeps what follows the signs, and is read on the new level. -/
theorem exists_shiftLine (hn : '\n' ∉ line) (hh : ofLine? line number = some h) (delta : Int) :
    ∃ rest, rest ≠ [] ∧ rest.head? ≠ some (sign h.markup) ∧
      line = List.replicate h.level.toNat (sign h.markup) ++ rest ∧
      shiftLine h delta line =
        List.replicate (clampLevel (h.level + delta)).toNat (sign h.markup) ++ rest ∧
      ofLine? (shiftLine h delta line) number =
        some (h.withLevel (clampLevel (h.level + delta)) (shiftLine h delta line).length) := by
  obtain ⟨n, hlevel, h1, h6⟩ := exists_clampLevel_eq (h.level + delta)
  rw [hlevel, Int.toNat_natCast]
  obtain ⟨markup, level, raw, hs, htitle, rfl⟩ := Heading.ofLine?_eq_some_iff.mp hh
  have hraw : markup = .typst → raw ≠ [] := by
    rintro hm rfl
    exact htitle hm (by rw [Heading.splitTitle_nil])
  obtain ⟨rest, hne, hsign, hline, hsigns⟩ := hs.exists_rest hn hraw
  have hshift : shiftLine (Heading.ofParts markup number level line.length (splitTitle markup raw).1
      (splitTitle markup raw).2) delta line = List.replicate n (sign markup) ++ rest := by
    rw [shiftLine, hlevel, Int.toNat_natCast]
    congr 1
    conv_lhs => rw [hline]
    exact List.drop_left' List.length_replicate
  refine ⟨rest, hne, hsign, hline, hshift, ?_⟩
  rw [hshift]
  exact Heading.ofLine?_eq_some_iff.mpr ⟨markup, n, raw, hsigns n h1 h6, htitle, rfl⟩

/-- The shifted line of a heading stays one line, for it ends as it did. -/
theorem staysLine_shiftLine (hn : '\n' ∉ line) (hh : ofLine? line number = some h) (delta : Int) :
    StaysLine line (shiftLine h delta line) := by
  obtain ⟨rest, hne, -, hline, hshift, -⟩ := exists_shiftLine hn hh delta
  rw [hshift]
  constructor
  · intro hm
    rcases List.mem_append.mp hm with hm | hm
    · exact absurd (List.mem_replicate.mp hm).2 (by cases h.markup <;> decide)
    · exact hn (hline ▸ List.mem_append_right _ hm)
  · intro hlast
    rw [List.getLast?_append_of_ne_nil _ hne] at hlast
    rw [hline, List.getLast?_append_of_ne_nil _ hne, hlast]

/-- Shifted headings are read on their new levels. -/
theorem replaces_shiftLine (t : Text) (p : Heading → Bool) (delta : Int) :
    Replaces t p (fun h => shiftLine h delta) fun h =>
      h.withLevel (clampLevel (h.level + delta))
        (shiftLine h delta ((Line.contents t)[h.line.toNat]?.getD [])).length := by
  intro h hh hp line hline hread
  have hn := Line.lineFeed_not_mem_of_mem_contents (List.mem_of_getElem? hline)
  obtain ⟨-, -, -, -, -, hshifted⟩ := exists_shiftLine hn hread delta
  simp only [hline, Option.getD_some]
  exact ⟨hshifted, staysLine_shiftLine hn hread delta⟩

theorem clampLevel_eq_self {level : Int} (h1 : 1 ≤ level) (h6 : level ≤ 6) :
    clampLevel level = level := by
  unfold clampLevel
  omega

/-- Shifting the line of the heading on the new level back gives the line as it was. -/
theorem shiftLine_neg (hn : '\n' ∉ line) (hh : ofLine? line number = some h)
    (hlevel : 1 ≤ h.level ∧ h.level ≤ 6) (hnew : 1 ≤ h.level + delta ∧ h.level + delta ≤ 6)
    (length : Nat) :
    shiftLine (h.withLevel (clampLevel (h.level + delta)) length) (-delta)
      (shiftLine h delta line) = line := by
  obtain ⟨rest, -, -, hline, hshift, -⟩ := exists_shiftLine hn hh delta
  have hback : h.level + delta + -delta = h.level := by omega
  rw [hshift, clampLevel_eq_self hnew.1 hnew.2, shiftLine]
  show List.replicate (clampLevel (h.level + delta + -delta)).toNat (sign h.markup) ++
    (List.replicate (h.level + delta).toNat (sign h.markup) ++ rest).drop
      (h.level + delta).toNat = line
  rw [hback, clampLevel_eq_self hlevel.1 hlevel.2, List.drop_left' List.length_replicate]
  exact hline.symm

/-! ## Shifted documents -/

open Outline (ofDocument)

/-- A block is shifted by shifting its heading and those under it. -/
theorem shiftBlock_eq {d : Document} {n : Node} (hn : n ∈ (ofDocument d).ordered) (delta : Int) :
    shiftBlock d (ofDocument d).ordered n delta =
      shiftLevels d (((ofDocument d).ordered.filter fun m =>
        m = n ∨ n ∈ (ofDocument d).ancestorsOf m).map Node.line) delta := by
  have hblock : ((ofDocument d).ordered.filter fun m =>
      (blockRange d (ofDocument d).ordered n).contains m.range) =
        (ofDocument d).ordered.filter fun m => m = n ∨ n ∈ (ofDocument d).ancestorsOf m := by
    refine List.filter_congr fun m hm => ?_
    rw [Bool.eq_iff_iff, Outline.contains_range_iff hn hm, Outline.inBlock_line_iff d hn hm,
      decide_eq_true_eq, eq_comm]
  unfold shiftBlock
  simp only
  rw [hblock]

/-- The headings on the given lines are put on other levels, and no other heading and no other line
is changed: in a changed line the signs are others. -/
theorem ofText_shiftLevels (d : Document) (lines : List Int) (delta : Int) :
    let t := shiftLevels d lines delta
    let o := ofDocument d
    let shifted (h : Heading) : Int := min 6 (max 1 (h.level + delta))
    (Heading.ofText t = (Heading.ofDocument d).map fun h =>
      if h.line ∈ lines then
        h.withLevel (shifted h) ((Line.contents t)[h.line.toNat]?.getD []).length
      else h) ∧
    SameLines d.text t (fun k => ∃ h ∈ Heading.ofDocument d, h.line = k ∧ h.line ∈ lines) ∧
    (∀ h ∈ Heading.ofDocument d, h.line ∈ lines →
      ∃ rest, rest.head? ≠ some (sign h.markup) ∧
        (Line.contents d.text)[h.line.toNat]? =
          some (List.replicate h.level.toNat (sign h.markup) ++ rest) ∧
        (Line.contents t)[h.line.toNat]? =
          some (List.replicate (shifted h).toNat (sign h.markup) ++ rest)) ∧
    (∀ n ∈ o.ordered, shiftBlock d o.ordered n delta =
      shiftLevels d ((o.ordered.filter fun m => m = n ∨ n ∈ o.ancestorsOf m).map Node.line)
        delta) ∧
    ((∀ h ∈ Heading.ofDocument d, h.line ∈ lines →
        (1 ≤ h.level ∧ h.level ≤ 6) ∧ 1 ≤ h.level + delta ∧ h.level + delta ≤ 6) →
      shiftLevels { d with text := t } lines (-delta) = d.text) := by
  intro t o shifted
  have H := replaces_shiftLine d.text (fun h => h.line ∈ lines) delta
  have hcontents {h : Heading} (hh : h ∈ Heading.ofDocument d) (hp : h.line ∈ lines) :
      (Line.contents t)[h.line.toNat]? =
        (Line.contents d.text)[h.line.toNat]?.map (shiftLine h delta) :=
    H.getElem?_contents hh (decide_eq_true hp)
  refine ⟨?_, ?_, fun h hh hp => ?_, fun n hn => shiftBlock_eq hn delta, fun hlevels => ?_⟩
  · refine H.ofText_changeLines.trans (List.map_congr_left fun h hh => ?_)
    by_cases hp : h.line ∈ lines
    · obtain ⟨line, hline, -⟩ := Heading.exists_line_of_mem_ofText hh
      rw [if_pos (decide_eq_true hp), if_pos hp, hcontents hh hp, hline]
      rfl
    · rw [if_neg (by simpa using hp), if_neg hp]
  · have hsame := H.sameLines
    simp only [decide_eq_true_eq] at hsame
    exact hsame
  · obtain ⟨line, hline, hread⟩ := Heading.exists_line_of_mem_ofText hh
    have hn := Line.lineFeed_not_mem_of_mem_contents (List.mem_of_getElem? hline)
    obtain ⟨rest, -, hsign, hsigns, hshift, -⟩ := exists_shiftLine hn hread delta
    refine ⟨rest, hsign, by rw [hline, ← hsigns], ?_⟩
    rw [hcontents hh hp, hline, Option.map_some, hshift]
    rfl
  · refine H.changeLines_changeLines (fun h _ hp => hp) fun h hh hp line hline hread => ?_
    have hn := Line.lineFeed_not_mem_of_mem_contents (List.mem_of_getElem? hline)
    obtain ⟨hlevel, hnew⟩ := hlevels h hh (of_decide_eq_true hp)
    exact shiftLine_neg hn hread hlevel hnew _

/-- Code that looks like a heading, a line that is none, a Windows break, tags, and a level that is
clamped. -/
theorem ofText_shiftLevels_mixed :
    let d : Document := ⟨[], "# A\r\n```\n## B\n```\n== C // #x\ntext\n### D".toList, .typst⟩
    let t := shiftLevels d [0, 2, 4, 5, 9] 2
    t = "### A\r\n```\n## B\n```\n==== C // #x\ntext\n### D".toList ∧
      (Heading.ofText t).map (fun h => (h.line, h.level, h.tags)) =
        [(0, 3, []), (4, 4, [['x']]), (6, 3, [])] ∧
      (∀ h ∈ Heading.ofDocument d, h.line ∈ [0, 2, 4, 5, 9] →
        (1 ≤ h.level ∧ h.level ≤ 6) ∧ 1 ≤ h.level + 2 ∧ h.level + 2 ≤ 6) ∧
      shiftLevels { d with text := t } [0, 2, 4, 5, 9] (-2) = d.text ∧
      (Heading.ofText (shiftLevels d [4] 9)).map Heading.level = [1, 6, 3] := by
  intro d t
  have hlevels : ∀ h ∈ Heading.ofDocument d, h.line ∈ [0, 2, 4, 5, 9] →
      (1 ≤ h.level ∧ h.level ≤ 6) ∧ 1 ≤ h.level + 2 ∧ h.level + 2 ≤ 6 := by decide
  obtain ⟨hheadings, -, -, -, hback⟩ := ofText_shiftLevels d [0, 2, 4, 5, 9] 2
  obtain ⟨hclamped, -⟩ := ofText_shiftLevels d [4] 9
  refine ⟨by decide, ?_, hlevels, hback hlevels, ?_⟩
  · rw [hheadings, List.map_map]
    rfl
  · rw [hclamped, List.map_map]
    rfl

end TaggedOutline
