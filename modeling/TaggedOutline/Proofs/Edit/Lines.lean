import TaggedOutline.Edit.Lines
import TaggedOutline.Proofs.Heading.Marks
import TaggedOutline.Proofs.Heading.Scan
import TaggedOutline.Proofs.Table

/-!
# Edits of heading lines

An edit changes the contents of the lines of some headings. If each of these lines stays one line
and is read as a heading again, the text of the changed lines is split where it was before
(`ofText_changeLines`), and just these headings are others (`Replaces.ofText_changeLines`). So it is
where the headings can hold the marks that are written to their lines (`replaces_of_canHold`). The
edit is undone by one that gives the new headings their former lines back
(`Replaces.changeLines_changeLines`).
-/

namespace TaggedOutline

/-- Two texts have the same breaks, and the same lines apart from some. -/
structure SameLines (before after : Text) (changed : Int → Prop) : Prop where
  count : (Line.ofText after).length = (Line.ofText before).length
  terminators : (Line.ofText after).map Line.terminator = (Line.ofText before).map Line.terminator
  contents : ∀ k : Nat, ¬ changed k → (Line.contents after)[k]? = (Line.contents before)[k]?

/-- What the changes do to the line of a number. -/
def changeAt (changes : LineChanges) (number : Int) : Text → Text := (changes.get? number).getD id

/-- The new content of a line stays on one line: it has no line feed, and no carriage return has come
to its end, where it would become a part of the break. -/
def StaysLine (before after : Text) : Prop :=
  '\n' ∉ after ∧ (after.getLast? = some '\r' → before.getLast? = some '\r')

/-! ## Changed lines -/

section Change

variable (changes : LineChanges) (number : Int) (ls : List Line)

theorem changeFrom_append (ls' : List Line) :
    changeFrom changes number (ls ++ ls') =
      changeFrom changes number ls ++ changeFrom changes (number + ls.length) ls' := by
  induction ls generalizing number with
  | nil => simp [changeFrom]
  | cons l ls ih =>
    rw [List.cons_append, changeFrom, changeFrom, ih, List.length_cons,
      show number + 1 + (ls.length : Int) = number + ((ls.length + 1 : Nat) : Int) by omega]
    rfl

theorem map_terminator_changeFrom :
    (changeFrom changes number ls).map Line.terminator = ls.map Line.terminator := by
  induction ls generalizing number with
  | nil => rfl
  | cons l ls ih => rw [changeFrom, List.map_cons, List.map_cons, ih]

theorem map_content_changeFrom :
    (changeFrom changes number ls).map Line.content =
      Heading.mapLines (changeAt changes) number (ls.map Line.content) := by
  induction ls generalizing number with
  | nil => rfl
  | cons l ls ih =>
    rw [changeFrom, List.map_cons, List.map_cons, ih]
    rfl

end Change

/-- Where no line is changed the lines stay. -/
theorem changeFrom_of_other {changes : LineChanges} {number : Int} {ls : List Line}
    (h : ∀ k, number ≤ k → k < number + ls.length → changeAt changes k = id) :
    changeFrom changes number ls = ls := by
  induction ls generalizing number with
  | nil => rfl
  | cons l ls ih =>
    rw [List.length_cons] at h
    have hl : (changes.get? number).getD id = id := h number (Int.le_refl number) (by omega)
    rw [changeFrom, hl, ih fun k hk hlt => h k (by omega) (by omega)]
    rfl

/-- A change of one line. -/
theorem changeFrom_singleton (f : Text → Text) (number : Int) (a : List Line) (l : Line)
    (b : List Line) :
    changeFrom [(number + a.length, f)] number (a ++ l :: b) =
      a ++ { l with content := f l.content } :: b := by
  have hat (k : Int) : changeAt [(number + a.length, f)] k =
      if number + a.length = k then f else id := by
    rw [changeAt, Table.get?_cons]
    split <;> rfl
  rw [changeFrom_append, changeFrom_of_other, changeFrom, changeFrom_of_other]
  · have hl := hat (number + a.length)
    rw [if_pos rfl] at hl
    rw [← changeAt, hl]
  · exact fun k hk _ => (hat k).trans (if_neg (by omega))
  · exact fun k _ hlt => (hat k).trans (if_neg (by omega))

theorem getElem?_mapLines (change : Int → Text → Text) (number : Int) (lines : List Text)
    (k : Nat) :
    (Heading.mapLines change number lines)[k]? = lines[k]?.map (change (number + k)) := by
  induction lines generalizing number k with
  | nil => rfl
  | cons line rest ih =>
    rw [Heading.mapLines]
    cases k with
    | zero => simp
    | succ k =>
      rw [List.getElem?_cons_succ, List.getElem?_cons_succ, ih,
        show number + 1 + (k : Int) = number + ((k + 1 : Nat) : Int) by omega]

/-- A line stays as it is or gets another content that stays on one line. -/
def Keeps (changes : LineChanges) (number : Int) (line : Text) : Prop :=
  changeAt changes number line = line ∨ StaysLine line (changeAt changes number line)

theorem Keeps.isEnded {changes : LineChanges} {number : Int} {l : Line}
    (h : Keeps changes number l.content) (hl : l.IsEnded) :
    Line.IsEnded { l with content := changeAt changes number l.content } := by
  rcases h with hsame | hstays
  · rw [hsame]
    exact hl
  · exact ⟨hl.ends, hstays.1, fun ht hlast => hl.carriageReturn ht (hstays.2 hlast)⟩

theorem isEnded_changeFrom {changes : LineChanges} {number : Int} {ls : List Line}
    (hls : ∀ l ∈ ls, l.IsEnded)
    (h : ∀ (k : Nat) (l : Line), ls[k]? = some l → Keeps changes (number + k) l.content) :
    ∀ l ∈ changeFrom changes number ls, l.IsEnded := by
  induction ls generalizing number with
  | nil => exact fun l hl => absurd hl (by simp [changeFrom])
  | cons first ls ih =>
    intro l hl
    rcases List.mem_cons.mp hl with rfl | hl
    · have hkeeps := h 0 first rfl
      rw [Int.ofNat_zero, Int.add_zero] at hkeeps
      exact hkeeps.isEnded (hls first List.mem_cons_self)
    · refine ih (fun x hx => hls x (List.mem_cons_of_mem first hx)) (fun k x hx => ?_) l hl
      rw [show number + 1 + (k : Int) = number + ((k + 1 : Nat) : Int) by omega]
      exact h (k + 1) x hx

/-- Where each changed line stays one line, the changed text is split into the changed lines. -/
theorem ofText_changeLines {t : Text} {changes : LineChanges}
    (h : ∀ (k : Nat) (line : Text), (Line.contents t)[k]? = some line → Keeps changes k line) :
    Line.ofText (changeLines t changes) = changeFrom changes 0 (Line.ofText t) := by
  obtain ⟨ls, last, hsplit, hls, hlast⟩ := Line.exists_ofText t
  have hkeeps (k : Nat) (l : Line) (hk : (Line.ofText t)[k]? = some l) :
      Keeps changes k l.content :=
    h k l.content (by rw [Line.contents, List.getElem?_map, hk]; rfl)
  rw [hsplit] at hkeeps
  unfold changeLines
  rw [hsplit, changeFrom_append, Int.zero_add]
  refine Line.ofText_join (isEnded_changeFrom hls fun k l hk => ?_) ?_
  · rw [Int.zero_add]
    refine hkeeps k l ?_
    rw [List.getElem?_append_left (List.getElem?_eq_some_iff.mp hk).1]
    exact hk
  · show '\n' ∉ changeAt changes ls.length last
    rcases hkeeps ls.length ⟨last, .none⟩ (by simp) with hsame | hstays
    · rw [hsame]
      exact hlast
    · exact hstays.1

theorem contents_changeLines {t : Text} {changes : LineChanges}
    (h : ∀ (k : Nat) (line : Text), (Line.contents t)[k]? = some line → Keeps changes k line) :
    Line.contents (changeLines t changes) =
      Heading.mapLines (changeAt changes) 0 (Line.contents t) := by
  rw [Line.contents, ofText_changeLines h, map_content_changeFrom, Line.contents]

/-- The changed text has the same lines and breaks but for the contents of the changed lines. -/
theorem sameLines_changeLines {t : Text} {changes : LineChanges} {changed : Int → Prop}
    (h : ∀ (k : Nat) (line : Text), (Line.contents t)[k]? = some line → Keeps changes k line)
    (hother : ∀ k, ¬ changed k → changeAt changes k = id) :
    SameLines t (changeLines t changes) changed := by
  have hbreaks : (Line.ofText (changeLines t changes)).map Line.terminator =
      (Line.ofText t).map Line.terminator := by
    rw [ofText_changeLines h, map_terminator_changeFrom]
  refine ⟨?_, hbreaks, fun k hk => ?_⟩
  · simpa using congrArg List.length hbreaks
  · rw [contents_changeLines h, getElem?_mapLines, Int.zero_add, hother k hk, Option.map_id, id]

/-- Changes that give each line back what it was are undone. -/
theorem changeFrom_changeFrom {changes undo : LineChanges} {number : Int} {ls : List Line}
    (h : ∀ (k : Nat) (l : Line), ls[k]? = some l →
      changeAt undo (number + k) (changeAt changes (number + k) l.content) = l.content) :
    changeFrom undo number (changeFrom changes number ls) = ls := by
  induction ls generalizing number with
  | nil => rfl
  | cons first ls ih =>
    have hfirst : changeAt undo number (changeAt changes number first.content) = first.content := by
      simpa using h 0 first rfl
    rw [changeFrom, changeFrom, ← changeAt, ← changeAt, hfirst, ih fun k l hk => ?_]
    rw [show number + 1 + (k : Int) = number + ((k + 1 : Nat) : Int) by omega]
    exact h (k + 1) l hk

theorem changeLines_changeLines {t : Text} {changes undo : LineChanges}
    (h : ∀ (k : Nat) (line : Text), (Line.contents t)[k]? = some line → Keeps changes k line)
    (hundo : ∀ (k : Nat) (line : Text), (Line.contents t)[k]? = some line →
      changeAt undo k (changeAt changes k line) = line) :
    changeLines (changeLines t changes) undo = t := by
  rw [changeLines, ofText_changeLines h, changeFrom_changeFrom fun k l hk => ?_, Line.join_ofText]
  rw [Int.zero_add]
  exact hundo k l.content (by rw [Line.contents, List.getElem?_map, hk]; rfl)

/-! ## Changed headings -/

/-- The changes `f` of the lines of those headings that satisfy `p`. -/
def changesOf (hs : List Heading) (p : Heading → Bool) (f : Heading → Text → Text) : LineChanges :=
  (hs.filter p).map fun h => (h.line, f h)

section Headings

variable {hs : List Heading} {p : Heading → Bool} {f : Heading → Text → Text} {h : Heading}

theorem changeAt_changesOf (k : Int) :
    changeAt (changesOf hs p f) k = (((hs.filter p).find? (·.line = k)).map f).getD id := by
  rw [changeAt, changesOf, Table.get?_map _ Heading.line]

/-- The change of a heading is made to its line. -/
theorem changeAt_line (hlines : hs.Pairwise (·.line < ·.line)) (hh : h ∈ hs) (hp : p h) :
    changeAt (changesOf hs p f) h.line = f h := by
  rw [changeAt_changesOf, Heading.find?_line (Heading.nodup_map_line (hlines.filter p))
    (List.mem_filter.mpr ⟨hh, hp⟩)]
  rfl

/-- Other lines are not changed. -/
theorem changeAt_other {k : Int} (hk : ¬ ∃ h ∈ hs, h.line = k ∧ p h) :
    changeAt (changesOf hs p f) k = id := by
  have hnone : (hs.filter p).find? (·.line = k) = none := by
    rw [List.find?_eq_none]
    intro g hg hline
    obtain ⟨hmem, hp⟩ := List.mem_filter.mp hg
    exact hk ⟨g, hmem, by simpa using hline, hp⟩
  rw [changeAt_changesOf, hnone]
  rfl

end Headings

/-- The lines of the headings that satisfy `p` become lines of other headings. -/
def Replaces (t : Text) (p : Heading → Bool) (f : Heading → Text → Text) (new : Heading → Heading) :
    Prop :=
  ∀ h ∈ Heading.ofText t, p h → ∀ line, (Line.contents t)[h.line.toNat]? = some line →
    Heading.ofLine? line h.line = some h →
    Heading.ofLine? (f h line) h.line = some (new h) ∧ StaysLine line (f h line)

namespace Replaces

variable {t : Text} {p : Heading → Bool} {f : Heading → Text → Text} {new : Heading → Heading}
  (H : Replaces t p f new)

include H

theorem keeps (k : Nat) (line : Text) (hk : (Line.contents t)[k]? = some line) :
    Keeps (changesOf (Heading.ofText t) p f) k line := by
  by_cases hsome : ∃ h ∈ Heading.ofText t, h.line = k ∧ p h
  · obtain ⟨h, hh, hline, hp⟩ := hsome
    have hread := Heading.ofLine?_of_mem_ofText hh hline hk
    refine .inr ?_
    rw [← hline, changeAt_line (Heading.ofText_pairwise_line t) hh hp]
    exact (H h hh hp line (by rwa [hline]) hread).2
  · refine .inl ?_
    rw [changeAt_other hsome]
    rfl

/-- The other headings are found in the place of the former. -/
theorem ofText_changeLines :
    Heading.ofText (changeLines t (changesOf (Heading.ofText t) p f)) =
      (Heading.ofText t).map fun h => if p h then new h else h := by
  have hlines := Heading.ofText_pairwise_line t
  rw [Heading.ofText, contents_changeLines H.keeps]
  refine Heading.ofLines_mapLines (fun line => Line.lineFeed_not_mem_of_mem_contents) ?_ ?_
  · intro k _ hno
    exact changeAt_other fun ⟨h, hh, hline, _⟩ => hno h hh hline
  · intro h hh line hline hread
    rw [Int.sub_zero] at hline
    by_cases hp : p h
    · obtain ⟨hread', hstays⟩ := H h hh hp line hline hread
      rw [changeAt_line hlines hh hp, if_pos hp]
      exact ⟨hread', hstays.1⟩
    · have hsame : changeAt (changesOf (Heading.ofText t) p f) h.line = id :=
        changeAt_other fun ⟨g, hg, hgline, hgp⟩ =>
          hp (Heading.eq_of_line_eq hlines hg hh hgline ▸ hgp)
      rw [hsame, if_neg hp]
      exact ⟨hread, Line.lineFeed_not_mem_of_mem_contents (List.mem_of_getElem? hline)⟩

/-- No other line is changed. -/
theorem sameLines :
    SameLines t (changeLines t (changesOf (Heading.ofText t) p f))
      fun k => ∃ h ∈ Heading.ofText t, h.line = k ∧ p h :=
  sameLines_changeLines H.keeps fun _ hk => changeAt_other hk

theorem getElem?_contents {h : Heading} (hh : h ∈ Heading.ofText t) (hp : p h) :
    (Line.contents (changeLines t (changesOf (Heading.ofText t) p f)))[h.line.toNat]? =
      (Line.contents t)[h.line.toNat]?.map (f h) := by
  have hline := Heading.line_of_mem_ofLines hh
  rw [contents_changeLines H.keeps, getElem?_mapLines,
    show (0 : Int) + (h.line.toNat : Int) = h.line by omega,
    changeAt_line (Heading.ofText_pairwise_line t) hh hp]

/-- The changes are undone by others that give the former lines back to the new headings. -/
theorem changeLines_changeLines {g : Heading → Text → Text}
    (hnew : ∀ h ∈ Heading.ofText t, p h → p (new h))
    (hundo : ∀ h ∈ Heading.ofText t, p h → ∀ line, (Line.contents t)[h.line.toNat]? = some line →
      Heading.ofLine? line h.line = some h → g (new h) (f h line) = line) :
    changeLines (changeLines t (changesOf (Heading.ofText t) p f))
      (changesOf (Heading.ofText (changeLines t (changesOf (Heading.ofText t) p f))) p g) = t := by
  have hlines := Heading.ofText_pairwise_line t
  have hlines' := Heading.ofText_pairwise_line (changeLines t (changesOf (Heading.ofText t) p f))
  rw [H.ofText_changeLines] at hlines' ⊢
  refine TaggedOutline.changeLines_changeLines H.keeps fun k line hk => ?_
  by_cases hsome : ∃ h ∈ Heading.ofText t, h.line = k ∧ p h
  · obtain ⟨h, hh, hline, hp⟩ := hsome
    have hread := Heading.ofLine?_of_mem_ofText hh hline hk
    have hk' : (Line.contents t)[h.line.toNat]? = some line := by rwa [hline]
    have hmem : new h ∈ (Heading.ofText t).map fun h => if p h then new h else h :=
      List.mem_map.mpr ⟨h, hh, if_pos hp⟩
    have hsame : (new h).line = h.line := Heading.line_of_ofLine? (H h hh hp line hk' hread).1
    have hback := changeAt_line (f := g) hlines' hmem (hnew h hh hp)
    rw [hsame] at hback
    rw [← hline, changeAt_line hlines hh hp, hback]
    exact hundo h hh hp line hk' hread
  · rw [changeAt_other hsome, id, changeAt_other, id]
    rintro ⟨h', hh', hline, hp⟩
    obtain ⟨h, hh, rfl⟩ := List.mem_map.mp hh'
    obtain ⟨content, hcontent, hread⟩ := Heading.exists_line_of_mem_ofText hh
    by_cases hph : p h
    · rw [if_pos hph] at hline
      have hsame := Heading.line_of_ofLine? (H h hh hph content hcontent hread).1
      exact hsome ⟨h, hh, hsame ▸ hline, hph⟩
    · rw [if_neg hph] at hline hp
      exact hsome ⟨h, hh, hline, hp⟩

end Replaces

/-! ## Written marks -/

/-- The line of a heading with other marks stays one line. -/
theorem staysLine_update {line : Text} {m : Marks} (hn : '\n' ∉ line) (hm : m.Clean)
    (markup : Markup) : StaysLine line (Comment.update markup line m) := by
  refine ⟨Comment.lineFeed_not_mem_update hn hm.lineFeed_not_mem_encode markup, fun h => ?_⟩
  exact absurd (Comment.getLast?_update markup line m _ h) (by decide)

/-- The heading that a heading with other marks is read as. -/
theorem replaces_of_canHold (t : Text) (p : Heading → Bool) (marks : Heading → Marks)
    (hm : ∀ h ∈ Heading.ofText t, p h → (marks h).Clean ∧ h.CanHold (marks h)) :
    Replaces t p (fun h line => Comment.update h.markup line (marks h)) fun h =>
      h.withMarks (marks h) (Comment.update h.markup
        ((Line.contents t)[h.line.toNat]?.getD []) (marks h)).length := by
  intro h hh hp line hline hread
  have hn := Line.lineFeed_not_mem_of_mem_contents (List.mem_of_getElem? hline)
  obtain ⟨hclean, hhold⟩ := hm h hh hp
  simp only [hline, Option.getD_some]
  exact ⟨(Heading.ofLine?_update_iff hn hread hclean).mpr hhold,
    staysLine_update hn hclean h.markup⟩

end TaggedOutline
