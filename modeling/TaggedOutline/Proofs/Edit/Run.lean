import TaggedOutline.Proofs.Edit.Level
import TaggedOutline.Proofs.Edit.Rename
import TaggedOutline.Proofs.Edit.Tags

/-!
# Runs of edits of heading lines

Tags, remarks and levels are set, renamed and shifted in any order, each edit on the text that the
one before it left. Beside the texts go the headings alone, of which an edit revises some
(`LineEdit.revise`). One edit revises the headings of a text as it revises them alone
(`LineEdit.exists_apply`). Since a revised heading stays on its line and keeps its markup and title,
this goes on through a run (`ofText_edited`).
-/

namespace TaggedOutline

/-! ## Edits -/

/-- An edit of heading lines. -/
inductive LineEdit
  | setTags (line : Int) (tags : List Text) (remarkTag : Text)
  | setRemark (line : Int) (remark : Option Text) (remarkTag : Text)
  | renameTag (old new : Text)
  | shiftLevels (lines : List Int) (delta : Int)

/-- The heading with other marks. -/
def Heading.mark (h : Heading) (m : Marks) : Heading :=
  { h with tags := m.tags, remark := m.remark }

namespace LineEdit

/-- The text of a document after an edit. -/
def apply (d : Document) : LineEdit → Except EditError Text
  | setTags line tags remarkTag => TaggedOutline.setTags d line tags remarkTag
  | setRemark line remark remarkTag => TaggedOutline.setRemark d line remark remarkTag
  | renameTag old new => TaggedOutline.renameTag d old new
  | shiftLevels lines delta => .ok (TaggedOutline.shiftLevels d lines delta)

/-- What an edit makes of a heading, its range aside. -/
def revise : LineEdit → Heading → Heading
  | setTags line tags remarkTag, h =>
    if h.line = line then
      h.mark (Marks.normalize { tags := tags.map Text.trim, remark := h.remark } remarkTag false)
    else h
  | setRemark line remark remarkTag, h =>
    if h.line = line then
      h.mark (Marks.normalize { tags := h.tags, remark := remark } remarkTag true)
    else h
  | renameTag old new, h =>
    if Text.isIn old h.tags then
      { h with tags := (h.tags.map fun tag => if tag = old then new else tag).eraseDups }
    else h
  | shiftLevels lines delta, h =>
    if h.line ∈ lines then { h with level := min 6 (max 1 (h.level + delta)) } else h

/-- What edits make of a heading in turn, its range aside. -/
def reviseAll (es : List LineEdit) (h : Heading) : Heading := es.foldl (fun h e => e.revise h) h

/-- An edit fits some headings if it sets the marks of a Typst heading among them, and such as a
comment can hold, or if it renames a tag to a valid name or shifts levels. -/
def Fits (hs : List Heading) : LineEdit → Prop
  | setTags line tags _ =>
    (∃ h ∈ hs, h.line = line ∧ h.markup = .typst) ∧ ∀ t ∈ tags, ∃ name, tagName t = .ok name
  | setRemark line remark remarkTag =>
    (∃ h ∈ hs, h.line = line ∧ h.markup = .typst) ∧ (∀ r ∈ remark, '\n' ∉ r) ∧
      remarkTag ≠ [] ∧ ∀ c ∈ remarkTag, Text.isBlank c = false
  | renameTag _ new => tagName new = .ok new
  | shiftLevels _ _ => True

end LineEdit

/-- The document after edits, each of the text that the one before it left. -/
def Document.edited (d : Document) : List LineEdit → Except EditError Document
  | [] => .ok d
  | e :: es => do
    let t ← e.apply d
    { d with text := t }.edited es

/-! ## Revised headings -/

/-- The heading with the range that its line has in a text. -/
def Heading.onLineOf (t : Text) (h : Heading) : Heading :=
  { h with range := Range.ofLine h.line ((Line.contents t)[h.line.toNat]?.getD []).length }

/-- A text becomes another one by changes of the lines of its headings, of which each becomes what
`revise` makes of it. -/
structure Revises (before after : Text) (revise : Heading → Heading) : Prop where
  sameLines : SameLines before after fun k => ∃ h ∈ Heading.ofText before, h.line = k
  headings :
    Heading.ofText after = (Heading.ofText before).map fun h => (revise h).onLineOf after

section Revises

variable {t before between after : Text} {f g : Heading → Heading} {h : Heading}

/-- The headings of a text have the ranges of their lines. -/
theorem Heading.onLineOf_self (hh : h ∈ Heading.ofText t) : h.onLineOf t = h := by
  obtain ⟨line, hline, hread⟩ := exists_line_of_mem_ofText hh
  rw [onLineOf, hline, Option.getD_some, ← range_of_ofLine? hread]

theorem SameLines.refl (t : Text) (changed : Int → Prop) : SameLines t t changed :=
  ⟨rfl, rfl, fun _ _ => rfl⟩

theorem SameLines.mono {p q : Int → Prop} (H : SameLines before after p) (hpq : ∀ k, p k → q k) :
    SameLines before after q :=
  ⟨H.count, H.terminators, fun k hk => H.contents k fun hp => hk (hpq k hp)⟩

theorem SameLines.trans {p : Int → Prop} (H : SameLines before between p)
    (H' : SameLines between after p) : SameLines before after p :=
  ⟨H'.count.trans H.count, H'.terminators.trans H.terminators,
    fun k hk => (H'.contents k hk).trans (H.contents k hk)⟩

theorem Revises.refl (t : Text) : Revises t t id := by
  refine ⟨SameLines.refl t _, ?_⟩
  conv_lhs => rw [← List.map_id (Heading.ofText t)]
  exact List.map_congr_left fun h hh => (Heading.onLineOf_self hh).symm

/-- Headings are revised one after the other, if that is without regard to their ranges. -/
theorem Revises.trans (H : Revises before between f) (H' : Revises between after g)
    (hline : ∀ h, (f h).line = h.line)
    (hrange : ∀ h t, g (h.onLineOf t) = (g h).onLineOf t) :
    Revises before after (g ∘ f) := by
  constructor
  · refine H.sameLines.trans (H'.sameLines.mono fun k hk => ?_)
    obtain ⟨h, hh, rfl⟩ := hk
    rw [H.headings] at hh
    obtain ⟨h₀, hh₀, rfl⟩ := List.mem_map.mp hh
    exact ⟨h₀, hh₀, (hline h₀).symm⟩
  · rw [H'.headings, H.headings, List.map_map]
    refine List.map_congr_left fun h _ => ?_
    show (g ((f h).onLineOf between)).onLineOf after = (g (f h)).onLineOf after
    rw [hrange]
    rfl

/-- Headings whose lines are replaced are revised, and the others stay. -/
theorem Replaces.revises {p : Heading → Bool} {change : Heading → Text → Text}
    {new : Heading → Heading} (H : Replaces t p change new)
    (hnew : ∀ h s, p h → (new h).onLineOf s = (f h).onLineOf s) (hother : ∀ h, ¬ p h → f h = h) :
    Revises t (changeLines t (changesOf (Heading.ofText t) p change)) f := by
  have hheadings := H.ofText_changeLines
  constructor
  · refine H.sameLines.mono fun k hk => ?_
    obtain ⟨h, hh, hline, -⟩ := hk
    exact ⟨h, hh, hline⟩
  · rw [hheadings]
    refine List.map_congr_left fun h hh => ?_
    have hself := Heading.onLineOf_self (hheadings ▸ List.mem_map_of_mem hh)
    by_cases hp : p h
    · rw [if_pos hp] at hself ⊢
      rw [← hnew h _ hp]
      exact hself.symm
    · rw [if_neg hp] at hself ⊢
      rw [hother h hp]
      exact hself.symm

end Revises

/-! ## One edit -/

section Step

variable {d : Document} {h : Heading}

/-- The marks of a Typst heading are set. -/
theorem revises_markLine (marks : Heading → Marks) (hh : h ∈ Heading.ofDocument d)
    (hmarkup : h.markup = .typst) (hm : (marks h).Clean) :
    Revises d.text (changeLines d.text [markLine h (marks h)]) fun g =>
      if g.line = h.line then g.mark (marks g) else g := by
  have honly {g : Heading} (hg : g ∈ Heading.ofText d.text) (hline : g.line = h.line) : g = h :=
    Heading.eq_of_line_eq (Heading.ofText_pairwise_line d.text) hg hh hline
  have hreplaces := replaces_of_canHold d.text (fun g => g.line = h.line) marks fun g hg hline => by
    obtain rfl := honly hg (of_decide_eq_true hline)
    obtain ⟨line, hcontent, hread⟩ := Heading.exists_line_of_mem_ofText hg
    have hn := Line.lineFeed_not_mem_of_mem_contents (List.mem_of_getElem? hcontent)
    exact ⟨hm, Heading.canHold_of_typst hn hread hmarkup _⟩
  have hchanges : changesOf (Heading.ofText d.text) (fun g => g.line = h.line)
      (fun g line => Comment.update g.markup line (marks g)) = [markLine h (marks h)] :=
    changesOf_line hh _
  rw [← hchanges]
  refine hreplaces.revises (fun g s hline => ?_) fun g hline => ?_
  · rw [if_pos (of_decide_eq_true hline)]
    rfl
  · exact if_neg (by simpa using hline)

/-- A tag is renamed. -/
theorem revises_renameTag (d : Document) (old : Text) {new : Text} (hnew : tagName new = .ok new) :
    ∃ t, renameTag d old new = .ok t ∧ Revises d.text t (LineEdit.revise (.renameTag old new)) := by
  have hreplaces := replaces_renameIn d.text old (tagName_eq_ok_self_iff.mp hnew)
  refine ⟨_, by rw [renameTag, hnew]; rfl, hreplaces.revises (fun h s hp => ?_) fun h hp => ?_⟩
  · rw [LineEdit.revise, if_pos hp, ← Text.distinct_eq_eraseDups]
    rfl
  · rw [LineEdit.revise, if_neg hp]

/-- Levels are shifted. -/
theorem revises_shiftLevels (d : Document) (lines : List Int) (delta : Int) :
    Revises d.text (shiftLevels d lines delta) (LineEdit.revise (.shiftLevels lines delta)) := by
  have hreplaces := replaces_shiftLine d.text (fun h => h.line ∈ lines) delta
  refine hreplaces.revises (fun h s hp => ?_) fun h hp => ?_
  · rw [LineEdit.revise, if_pos (of_decide_eq_true hp)]
    rfl
  · rw [LineEdit.revise, if_neg (by simpa using hp)]

namespace LineEdit

/-- An edit that fits revises the headings of a document. -/
theorem exists_apply {e : LineEdit} (hfits : e.Fits (Heading.ofDocument d)) :
    ∃ t, e.apply d = .ok t ∧ Revises d.text t e.revise := by
  cases e with
  | setTags line tags remarkTag =>
    obtain ⟨⟨h, hh, rfl, hmarkup⟩, htags⟩ := hfits
    obtain ⟨content, -, hread⟩ := Heading.exists_line_of_mem_ofText hh
    have hm : (Marks.normalize { tags := tags.map Text.trim, remark := h.remark } remarkTag
        false).Clean := by
      refine Marks.clean_normalize (fun t ht => ?_) (fun r hr hfeed => ?_) (by simp)
      · obtain ⟨s, hs, rfl⟩ := List.mem_map.mp ht
        obtain ⟨name, hname⟩ := htags s hs
        obtain ⟨rfl, hword⟩ := tagName_eq_ok_iff.mp hname
        rw [Text.trim_trim]
        exact hword.2
      · exact ((Heading.clean_of_ofLine? hread).remark r hr).2.2 (Text.mem_of_mem_trim hfeed)
    refine ⟨_, ?_, revises_markLine (fun g =>
      Marks.normalize { tags := tags.map Text.trim, remark := g.remark } remarkTag false)
      hh hmarkup hm⟩
    rw [apply, TaggedOutline.setTags, mapM_tagName htags, headingAt_eq hh]
    rfl
  | setRemark line remark remarkTag =>
    obtain ⟨⟨h, hh, rfl, hmarkup⟩, hremark, -, htag⟩ := hfits
    obtain ⟨content, -, hread⟩ := Heading.exists_line_of_mem_ofText hh
    have hm : (Marks.normalize { tags := h.tags, remark := remark } remarkTag true).Clean := by
      refine Marks.clean_normalize (fun t ht c hc => ?_) (fun r hr hfeed => ?_) fun _ => htag
      · exact ((Heading.clean_of_ofLine? hread).tags t ht).2 c (Text.mem_of_mem_trim hc)
      · exact hremark r hr (Text.mem_of_mem_trim hfeed)
    refine ⟨_, ?_, revises_markLine (fun g =>
      Marks.normalize { tags := g.tags, remark := remark } remarkTag true) hh hmarkup hm⟩
    rw [apply, TaggedOutline.setRemark, headingAt_eq hh]
    rfl
  | renameTag old new => exact revises_renameTag d old hfits
  | shiftLevels lines delta => exact ⟨_, rfl, revises_shiftLevels d lines delta⟩

/-- A revised heading stays on its line and keeps its markup and title. -/
theorem revise_frame (e : LineEdit) (h : Heading) :
    (e.revise h).line = h.line ∧ (e.revise h).markup = h.markup ∧ (e.revise h).text = h.text ∧
      (e.revise h).display = h.display := by
  cases e with
  | setTags line tags remarkTag =>
    by_cases hline : h.line = line <;> simp [revise, hline, Heading.mark]
  | setRemark line remark remarkTag =>
    by_cases hline : h.line = line <;> simp [revise, hline, Heading.mark]
  | renameTag old new => by_cases hmem : Text.isIn old h.tags = true <;> simp [revise, hmem]
  | shiftLevels lines delta => by_cases hmem : h.line ∈ lines <;> simp [revise, hmem]

/-- A heading is revised without regard to its range. -/
theorem revise_onLineOf (e : LineEdit) (h : Heading) (t : Text) :
    e.revise (h.onLineOf t) = (e.revise h).onLineOf t := by
  cases e with
  | setTags line tags remarkTag =>
    by_cases hline : h.line = line <;> simp [revise, hline, Heading.mark, Heading.onLineOf]
  | setRemark line remark remarkTag =>
    by_cases hline : h.line = line <;> simp [revise, hline, Heading.mark, Heading.onLineOf]
  | renameTag old new =>
    by_cases hmem : Text.isIn old h.tags = true <;> simp [revise, hmem, Heading.onLineOf]
  | shiftLevels lines delta =>
    by_cases hmem : h.line ∈ lines <;> simp [revise, hmem, Heading.onLineOf]

/-- An edit fits the headings that another edit has revised. -/
theorem Fits.of_revises {e e' : LineEdit} {before after : Text}
    (hfits : e.Fits (Heading.ofText before)) (H : Revises before after e'.revise) :
    e.Fits (Heading.ofText after) := by
  have hkeeps {line : Int} (h : ∃ h ∈ Heading.ofText before, h.line = line ∧ h.markup = .typst) :
      ∃ h ∈ Heading.ofText after, h.line = line ∧ h.markup = .typst := by
    obtain ⟨h, hh, hline, hmarkup⟩ := h
    obtain ⟨hline', hmarkup', -⟩ := e'.revise_frame h
    rw [H.headings]
    exact ⟨_, List.mem_map_of_mem hh, hline'.trans hline, hmarkup'.trans hmarkup⟩
  cases e with
  | setTags line tags remarkTag => exact ⟨hkeeps hfits.1, hfits.2⟩
  | setRemark line remark remarkTag => exact ⟨hkeeps hfits.1, hfits.2⟩
  | renameTag old new => exact hfits
  | shiftLevels lines delta => exact hfits

end LineEdit

end Step

/-! ## Runs -/

section Run

variable {d : Document} {es : List LineEdit}

namespace LineEdit

theorem reviseAll_frame (es : List LineEdit) (h : Heading) :
    (reviseAll es h).line = h.line ∧ (reviseAll es h).markup = h.markup ∧
      (reviseAll es h).text = h.text ∧ (reviseAll es h).display = h.display := by
  induction es generalizing h with
  | nil => exact ⟨rfl, rfl, rfl, rfl⟩
  | cons e es ih =>
    obtain ⟨hline, hmarkup, htext, hdisplay⟩ := ih (e.revise h)
    obtain ⟨hline', hmarkup', htext', hdisplay'⟩ := e.revise_frame h
    exact ⟨hline.trans hline', hmarkup.trans hmarkup', htext.trans htext', hdisplay.trans hdisplay'⟩

theorem reviseAll_onLineOf (es : List LineEdit) (h : Heading) (t : Text) :
    reviseAll es (h.onLineOf t) = (reviseAll es h).onLineOf t := by
  induction es generalizing h with
  | nil => rfl
  | cons e es ih =>
    show reviseAll es (e.revise (h.onLineOf t)) = (reviseAll es (e.revise h)).onLineOf t
    rw [revise_onLineOf, ih]

end LineEdit

/-- Edits that fit revise the headings of a document in turn. -/
theorem exists_edited (hfits : ∀ e ∈ es, e.Fits (Heading.ofDocument d)) :
    ∃ t, d.edited es = .ok { d with text := t } ∧ Revises d.text t (LineEdit.reviseAll es) := by
  induction es generalizing d with
  | nil => exact ⟨d.text, rfl, Revises.refl d.text⟩
  | cons e es ih =>
    obtain ⟨t, happly, hrevises⟩ := LineEdit.exists_apply (hfits e List.mem_cons_self)
    obtain ⟨t', hedited, hrest⟩ := ih (d := { d with text := t }) fun e' he' =>
      (hfits e' (List.mem_cons_of_mem e he')).of_revises hrevises
    refine ⟨t', ?_, hrevises.trans hrest (fun h => (e.revise_frame h).1)
      (LineEdit.reviseAll_onLineOf es)⟩
    rw [Document.edited, happly]
    exact hedited

/-- After a run of edits a document has the headings that it had, on the same lines and with the
same markups and titles, in the levels, tags and remarks that the edits make in turn. Line breaks
and the lines without headings are as they were. -/
theorem ofText_edited (hfits : ∀ e ∈ es, e.Fits (Heading.ofDocument d)) :
    ∃ t, d.edited es = .ok { d with text := t } ∧
      SameLines d.text t (fun k => ∃ h ∈ Heading.ofDocument d, h.line = k) ∧
      Heading.ofText t =
        (Heading.ofDocument d).map (fun h => (LineEdit.reviseAll es h).onLineOf t) ∧
      (Heading.ofText t).map (fun h => (h.line, h.markup, h.text, h.display)) =
        (Heading.ofDocument d).map fun h => (h.line, h.markup, h.text, h.display) := by
  obtain ⟨t, hedited, hlines, hheadings⟩ := exists_edited hfits
  refine ⟨t, hedited, hlines, hheadings, ?_⟩
  rw [hheadings, List.map_map]
  refine List.map_congr_left fun h _ => ?_
  obtain ⟨hline, hmarkup, htext, hdisplay⟩ := LineEdit.reviseAll_frame es h
  show ((LineEdit.reviseAll es h).line, (LineEdit.reviseAll es h).markup,
    (LineEdit.reviseAll es h).text, (LineEdit.reviseAll es h).display) = _
  rw [hline, hmarkup, htext, hdisplay]

theorem ofText_edited_mixed :
    let d : Document := ⟨[], "== A // #x #y\r\n# B <!-- #x -->\ntext\n= C http://d".toList, .typst⟩
    let es := [.setTags 0 [['x'], [' ', 'z']] ['r'], .shiftLevels [0, 1] 5, .renameTag ['x'] ['z'],
      .setRemark 3 (some ['n', ':']) ['r']]
    (∀ e ∈ es, e.Fits (Heading.ofDocument d)) ∧
      ∃ t, d.edited es = .ok { d with text := t } ∧
        (Heading.ofText t).map (fun h => (h.line, h.level, h.tags, h.remark)) =
          [(0, 6, [['z']], none), (1, 6, [['z']], none), (3, 1, [['r']], some ['n', ':'])] := by
  intro d es
  have hfits : ∀ e ∈ es, e.Fits (Heading.ofDocument d) := by
    have htypst (h : Heading) (k : Int) (hh : h ∈ Heading.ofDocument d)
        (hk : (h.line, h.markup) = (k, Markup.typst)) :
        ∃ h ∈ Heading.ofDocument d, h.line = k ∧ h.markup = .typst :=
      ⟨h, hh, (Prod.mk.inj hk).1, (Prod.mk.inj hk).2⟩
    intro e he
    simp only [es, List.mem_cons, List.not_mem_nil, or_false] at he
    obtain rfl | rfl | rfl | rfl := he
    · refine ⟨htypst _ 0 (List.mem_of_getElem? (i := 0) rfl) rfl, ?_⟩
      intro t ht
      simp only [List.mem_cons, List.not_mem_nil, or_false] at ht
      obtain rfl | rfl := ht
      · exact ⟨['x'], by decide⟩
      · exact ⟨['z'], by decide⟩
    · trivial
    · exact (by decide : tagName ['z'] = .ok ['z'])
    · have hword : Text.IsWord ['r'] := by decide
      exact ⟨htypst _ 3 (List.mem_of_getElem? (i := 2) rfl) rfl, by decide, hword⟩
  obtain ⟨t, hedited, -, hheadings, -⟩ := ofText_edited hfits
  refine ⟨hfits, t, hedited, ?_⟩
  rw [hheadings, List.map_map]
  rfl

end Run

end TaggedOutline
