import TaggedOutline.Proofs.Edit.Excerpt

/-!
# What is read of gathered blocks

1. The headings above a block are written anew with their labels, and read again where a label is a
   title (`map_ofLines_ancestorLines_iff`).
2. The block is read again outside of code, apart from headings that need the carriage return at the
   end of their line (`map_ofLines_block_iff`).
3. So the section is found in full iff no code region is open before it and all that is written in it
   can be read (`isFoundAt_iff`), and sections after one another are iff all of them can be read and
   none but the last leaves a code region open (`foundFrom_iff`).
-/

namespace TaggedOutline

open Heading (ofLine? ofLines read? splitTitle)

/-! ## Headings that are written anew -/

section Marker

variable {markup : Markup} {level : Nat} {label : Text}

theorem exists_markerText (markup : Markup) (hlevel : 1 ≤ level) :
    ∃ c r, markerText markup level = c :: r ∧ (c = '#' ∨ c = '=') := by
  cases markup with
  | markdown =>
    obtain ⟨k, hk⟩ : ∃ k, min level 6 = k + 1 := ⟨min level 6 - 1, by omega⟩
    exact ⟨'#', List.replicate k '#', by rw [markerText, hk]; rfl, .inl rfl⟩
  | typst =>
    obtain ⟨k, rfl⟩ : ∃ k, level = k + 1 := ⟨level - 1, by omega⟩
    exact ⟨'=', List.replicate k '=', rfl, .inr rfl⟩

theorem lineFeed_not_mem_markerText (markup : Markup) (level : Nat) (hn : '\n' ∉ label) :
    '\n' ∉ markerText markup level ++ ' ' :: label := by
  intro hm
  rcases List.mem_append.mp hm with hm | hm
  · cases markup with
    | markdown => exact absurd (List.eq_of_mem_replicate hm) (by decide)
    | typst => exact absurd (List.eq_of_mem_replicate hm) (by decide)
  · rcases List.mem_cons.mp hm with h | h
    · exact absurd h (by decide)
    · exact hn h

theorem getLast?_markerText (markup : Markup) (level : Nat) (ht : Text.IsTrimmed label) :
    (markerText markup level ++ ' ' :: label).getLast? ≠ some '\r' := by
  rw [List.getLast?_append_of_ne_nil _ (by simp)]
  cases label with
  | nil => simp
  | cons c r =>
    rw [List.getLast?_cons_cons]
    intro h
    exact absurd (ht.2 '\r' h) (by decide)

/-- A heading that is written anew opens no code region. -/
theorem opening?_markerText (markup : Markup) (hlevel : 1 ≤ level) (label : Text) :
    Fence.opening? (markerText markup level ++ ' ' :: label) = none := by
  obtain ⟨c, r, hmarker, hc⟩ := exists_markerText markup hlevel
  rw [hmarker]
  rcases hc with rfl | rfl <;> rfl

theorem isTitle_typst_iff :
    Excerpt.IsTitle .typst label ↔ label ≠ [] ∧ ¬ Comment.opening .typst <+: label := by
  rw [Excerpt.IsTitle, Text.startsWith, Option.isSome_eq_false_iff, Option.isNone_iff_eq_none,
    Text.after?_eq_none_iff]
  exact ⟨fun h => h rfl, fun h _ => h⟩

/-- A label makes a title in Typst unless it is empty or starts with a comment. -/
theorem splitTitle_typst_ne_nil_iff (ht : Text.IsTrimmed label) (hn : '\n' ∉ label) :
    (splitTitle .typst (' ' :: label)).1 ≠ [] ↔ Excerpt.IsTitle .typst label := by
  have hspaced (t : Text) : Text.trim (' ' :: t) = Text.trim t :=
    Text.trim_blank_append (b := [' ']) (fun c => Text.isBlank_of_mem_space) t
  have hline : '\n' ∉ ' ' :: label := by simp [hn]
  rw [isTitle_typst_iff]
  constructor
  · refine fun htitle => ⟨?_, ?_⟩
    · rintro rfl
      exact htitle rfl
    · rintro ⟨r, rfl⟩
      have hr : '\n' ∉ r := fun hm => hn (List.mem_append_right _ hm)
      have hopening : ¬ Comment.opening .typst <:+: [] := by decide
      have hf := Comment.findFrom?_spaced hopening 0 (Comment.opening .typst ++ r)
      rw [Comment.findFrom?_opening (Comment.body?_typst hr)] at hf
      exact htitle (congrArg Prod.fst (Heading.splitTitle_of_find? hf))
  · rintro ⟨hne, hstart⟩
    unfold splitTitle
    cases hf : Comment.find? .typst (' ' :: label) with
    | none =>
      show Text.trim (' ' :: label) ≠ []
      rw [hspaced, Text.trim_of_isTrimmed ht]
      exact hne
    | some f =>
      obtain ⟨a, rest, body, hsplit, -, -, -, hfound⟩ := Comment.exists_of_findFrom? hline hf
      obtain rfl : ⟨0 + a.length, 0 + (' ' :: label).length, body⟩ = f :=
        Option.some.inj ((hfound 0).symm.trans hf)
      show Text.trim ((' ' :: label).take (0 + a.length)) ≠ []
      rw [hsplit, Nat.zero_add, List.take_left]
      cases a with
      | nil => exact absurd (List.cons.inj hsplit).1 (by decide)
      | cons x a =>
        obtain ⟨rfl, rfl⟩ := List.cons.inj hsplit
        rw [hspaced]
        cases a with
        | nil => exact absurd (List.prefix_append _ _) hstart
        | cons c a =>
          -- The label starts with the title, so with a character that is not blank.
          have hc : Text.isBlank c = false := ht.1 c rfl
          have hinfix : [c] <:+: Text.trim (c :: a) :=
            Text.isInfix_trim (by simpa using hc) (List.IsPrefix.isInfix ⟨a, rfl⟩)
          intro hnil
          rw [hnil] at hinfix
          exact absurd (List.infix_nil.mp hinfix) (by simp)

/-- A heading that is written anew is read with its level where the label is a title, and is no
heading elsewhere. -/
theorem map_ofLine?_markerText (markup : Markup) (hlevel : 1 ≤ level) (ht : Text.IsTrimmed label)
    (hn : '\n' ∉ label) (number : Int) :
    (ofLine? (markerText markup level ++ ' ' :: label) number).map
        (fun h => (h.line, h.markup, h.level)) =
      if Excerpt.IsTitle markup label then
        some (number, markup, ((markerText markup level).length : Int))
      else none := by
  cases markup with
  | markdown =>
    have hlabel : Excerpt.IsTitle .markdown label := fun h => absurd h (by decide)
    rw [if_pos hlabel, markerText, ofLine?,
      Heading.markdownTitle?_cons (by decide) hn, if_pos ⟨by omega, by omega, rfl⟩,
      List.length_replicate]
    rfl
  | typst =>
    obtain ⟨k, rfl⟩ : ∃ k, level = k + 1 := ⟨level - 1, by omega⟩
    have htypst : Heading.typstTitle? (List.replicate (k + 1) '=' ++ ' ' :: label) =
        some (k + 1, ' ' :: label) :=
      Heading.typstTitle?_eq_some_iff.mpr ⟨by omega, by simp, rfl⟩
    rw [markerText, ofLine?, Heading.markdownTitle?_of_equals _ _ (by omega), List.length_replicate]
    simp only [htypst]
    by_cases h : Excerpt.IsTitle .typst label
    · rw [if_pos h, if_neg ((splitTitle_typst_ne_nil_iff ht hn).mpr h)]
      rfl
    · rw [if_neg h, if_pos (not_not.mp fun hne => h ((splitTitle_typst_ne_nil_iff ht hn).mp hne))]
      rfl

/-- A line above a section is a level of signs and a label. -/
theorem exists_of_mem_ancestorLines {labels : List Text} {line : Text} (hlevel : 1 ≤ level)
    (h : line ∈ ancestorLines markup level labels) :
    ∃ k label, 1 ≤ k ∧ label ∈ labels ∧ line = markerText markup k ++ ' ' :: label := by
  induction labels generalizing level with
  | nil => exact absurd h (by simp [ancestorLines])
  | cons label labels ih =>
    rcases List.mem_cons.mp h with rfl | h
    · exact ⟨level, label, hlevel, List.mem_cons_self, rfl⟩
    · obtain ⟨k, label', hk, hlabel, rfl⟩ := ih (Nat.le_succ_of_le hlevel) h
      exact ⟨k, label', hk, List.mem_cons_of_mem label hlabel, rfl⟩

theorem length_ancestorLines (markup : Markup) (level : Nat) (labels : List Text) :
    (ancestorLines markup level labels).length = labels.length := by
  induction labels generalizing level with
  | nil => rfl
  | cons label labels ih => rw [ancestorLines, List.length_cons, ih, List.length_cons]

/-- Headings that are written anew leave the fence state as it is. -/
theorem afterLines_ancestorLines {fence : Fence} (hf : fence.inside = false) (hlevel : 1 ≤ level)
    (labels : List Text) : fence.afterLines (ancestorLines markup level labels) = fence := by
  refine Heading.afterLines_of_opening? hf fun line hline => ?_
  obtain ⟨k, label, hk, -, rfl⟩ := exists_of_mem_ancestorLines hlevel hline
  exact opening?_markerText markup hk label

/-- In a scan such a line is read outside of code where its label is a title. -/
theorem map_read?_markerText (markup : Markup) (fence : Fence) (number : Int) (hlevel : 1 ≤ level)
    (ht : Text.IsTrimmed label) (hn : '\n' ∉ label) :
    (read? fence number (markerText markup level ++ ' ' :: label)).map
        (fun h => (h.line, h.markup, h.level)) =
      if fence.inside = false ∧ Excerpt.IsTitle markup label then
        some (number, markup, ((markerText markup level).length : Int))
      else none := by
  unfold read?
  by_cases hf : fence.inside = false
  · rw [Heading.step_of_opening? hf (opening?_markerText markup hlevel label), if_neg (by simp),
      map_ofLine?_markerText markup hlevel ht hn]
    simp only [hf, true_and]
  · rw [if_pos, if_neg fun h => hf h.1]
    · rfl
    · rw [Fence.step, if_pos (by simpa using hf)]

/-- There is a heading for each label iff they are read outside of code and all are titles. -/
theorem map_ofLines_ancestorLines_iff (markup : Markup) (fence : Fence) (number : Int)
    {labels : List Text} (hlevel : 1 ≤ level) (hlabels : ∀ label ∈ labels, Text.IsTrimmed label ∧ '\n' ∉ label) :
    ((ofLines fence number (ancestorLines markup level labels)).map
        fun h => (h.line, h.markup, h.level)) =
      ((List.range labels.length).map fun (k : Nat) =>
        (number + k, markup, ((markerText markup (level + k)).length : Int))) ↔
      (labels ≠ [] → fence.inside = false) ∧
        ∀ label ∈ labels, Excerpt.IsTitle markup label := by
  induction labels generalizing level number with
  | nil => simp [ancestorLines, ofLines]
  | cons label labels ih =>
    obtain ⟨⟨ht, hn⟩, hlabels⟩ := List.forall_mem_cons.mp hlabels
    have hlater := ih (number + 1) (Nat.le_succ_of_le hlevel) hlabels
    have hrange : ((List.range labels.length).map fun (k : Nat) =>
        (number + 1 + k, markup, ((markerText markup (level + 1 + k)).length : Int))) =
        ((List.range labels.length).map Nat.succ).map fun (k : Nat) =>
          (number + k, markup, ((markerText markup (level + k)).length : Int)) := by
      rw [List.map_map]
      refine List.map_congr_left fun k _ => ?_
      show _ = (number + ((k + 1 : Nat) : Int), markup, _)
      rw [Int.natCast_succ, Nat.add_assoc, Nat.add_comm 1 k, Int.add_assoc, Int.add_comm 1]
    rw [ancestorLines, Heading.ofLines_cons, List.map_append, ← Option.toList_map,
      map_read?_markerText markup fence number hlevel ht hn, List.length_cons,
      List.range_succ_eq_map, List.map_cons, ← hrange]
    by_cases hhead : fence.inside = false ∧ Excerpt.IsTitle markup label
    · have hstep := Heading.step_of_opening? hhead.1 (opening?_markerText markup hlevel label)
      rw [if_pos hhead, hstep, Option.toList_some, List.singleton_append, Int.natCast_zero,
        Int.add_zero, Nat.add_zero, List.cons.injEq]
      refine (and_iff_right rfl).trans (hlater.trans ?_)
      simp [hhead.1, hhead.2]
    · rw [if_neg hhead]
      constructor
      · intro heq
        -- The first heading would be on a later line.
        have hmem : (number + ((0 : Nat) : Int), markup, ((markerText markup (level + 0)).length : Int)) ∈
            (ofLines (fence.step (markerText markup level ++ ' ' :: label)).2 (number + 1)
              (ancestorLines markup (level + 1) labels)).map
                fun h => (h.line, h.markup, h.level) := by
          rw [show (none : Option (Int × Markup × Int)).toList = [] from rfl,
            List.nil_append] at heq
          rw [heq]
          exact List.mem_cons_self
        obtain ⟨h, hh, heq⟩ := List.mem_map.mp hmem
        have hline := (Heading.line_of_mem_ofLines hh).1
        have : h.line = number + ((0 : Nat) : Int) := congrArg Prod.fst heq
        omega
      · rintro ⟨hf, htitles⟩
        exact absurd ⟨hf (by simp), htitles label List.mem_cons_self⟩ hhead

end Marker

/-- Headings are split in one way into those before a line and those from it on. -/
theorem Heading.append_inj_of_line {a b a' b' : List Heading} {k : Int} (h : a ++ b = a' ++ b')
    (ha : ∀ x ∈ a, x.line < k) (hb : ∀ x ∈ b, k ≤ x.line) (ha' : ∀ x ∈ a', x.line < k)
    (hb' : ∀ x ∈ b', k ≤ x.line) : a = a' ∧ b = b' := by
  have hfilter {a b : List Heading} (ha : ∀ x ∈ a, x.line < k) (hb : ∀ x ∈ b, k ≤ x.line) :
      (a ++ b).filter (·.line < k) = a := by
    rw [List.filter_append, List.filter_eq_self.mpr fun x hx => decide_eq_true (ha x hx),
      List.filter_eq_nil_iff.mpr fun x hx => by have := hb x hx; simp only [decide_eq_true_eq]; omega,
      List.append_nil]
  obtain rfl : a = a' := by rw [← hfilter ha hb, h, hfilter ha' hb']
  exact ⟨rfl, List.append_cancel_left h⟩

/-! ## The section -/

namespace Excerpt

variable {b : Excerpt} {fence : Fence} {number : Int}

/-- The lines of a section are the headings above the block, and its lines without the carriage
returns at their ends. Empty lines at the end are left out. -/
theorem exists_fed_text (hb : b.node ∈ b.ordered) : ∃ block j k,
    Line.fed b.text = ancestorLines b.document.markup 1
      (labelsAbove b.document b.node.line) ++ block ∧
    block ++ List.replicate j [] = b.lines.map Line.withoutReturn ++ List.replicate k [] := by
  obtain ⟨k, -, hk⟩ := exists_contents_blockText hb
  obtain ⟨j, hj⟩ := Line.exists_fed_dropFinalFeeds
    (Text.unifyBreaks (blockText b.document b.ordered b.node))
  rw [Line.fed_unifyBreaks, hk, List.map_append, List.map_replicate] at hj
  refine ⟨_, j, k, ?_, hj.symm⟩
  have hlines : ∀ line ∈ ancestorLines b.document.markup 1 (labelsAbove b.document b.node.line),
      '\n' ∉ line ∧ Line.withoutReturn line = line := by
    intro line hline
    obtain ⟨level, label, -, hlabel, rfl⟩ := exists_of_mem_ancestorLines (Nat.le_refl 1) hline
    obtain ⟨ht, hn⟩ := label_of_mem_labelsAbove hb hlabel
    exact ⟨lineFeed_not_mem_markerText _ level hn,
      Line.withoutReturn_of_getLast? (getLast?_markerText _ level ht)⟩
  have hsection : b.text = Text.joinWith ['\n']
      (ancestorLines b.document.markup 1 (labelsAbove b.document b.node.line) ++
        [Text.dropFinalFeeds (Text.unifyBreaks (blockText b.document b.ordered b.node))]) := rfl
  rw [hsection, Line.fed_joinWith fun line hline => (hlines line hline).1,
    List.map_congr_left fun line hline => (hlines line hline).2, List.map_id']

/-! ## The headings of the section -/

theorem line_of_map_above {above : List Heading}
    (habove : (above.map fun h => (h.line, h.markup, h.level)) =
      ((List.range b.depth).map fun (k : Nat) =>
        (number + k, b.document.markup, ((markerText b.document.markup (k + 1)).length : Int))))
    {h : Heading} (hh : h ∈ above) : number ≤ h.line ∧ h.line < number + b.depth := by
  have hmem := List.mem_map_of_mem (f := fun h : Heading => (h.line, h.markup, h.level)) hh
  rw [habove] at hmem
  obtain ⟨k, hk, heq⟩ := List.mem_map.mp hmem
  have hline : number + (k : Int) = h.line := congrArg Prod.fst heq
  have := List.mem_range.mp hk
  omega

section Found

variable (hb : b.node ∈ b.ordered)

include hb

theorem getElem?_lines {h : Heading} (hh : h ∈ b.headings) :
    b.lines[(h.line - b.node.line).toNat]? = b.document.lines[h.line.toNat]? := by
  obtain ⟨front, later, hlines, hfront, -⟩ := exists_lines_eq hb
  rw [← ofLines_lines hb] at hh
  have hline := Heading.line_of_mem_ofLines hh
  rw [hlines, List.getElem?_append_right (by omega), List.getElem?_append_left (by omega)]
  congr 1
  omega

theorem lines_ne_nil : b.lines ≠ [] := by
  obtain ⟨-, -, -, -, hend⟩ := exists_lines_eq hb
  have hlt := line_lt_blockEnd b.isOrdered hb
  intro hnil
  rw [hnil, List.length_nil] at hend
  omega

/-- Outside of code the block is read again, wherever it stands, apart from headings of which the one
blank was a carriage return. -/
theorem map_ofLines_withoutReturn_iff (number : Int) :
    (ofLines {} number (b.lines.map Line.withoutReturn)).map Heading.unmeasured =
        (b.headings.map fun h => (h.movedDown (number - b.node.line)).unmeasured) ↔
      ∀ h ∈ b.headings, ∀ line ∈ b.document.lines[h.line.toNat]?, ¬ Heading.IsBare line := by
  have hmoved : ofLines {} number (b.lines.map Line.withoutReturn) =
      (ofLines {} b.node.line (b.lines.map Line.withoutReturn)).map
        (·.movedDown (number - b.node.line)) := by
    rw [← Heading.ofLines_add, show b.node.line + (number - b.node.line) = number by omega]
  have hcomm (hs : List Heading) :
      (hs.map fun h => (h.movedDown (number - b.node.line)).unmeasured) =
        (hs.map Heading.unmeasured).map (·.movedDown (number - b.node.line)) := by
    rw [List.map_map]
    rfl
  have hinjective : Function.Injective fun h : Heading => h.movedDown (number - b.node.line) := by
    refine Function.LeftInverse.injective (g := fun h => h.movedUp (number - b.node.line)) ?_
    exact fun h => h.movedUp_movedDown _
  have hmap := hcomm (ofLines {} b.node.line (b.lines.map Line.withoutReturn))
  rw [hmoved, List.map_map, show ((Heading.unmeasured ∘ fun h => h.movedDown (number - b.node.line)) :
    Heading → Heading) = fun h => (h.movedDown (number - b.node.line)).unmeasured from rfl, hmap,
    hcomm, (List.map_injective_iff.mpr hinjective).eq_iff, ← ofLines_lines hb,
    Heading.map_unmeasured_ofLines_iff Fence.genuine_initial
      fun line hline => lineFeed_not_mem_of_mem_lines hline, ofLines_lines hb]
  exact forall₂_congr fun h hh => by rw [getElem?_lines hb hh]

/-- If the headings of the block are found, its first line was read outside of code. -/
theorem inside_of_map_ofLines (hs : fence.Sound) {number : Int}
    (heq : (ofLines fence number (b.lines.map Line.withoutReturn)).map Heading.unmeasured =
      b.headings.map fun h => (h.movedDown (number - b.node.line)).unmeasured) :
    fence.inside = false := by
  obtain ⟨g, hg, hline⟩ := exists_heading hb
  have hmem := List.mem_map_of_mem
    (f := fun h : Heading => (h.movedDown (number - b.node.line)).unmeasured) hg
  rw [← heq] at hmem
  obtain ⟨h, hh, hsame⟩ := List.mem_map.mp hmem
  have hnumber : h.unmeasured.line = g.line - -(number - b.node.line) :=
    congrArg Heading.line hsame
  change h.line = g.line - -(number - b.node.line) at hnumber
  cases hlines : b.lines with
  | nil => exact absurd hlines (lines_ne_nil hb)
  | cons line rest =>
    rw [hlines, List.map_cons] at hh
    have hn : '\n' ∉ Line.withoutReturn line := fun hm =>
      lineFeed_not_mem_of_mem_lines (b := b) (by rw [hlines]; exact List.mem_cons_self)
        (Line.mem_of_mem_withoutReturn hm)
    rw [(Heading.outside_of_line_eq hs hn hh (by omega)).1]

section Scan

variable {block : List Text} {j k : Nat}
  (hblock : block ++ List.replicate j [] =
    b.lines.map Line.withoutReturn ++ List.replicate k [])

include hblock

/-- The headings of the block stand on lines of the section. -/
theorem line_lt_of_mem_headings {h : Heading} (hh : h ∈ b.headings) :
    b.node.line ≤ h.line ∧ h.line - b.node.line < block.length := by
  have hin := hh
  rw [← ofLines_lines hb] at hin
  obtain ⟨line, hline, hread⟩ := Heading.exists_line_of_mem_ofLines hin
  refine ⟨(Heading.line_of_mem_ofLines hin).1, ?_⟩
  -- A line that is left out is empty, so it was no heading.
  have hsolid : Line.withoutReturn line ≠ [] := by
    intro hnil
    rcases Line.withoutReturn_cases line with he | he
    · rw [← he, hnil] at hread
      exact absurd hread (by simp [ofLine?, Heading.markdownTitle?, Heading.typstTitle?])
    · rw [he, hnil] at hread
      exact absurd hread (by simp [ofLine?, Heading.markdownTitle?, Heading.typstTitle?])
  have hget : (block ++ List.replicate j [])[(h.line - b.node.line).toNat]? =
      some (Line.withoutReturn line) := by
    have hmap : (b.lines.map Line.withoutReturn)[(h.line - b.node.line).toNat]? =
        some (Line.withoutReturn line) := by rw [List.getElem?_map, hline, Option.map_some]
    rw [hblock, List.getElem?_append_left (List.getElem?_eq_some_iff.mp hmap).1, hmap]
  by_contra hle
  rw [List.getElem?_append_right (by omega)] at hget
  exact hsolid (List.eq_of_mem_replicate (List.mem_of_getElem? hget))

/-- The block is read again outside of code, apart from headings of which the one blank was a
carriage return. -/
theorem map_ofLines_block_iff (hs : fence.Sound) (number : Int) :
    (ofLines fence number (block ++ [[]])).map Heading.unmeasured =
        (b.headings.map fun h => (h.movedDown (number - b.node.line)).unmeasured) ↔
      fence.inside = false ∧
        ∀ h ∈ b.headings, ∀ line ∈ b.document.lines[h.line.toNat]?, ¬ Heading.IsBare line := by
  have hscan : ofLines fence number (block ++ [[]]) =
      ofLines fence number (b.lines.map Line.withoutReturn) := by
    have hempty := Heading.ofLines_append_replicate_nil fence number
    rw [show ([[]] : List Text) = List.replicate 1 [] from rfl, hempty, ← hempty block j, hblock,
      hempty]
  rw [hscan]
  constructor
  · intro heq
    have hf := inside_of_map_ofLines hb hs heq
    obtain rfl := hs hf
    exact ⟨hf, (map_ofLines_withoutReturn_iff hb number).mp heq⟩
  · rintro ⟨hf, hbare⟩
    obtain rfl := hs hf
    exact (map_ofLines_withoutReturn_iff hb number).mpr hbare

end Scan

theorem length_labels : (labelsAbove b.document b.node.line).length = b.depth :=
  length_labelsAbove hb

theorem height_eq {block : List Text} (hfed : Line.fed b.text =
    ancestorLines b.document.markup 1 (labelsAbove b.document b.node.line) ++ block) :
    b.height = b.depth + block.length := by
  rw [height, ← Line.length_fed, hfed, List.length_append, length_ancestorLines, length_labels hb]

theorem line_of_map_own {own : List Heading}
    (hown : own.map Heading.unmeasured =
      b.headings.map fun h => (h.movedDown (number + b.depth - b.node.line)).unmeasured)
    {h : Heading} (hh : h ∈ own) : number + b.depth ≤ h.line ∧ h.line < number + b.height := by
  have hmem := List.mem_map_of_mem (f := Heading.unmeasured) hh
  rw [hown] at hmem
  obtain ⟨g, hg, heq⟩ := List.mem_map.mp hmem
  have hline : g.line - -(number + b.depth - b.node.line) = h.line := congrArg Heading.line heq
  obtain ⟨block, j, k, hfed, hblock⟩ := exists_fed_text hb
  have hlt := line_lt_of_mem_headings hb hblock hg
  have hheight := height_eq hb hfed
  omega

/-- The headings of a section stand on its lines. -/
theorem line_of_isFoundAt {hs : List Heading} (h : b.IsFoundAt number hs) {g : Heading}
    (hg : g ∈ hs) : number ≤ g.line ∧ g.line < number + b.height := by
  obtain ⟨above, own, rfl, habove, hown⟩ := h
  obtain ⟨block, j, k, hfed, hblock⟩ := exists_fed_text hb
  have hheight := height_eq hb hfed
  rcases List.mem_append.mp hg with hg | hg
  · have := line_of_map_above habove hg
    omega
  · have := line_of_map_own hb hown hg
    omega

/-- A section is found in full iff no code region is open before it and all its headings can be read
again. -/
theorem isFoundAt_iff (hs : fence.Sound) (number : Int) :
    b.IsFoundAt number (ofLines fence number (Line.fed b.text ++ [[]])) ↔
      fence.inside = false ∧ b.IsLegible := by
  obtain ⟨block, j, k, hfed, hblock⟩ := exists_fed_text hb
  have hlength : (ancestorLines b.document.markup 1
      (labelsAbove b.document b.node.line)).length = b.depth := by
    rw [length_ancestorLines, length_labels hb]
  have habove := map_ofLines_ancestorLines_iff b.document.markup fence number (Nat.le_refl 1)
    fun label hlabel => label_of_mem_labelsAbove hb hlabel
  have hown (fence' : Fence) (hs' : fence'.Sound) :=
    map_ofLines_block_iff hb hblock hs' (number + b.depth)
  rw [length_labels hb] at habove
  simp only [Nat.add_comm 1] at habove
  rw [hfed, List.append_assoc, Heading.ofLines_append, hlength]
  constructor
  · rintro ⟨above, own, hsplit, hfoundAbove, hfoundOwn⟩
    -- The headings are told apart by their lines.
    obtain ⟨rfl, rfl⟩ := Heading.append_inj_of_line hsplit
      (fun h hh => by have := Heading.line_of_mem_ofLines hh; rw [hlength] at this; exact this.2)
      (fun h hh => (Heading.line_of_mem_ofLines hh).1)
      (fun h hh => (line_of_map_above hfoundAbove hh).2)
      fun h hh => (line_of_map_own hb hfoundOwn hh).1
    obtain ⟨hopen, htitles⟩ := habove.mp hfoundAbove
    have hf : fence.inside = false := by
      by_cases hlabels : labelsAbove b.document b.node.line = []
      · rw [hlabels] at hfoundOwn
        exact ((hown fence hs).mp hfoundOwn).1
      · exact hopen hlabels
    rw [afterLines_ancestorLines hf (Nat.le_refl 1)] at hfoundOwn
    exact ⟨hf, ⟨htitles, ((hown fence hs).mp hfoundOwn).2⟩⟩
  · rintro ⟨hf, hlegible⟩
    rw [afterLines_ancestorLines hf (Nat.le_refl 1)]
    exact ⟨_, _, rfl, habove.mpr ⟨fun _ => hf, hlegible.labels⟩,
      (hown fence hs).mpr ⟨hf, hlegible.signs⟩⟩

/-- After a section the scan is where it is after the block alone. -/
theorem afterLines_text :
    ({} : Fence).afterLines (Line.fed b.text ++ [[]]) =
      ({} : Fence).afterLines (Line.contents (blockText b.document b.ordered b.node)) := by
  obtain ⟨block, j, k, hfed, hblock⟩ := exists_fed_text hb
  obtain ⟨k', -, hcontents⟩ := exists_contents_blockText hb
  have hempty := Fence.afterLines_append_replicate_nil Fence.genuine_initial
  have hblock' : ({} : Fence).afterLines block = ({} : Fence).afterLines b.lines := by
    rw [← hempty block j, hblock, hempty, Fence.afterLines_withoutReturn Fence.genuine_initial]
  rw [hcontents, hempty, Fence.afterLines_concat_nil Fence.genuine_initial, hfed,
    Fence.afterLines_append, afterLines_ancestorLines rfl (Nat.le_refl 1), hblock']

end Found

/-! ## Sections after one another -/

theorem le_line_of_foundFrom {bs : List Excerpt} {hs : List Heading}
    (hbs : ∀ b ∈ bs, b.node ∈ b.ordered) (h : FoundFrom number bs hs) :
    ∀ g ∈ hs, number ≤ g.line := by
  induction bs generalizing number hs with
  | nil =>
    rw [show hs = [] from h]
    exact fun g hg => absurd hg (by simp)
  | cons b later ih =>
    obtain ⟨found, rest, rfl, hfound, hrest⟩ := h
    intro g hg
    rcases List.mem_append.mp hg with hg | hg
    · exact (line_of_isFoundAt (hbs b List.mem_cons_self) hfound hg).1
    · have := ih (fun x hx => hbs x (List.mem_cons_of_mem b hx)) hrest g hg
      omega

/-- The headings of a section are told from those of later ones by their lines. -/
theorem foundFrom_cons_iff {b : Excerpt} {later : List Excerpt} {hs hs' : List Heading}
    (hbs : ∀ x ∈ b :: later, x.node ∈ x.ordered) (hbefore : ∀ h ∈ hs, h.line < number + b.height + 1)
    (hafter : ∀ h ∈ hs', number + b.height + 1 ≤ h.line) :
    FoundFrom number (b :: later) (hs ++ hs') ↔
      b.IsFoundAt number hs ∧ FoundFrom (number + b.height + 1) later hs' := by
  obtain ⟨hb, hlater⟩ := List.forall_mem_cons.mp hbs
  constructor
  · rintro ⟨found, rest, hsplit, hfound, hrest⟩
    have hfoundLine : ∀ h ∈ found, h.line < number + b.height + 1 := fun h hh => by
      have := (line_of_isFoundAt hb hfound hh).2
      omega
    obtain ⟨rfl, rfl⟩ := Heading.append_inj_of_line hsplit hbefore hafter hfoundLine
      (le_line_of_foundFrom hlater hrest)
    exact ⟨hfound, hrest⟩
  · rintro ⟨hfound, hrest⟩
    exact ⟨_, _, rfl, hfound, hrest⟩

/-- Sections after one another are found in full iff no code region is open before them, all their
headings can be read again, and none but the last leaves a code region open. -/
theorem foundFrom_iff {bs : List Excerpt} (hbs : ∀ b ∈ bs, b.node ∈ b.ordered)
    (hs : fence.Sound) (number : Int) :
    FoundFrom number bs (ofLines fence number (bs.flatMap fun b => Line.fed b.text ++ [[]])) ↔
      (bs ≠ [] → fence.inside = false) ∧ (∀ b ∈ bs, b.IsLegible) ∧
        ∀ b ∈ bs.dropLast, b.IsClosed := by
  induction bs generalizing fence number with
  | nil => simp [FoundFrom, ofLines]
  | cons b later ih =>
    obtain ⟨hb, hbs'⟩ := List.forall_mem_cons.mp hbs
    have hlater := ih hbs' (hs.afterLines (Line.fed b.text ++ [[]])) (number + b.height + 1)
    have hlength : ((Line.fed b.text ++ [[]]).length : Int) = b.height + 1 := by
      rw [List.length_append, Line.length_fed]
      rfl
    rw [List.flatMap_cons, Heading.ofLines_append, hlength, ← Int.add_assoc,
      foundFrom_cons_iff hbs
        (fun h hh => by
          have := (Heading.line_of_mem_ofLines hh).2
          rwa [hlength, ← Int.add_assoc] at this)
        fun h hh => (Heading.line_of_mem_ofLines hh).1,
      isFoundAt_iff hb hs, hlater]
    constructor
    · rintro ⟨⟨hf, hlegible⟩, hopen, hlegibles, hclosed⟩
      refine ⟨fun _ => hf, List.forall_mem_cons.mpr ⟨hlegible, hlegibles⟩, ?_⟩
      obtain rfl := hs hf
      rw [afterLines_text hb] at hopen
      cases later with
      | nil => exact fun x hx => absurd hx (by simp)
      | cons c later => exact List.forall_mem_cons.mpr ⟨hopen (by simp), hclosed⟩
    · rintro ⟨hf, hlegibles, hclosed⟩
      obtain ⟨hlegible, hlegibles⟩ := List.forall_mem_cons.mp hlegibles
      obtain rfl := hs (hf (by simp))
      rw [afterLines_text hb]
      cases later with
      | nil => exact ⟨⟨rfl, hlegible⟩, fun h => absurd rfl h, hlegibles, hclosed⟩
      | cons c later =>
        obtain ⟨hopen, hclosed⟩ := List.forall_mem_cons.mp hclosed
        exact ⟨⟨rfl, hlegible⟩, fun _ => hopen, hlegibles, hclosed⟩

end Excerpt

end TaggedOutline
