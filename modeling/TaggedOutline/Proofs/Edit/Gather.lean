import Mathlib.Algebra.GroupWithZero.Nat
import TaggedOutline.Proofs.Edit.Group
import TaggedOutline.Proofs.Edit.Section
import TaggedOutline.Proofs.Index.Queries

/-!
# Gathered documents

1. The headings with a tag are found in their documents, so the new document is a preface and the
   sections of the gathered blocks (`gatherBlocks_under`).
2. Header lines and headings open no code regions, so the sections are scanned as if nothing but the
   later lines of the title stood before them (`afterLines_preface`).
3. So all headings of the gathered blocks are found again iff they can be read, and neither the title
   nor a block other than the last leaves a code region open (`foundFrom_gatherBlocks`).
-/

namespace TaggedOutline

open Index (Agrees carrying occurrences entry)
open Outline (ofDocument)

/-! ## Blocks under a tag -/

/-- The documents in which a heading carries a tag. -/
def tagging (ds : List Document) (tag : Text) : List Document :=
  ds.filter fun d => carrying d tag ≠ []

/-- The blocks of a document that are gathered under a tag: those of its headings with the tag that
do not lie under another one. -/
def excerptsOf (d : Document) (tag : Text) : List Excerpt :=
  ((ofDocument d).ordered.filter fun n => (ofDocument d).IsOutermost (carriers d tag) n).map
    (Excerpt.mk d)

/-- The blocks of some documents that are gathered under a tag. -/
def gathered (ds : List Document) (tag : Text) : List Excerpt := ds.flatMap (excerptsOf · tag)

section Excerpts

variable {d : Document} {ds : List Document} {tag : Text} {n : Node} {b : Excerpt}

/-- The headings that carry a tag are found by their lines. -/
theorem mem_carriers_iff_line : n ∈ carriers d tag ↔ n ∈ (ofDocument d).ordered ∧
    ∃ h ∈ Heading.ofDocument d, tag ∈ h.tags ∧ h.line = n.line := by
  rw [mem_carriers]
  constructor
  · rintro ⟨h, hzip, htag⟩
    exact ⟨(List.of_mem_zip hzip).2, h, (List.of_mem_zip hzip).1, htag,
      (Outline.line_of_mem_zip hzip).2.symm⟩
  · rintro ⟨hn, h, hh, htag, hline⟩
    have hmem : h ∈ ((Heading.ofDocument d).zip (ofDocument d).ordered).map Prod.fst := by
      rwa [Outline.map_fst_zip_ordered]
    obtain ⟨⟨h', m⟩, hzip, rfl⟩ := List.mem_map.mp hmem
    obtain ⟨hm, hmline⟩ := Outline.line_of_mem_zip hzip
    rw [← Heading.eq_of_line_eq (Outline.isOrdered d).lines hm hn (hmline.trans hline)]
    exact ⟨h', hzip, htag⟩

theorem carriers_eq_nil (h : carrying d tag = []) : carriers d tag = [] := by
  refine List.eq_nil_iff_forall_not_mem.mpr fun n hn => ?_
  obtain ⟨-, g, hg, htag, -⟩ := mem_carriers_iff_line.mp hn
  have : entry d g ∈ carrying d tag := Index.mem_carrying.mpr ⟨g, hg, htag, rfl⟩
  rw [h] at this
  exact absurd this (by simp)

theorem mem_ordered_of_mem_excerptsOf (h : b ∈ excerptsOf d tag) :
    b.document = d ∧ b.node ∈ b.ordered := by
  obtain ⟨n, hn, rfl⟩ := List.mem_map.mp h
  exact ⟨rfl, (List.mem_filter.mp hn).1⟩

theorem mem_ordered_of_mem_gathered (h : b ∈ gathered ds tag) : b.node ∈ b.ordered := by
  obtain ⟨d, -, hb⟩ := List.mem_flatMap.mp h
  exact (mem_ordered_of_mem_excerptsOf hb).2

/-- A heading that carries a tag lies in a gathered block. -/
theorem exists_mem_gathered {h : Heading} (hd : d ∈ ds) (hh : h ∈ Heading.ofDocument d)
    (htag : tag ∈ h.tags) : ∃ b ∈ gathered ds tag, b.document = d ∧ h ∈ b.headings := by
  obtain ⟨n, hn, hline⟩ := exists_mem_ordered_iff.mpr ⟨h, hh, rfl⟩
  have hcarries : n ∈ carriers d tag := mem_carriers_iff_line.mpr ⟨hn, h, hh, htag, hline.symm⟩
  have hselected : ∀ n ∈ carriers d tag, n ∈ (ofDocument d).ordered :=
    fun _ hn => (mem_carriers_iff_line.mp hn).1
  obtain ⟨hmem, -, hcovered⟩ := outermost_spec (Outline.isOrdered d) hselected
  obtain ⟨m, hm, hin⟩ := (hcovered n.line).mpr ⟨n, hcarries, inBlock_line _ n⟩
  rw [Outline.outermost_eq_filter hselected] at hm
  refine ⟨⟨d, m⟩, List.mem_flatMap.mpr ⟨d, hd, List.mem_map_of_mem hm⟩, rfl, ?_⟩
  rw [hline] at hin
  exact List.mem_filter.mpr ⟨hh, decide_eq_true hin⟩

/-- The entries of a document are among those of all documents. -/
theorem exists_entry_of_uri (huris : (ds.map Document.uri).Nodup) (hd : d ∈ ds) {e : TaggedHeading}
    (he : e ∈ occurrences ds tag) (huri : e.uri = d.uri) :
    ∃ h ∈ Heading.ofDocument d, tag ∈ h.tags ∧ e = entry d h := by
  obtain ⟨d', hd', h, hh, htag, rfl⟩ := Index.mem_occurrences.mp he
  obtain rfl : d' = d := List.inj_on_of_nodup_map huris hd' hd huri
  exact ⟨h, hh, htag, rfl⟩

theorem distinct_map_uri_occurrences (huris : (ds.map Document.uri).Nodup) (tag : Text) :
    Text.distinct ((occurrences ds tag).map TaggedHeading.uri) =
      (tagging ds tag).map Document.uri := by
  induction ds with
  | nil => rfl
  | cons d ds ih =>
    obtain ⟨hfirst, hrest⟩ := List.nodup_cons.mp huris
    rw [occurrences, List.flatMap_cons, tagging, List.map_append]
    by_cases hne : carrying d tag = []
    · rw [hne, List.filter_cons_of_neg (by simpa using hne)]
      exact ih hrest
    · have hsame : ∀ uri ∈ (carrying d tag).map TaggedHeading.uri, uri = d.uri := by
        intro uri huri
        obtain ⟨e, he, rfl⟩ := List.mem_map.mp huri
        exact Index.uri_of_mem_carrying he
      have hnew : d.uri ∉ (occurrences ds tag).map TaggedHeading.uri := by
        intro hmem
        obtain ⟨e, he, huri⟩ := List.mem_map.mp hmem
        obtain ⟨d', hd', h, -, -, rfl⟩ := Index.mem_occurrences.mp he
        exact hfirst (huri ▸ List.mem_map_of_mem (f := Document.uri) hd')
      rw [List.filter_cons_of_pos (by simpa using hne), List.map_cons]
      exact (Text.distinct_append_of_forall hsame (by simpa using hne) hnew).trans
        (congrArg _ (ih hrest))

theorem filesOf_occurrences {documents : Table Text Document}
    (huris : (ds.map Document.uri).Nodup)
    (hdocuments : ∀ d ∈ ds, documents.get? d.uri = some d) (tag : Text) :
    filesOf documents (occurrences ds tag) = (tagging ds tag).map fun d => (d.uri, d) := by
  rw [filesOf, distinct_map_uri_occurrences huris, List.filterMap_map, ← List.filterMap_eq_map]
  refine List.filterMap_congr fun d hd => ?_
  rw [Function.comp_apply, Function.comp_apply, hdocuments d (List.mem_filter.mp hd).1]
  rfl

/-- The blocks under a tag in a document make the sections of its gathered blocks. -/
theorem sections_occurrences (huris : (ds.map Document.uri).Nodup) (hd : d ∈ ds) (tag : Text) :
    (keptIn (occurrences ds tag) d.uri d).map (sectionAt (occurrences ds tag) d.uri d) =
      (excerptsOf d tag).map Excerpt.text := by
  have hselected (n : Node) : n ∈ selectedIn (occurrences ds tag) d.uri d ↔ n ∈ carriers d tag := by
    rw [mem_selectedIn, mem_carriers_iff_line]
    refine and_congr_right fun _ => ⟨?_, ?_⟩
    · rintro ⟨e, he, huri, hline⟩
      obtain ⟨h, hh, htag, rfl⟩ := exists_entry_of_uri huris hd he huri
      exact ⟨h, hh, htag, hline⟩
    · rintro ⟨h, hh, htag, hline⟩
      exact ⟨entry d h, Index.mem_occurrences.mpr ⟨d, hd, h, hh, htag, rfl⟩, rfl, hline⟩
  have hkept : keptIn (occurrences ds tag) d.uri d =
      (ofDocument d).ordered.filter fun n => (ofDocument d).IsOutermost (carriers d tag) n := by
    refine List.filter_congr fun n _ => decide_eq_decide.mpr ?_
    simp only [Outline.IsOutermost, hselected]
  rw [excerptsOf, List.map_map, hkept]
  refine List.map_congr_left fun n hn => ?_
  obtain ⟨-, h, hh, htag, hline⟩ :=
    mem_carriers_iff_line.mp (of_decide_eq_true (List.mem_filter.mp hn).2).1
  have hentry : entry d h ∈ occurrences ds tag :=
    Index.mem_occurrences.mpr ⟨d, hd, h, hh, htag, rfl⟩
  rw [sectionAt]
  cases hfind : (occurrences ds tag).find? fun b => b.uri = d.uri ∧ b.line = n.line with
  | none => exact absurd (decide_eq_true ⟨rfl, hline⟩) (List.find?_eq_none.mp hfind _ hentry)
  | some e =>
    obtain ⟨huri, hat⟩ : e.uri = d.uri ∧ e.line = n.line := by simpa using List.find?_some hfind
    obtain ⟨h', -, -, rfl⟩ := exists_entry_of_uri huris hd (List.mem_of_find?_eq_some hfind) huri
    show sectionOf d _ (((breadcrumbs (Heading.ofDocument d)).get? h'.line).getD []) n = _
    rw [show h'.line = n.line from hat]
    rfl

/-- Documents without the tag contribute no blocks. -/
theorem gathered_tagging (ds : List Document) (tag : Text) :
    gathered (tagging ds tag) tag = gathered ds tag := by
  unfold gathered tagging
  induction ds with
  | nil => rfl
  | cons d ds ih =>
    by_cases hne : carrying d tag = []
    · have hnone : excerptsOf d tag = [] := by
        rw [excerptsOf, carriers_eq_nil hne, List.map_eq_nil_iff, List.filter_eq_nil_iff]
        exact fun n _ h => absurd (of_decide_eq_true h).1 (by simp)
      rw [List.filter_cons_of_neg (by simpa using hne), ih, List.flatMap_cons, hnone,
        List.nil_append]
    · rw [List.filter_cons_of_pos (by simpa using hne), List.flatMap_cons, List.flatMap_cons, ih]

end Excerpts

/-! ## The preface -/

/-- The number of lines before the sections. -/
def prefaceHeight (ds : List Document) (title : Option Text) : Int :=
  (((preface ds title).map fun t => (Line.contents t).length + 1).sum : Nat)

/-- The later lines of a title leave no code region open; a title on one line has none. -/
def IsClosedTitle (title : Option Text) : Prop :=
  (({} : Fence).afterLines (Line.contents (Text.trim (title.getD []))).tail).inside = false

instance (title : Option Text) : Decidable (IsClosedTitle title) :=
  inferInstanceAs (Decidable (_ = _))

section Preface

variable {line : Text}

theorem mem_headersOf {ls : List Text} (h : line ∈ headersOf ls) :
    line ∈ ls ∧ ∃ r, Text.trim line = '#' :: r := by
  induction ls with
  | nil => exact absurd h (by simp [headersOf])
  | cons l ls ih =>
    rw [headersOf] at h
    split at h
    · next hstart =>
      rcases List.mem_cons.mp h with rfl | h
      · refine ⟨List.mem_cons_self, ?_⟩
        obtain ⟨start, hmem, hstart⟩ := List.any_eq_true.mp hstart
        obtain ⟨r, hr⟩ := Option.isSome_iff_exists.mp hstart
        obtain ⟨s, hs⟩ : ∃ s, start = '#' :: s := by
          have hall : ∀ start ∈ headerStarts, ∃ s, start = '#' :: s := by
            simp [headerStarts]
          exact hall start hmem
        exact ⟨s ++ r, by rw [Text.after?_eq_some_iff.mp hr, hs]; rfl⟩
      · exact ⟨List.mem_cons_of_mem l (ih h).1, (ih h).2⟩
    · split at h
      · exact absurd h (by simp)
      · exact ⟨List.mem_cons_of_mem l (ih h).1, (ih h).2⟩

theorem mem_fileHeaders {d : Document} (h : line ∈ fileHeaders d) :
    '\n' ∉ line ∧ Fence.opening? line = none := by
  unfold fileHeaders at h
  split at h
  · obtain ⟨hmem, htrim⟩ := mem_headersOf h
    exact ⟨Line.lineFeed_not_mem_of_mem_contents hmem, Fence.opening?_of_trim htrim⟩
  · exact absurd h (by simp)

/-- Only the later lines of the title have an effect on the fences after the preface. -/
theorem afterLines_preface (ds : List Document) (title : Option Text) :
    ({} : Fence).afterLines ((preface ds title).flatMap fun t => Line.fed t ++ [[]]) =
      ({} : Fence).afterLines (Line.contents (Text.trim (title.getD []))).tail := by
  have hheaders (headers : List Text)
      (h : ∀ line ∈ headers, '\n' ∉ line ∧ Fence.opening? line = none) :
      ({} : Fence).afterLines ((if headers = [] then [] else [Text.joinWith ['\n'] headers]).flatMap
        fun t => Line.fed t ++ [[]]) = {} := by
    split
    · rfl
    · next hne =>
      rw [List.flatMap_singleton, Fence.afterLines_concat_nil Fence.genuine_initial,
        Line.fed_joinWith_lines hne fun line hline => (h line hline).1,
        Fence.afterLines_withoutReturn Fence.genuine_initial]
      exact Heading.afterLines_of_opening? rfl fun line hline => (h line hline).2
  have htitle (markup : Markup) (titleText : Text) :
      ({} : Fence).afterLines
          ((if titleText = [] then [] else [markerText markup 1 ++ ' ' :: titleText]).flatMap
            fun t => Line.fed t ++ [[]]) =
        ({} : Fence).afterLines (Line.contents titleText).tail := by
    split
    · next hnil => rw [hnil]; rfl
    · have hplain : '\n' ∉ markerText markup 1 ++ [' '] ∧ '\r' ∉ markerText markup 1 ++ [' '] := by
        cases markup <;> decide
      have hcontents := Line.contents_append_of_plain hplain.1 hplain.2 titleText
      rw [List.append_assoc, List.singleton_append] at hcontents
      rw [List.flatMap_singleton, Fence.afterLines_concat_nil Fence.genuine_initial,
        Fence.afterLines_fed Fence.genuine_initial, hcontents]
      cases hlines : Line.contents titleText with
      | nil => rfl
      | cons first later =>
        -- The first line is a heading, or nearly one, and opens no code region.
        have hstep : ({} : Fence).step (markerText markup 1 ++ ' ' :: first) = (false, {}) :=
          Heading.step_of_opening? rfl (opening?_markerText markup (Nat.le_refl 1) first)
        rw [← List.singleton_append, ← List.append_assoc] at hstep
        show (({} : Fence).step (markerText markup 1 ++ [' '] ++ first)).2.afterLines later = _
        rw [hstep]
        rfl
  unfold preface
  rw [List.flatMap_append, Fence.afterLines_append, hheaders]
  · exact htitle _ _
  · intro line hline
    obtain ⟨d, -, hd⟩ := List.mem_flatMap.mp (Text.mem_distinct.mp hline)
    exact mem_fileHeaders hd

end Preface

/-! ## The new document -/

section Gather

variable {i : Index} {ds : List Document} {documents : Table Text Document} {tag : Text}

/-- The new document is the preface and the sections. -/
theorem gatherBlocks_under (H : Agrees i ds)
    (hdocuments : ∀ d ∈ ds, documents.get? d.uri = some d) (tag : Text) (title : Option Text) :
    gatherBlocks documents (i.under tag) title =
      .ok (Text.joinWith ['\n', '\n']
        (preface (tagging ds tag) title ++ (gathered ds tag).map Excerpt.text) ++ ['\n']) := by
  have hfound : ∀ b ∈ occurrences ds tag, b.IsFound documents := by
    intro b hb
    obtain ⟨d, hd, h, hh, -, rfl⟩ := Index.mem_occurrences.mp hb
    exact ⟨d, hdocuments d hd, h, hh, rfl⟩
  have hsections : ((tagging ds tag).map fun d => (d.uri, d)).flatMap (fun f =>
      (keptIn (occurrences ds tag) f.1 f.2).map (sectionAt (occurrences ds tag) f.1 f.2)) =
        (gathered ds tag).map Excerpt.text := by
    rw [← gathered_tagging, gathered, List.map_flatMap, List.flatMap_map]
    exact List.flatMap_congr fun d hd => sections_occurrences H.uris (List.mem_filter.mp hd).1 tag
  rw [H.under_eq]
  rcases gatherBlocks_cases documents (occurrences ds tag) title with ⟨-, hok⟩ | ⟨b, hb, hnot, -⟩
  · rw [hok, gatheredText, filesOf_occurrences H.uris hdocuments, hsections, List.map_map]
    simp only [Function.comp_def, List.map_id']
  · exact absurd (hfound b hb) hnot

/-- The headings of the gathered blocks are found in the new document, section after section and each
after as many headings as are above its block, iff they can be read again, and neither the title nor
a block before another one leaves a code region open. A code region that is left open hides the
headings of the next section. -/
theorem foundFrom_gatherBlocks (H : Agrees i ds)
    (hdocuments : ∀ d ∈ ds, documents.get? d.uri = some d) (hused : tag ∈ i.tags)
    (title : Option Text) :
    ∃ text, gatherBlocks documents (i.under tag) title = .ok text ∧
      (∀ d ∈ ds, ∀ h ∈ Heading.ofDocument d, tag ∈ h.tags →
        ∃ b ∈ gathered ds tag, b.document = d ∧ h ∈ b.headings) ∧
      (Excerpt.FoundFrom (prefaceHeight (tagging ds tag) title) (gathered ds tag)
          ((Heading.ofText text).filter fun h => prefaceHeight (tagging ds tag) title ≤ h.line) ↔
        IsClosedTitle title ∧ (∀ b ∈ gathered ds tag, b.IsLegible) ∧
          ∀ b ∈ (gathered ds tag).dropLast, b.IsClosed) := by
  refine ⟨_, gatherBlocks_under H hdocuments tag title,
    fun d hd h hh htag => exists_mem_gathered hd hh htag, ?_⟩
  have hne : gathered ds tag ≠ [] := by
    obtain ⟨d, hd, h, hh, htag⟩ := H.mem_tags_iff.mp hused
    obtain ⟨b, hb, -⟩ := exists_mem_gathered hd hh htag
    exact List.ne_nil_of_mem hb
  have hpieces : preface (tagging ds tag) title ++ (gathered ds tag).map Excerpt.text ≠ [] :=
    List.append_ne_nil_of_right_ne_nil _ (by simpa using hne)
  let front := (preface (tagging ds tag) title).flatMap fun t => Line.fed t ++ [[]]
  let later := (gathered ds tag).flatMap fun b => Line.fed b.text ++ [[]]
  have hcontents : Line.contents (Text.joinWith ['\n', '\n']
      (preface (tagging ds tag) title ++ (gathered ds tag).map Excerpt.text) ++ ['\n']) =
        front ++ later := by
    rw [Line.contents_joinWith hpieces, List.flatMap_append, List.flatMap_map]
  have hheight : (front.length : Int) = prefaceHeight (tagging ds tag) title := by
    rw [prefaceHeight, List.length_flatMap]
    simp only [List.length_append, Line.length_fed, List.length_singleton]
  -- The headings of the preface stand on its lines.
  have hheadings : ((Heading.ofText (Text.joinWith ['\n', '\n']
      (preface (tagging ds tag) title ++ (gathered ds tag).map Excerpt.text) ++ ['\n'])).filter
        fun h => prefaceHeight (tagging ds tag) title ≤ h.line) =
      Heading.ofLines (({} : Fence).afterLines front) (prefaceHeight (tagging ds tag) title)
        later := by
    rw [Heading.ofText, hcontents, Heading.ofLines_append, Int.zero_add, hheight,
      List.filter_append, List.filter_eq_nil_iff.mpr, List.filter_eq_self.mpr, List.nil_append]
    · intro h hh
      exact decide_eq_true (Heading.line_of_mem_ofLines hh).1
    · intro h hh
      have := Heading.line_of_mem_ofLines hh
      rw [decide_eq_true_eq]
      omega
  have hsound : (({} : Fence).afterLines front).Sound := Fence.Sound.afterLines (fun _ => rfl) front
  rw [hheadings, Excerpt.foundFrom_iff (fun b hb => mem_ordered_of_mem_gathered hb) hsound,
    afterLines_preface]
  exact and_congr_left fun _ => ⟨fun h => h hne, fun h _ => h⟩

/-- A code region that is closed, mixed breaks, a nested block, and a code region that is left open
at the very end. -/
theorem foundFrom_gatherBlocks_notes :
    let notes : Document := ⟨"notes".toList,
      "# A\n## B <!-- #x :: r :: -->\r\n~~~\n# no\n~~~\n### C <!-- #x -->\r\n\n# D <!-- #x -->".toList,
      .markdown⟩
    let draft : Document := ⟨"draft".toList, "#set page()\n= E\n=== F // #x\n```\n= no".toList, .typst⟩
    let documents := [(notes.uri, notes), (draft.uri, draft)]
    let i := (({} : Index).add notes).add draft
    let ds := [notes, draft]
    let tag := "x".toList
    let title := some "T".toList
    Agrees i ds ∧ (∀ d ∈ ds, Table.get? documents d.uri = some d) ∧ tag ∈ i.tags ∧
      (gathered ds tag).length = 3 ∧
      ∃ text, gatherBlocks documents (i.under tag) title = .ok text ∧
        Excerpt.FoundFrom (prefaceHeight (tagging ds tag) title) (gathered ds tag)
          ((Heading.ofText text).filter fun h => prefaceHeight (tagging ds tag) title ≤ h.line) := by
  intro notes draft documents i ds tag title
  have hagrees : Agrees i ds := (Index.agrees_empty.add notes).add draft
  have hdocuments : ∀ d ∈ ds, Table.get? documents d.uri = some d := by decide +kernel
  have hused : tag ∈ i.tags := by decide +kernel
  have hcount : (gathered ds tag).length = 3 := by decide +kernel
  have hreadable : IsClosedTitle title ∧ (∀ b ∈ gathered ds tag, b.IsLegible) ∧
      ∀ b ∈ (gathered ds tag).dropLast, b.IsClosed := by
    decide +kernel
  obtain ⟨text, htext, -, hfound⟩ := foundFrom_gatherBlocks hagrees hdocuments hused title
  exact ⟨hagrees, hdocuments, hused, hcount, text, htext, hfound.mpr hreadable⟩

/-- The block of the first document leaves a code region open, and the heading of the second is not
found. -/
theorem foundFrom_gatherBlocks_open :
    let first : Document := ⟨"a".toList, "# A <!-- #x -->\n```\ncode\n".toList, .markdown⟩
    let second : Document := ⟨"b".toList, "# B <!-- #x -->\n".toList, .markdown⟩
    let documents := [(first.uri, first), (second.uri, second)]
    let i := (({} : Index).add first).add second
    let tag := "x".toList
    Agrees i [first, second] ∧ (∀ d ∈ [first, second], Table.get? documents d.uri = some d) ∧
      (i.under tag).map (fun e => e.heading.text) = ["A".toList, "B".toList] ∧
      ∃ text, gatherBlocks documents (i.under tag) none = .ok text ∧
        (Heading.ofText text).map Heading.text = ["A".toList] := by
  intro first second documents i tag
  have hagrees : Agrees i [first, second] := (Index.agrees_empty.add first).add second
  refine ⟨hagrees, by decide +kernel, by decide +kernel,
    "# A <!-- #x -->\n```\ncode\n\n# B <!-- #x -->\n".toList, by decide +kernel, by decide +kernel⟩

end Gather

end TaggedOutline
