import TaggedOutline.Proofs.Edit.Group
import TaggedOutline.Proofs.Index.Queries

/-!
# What is gathered of some blocks

1. A block that is not found any more is the only reason to fail. Otherwise the blocks make one
   section for each selected heading without a selected one above it, and every selected heading lies
   in the block of exactly one of these (`existsUnique_keptIn`).
2. An index has one entry for a line of a document, so it does not matter how often and in which order
   its entries are selected, as long as the documents come in the same order
   (`toOption_gatherBlocks_eq`).
-/

namespace TaggedOutline

open Outline (ofDocument)

/-! ## States of an index -/

namespace Index

/-- The states of an index: at first it is empty, then documents are indexed and removed. -/
inductive IsState : Index → Prop
  | empty : IsState {}
  | add {i : Index} (d : Document) : IsState i → IsState (i.add d)
  | remove {i : Index} (uri : Text) : IsState i → IsState (i.remove uri)

variable {i : Index} {ds : List Document} {b b' : TaggedHeading}

theorem IsState.exists_agrees (h : IsState i) : ∃ ds, Agrees i ds := by
  induction h with
  | empty => exact ⟨[], agrees_empty⟩
  | add d _ ih =>
    obtain ⟨ds, hds⟩ := ih
    exact ⟨_, hds.add d⟩
  | remove uri _ ih =>
    obtain ⟨ds, hds⟩ := ih
    exact ⟨_, hds.remove uri⟩

/-- An index has one entry for a line of a document. -/
theorem IsState.eq_of_line (h : IsState i) (hb : b ∈ i.tagged.values.flatten)
    (hb' : b' ∈ i.tagged.values.flatten) (huri : b.uri = b'.uri) (hline : b.line = b'.line) :
    b = b' := by
  obtain ⟨ds, H⟩ := h.exists_agrees
  obtain ⟨d, hd, g, hg, -, rfl⟩ := H.mem_values_flatten_iff.mp hb
  obtain ⟨d', hd', g', hg', -, rfl⟩ := H.mem_values_flatten_iff.mp hb'
  obtain rfl : d = d' := List.inj_on_of_nodup_map H.uris hd hd' huri
  rw [Heading.eq_of_line_eq (Heading.ofText_pairwise_line d.text) hg hg' hline]

end Index

/-! ## Selected headings -/

section Selection

variable {documents : Table Text Document} {blocks blocks' : List TaggedHeading} {uri : Text}
  {d : Document} {n : Node}

theorem mem_keptIn : n ∈ keptIn blocks uri d ↔ n ∈ selectedIn blocks uri d ∧
    ∀ a ∈ (ofDocument d).ancestorsOf n, a ∉ selectedIn blocks uri d := by
  rw [keptIn, List.mem_filter, decide_eq_true_eq]
  exact ⟨And.right, fun h => ⟨(mem_selectedIn.mp h.1).1, h⟩⟩

theorem pairwise_line_keptIn (blocks : List TaggedHeading) (uri : Text) (d : Document) :
    (keptIn blocks uri d).Pairwise (·.line < ·.line) :=
  (Outline.isOrdered d).lines.filter _

/-- The block of a selected heading lies in exactly one of the blocks that are kept. -/
theorem existsUnique_keptIn (hn : n ∈ selectedIn blocks uri d) :
    ∃! m, m ∈ keptIn blocks uri d ∧
      (blockRange d (ofDocument d).ordered m).contains (blockRange d (ofDocument d).ordered n) := by
  have hselected : ∀ n ∈ selectedIn blocks uri d, n ∈ (ofDocument d).ordered :=
    fun _ hn => (mem_selectedIn.mp hn).1
  obtain ⟨hmem, hapart, hcovered⟩ := outermost_spec (Outline.isOrdered d) hselected
  rw [Outline.outermost_eq_filter hselected] at hmem hapart hcovered
  have hcontains {m : Node} (hm : m ∈ keptIn blocks uri d) :
      (blockRange d (ofDocument d).ordered m).contains (blockRange d (ofDocument d).ordered n) ↔
        InBlock (ofDocument d).ordered m n.line :=
    contains_blockRange_iff (Outline.isOrdered d) (hmem m hm) (hselected n hn)
  obtain ⟨m, hm, hin⟩ := (hcovered n.line).mpr ⟨n, hn, inBlock_line _ n⟩
  exact ⟨m, ⟨hm, (hcontains hm).mpr hin⟩, fun m' h =>
    hapart.unique h.1 hm ((hcontains h.1).mp h.2) hin⟩

theorem ancestorLines_eq_map (markup : Markup) (level : Nat) (labels : List Text) :
    ancestorLines markup level labels = (labels.zipIdx level).map fun e =>
      markerText markup e.2 ++ ' ' :: e.1 := by
  induction labels generalizing level with
  | nil => rfl
  | cons label labels ih => rw [ancestorLines, ih, List.zipIdx_cons, List.map_cons]

/-- The section of a kept heading has a line for each label above it in the breadcrumb of its first
block, and then the text of its block. -/
theorem exists_sectionAt_eq (hn : n ∈ keptIn blocks uri d) :
    ∃ b, blocks.find? (fun b => b.uri = uri ∧ b.line = n.line) = some b ∧
      sectionAt blocks uri d n = Text.joinWith ['\n']
        (((b.breadcrumb.dropLast.zipIdx 1).map fun e => markerText d.markup e.2 ++ ' ' :: e.1) ++
          [Text.dropFinalFeeds (Text.unifyBreaks (blockText d (ofDocument d).ordered n))]) := by
  obtain ⟨-, b, hb, hat⟩ := mem_selectedIn.mp (mem_keptIn.mp hn).1
  have hsome : (blocks.find? fun b => b.uri = uri ∧ b.line = n.line).isSome :=
    List.find?_isSome.mpr ⟨b, hb, decide_eq_true hat⟩
  obtain ⟨first, hfirst⟩ := Option.isSome_iff_exists.mp hsome
  refine ⟨first, hfirst, ?_⟩
  rw [sectionAt, hfirst, sectionOf, ancestorLines_eq_map]
  rfl

/-! ## The same selection -/

/-- The first of some members is found in any list of them if there is only one that will do. -/
theorem find?_eq_of_unique {α : Type} {p : α → Bool} {l l' : List α} (hmem : ∀ a, a ∈ l' ↔ a ∈ l)
    (hunique : ∀ a ∈ l, ∀ b ∈ l, p a → p b → a = b) : l'.find? p = l.find? p := by
  cases hfind : l.find? p with
  | none =>
    exact List.find?_eq_none.mpr fun a ha => List.find?_eq_none.mp hfind a ((hmem a).mp ha)
  | some a =>
    have ha := List.mem_of_find?_eq_some hfind
    obtain ⟨b, hb⟩ := Option.isSome_iff_exists.mp
      (List.find?_isSome.mpr ⟨a, (hmem a).mpr ha, List.find?_some hfind⟩)
    rw [hb, hunique b ((hmem b).mp (List.mem_of_find?_eq_some hb)) a ha (List.find?_some hb)
      (List.find?_some hfind)]

variable (hmem : ∀ b, b ∈ blocks' ↔ b ∈ blocks)

include hmem

theorem selectedIn_congr (uri : Text) (d : Document) :
    selectedIn blocks' uri d = selectedIn blocks uri d := by
  refine List.filter_congr fun n _ => decide_eq_decide.mpr ?_
  simp only [hmem]

/-- If there is one block for a line of a document, what is gathered depends on the selected blocks
and the order of their documents only. -/
theorem gatheredText_congr (documents : Table Text Document)
    (hunique : ∀ b ∈ blocks, ∀ b' ∈ blocks, b.uri = b'.uri → b.line = b'.line → b = b')
    (huris : Text.distinct (blocks'.map TaggedHeading.uri) =
      Text.distinct (blocks.map TaggedHeading.uri)) (title : Option Text) :
    gatheredText documents blocks' title = gatheredText documents blocks title := by
  have hsection (uri : Text) (d : Document) :
      sectionAt blocks' uri d = sectionAt blocks uri d := by
    funext n
    have hfind := find?_eq_of_unique (p := fun b => b.uri = uri ∧ b.line = n.line) hmem (by
      intro b hb b' hb' h h'
      obtain ⟨huri, hline⟩ := of_decide_eq_true h
      obtain ⟨huri', hline'⟩ := of_decide_eq_true h'
      exact hunique b hb b' hb' (huri.trans huri'.symm) (hline.trans hline'.symm))
    simp only [sectionAt, hfind]
  have hkept (uri : Text) (d : Document) : keptIn blocks' uri d = keptIn blocks uri d := by
    rw [keptIn, keptIn, selectedIn_congr hmem]
  have hfiles : filesOf documents blocks' = filesOf documents blocks := by
    rw [filesOf, filesOf, huris]
  simp only [gatheredText, hfiles, hkept, hsection]

/-- Entries of an index are gathered alike in any order, however often each is selected, if their
documents come in the same order. -/
theorem toOption_gatherBlocks_eq {i : Index} (hi : i.IsState)
    (hblocks : ∀ b ∈ blocks, b ∈ i.tagged.values.flatten) (documents : Table Text Document)
    (huris : Text.distinct (blocks'.map TaggedHeading.uri) =
      Text.distinct (blocks.map TaggedHeading.uri)) (title : Option Text) :
    (gatherBlocks documents blocks' title).toOption =
      (gatherBlocks documents blocks title).toOption := by
  rcases gatherBlocks_cases documents blocks' title with ⟨hfound', hok'⟩ | ⟨b', hb', hnot', hfails'⟩
  · rcases gatherBlocks_cases documents blocks title with ⟨-, hok⟩ | ⟨b, hb, hnot, -⟩
    · rw [hok', hok, gatheredText_congr hmem documents
        (fun b hb b' hb' => hi.eq_of_line (hblocks b hb) (hblocks b' hb')) huris title]
    · exact absurd (hfound' b ((hmem b).mpr hb)) hnot
  · rcases gatherBlocks_cases documents blocks title with ⟨hfound, -⟩ | ⟨b, -, -, hfails⟩
    · exact absurd (hfound b' ((hmem b').mp hb')) hnot'
    · rw [hfails', hfails]
      rfl

end Selection

/-! ## All that is gathered -/

section Gather

variable {documents : Table Text Document} {blocks : List TaggedHeading}

theorem get?_of_mem_filesOf : ∀ f ∈ filesOf documents blocks, documents.get? f.1 = some f.2 := by
  intro f hf
  obtain ⟨uri, -, hmap⟩ := List.mem_filterMap.mp hf
  obtain ⟨d, hd, rfl⟩ := Option.map_eq_some_iff.mp hmap
  exact hd

theorem map_fst_filesOf (h : ∀ b ∈ blocks, b.IsFound documents) :
    (filesOf documents blocks).map Prod.fst = Text.distinct (blocks.map TaggedHeading.uri) := by
  have hsame : ∀ uri ∈ Text.distinct (blocks.map TaggedHeading.uri),
      ((documents.get? uri).map (Prod.mk uri)).map Prod.fst = some uri := by
    intro uri huri
    obtain ⟨b, hb, rfl⟩ := List.mem_map.mp (Text.mem_distinct.mp huri)
    obtain ⟨d, hd, -⟩ := h b hb
    rw [hd]
    rfl
  rw [filesOf, List.map_filterMap, List.filterMap_congr hsame, List.filterMap_some]

theorem gatherBlocks_eq_ok (h : ∀ b ∈ blocks, b.IsFound documents) (title : Option Text) :
    gatherBlocks documents blocks title = .ok (gatheredText documents blocks title) := by
  rcases gatherBlocks_cases documents blocks title with ⟨-, hok⟩ | ⟨b, hb, hnot, -⟩
  · exact hok
  · exact absurd (h b hb) hnot

theorem missing_of_gatherBlocks {title : Option Text} {e : EditError}
    (h : gatherBlocks documents blocks title = .error e) :
    ∃ b ∈ blocks, ¬ b.IsFound documents ∧ e = b.missing documents := by
  rcases gatherBlocks_cases documents blocks title with ⟨-, hok⟩ | ⟨b, hb, hnot, hfails⟩
  · cases h.symm.trans hok
  · exact ⟨b, hb, hnot, Except.error.inj (h.symm.trans hfails)⟩

theorem gatherBlocks_eq_error_iff {title : Option Text} :
    (∃ e, gatherBlocks documents blocks title = .error e) ↔
      ∃ b ∈ blocks, ¬ b.IsFound documents := by
  constructor
  · rintro ⟨e, he⟩
    obtain ⟨b, hb, hnot, -⟩ := missing_of_gatherBlocks he
    exact ⟨b, hb, hnot⟩
  · rintro ⟨b, hb, hnot⟩
    rcases gatherBlocks_cases documents blocks title with ⟨hfound, -⟩ | ⟨b', -, -, hfails⟩
    · exact absurd (hfound b hb) hnot
    · exact ⟨_, hfails⟩

/-- Gathering fails iff a block is not found, with the error for one such block. Otherwise the new
document is the preface and then, document by document in the order in which they first appear, the
sections of the selected headings without a selected one above them, in line order: the labels above
the heading and the text of its block. The block of each selected heading lies in exactly one of
these. Entries of an index may be selected again and in another order, as long as the order of
their documents is the same. -/
theorem gatherBlocks_sections (documents : Table Text Document) (blocks : List TaggedHeading)
    (title : Option Text) :
    ((∃ e, gatherBlocks documents blocks title = .error e) ↔
      ∃ b ∈ blocks, ¬ b.IsFound documents) ∧
    (∀ e, gatherBlocks documents blocks title = .error e →
      ∃ b ∈ blocks, ¬ b.IsFound documents ∧ e = b.missing documents) ∧
    ((∀ b ∈ blocks, b.IsFound documents) →
      let files := filesOf documents blocks
      files.map Prod.fst = Text.distinct (blocks.map TaggedHeading.uri) ∧
      (∀ f ∈ files, documents.get? f.1 = some f.2) ∧
      gatherBlocks documents blocks title = .ok (Text.joinWith ['\n', '\n']
        (preface (files.map Prod.snd) title ++
          files.flatMap fun f => (keptIn blocks f.1 f.2).map (sectionAt blocks f.1 f.2)) ++
        ['\n'])) ∧
    (∀ uri d,
      (keptIn blocks uri d).Pairwise (·.line < ·.line) ∧
      (∀ n, n ∈ keptIn blocks uri d ↔ n ∈ selectedIn blocks uri d ∧
        ∀ a ∈ (ofDocument d).ancestorsOf n, a ∉ selectedIn blocks uri d) ∧
      (∀ n ∈ keptIn blocks uri d,
        ∃ b, blocks.find? (fun b => b.uri = uri ∧ b.line = n.line) = some b ∧
          sectionAt blocks uri d n = Text.joinWith ['\n']
            (((b.breadcrumb.dropLast.zipIdx 1).map fun e =>
                markerText d.markup e.2 ++ ' ' :: e.1) ++
              [Text.dropFinalFeeds (Text.unifyBreaks (blockText d (ofDocument d).ordered n))])) ∧
      ∀ n ∈ selectedIn blocks uri d, ∃! m, m ∈ keptIn blocks uri d ∧
        (blockRange d (ofDocument d).ordered m).contains
          (blockRange d (ofDocument d).ordered n)) ∧
    ∀ i : Index, i.IsState → (∀ b ∈ blocks, b ∈ i.tagged.values.flatten) →
      ∀ blocks' : List TaggedHeading, (∀ b, b ∈ blocks' ↔ b ∈ blocks) →
        Text.distinct (blocks'.map TaggedHeading.uri) =
          Text.distinct (blocks.map TaggedHeading.uri) →
        (gatherBlocks documents blocks' title).toOption =
          (gatherBlocks documents blocks title).toOption := by
  exact ⟨gatherBlocks_eq_error_iff, fun e he => missing_of_gatherBlocks he,
    fun hfound => ⟨map_fst_filesOf hfound, get?_of_mem_filesOf, gatherBlocks_eq_ok hfound title⟩,
    fun uri d => ⟨pairwise_line_keptIn blocks uri d, fun n => mem_keptIn,
      fun n hn => exists_sectionAt_eq hn, fun n hn => existsUnique_keptIn hn⟩,
    fun i hi hblocks blocks' hmem huris =>
      toOption_gatherBlocks_eq hmem hi hblocks documents huris title⟩

/-- The blocks under two tags: one is selected twice, and one lies in another. -/
theorem gatherBlocks_sections_twice :
    let notes : Document := ⟨"n".toList,
      "# A\n## B <!-- #y -->\n### C <!-- #x #y -->\r\n\n# D <!-- #x -->\n".toList, .markdown⟩
    let draft : Document := ⟨"d".toList, "= E // #y".toList, .typst⟩
    let documents := [(draft.uri, draft), (notes.uri, notes)]
    let i := (({} : Index).add draft).add notes
    let blocks := i.under "x".toList ++ i.under "y".toList
    let blocks' := i.under "x".toList ++ (i.under "y".toList).reverse
    let text := "# T\n\n# A\n## B <!-- #y -->\n### C <!-- #x #y -->\n\n# D <!-- #x -->\n\n= E // #y\n".toList
    blocks.map (·.heading.text) = [['C'], ['D'], ['E'], ['B'], ['C']] ∧
      gatherBlocks documents blocks (some ['T']) = .ok text ∧
      (gatherBlocks documents blocks' (some ['T'])).toOption = some text ∧
      ∃ e, gatherBlocks [(notes.uri, notes)] blocks none = .error e := by
  intro notes draft documents i blocks blocks' text
  have hfound : ∀ b ∈ blocks, b.IsFound documents := by
    have hall : ∀ b ∈ blocks, ∃ f ∈ documents, Table.get? documents b.uri = some f.2 ∧
        ∃ h ∈ Heading.ofDocument f.2, h.line = b.line := by
      decide +kernel
    intro b hb
    obtain ⟨f, -, hf⟩ := hall b hb
    exact ⟨f.2, hf⟩
  have hi : i.IsState := .add notes (.add draft .empty)
  have htaken : ∀ b ∈ blocks, b ∈ i.tagged.values.flatten := by decide +kernel
  have hmem (b : TaggedHeading) : b ∈ blocks' ↔ b ∈ blocks := by
    simp only [blocks', blocks, List.mem_append, List.mem_reverse]
  obtain ⟨-, -, hok, -, hsame⟩ := gatherBlocks_sections documents blocks (some ['T'])
  have htext : gatherBlocks documents blocks (some ['T']) = .ok text :=
    (hok hfound).2.2.trans (by decide +kernel)
  obtain ⟨hfails, -⟩ := gatherBlocks_sections [(notes.uri, notes)] blocks none
  refine ⟨by decide +kernel, htext, ?_, hfails.mpr ?_⟩
  · rw [hsame i hi htaken blocks' hmem (by decide +kernel), htext]
    rfl
  · obtain ⟨b, hb, huri⟩ : ∃ b ∈ blocks, Table.get? [(notes.uri, notes)] b.uri = none := by
      decide +kernel
    refine ⟨b, hb, ?_⟩
    rintro ⟨d, hd, -⟩
    cases huri.symm.trans hd

end Gather

end TaggedOutline
