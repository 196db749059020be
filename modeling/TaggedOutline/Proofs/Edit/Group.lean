import TaggedOutline.Edit.Extract
import TaggedOutline.Proofs.Except
import TaggedOutline.Proofs.Outline.Outermost
import TaggedOutline.Proofs.Table
import TaggedOutline.Proofs.Text.Names

/-!
# Gathering some blocks

1. The blocks are grouped by document, in the order in which the documents first appear, and of
   those on one line the first counts (`groupByDocument_eq`, `get?_byLine`).
2. A group fails at a block that is not found any more, and else it makes the sections of its
   outermost blocks in line order (`contribution_cases`).
3. So all blocks are gathered or one of them is not found (`gatherBlocks_cases`).
-/

namespace TaggedOutline

open Outline (ofDocument)

/-! ## Groups -/

/-- One more block in a group. -/
def intoLines (group : Table Int TaggedHeading) (b : TaggedHeading) : Table Int TaggedHeading :=
  if group.has b.line then group else group ++ [(b.line, b)]

/-- One more block in its group. -/
def intoGroup (groups : Table Text (Table Int TaggedHeading)) (b : TaggedHeading) :
    Table Text (Table Int TaggedHeading) :=
  groups.put b.uri (intoLines ((groups.get? b.uri).getD []) b)

/-- Some blocks by their lines, the first of each. -/
def byLine (blocks : List TaggedHeading) : Table Int TaggedHeading := blocks.foldl intoLines []

section Group

variable {groups : Table Text (Table Int TaggedHeading)} {group : Table Int TaggedHeading}
  {blocks : List TaggedHeading} {uri : Text} {line : Int}

theorem get?_intoLines (group : Table Int TaggedHeading) (b : TaggedHeading) (line : Int) :
    (intoLines group b).get? line =
      (group.get? line).or (if b.line = line then some b else none) := by
  unfold intoLines
  by_cases hb : b.line ∈ group.keys
  · rw [if_pos (Table.has_iff.mpr hb)]
    split
    · next hline =>
      obtain ⟨b', hb'⟩ := Option.isSome_iff_exists.mp (Table.isSome_get?_iff.mpr (hline ▸ hb))
      rw [hb']
      rfl
    · rw [Option.or_none]
  · rw [if_neg (mt Table.has_iff.mp hb), ← Table.put_of_notMem hb, Table.get?_put]
    split
    · next hline =>
      rw [Table.get?_eq_none (hline ▸ hb)]
      rfl
    · rw [Option.or_none]

theorem get?_foldl_intoLines (group : Table Int TaggedHeading) (blocks : List TaggedHeading)
    (line : Int) :
    (blocks.foldl intoLines group).get? line =
      (group.get? line).or (blocks.find? (·.line = line)) := by
  induction blocks generalizing group with
  | nil => exact Option.or_none.symm
  | cons b blocks ih =>
    rw [List.foldl_cons, ih, get?_intoLines, Option.or_assoc, List.find?_cons]
    by_cases hline : b.line = line
    · simp [hline]
    · simp [hline]

/-- On each line the first block counts. -/
theorem get?_byLine (blocks : List TaggedHeading) (line : Int) :
    (byLine blocks).get? line = blocks.find? (·.line = line) :=
  (get?_foldl_intoLines [] blocks line).trans Option.none_or

theorem mem_keys_byLine : line ∈ (byLine blocks).keys ↔ ∃ b ∈ blocks, b.line = line := by
  rw [← Table.isSome_get?_iff, get?_byLine, List.find?_isSome]
  simp only [decide_eq_true_eq]

/-- The groups have the documents in the order in which they first appear. -/
theorem keys_foldl_intoGroup (groups : Table Text (Table Int TaggedHeading))
    (blocks : List TaggedHeading) :
    (blocks.foldl intoGroup groups).keys = groups.keys ++
      (Text.distinct (blocks.map TaggedHeading.uri)).filter fun uri => uri ∉ groups.keys := by
  induction blocks generalizing groups with
  | nil => exact (List.append_nil _).symm
  | cons b blocks ih =>
    rw [List.foldl_cons, ih, List.map_cons, Text.distinct, intoGroup]
    by_cases hb : b.uri ∈ groups.keys
    · rw [Table.keys_put_of_mem hb, List.filter_cons_of_neg (by simpa using hb), List.filter_filter]
      congr 1
      refine List.filter_congr fun uri _ => ?_
      by_cases huri : uri = b.uri
      · simp [huri, hb]
      · simp [huri]
    · have hkeys (group : Table Int TaggedHeading) :
          Table.keys (groups ++ [(b.uri, group)]) = groups.keys ++ [b.uri] := List.map_append
      rw [Table.put_of_notMem hb, List.filter_cons_of_pos (by simpa using hb), List.filter_filter,
        hkeys, List.append_assoc]
      congr 1
      refine congrArg (b.uri :: ·) (List.filter_congr fun uri _ => ?_)
      rw [← Bool.decide_and, decide_eq_decide, List.mem_append, List.mem_singleton, not_or]

/-- The group of a document has its blocks, as they come. -/
theorem get?_foldl_intoGroup (groups : Table Text (Table Int TaggedHeading))
    (blocks : List TaggedHeading) (uri : Text) :
    ((blocks.foldl intoGroup groups).get? uri).getD [] =
      (blocks.filter (·.uri = uri)).foldl intoLines ((groups.get? uri).getD []) := by
  induction blocks generalizing groups with
  | nil => rfl
  | cons b blocks ih =>
    rw [List.foldl_cons, ih, intoGroup, Table.get?_put]
    by_cases huri : b.uri = uri
    · rw [if_pos huri, List.filter_cons_of_pos (by simpa using huri), List.foldl_cons, huri]
      rfl
    · rw [if_neg huri, List.filter_cons_of_neg (by simpa using huri)]

theorem groupByDocument_eq (blocks : List TaggedHeading) :
    groupByDocument blocks = (Text.distinct (blocks.map TaggedHeading.uri)).map fun uri =>
      (uri, byLine (blocks.filter (·.uri = uri))) := by
  have hkeys : (blocks.foldl intoGroup []).keys =
      Text.distinct (blocks.map TaggedHeading.uri) := by
    rw [keys_foldl_intoGroup, List.filter_eq_self.mpr fun uri _ => by simp [Table.keys]]
    rfl
  have hnodup : (blocks.foldl intoGroup []).keys.Nodup := hkeys ▸ Text.nodup_distinct _
  show blocks.foldl intoGroup [] = _
  rw [Table.eq_map_keys hnodup [], hkeys]
  refine List.map_congr_left fun uri _ => ?_
  rw [get?_foldl_intoGroup]
  rfl

end Group

/-! ## Blocks in their documents -/

namespace TaggedHeading

/-- The document of a block is there, and has a heading on the line of the block. -/
def IsFound (documents : Table Text Document) (b : TaggedHeading) : Prop :=
  ∃ d, documents.get? b.uri = some d ∧ ∃ h ∈ Heading.ofDocument d, h.line = b.line

/-- The error for a block that is not found. -/
def missing (documents : Table Text Document) (b : TaggedHeading) : EditError :=
  match documents.get? b.uri with
  | none => .documentMissing b.uri
  | some _ => .headingMissing b.line b.uri

end TaggedHeading

/-- The nodes that some blocks of a document with a name are found at. -/
def selectedIn (blocks : List TaggedHeading) (uri : Text) (d : Document) : List Node :=
  (ofDocument d).ordered.filter fun n => ∃ b ∈ blocks, b.uri = uri ∧ b.line = n.line

/-- Those of the nodes that do not lie under another one. -/
def keptIn (blocks : List TaggedHeading) (uri : Text) (d : Document) : List Node :=
  (ofDocument d).ordered.filter fun n => (ofDocument d).IsOutermost (selectedIn blocks uri d) n

/-- The section of a node, with the breadcrumb of the first block that is found at it. -/
def sectionAt (blocks : List TaggedHeading) (uri : Text) (d : Document) (n : Node) : Text :=
  let block := blocks.find? fun b => b.uri = uri ∧ b.line = n.line
  sectionOf d (ofDocument d).ordered ((block.map (·.breadcrumb)).getD []) n

/-- What a group of blocks contributes: the markup of the document, its header lines and the
sections. -/
def contribution (documents : Table Text Document) (uri : Text) (group : Table Int TaggedHeading) :
    Except EditError (Markup × List Text × List Text) := do
  let d ← match documents.get? uri with
    | some d => .ok d
    | none => .error (.documentMissing uri)
  let sections ← sectionsOf d uri group
  return (d.markup, fileHeaders d, sections)

section Contribution

variable {documents : Table Text Document} {blocks : List TaggedHeading} {d : Document}
  {uri : Text} {line : Int} {n : Node} {ns : List Node}

theorem Outline.findByLine?_eq_some_iff :
    (ofDocument d).findByLine? line = some n ↔ n ∈ (ofDocument d).ordered ∧ n.line = line := by
  rw [findByLine?]
  constructor
  · intro h
    exact ⟨List.mem_of_find?_eq_some h, by simpa using List.find?_some h⟩
  · rintro ⟨hn, rfl⟩
    cases hfind : (ofDocument d).ordered.find? (·.line = n.line) with
    | none => exact absurd (List.find?_eq_none.mp hfind n hn) (by simp)
    | some m =>
      have hline : m.line = n.line := by simpa using List.find?_some hfind
      rw [Heading.eq_of_line_eq (isOrdered d).lines (List.mem_of_find?_eq_some hfind) hn hline]

theorem exists_mem_ordered_iff :
    (∃ n ∈ (ofDocument d).ordered, n.line = line) ↔ ∃ h ∈ Heading.ofDocument d, h.line = line := by
  rw [← List.mem_map, ← List.mem_map, Outline.map_line_ordered]

/-- The lines of a group all have nodes, or the error names one that has none. -/
theorem nodesOn_cases (d : Document) (uri : Text) (group : Table Int TaggedHeading) :
    (∃ ns, nodesOn (ofDocument d) uri group = .ok ns ∧
      (∀ line ∈ group.keys, ∃ n ∈ (ofDocument d).ordered, n.line = line) ∧
      ∀ n, n ∈ ns ↔ n ∈ (ofDocument d).ordered ∧ n.line ∈ group.keys) ∨
    ∃ line ∈ group.keys, (∀ n ∈ (ofDocument d).ordered, n.line ≠ line) ∧
      nodesOn (ofDocument d) uri group = .error (.headingMissing line uri) := by
  let node (line : Int) : Except EditError Node :=
    ((ofDocument d).findByLine? line).elim (.error (.headingMissing line uri)) .ok
  have hnodes : nodesOn (ofDocument d) uri group = group.keys.mapM node := by
    rw [nodesOn]
    congr 1
    funext line
    simp only [node]
    cases (ofDocument d).findByLine? line <;> rfl
  have hnode {line : Int} {n : Node} : node line = .ok n ↔
      n ∈ (ofDocument d).ordered ∧ n.line = line := by
    rw [← Outline.findByLine?_eq_some_iff]
    simp only [node]
    cases (ofDocument d).findByLine? line <;> simp
  have hmissing {line : Int} {e : EditError} (he : node line = .error e) :
      e = .headingMissing line uri := by
    simp only [node] at he
    cases hfind : (ofDocument d).findByLine? line with
    | none =>
      rw [hfind] at he
      exact (Except.error.inj he).symm
    | some n =>
      rw [hfind] at he
      cases he
  rw [hnodes]
  rcases mapM_cases node group.keys with ⟨ns, hns, hgives, hgiven⟩ | ⟨line, hline, e, he, hfails⟩
  · refine .inl ⟨ns, hns, fun line hline => ?_, fun n => ⟨fun hn => ?_, fun hn => ?_⟩⟩
    · obtain ⟨n, -, hn⟩ := hgives line hline
      exact ⟨n, hnode.mp hn⟩
    · obtain ⟨line, hline, hn⟩ := hgiven n hn
      obtain ⟨hmem, rfl⟩ := hnode.mp hn
      exact ⟨hmem, hline⟩
    · obtain ⟨m, hm, hat⟩ := hgives n.line hn.2
      rw [hnode.mpr ⟨hn.1, rfl⟩] at hat
      rwa [Except.ok.inj hat]
  · refine .inr ⟨line, hline, fun n hn hn' => ?_, by rw [hfails, hmissing he]⟩
    rw [hnode.mpr ⟨hn, hn'⟩] at he
    cases he

theorem mem_selectedIn : n ∈ selectedIn blocks uri d ↔
    n ∈ (ofDocument d).ordered ∧ ∃ b ∈ blocks, b.uri = uri ∧ b.line = n.line := by
  rw [selectedIn, List.mem_filter, decide_eq_true_eq]

theorem mem_keys_byLine_filter : line ∈ (byLine (blocks.filter (·.uri = uri))).keys ↔
    ∃ b ∈ blocks, b.uri = uri ∧ b.line = line := by
  simp only [mem_keys_byLine, List.mem_filter, decide_eq_true_eq, and_assoc]

/-- The sections of a group are those of the outermost of its nodes. -/
theorem sections_eq (hns : ∀ n, n ∈ ns ↔ n ∈ selectedIn blocks uri d) :
    ((outermost d (ofDocument d).ordered ns).map fun n =>
      sectionOf d (ofDocument d).ordered
        ((((byLine (blocks.filter (·.uri = uri))).get? n.line).map (·.breadcrumb)).getD []) n) =
      (keptIn blocks uri d).map (sectionAt blocks uri d) := by
  have hselected : ∀ n ∈ selectedIn blocks uri d, n ∈ (ofDocument d).ordered :=
    fun n hn => (mem_selectedIn.mp hn).1
  have hkept : outermost d (ofDocument d).ordered ns = keptIn blocks uri d :=
    (Outline.outermost_congr hselected hns).trans (Outline.outermost_eq_filter hselected)
  rw [hkept]
  refine List.map_congr_left fun n _ => ?_
  rw [get?_byLine, List.find?_filter]
  simp only [sectionAt, decide_eq_true_eq]

/-- The blocks of a document are all found, and then it contributes the sections of the outermost of
them, or the error is that for one that is not found. -/
theorem contribution_cases (documents : Table Text Document)
    (huri : uri ∈ blocks.map TaggedHeading.uri) :
    (∃ d, documents.get? uri = some d ∧ (∀ b ∈ blocks, b.uri = uri → b.IsFound documents) ∧
      contribution documents uri (byLine (blocks.filter (·.uri = uri))) =
        .ok (d.markup, fileHeaders d, (keptIn blocks uri d).map (sectionAt blocks uri d))) ∨
    ∃ b ∈ blocks, b.uri = uri ∧ ¬ b.IsFound documents ∧
      contribution documents uri (byLine (blocks.filter (·.uri = uri))) =
        .error (b.missing documents) := by
  unfold contribution
  cases hd : documents.get? uri with
  | none =>
    obtain ⟨b, hb, rfl⟩ := List.mem_map.mp huri
    refine .inr ⟨b, hb, rfl, ?_, ?_⟩
    · rintro ⟨d, hd', -⟩
      rw [hd] at hd'
      cases hd'
    · rw [TaggedHeading.missing, hd]
      rfl
  | some d =>
    rcases nodesOn_cases d uri (byLine (blocks.filter (·.uri = uri))) with
      ⟨ns, hok, hlines, hns⟩ | ⟨line, hline, hnone, hfails⟩
    · refine .inl ⟨d, rfl, fun b hb hburi => ⟨d, hburi ▸ hd, exists_mem_ordered_iff.mp ?_⟩, ?_⟩
      · exact hlines b.line (mem_keys_byLine_filter.mpr ⟨b, hb, hburi, rfl⟩)
      · rw [← sections_eq fun n => by rw [hns, mem_selectedIn, mem_keys_byLine_filter]]
        show (nodesOn (ofDocument d) uri _ >>= _) >>= _ = _
        rw [hok]
        rfl
    · obtain ⟨b, hb, rfl, rfl⟩ := mem_keys_byLine_filter.mp hline
      refine .inr ⟨b, hb, rfl, ?_, ?_⟩
      · rintro ⟨d', hd', hfound⟩
        obtain rfl := Option.some.inj (hd.symm.trans hd')
        obtain ⟨n, hn, hline⟩ := exists_mem_ordered_iff.mpr hfound
        exact hnone n hn hline
      · rw [TaggedHeading.missing, hd]
        show (nodesOn (ofDocument d) b.uri _ >>= _) >>= _ = _
        rw [hfails]
        rfl

end Contribution

/-! ## The new document -/

/-- What stands before the sections: the header lines of the documents, and the title. -/
def preface (ds : List Document) (title : Option Text) : List Text :=
  let headers := Text.distinct (ds.flatMap fileHeaders)
  let titleText := Text.trim (title.getD [])
  let markup := (ds.head?.map Document.markup).getD .typst
  (if headers = [] then [] else [Text.joinWith ['\n'] headers]) ++
    (if titleText = [] then [] else [markerText markup 1 ++ ' ' :: titleText])

/-- The documents of some blocks with their names, in the order in which they first appear. -/
def filesOf (documents : Table Text Document) (blocks : List TaggedHeading) :
    List (Text × Document) :=
  (Text.distinct (blocks.map TaggedHeading.uri)).filterMap fun uri =>
    (documents.get? uri).map (Prod.mk uri)

/-- The preface and the sections of some blocks. -/
def gatheredText (documents : Table Text Document) (blocks : List TaggedHeading)
    (title : Option Text) : Text :=
  let files := filesOf documents blocks
  Text.joinWith ['\n', '\n'] (preface (files.map Prod.snd) title ++
    files.flatMap fun f => (keptIn blocks f.1 f.2).map (sectionAt blocks f.1 f.2)) ++ ['\n']

section Gather

variable {documents : Table Text Document} {blocks : List TaggedHeading}

theorem gatherGroups_eq_mapM (documents : Table Text Document)
    (groups : Table Text (Table Int TaggedHeading)) :
    gatherGroups documents groups = groups.mapM fun g => contribution documents g.1 g.2 := by
  induction groups with
  | nil => rfl
  | cons g groups ih =>
    rw [List.mapM_cons, gatherGroups, ih, contribution]
    cases documents.get? g.1 with
    | none => rfl
    | some d =>
      show (sectionsOf d g.1 g.2 >>= _) = (sectionsOf d g.1 g.2 >>= _) >>= _
      cases sectionsOf d g.1 g.2 <;> rfl

/-- What is computed for each name is what is computed for each document. -/
theorem mapM_of_documents {α : Type} {f : Text → Except EditError α} {part : Text → Document → α}
    {uris : List Text}
    (h : ∀ uri ∈ uris, ∃ d, documents.get? uri = some d ∧ f uri = .ok (part uri d)) :
    uris.mapM f = .ok ((uris.filterMap fun uri => (documents.get? uri).map (Prod.mk uri)).map
      fun file => part file.1 file.2) := by
  induction uris with
  | nil => rfl
  | cons uri uris ih =>
    obtain ⟨d, hd, hf⟩ := h uri List.mem_cons_self
    rw [List.mapM_cons, hf, ih fun x hx => h x (List.mem_cons_of_mem uri hx), List.filterMap_cons,
      hd]
    rfl

/-- All blocks are found and gathered, or the error is that for one that is not found. -/
theorem gatherBlocks_cases (documents : Table Text Document) (blocks : List TaggedHeading)
    (title : Option Text) :
    ((∀ b ∈ blocks, b.IsFound documents) ∧
      gatherBlocks documents blocks title = .ok (gatheredText documents blocks title)) ∨
    ∃ b ∈ blocks, ¬ b.IsFound documents ∧
      gatherBlocks documents blocks title = .error (b.missing documents) := by
  let uris := Text.distinct (blocks.map TaggedHeading.uri)
  let part (uri : Text) := contribution documents uri (byLine (blocks.filter (·.uri = uri)))
  have hgroups : gatherGroups documents (groupByDocument blocks) = uris.mapM part := by
    rw [gatherGroups_eq_mapM, groupByDocument_eq, List.mapM_map]
    rfl
  have huri {uri : Text} (h : uri ∈ uris) : uri ∈ blocks.map TaggedHeading.uri :=
    Text.mem_distinct.mp h
  rw [gatherBlocks, hgroups]
  rcases mapM_cases part uris with ⟨parts, -, hgives, -⟩ | ⟨uri, hmem, e, he, hfails⟩
  · have hcontributed (uri : Text) (h : uri ∈ uris) : ∃ d, documents.get? uri = some d ∧
        (∀ b ∈ blocks, b.uri = uri → b.IsFound documents) ∧
        part uri = .ok (d.markup, fileHeaders d, (keptIn blocks uri d).map (sectionAt blocks uri d)) := by
      refine (contribution_cases documents (huri h)).resolve_right ?_
      rintro ⟨b, -, -, -, hfails⟩
      obtain ⟨x, -, hx⟩ := hgives uri h
      cases hx.symm.trans hfails
    refine .inl ⟨fun b hb => ?_, ?_⟩
    · obtain ⟨d, -, hfound, -⟩ :=
        hcontributed b.uri (Text.mem_distinct.mpr (List.mem_map_of_mem hb))
      exact hfound b hb rfl
    · rw [mapM_of_documents fun uri h => (hcontributed uri h).imp fun d hd => ⟨hd.1, hd.2.2⟩]
      show Except.ok _ = Except.ok _
      rw [gatheredText, preface]
      simp only [List.flatMap_map, List.head?_map, Option.map_map]
      rfl
  · obtain ⟨b, hb, -, hnot, hpart⟩ := (contribution_cases documents (huri hmem)).resolve_left (by
      rintro ⟨d, -, -, hok⟩
      cases he.symm.trans hok)
    refine .inr ⟨b, hb, hnot, ?_⟩
    rw [hfails, Except.error.inj (he.symm.trans hpart)]
    rfl

end Gather

end TaggedOutline
