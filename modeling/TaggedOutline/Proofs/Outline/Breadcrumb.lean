import TaggedOutline.Outline.Breadcrumb
import TaggedOutline.Proofs.Heading.Scan
import TaggedOutline.Proofs.Outline.Block

/-!
# The headings above a heading, as they are displayed

A breadcrumb is made from headings and the parents of an outline from nodes, but both follow the one
rule of nesting: a heading and its node lie under the same places (`exists_openedBy_of_mem_zipIdx`).
So the breadcrumb of a heading displays those whose nodes are the ancestors of its node, and the
heading (`breadcrumbs_ancestorsOf`), and there are as many labels above it as its node has ancestors
(`length_labelsAbove`). A label has no blanks at its ends and is on one line.
-/

namespace TaggedOutline

open Outline (ofDocument)

/-! ## Nesting -/

/-- The items are nested by their levels, whatever they are. -/
theorem openedBy_map {α β : Type} {levelOf : α → Int} (levelOf' : β → Int) (f : α → β)
    (hf : ∀ a, levelOf' (f a) = levelOf a) (stack r : List α) :
    openedBy levelOf' (stack.map f) (r.map f) =
      (openedBy levelOf stack r).map fun (a, above) => (f a, above.map f) := by
  induction r generalizing stack with
  | nil => rfl
  | cons a r ih =>
    have habove : (stack.map f).dropWhile (levelOf' (f a) ≤ levelOf' ·) =
        (stack.dropWhile (levelOf a ≤ levelOf ·)).map f := by
      rw [List.dropWhile_map]
      simp only [Function.comp_def, hf]
    rw [List.map_cons, openedBy, openedBy, List.map_cons, habove, ← ih]
    rfl

theorem Outline.nodesFrom_eq_map (k : Nat) (hs : List Heading) :
    nodesFrom k hs = (hs.zipIdx k).map fun e => nodeOf e.1 e.2 := by
  induction hs generalizing k with
  | nil => rfl
  | cons h hs ih => rw [nodesFrom, ih, List.zipIdx_cons, List.map_cons]

/-- The items above an item are from before it. -/
theorem mem_of_mem_openedBy {α : Type} {level : α → Int} {stack r above : List α} {a b : α}
    (h : (b, above) ∈ openedBy level stack r) (ha : a ∈ above) : a ∈ stack ∨ a ∈ r := by
  induction r generalizing stack with
  | nil => exact absurd h (by simp [openedBy])
  | cons x r ih =>
    rcases List.mem_cons.mp h with he | h
    · obtain ⟨rfl, rfl⟩ := Prod.mk.inj he
      exact .inl ((List.dropWhile_sublist _).subset ha)
    · rcases ih h with hs | hr
      · rcases List.mem_cons.mp hs with rfl | hs
        · exact .inr List.mem_cons_self
        · exact .inl ((List.dropWhile_sublist _).subset hs)
      · exact .inr (List.mem_cons_of_mem x hr)

/-- A heading and its node lie under the same places of the sequence. -/
theorem exists_openedBy_of_mem_zipIdx {hs : List Heading} {e : Heading × Nat}
    (he : e ∈ hs.zipIdx) :
    ∃ above : List (Heading × Nat), (∀ x ∈ above, x ∈ hs.zipIdx) ∧
      (e.1, above.map Prod.fst) ∈ openedBy Heading.level [] hs ∧
      (Outline.nodeOf e.1 e.2, above.map fun x => Outline.nodeOf x.1 x.2) ∈
        openedBy Node.level [] (Outline.nodesFrom 0 hs) := by
  -- Headings and nodes are both parts of the headings with their places.
  have hopened : e ∈ (openedBy (fun x => x.1.level) [] hs.zipIdx).map Prod.fst := by
    rwa [map_fst_openedBy]
  obtain ⟨⟨e', above⟩, hmem, he'⟩ := List.mem_map.mp hopened
  obtain rfl : e' = e := he'
  refine ⟨above, fun x hx => ?_, ?_, ?_⟩
  · exact (mem_of_mem_openedBy hmem hx).resolve_left (by simp)
  · have hmap := openedBy_map Heading.level Prod.fst (fun _ => rfl) [] hs.zipIdx
    rw [List.zipIdx_map_fst, List.map_nil] at hmap
    rw [hmap]
    exact List.mem_map.mpr ⟨_, hmem, rfl⟩
  · have hmap := openedBy_map Node.level (fun x : Heading × Nat => Outline.nodeOf x.1 x.2)
      (fun _ => rfl) [] hs.zipIdx
    rw [← Outline.nodesFrom_eq_map, List.map_nil] at hmap
    rw [hmap]
    exact List.mem_map.mpr ⟨_, hmem, rfl⟩

/-! ## Breadcrumbs -/

section Breadcrumbs

variable {hs : List Heading} (hlines : (hs.map Heading.line).Nodup)

include hlines

theorem breadcrumbs_eq_map : breadcrumbs hs = (openedBy Heading.level [] hs).map fun e =>
    (e.1.line, (e.2.reverse ++ [e.1]).map Heading.display) := by
  refine Table.ofList_of_nodup ?_
  rw [List.map_map]
  show ((openedBy Heading.level [] hs).map (Heading.line ∘ Prod.fst)).Nodup
  rwa [← List.map_map, map_fst_openedBy]

/-- There is a breadcrumb under the line of each heading, and no other. -/
theorem keys_breadcrumbs : (breadcrumbs hs).keys = hs.map Heading.line := by
  rw [breadcrumbs_eq_map hlines, Table.keys, List.map_map]
  show (openedBy Heading.level [] hs).map (Heading.line ∘ Prod.fst) = _
  rw [← List.map_map, map_fst_openedBy]

theorem get?_breadcrumbs_of_mem {above : List Heading} {h : Heading}
    (hmem : (h, above) ∈ openedBy Heading.level [] hs) :
    (breadcrumbs hs).get? h.line = some ((above.reverse ++ [h]).map Heading.display) := by
  refine Table.get?_of_mem (by rwa [keys_breadcrumbs hlines]) ?_
  rw [breadcrumbs_eq_map hlines]
  exact List.mem_map.mpr ⟨(h, above), hmem, rfl⟩

/-- Where nodes are on the lines of their headings, the node of a heading is found by its line. -/
theorem findByLine?_ofHeadings (hranges : ∀ g ∈ hs, g.range.start.line = g.line)
    {e : Heading × Nat} (he : e ∈ hs.zipIdx) :
    (Outline.ofHeadings hs).findByLine? e.1.line = some (Outline.nodeOf e.1 e.2) := by
  have hline {x : Heading × Nat} (hx : x ∈ hs.zipIdx) :
      (Node.line ∘ fun x => Outline.nodeOf x.1 x.2) x = x.1.line :=
    hranges _ (List.fst_mem_of_mem_zipIdx hx)
  have hnodup : ((Outline.nodesFrom 0 hs).map Node.line).Nodup := by
    rw [Outline.nodesFrom_eq_map, List.map_map, List.map_congr_left fun x hx => hline hx]
    rwa [← List.zipIdx_map_fst 0 hs, List.map_map] at hlines
  have hmem : Outline.nodeOf e.1 e.2 ∈ Outline.nodesFrom 0 hs := by
    rw [Outline.nodesFrom_eq_map]
    exact List.mem_map_of_mem he
  rw [← hline he]
  exact Heading.find?_line hnodup hmem

end Breadcrumbs

/-- If no two headings are on one line, there is a breadcrumb under the line of each heading and no
other. It displays the headings whose nodes are above the node of the heading, the outermost first,
and then the heading itself. -/
theorem breadcrumbs_ancestorsOf (hs : List Heading) (hlines : (hs.map Heading.line).Nodup) :
    let o := Outline.ofHeadings hs
    let nodeAt (e : Heading × Nat) : Node := Outline.nodeOf e.1 e.2
    (breadcrumbs hs).keys = hs.map Heading.line ∧
    o.ordered = hs.zipIdx.map nodeAt ∧ (o.ordered.map Node.id).Nodup ∧
    ∀ e ∈ hs.zipIdx,
      ((∀ g ∈ hs, g.range.start.line = g.line) → o.findByLine? e.1.line = some (nodeAt e)) ∧
      ∃ above, (∀ x ∈ above, x ∈ hs.zipIdx) ∧
        o.ancestorsOf (nodeAt e) = above.map nodeAt ∧
        (breadcrumbs hs).get? e.1.line = some ((above ++ [e]).map (·.1.display)) := by
  intro o nodeAt
  refine ⟨keys_breadcrumbs hlines, Outline.nodesFrom_eq_map 0 hs, Outline.nodup_id_nodesFrom 0 hs,
    fun e he => ⟨fun hranges => findByLine?_ofHeadings hlines hranges he, ?_⟩⟩
  obtain ⟨above, hsub, hheading, hnode⟩ := exists_openedBy_of_mem_zipIdx he
  refine ⟨above.reverse, fun x hx => hsub x (List.mem_reverse.mp hx), ?_, ?_⟩
  · rw [Outline.ancestorsOf_eq_reverse hnode, List.map_reverse]
  · rw [get?_breadcrumbs_of_mem hlines hheading]
    simp

/-- A skipped level, a level below one, titles with markup, and lines in no order. -/
theorem breadcrumbs_ancestorsOf_uneven :
    let heading (level : Int) (title : String) (shown : Char) (line : Int) : Heading :=
      { markup := .markdown, level := level, text := title.toList, display := [shown], line := line,
        range := Range.ofLine line 9 }
    let hs := [heading 2 "*A*" 'A' 7, heading 4 "B" 'B' 1, heading 3 "[C](c)" 'C' 4,
      heading (-1) "D" 'D' 0]
    let c := Outline.nodeOf (heading 3 "[C](c)" 'C' 4) 2
    (hs.map Heading.line).Nodup ∧ (breadcrumbs hs).keys = [7, 1, 4, 0] ∧
      (Outline.ofHeadings hs).findByLine? 4 = some c ∧
      ∃ above : List (Heading × Nat), (Outline.ofHeadings hs).ancestorsOf c =
          above.map (fun x => Outline.nodeOf x.1 x.2) ∧ above.length = 1 ∧
        (breadcrumbs hs).get? 4 = some (above.map (·.1.display) ++ [['C']]) := by
  intro heading hs c
  have hlines : (hs.map Heading.line).Nodup := by decide
  obtain ⟨hkeys, -, -, hcrumb⟩ := breadcrumbs_ancestorsOf hs hlines
  obtain ⟨hfind, above, -, habove, hget⟩ := hcrumb (heading 3 "[C](c)" 'C' 4, 2) (by decide)
  refine ⟨hlines, hkeys, hfind (by decide), above, habove, ?_, ?_⟩
  · rw [← List.length_map, ← habove]
    decide
  · rw [hget, List.map_append]
    rfl

/-! ## Labels -/

/-- The displayed titles of the headings above the one on a line, the outermost first. -/
def labelsAbove (d : Document) (line : Int) : List Text :=
  (((breadcrumbs (Heading.ofDocument d)).get? line).getD []).dropLast

section Labels

variable {d : Document} {n : Node}

/-- The labels above a heading are those of its ancestors. -/
theorem exists_labelsAbove_eq (hn : n ∈ (ofDocument d).ordered) :
    ∃ above : List Heading, (∀ h ∈ above, h ∈ Heading.ofDocument d) ∧
      labelsAbove d n.line = above.map Heading.display ∧
      ((ofDocument d).ancestorsOf n).length = above.length := by
  have hn' : n ∈ Outline.nodesFrom 0 (Heading.ofDocument d) := hn
  rw [Outline.nodesFrom_eq_map] at hn'
  obtain ⟨e, he, rfl⟩ := List.mem_map.mp hn'
  have hline : (Outline.nodeOf e.1 e.2).line = e.1.line :=
    congrArg Position.line
      (Outline.start_of_mem_ofDocument (List.fst_mem_of_mem_zipIdx he))
  have hlines : ((Heading.ofDocument d).map Heading.line).Nodup :=
    Heading.nodup_map_line (Heading.ofText_pairwise_line d.text)
  obtain ⟨above, hsub, hfirst, hsecond⟩ := exists_openedBy_of_mem_zipIdx he
  refine ⟨above.reverse.map Prod.fst, fun h hh => ?_, ?_, ?_⟩
  · obtain ⟨x, hx, rfl⟩ := List.mem_map.mp hh
    exact List.fst_mem_of_mem_zipIdx (hsub x (List.mem_reverse.mp hx))
  · rw [labelsAbove, hline, get?_breadcrumbs_of_mem hlines hfirst, Option.getD_some,
      List.map_append, List.map_singleton, List.dropLast_concat, List.map_reverse, List.map_reverse,
      List.map_reverse]
  · rw [Outline.ancestorsOf_eq_reverse hsecond]
    simp

/-- There are as many labels above a heading as it has ancestors. -/
theorem length_labelsAbove (hn : n ∈ (ofDocument d).ordered) :
    (labelsAbove d n.line).length = ((ofDocument d).ancestorsOf n).length := by
  obtain ⟨above, -, hlabels, hlength⟩ := exists_labelsAbove_eq hn
  rw [hlabels, List.length_map, hlength]

end Labels

/-! ## Displayed titles -/

namespace Heading

theorem splitTitle_spec (markup : Markup) (raw : Text) :
    Text.IsTrimmed (splitTitle markup raw).1 ∧ ∀ c ∈ (splitTitle markup raw).1, c ∈ raw := by
  unfold splitTitle
  split
  · exact ⟨Text.isTrimmed_trim raw, fun c => Text.mem_of_mem_trim⟩
  · next f _ =>
    exact ⟨Text.isTrimmed_trim _, fun c hc =>
      List.mem_of_mem_take (Text.mem_of_mem_trim hc)⟩

theorem display_spec {markup : Markup} {title : Text} (ht : Text.IsTrimmed title)
    (hn : '\n' ∉ title) :
    Text.IsTrimmed (Title.display markup title) ∧ '\n' ∉ Title.display markup title := by
  have hcollapse (t : Text) : Text.IsTrimmed (Text.collapse t) ∧ '\n' ∉ Text.collapse t := by
    refine ⟨Text.isTrimmed_unwords fun w hw => ?_, fun hm => ?_⟩
    · exact ⟨(Text.isWord_of_mem_words hw).1, (Text.isWord_of_mem_words hw).isTrimmed⟩
    · rcases Text.mem_unwords hm with h | ⟨w, hw, h⟩
      · exact absurd h (by decide)
      · exact absurd ((Text.isWord_of_mem_words hw).2 _ h) (by decide)
  have hshown (shown : Text) : Text.IsTrimmed shown ∧ '\n' ∉ shown →
      Text.IsTrimmed (if shown = [] then title else shown) ∧
        '\n' ∉ if shown = [] then title else shown := by
    intro h
    split
    · exact ⟨ht, hn⟩
    · exact h
  exact hshown _ (hcollapse _)

/-- A displayed title has no blanks at its ends and is on one line. -/
theorem display_of_mem_ofDocument {d : Document} {h : Heading} (hh : h ∈ ofDocument d) :
    Text.IsTrimmed h.display ∧ '\n' ∉ h.display := by
  obtain ⟨line, hline, hread⟩ := exists_line_of_mem_ofText hh
  have hn := Line.lineFeed_not_mem_of_mem_contents (List.mem_of_getElem? hline)
  obtain ⟨markup, level, raw, hs, -, heq⟩ := ofLine?_eq_some_iff.mp hread
  obtain ⟨pre, rfl, -⟩ := hs.exists_append hn
  obtain ⟨htrim, hsub⟩ := splitTitle_spec markup raw
  have hdisplay : h.display = Title.display markup (splitTitle markup raw).1 :=
    congrArg Heading.display heq
  rw [hdisplay]
  exact display_spec htrim fun hm => hn (List.mem_append_right _ (hsub _ hm))

end Heading

theorem label_of_mem_labelsAbove {d : Document} {n : Node} (hn : n ∈ (ofDocument d).ordered)
    {label : Text} (h : label ∈ labelsAbove d n.line) :
    Text.IsTrimmed label ∧ '\n' ∉ label := by
  obtain ⟨above, habove, hlabels, -⟩ := exists_labelsAbove_eq hn
  rw [hlabels] at h
  obtain ⟨g, hg, rfl⟩ := List.mem_map.mp h
  exact Heading.display_of_mem_ofDocument (habove g hg)

end TaggedOutline
