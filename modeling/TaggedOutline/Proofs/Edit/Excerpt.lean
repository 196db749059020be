import TaggedOutline.Edit.Extract
import TaggedOutline.Proofs.Edit.Cut
import TaggedOutline.Proofs.Heading.Return
import TaggedOutline.Proofs.Outline.Breadcrumb

/-!
# Sections of gathered blocks

A section shows the headings above a block and then the block. It is found in a new document
(`IsFoundAt`, `FoundFrom`) where its headings can be read again (`IsLegible`) and no code region is
open (`IsClosed`).

1. The lines of the block stand together in its document (`exists_lines_eq`), the first of them with
   the heading of the block (`exists_heading`).
2. They are scanned on their own, and the headings found there are those of the document that lie in
   the block (`ofLines_lines`).
-/

namespace TaggedOutline

open Outline (ofDocument)

/-- A block to be gathered: its document and the node of its heading. -/
structure Excerpt where
  document : Document
  node : Node

namespace Excerpt

/-- The nodes of the document. -/
abbrev ordered (b : Excerpt) : List Node := (ofDocument b.document).ordered

/-- The number of headings above the block. -/
def depth (b : Excerpt) : Nat := ((ofDocument b.document).ancestorsOf b.node).length

/-- The headings in the block. -/
def headings (b : Excerpt) : List Heading :=
  (Heading.ofDocument b.document).filter fun h => InBlock b.ordered b.node h.line

/-- The section of the block in a new document. -/
def text (b : Excerpt) : Text :=
  sectionOf b.document b.ordered
    (((breadcrumbs (Heading.ofDocument b.document)).get? b.node.line).getD []) b.node

/-- The number of lines of the section. -/
def height (b : Excerpt) : Nat := (Line.contents b.text).length

/-! ## What is to be found -/

/-- The headings are those of a section that starts at line `number`: on each of its first lines a
heading, as deep as there are headings above, and then the headings of the block on their lines, the
lengths of these aside. -/
def IsFoundAt (b : Excerpt) (number : Int) (hs : List Heading) : Prop :=
  ∃ above own, hs = above ++ own ∧
    (above.map fun h => (h.line, h.markup, h.level)) = ((List.range b.depth).map fun (k : Nat) =>
      (number + k, b.document.markup, ((markerText b.document.markup (k + 1)).length : Int))) ∧
    own.map Heading.unmeasured =
      b.headings.map fun h => (h.movedDown (number + b.depth - b.node.line)).unmeasured

/-- The headings are those of sections that follow one another from line `number` on, with an empty
line after each. -/
def FoundFrom : Int → List Excerpt → List Heading → Prop
  | _, [], hs => hs = []
  | number, b :: later, hs => ∃ found rest, hs = found ++ rest ∧ b.IsFoundAt number found ∧
      FoundFrom (number + b.height + 1) later rest

/-- A label stands as a title: in Typst a heading with no other title than a comment is none. -/
def IsTitle (markup : Markup) (label : Text) : Prop :=
  markup = .typst → label ≠ [] ∧ Text.startsWith (Comment.opening .typst) label = false

instance (markup : Markup) (label : Text) : Decidable (IsTitle markup label) :=
  inferInstanceAs (Decidable (_ → _))

/-- All headings of the section can be read again: those above the block by their labels, and those
in it without the carriage returns at the ends of their lines. -/
structure IsLegible (b : Excerpt) : Prop where
  labels : ∀ label ∈ labelsAbove b.document b.node.line, IsTitle b.document.markup label
  signs : ∀ h ∈ b.headings, ∀ line ∈ b.document.lines[h.line.toNat]?, ¬ Heading.IsBare line

instance (b : Excerpt) : Decidable b.IsLegible :=
  decidable_of_iff
    ((∀ label ∈ labelsAbove b.document b.node.line, IsTitle b.document.markup label) ∧
      ∀ h ∈ b.headings, ∀ line ∈ b.document.lines[h.line.toNat]?, ¬ Heading.IsBare line)
    ⟨fun h => ⟨h.1, h.2⟩, fun h => ⟨h.labels, h.signs⟩⟩

/-- The block leaves no code region open. -/
def IsClosed (b : Excerpt) : Prop :=
  (({} : Fence).afterLines (Line.contents (blockText b.document b.ordered b.node))).inside = false

instance (b : Excerpt) : Decidable b.IsClosed := inferInstanceAs (Decidable (_ = _))

/-! ## The lines of the block -/

/-- The lines of the block. -/
def lines (b : Excerpt) : List Text :=
  (b.document.lines.take (blockEnd b.document.lineCount b.ordered b.node).toNat).drop
    b.node.line.toNat

variable {b : Excerpt}

theorem isOrdered (b : Excerpt) : IsOrdered b.document b.ordered := Outline.isOrdered b.document

/-- The lines between two places, and an empty one after them if the text goes on there. -/
theorem exists_contents_join (t : Text) (start stop : Nat) :
    ∃ k ≤ 1, Line.contents (Line.join (((Line.ofText t).take stop).drop start)) =
      ((Line.contents t).take stop).drop start ++ List.replicate k [] := by
  obtain ⟨ls, last, hsplit, hls, hlast⟩ := Line.exists_ofText t
  have hended {ls' : List Line} (h : ∀ l ∈ ls', l.IsEnded) :
      Line.contents (Line.join ls') = ls'.map Line.content ++ List.replicate 1 [] := by
    have hjoin := Line.ofText_join_append h []
    rw [List.append_nil] at hjoin
    rw [Line.contents, hjoin, List.map_append]
    rfl
  rw [Line.contents, Line.contents, ← List.map_take, ← List.map_drop, hsplit]
  by_cases hstop : stop ≤ ls.length
  · refine ⟨1, Nat.le_refl 1, ?_⟩
    rw [List.take_append_of_le_length hstop]
    exact hended fun l hl => hls l (List.mem_of_mem_take (List.mem_of_mem_drop hl))
  · rw [List.take_of_length_le (by rw [List.length_append, List.length_singleton]; omega)]
    by_cases hstart : start ≤ ls.length
    · refine ⟨0, Nat.zero_le 1, ?_⟩
      rw [List.drop_append_of_le_length hstart,
        Line.ofText_join (fun l hl => hls l (List.mem_of_mem_drop hl)) hlast, List.replicate_zero,
        List.append_nil]
    · refine ⟨1, Nat.le_refl 1, ?_⟩
      rw [List.drop_of_length_le (by rw [List.length_append, List.length_singleton]; omega)]
      rfl

theorem lineFeed_not_mem_of_mem_lines {line : Text} (h : line ∈ b.lines) : '\n' ∉ line :=
  Line.lineFeed_not_mem_of_mem_contents (List.mem_of_mem_take (List.mem_of_mem_drop h))

section Block

variable (hb : b.node ∈ b.ordered)

include hb

theorem exists_contents_blockText :
    ∃ k ≤ 1, Line.contents (blockText b.document b.ordered b.node) =
      b.lines ++ List.replicate k [] := by
  rw [blockText_eq (isOrdered b) hb]
  exact exists_contents_join _ _ _

/-- The document is the lines before the block, those of the block and those after it. -/
theorem exists_lines_eq : ∃ front later, b.document.lines = front ++ (b.lines ++ later) ∧
    (front.length : Int) = b.node.line ∧
    b.node.line + b.lines.length = blockEnd b.document.lineCount b.ordered b.node := by
  have ho := isOrdered b
  have hnonneg := ho.nonneg b.node hb
  have hlt := line_lt_blockEnd ho hb
  have hle := blockEnd_le ho b.node
  have hcount : b.document.lineCount = b.document.lines.length := rfl
  refine ⟨b.document.lines.take b.node.line.toNat,
    b.document.lines.drop (blockEnd b.document.lineCount b.ordered b.node).toNat, ?_, ?_, ?_⟩
  · have hsplit : b.document.lines.drop b.node.line.toNat = b.lines ++
        b.document.lines.drop (blockEnd b.document.lineCount b.ordered b.node).toNat := by
      conv_lhs => rw [← List.take_append_drop
        (blockEnd b.document.lineCount b.ordered b.node).toNat b.document.lines]
      rw [List.drop_append_of_le_length, lines]
      rw [List.length_take]
      omega
    rw [← hsplit, List.take_append_drop]
  · rw [List.length_take]
    omega
  · rw [lines, List.length_drop, List.length_take]
    omega

/-- The block starts with the line of its heading. -/
theorem exists_heading : ∃ g ∈ b.headings, g.line = b.node.line := by
  obtain ⟨g, hg, -, hline⟩ := Outline.exists_of_mem_ordered hb
  refine ⟨g, List.mem_filter.mpr ⟨hg, decide_eq_true ?_⟩, hline.symm⟩
  rw [← hline]
  exact inBlock_line b.ordered b.node

/-- The block is scanned on its own. -/
theorem ofLines_lines : Heading.ofLines {} b.node.line b.lines = b.headings := by
  obtain ⟨front, later, hlines, hfront, hend⟩ := exists_lines_eq hb
  have hcount : (b.document.lineCount : Int) = b.node.line + b.lines.length + later.length := by
    rw [Document.lineCount, hlines, List.length_append, List.length_append]
    omega
  have hscan : Heading.ofDocument b.document = Heading.ofLines {} 0 front ++
      (Heading.ofLines (({} : Fence).afterLines front) b.node.line b.lines ++
        Heading.ofLines ((({} : Fence).afterLines front).afterLines b.lines)
          (b.node.line + b.lines.length) later) := by
    show Heading.ofLines {} 0 b.document.lines = _
    rw [hlines, Heading.ofLines_append, Heading.ofLines_append, hfront, Int.zero_add]
  -- The scan comes to the block outside of code, as the block starts with a heading.
  have houtside : ({} : Fence).afterLines front = {} := by
    have hsound : (({} : Fence).afterLines front).Sound :=
      Fence.Sound.afterLines (fun _ => rfl) front
    obtain ⟨g, hg, hline⟩ := exists_heading hb
    have hg := (List.mem_filter.mp hg).1
    rw [hscan, List.mem_append, List.mem_append] at hg
    have hlt := line_lt_blockEnd (isOrdered b) hb
    rcases hg with hg | hg | hg
    · have := Heading.line_of_mem_ofLines hg
      omega
    · cases hb' : b.lines with
      | nil =>
        rw [hb', List.length_nil] at hend
        omega
      | cons line rest =>
        rw [hb'] at hg
        have hn : '\n' ∉ line := lineFeed_not_mem_of_mem_lines (by rw [hb']; simp)
        exact (Heading.outside_of_line_eq hsound hn hg hline).1
    · have := Heading.line_of_mem_ofLines hg
      omega
  rw [headings, hscan, List.filter_append, List.filter_append, houtside]
  have hin (h : Heading) (hh : h.line < b.document.lineCount) :
      InBlock b.ordered b.node h.line ↔
        b.node.line ≤ h.line ∧ h.line < b.node.line + b.lines.length := by
    rw [inBlock_iff (isOrdered b) hh, hend]
  rw [List.filter_eq_nil_iff.mpr, List.filter_eq_self.mpr, List.filter_eq_nil_iff.mpr,
    List.nil_append, List.append_nil]
  · intro h hh
    have := Heading.line_of_mem_ofLines hh
    rw [decide_eq_true_eq, hin h (by omega)]
    omega
  · intro h hh
    have := Heading.line_of_mem_ofLines hh
    rw [decide_eq_true_eq, hin h (by omega)]
    omega
  · intro h hh
    have := Heading.line_of_mem_ofLines hh
    rw [decide_eq_true_eq, hin h (by omega)]
    omega

end Block

end Excerpt

end TaggedOutline
