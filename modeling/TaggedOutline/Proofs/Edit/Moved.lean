import TaggedOutline.Proofs.Edit.Delete
import TaggedOutline.Proofs.Edit.Relocate
import TaggedOutline.Proofs.Heading.Append
import TaggedOutline.Proofs.Heading.Fence

/-!
# The headings of a text with moved blocks

1. What is written in a heading does not depend on where it stands, and nodes are written as their
   headings are (`Outline.map_written_filter`).
2. Lines that are left out in runs between headings can be put before another heading. If no code
   region is open at the end, the headings on them are found there
   (`Heading.map_written_rearranged`).
3. A text with moved blocks has the lines before the place, those of the blocks and the other ones
   (`exists_contents_movedBefore`). Blocks begin and end at headings, so all headings are found again
   (`map_written_movedBefore`).
-/

namespace TaggedOutline

open Outline (ofDocument isOrdered)

variable {d : Document} {ns : List Node} {line : Nat} {t : Text}

/-! ## What is written in a heading -/

/-- A heading wherever it stands: its title, its level and its markup. -/
def Heading.written (h : Heading) : Text × Int × Markup := (h.text, h.level, h.markup)

/-- A node wherever it stands. -/
def Node.written (n : Node) : Text × Int × Markup := (n.label, n.level, n.markup)

namespace Outline

theorem map_written_nodesFrom (k : Nat) (hs : List Heading) :
    (nodesFrom k hs).map Node.written = hs.map Heading.written := by
  induction hs generalizing k with
  | nil => rfl
  | cons h hs ih =>
    rw [nodesFrom, List.map_cons, List.map_cons, ih]
    rfl

/-- The nodes on some lines are written as the headings on these. -/
theorem map_written_filter (d : Document) (p : Int → Bool) :
    ((ofDocument d).ordered.filter (p ·.line)).map Node.written =
      ((Heading.ofDocument d).filter (p ·.line)).map Heading.written := by
  have hsnd : ((Heading.ofDocument d).zip (ofDocument d).ordered).map Prod.snd =
      (ofDocument d).ordered := List.map_snd_zip (Nat.le_of_eq (length_nodesFrom 0 _))
  conv_lhs => rw [← hsnd]
  conv_rhs => rw [← map_fst_zip_ordered d]
  rw [List.filter_map, List.filter_map, List.map_map, List.map_map]
  have hfilter : ((Heading.ofDocument d).zip (ofDocument d).ordered).filter
      ((p ·.line) ∘ Prod.snd) =
      ((Heading.ofDocument d).zip (ofDocument d).ordered).filter ((p ·.line) ∘ Prod.fst) := by
    refine List.filter_congr fun e he => ?_
    rw [Function.comp_apply, Function.comp_apply, (line_of_mem_zip he).2]
  rw [hfilter]
  refine List.map_congr_left fun e he => ?_
  obtain ⟨i, hi⟩ := exists_of_mem_zip (List.mem_filter.mp he).1
  rw [Function.comp_apply, Function.comp_apply, hi]
  rfl

end Outline

/-- Of items on lines before a line and items on the other lines, the former are those before it. -/
theorem filter_append_of_line {α : Type} {lineOf : α → Int} {a b : List α} {k : Int}
    (ha : ∀ x ∈ a, lineOf x < k) (hb : ∀ x ∈ b, k ≤ lineOf x) (p : Int → Prop)
    [DecidablePred p] :
    ((a ++ b).filter fun x => p (lineOf x) ∧ lineOf x < k) = a.filter (fun x => p (lineOf x)) ∧
      ((a ++ b).filter fun x => p (lineOf x) ∧ k ≤ lineOf x) =
        b.filter fun x => p (lineOf x) := by
  have hbefore {l : List α} (hl : ∀ x ∈ l, lineOf x < k) :
      (l.filter fun x => p (lineOf x) ∧ lineOf x < k) = l.filter (fun x => p (lineOf x)) ∧
        (l.filter fun x => p (lineOf x) ∧ k ≤ lineOf x) = [] := by
    refine ⟨List.filter_congr fun x hx => decide_eq_decide.mpr (and_iff_left (hl x hx)),
      List.filter_eq_nil_iff.mpr fun x hx hin => ?_⟩
    have := (of_decide_eq_true hin).2
    have := hl x hx
    omega
  have hafter {l : List α} (hl : ∀ x ∈ l, k ≤ lineOf x) :
      (l.filter fun x => p (lineOf x) ∧ lineOf x < k) = [] ∧
        (l.filter fun x => p (lineOf x) ∧ k ≤ lineOf x) = l.filter fun x => p (lineOf x) := by
    refine ⟨List.filter_eq_nil_iff.mpr fun x hx hin => ?_,
      List.filter_congr fun x hx => decide_eq_decide.mpr (and_iff_left (hl x hx))⟩
    have := (of_decide_eq_true hin).2
    have := hl x hx
    omega
  rw [List.filter_append, List.filter_append, (hbefore ha).1, (hbefore ha).2, (hafter hb).1,
    (hafter hb).2]
  exact ⟨List.append_nil _, rfl⟩

namespace Heading

/-- What a scan finds is written in the same way whatever number it starts from. -/
theorem map_written_ofLines (fence : Fence) (number number' : Int) (lines : List Text) :
    (ofLines fence number lines).map written = (ofLines fence number' lines).map written := by
  have hmoved := ofLines_add fence number' (number - number') lines
  rw [show number' + (number - number') = number by omega] at hmoved
  rw [hmoved, List.map_map]
  rfl

/-- The headings of kept lines are written as they were. -/
theorem map_written_keep {out : Nat → Bool} {before : Bool} {fence : Fence} {number : Nat}
    {lines : List Text} (h : Turns out before fence number lines)
    (hfence : lines ≠ [] → before = false → fence = {}) (number' : Int) :
    (ofLines {} number' (keep out number lines)).map written =
      ((ofLines fence number lines).filter fun h => !out h.line.toNat).map written := by
  cases lines with
  | nil => rfl
  | cons line rest =>
    have hstate : {} = if before then {} else fence := by
      cases before with
      | true => rfl
      | false => exact (hfence (by simp) rfl).symm
    rw [map_written_ofLines {} number' (number - outBefore out number), ofLines_keep h hstate,
      List.map_map]
    rfl

/-- Lines are cut in two at a heading, or at the end. If what is left out of them is put there, all
headings are written as they were. -/
theorem map_written_rearranged {out : Nat → Bool} {front back : List Text}
    (hkept : Turns out false {} 0 (front ++ back))
    (hleft : Turns (fun k => !out k) true {} 0 (front ++ back))
    (hclosed : ({} : Fence).afterLines (front ++ back) = {})
    (hplace : back ≠ [] → ∃ h ∈ ofLines {} 0 (front ++ back), h.line = front.length) :
    let hs := ofLines {} 0 (front ++ back)
    (ofLines {} 0 (keep out 0 front ++ keep (fun k => !out k) 0 (front ++ back) ++
        keep out front.length back)).map written =
      (hs.filter fun h => out h.line.toNat = false ∧ h.line < (front.length : Int)).map written ++
        (hs.filter fun h => out h.line.toNat = true).map written ++
        (hs.filter fun h =>
          out h.line.toNat = false ∧ (front.length : Int) ≤ h.line).map written := by
  intro hs
  obtain ⟨hnormal, hback⟩ := hkept.drop (by simpa using hplace) false
  rw [Nat.zero_add] at hback
  have hopened : ({} : Fence).afterLines front = {} := by
    by_cases hne : back = []
    · rwa [hne, List.append_nil] at hclosed
    · exact hnormal hne
  -- The three parts are scanned one after another, each from outside of code.
  have hfrontState : ({} : Fence).afterLines (keep out 0 front) = {} :=
    afterLines_keep hkept.take rfl hopened
  have hleftState : ({} : Fence).afterLines (keep (fun k => !out k) 0 (front ++ back)) = {} :=
    afterLines_keep hleft rfl hclosed
  have hhs : hs = ofLines {} 0 front ++ ofLines (({} : Fence).afterLines front) front.length back := by
    have happend := ofLines_append {} 0 front back
    rwa [Int.zero_add] at happend
  obtain ⟨hbefore, hafter⟩ := filter_append_of_line (k := (front.length : Int))
    (fun h (hh : h ∈ ofLines {} 0 front) => by have := line_of_mem_ofLines hh; omega)
    (fun h (hh : h ∈ ofLines (({} : Fence).afterLines front) front.length back) =>
      (line_of_mem_ofLines hh).1)
    fun k => out k.toNat = false
  have hkeeps : (fun h : Heading => decide (out h.line.toNat = false)) =
      fun h => !out h.line.toNat := by
    funext h
    cases out h.line.toNat <;> rfl
  have hleaves : (fun h : Heading => decide (out h.line.toNat = true)) =
      fun h => !!out h.line.toNat := by
    funext h
    cases out h.line.toNat <;> rfl
  rw [hhs, hbefore, hafter, ← hhs, hkeeps, hleaves, ofLines_append, ofLines_append,
    Fence.afterLines_append, hfrontState, hleftState, List.map_append, List.map_append,
    map_written_keep hkept.take fun _ _ => rfl, map_written_keep hleft fun _ _ => rfl,
    map_written_keep hback fun h _ => hnormal h]
  rfl

end Heading

/-! ## The headings of a text with moved blocks -/

/-- The headings before a line that lie in none of some blocks, those that lie in one, and the other
ones. -/
def rearranged (ordered ns : List Node) (line : Nat) : List Node :=
  (ordered.filter fun n => ¬ Covered ordered ns n.line ∧ n.line < (line : Int)) ++
    (ordered.filter fun n => Covered ordered ns n.line) ++
    ordered.filter fun n => ¬ Covered ordered ns n.line ∧ (line : Int) ≤ n.line

theorem join_keep_append_empty {out : Nat → Bool} {number : Nat} {ls after : List Line}
    (hafter : ∀ l ∈ after, l = ⟨[], .none⟩) :
    Line.join (keep out number (ls ++ after)) = Line.join (keep out number ls) := by
  have hempty : Line.join (keep out (number + ls.length) after) = [] := by
    refine List.flatMap_eq_nil_iff.mpr fun l hl => ?_
    rw [hafter l (mem_of_mem_keep hl)]
    rfl
  rw [keep_append, Line.join_append, hempty, List.append_nil]

section Lines

variable {lines : List Text} (hlines : d.lines = lines ++ [[]])

include hlines

theorem ofDocument_eq_ofLines : Heading.ofDocument d = Heading.ofLines {} 0 lines := by
  show Heading.ofLines {} 0 d.lines = _
  rw [hlines, Heading.ofLines_append, Heading.ofLines_emptyLine, List.append_nil]

variable (hns : ∀ n ∈ ns, n ∈ (ofDocument d).ordered)

include hns

/-- Blocks begin and end at headings. -/
theorem turns_deletedLine : Heading.Turns (deletedLine d ns) false {} 0 lines ∧
    Heading.Turns (fun k => !deletedLine d ns k) true {} 0 lines := by
  have hsound : ({} : Fence).Sound := fun _ => rfl
  have hfeed : ∀ l ∈ lines, '\n' ∉ l := by
    intro l hl
    have hmem : l ∈ Line.contents d.text := by
      show l ∈ d.lines
      rw [hlines]
      exact List.mem_append_left _ hl
    exact Line.lineFeed_not_mem_of_mem_contents hmem
  have hzero (hout : deletedLine d ns 0 = true) :
      ∃ g ∈ Heading.ofLines {} 0 lines, g.line = ((0 : Nat) : Int) := by
    rw [← ofDocument_eq_ofLines hlines]
    exact exists_of_deletedLine_zero hns hout
  have hturn (k : Nat) (hne : deletedLine d ns (k + 1) ≠ deletedLine d ns k) :
      ∃ g ∈ Heading.ofLines {} 0 lines, g.line = (k + 1 : Nat) := by
    rw [← ofDocument_eq_ofLines hlines]
    exact exists_of_deletedLine_ne hns hne
  exact ⟨⟨hsound, hfeed, fun _ hne => hzero (by simpa using hne), fun k _ _ hne => hturn k hne⟩,
    hsound, hfeed, fun _ hne => hzero (by simpa using hne),
    fun k _ _ hne => hturn k fun heq => hne (by rw [heq])⟩

end Lines

section Moved

variable (hend : Text.endsWith ['\n'] d.text = true)
  (hns : ∀ n ∈ ns, n ∈ (ofDocument d).ordered) (hapart : Apart (ofDocument d).ordered ns)
  (h : MovedBefore d (ofDocument d).ordered ns line t)

include hend hns hapart h

/-- The lines of the text are those before the line that are in no block, those of the blocks, and
the other ones. The empty line at the end stays there. -/
theorem exists_contents_movedBefore : ∃ lines, d.lines = lines ++ [[]] ∧
    Line.contents t = keep (deletedLine d ns) 0 (lines.take line) ++
      keep (fun k => !deletedLine d ns k) 0 lines ++
      keep (deletedLine d ns) line (lines.drop line) ++ [[]] := by
  obtain ⟨ls, hsplit, hended⟩ := Line.exists_ofText_of_endsWith hend
  have hlast {l : Line} (hl : l ∈ [(⟨[], .none⟩ : Line)]) : l = ⟨[], .none⟩ :=
    List.mem_singleton.mp hl
  have htext : t = Line.join (keep (deletedLine d ns) 0 (ls.take line) ++
      keep (fun k => !deletedLine d ns k) 0 ls ++
      keep (deletedLine d ns) line (ls.drop line)) := by
    rw [h.text, flatMap_blockText (isOrdered d) hns hapart, hsplit, List.take_append,
      List.drop_append, join_keep_append_empty fun l hl => hlast (List.take_subset _ _ hl),
      join_keep_append_empty fun l hl => hlast hl,
      join_keep_append_empty fun l hl => hlast (List.drop_subset _ _ hl), Line.join_append,
      Line.join_append]
    rfl
  have hended' : ∀ l ∈ keep (deletedLine d ns) 0 (ls.take line) ++
      keep (fun k => !deletedLine d ns k) 0 ls ++
      keep (deletedLine d ns) line (ls.drop line), l.IsEnded := by
    intro l hl
    refine hended l ?_
    rw [List.mem_append, List.mem_append] at hl
    rcases hl with (hl | hl) | hl
    · exact List.take_subset _ _ (mem_of_mem_keep hl)
    · exact mem_of_mem_keep hl
    · exact List.drop_subset _ _ (mem_of_mem_keep hl)
  have hof := Line.ofText_join_append hended' []
  rw [List.append_nil, ← htext] at hof
  refine ⟨ls.map Line.content, ?_, ?_⟩
  · rw [Document.lines, Line.contents, hsplit, List.map_append]
    rfl
  · rw [Line.contents, hof, ← List.map_take, ← List.map_drop, keep_map, keep_map, keep_map,
      List.map_append, List.map_append, List.map_append]
    rfl

/-- Blocks that are moved to a heading, or to the end, leave all headings in the text as they are
written. -/
theorem map_written_movedBefore
    (hclosed : (({} : Fence).afterLines d.lines).inside = false)
    (hline : (∃ g ∈ Heading.ofDocument d, g.line = line) ∨ d.lineCount ≤ line) :
    (Heading.ofText t).map Heading.written =
      (rearranged (ofDocument d).ordered ns line).map Node.written := by
  obtain ⟨lines, hlines, hcontents⟩ := exists_contents_movedBefore hend hns hapart h
  have hscan := ofDocument_eq_ofLines hlines
  obtain ⟨hkept, hleft⟩ := turns_deletedLine hlines hns
  have hall : ({} : Fence).afterLines lines = {} := by
    rw [hlines, Fence.afterLines_concat_nil Fence.genuine_initial] at hclosed
    exact hkept.sound.afterLines lines hclosed
  have hcount : d.lineCount = lines.length + 1 := by
    rw [Document.lineCount, hlines, List.length_append, List.length_singleton]
  -- The place is that of a line, or the end.
  have hlength : (lines.take line).length = min line lines.length := List.length_take
  have hplace (hne : lines.drop line ≠ []) :
      ∃ g ∈ Heading.ofLines {} 0 lines, g.line = (lines.take line).length := by
    have hlt : line < lines.length := by
      simpa using hne
    rw [← hscan, hlength, Nat.min_eq_left hlt.le]
    exact hline.resolve_right (by omega)
  have hnumber : keep (deletedLine d ns) line (lines.drop line) =
      keep (deletedLine d ns) (lines.take line).length (lines.drop line) := by
    rcases Nat.lt_or_ge line lines.length with hlt | hge
    · rw [hlength, Nat.min_eq_left hlt.le]
    · rw [List.drop_eq_nil_of_le hge]
      rfl
  have hsplit : lines.take line ++ lines.drop line = lines := List.take_append_drop line lines
  have hparts := Heading.map_written_rearranged (by rwa [hsplit]) (by rwa [hsplit])
    (by rwa [hsplit]) (by rwa [hsplit])
  simp only [hsplit] at hparts
  have hnodes (p : Int → Prop) [DecidablePred p] {q : Heading → Bool}
      (hq : ∀ g ∈ Heading.ofLines {} 0 lines, q g = decide (p g.line)) :
      ((Heading.ofLines {} 0 lines).filter q).map Heading.written =
        ((ofDocument d).ordered.filter fun n => p n.line).map Node.written := by
    rw [Outline.map_written_filter d fun k => decide (p k), hscan, List.filter_congr hq]
  rw [Heading.ofText, hcontents, Heading.ofLines_append, Heading.ofLines_emptyLine,
    List.append_nil, hnumber, hparts, rearranged, List.map_append, List.map_append]
  have hcovered {g : Heading} (hg : g ∈ Heading.ofLines {} 0 lines) :
      deletedLine d ns g.line.toNat = decide (Covered (ofDocument d).ordered ns g.line) := by
    rw [deletedLine, Int.toNat_of_nonneg (Heading.line_of_mem_ofLines hg).1]
  refine congrArg₂ _ (congrArg₂ _ ?_ ?_) ?_
  · refine hnodes (fun k => ¬ Covered (ofDocument d).ordered ns k ∧ k < line) fun g hg => ?_
    have := Heading.line_of_mem_ofLines hg
    rw [hcovered hg, decide_eq_decide, decide_eq_false_iff_not, hlength]
    exact and_congr_right fun _ => by omega
  · exact hnodes (fun k => Covered (ofDocument d).ordered ns k) fun g hg => by
      rw [hcovered hg, Bool.decide_eq_true]
  · refine hnodes (fun k => ¬ Covered (ofDocument d).ordered ns k ∧ (line : Int) ≤ k) fun g hg => ?_
    have := Heading.line_of_mem_ofLines hg
    rw [hcovered hg, decide_eq_decide, decide_eq_false_iff_not, hlength]
    exact and_congr_right fun _ => by omega

end Moved

end TaggedOutline
