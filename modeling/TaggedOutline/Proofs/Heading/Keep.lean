import TaggedOutline.Proofs.Document.Keep
import TaggedOutline.Proofs.Heading.Scan

/-!
# The headings of kept lines

Outside of code there is only one fence state (`Fence.Sound`), and a heading is read in it. So if
lines are left out in runs that begin and end at headings, the scan is in the same state before
each kept line as it was, and finds the same headings further up (`ofLines_keep`).
-/

namespace TaggedOutline

/-! ## Fence states -/

/-- Outside of code nothing is remembered of a fence. -/
def Fence.Sound (fence : Fence) : Prop := fence.inside = false → fence = {}

theorem Fence.Sound.step {fence : Fence} (h : fence.Sound) (line : Text) :
    (fence.step line).2.Sound := by
  unfold Fence.step
  split
  · next hinside =>
    unfold Fence.tryClose
    split
    · split
      · exact fun _ => rfl
      · exact h
    · exact h
  · unfold Fence.tryOpen
    split
    · exact h
    · split
      · exact fun hf => absurd hf (by simp)
      · exact h

theorem Fence.Sound.afterLines {fence : Fence} (h : fence.Sound) (lines : List Text) :
    (fence.afterLines lines).Sound := by
  induction lines generalizing fence with
  | nil => exact h
  | cons line rest ih => exact ih (h.step line)

namespace Heading

/-! ## Other numbers -/

/-- The heading on a line that comes `n` lines earlier. -/
def movedUp (h : Heading) (n : Int) : Heading :=
  { h with
    line := h.line - n
    range := ⟨⟨h.range.start.line - n, h.range.start.character⟩,
      ⟨h.range.stop.line - n, h.range.stop.character⟩⟩ }

theorem ofLine?_sub (line : Text) (number n : Int) :
    ofLine? line (number - n) = (ofLine? line number).map (·.movedUp n) := by
  unfold ofLine?
  split
  · rfl
  · split
    · simp only
      split
      · rfl
      · rfl
    · rfl

theorem read?_sub (fence : Fence) (line : Text) (number n : Int) :
    read? fence (number - n) line = (read? fence number line).map (·.movedUp n) := by
  unfold read?
  split
  · rfl
  · exact ofLine?_sub line number n

/-! ## Kept lines -/

/-- A heading on the first line has no code before it and none after it. -/
theorem outside_of_line_eq {fence : Fence} {number : Int} {line : Text} {rest : List Text}
    {h : Heading} (hsound : fence.Sound) (hn : '\n' ∉ line)
    (hh : h ∈ ofLines fence number (line :: rest)) (hnumber : h.line = number) :
    fence = {} ∧ (fence.step line).2 = {} := by
  rcases mem_ofLines_cons.mp hh with hr | hr
  · obtain ⟨hinside, hstep⟩ := step_of_read? hn hr
    exact ⟨hsound hinside, by rw [hstep]; exact hsound hinside⟩
  · have := line_of_mem_ofLines hr
    omega

theorem toNat_line_of_mem_read? {fence : Fence} {number : Nat} {line : Text} {h : Heading}
    (hh : h ∈ (read? fence number line).toList) : h.line.toNat = number := by
  rw [line_of_read? (Option.mem_toList.mp hh), Int.toNat_natCast]

/-- Lines are left out in runs that begin and end at headings. The line in front of them is left out
or not, as `before` tells. -/
structure Turns (out : Nat → Bool) (before : Bool) (fence : Fence) (number : Nat)
    (lines : List Text) : Prop where
  sound : fence.Sound
  lineFeed : ∀ line ∈ lines, '\n' ∉ line
  first : lines ≠ [] → out number ≠ before → ∃ h ∈ ofLines fence number lines, h.line = number
  turn : ∀ k : Nat, number ≤ k → k + 1 < number + lines.length → out (k + 1) ≠ out k →
    ∃ h ∈ ofLines fence number lines, h.line = (k + 1 : Nat)

namespace Turns

variable {out : Nat → Bool} {before : Bool} {fence fence' : Fence} {number : Nat} {line : Text}
  {lines rest : List Text}

theorem tail (h : Turns out before fence number (line :: rest)) :
    Turns out (out number) (fence.step line).2 (number + 1) rest := by
  refine ⟨h.sound.step line, fun l hl => h.lineFeed l (List.mem_cons_of_mem line hl),
    fun hne hturn => ?_, fun k hk hlt hturn => ?_⟩
  · have hpos := List.length_pos_of_ne_nil hne
    obtain ⟨g, hg, hnumber⟩ := h.turn number (Nat.le_refl _)
      (by rw [List.length_cons]; omega) hturn
    exact ⟨g, mem_ofLines_of_lt hg (by omega), hnumber⟩
  · obtain ⟨g, hg, hnumber⟩ := h.turn k (Nat.le_of_succ_le hk)
      (by rw [List.length_cons]; omega) hturn
    exact ⟨g, mem_ofLines_of_lt hg (by omega), hnumber⟩

/-- Where a run of lines that are left out begins or ends there is a heading, outside of code. So
the scan of the kept lines is in the state of the whole scan where a line is kept. -/
theorem fence_eq (h : Turns out before fence number (line :: rest))
    (hfence : fence' = if before then {} else fence) :
    fence' = if out number then {} else fence := by
  by_cases hsame : out number = before
  · rw [hsame, hfence]
  · obtain ⟨g, hg, hnumber⟩ := h.first (by simp) hsame
    have hempty := (outside_of_line_eq h.sound (h.lineFeed line List.mem_cons_self) hg hnumber).1
    rw [hfence, hempty, ite_self, ite_self]

theorem take {a b : List Text} (h : Turns out before fence number (a ++ b)) :
    Turns out before fence number a := by
  have hin {g : Heading} (hg : g ∈ ofLines fence number (a ++ b))
      (hlt : g.line < number + a.length) : g ∈ ofLines fence number a := by
    rw [ofLines_append] at hg
    refine (List.mem_append.mp hg).resolve_right fun hg => ?_
    have := line_of_mem_ofLines hg
    omega
  refine ⟨h.sound, fun l hl => h.lineFeed l (List.mem_append_left b hl), fun hne hturn => ?_,
    fun k hk hlt hturn => ?_⟩
  · have hpos := List.length_pos_of_ne_nil hne
    obtain ⟨g, hg, hnumber⟩ := h.first (by simp [hne]) hturn
    exact ⟨g, hin hg (by omega), hnumber⟩
  · obtain ⟨g, hg, hnumber⟩ := h.turn k hk (by rw [List.length_append]; omega) hturn
    exact ⟨g, hin hg (by omega), hnumber⟩

/-- Lines that begin at a heading begin outside of code. -/
theorem drop {a b : List Text} (h : Turns out before fence number (a ++ b))
    (hfirst : b ≠ [] → ∃ g ∈ ofLines fence number (a ++ b), g.line = (number + a.length : Nat))
    (before' : Bool) :
    (b ≠ [] → fence.afterLines a = {}) ∧
      Turns out before' (fence.afterLines a) (number + a.length) b := by
  have hin {g : Heading} (hg : g ∈ ofLines fence number (a ++ b))
      (hle : ((number + a.length : Nat) : Int) ≤ g.line) :
      g ∈ ofLines (fence.afterLines a) (number + a.length : Nat) b := by
    rw [ofLines_append] at hg
    rw [Int.natCast_add]
    refine (List.mem_append.mp hg).resolve_left fun hg => ?_
    have := line_of_mem_ofLines hg
    omega
  have hlines (l : Text) (hl : l ∈ b) := h.lineFeed l (List.mem_append_right a hl)
  have hsound := h.sound.afterLines a
  refine ⟨fun hne => ?_, hsound, hlines, fun hne _ => ?_, fun k hk hlt hturn => ?_⟩
  · obtain ⟨g, hg, hnumber⟩ := hfirst hne
    obtain ⟨line, rest, rfl⟩ := List.exists_cons_of_ne_nil hne
    exact (outside_of_line_eq hsound (hlines line List.mem_cons_self)
      (hin hg (Int.le_of_eq hnumber.symm)) hnumber).1
  · obtain ⟨g, hg, hnumber⟩ := hfirst hne
    exact ⟨g, hin hg (Int.le_of_eq hnumber.symm), hnumber⟩
  · obtain ⟨g, hg, hnumber⟩ := h.turn k (by omega) (by rw [List.length_append]; omega) hturn
    exact ⟨g, hin hg (by omega), hnumber⟩

end Turns

/-- Leaving out runs of lines that begin and end at headings leaves the other headings. -/
theorem ofLines_keep {out : Nat → Bool} {before : Bool} {fence fence' : Fence} {number : Nat}
    {lines : List Text} (h : Turns out before fence number lines)
    (hfence : fence' = if before then {} else fence) :
    ofLines fence' (number - outBefore out number) (keep out number lines) =
      ((ofLines fence number lines).filter fun h => !out h.line.toNat).map fun h =>
        h.movedUp (outBefore out h.line.toNat) := by
  induction lines generalizing fence fence' number before with
  | nil => rfl
  | cons line rest ih =>
    have hstate := h.fence_eq hfence
    have hlater := ih h.tail rfl
    rw [Int.natCast_succ, outBefore_succ] at hlater
    rw [keep_cons, ofLines_cons fence, List.filter_append, List.map_append, ← hlater]
    cases hnumber : out number with
    | true =>
      have hnone : (read? fence number line).toList.filter (fun h => !out h.line.toNat) = [] := by
        rw [List.filter_eq_nil_iff]
        intro g hg
        rw [toNat_line_of_mem_read? hg, hnumber]
        simp
      rw [hnone, hstate, hnumber, if_pos rfl, if_pos rfl, if_pos rfl, List.map_nil,
        List.nil_append]
      congr 1
      rw [if_pos rfl]
      omega
    | false =>
      have hall : (read? fence number line).toList.filter (fun h => !out h.line.toNat) =
          (read? fence number line).toList := by
        rw [List.filter_eq_self]
        intro g hg
        rw [toNat_line_of_mem_read? hg, hnumber]
        rfl
      rw [hall, hstate, hnumber, if_neg (by simp), if_neg (by simp), if_neg (by simp), ofLines_cons,
        read?_sub]
      congr 1
      · cases hr : read? fence number line with
        | none => rfl
        | some g =>
          have := toNat_line_of_mem_read? (Option.mem_toList.mpr hr)
          simp [this]
      · congr 1
        rw [if_neg (by simp)]
        omega

/-- Lines that are closed as to code are so without runs of lines that begin and end at
headings. -/
theorem afterLines_keep {out : Nat → Bool} {before : Bool} {fence fence' : Fence} {number : Nat}
    {lines : List Text} (h : Turns out before fence number lines)
    (hfence : fence' = if before then {} else fence) (hclosed : fence.afterLines lines = {}) :
    fence'.afterLines (keep out number lines) = {} := by
  induction lines generalizing fence fence' number before with
  | nil =>
    obtain rfl : fence = {} := hclosed
    rw [hfence, ite_self]
    rfl
  | cons line rest ih =>
    have hlater := ih h.tail rfl hclosed
    rw [keep_cons, h.fence_eq hfence]
    cases hnumber : out number with
    | true => rwa [hnumber] at hlater
    | false => rwa [hnumber] at hlater

theorem ofLines_emptyLine (fence : Fence) (number : Int) : ofLines fence number [[]] = [] := by
  have hnone : read? fence number [] = none := by
    unfold read?
    split
    · rfl
    · rfl
  rw [ofLines_cons, hnone]
  rfl

/-- Leaving out lines of a text that begin and end at headings leaves the other headings. -/
theorem ofText_join_keep {out : Nat → Bool} {t : Text}
    (hfirst : out 0 = true → ∃ h ∈ ofText t, h.line = 0)
    (hout : ∀ k : Nat, out (k + 1) ≠ out k → ∃ h ∈ ofText t, h.line = (k + 1 : Nat)) :
    ofText (Line.join (keep out 0 (Line.ofText t))) =
      ((ofText t).filter fun h => !out h.line.toNat).map fun h =>
        h.movedUp (outBefore out h.line.toNat) := by
  have hturns : Turns out false {} 0 (Line.contents t) :=
    ⟨fun _ => rfl, fun line => Line.lineFeed_not_mem_of_mem_contents,
      fun _ hne => hfirst (by simpa using hne), fun k _ _ hne => hout k hne⟩
  have hscan : ofLines {} 0 (keep out 0 (Line.contents t)) =
      ((ofText t).filter fun h => !out h.line.toNat).map fun h =>
        h.movedUp (outBefore out h.line.toNat) :=
    ofLines_keep hturns rfl
  rw [← hscan, ofText]
  unfold Line.contents
  rcases Line.ofText_join_keep out t with h | h
  · rw [h, keep_map]
  · rw [h, List.map_append, ofLines_append, keep_map]
    exact (congrArg _ (ofLines_emptyLine _ _)).trans (List.append_nil _)

end Heading

end TaggedOutline
