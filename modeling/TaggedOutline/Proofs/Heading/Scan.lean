import Mathlib.Data.List.Nodup
import TaggedOutline.Heading.Scan
import TaggedOutline.Proofs.Document.Line
import TaggedOutline.Proofs.Heading.Line

/-!
# The scan for headings

The headings of some lines are those of the first lines, followed by those of the rest in the fence
state that the first lines lead to (`ofLines_append`). They come in line order, each from its own
line, and a line that a heading is read from is outside of code and opens none. So lines of
headings can be changed into lines of other headings without an effect on the rest of the scan
(`ofLines_mapLines`).
-/

namespace TaggedOutline.Heading

variable {fence : Fence} {number : Int} {lines : List Text} {h : Heading}

/-- The heading that a scan reads from a line. -/
def read? (fence : Fence) (number : Int) (line : Text) : Option Heading :=
  if (fence.step line).1 then none else ofLine? line number

/-- A scan takes one line at a time. -/
theorem ofLines_cons (fence : Fence) (number : Int) (line : Text) (rest : List Text) :
    ofLines fence number (line :: rest) =
      (read? fence number line).toList ++ ofLines (fence.step line).2 (number + 1) rest := by
  rw [ofLines, read?]
  simp only
  split
  · rfl
  · split
    · next hg => rw [hg]; rfl
    · next hg => rw [hg]; rfl

theorem mem_ofLines_cons {line : Text} {rest : List Text} :
    h ∈ ofLines fence number (line :: rest) ↔
      read? fence number line = some h ∨ h ∈ ofLines (fence.step line).2 (number + 1) rest := by
  rw [ofLines_cons, List.mem_append, Option.mem_toList]

theorem ofLines_append (fence : Fence) (number : Int) (a b : List Text) :
    ofLines fence number (a ++ b) =
      ofLines fence number a ++ ofLines (fence.afterLines a) (number + a.length) b := by
  induction a generalizing fence number with
  | nil =>
    rw [List.nil_append, List.length_nil, Int.ofNat_zero, Int.add_zero]
    rfl
  | cons line rest ih =>
    have hn : number + ((line :: rest).length : Int) = number + 1 + rest.length := by
      rw [List.length_cons]
      omega
    rw [List.cons_append, ofLines_cons, ofLines_cons, ih, hn, List.append_assoc]
    rfl

/-! ## Lines -/

theorem line_of_ofLine? {line : Text} (h' : ofLine? line number = some h) : h.line = number := by
  obtain ⟨markup, level, raw, -, -, rfl⟩ := ofLine?_eq_some_iff.mp h'
  rfl

theorem range_of_ofLine? {line : Text} (h' : ofLine? line number = some h) :
    h.range = Range.ofLine number line.length := by
  obtain ⟨markup, level, raw, -, -, rfl⟩ := ofLine?_eq_some_iff.mp h'
  rfl

theorem ofLine?_of_read? {line : Text} (h' : read? fence number line = some h) :
    ofLine? line number = some h := by
  unfold read? at h'
  split at h'
  · exact absurd h' (by simp)
  · exact h'

theorem line_of_read? {line : Text} (h' : read? fence number line = some h) : h.line = number :=
  line_of_ofLine? (ofLine?_of_read? h')

theorem line_of_mem_ofLines (h' : h ∈ ofLines fence number lines) :
    number ≤ h.line ∧ h.line < number + lines.length := by
  induction lines generalizing fence number with
  | nil => exact absurd h' (by simp [ofLines])
  | cons line rest ih =>
    rw [List.length_cons]
    rcases mem_ofLines_cons.mp h' with hr | hr
    · rw [line_of_read? hr]
      omega
    · have := ih hr
      omega

/-- A heading on a later line is found in the rest of the scan. -/
theorem mem_ofLines_of_lt {line : Text} {rest : List Text}
    (h' : h ∈ ofLines fence number (line :: rest)) (hlt : number < h.line) :
    h ∈ ofLines (fence.step line).2 (number + 1) rest := by
  rcases mem_ofLines_cons.mp h' with hr | hr
  · have := line_of_read? hr
    omega
  · exact hr

/-- Items in the order of their lines have distinct ones. -/
theorem nodup_map_line {α : Type} {line : α → Int} {l : List α}
    (hl : l.Pairwise (line · < line ·)) : (l.map line).Nodup :=
  List.pairwise_map.mpr (hl.imp fun hlt => by omega)

theorem nodup_of_lines {α : Type} {line : α → Int} {l : List α}
    (hl : l.Pairwise (line · < line ·)) : l.Nodup :=
  (nodup_map_line hl).of_map

/-- Items in the order of their lines are told apart by these. -/
theorem eq_of_line_eq {α : Type} {line : α → Int} {l : List α} {a b : α}
    (hl : l.Pairwise (line · < line ·)) (ha : a ∈ l) (hb : b ∈ l) (h : line a = line b) : a = b :=
  List.inj_on_of_nodup_map (nodup_map_line hl) ha hb h

/-- An item is found by its line, if no other item is on that line. -/
theorem find?_line {α : Type} {line : α → Int} {l : List α} {a : α} (hl : (l.map line).Nodup)
    (ha : a ∈ l) : l.find? (line · = line a) = some a := by
  have hsome : (l.find? (line · = line a)).isSome :=
    List.find?_isSome.mpr ⟨a, ha, decide_eq_true rfl⟩
  obtain ⟨b, hb⟩ := Option.isSome_iff_exists.mp hsome
  have hline : line b = line a := by simpa using List.find?_some hb
  rw [hb, List.inj_on_of_nodup_map hl (List.mem_of_find?_eq_some hb) ha hline]

/-- Sorting by lines gives the order of the lines. -/
theorem pairwise_mergeSort_line {α : Type} (line : α → Int) (l : List α) :
    (l.mergeSort fun a b => decide (line a ≤ line b)).Pairwise (line · ≤ line ·) := by
  have htrans (a b c : α) (hab : decide (line a ≤ line b) = true)
      (hbc : decide (line b ≤ line c) = true) : decide (line a ≤ line c) = true := by
    rw [decide_eq_true_eq] at *
    omega
  have htotal (a b : α) : (decide (line a ≤ line b) || decide (line b ≤ line a)) = true := by
    rw [Bool.or_eq_true, decide_eq_true_eq, decide_eq_true_eq]
    omega
  exact (List.pairwise_mergeSort htrans htotal l).imp of_decide_eq_true

/-- The headings come in line order. -/
theorem ofLines_pairwise_line (fence : Fence) (number : Int) (lines : List Text) :
    (ofLines fence number lines).Pairwise (·.line < ·.line) := by
  induction lines generalizing fence number with
  | nil => exact List.Pairwise.nil
  | cons line rest ih =>
    rw [ofLines_cons]
    refine List.pairwise_append.mpr ⟨?_, ih _ _, fun x hx y hy => ?_⟩
    · cases read? fence number line with
      | none => exact List.Pairwise.nil
      | some g => exact List.pairwise_singleton _ g
    · have hline := line_of_read? (Option.mem_toList.mp hx)
      have := line_of_mem_ofLines hy
      omega

theorem ofText_pairwise_line (t : Text) : (ofText t).Pairwise (·.line < ·.line) :=
  ofLines_pairwise_line {} 0 (Line.contents t)

/-- Each heading is read from its own line. -/
theorem exists_line_of_mem_ofLines (h' : h ∈ ofLines fence number lines) :
    ∃ line, lines[(h.line - number).toNat]? = some line ∧ ofLine? line h.line = some h := by
  induction lines generalizing fence number with
  | nil => exact absurd h' (by simp [ofLines])
  | cons line rest ih =>
    rcases mem_ofLines_cons.mp h' with hr | hr
    · have hread := ofLine?_of_read? hr
      have hline := line_of_ofLine? hread
      refine ⟨line, ?_, ?_⟩
      · rw [hline, Int.sub_self]
        rfl
      · rw [hline]
        exact hread
    · obtain ⟨l, hl, hh⟩ := ih hr
      have := line_of_mem_ofLines hr
      refine ⟨l, ?_, hh⟩
      rw [show (h.line - number).toNat = (h.line - (number + 1)).toNat + 1 by omega,
        List.getElem?_cons_succ]
      exact hl

/-- Each heading of a text is read from its own line. -/
theorem exists_line_of_mem_ofText {t : Text} (h' : h ∈ ofText t) :
    ∃ line, (Line.contents t)[h.line.toNat]? = some line ∧ ofLine? line h.line = some h := by
  have hline := exists_line_of_mem_ofLines h'
  rwa [Int.sub_zero] at hline

/-- A heading of a text is read from the line of its number. -/
theorem ofLine?_of_mem_ofText {t line : Text} {k : Nat} (h' : h ∈ ofText t) (hk : h.line = k)
    (hline : (Line.contents t)[k]? = some line) : ofLine? line h.line = some h := by
  obtain ⟨line', hline', hread⟩ := exists_line_of_mem_ofText h'
  rw [hk, Int.toNat_natCast, hline] at hline'
  rwa [Option.some.inj hline']

/-- A heading line starts with a sign. -/
theorem exists_cons_of_ofLine? {line : Text} (hn : '\n' ∉ line)
    (h' : ofLine? line number = some h) : ∃ c r, line = c :: r ∧ (c = '#' ∨ c = '=') := by
  obtain ⟨markup, level, raw, hs, -, -⟩ := ofLine?_eq_some_iff.mp h'
  cases markup with
  | markdown =>
    obtain ⟨h1, -, -, gap, -, -, rfl⟩ := (markdownTitle?_eq_some_iff hn).mp hs
    obtain ⟨k, rfl⟩ := Nat.exists_eq_add_of_le' h1
    exact ⟨'#', _, rfl, .inl rfl⟩
  | typst =>
    obtain ⟨h0, -, rfl⟩ := typstTitle?_eq_some_iff.mp hs.2
    obtain ⟨k, rfl⟩ := Nat.exists_eq_succ_of_ne_zero h0
    exact ⟨'=', _, rfl, .inr rfl⟩

/-! ## Fences -/

theorem Signed.opening?_eq_none {markup : Markup} {level : Nat} {line raw : Text}
    (hn : '\n' ∉ line) (hs : Signed markup level line raw) : Fence.opening? line = none := by
  have bare {c : Char} (hc : c = '#' ∨ c = '=') (k : Nat) (t : Text) :
      Fence.opening? (List.replicate (k + 1) c ++ t) = none := by
    rcases hc with rfl | rfl <;> rfl
  cases markup with
  | markdown =>
    obtain ⟨h1, -, -, gap, -, -, rfl⟩ := (markdownTitle?_eq_some_iff hn).mp hs
    obtain ⟨k, rfl⟩ := Nat.exists_eq_add_of_le' h1
    exact bare (.inl rfl) k _
  | typst =>
    obtain ⟨h0, -, rfl⟩ := typstTitle?_eq_some_iff.mp hs.2
    obtain ⟨k, rfl⟩ := Nat.exists_eq_succ_of_ne_zero h0
    exact bare (.inr rfl) k _

/-- A heading line opens no code region. -/
theorem opening?_of_ofLine? {line : Text} (hn : '\n' ∉ line) (h' : ofLine? line number = some h) :
    Fence.opening? line = none := by
  obtain ⟨markup, level, raw, hs, -, -⟩ := ofLine?_eq_some_iff.mp h'
  exact hs.opening?_eq_none hn

theorem step_of_opening? {line : Text} (hf : fence.inside = false)
    (ho : Fence.opening? line = none) : fence.step line = (false, fence) := by
  rw [Fence.step, hf, if_neg (by simp), Fence.tryOpen, hf, if_neg (by simp), ho]

/-- A heading is read outside of code, and its line leaves the fence state as it is. -/
theorem step_of_read? {line : Text} (hn : '\n' ∉ line) (h' : read? fence number line = some h) :
    fence.inside = false ∧ fence.step line = (false, fence) := by
  have ho := opening?_of_ofLine? hn (ofLine?_of_read? h')
  have hf : fence.inside = false := by
    by_contra hf
    have hcode : (fence.step line).1 = true := by
      rw [Fence.step, if_pos (by simpa using hf)]
    rw [read?, if_pos hcode] at h'
    exact absurd h' (by simp)
  exact ⟨hf, step_of_opening? hf ho⟩

/-- The line of another heading is read in the same place. -/
theorem read?_of_ofLine? {line line' : Text} {h' : Heading} (hn : '\n' ∉ line)
    (hr : read? fence number line = some h) (hn' : '\n' ∉ line')
    (hl : ofLine? line' number = some h') :
    read? fence number line' = some h' ∧ fence.step line' = fence.step line := by
  obtain ⟨hf, hs⟩ := step_of_read? hn hr
  have hs' := step_of_opening? hf (opening?_of_ofLine? hn' hl)
  refine ⟨?_, by rw [hs, hs']⟩
  rw [read?, hs']
  exact hl

/-! ## Changed lines -/

/-- The lines, numbered from `number`, each changed by what `change` has for its number. -/
def mapLines (change : Int → Text → Text) (number : Int) : List Text → List Text
  | [] => []
  | line :: rest => change number line :: mapLines change (number + 1) rest

/-- Where heading lines are changed into lines of other headings and no other line is changed, the
other headings are found in place of the former. -/
theorem ofLines_mapLines {change : Int → Text → Text} {new : Heading → Heading}
    (hlines : ∀ line ∈ lines, '\n' ∉ line)
    (hother : ∀ k, number ≤ k → (∀ h ∈ ofLines fence number lines, h.line ≠ k) → change k = id)
    (hnew : ∀ h ∈ ofLines fence number lines, ∀ line,
      lines[(h.line - number).toNat]? = some line → ofLine? line h.line = some h →
      ofLine? (change h.line line) h.line = some (new h) ∧ '\n' ∉ change h.line line) :
    ofLines fence number (mapLines change number lines) =
      (ofLines fence number lines).map new := by
  induction lines generalizing fence number with
  | nil => rfl
  | cons line rest ih =>
    have hline := hlines line List.mem_cons_self
    have later : ofLines (fence.step line).2 (number + 1) (mapLines change (number + 1) rest) =
        (ofLines (fence.step line).2 (number + 1) rest).map new := by
      refine ih (fun l hl => hlines l (List.mem_cons_of_mem line hl))
        (fun k hk hno => hother k (by omega) fun h hh hkh => ?_) fun h hh l hl => ?_
      · rcases mem_ofLines_cons.mp hh with hr | hr
        · have := line_of_read? hr
          omega
        · exact hno h hr hkh
      · have := line_of_mem_ofLines hh
        refine hnew h (mem_ofLines_cons.mpr (.inr hh)) l ?_
        rw [show (h.line - number).toNat = (h.line - (number + 1)).toNat + 1 by omega,
          List.getElem?_cons_succ]
        exact hl
    rw [mapLines, ofLines_cons, ofLines_cons, List.map_append]
    cases hread : read? fence number line with
    | none =>
      have hsame : change number = id := by
        refine hother number (Int.le_refl number) fun h hh => ?_
        rcases mem_ofLines_cons.mp hh with hr | hr
        · exact absurd hr (by simp [hread])
        · have := line_of_mem_ofLines hr
          omega
      rw [hsame, id, hread, later]
      rfl
    | some g =>
      have hg := line_of_read? hread
      obtain ⟨hchanged, hfeed⟩ := hnew g (mem_ofLines_cons.mpr (.inl hread)) line
        (by rw [hg, Int.sub_self]; rfl) (by rw [hg]; exact ofLine?_of_read? hread)
      rw [hg] at hchanged hfeed
      obtain ⟨hread', hstep⟩ := read?_of_ofLine? hline hread hfeed hchanged
      rw [hread', hstep, later]
      rfl

end TaggedOutline.Heading
