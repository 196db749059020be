import TaggedOutline.Heading.Fence
import TaggedOutline.Proofs.Document.Feed

/-!
# Fences and the ends of lines

A scan only comes to states of which the region was opened by a fence (`Genuine`). From such a state
a carriage return at the end of a line has no effect (`step_withoutReturn`), nor has an empty line.
A line that begins with a number sign opens no region (`opening?_of_trim`).
-/

namespace TaggedOutline

theorem Text.isBlank_return : Text.isBlank '\r' = true := rfl

theorem Text.isBlank_of_mem_return {c : Char} (h : c ∈ ['\r']) : Text.isBlank c = true := by
  rw [List.mem_singleton.mp h]
  rfl

namespace Fence

/-! ## States -/

/-- A state that a scan comes to: inside of a code region there is a fence that opened it. -/
def Genuine (fence : Fence) : Prop :=
  fence.inside = true →
    ∃ c, fence.marker = some c ∧ (c = '\x60' ∨ c = '~') ∧ 3 ≤ fence.length

theorem genuine_initial : ({} : Fence).Genuine := fun h => absurd h (by simp)

theorem opening?_spec {line : Text} {c : Char} {n : Nat} (h : opening? line = some (c, n)) :
    (c = '\x60' ∨ c = '~') ∧ 3 ≤ n := by
  unfold opening? at h
  split at h
  · exact absurd h (by simp)
  · next c' r _ =>
    split at h
    · next hc =>
      simp only at h
      split at h
      · exact absurd h (by simp)
      · next hn =>
        obtain ⟨rfl, rfl⟩ := Prod.mk.inj (Option.some.inj h)
        exact ⟨hc, by omega⟩
    · exact absurd h (by simp)

variable {fence : Fence}

theorem Genuine.step (h : fence.Genuine) (line : Text) : (fence.step line).2.Genuine := by
  unfold Fence.step
  split
  · unfold Fence.tryClose
    split
    · split
      · exact genuine_initial
      · exact h
    · exact h
  · unfold Fence.tryOpen
    split
    · exact h
    · split
      · next c n hopen =>
        obtain ⟨hc, hn⟩ := opening?_spec hopen
        exact fun _ => ⟨c, rfl, hc, Int.ofNat_le.mpr hn⟩
      · exact h

theorem Genuine.afterLines (h : fence.Genuine) (lines : List Text) :
    (fence.afterLines lines).Genuine := by
  induction lines generalizing fence with
  | nil => exact h
  | cons line rest ih => exact ih (h.step line)

/-! ## Carriage returns at the ends of lines -/

theorem dropSpaces_concat_return (n : Nat) (t : Text) :
    dropSpaces n (t ++ ['\r']) = dropSpaces n t ++ ['\r'] := by
  fun_induction dropSpaces n t with
  | case1 n r ih => exact ih
  | case2 n t hne =>
    cases n with
    | zero => rfl
    | succ n => cases t with
      | nil => rfl
      | cons c r =>
        have hc : c ≠ ' ' := fun e => hne n r rfl (by rw [e])
        simp [dropSpaces, hc]

theorem dropQuotes_go_concat_return (n : Nat) (t : Text) :
    dropQuotes.go n (t ++ ['\r']) = dropQuotes.go n t ++ ['\r'] := by
  induction n generalizing t with
  | zero => rfl
  | succ n ih =>
    cases t with
    | nil => rfl
    | cons c r =>
      by_cases hc : c = '>'
      · subst hc
        show dropQuotes.go n ((r ++ ['\r']).dropWhile (· = ' ')) =
          dropQuotes.go n (r.dropWhile (· = ' ')) ++ ['\r']
        rw [← ih, List.dropWhile_append]
        cases hr : r.dropWhile (· = ' ') with
        | nil => rfl
        | cons x s => rfl
      · simp [dropQuotes.go, hc]

/-- A text has no more markers than characters. -/
theorem dropQuotes_go_succ {n : Nat} {t : Text} (h : t.length ≤ n) :
    dropQuotes.go (n + 1) t = dropQuotes.go n t := by
  induction n generalizing t with
  | zero =>
    obtain rfl := List.length_eq_zero_iff.mp (Nat.le_zero.mp h)
    rfl
  | succ n ih =>
    cases t with
    | nil => rfl
    | cons c r =>
      by_cases hc : c = '>'
      · subst hc
        refine ih ?_
        have := (List.dropWhile_sublist (l := r) fun c => decide (c = ' ')).length_le
        rw [List.length_cons] at h
        omega
      · simp [dropQuotes.go, hc]

theorem bare_concat_return (line : Text) : bare (line ++ ['\r']) = bare line ++ ['\r'] := by
  unfold bare
  rw [dropSpaces_concat_return, dropQuotes, dropQuotes, dropQuotes_go_concat_return,
    List.length_append, List.length_singleton, dropQuotes_go_succ (Nat.le_refl _)]

theorem runLength_concat_return {c : Char} (hc : c ≠ '\r') (t : Text) :
    runLength c (t ++ ['\r']) = runLength c t := by
  unfold runLength
  rw [List.takeWhile_append]
  split
  · have hr : ['\r'].takeWhile (· = c) = [] := by
      rw [List.takeWhile_cons_of_neg]
      simpa using Ne.symm hc
    rw [hr, List.append_nil]
    next h => rw [h]
  · rfl

theorem opening?_concat_return (line : Text) : opening? (line ++ ['\r']) = opening? line := by
  unfold opening?
  rw [bare_concat_return]
  cases bare line with
  | nil => rfl
  | cons c r =>
    rw [List.cons_append]
    by_cases hc : c = '\x60' ∨ c = '~'
    · have hne : c ≠ '\r' := by
        rintro rfl
        exact absurd hc (by decide)
      have hrun := runLength_concat_return hne (c :: r)
      rw [List.cons_append] at hrun
      simp only [hrun]
    · simp only [if_neg hc]

theorem closes_concat_return {c : Char} (hc : c ≠ '\r') (length : Int) (line : Text) :
    closes c length (line ++ ['\r']) = closes c length line := by
  have hle : runLength c (bare line) ≤ (bare line).length :=
    (List.takeWhile_sublist _).length_le
  unfold closes
  simp only [bare_concat_return, runLength_concat_return hc, List.drop_append_of_le_length hle]
  simp [Text.isBlankText, Text.isBlank_return]

/-- A carriage return at the end of a line has no effect on the fences. -/
theorem step_withoutReturn (h : fence.Genuine) (line : Text) :
    fence.step (Line.withoutReturn line) = fence.step line := by
  rcases Line.withoutReturn_cases line with he | he
  · rw [he]
  · conv_rhs => rw [he]
    unfold Fence.step
    split
    · next hinside =>
      obtain ⟨c, hmarker, hc, -⟩ := h hinside
      have hne : c ≠ '\r' := by
        rintro rfl
        exact absurd hc (by decide)
      simp only [tryClose, hinside, hmarker, closes_concat_return hne]
    · next hinside =>
      simp only [tryOpen, hinside, opening?_concat_return]

theorem afterLines_withoutReturn (h : fence.Genuine) (lines : List Text) :
    fence.afterLines (lines.map Line.withoutReturn) = fence.afterLines lines := by
  induction lines generalizing fence with
  | nil => rfl
  | cons line rest ih =>
    show (fence.step (Line.withoutReturn line)).2.afterLines _ = (fence.step line).2.afterLines _
    rw [step_withoutReturn h, ih (h.step line)]

/-! ## Lines that open nothing -/

/-- The blanks before a number sign are spaces up to another blank or up to the number sign. -/
theorem exists_dropSpaces_eq (n : Nat) {blanks : Text} (h : ∀ c ∈ blanks, Text.isBlank c) (r : Text) :
    ∃ c t, dropSpaces n (blanks ++ '#' :: r) = c :: t ∧ (Text.isBlank c ∨ c = '#') := by
  induction n generalizing blanks with
  | zero => cases blanks with
    | nil => exact ⟨'#', r, rfl, .inr rfl⟩
    | cons c blanks => exact ⟨c, blanks ++ '#' :: r, rfl, .inl (h c List.mem_cons_self)⟩
  | succ n ih => cases blanks with
    | nil => exact ⟨'#', r, rfl, .inr rfl⟩
    | cons c blanks =>
      by_cases hc : c = ' '
      · subst hc
        exact ih fun x hx => h x (List.mem_cons_of_mem _ hx)
      · refine ⟨c, blanks ++ '#' :: r, ?_, .inl (h c List.mem_cons_self)⟩
        simp [dropSpaces, hc]

/-- A text whose first character other than a blank is a number sign opens no code region. -/
theorem opening?_of_trim {line : Text} (h : ∃ r, Text.trim line = '#' :: r) :
    opening? line = none := by
  obtain ⟨r, hr⟩ := h
  obtain ⟨blanks, hline, hblanks⟩ := Text.exists_append_trimStart line
  obtain ⟨s, hs⟩ : ∃ s, Text.trimStart line = '#' :: s := by
    obtain ⟨t, ht⟩ := Text.trimEnd_isPrefix (Text.trimStart line)
    refine ⟨r ++ t, ?_⟩
    rw [← ht, show Text.trimEnd (Text.trimStart line) = '#' :: r from hr]
    rfl
  rw [hs] at hline
  obtain ⟨c, t, hdrop, hc⟩ := exists_dropSpaces_eq 3 hblanks s
  have hquote : c ≠ '>' := by rintro rfl; exact absurd hc (by decide)
  have hfence : ¬ (c = '\x60' ∨ c = '~') := by
    rintro (rfl | rfl)
    · exact absurd hc (by decide)
    · exact absurd hc (by decide)
  have hbare : bare line = c :: t := by
    rw [bare, hline, hdrop, dropQuotes, List.length_cons, dropQuotes.go]
    rintro - r - h
    exact hquote (List.cons.inj h).1
  rw [opening?, hbare]
  exact if_neg hfence

/-! ## Empty lines -/

/-- An empty line neither opens a code region nor closes one. -/
theorem step_nil (h : fence.Genuine) : fence.step [] = (fence.inside, fence) := by
  unfold Fence.step
  split
  · next hinside =>
    obtain ⟨c, hmarker, -, hlength⟩ := h hinside
    have hopen : closes c fence.length [] = false := by
      refine Bool.and_eq_false_imp.mpr fun hle => ?_
      have : fence.length ≤ 0 := of_decide_eq_true hle
      omega
    simp [tryClose, hinside, hmarker, hopen]
  · next hinside =>
    have hinside : fence.inside = false := by simpa using hinside
    rw [tryOpen, if_neg (by simp [hinside]), hinside]
    rfl

theorem afterLines_append (a b : List Text) :
    fence.afterLines (a ++ b) = (fence.afterLines a).afterLines b := List.foldl_append

theorem afterLines_replicate_nil (h : fence.Genuine) (k : Nat) :
    fence.afterLines (List.replicate k []) = fence := by
  induction k with
  | zero => rfl
  | succ k ih =>
    show (fence.step []).2.afterLines (List.replicate k []) = fence
    rw [step_nil h, ih]

theorem afterLines_append_replicate_nil (h : fence.Genuine) (lines : List Text) (k : Nat) :
    fence.afterLines (lines ++ List.replicate k []) = fence.afterLines lines := by
  rw [afterLines_append, afterLines_replicate_nil (h.afterLines lines)]

theorem afterLines_concat_nil (h : fence.Genuine) (lines : List Text) :
    fence.afterLines (lines ++ [[]]) = fence.afterLines lines :=
  afterLines_append_replicate_nil h lines 1

/-- The end of the last line of a text has no effect on the fences. -/
theorem afterLines_fed (h : fence.Genuine) (t : Text) :
    fence.afterLines (Line.fed t) = fence.afterLines (Line.contents t) := by
  obtain ⟨front, last, hcontents, hfed⟩ := Line.exists_fed_eq t
  rw [hcontents, hfed, afterLines_append, afterLines_append]
  exact congrArg Prod.snd (step_withoutReturn (h.afterLines front) last)

end Fence

end TaggedOutline
