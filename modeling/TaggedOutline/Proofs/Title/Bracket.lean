import Mathlib.Order.Nat
import Mathlib.Order.Bounds.Basic
import TaggedOutline.Proofs.Title.Link

/-!
# Balanced brackets

The search for the closer of a bracket reads forward and steps over a backslash together with the
character after it, whereas a character is escaped by an odd number of backslashes before it.

1. The search never stands at an escaped character, and an opener is open or comes next
   (`Searching`). A step keeps this, be it over one character (`Searching.succ`) or over a backslash
   and the character after it (`Searching.skip`).
2. A step changes the depth by the brackets it passes, so that the offsets at which all brackets
   are balanced stay the same (`balances_succ_iff`).
3. By induction along the search it ends at the first of these offsets (`finds_closingLength?`).
   From an opener on this is the first offset up to which openers and closers are equal in number
   (`closingLength?_iff_isLeast`).
-/

namespace TaggedOutline.Title

variable {t r : Text} {i j k depth stop : Nat} {c opener closer : Char}

/-! ## Counting brackets -/

/-- How many of the characters from `start` to before `stop` are `c` and not escaped. -/
def countUnescaped (t : Text) (c : Char) (start stop : Nat) : Nat :=
  (List.range' start (stop - start)).countP fun i => t[i]? = some c && !isEscaped t i

theorem countUnescaped_append (t : Text) (c : Char) (hij : i ≤ j) (hjk : j ≤ k) :
    countUnescaped t c i k = countUnescaped t c i j + countUnescaped t c j k := by
  have hrange : List.range' i (k - i) = List.range' i (j - i) ++ List.range' j (k - j) := by
    rw [show k - i = (j - i) + (k - j) by omega, ← List.range'_append_1, Nat.add_sub_cancel' hij]
  rw [countUnescaped, hrange, List.countP_append]
  rfl

theorem countUnescaped_single (t : Text) (c : Char) (i : Nat) :
    countUnescaped t c i (i + 1) = if t[i]? = some c ∧ isEscaped t i = false then 1 else 0 := by
  rw [countUnescaped, Nat.add_sub_cancel_left, List.range'_one, List.countP_singleton]
  simp

theorem countUnescaped_of_length_le (c : Char) (h : t.length ≤ i) :
    countUnescaped t c i stop = 0 := by
  refine List.countP_eq_zero.mpr fun j hj => ?_
  have hij : i ≤ j := (List.mem_range'_1.mp hj).1
  simp [List.getElem?_eq_none (h.trans hij)]

/-- With `depth` brackets open before `i`, all brackets are balanced at `stop`. -/
def Balances (opener closer : Char) (t : Text) (depth i stop : Nat) : Prop :=
  i < stop ∧ countUnescaped t closer i stop = depth + countUnescaped t opener i stop

/-- The brackets of a character may be added to the depth instead, as long as something is open
after it. -/
theorem balances_succ_iff {depth' : Nat} (hpos : 0 < depth')
    (hdepth : countUnescaped t closer i (i + 1) + depth' =
      depth + countUnescaped t opener i (i + 1)) :
    Balances opener closer t depth i stop ↔ Balances opener closer t depth' (i + 1) stop := by
  unfold Balances
  rcases Nat.lt_trichotomy stop (i + 1) with hlt | rfl | hlt
  · exact iff_of_false (fun h => by omega) fun h => by omega
  · -- Right after the character something is still open.
    exact iff_of_false (fun h => by omega) fun h => by omega
  · rw [countUnescaped_append t closer (Nat.le_add_right i 1) hlt.le,
      countUnescaped_append t opener (Nat.le_add_right i 1) hlt.le]
    omega

/-! ## The search -/

/-- What the search for a closer keeps: the next character is not escaped, and an opener is open or
comes next. -/
structure Searching (opener : Char) (t : Text) (depth i : Nat) : Prop where
  unescaped : i < t.length → isEscaped t i = false
  opens : depth = 0 → t[i]? = some opener

namespace Searching

theorem depth_pos (h : Searching opener t depth i) (hget : t[i]? ≠ some opener) : 0 < depth :=
  Nat.pos_of_ne_zero fun hzero => hget (h.opens hzero)

/-- A step over one character, which is no backslash unless it is the last one. -/
theorem succ {depth' : Nat} (hget : t[i]? = some c) (hlast : c = '\\' → t.length ≤ i + 1)
    (hpos : 0 < depth') : Searching opener t depth' (i + 1) where
  unescaped hlt := by
    have hc : c ≠ '\\' := fun hc => Nat.not_lt.mpr (hlast hc) hlt
    rw [isEscaped_succ hget, decide_eq_false hc, Bool.false_and]
  opens hzero := absurd hzero (Nat.ne_of_gt hpos)

/-- A step over a backslash and the character after it. -/
theorem skip (h : Searching opener t depth i) (hslash : t[i]? = some '\\')
    (hget : t[i + 1]? = some c) (hpos : 0 < depth) :
    isEscaped t (i + 1) = true ∧ Searching opener t depth (i + 2) := by
  have hi : isEscaped t i = false := h.unescaped (List.getElem?_eq_some_iff.mp hslash).1
  have hescaped : isEscaped t (i + 1) = true := by rw [isEscaped_succ hslash, hi]; rfl
  refine ⟨hescaped, fun _ => ?_, fun hzero => absurd hzero (Nat.ne_of_gt hpos)⟩
  rw [isEscaped_succ hget, hescaped, Bool.not_true, Bool.and_false]

/-- Where the search stands a character is counted by its kind alone. -/
theorem countUnescaped_next (h : Searching opener t depth i) (hget : t[i]? = some c) (b : Char) :
    countUnescaped t b i (i + 1) = if c = b then 1 else 0 := by
  rw [countUnescaped_single, hget, h.unescaped (List.getElem?_eq_some_iff.mp hget).1]
  simp

theorem balances_next_iff (h : Searching opener t depth i) (hget : t[i]? = some c) {depth' : Nat}
    (hpos : 0 < depth')
    (hdepth : (if c = closer then 1 else 0) + depth' = depth + if c = opener then 1 else 0)
    (stop : Nat) :
    Balances opener closer t depth i stop ↔ Balances opener closer t depth' (i + 1) stop :=
  balances_succ_iff hpos (by rwa [h.countUnescaped_next hget, h.countUnescaped_next hget])

/-- An escaped character is not counted. -/
theorem balances_skip_iff (h : Searching opener t depth i) (hslash : t[i]? = some '\\')
    (hget : t[i + 1]? = some c) (hpos : 0 < depth) (hopener : opener ≠ '\\')
    (hcloser : closer ≠ '\\') (stop : Nat) :
    Balances opener closer t depth i stop ↔ Balances opener closer t depth (i + 2) stop := by
  have hnone (b : Char) : countUnescaped t b (i + 1) (i + 2) = 0 := by
    rw [countUnescaped_single, (h.skip hslash hget hpos).1]
    simp
  calc Balances opener closer t depth i stop
    _ ↔ Balances opener closer t depth (i + 1) stop :=
      h.balances_next_iff hslash hpos (by rw [if_neg hcloser.symm, if_neg hopener.symm]; omega) stop
    _ ↔ Balances opener closer t depth (i + 2) stop :=
      balances_succ_iff hpos (by rw [hnone, hnone]; omega)

end Searching

theorem getElem?_of_drop (h : t.drop i = c :: r) : t[i]? = some c ∧ t.drop (i + 1) = r := by
  constructor
  · rw [← List.head?_drop, h]
    rfl
  · rw [← List.drop_drop, h]
    rfl

/-- The search from `i` on finds the first offset at which all brackets are balanced, if there is
one. -/
def Finds (opener closer : Char) (t : Text) (depth i : Nat) (found : Option Nat) : Prop :=
  ∀ stop, found.map (i + ·) = some stop ↔
    IsLeast {stop | Balances opener closer t depth i stop} stop

namespace Finds

variable {found : Option Nat}

/-- What is found after a step is what is found before it. -/
theorem of_step {depth' : Nat} (h : Finds opener closer t depth' (i + k) found)
    (hsame : ∀ stop,
      Balances opener closer t depth i stop ↔ Balances opener closer t depth' (i + k) stop) :
    Finds opener closer t depth i (found.map (· + k)) := by
  intro stop
  have hmap : (found.map (· + k)).map (i + ·) = found.map (i + k + ·) := by
    rw [Option.map_map]
    congr 1
    funext n
    show i + (n + k) = i + k + n
    omega
  rw [hmap, h stop]
  simp only [hsame]

theorem eq_none_iff (h : Finds opener closer t depth i found) :
    found = none ↔ ∀ stop, ¬ Balances opener closer t depth i stop := by
  constructor
  · rintro rfl stop hstop
    classical
    have hexists : ∃ stop, Balances opener closer t depth i stop := ⟨stop, hstop⟩
    have hfound := (h _).mpr (Nat.isLeast_find hexists)
    cases hfound
  · intro hnever
    by_contra hfound
    obtain ⟨n, rfl⟩ := Option.ne_none_iff_exists'.mp hfound
    exact hnever (i + n) ((h (i + n)).mp rfl).1

end Finds

/-- The search for a closer finds the first offset at which all brackets are balanced. -/
theorem finds_closingLength? (hne : opener ≠ closer) (hopener : opener ≠ '\\')
    (hcloser : closer ≠ '\\') (h : Searching opener t depth i) :
    Finds opener closer t depth i (closingLength? opener closer depth (t.drop i)) := by
  generalize hr : t.drop i = r
  fun_induction closingLength? opener closer depth r generalizing i with
  | case1 depth =>
    have hlength : t.length ≤ i := List.drop_eq_nil_iff.mp hr
    have hpos := h.depth_pos (by simp [List.getElem?_eq_none hlength])
    refine fun stop => iff_of_false (by simp) fun hleast => ?_
    have hbalanced := hleast.1.2
    rw [countUnescaped_of_length_le _ hlength, countUnescaped_of_length_le _ hlength] at hbalanced
    omega
  | case2 depth x r ih =>
    obtain ⟨hslash, hr⟩ := getElem?_of_drop hr
    obtain ⟨hget, hr⟩ := getElem?_of_drop hr
    have hpos := h.depth_pos (by rw [hslash]; simpa using hopener.symm)
    have hfinds := ih (h.skip hslash hget hpos).2 hr
    exact hfinds.of_step (h.balances_skip_iff hslash hget hpos hopener hcloser)
  | case3 depth r _ ih =>
    obtain ⟨hget, hr⟩ := getElem?_of_drop hr
    have hpos : 0 < depth + 1 := Nat.succ_pos depth
    have hfinds := ih (.succ hget (fun hc => absurd hc hopener) hpos) hr
    exact hfinds.of_step (h.balances_next_iff hget hpos (by rw [if_neg hne, if_pos rfl]; omega))
  | case4 depth r _ _ hdepth =>
    obtain ⟨hget, -⟩ := getElem?_of_drop hr
    have hpos := h.depth_pos (by rw [hget]; simpa using hne.symm)
    have hleast : IsLeast {stop | Balances opener closer t depth i stop} (i + 1) := by
      refine ⟨⟨Nat.lt_succ_self i, ?_⟩, fun stop hstop => hstop.1⟩
      rw [h.countUnescaped_next hget, h.countUnescaped_next hget, if_pos rfl, if_neg hne.symm]
      omega
    intro stop
    rw [Option.map_some, Option.some.injEq]
    exact ⟨fun hstop => hstop ▸ hleast, hleast.unique⟩
  | case5 depth r _ _ hdepth ih =>
    obtain ⟨hget, hr⟩ := getElem?_of_drop hr
    have hpos : 0 < depth - 1 := by omega
    have hfinds := ih (.succ hget (fun hc => absurd hc hcloser) hpos) hr
    exact hfinds.of_step
      (h.balances_next_iff hget hpos (by rw [if_pos rfl, if_neg hne.symm]; omega))
  | case6 depth x r hpair hopens hcloses ih =>
    obtain ⟨hget, hr⟩ := getElem?_of_drop hr
    have hpos := h.depth_pos (by rw [hget]; simpa using hopens)
    -- A backslash is met here only at the end of the text.
    have hlast (hx : x = '\\') : t.length ≤ i + 1 := by
      cases r with
      | nil => exact List.drop_eq_nil_iff.mp hr
      | cons y r => exact absurd rfl (hpair y r hx)
    have hfinds := ih (.succ hget hlast hpos) hr
    exact hfinds.of_step
      (h.balances_next_iff hget hpos (by rw [if_neg hcloses, if_neg hopens]; omega))

/-- The search for the closer of a bracket that is not escaped ends at the first offset up to which
the openers and closers that are not escaped are equal in number, and without a result iff there is
no such offset. -/
theorem closingLength?_iff_isLeast (t : Text) {start : Nat} {opener closer : Char}
    (hne : opener ≠ closer) (hopener : opener ≠ '\\') (hcloser : closer ≠ '\\')
    (hget : t[start]? = some opener) (hescaped : isEscaped t start = false) :
    (∀ stop, (closingLength? opener closer 0 (t.drop start)).map (start + ·) = some stop ↔
        IsLeast {stop | start < stop ∧
          countUnescaped t opener start stop = countUnescaped t closer start stop} stop) ∧
      (closingLength? opener closer 0 (t.drop start) = none ↔
        ∀ stop, start < stop →
          countUnescaped t opener start stop ≠ countUnescaped t closer start stop) := by
  have hbalances (stop : Nat) : Balances opener closer t 0 start stop ↔ start < stop ∧
      countUnescaped t opener start stop = countUnescaped t closer start stop := by
    rw [Balances, Nat.zero_add]
    exact and_congr_right fun _ => eq_comm
  have hsearching : Searching opener t 0 start := ⟨fun _ => hescaped, fun _ => hget⟩
  have hfinds := finds_closingLength? hne hopener hcloser hsearching
  constructor
  · simpa only [Finds, hbalances] using hfinds
  · simpa only [hbalances, not_and] using hfinds.eq_none_iff

/-- Brackets in brackets after runs of one, two and three backslashes, and a bracket that is left
open. -/
theorem closingLength?_iff_isLeast_escaped :
    let t := "\\\\[\\[ [a \\\\] \\\\\\] b] [\\".toList
    (t[2]? = some '[' ∧ isEscaped t 2 = false ∧
      IsLeast {stop | 2 < stop ∧ countUnescaped t '[' 2 stop = countUnescaped t ']' 2 stop} 20) ∧
    t[21]? = some '[' ∧ isEscaped t 21 = false ∧
      ∀ stop, 21 < stop → countUnescaped t '[' 21 stop ≠ countUnescaped t ']' 21 stop := by
  intro t
  have hget : t[2]? = some '[' := by decide
  have hescaped : isEscaped t 2 = false := by decide
  have hget' : t[21]? = some '[' := by decide
  have hescaped' : isEscaped t 21 = false := by decide
  have hne : '[' ≠ ']' := by decide
  have hclosed := closingLength?_iff_isLeast t hne (by decide) (by decide) hget hescaped
  have hopen := closingLength?_iff_isLeast t hne (by decide) (by decide) hget' hescaped'
  exact ⟨⟨hget, hescaped, (hclosed.1 20).mp (by decide)⟩, hget', hescaped',
    hopen.2.mp (by decide)⟩

end TaggedOutline.Title
