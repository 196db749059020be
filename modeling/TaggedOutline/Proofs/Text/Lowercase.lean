import TaggedOutline.Proofs.Text.Basic
import TaggedOutline.Text.Lowercase

/-!
# Texts in lower case

A character has no lower case of its own, or is the dotted capital I, or lies in one of the runs of
capitals (`lowerChar_cases`). No lower-case character is mapped further: the image of each run lies
apart from all runs (`all_isApart`). So a text in lower case (`isUnmapped_of_mem_lowerAfter`) stays as
it is (`lowerAfter_of_isUnmapped`). No word goes across a hyphen, so the parts of a text between
hyphens are lowercased one by one (`lower_joinWith`).
-/

namespace TaggedOutline.Text

variable {c : Char} {n : Nat} {run other : CaseRun}

/-! ## Runs -/

/-- The dotted capital I, which has a lower case of its own, among the runs. -/
def mappedRuns : List CaseRun := ⟨0x130, 0x130, 1, 0⟩ :: caseRuns

/-- Whether a code point is in lower case, or has none. -/
def isUnmapped (n : Nat) : Bool := mappedRuns.all (¬ ·.covers n)

/-- Whether the lower case of a run lies in front of another run, behind it or in its gaps. -/
def CaseRun.isApart (run other : CaseRun) : Bool :=
  let first := (run.first + run.distance).toNat
  let last := (run.last + run.distance).toNat
  last.blt other.first || (other.last.blt first ||
    (run.step == 2 || run.first == run.last) && other.step == 2 && Nat.blt 0 first &&
      (first + other.first) % 2 == 1)

theorem CaseRun.not_covers_of_isApart (hapart : run.isApart other) (hn : run.covers n) :
    other.covers (n + run.distance).toNat = false := by
  unfold covers at hn ⊢
  unfold isApart at hapart
  simp only [Bool.or_eq_true, Bool.and_eq_true, decide_eq_true_eq, beq_iff_eq, Nat.blt_eq]
    at hapart hn
  rw [Bool.eq_false_iff]
  intro hcovers
  simp only [Bool.and_eq_true, decide_eq_true_eq, beq_iff_eq] at hcovers
  obtain ⟨⟨hfirst, hlast⟩, hstep⟩ := hn
  obtain ⟨⟨hfirst', hlast'⟩, hstep'⟩ := hcovers
  rcases hapart with hbefore | hbehind | ⟨⟨⟨hstep₂ | hsingle, hother⟩, hpos⟩, hparity⟩
  · omega
  · omega
  · rw [hstep₂] at hstep
    rw [hother] at hstep'
    omega
  · rw [hother] at hstep'
    omega

theorem all_isApart : (caseRuns.all fun run => mappedRuns.all (run.isApart ·)) = true := by
  decide +kernel

/-- The lower case of a capital is not mapped further. -/
theorem isUnmapped_of_covers (hrun : run ∈ caseRuns) (hn : run.covers n) :
    isUnmapped (n + run.distance).toNat := by
  refine List.all_eq_true.mpr fun other hother => ?_
  have hapart := List.all_eq_true.mp (List.all_eq_true.mp all_isApart run hrun) other hother
  simpa using CaseRun.not_covers_of_isApart hapart hn

/-! ## Characters -/

theorem isUnmapped_toNat_ofNat (h : isUnmapped n) : isUnmapped (Char.ofNat n).toNat := by
  unfold Char.ofNat
  by_cases hvalid : n.isValidChar
  · rw [dif_pos hvalid, show (Char.ofNatAux n hvalid).toNat = n from rfl]
    exact h
  · rw [dif_neg hvalid]
    decide

theorem isUnmapped_ascii (hn : n < 0x80) (hcapital : ¬(0x41 ≤ n ∧ n ≤ 0x5a)) : isUnmapped n := by
  have hruns : ∀ run ∈ mappedRuns, 0x80 ≤ run.first ∨ run.first = 0x41 ∧ run.last = 0x5a := by
    decide +kernel
  refine List.all_eq_true.mpr fun run hrun => ?_
  simp only [CaseRun.covers, Bool.and_eq_true, decide_eq_true_eq]
  rcases hruns run hrun with hfirst | ⟨hfirst, hlast⟩
  · omega
  · omega

/-- A character is in lower case or has none, or it is the dotted capital I, or it is a capital of
one of the runs. -/
theorem lowerChar_cases (c : Char) :
    isUnmapped c.toNat = true ∧ lowerChar c = [c] ∨ lowerChar c = ['i', '\u0307'] ∨
      ∃ run ∈ caseRuns, run.covers c.toNat = true ∧
        lowerChar c = [Char.ofNat (c.toNat + run.distance).toNat] := by
  unfold lowerChar
  simp only
  split
  · next hascii =>
    split
    · next hcapital =>
      simp only [Bool.and_eq_true, decide_eq_true_eq] at hcapital
      refine .inr (.inr ⟨⟨0x41, 0x5a, 1, 32⟩, List.mem_cons_self, ?_, rfl⟩)
      simpa [CaseRun.covers, Nat.mod_one] using hcapital
    · next hcapital =>
      refine .inl ⟨isUnmapped_ascii hascii ?_, rfl⟩
      simpa using hcapital
  · split
    · exact .inr (.inl rfl)
    · next hdotted =>
      split
      · next run hfind =>
        have hcovers : run.covers c.toNat = true := by simpa using List.find?_some hfind
        exact .inr (.inr ⟨run, List.mem_of_find?_eq_some hfind, hcovers, rfl⟩)
      · next hfind =>
        refine .inl ⟨List.all_eq_true.mpr fun run hrun => ?_, rfl⟩
        rcases List.mem_cons.mp hrun with rfl | hrun
        · have hne : c.toNat ≠ 0x130 := by simpa using hdotted
          simp only [CaseRun.covers, Bool.and_eq_true, decide_eq_true_eq]
          omega
        · simpa using List.find?_eq_none.mp hfind run hrun

theorem isUnmapped_of_mem_lowerChar {c' : Char} (h : c' ∈ lowerChar c) : isUnmapped c'.toNat := by
  rcases lowerChar_cases c with ⟨hc, hlower⟩ | hlower | ⟨run, hrun, hcovers, hlower⟩
  · rw [hlower, List.mem_singleton] at h
    rwa [h]
  · rw [hlower, List.mem_cons, List.mem_singleton] at h
    rcases h with rfl | rfl
    · decide
    · decide
  · rw [hlower, List.mem_singleton] at h
    rw [h]
    exact isUnmapped_toNat_ofNat (isUnmapped_of_covers hrun hcovers)

theorem lowerChar_of_isUnmapped (h : isUnmapped c.toNat) : lowerChar c = [c] := by
  have hnone {run : CaseRun} (hrun : run ∈ mappedRuns) : run.covers c.toNat = false := by
    simpa using List.all_eq_true.mp h run hrun
  unfold lowerChar
  simp only
  split
  · have hcapital := hnone (List.mem_cons_of_mem _ (List.mem_cons_self : _ ∈ caseRuns))
    rw [if_neg]
    simpa [CaseRun.covers, Nat.mod_one] using hcapital
  · rw [if_neg, List.find?_eq_none.mpr fun run hrun => ?_]
    · simpa using hnone (List.mem_cons_of_mem _ hrun)
    · intro hdotted
      have hfirst := hnone (List.mem_cons_self : _ ∈ mappedRuns)
      rw [beq_iff_eq.mp hdotted] at hfirst
      exact absurd hfirst (by decide)

/-! ## Texts -/

/-- What holds of the lower case of each character, and of the two small sigmas, holds of all
characters in lower case. -/
theorem forall_mem_lowerAfter {p : Char → Prop} {before t : Text}
    (hsigma : p '\u03c2' ∧ p '\u03c3') (h : ∀ c ∈ t, ∀ c' ∈ lowerChar c, p c') :
    ∀ c ∈ lowerAfter before t, p c := by
  induction t generalizing before with
  | nil => simp [lowerAfter]
  | cons a t ih =>
    obtain ⟨ha, ht⟩ := List.forall_mem_cons.mp h
    intro c hc
    rw [lowerAfter] at hc
    rcases List.mem_append.mp hc with hc | hc
    · split at hc
      · obtain rfl := List.mem_singleton.mp hc
        split
        · exact hsigma.1
        · exact hsigma.2
      · exact ha c hc
    · exact ih ht c hc

theorem isUnmapped_of_mem_lowerAfter {before t : Text} (h : c ∈ lowerAfter before t) :
    isUnmapped c.toNat :=
  forall_mem_lowerAfter (p := (isUnmapped ·.toNat)) ⟨by decide, by decide⟩
    (fun _ _ _ => isUnmapped_of_mem_lowerChar) c h

theorem lowerAfter_of_isUnmapped {t : Text} (h : ∀ c ∈ t, isUnmapped c.toNat) (before : Text) :
    lowerAfter before t = t := by
  induction t generalizing before with
  | nil => rfl
  | cons c t ih =>
    obtain ⟨hc, ht⟩ := List.forall_mem_cons.mp h
    have hsigma : ¬(c == '\u03a3') = true := by
      intro he
      rw [beq_iff_eq.mp he] at hc
      exact absurd hc (by decide)
    rw [lowerAfter, if_neg hsigma, lowerChar_of_isUnmapped hc, ih ht]
    rfl

/-! ## Words and hyphens -/

theorem lowerChar_ne_nil (c : Char) : lowerChar c ≠ [] := by
  rcases lowerChar_cases c with ⟨-, hlower⟩ | hlower | ⟨run, -, -, hlower⟩
  · rw [hlower]
    exact List.cons_ne_nil _ _
  · rw [hlower]
    exact List.cons_ne_nil _ _
  · rw [hlower]
    exact List.cons_ne_nil _ _

theorem lower_ne_nil {t : Text} (h : t ≠ []) : lower t ≠ [] := by
  cases t with
  | nil => exact absurd rfl h
  | cons c t =>
    rw [lower, lowerAfter]
    refine List.append_ne_nil_of_left_ne_nil ?_ _
    split
    · exact List.cons_ne_nil _ _
    · exact lowerChar_ne_nil c

theorem meetsCased_cons (c : Char) (t : Text) :
    meetsCased (c :: t) = if inRanges c.toNat caselessRanges then meetsCased t
      else inRanges c.toNat casedRanges := by
  rw [meetsCased, List.dropWhile_cons]
  by_cases hc : inRanges c.toNat caselessRanges = true
  · rw [if_pos hc, if_pos hc, meetsCased]
  · rw [if_neg hc, if_neg hc]

/-- Whether a letter is met is settled before a hyphen. -/
theorem meetsCased_append_hyphen (t u : Text) : meetsCased (t ++ '-' :: u) = meetsCased t := by
  induction t with
  | nil =>
    have hstays : inRanges '-'.toNat caselessRanges = false := by decide +kernel
    have hcaseless : inRanges '-'.toNat casedRanges = false := by decide +kernel
    rw [List.nil_append, meetsCased_cons, hstays, hcaseless]
    rfl
  | cons c t ih => rw [List.cons_append, meetsCased_cons, meetsCased_cons, ih]

/-- What precedes a hyphen makes no difference to what follows it. -/
theorem lowerAfter_after_hyphen (near far t : Text) :
    lowerAfter (near ++ '-' :: far) t = lowerAfter near t := by
  induction t generalizing near with
  | nil => rfl
  | cons c t ih =>
    rw [lowerAfter, lowerAfter, meetsCased_append_hyphen, ← List.cons_append, ih]

/-- The parts on both sides of a hyphen are lowercased each for itself. -/
theorem lowerAfter_append_hyphen (before t u : Text) :
    lowerAfter before (t ++ '-' :: u) = lowerAfter before t ++ '-' :: lower u := by
  induction t generalizing before with
  | nil =>
    have hu : lowerAfter ('-' :: before) u = lower u := lowerAfter_after_hyphen [] before u
    show '-' :: lowerAfter ('-' :: before) u = '-' :: lower u
    rw [hu]
  | cons c t ih =>
    rw [List.cons_append, lowerAfter, lowerAfter, meetsCased_append_hyphen, ih, List.append_assoc]

theorem lower_joinWith (ps : List Text) :
    lower (joinWith ['-'] ps) = joinWith ['-'] (ps.map lower) := by
  induction ps with
  | nil => rfl
  | cons p ps ih =>
    cases ps with
    | nil => rfl
    | cons q ps =>
      have hrest := lowerAfter_append_hyphen [] p (joinWith ['-'] (q :: ps))
      rw [ih] at hrest
      rw [List.map_cons, List.map_cons, joinWith_cons_cons, joinWith_cons_cons]
      exact hrest

end TaggedOutline.Text
