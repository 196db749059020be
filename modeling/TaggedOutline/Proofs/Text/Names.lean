import Mathlib.Data.List.Basic
import TaggedOutline.Text.Basic

/-!
# Lists of names

A list of names is made distinct by dropping all but the first occurrence of each
(`distinct_eq_eraseDups`, `firstOccurrences_distinct`). The order of names is total, so a sorted list
is determined by its members and how often each occurs (`sort_eq_of_perm`).
-/

namespace TaggedOutline.Text

/-! ## Distinct members -/

section Distinct

variable {α : Type} [DecidableEq α]

theorem mem_distinct {a : α} {l : List α} : a ∈ distinct l ↔ a ∈ l := by
  induction l with
  | nil => rfl
  | cons b l ih =>
    rw [distinct, List.mem_cons, List.mem_cons, List.mem_filter, ih]
    by_cases h : a = b <;> simp [h]

theorem nodup_distinct (l : List α) : (distinct l).Nodup := by
  induction l with
  | nil => exact List.nodup_nil
  | cons b l ih =>
    rw [distinct]
    exact List.nodup_cons.mpr ⟨by simp, ih.filter _⟩

theorem distinct_of_nodup {l : List α} (h : l.Nodup) : distinct l = l := by
  induction l with
  | nil => rfl
  | cons b l ih =>
    obtain ⟨hb, hl⟩ := List.nodup_cons.mp h
    rw [distinct, ih hl, List.filter_eq_self.mpr]
    exact fun a ha => decide_eq_true fun e => hb (e ▸ ha)

theorem distinct_eq_nil_iff {l : List α} : distinct l = [] ↔ l = [] := by
  cases l <;> simp [distinct]

/-- A function that tells the members apart can be applied before or after. -/
theorem distinct_map {β : Type} [DecidableEq β] {f : α → β} {l : List α}
    (h : ∀ a ∈ l, ∀ b ∈ l, f a = f b → a = b) : distinct (l.map f) = (distinct l).map f := by
  induction l with
  | nil => rfl
  | cons b l ih =>
    have hrest := ih fun a ha c hc => h a (List.mem_cons_of_mem b ha) c (List.mem_cons_of_mem b hc)
    rw [List.map_cons, distinct, distinct, List.map_cons, hrest, List.filter_map]
    refine congrArg (f b :: List.map f ·) (List.filter_congr fun a ha => decide_eq_decide.mpr ?_)
    have hmem : a ∈ b :: l := List.mem_cons_of_mem b (mem_distinct.mp ha)
    exact not_congr ⟨h a hmem b List.mem_cons_self, congrArg f⟩

theorem distinct_filter (p : α → Bool) (l : List α) :
    distinct (l.filter p) = (distinct l).filter p := by
  induction l with
  | nil => rfl
  | cons b l ih =>
    by_cases hb : p b
    · rw [List.filter_cons_of_pos hb, distinct, distinct, List.filter_cons_of_pos hb, ih,
        List.filter_filter, List.filter_filter]
      simp only [Bool.and_comm]
    · -- The dropped name is none that the filter keeps.
      rw [List.filter_cons_of_neg hb, distinct, List.filter_cons_of_neg hb, ih,
        List.filter_filter]
      refine List.filter_congr fun a _ => ?_
      by_cases ha : a = b
      · simp [ha, hb]
      · simp [ha]

/-- Of the same name again and again the first is left. -/
theorem distinct_append_of_forall {a : α} {l r : List α} (hl : ∀ b ∈ l, b = a) (hne : l ≠ [])
    (ha : a ∉ r) : distinct (l ++ r) = a :: distinct r := by
  have hkeep : (distinct r).filter (· ≠ a) = distinct r := by
    refine List.filter_eq_self.mpr fun b hb => decide_eq_true ?_
    rintro rfl
    exact ha (mem_distinct.mp hb)
  induction l with
  | nil => exact absurd rfl hne
  | cons b l ih =>
    obtain ⟨rfl, hrest⟩ := List.forall_mem_cons.mp hl
    rw [List.cons_append, distinct]
    by_cases hnil : l = []
    · rw [hnil, List.nil_append, hkeep]
    · rw [ih hrest hnil, List.filter_cons_of_neg (by simp), hkeep]

theorem distinct_eq_eraseDups [BEq α] [LawfulBEq α] (l : List α) : distinct l = l.eraseDups := by
  induction hn : l.length using Nat.strongRecOn generalizing l with
  | _ n ih =>
    cases l with
    | nil => rfl
    | cons b l =>
      have hlen : (l.filter (· ≠ b)).length < n := by
        have := List.length_filter_le (· ≠ b) l
        rw [List.length_cons] at hn
        omega
      have hrest := ih _ hlen (l.filter (· ≠ b)) rfl
      have hpred : (fun a => !a == b) = fun a => decide (a ≠ b) := by
        funext a
        simp [beq_eq_decide]
      rw [distinct, ← distinct_filter, hrest, List.eraseDups_cons, hpred]

/-- `us` has the members of `ts`, each once, in the order in which they first occur there. -/
structure FirstOccurrences (us ts : List α) : Prop where
  mem : ∀ a, a ∈ us ↔ a ∈ ts
  order : us.Pairwise fun a b => ts.idxOf a < ts.idxOf b

theorem firstOccurrences_distinct (l : List α) : FirstOccurrences (distinct l) l := by
  refine ⟨fun a => mem_distinct, ?_⟩
  induction l with
  | nil => exact .nil
  | cons b l ih =>
    have hne {a : α} (ha : a ∈ (distinct l).filter (· ≠ b)) : b ≠ a := by
      have := (List.mem_filter.mp ha).2
      exact fun e => absurd e.symm (by simpa using this)
    refine List.pairwise_cons.mpr ⟨fun a ha => ?_, ?_⟩
    · rw [List.idxOf_cons_self, List.idxOf_cons_ne l (hne ha)]
      exact Nat.succ_pos _
    · refine (ih.filter _).imp_of_mem fun ha ha' hlt => ?_
      rw [List.idxOf_cons_ne l (hne ha), List.idxOf_cons_ne l (hne ha')]
      exact Nat.succ_lt_succ hlt

end Distinct

/-! ## The order of names -/

theorem precedes_cons {x y : Char} {r s : Text} :
    precedes (x :: r) (y :: s) = true ↔ x.toNat < y.toNat ∨ x = y ∧ precedes r s = true := by
  simp [precedes]

theorem precedes_total (a b : Text) : (precedes a b || precedes b a) = true := by
  rw [Bool.or_eq_true]
  induction a generalizing b with
  | nil => exact .inl rfl
  | cons x r ih =>
    cases b with
    | nil => exact .inr rfl
    | cons y s =>
      rw [precedes_cons, precedes_cons]
      rcases Nat.lt_trichotomy x.toNat y.toNat with h | h | h
      · exact .inl (.inl h)
      · obtain rfl := Char.toNat_inj.mp h
        rcases ih s with hrs | hsr
        · exact .inl (.inr ⟨rfl, hrs⟩)
        · exact .inr (.inr ⟨rfl, hsr⟩)
      · exact .inr (.inl h)

theorem precedes_trans (a b c : Text) (hab : precedes a b = true) (hbc : precedes b c = true) :
    precedes a c = true := by
  induction a generalizing b c with
  | nil => rfl
  | cons x r ih =>
    cases b with
    | nil => exact absurd hab (by simp [precedes])
    | cons y s =>
      cases c with
      | nil => exact absurd hbc (by simp [precedes])
      | cons z t =>
        rw [precedes_cons] at hab hbc ⊢
        rcases hab with hxy | ⟨rfl, hrs⟩
        · rcases hbc with hyz | ⟨rfl, -⟩
          · exact .inl (Nat.lt_trans hxy hyz)
          · exact .inl hxy
        · rcases hbc with hyz | ⟨rfl, hst⟩
          · exact .inl hyz
          · exact .inr ⟨rfl, ih s t hrs hst⟩

theorem precedes_antisymm (a b : Text) (hab : precedes a b = true) (hba : precedes b a = true) :
    a = b := by
  induction a generalizing b with
  | nil =>
    cases b with
    | nil => rfl
    | cons y s => exact absurd hba (by simp [precedes])
  | cons x r ih =>
    cases b with
    | nil => exact absurd hab (by simp [precedes])
    | cons y s =>
      rw [precedes_cons] at hab hba
      rcases hab with hxy | ⟨rfl, hrs⟩
      · rcases hba with hyx | ⟨rfl, -⟩
        · omega
        · omega
      · rcases hba with hxx | ⟨-, hsr⟩
        · omega
        · rw [ih s hrs hsr]

theorem sort_pairwise (ts : List Text) : (sort ts).Pairwise fun a b => precedes a b = true :=
  List.pairwise_mergeSort precedes_trans precedes_total ts

/-- The order in which names are given has no effect on the sorted list. -/
theorem sort_eq_of_perm {ts us : List Text} (h : ts.Perm us) : sort ts = sort us := by
  refine List.Perm.eq_of_pairwise (fun a b _ _ => precedes_antisymm a b) (sort_pairwise ts)
    (sort_pairwise us) ?_
  exact (List.mergeSort_perm ts precedes).trans (h.trans (List.mergeSort_perm us precedes).symm)

/-- Lists of the same distinct names are sorted into the same list. -/
theorem sort_eq_of_mem_iff {ts us : List Text} (ht : ts.Nodup) (hu : us.Nodup)
    (h : ∀ a, a ∈ ts ↔ a ∈ us) : sort ts = sort us :=
  sort_eq_of_perm ((List.perm_ext_iff_of_nodup ht hu).mpr h)

end TaggedOutline.Text
