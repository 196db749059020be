import Mathlib.Data.List.Perm.Basic
import TaggedOutline.Proofs.Document.Line

/-!
# Lines that are left out

`keep` leaves out the items of a sequence that have certain numbers. The lines of a text that are
kept are the lines of their text again (`ofText_join_keep`); where the last line is left out, an
empty line takes its place.
-/

namespace TaggedOutline

/-- The items, numbered from `number`, whose numbers are not left out. -/
def keep {α : Type} (out : Nat → Bool) (number : Nat) (l : List α) : List α :=
  ((l.zipIdx number).filter fun e => !out e.2).map Prod.fst

/-- The number of lines left out before a line. -/
def outBefore (out : Nat → Bool) (line : Nat) : Nat := (List.range line).countP out

section Keep

variable {α β : Type} {out out' : Nat → Bool} {number : Nat} {l : List α}

@[simp] theorem keep_nil : keep out number ([] : List α) = [] := rfl

theorem keep_cons (out : Nat → Bool) (number : Nat) (a : α) (l : List α) :
    keep out number (a :: l) =
      if out number then keep out (number + 1) l else a :: keep out (number + 1) l := by
  unfold keep
  rw [List.zipIdx_cons, List.filter_cons]
  by_cases h : out number <;> simp [h]

theorem keep_append (l l' : List α) :
    keep out number (l ++ l') = keep out number l ++ keep out (number + l.length) l' := by
  unfold keep
  rw [List.zipIdx_append, List.filter_append, List.map_append]

theorem keep_map (f : α → β) : keep out number (l.map f) = (keep out number l).map f := by
  induction l generalizing number with
  | nil => rfl
  | cons a l ih =>
    rw [List.map_cons, keep_cons, keep_cons, ih]
    split <;> rfl

theorem mem_of_mem_keep {a : α} (h : a ∈ keep out number l) : a ∈ l := by
  obtain ⟨e, he, rfl⟩ := List.mem_map.mp h
  exact List.fst_mem_of_mem_zipIdx (List.mem_filter.mp he).1

theorem keep_congr (h : ∀ k, number ≤ k → k < number + l.length → out k = out' k) :
    keep out number l = keep out' number l := by
  unfold keep
  refine congrArg _ (List.filter_congr fun e he => ?_)
  obtain ⟨k, hk⟩ := e
  have := List.mem_zipIdx he
  rw [h hk (by omega) (by omega)]

theorem keep_eq_self (h : ∀ k, number ≤ k → k < number + l.length → out k = false) :
    keep out number l = l := by
  induction l generalizing number with
  | nil => rfl
  | cons a l ih =>
    rw [List.length_cons] at h
    rw [keep_cons, h number (Nat.le_refl _) (by omega), if_neg (by simp),
      ih fun k hk hlt => h k (by omega) (by omega)]

theorem keep_eq_nil (h : ∀ k, number ≤ k → k < number + l.length → out k = true) :
    keep out number l = [] := by
  induction l generalizing number with
  | nil => rfl
  | cons a l ih =>
    rw [List.length_cons] at h
    rw [keep_cons, h number (Nat.le_refl _) (by omega), if_pos rfl,
      ih fun k hk hlt => h k (by omega) (by omega)]

theorem outBefore_succ (out : Nat → Bool) (line : Nat) :
    outBefore out (line + 1) = outBefore out line + if out line then 1 else 0 := by
  unfold outBefore
  rw [List.range_succ, List.countP_append, List.countP_singleton]

theorem keep_sublist (out : Nat → Bool) (number : Nat) (l : List α) :
    (keep out number l).Sublist l := by
  unfold keep
  conv_rhs => rw [← List.zipIdx_map_fst number l]
  exact List.filter_sublist.map Prod.fst

/-- The items are those that are kept and the others. -/
theorem perm_keep (out : Nat → Bool) (number : Nat) (l : List α) :
    (keep out number l ++ keep (fun k => !out k) number l).Perm l := by
  unfold keep
  rw [← List.map_append]
  have hperm := List.filter_append_perm (fun e : α × Nat => !out e.2) (l.zipIdx number)
  conv_rhs => rw [← List.zipIdx_map_fst number l]
  exact hperm.map Prod.fst

theorem keep_split (out : Nat → Bool) {k : Nat} (hk : k ≤ l.length) :
    keep out 0 l = keep out 0 (l.take k) ++ keep out k (l.drop k) := by
  conv_lhs => rw [← List.take_append_drop k l, keep_append]
  rw [List.length_take, Nat.min_eq_left hk, Nat.zero_add]

/-- The items from place `a` up to `b` are kept, besides items that all come after these. -/
theorem keep_eq_interval_append {a b : Nat}
    (hab : a ≤ b) (hb : b ≤ l.length) (hout : ∀ k < b, out k = true)
    (hout' : ∀ k < l.length, out' k = (!decide (a ≤ k ∧ k < b) && out k)) :
    keep out' 0 l = (l.take b).drop a ++ keep out 0 l := by
  have hfirst : keep out' 0 ((l.take b).take a) = [] := by
    refine keep_eq_nil fun k _ hk => ?_
    rw [List.length_take, List.length_take] at hk
    rw [hout' k (by omega), hout k (by omega), decide_eq_false (by omega)]
    rfl
  have hmiddle : keep out' a ((l.take b).drop a) = (l.take b).drop a := by
    refine keep_eq_self fun k hk hlt => ?_
    rw [List.length_drop, List.length_take] at hlt
    rw [hout' k (by omega), decide_eq_true (by omega)]
    rfl
  have hrest : keep out' b (l.drop b) = keep out b (l.drop b) := by
    refine keep_congr fun k hk hlt => ?_
    rw [List.length_drop] at hlt
    rw [hout' k (by omega), decide_eq_false (by omega)]
    rfl
  have hnone : keep out 0 (l.take b) = [] := by
    refine keep_eq_nil fun k _ hk => hout k ?_
    rw [List.length_take] at hk
    omega
  have hsplit := keep_split out' (l := l.take b) (k := a) (by rw [List.length_take]; omega)
  rw [keep_split out' hb, keep_split out hb, hrest, hnone, hsplit, hfirst, hmiddle,
    List.nil_append, List.nil_append]

end Keep

namespace Line

/-- The lines of a text that are kept are split as they are, up to an empty line at the end. -/
theorem ofText_join_keep (out : Nat → Bool) (t : Text) :
    ofText (join (keep out 0 (ofText t))) = keep out 0 (ofText t) ∨
      ofText (join (keep out 0 (ofText t))) = keep out 0 (ofText t) ++ [⟨[], .none⟩] := by
  obtain ⟨ls, last, hsplit, hls, hlast⟩ := exists_ofText t
  have hkept : ∀ l ∈ keep out 0 ls, l.IsEnded := fun l hl => hls l (mem_of_mem_keep hl)
  rw [hsplit, keep_append, keep_cons]
  split
  · rw [keep_nil, List.append_nil]
    refine .inr ?_
    have := ofText_join_append hkept []
    rwa [List.append_nil] at this
  · rw [keep_nil]
    exact .inl (ofText_join hkept hlast)

end Line

end TaggedOutline
