import Mathlib.Data.List.Nodup
import TaggedOutline.Table

/-!
# What is under a key

A table whose keys are distinct is the list of what is under its keys (`mem_iff_get?`). Putting a
value changes what is under one key (`get?_put`); under a new key it goes to the end
(`put_of_notMem`). Erasing a key drops what is under it and leaves the rest in order (`get?_erase`,
`keys_erase`).
-/

namespace TaggedOutline.Table

variable {κ α : Type} [DecidableEq κ] {t : Table κ α} {k : κ} {a b : α}

theorem get?_cons (k' : κ) (a' : α) (t : Table κ α) (k : κ) :
    get? ((k', a') :: t) k = if k' = k then some a' else t.get? k := by
  unfold get?
  by_cases h : k' = k
  · rw [List.find?_cons_of_pos (by simpa using h), if_pos h]
    rfl
  · rw [List.find?_cons_of_neg (by simpa using h), if_neg h]

/-- What a table of some items has under a key is that of the first item with the key. -/
theorem get?_map {β : Type} (l : List β) (key : β → κ) (value : β → α) (k : κ) :
    get? (l.map fun b => (key b, value b)) k = (l.find? (key · = k)).map value := by
  rw [get?, List.find?_map, Option.map_map]
  rfl

theorem mem_of_get? (h : t.get? k = some a) : (k, a) ∈ t := by
  obtain ⟨e, he, rfl⟩ := Option.map_eq_some_iff.mp h
  have hk : e.1 = k := by simpa using List.find?_some he
  rw [← hk]
  exact List.mem_of_find?_eq_some he

theorem get?_of_mem (hkeys : t.keys.Nodup) (h : (k, a) ∈ t) : t.get? k = some a := by
  induction t with
  | nil => exact absurd h (by simp)
  | cons e t ih =>
    obtain ⟨hfirst, hrest⟩ := List.nodup_cons.mp (show (e.1 :: keys t).Nodup from hkeys)
    rw [get?_cons]
    rcases List.mem_cons.mp h with rfl | h
    · rw [if_pos rfl]
    · have hne : e.1 ≠ k := fun he => hfirst (by rw [he]; exact List.mem_map.mpr ⟨(k, a), h, rfl⟩)
      rw [if_neg hne]
      exact ih hrest h

theorem mem_iff_get? (hkeys : t.keys.Nodup) : (k, a) ∈ t ↔ t.get? k = some a :=
  ⟨get?_of_mem hkeys, mem_of_get?⟩

theorem isSome_get?_iff : (t.get? k).isSome ↔ k ∈ t.keys := by
  rw [get?, Option.isSome_map, List.find?_isSome, keys, List.mem_map]
  simp only [decide_eq_true_eq]

theorem get?_eq_none (h : k ∉ t.keys) : t.get? k = none :=
  Option.not_isSome_iff_eq_none.mp fun hsome => h (isSome_get?_iff.mp hsome)

/-- A table with distinct keys has just what is under its keys. -/
theorem eq_map_keys (hkeys : t.keys.Nodup) (default : α) :
    t = t.keys.map fun k => (k, (t.get? k).getD default) := by
  conv_lhs => rw [← List.map_id t]
  rw [keys, List.map_map]
  refine List.map_congr_left fun e he => ?_
  rw [Function.comp_apply, get?_of_mem hkeys he, id, Option.getD_some]

theorem has_iff : t.has k = true ↔ k ∈ t.keys := by
  rw [has, List.any_eq_true, keys, List.mem_map]
  simp only [decide_eq_true_eq]

/-- What is under a key is all that is under it, if keys are distinct. -/
theorem filter_key_of_get? {t : Table κ α} (hkeys : t.keys.Nodup) {k : κ} {a : α}
    (h : t.get? k = some a) : t.filter (·.1 = k) = [(k, a)] := by
  induction t with
  | nil => exact absurd h (by simp [get?])
  | cons e t ih =>
    obtain ⟨k', a'⟩ := e
    obtain ⟨hfirst, hrest⟩ := List.nodup_cons.mp (show (k' :: keys t).Nodup from hkeys)
    rw [get?_cons] at h
    by_cases hk : k' = k
    · rw [if_pos hk] at h
      rw [List.filter_cons_of_pos (by simpa using hk), List.filter_eq_nil_iff.mpr, hk,
        Option.some.inj h]
      intro e he
      simp only [decide_eq_true_eq]
      intro heq
      have hmem : e.1 ∈ keys t := List.mem_map_of_mem he
      rw [heq, ← hk] at hmem
      exact hfirst hmem
    · rw [if_neg hk] at h
      rw [List.filter_cons_of_neg (by simpa using hk), ih hrest h]

/-! ## Putting -/

theorem get?_put (t : Table κ α) (k : κ) (a : α) (k' : κ) :
    (t.put k a).get? k' = if k = k' then some a else t.get? k' := by
  induction t with
  | nil => rw [put, get?_cons]
  | cons e t ih =>
    obtain ⟨k₁, a₁⟩ := e
    rw [put]
    split
    · next h =>
      rw [get?_cons, get?_cons, h]
      split <;> rfl
    · next h =>
      rw [get?_cons, ih, get?_cons]
      by_cases h₁ : k₁ = k'
      · rw [if_pos h₁, if_neg fun hk => h (h₁.trans hk.symm), if_pos h₁]
      · rw [if_neg h₁, if_neg h₁]

theorem put_of_notMem (h : k ∉ t.keys) : t.put k a = t ++ [(k, a)] := by
  induction t with
  | nil => rfl
  | cons e t ih =>
    obtain ⟨k', a'⟩ := e
    obtain ⟨hk, hrest⟩ := not_or.mp fun hm => h (List.mem_cons.mpr hm)
    rw [put, if_neg fun e => hk e.symm, ih hrest]
    rfl

theorem keys_put_of_mem (h : k ∈ t.keys) : (t.put k a).keys = t.keys := by
  induction t with
  | nil => exact absurd h (by simp [keys])
  | cons e t ih =>
    obtain ⟨k', a'⟩ := e
    rw [put]
    split
    · next hk => rw [hk]; rfl
    · next hk =>
      rcases List.mem_cons.mp h with he | hm
      · exact absurd he.symm hk
      · exact congrArg (k' :: ·) (ih hm)

theorem nodup_keys_put (h : t.keys.Nodup) (k : κ) (a : α) : (t.put k a).keys.Nodup := by
  by_cases hk : k ∈ t.keys
  · rwa [keys_put_of_mem hk]
  · rw [put_of_notMem hk, keys, List.map_append]
    refine List.nodup_append.mpr ⟨h, List.nodup_singleton k, fun x hx y hy hxy => hk ?_⟩
    obtain rfl : y = k := by simpa using hy
    rw [← hxy]
    exact hx

theorem mem_keys_put {k' : κ} : k' ∈ (t.put k a).keys ↔ k' = k ∨ k' ∈ t.keys := by
  by_cases hk : k ∈ t.keys
  · rw [keys_put_of_mem hk]
    exact ⟨.inr, fun h => h.elim (fun e => e ▸ hk) id⟩
  · rw [put_of_notMem hk, keys, List.map_append, List.mem_append, List.map_singleton,
      List.mem_singleton]
    exact or_comm

theorem mem_of_mem_put {e : κ × α} (h : e ∈ t.put k a) : e = (k, a) ∨ e ∈ t := by
  induction t with
  | nil => exact .inl (List.mem_singleton.mp h)
  | cons e' t ih =>
    rw [put] at h
    split at h
    · rcases List.mem_cons.mp h with rfl | h
      · exact .inl rfl
      · exact .inr (List.mem_cons_of_mem e' h)
    · rcases List.mem_cons.mp h with rfl | h
      · exact .inr List.mem_cons_self
      · exact (ih h).imp_right (List.mem_cons_of_mem e')

/-- Values under new keys go to the end in turn. -/
theorem foldl_put {l : List (κ × α)} (h : (t.keys ++ l.map Prod.fst).Nodup) :
    l.foldl (fun t (k, a) => put t k a) t = t ++ l := by
  induction l generalizing t with
  | nil => exact (List.append_nil t).symm
  | cons e l ih =>
    obtain ⟨k, a⟩ := e
    have hput : put t k a = t ++ [(k, a)] :=
      put_of_notMem fun hm => (List.nodup_append.mp h).2.2 k hm k List.mem_cons_self rfl
    rw [List.foldl_cons]
    simp only
    rw [hput, ih, List.append_assoc]
    · rfl
    · rw [keys, List.map_append, List.append_assoc]
      exact h

/-- The table of a list with distinct keys is that list. -/
theorem ofList_of_nodup {l : List (κ × α)} (h : (l.map Prod.fst).Nodup) : ofList l = l :=
  foldl_put h

/-- A list of keys and values leaves what was last put under a key. -/
theorem get?_foldl_put (l : List (κ × α)) (t : Table κ α) (k : κ) :
    (l.foldl (fun t (k, a) => put t k a) t).get? k =
      ((l.reverse.find? (·.1 = k)).map Prod.snd).or (t.get? k) := by
  induction l generalizing t with
  | nil => rfl
  | cons e l ih =>
    obtain ⟨k', a'⟩ := e
    rw [List.foldl_cons, ih, get?_put, List.reverse_cons, List.find?_append, List.find?_singleton]
    by_cases h : k' = k
    · cases l.reverse.find? (·.1 = k) <;> simp [h]
    · cases l.reverse.find? (·.1 = k) <;> simp [h]

theorem get?_ofList (l : List (κ × α)) (k : κ) :
    (ofList l).get? k = (l.reverse.find? (·.1 = k)).map Prod.snd := by
  rw [ofList, get?_foldl_put, show get? ([] : Table κ α) k = none from rfl, Option.or_none]

/-! ## Erasing -/

theorem get?_erase (t : Table κ α) (k k' : κ) :
    (t.erase k).get? k' = if k' = k then none else t.get? k' := by
  unfold erase get?
  rw [List.find?_filter]
  by_cases h : k' = k
  · rw [if_pos h, List.find?_eq_none.mpr fun e _ => ?_]
    · rfl
    · simp only [decide_eq_true_eq, not_and]
      intro hne hk
      exact hne (hk.trans h)
  · rw [if_neg h]
    congr 2
    funext e
    by_cases he : e.1 = k'
    · simp [he, h]
    · simp [he]

theorem keys_erase (t : Table κ α) (k : κ) : (t.erase k).keys = t.keys.filter (· ≠ k) := by
  rw [keys, keys, erase, List.filter_map]
  rfl

/-- Under another key than `k` there is the same, in the same order, whatever is put under `k`. -/
theorem erase_put (t : Table κ α) (k : κ) (a : α) : (t.put k a).erase k = t.erase k := by
  induction t with
  | nil => simp [put, erase]
  | cons e t ih =>
    obtain ⟨k', a'⟩ := e
    rw [put]
    split
    · next h => simp [erase, h]
    · next h =>
      rw [erase, List.filter_cons_of_pos (by simpa using h)]
      exact (congrArg _ ih).trans (List.filter_cons_of_pos (by simpa using h)).symm

end TaggedOutline.Table
