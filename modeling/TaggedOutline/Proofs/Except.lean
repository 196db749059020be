import Mathlib.Data.List.Forall2

/-!
# Computations that may fail

What a computation gives that goes through, step by step.
-/

namespace TaggedOutline

variable {ε ε' α β : Type}

/-- If two steps go through, each of them does. -/
theorem exists_of_bind_eq_ok {x : Except ε α} {f : α → Except ε β} {b : β}
    (h : x >>= f = .ok b) : ∃ a, x = .ok a ∧ f a = .ok b := by
  cases x with
  | ok a => exact ⟨a, rfl, h⟩
  | error e => cases h

/-- If a guarded computation goes through, the guard lets it pass. -/
theorem of_guard_eq_ok {p : Prop} [Decidable p] {e : ε} {f : Unit → Except ε α} {a : α}
    (h : (if p then throw e >>= f else f ()) = .ok a) : f () = .ok a := by
  split at h
  · cases h
  · exact h

theorem eq_ok_of_mapError {f : ε → ε'} {x : Except ε α} {a : α} (h : x.mapError f = .ok a) :
    x = .ok a := by
  cases x with
  | ok b => exact congrArg Except.ok (Except.ok.inj h)
  | error e => cases h

theorem toOption_eq_some_iff {x : Except ε α} {a : α} : x.toOption = some a ↔ x = .ok a := by
  cases x with
  | ok b => simp [Except.toOption]
  | error e => simp [Except.toOption]

/-- A list goes through iff each of its items does. -/
theorem mapM_eq_ok_iff {f : α → Except ε β} {l : List α} {bs : List β} :
    l.mapM f = .ok bs ↔ List.Forall₂ (fun a b => f a = .ok b) l bs := by
  induction l generalizing bs with
  | nil =>
    rw [List.mapM_nil, List.forall₂_nil_left_iff]
    exact ⟨fun h => (Except.ok.inj h).symm, fun h => h ▸ rfl⟩
  | cons a l ih =>
    rw [List.mapM_cons, List.forall₂_cons_left_iff]
    constructor
    · intro h
      obtain ⟨b, hb, h⟩ := exists_of_bind_eq_ok h
      obtain ⟨rest, hrest, h⟩ := exists_of_bind_eq_ok h
      exact ⟨b, rest, hb, ih.mp hrest, (Except.ok.inj h).symm⟩
    · rintro ⟨b, rest, hb, hrest, rfl⟩
      rw [hb, ih.mpr hrest]
      rfl

/-- A list of which all items are accepted is accepted. -/
theorem mapM_ok {f : α → Except ε β} {g : α → β} {l : List α} (h : ∀ a ∈ l, f a = .ok (g a)) :
    l.mapM f = .ok (l.map g) :=
  mapM_eq_ok_iff.mpr (List.forall₂_map_right_iff.mpr (List.forall₂_same.mpr h))

theorem exists_mapM_ok {f : α → Except ε β} {p : β → Prop} {l : List α}
    (h : ∀ a ∈ l, ∃ b, f a = .ok b ∧ p b) : ∃ bs, l.mapM f = .ok bs ∧ ∀ b ∈ bs, p b := by
  induction l with
  | nil => exact ⟨[], rfl, fun _ hb => absurd hb (by simp)⟩
  | cons a l ih =>
    obtain ⟨b, hb, hp⟩ := h a List.mem_cons_self
    obtain ⟨bs, hbs, hall⟩ := ih fun x hx => h x (List.mem_cons_of_mem a hx)
    exact ⟨b :: bs, by rw [List.mapM_cons, hb, hbs]; rfl, List.forall_mem_cons.mpr ⟨hp, hall⟩⟩

/-- What a list gives that goes through is what its items give, and a list that fails does so at one
of its items. -/
theorem mapM_cases (f : α → Except ε β) (l : List α) :
    (∃ bs, l.mapM f = .ok bs ∧ (∀ a ∈ l, ∃ b ∈ bs, f a = .ok b) ∧ ∀ b ∈ bs, ∃ a ∈ l, f a = .ok b) ∨
      ∃ a ∈ l, ∃ e, f a = .error e ∧ l.mapM f = .error e := by
  induction l with
  | nil => exact .inl ⟨[], rfl, by simp, by simp⟩
  | cons a l ih =>
    rw [List.mapM_cons]
    cases ha : f a with
    | error e => exact .inr ⟨a, List.mem_cons_self, e, ha, rfl⟩
    | ok b =>
      rcases ih with ⟨bs, hbs, hgives, hgiven⟩ | ⟨x, hx, e, hxe, hl⟩
      · refine .inl ⟨b :: bs, by rw [hbs]; rfl, ?_, ?_⟩
        · exact List.forall_mem_cons.mpr ⟨⟨b, List.mem_cons_self, ha⟩, fun x hx =>
            (hgives x hx).imp fun _ h => h.imp_left (List.mem_cons_of_mem b)⟩
        · exact List.forall_mem_cons.mpr ⟨⟨a, List.mem_cons_self, ha⟩, fun x hx =>
            (hgiven x hx).imp fun _ h => h.imp_left (List.mem_cons_of_mem a)⟩
      · exact .inr ⟨x, List.mem_cons_of_mem a hx, e, hxe, by rw [hl]; rfl⟩

/-- Checks of a list go through iff each of them does. -/
theorem forM_eq_ok_iff {f : α → Except ε Unit} {l : List α} :
    l.forM f = .ok () ↔ ∀ a ∈ l, f a = .ok () := by
  induction l with
  | nil => exact ⟨fun _ _ h => absurd h (by simp), fun _ => rfl⟩
  | cons a l ih =>
    rw [List.forall_mem_cons, ← ih]
    constructor
    · intro h
      obtain ⟨⟨⟩, ha, hl⟩ := exists_of_bind_eq_ok h
      exact ⟨ha, hl⟩
    · rintro ⟨ha, hl⟩
      show (f a >>= fun _ => l.forM f) = _
      rw [ha]
      exact hl

end TaggedOutline
