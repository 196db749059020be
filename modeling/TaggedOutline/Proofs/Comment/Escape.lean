import Mathlib.Data.List.Chain
import TaggedOutline.Comment.Escape
import TaggedOutline.Proofs.Text.Basic

/-!
# What escaping does to a text

Escaping is undone by `unescape`, leaves no two colons side by side, and adds nothing but
backslashes, none of them at the end. So a written tag is a word and a written remark is trimmed if
the tag is a word and the remark is trimmed, and neither opens or closes a remark.
-/

namespace TaggedOutline.Comment

open Text (IsWord IsTrimmed)

/-- No two colons stand side by side. -/
def NoDoubleColon (t : Text) : Prop := t.IsChain fun a b => ¬ (a = ':' ∧ b = ':')

theorem noDoubleColon_nil : NoDoubleColon [] := List.IsChain.nil

theorem noDoubleColon_cons {c : Char} {t : Text} :
    NoDoubleColon (c :: t) ↔ (c = ':' → t.head? ≠ some ':') ∧ NoDoubleColon t := by
  unfold NoDoubleColon
  rw [List.isChain_cons]
  refine and_congr_left fun _ => ⟨fun h hc he => ?_, fun h y hy => ?_⟩
  · exact h ':' he ⟨hc, rfl⟩
  · rintro ⟨hc, rfl⟩
    exact h hc hy

theorem noDoubleColon_append {a b : Text} (ha : NoDoubleColon a) (hb : NoDoubleColon b)
    (h : a.getLast? = some ':' → b.head? ≠ some ':') : NoDoubleColon (a ++ b) := by
  refine List.isChain_append.mpr ⟨ha, hb, fun x hx y hy => ?_⟩
  rintro ⟨rfl, rfl⟩
  exact h hx hy

/-! ## The escaped text -/

/-- After a colon the escaped text does not go on with another one. -/
theorem head?_escapeFrom_true (t : Text) : (escapeFrom true t).head? ≠ some ':' := by
  cases t with
  | nil => simp [escapeFrom]
  | cons c r =>
    unfold escapeFrom
    by_cases hb : c = '\\'
    · simp [hb]
    · by_cases hc : c = ':'
      · simp [hc]
      · simp [hb, hc]

theorem noDoubleColon_escapeFrom (afterColon : Bool) (t : Text) :
    NoDoubleColon (escapeFrom afterColon t) := by
  induction t generalizing afterColon with
  | nil => exact noDoubleColon_nil
  | cons c r ih =>
    have colon : NoDoubleColon (':' :: escapeFrom true r) :=
      noDoubleColon_cons.mpr ⟨fun _ => head?_escapeFrom_true r, ih true⟩
    have other (x : Char) (hx : x ≠ ':') {s : Text} (hs : NoDoubleColon s) :
        NoDoubleColon (x :: s) := noDoubleColon_cons.mpr ⟨fun h => absurd h hx, hs⟩
    unfold escapeFrom
    by_cases hb : c = '\\'
    · rw [if_pos hb]
      exact other _ (by decide) (other _ (by decide) (ih false))
    · rw [if_neg hb]
      by_cases hc : c = ':'
      · rw [if_pos hc]
        split
        · exact other _ (by decide) colon
        · exact colon
      · rw [if_neg hc]
        exact other c hc (ih false)

theorem noDoubleColon_escape (t : Text) : NoDoubleColon (escape t) :=
  noDoubleColon_escapeFrom false t

theorem mem_escapeFrom {afterColon : Bool} {t : Text} {x : Char} (h : x ∈ escapeFrom afterColon t) :
    x = '\\' ∨ x ∈ t := by
  induction t generalizing afterColon with
  | nil => exact absurd h (by simp [escapeFrom])
  | cons c r ih =>
    have tail {b : Bool} (hx : x ∈ escapeFrom b r) : x = '\\' ∨ x ∈ c :: r :=
      (ih hx).imp_right (List.mem_cons_of_mem c)
    unfold escapeFrom at h
    split at h
    · rcases List.mem_cons.mp h with h | h
      · exact .inl h
      · exact (List.mem_cons.mp h).elim .inl tail
    · split at h
      · next hc =>
        subst hc
        split at h
        · rcases List.mem_cons.mp h with h | h
          · exact .inl h
          · exact (List.mem_cons.mp h).elim (fun e => .inr (e ▸ List.mem_cons_self)) tail
        · exact (List.mem_cons.mp h).elim (fun e => .inr (e ▸ List.mem_cons_self)) tail
      · exact (List.mem_cons.mp h).elim (fun e => .inr (e ▸ List.mem_cons_self)) tail

/-- Escaping adds backslashes only. -/
theorem count_escapeFrom {c : Char} (hc : c ≠ '\\') (afterColon : Bool) (t : Text) :
    (escapeFrom afterColon t).count c = t.count c := by
  have hslash (s : Text) : List.count c ('\\' :: s) = List.count c s :=
    List.count_cons_of_ne hc.symm
  induction t generalizing afterColon with
  | nil => rfl
  | cons x r ih =>
    unfold escapeFrom
    split
    · next hx => rw [hx, hslash, hslash, hslash, ih]
    · split
      · next hx =>
        rw [hx]
        split
        · rw [hslash, List.count_cons, ih, List.count_cons]
        · rw [List.count_cons, ih, List.count_cons]
      · rw [List.count_cons, ih, List.count_cons]

theorem escapeFrom_eq_nil_iff {afterColon : Bool} {t : Text} :
    escapeFrom afterColon t = [] ↔ t = [] := by
  cases t with
  | nil => simp [escapeFrom]
  | cons c r =>
    unfold escapeFrom
    split
    · simp
    · split
      · split <;> simp
      · simp

/-- An escaped text begins with a backslash or as it did before. -/
theorem head?_escapeFrom {afterColon : Bool} {t : Text} {x : Char}
    (h : (escapeFrom afterColon t).head? = some x) : x = '\\' ∨ t.head? = some x := by
  cases t with
  | nil => exact absurd h (by simp [escapeFrom])
  | cons c r =>
    unfold escapeFrom at h
    split at h
    · exact .inl (by simpa using h.symm)
    · split at h
      · split at h
        · exact .inl (by simpa using h.symm)
        · next hc _ => exact .inr (by simpa [hc] using h)
      · exact .inr (by simpa using h)

theorem getLast?_escapeFrom (afterColon : Bool) (t : Text) :
    (escapeFrom afterColon t).getLast? = t.getLast? := by
  -- Whatever is written before the tail, the last character is that of the tail if there is one.
  have step (x y : Char) (b : Bool) {r : Text} (hr : (escapeFrom b r).getLast? = r.getLast?)
      (hxy : x = y) : (x :: escapeFrom b r).getLast? = (y :: r).getLast? := by
    rw [List.getLast?_cons, List.getLast?_cons, hr, hxy]
  induction t generalizing afterColon with
  | nil => rfl
  | cons c r ih =>
    unfold escapeFrom
    split
    · next hb => rw [List.getLast?_cons_cons]; exact step _ _ false (ih false) hb.symm
    · split
      · next hc =>
        split
        · rw [List.getLast?_cons_cons]; exact step _ _ true (ih true) hc.symm
        · exact step _ _ true (ih true) hc.symm
      · exact step _ _ false (ih false) rfl

theorem isTrimmed_escape {t : Text} (h : IsTrimmed t) : IsTrimmed (escape t) := by
  refine ⟨fun c hc => ?_, fun c hc => h.2 c ?_⟩
  · rcases head?_escapeFrom hc with rfl | hc
    · rfl
    · exact h.1 c hc
  · rwa [← getLast?_escapeFrom false t]

theorem isWord_escape {t : Text} (h : IsWord t) : IsWord (escape t) := by
  refine ⟨mt escapeFrom_eq_nil_iff.mp h.1, fun c hc => ?_⟩
  rcases mem_escapeFrom hc with rfl | hc
  · rfl
  · exact h.2 c hc

/-! ## Reading it back -/

theorem unescape_cons {c : Char} (h : c ≠ '\\') (t : Text) :
    unescape (c :: t) = c :: unescape t := by
  rw [unescape]
  · rintro r rfl
    exact absurd rfl h
  · rintro r rfl
    exact absurd rfl h

theorem unescape_escapeFrom (afterColon : Bool) (t : Text) :
    unescape (escapeFrom afterColon t) = t := by
  induction t generalizing afterColon with
  | nil => rfl
  | cons c r ih =>
    unfold escapeFrom
    by_cases hb : c = '\\'
    · rw [if_pos hb, unescape, ih, hb]
    · rw [if_neg hb]
      by_cases hc : c = ':'
      · rw [if_pos hc]
        split
        · rw [unescape, ih, hc]
        · rw [unescape_cons (by decide), ih, hc]
      · rw [if_neg hc, unescape_cons hb, ih]

theorem mem_unescape {t : Text} {x : Char} (h : x ∈ unescape t) : x ∈ t := by
  fun_induction unescape t with
  | case1 r ih =>
    rcases List.mem_cons.mp h with rfl | h
    · exact List.mem_cons_self
    · exact List.mem_cons_of_mem _ (List.mem_cons_of_mem _ (ih h))
  | case2 r ih =>
    rcases List.mem_cons.mp h with rfl | h
    · simp
    · exact List.mem_cons_of_mem _ (List.mem_cons_of_mem _ (ih h))
  | case3 c r _ _ ih =>
    rcases List.mem_cons.mp h with rfl | h
    · exact List.mem_cons_self
    · exact List.mem_cons_of_mem _ (ih h)
  | case4 => exact h

theorem unescape_ne_nil {t : Text} (h : t ≠ []) : unescape t ≠ [] := by
  fun_cases unescape t with
  | case4 => exact absurd rfl h
  | _ => simp

theorem head?_unescape {t : Text} {x : Char} (h : (unescape t).head? = some x) :
    x = '\\' ∨ x = ':' ∨ t.head? = some x := by
  fun_cases unescape t with
  | case1 r => exact .inl (by simpa [unescape] using h.symm)
  | case2 r => exact .inr (.inl (by simpa [unescape] using h.symm))
  | case3 c r h₁ h₂ =>
    rw [unescape.eq_3 c r h₁ h₂] at h
    exact .inr (.inr h)
  | case4 => exact absurd h (by simp [unescape])

theorem getLast?_unescape (t : Text) : (unescape t).getLast? = t.getLast? := by
  fun_induction unescape t with
  | case1 r ih => rw [List.getLast?_cons, List.getLast?_cons_cons, List.getLast?_cons, ih]
  | case2 r ih => rw [List.getLast?_cons, List.getLast?_cons_cons, List.getLast?_cons, ih]
  | case3 c r _ _ ih => rw [List.getLast?_cons, List.getLast?_cons, ih]
  | case4 => rfl

theorem isTrimmed_unescape {t : Text} (h : IsTrimmed t) : IsTrimmed (unescape t) := by
  refine ⟨fun c hc => ?_, fun c hc => h.2 c ?_⟩
  · rcases head?_unescape hc with rfl | rfl | hc
    · rfl
    · rfl
    · exact h.1 c hc
  · rwa [← getLast?_unescape t]

/-- Escaping is undone. -/
theorem unescape_escape (t : Text) : unescape (escape t) = t := unescape_escapeFrom false t

end TaggedOutline.Comment
