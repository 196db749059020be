import TaggedOutline.Proofs.Text.Basic
import TaggedOutline.Title.Link

/-!
# Where links and code spans end

1. A character is escaped iff it follows a backslash that is not (`isEscaped_succ`).
2. A balanced text ends with its closer (`endsAt_of_closingLength?`), so a link ends with a closing
   parenthesis or bracket, and its label stands right after its first bracket (`link?_spec`).
3. A code span starts and ends with a backtick (`head?_of_codeSpan?`, `endsAt_of_codeSpan?`), and the
   marked spans are code spans (`codeSpan?_of_spansFrom`). None starts inside of another one
   (`spansFrom_inside`).
-/

namespace TaggedOutline

theorem Text.cutAt?_eq_some {p : Char → Bool} {t a b : Text} (h : cutAt? p t = some (a, b)) :
    ∃ c, p c = true ∧ t = a ++ c :: b := by
  induction t generalizing a with
  | nil => exact absurd h (by simp [cutAt?])
  | cons c r ih =>
    rw [cutAt?] at h
    split at h
    · next hc =>
      obtain ⟨rfl, rfl⟩ := Prod.mk.inj (Option.some.inj h)
      exact ⟨c, hc, rfl⟩
    · obtain ⟨⟨a', b'⟩, hcut, hpair⟩ := Option.map_eq_some_iff.mp h
      obtain ⟨rfl, rfl⟩ := Prod.mk.inj hpair
      obtain ⟨x, hx, hr⟩ := ih hcut
      exact ⟨x, hx, by rw [hr]; rfl⟩

namespace Title

variable {t : Text} {i n : Nat} {c : Char}

/-! ## Escapes -/

/-- A character is escaped iff it follows a backslash that is not. -/
theorem isEscaped_succ (h : t[i]? = some c) :
    isEscaped t (i + 1) = (c = '\\' && !isEscaped t i) := by
  have htake : t.take (i + 1) = t.take i ++ [c] := by rw [List.take_add_one, h]; rfl
  unfold isEscaped
  rw [htake, List.reverse_append, List.reverse_singleton, List.singleton_append]
  by_cases hc : c = '\\'
  · rw [List.takeWhile_cons_of_pos (by simpa using hc), List.length_cons, decide_eq_true hc,
      Bool.true_and]
    generalize ((t.take i).reverse.takeWhile (· = '\\')).length = k
    rcases Nat.mod_two_eq_zero_or_one k with hk | hk <;> simp [Nat.add_mod, hk]
  · rw [List.takeWhile_cons_of_neg (by simpa using hc), decide_eq_false hc]
    rfl

/-! ## Ends -/

/-- The first `n` characters of a text end with `c`. -/
def EndsAt (t : Text) (n : Nat) (c : Char) : Prop := ∃ k, n = k + 1 ∧ t[k]? = some c

theorem EndsAt.pos (h : EndsAt t n c) : 0 < n := by
  obtain ⟨k, rfl, -⟩ := h
  exact Nat.succ_pos k

theorem EndsAt.le_length (h : EndsAt t n c) : n ≤ t.length := by
  obtain ⟨k, rfl, hk⟩ := h
  exact (List.getElem?_eq_some_iff.mp hk).1

theorem EndsAt.cons (h : EndsAt t n c) (x : Char) : EndsAt (x :: t) (n + 1) c := by
  obtain ⟨k, rfl, hk⟩ := h
  exact ⟨k + 1, rfl, hk⟩

theorem EndsAt.of_drop (h : EndsAt (t.drop i) n c) : EndsAt t (i + n) c := by
  obtain ⟨k, rfl, hk⟩ := h
  rw [List.getElem?_drop] at hk
  exact ⟨i + k, rfl, hk⟩

theorem endsAt_append_cons (a b : Text) (c : Char) : EndsAt (a ++ c :: b) (a.length + 1) c :=
  ⟨a.length, rfl, by simp⟩

/-! ## Links -/

/-- A balanced text ends with its closer. -/
theorem endsAt_of_closingLength? {opener closer : Char} {depth : Nat}
    (h : closingLength? opener closer depth t = some n) : EndsAt t n closer := by
  fun_induction closingLength? opener closer depth t generalizing n with
  | case1 => exact absurd h (by simp)
  | case2 depth x r ih =>
    obtain ⟨m, hm, rfl⟩ := Option.map_eq_some_iff.mp h
    exact ((ih hm).cons x).cons '\\'
  | case3 depth r _ ih =>
    obtain ⟨m, hm, rfl⟩ := Option.map_eq_some_iff.mp h
    exact (ih hm).cons opener
  | case4 depth r =>
    obtain rfl := Option.some.inj h
    exact ⟨0, rfl, rfl⟩
  | case5 depth r _ _ _ ih =>
    obtain ⟨m, hm, rfl⟩ := Option.map_eq_some_iff.mp h
    exact (ih hm).cons closer
  | case6 depth x r _ _ _ ih =>
    obtain ⟨m, hm, rfl⟩ := Option.map_eq_some_iff.mp h
    exact (ih hm).cons x

/-- A link ends with a closing parenthesis or bracket, and its label stands right after its first
bracket. -/
theorem link?_spec {label : Text} (h : link? t = some (label, n)) :
    (EndsAt t n ')' ∨ EndsAt t n ']') ∧ label <+: t.drop 1 ∧ label.length + 1 < n := by
  obtain ⟨m, hm, hlink⟩ := Option.bind_eq_some_iff.mp h
  have hpos : 0 < m := (endsAt_of_closingLength? hm).pos
  have hlabel {k : Nat} (hk : m < k) : (t.take (m - 1)).drop 1 <+: t.drop 1 ∧
      ((t.take (m - 1)).drop 1).length + 1 < k := by
    rw [List.drop_take]
    refine ⟨List.take_prefix _ _, ?_⟩
    rw [List.length_take]
    omega
  simp only at hlink
  split at hlink
  · next r hrest =>
    obtain ⟨⟨address, rest⟩, hcut, hif⟩ := Option.bind_eq_some_iff.mp hlink
    obtain ⟨x, -, hr⟩ := Text.cutAt?_eq_some hcut
    simp only at hif
    split at hif
    · next hclose =>
      obtain ⟨rfl, rfl⟩ := Prod.mk.inj (Option.some.inj hif)
      generalize (rest.takeWhile fun c => c = ' ' || c = '\t').length = gap at hclose ⊢
      obtain ⟨tail, htail⟩ := List.head?_eq_some_iff.mp hclose
      have hgap : (rest.take gap).length = gap := by
        have := congrArg List.length htail
        rw [List.length_drop, List.length_cons] at this
        rw [List.length_take]
        omega
      have hend := ((endsAt_append_cons (address ++ x :: rest.take gap) tail ')').cons '<').cons '('
      have hsplit : address ++ x :: rest.take gap ++ ')' :: tail = r := by
        rw [List.append_assoc, List.cons_append, ← htail, List.take_append_drop, hr]
      rw [hsplit, ← hrest, List.length_append, List.length_cons, hgap] at hend
      have hlength : m + (address.length + (gap + 1) + 1 + 1 + 1) = m + address.length + gap + 4 := by
        omega
      exact ⟨.inl (hlength ▸ hend.of_drop), hlabel (by omega)⟩
    · exact absurd hif (by simp)
  · next r _ hrest =>
    obtain ⟨k, hk, hpair⟩ := Option.map_eq_some_iff.mp hlink
    obtain ⟨rfl, rfl⟩ := Prod.mk.inj hpair
    have hend := endsAt_of_closingLength? hk
    rw [← hrest] at hend
    exact ⟨.inl hend.of_drop, hlabel (Nat.lt_add_of_pos_right hend.pos)⟩
  · next r hrest =>
    obtain ⟨⟨reference, rest⟩, hcut, hpair⟩ := Option.map_eq_some_iff.mp hlink
    obtain ⟨rfl, rfl⟩ := Prod.mk.inj hpair
    obtain ⟨x, hx, rfl⟩ := Text.cutAt?_eq_some hcut
    obtain rfl : x = ']' := of_decide_eq_true hx
    have hend := (endsAt_append_cons reference rest ']').cons '['
    rw [← hrest] at hend
    exact ⟨.inr hend.of_drop, hlabel (by omega)⟩
  · exact absurd hlink (by simp)

/-! ## Code spans -/

/-- A code span ends with a backtick, unless its last run was complete before the text. -/
theorem endsAt_of_closeCode? {run k : Nat} (hn : n ≠ 0) (h : closeCode? n run t = some k) :
    k = 0 ∧ run = n ∨ EndsAt t k '\x60' := by
  induction t generalizing run k with
  | nil =>
    rw [closeCode?] at h
    split at h
    · next hrun => exact .inl ⟨(Option.some.inj h).symm, hrun⟩
    · exact absurd h (by simp)
  | cons c r ih =>
    rw [closeCode?] at h
    split at h
    · next hc =>
      obtain ⟨m, hm, rfl⟩ := Option.map_eq_some_iff.mp h
      rcases ih hm with ⟨rfl, -⟩ | hend
      · exact .inr ⟨0, rfl, congrArg some hc⟩
      · exact .inr (hend.cons c)
    · split at h
      · next hrun => exact .inl ⟨(Option.some.inj h).symm, hrun⟩
      · split at h
        · exact absurd h (by simp)
        · obtain ⟨m, hm, rfl⟩ := Option.map_eq_some_iff.mp h
          rcases ih hm with ⟨rfl, hzero⟩ | hend
          · exact absurd hzero.symm hn
          · exact .inr (hend.cons c)

theorem endsAt_of_codeSpan? (h : codeSpan? t = some n) : EndsAt t n '\x60' := by
  unfold codeSpan? at h
  simp only at h
  split at h
  · exact absurd h (by simp)
  · next hrun =>
    obtain ⟨k, hk, rfl⟩ := Option.map_eq_some_iff.mp h
    exact ((endsAt_of_closeCode? hrun hk).resolve_left fun hnil => hrun hnil.2.symm).of_drop

theorem length_spansFrom (skip : Nat) (previous : Option Char) (t : Text) :
    (spansFrom skip previous t).length = t.length := by
  fun_induction spansFrom skip previous t <;> simp_all

/-- A character starts a code span or none, and none starts in the rest of it. -/
theorem spansFrom_cons (skip : Nat) (previous : Option Char) (c : Char) (r : Text) :
    ∃ n, spansFrom skip previous (c :: r) = n :: spansFrom (max skip n - 1) (some c) r ∧
      (0 < n → codeSpan? (c :: r) = some n) := by
  rw [spansFrom]
  split
  · exact ⟨0, by rw [Nat.max_zero], fun h => absurd h (Nat.lt_irrefl 0)⟩
  · next hskip =>
    obtain rfl := Nat.eq_zero_of_not_pos hskip
    split
    · exact ⟨0, rfl, fun h => absurd h (Nat.lt_irrefl 0)⟩
    · split
      · next n hn => exact ⟨n, by rw [Nat.zero_max], fun _ => hn⟩
      · exact ⟨0, rfl, fun h => absurd h (Nat.lt_irrefl 0)⟩

variable {skip : Nat} {previous : Option Char}

/-- The marked spans are code spans. -/
theorem codeSpan?_of_spansFrom (h : (spansFrom skip previous t)[i]? = some n) (hn : 0 < n) :
    codeSpan? (t.drop i) = some n := by
  induction t generalizing skip previous i with
  | nil => exact absurd h (by simp [spansFrom])
  | cons c r ih =>
    obtain ⟨m, hcons, hm⟩ := spansFrom_cons skip previous c r
    rw [hcons] at h
    cases i with
    | zero =>
      obtain rfl := Option.some.inj h
      exact hm hn
    | succ i => exact ih h

theorem spansFrom_skip (hi : i < skip) (hlength : i < t.length) :
    (spansFrom skip previous t)[i]? = some 0 := by
  induction t generalizing skip previous i with
  | nil => exact absurd hlength (Nat.not_lt_zero i)
  | cons c r ih =>
    rw [spansFrom, if_pos (Nat.zero_lt_of_lt hi)]
    cases i with
    | zero => rfl
    | succ i => exact ih (by omega) (Nat.lt_of_succ_lt_succ hlength)

/-- A code span starts with a backtick. -/
theorem head?_of_codeSpan? (h : codeSpan? t = some n) : t.head? = some '\x60' := by
  cases t with
  | nil => exact absurd h (by simp [codeSpan?])
  | cons c r =>
    by_cases hc : c = '\x60'
    · rw [hc]
      rfl
    · exact absurd h (by simp [codeSpan?, hc])

theorem getElem?_of_spans (h : (spans t)[i]? = some n) (hn : 0 < n) : t[i]? = some '\x60' := by
  rw [← List.head?_drop]
  exact head?_of_codeSpan? (codeSpan?_of_spansFrom h hn)

theorem endsAt_of_spans (h : (spans t)[i]? = some n) (hn : 0 < n) : EndsAt t (i + n) '\x60' :=
  (endsAt_of_codeSpan? (codeSpan?_of_spansFrom h hn)).of_drop

/-- No code span starts inside of another one. -/
theorem spansFrom_inside {k : Nat} (h : (spansFrom skip previous t)[i]? = some n) (hik : i < k)
    (hk : k < i + n) (hlength : k < t.length) : (spansFrom skip previous t)[k]? = some 0 := by
  induction t generalizing skip previous i k with
  | nil => exact absurd hlength (Nat.not_lt_zero k)
  | cons c r ih =>
    obtain ⟨m, hcons, -⟩ := spansFrom_cons skip previous c r
    obtain ⟨k, rfl⟩ := Nat.exists_eq_succ_of_ne_zero (Nat.ne_zero_of_lt hik)
    have hr : k < r.length := Nat.lt_of_succ_lt_succ hlength
    rw [hcons] at h ⊢
    cases i with
    | zero =>
      obtain rfl := Option.some.inj h
      exact spansFrom_skip (by omega) hr
    | succ i => exact ih h (by omega) (by omega) hr

end Title

end TaggedOutline
