import TaggedOutline.Proofs.Heading.Fence

/-!
# Fence lines

Before the marks of a fence there are up to three spaces and then block quote markers with the
spaces after them (`Fence.Lead`). Such a start is dropped as a whole, because a mark is neither a
space nor a block quote marker (`bare_append`). So a line opens a region iff it is such a start, a
run of at least three marks and a rest without that mark at its beginning (`opening?_eq_some_iff`),
and it closes one iff enough marks and then only blanks follow such a start (`closes_iff`).
-/

namespace TaggedOutline.Fence

/-- Block quote markers, each with the spaces after it. -/
inductive Quotes : Text → Prop
  | nil : Quotes []
  | cons (spaces : Nat) {quotes : Text} :
      Quotes quotes → Quotes ('>' :: (List.replicate spaces ' ' ++ quotes))

/-- What may stand before the marks of a fence. -/
def Lead (lead : Text) : Prop :=
  ∃ (indent : Nat) (quotes : Text),
    indent ≤ 3 ∧ Quotes quotes ∧ lead = List.replicate indent ' ' ++ quotes

/-- The characters that fences are made of. -/
def IsMark (c : Char) : Prop := c = '\x60' ∨ c = '~'

/-- The line begins with a fence of exactly `n` marks `c`. -/
def Opens (c : Char) (n : Nat) (line : Text) : Prop :=
  IsMark c ∧ 3 ≤ n ∧ ∃ lead rest, Lead lead ∧ rest.head? ≠ some c ∧
    line = lead ++ (List.replicate n c ++ rest)

/-- The line is a fence of at least `n` marks `c`, with nothing but blanks after it. -/
def Closes (c : Char) (n : Nat) (line : Text) : Prop :=
  ∃ lead m blanks, Lead lead ∧ n ≤ m ∧ (∀ x ∈ blanks, Text.isBlank x = true) ∧
    line = lead ++ (List.replicate m c ++ blanks)

variable {c : Char} {n : Nat} {line t : Text}

theorem IsMark.ne_space (h : IsMark c) : c ≠ ' ' := by
  rcases h with rfl | rfl <;> decide

theorem IsMark.ne_quote (h : IsMark c) : c ≠ '>' := by
  rcases h with rfl | rfl <;> decide

theorem IsMark.isBlank_eq_false (h : IsMark c) : Text.isBlank c = false := by
  rcases h with rfl | rfl <;> rfl

/-! ## The start of a line -/

theorem dropWhile_spaces (k : Nat) (h : t.head? ≠ some ' ') :
    (List.replicate k ' ' ++ t).dropWhile (· = ' ') = t := by
  rw [List.dropWhile_append_of_pos fun x hx => decide_eq_true (List.mem_replicate.mp hx).2]
  cases t with
  | nil => rfl
  | cons x s => exact List.dropWhile_cons_of_neg (by simpa using h)

theorem dropSpaces_replicate {k : Nat} (hk : k ≤ n) (h : t.head? ≠ some ' ') :
    dropSpaces n (List.replicate k ' ' ++ t) = t := by
  induction n generalizing k with
  | zero =>
    obtain rfl := Nat.le_zero.mp hk
    rfl
  | succ n ih =>
    cases k with
    | zero =>
      cases t with
      | nil => rfl
      | cons x s =>
        rw [List.replicate_zero, List.nil_append, dropSpaces]
        rintro m r - hr
        exact h (by rw [(List.cons.inj hr).1]; rfl)
    | succ k => exact ih (Nat.le_of_succ_le_succ hk)

theorem exists_dropSpaces (n : Nat) (t : Text) :
    ∃ k ≤ n, t = List.replicate k ' ' ++ dropSpaces n t := by
  fun_induction dropSpaces n t with
  | case1 n r ih =>
    obtain ⟨k, hk, hr⟩ := ih
    exact ⟨k + 1, Nat.succ_le_succ hk, congrArg (' ' :: ·) hr⟩
  | case2 n t => exact ⟨0, Nat.zero_le n, rfl⟩

/-- Block quote markers do not begin with a space, so the spaces before them end there. -/
theorem Quotes.head?_append {quotes : Text} (h : Quotes quotes) (ht : t.head? ≠ some ' ') :
    (quotes ++ t).head? ≠ some ' ' := by
  cases h with
  | nil => exact ht
  | cons spaces h => exact fun he => absurd he (by simp)

theorem dropQuotes_go_append {quotes : Text} (h : Quotes quotes) (hspace : t.head? ≠ some ' ')
    (hquote : t.head? ≠ some '>') {fuel : Nat} (hfuel : (quotes ++ t).length ≤ fuel) :
    dropQuotes.go fuel (quotes ++ t) = t := by
  induction h generalizing fuel with
  | nil =>
    rw [List.nil_append, dropQuotes.go]
    rintro n r - rfl
    exact hquote rfl
  | @cons spaces quotes h ih =>
    cases fuel with
    | zero => exact absurd hfuel (by simp)
    | succ fuel =>
      have hrest : (List.replicate spaces ' ' ++ (quotes ++ t)).dropWhile (· = ' ') = quotes ++ t :=
        dropWhile_spaces spaces (h.head?_append hspace)
      have hlength : (quotes ++ t).length ≤ fuel := by
        simp only [List.length_append, List.length_cons, List.length_replicate] at hfuel ⊢
        omega
      calc dropQuotes.go (fuel + 1) ('>' :: (List.replicate spaces ' ' ++ quotes) ++ t)
          = dropQuotes.go fuel
              ((List.replicate spaces ' ' ++ (quotes ++ t)).dropWhile (· = ' ')) := by
            rw [List.cons_append, List.append_assoc, dropQuotes.go]
        _ = t := by rw [hrest, ih hlength]

theorem exists_dropQuotes_go (fuel : Nat) (t : Text) :
    ∃ quotes, Quotes quotes ∧ t = quotes ++ dropQuotes.go fuel t := by
  fun_induction dropQuotes.go fuel t with
  | case1 fuel r ih =>
    obtain ⟨quotes, hquotes, hr⟩ := ih
    obtain ⟨k, s, hs, hhead⟩ := Text.exists_replicate_append ' ' r
    have hdrop : r.dropWhile (· = ' ') = s := by rw [hs, dropWhile_spaces k hhead]
    rw [hdrop] at hr
    refine ⟨'>' :: (List.replicate k ' ' ++ quotes), .cons k hquotes, ?_⟩
    rw [hdrop, List.cons_append, List.append_assoc, ← hr, hs]
  | case2 fuel t => exact ⟨[], .nil, rfl⟩

/-- What may stand before a fence is dropped as a whole before a mark. -/
theorem bare_append {lead : Text} (h : Lead lead) (hc : IsMark c) (r : Text) :
    bare (lead ++ c :: r) = c :: r := by
  obtain ⟨indent, quotes, hindent, hquotes, rfl⟩ := h
  have hspace : (c :: r).head? ≠ some ' ' := by simpa using hc.ne_space
  have hquote : (c :: r).head? ≠ some '>' := by simpa using hc.ne_quote
  rw [bare, List.append_assoc, dropSpaces_replicate hindent (hquotes.head?_append hspace)]
  exact dropQuotes_go_append hquotes hspace hquote (Nat.le_refl _)

theorem exists_lead (line : Text) : ∃ lead, Lead lead ∧ line = lead ++ bare line := by
  obtain ⟨indent, hindent, hline⟩ := exists_dropSpaces 3 line
  obtain ⟨quotes, hquotes, hrest⟩ :=
    exists_dropQuotes_go (dropSpaces 3 line).length (dropSpaces 3 line)
  refine ⟨_, ⟨indent, quotes, hindent, hquotes, rfl⟩, ?_⟩
  rw [List.append_assoc]
  exact hline.trans (congrArg _ hrest)

/-! ## Fences -/

theorem runLength_replicate_append (h : t.head? ≠ some c) (n : Nat) :
    runLength c (List.replicate n c ++ t) = n := by
  rw [runLength, Text.takeWhile_replicate_append h, List.length_replicate]

/-- A text is the run of a mark at its start and what goes on without it. -/
theorem run_append (c : Char) (t : Text) :
    t = List.replicate (runLength c t) c ++ t.drop (runLength c t) ∧
      (t.drop (runLength c t)).head? ≠ some c := by
  obtain ⟨n, r, rfl, hr⟩ := Text.exists_replicate_append c t
  have hdrop : (List.replicate n c ++ r).drop n = r := List.drop_left' (List.length_replicate ..)
  rw [runLength_replicate_append hr, hdrop]
  exact ⟨rfl, hr⟩

theorem opening?_eq_some_iff : opening? line = some (c, n) ↔ Opens c n line := by
  constructor
  · intro h
    obtain ⟨lead, hlead, hline⟩ := exists_lead line
    unfold opening? at h
    split at h
    · exact absurd h (by simp)
    · next x r hbare =>
      split at h
      · next hx =>
        simp only at h
        split at h
        · exact absurd h (by simp)
        · next hn =>
          obtain ⟨rfl, rfl⟩ := Prod.mk.inj (Option.some.inj h)
          obtain ⟨hrest, hhead⟩ := run_append x (x :: r)
          refine ⟨hx, by omega, lead, _, hlead, hhead, ?_⟩
          rw [← hrest, ← hbare]
          exact hline
      · exact absurd h (by simp)
  · rintro ⟨hc, hn, lead, rest, hlead, hhead, rfl⟩
    obtain ⟨k, rfl⟩ := Nat.exists_eq_add_of_le' (Nat.le_trans (by decide : 1 ≤ 3) hn)
    have hbare : bare (lead ++ (List.replicate (k + 1) c ++ rest)) =
        c :: (List.replicate k c ++ rest) := bare_append hlead hc _
    have hrun : runLength c (c :: (List.replicate k c ++ rest)) = k + 1 :=
      runLength_replicate_append hhead (k + 1)
    unfold opening?
    rw [hbare]
    simp only
    rw [if_pos (show c = '\x60' ∨ c = '~' from hc), hrun, if_neg (by omega)]

theorem closes_iff (hc : IsMark c) (hn : 1 ≤ n) : closes c n line = true ↔ Closes c n line := by
  have hiff : closes c n line = true ↔ n ≤ runLength c (bare line) ∧
      Text.isBlankText ((bare line).drop (runLength c (bare line))) = true := by
    unfold closes
    rw [Bool.and_eq_true, decide_eq_true_iff, Int.ofNat_le]
  rw [hiff]
  constructor
  · rintro ⟨hle, hblank⟩
    obtain ⟨lead, hlead, hline⟩ := exists_lead line
    refine ⟨lead, runLength c (bare line), _, hlead, hle, List.all_eq_true.mp hblank, ?_⟩
    rw [← (run_append c (bare line)).1]
    exact hline
  · rintro ⟨lead, m, blanks, hlead, hle, hblank, rfl⟩
    obtain ⟨k, rfl⟩ := Nat.exists_eq_add_of_le' (Nat.le_trans hn hle)
    have hbare : bare (lead ++ (List.replicate (k + 1) c ++ blanks)) =
        List.replicate (k + 1) c ++ blanks := bare_append hlead hc _
    have hhead : blanks.head? ≠ some c := by
      intro h
      have := hblank c (List.mem_of_head? h)
      rw [hc.isBlank_eq_false] at this
      exact absurd this (by simp)
    have hdrop : (List.replicate (k + 1) c ++ blanks).drop (k + 1) = blanks :=
      List.drop_left' (List.length_replicate ..)
    rw [hbare, runLength_replicate_append hhead, hdrop]
    exact ⟨hle, List.all_eq_true.mpr hblank⟩

end TaggedOutline.Fence
