import Mathlib.Data.List.Pairwise
import TaggedOutline.Proofs.Title.Strip

/-!
# Code spans in stripped titles

1. A scan goes over a code span with one step, so a code span that starts outside of the links meets
   none of them (`Scan.avoids`). It may still start in a label and end after it.
2. A title with its links replaced is the text of the characters that no link hides
   (`replaced_eq_textAt`).
3. So a code span is left untouched unless it starts in a link and does not end in its label
   (`isShown_iff_isKept`), and the spans that are left untouched stand in the stripped title in their
   order (`inOrder_textAt`).
-/

namespace TaggedOutline.Title

/-! ## Code spans -/

/-- A code span: where it starts, and its length. -/
structure Span where
  start : Nat
  length : Nat
  deriving DecidableEq, Repr

/-- The offset after a code span. -/
def Span.stop (s : Span) : Nat := s.start + s.length

def Span.text (t : Text) (s : Span) : Text := (t.take s.stop).drop s.start

/-- The code spans of a title, in its order. -/
def codeSpans (t : Text) : List Span := ((spans t).mapIdx Span.mk).filter fun s => 0 < s.length

/-- The code span ends in the label of each link that it starts in. -/
def Span.IsKept (links : List Link) (s : Span) : Prop :=
  ∀ l ∈ links, l.Covers s.start → s.stop ≤ l.start + 1 + l.label.length

/-- The pieces stand in the text one after the other, with something or nothing between them. -/
inductive InOrder : List Text → Text → Prop
  | nil (rest : Text) : InOrder [] rest
  | cons {pieces : List Text} {rest : Text} (gap piece : Text) (later : InOrder pieces rest) :
      InOrder (piece :: pieces) (gap ++ piece ++ rest)

instance (l : Link) (i : Nat) : Decidable (l.Covers i) := inferInstanceAs (Decidable (_ ∧ _))

instance (links : List Link) (s : Span) : Decidable (s.IsKept links) :=
  inferInstanceAs (Decidable (∀ l ∈ links, l.Covers s.start → s.stop ≤ l.start + 1 + l.label.length))

variable {t out : Text} {i j k n : Nat} {l : Link} {links : List Link} {s : Span}

theorem mem_codeSpans : s ∈ codeSpans t ↔ (spans t)[s.start]? = some s.length ∧ 0 < s.length := by
  rw [codeSpans, List.mem_filter, List.mem_mapIdx, decide_eq_true_eq]
  refine and_congr_left fun _ => ?_
  constructor
  · rintro ⟨i, hi, rfl⟩
    exact List.getElem?_eq_getElem hi
  · intro h
    obtain ⟨hi, hn⟩ := List.getElem?_eq_some_iff.mp h
    exact ⟨s.start, hi, by rw [hn]⟩

theorem endsAt_of_mem_codeSpans (h : s ∈ codeSpans t) : EndsAt t s.stop '\x60' := by
  obtain ⟨hspan, hpos⟩ := mem_codeSpans.mp h
  exact endsAt_of_spans hspan hpos

/-- Code spans do not overlap. -/
theorem pairwise_codeSpans (t : Text) : (codeSpans t).Pairwise fun a b => a.stop ≤ b.start := by
  rw [codeSpans, List.pairwise_filter, List.pairwise_iff_getElem]
  intro i j hi hj hij hposi hposj
  rw [List.length_mapIdx] at hi hj
  rw [List.getElem_mapIdx] at hposi hposj ⊢
  rw [List.getElem_mapIdx]
  by_contra hlt
  have hzero : (spans t)[j]? = some 0 :=
    spansFrom_inside (List.getElem?_eq_getElem hi) hij (Nat.lt_of_not_le hlt)
      (by rwa [spans, length_spansFrom] at hj)
  rw [List.getElem?_eq_getElem hj] at hzero
  exact absurd (Option.some.inj hzero) (by simpa [Nat.pos_iff_ne_zero] using hposj)

/-! ## Links and code spans -/

theorem IsLink.stop_le_before {a b : Link} (ha : IsLink t a) (h : a.stop ≤ b.start) :
    a.stop ≤ b.before t :=
  ha.endsAt.elim (fun hend => hend.le_before (by decide) h)
    fun hend => hend.le_before (by decide) h

/-- A code span that starts outside of the links of a scan meets none of them. -/
theorem Scan.avoids (h : Scan t i links out) (hs : s ∈ codeSpans t) (hi : i ≤ s.start)
    (houtside : ∀ l ∈ links, ¬ l.Covers s.start) :
    ∀ l ∈ links, l.stop ≤ s.start ∨ s.stop ≤ l.before t := by
  obtain ⟨hspan, hpos⟩ := mem_codeSpans.mp hs
  have hget := getElem?_of_spans hspan hpos
  induction h with
  | done => exact fun l hl => absurd hl List.not_mem_nil
  | @code i n links out span pos rest ih =>
    rcases Nat.eq_or_lt_of_le hi with rfl | hlt
    · obtain rfl : n = s.length := Option.some.inj (span.symm.trans hspan)
      exact fun l hl => .inr
        ((endsAt_of_mem_codeSpans hs).le_before (by decide) (rest.mem l hl).2)
    · refine ih ?_ houtside
      by_contra hinside
      have hzero := spansFrom_inside span hlt (Nat.lt_of_not_le hinside)
        (List.getElem?_eq_some_iff.mp hget).1
      exact absurd (Option.some.inj (hspan.symm.trans hzero)) (Nat.pos_iff_ne_zero.mp hpos)
  | @link l links out isLink rest ih =>
    have hstop : l.stop ≤ s.start := by
      by_contra hlt
      exact houtside l List.mem_cons_self ⟨hi, Nat.lt_of_not_le hlt⟩
    rintro l' (_ | ⟨_, hl'⟩)
    · exact .inl hstop
    · exact ih hstop (fun l hl => houtside l (List.mem_cons_of_mem _ hl)) l' hl'
  | image sign start rest ih =>
    refine ih (Nat.lt_of_le_of_ne hi ?_) houtside
    rintro rfl
    exact absurd (sign.1.symm.trans hget) (by decide)
  | char _ noSpan _ _ rest ih =>
    refine ih (Nat.lt_of_le_of_ne hi ?_) houtside
    rintro rfl
    exact absurd (Option.some.inj (hspan.symm.trans noSpan)) (Nat.pos_iff_ne_zero.mp hpos)

theorem Scan.apart {l' : Link} (h : Scan t i links out) (hl : l ∈ links) (hl' : l' ∈ links)
    (hne : l ≠ l') : l.stop ≤ l'.start ∨ l'.stop ≤ l.start := by
  have hsymm : Std.Symm fun a b : Link => a.stop ≤ b.start ∨ b.stop ≤ a.start :=
    ⟨fun _ _ => Or.symm⟩
  have hpairwise : links.Pairwise fun a b => a.stop ≤ b.start ∨ b.stop ≤ a.start :=
    h.pairwise.imp Or.inl
  exact hpairwise.forall hl hl' hne

/-! ## Shown characters -/

/-- The link hides the character at an offset: it is the sign, or it is in the link but not in its
label. -/
def Link.Hides (t : Text) (l : Link) (j : Nat) : Prop :=
  l.before t ≤ j ∧ j < l.stop ∧ (j ≤ l.start ∨ l.start + l.label.length < j)

/-- The character at an offset is shown. -/
def IsShown (t : Text) (links : List Link) (j : Nat) : Prop := ∀ l ∈ links, ¬ l.Hides t j

instance (t : Text) (l : Link) (j : Nat) : Decidable (l.Hides t j) :=
  inferInstanceAs (Decidable (_ ∧ _ ∧ (_ ∨ _)))

instance (t : Text) (links : List Link) (j : Nat) : Decidable (IsShown t links j) :=
  inferInstanceAs (Decidable (∀ l ∈ links, ¬ l.Hides t j))

/-- The offsets of the shown characters, from an offset on. -/
def shownFrom (t : Text) (links : List Link) (i : Nat) : List Nat :=
  (List.range' i (t.length - i)).filter fun j => IsShown t links j

/-- The characters at the offsets. -/
def textAt (t : Text) (js : List Nat) : Text := js.filterMap fun j => t[j]?

theorem textAt_append (t : Text) (js ks : List Nat) :
    textAt t (js ++ ks) = textAt t js ++ textAt t ks := List.filterMap_append

theorem textAt_range' (t : Text) (i n : Nat) :
    textAt t (List.range' i n) = (t.drop i).take n := by
  induction n generalizing i with
  | zero => rfl
  | succ n ih =>
    rw [List.range'_succ, ← List.singleton_append, textAt_append, ih]
    rcases Nat.lt_or_ge i t.length with hlt | hge
    · rw [List.drop_eq_getElem_cons hlt, List.take_succ_cons]
      simp [textAt, List.getElem?_eq_getElem hlt]
    · rw [List.drop_eq_nil_of_le hge, List.drop_eq_nil_of_le (by omega)]
      simp [textAt, hge]

theorem shownFrom_eq_append (links : List Link) (hij : i ≤ j) (hj : j ≤ t.length) :
    shownFrom t links i =
      (List.range' i (j - i)).filter (fun k => IsShown t links k) ++ shownFrom t links j := by
  rw [shownFrom, show t.length - i = (j - i) + (t.length - j) by omega, ← List.range'_append_1,
    List.filter_append, Nat.add_sub_cancel' hij]
  rfl

/-- Where all characters are shown. -/
theorem textAt_shownFrom (hij : i ≤ j) (hj : j ≤ t.length)
    (h : ∀ k, i ≤ k → k < j → IsShown t links k) :
    textAt t (shownFrom t links i) = (t.take j).drop i ++ textAt t (shownFrom t links j) := by
  have hall : (List.range' i (j - i)).filter (fun k => IsShown t links k) =
      List.range' i (j - i) := by
    refine List.filter_eq_self.mpr fun k hk => decide_eq_true ?_
    rw [List.mem_range'_1] at hk
    exact h k hk.1 (by omega)
  rw [shownFrom_eq_append links hij hj, hall, textAt_append, textAt_range', List.drop_take]

/-- Where a link hides all characters. -/
theorem shownFrom_of_hides (hl : l ∈ links) (hij : i ≤ j) (hj : j ≤ t.length)
    (h : ∀ k, i ≤ k → k < j → l.Hides t k) : shownFrom t links i = shownFrom t links j := by
  have hnone : (List.range' i (j - i)).filter (fun k => IsShown t links k) = [] := by
    refine List.filter_eq_nil_iff.mpr fun k hk hshown => ?_
    rw [List.mem_range'_1] at hk
    exact of_decide_eq_true hshown l hl (h k hk.1 (by omega))
  rw [shownFrom_eq_append links hij hj, hnone, List.nil_append]

/-- What is shown after a link does not depend on it. -/
theorem shownFrom_stop (t : Text) (l : Link) (links : List Link) :
    shownFrom t (l :: links) l.stop = shownFrom t links l.stop := by
  refine List.filter_congr fun k hk => decide_eq_decide.mpr ?_
  rw [List.mem_range'_1] at hk
  refine List.forall_mem_cons.trans (and_iff_right fun hhides => ?_)
  exact absurd hhides.2.1 (Nat.not_lt.mpr hk.1)

/-- A title with its links replaced is the text of the characters that no link hides. -/
theorem replaced_eq_textAt (hlinks : ∀ l ∈ links, IsLink t l)
    (hpairwise : links.Pairwise fun a b => a.stop ≤ b.start) (hi : ∀ l ∈ links, i ≤ l.before t) :
    replaced t i links = textAt t (shownFrom t links i) := by
  induction links generalizing i with
  | nil =>
    have hall : shownFrom t [] i = List.range' i (t.length - i) :=
      List.filter_eq_self.mpr fun k _ => decide_eq_true fun l hl => absurd hl List.not_mem_nil
    rw [hall, textAt_range', List.take_of_length_le (List.length_drop ▸ Nat.le_refl _)]
    rfl
  | cons l links ih =>
    obtain ⟨hlink, hlinks⟩ := List.forall_mem_cons.mp hlinks
    obtain ⟨hapart, hpairwise⟩ := List.pairwise_cons.mp hpairwise
    have hafter : ∀ l' ∈ links, l.stop ≤ l'.before t := fun l' hl' =>
      hlink.stop_le_before (hapart l' hl')
    -- The later links hide nothing up to the end of this one.
    have hshown {k : Nat} (hk : k < l.stop) (h : ¬ l.Hides t k) : IsShown t (l :: links) k := by
      refine List.forall_mem_cons.mpr ⟨h, fun l' hl' hhides => ?_⟩
      exact absurd (hafter l' hl') (Nat.not_le.mpr (hhides.1.trans_lt hk))
    have hbefore := Link.before_le l t
    have hlabel : l.start + 1 + l.label.length < l.stop := by
      have := hlink.label_length
      rw [Link.stop]
      omega
    have hstop := hlink.stop_le
    have htext : (t.take (l.start + 1 + l.label.length)).drop (l.start + 1) = l.label := by
      rw [List.drop_take, Nat.add_sub_cancel_left]
      exact (List.prefix_iff_eq_take.mp hlink.label_prefix).symm
    rw [replaced, ih hlinks hpairwise hafter]
    rw [textAt_shownFrom (hi l List.mem_cons_self) (by omega)
        fun k _ hk => hshown (by omega) fun hhides => by have := hhides.1; omega,
      shownFrom_of_hides (j := l.start + 1) List.mem_cons_self (by omega) (by omega)
        fun k h1 h2 => ⟨h1, by omega, .inl (by omega)⟩,
      textAt_shownFrom (j := l.start + 1 + l.label.length) (by omega) (by omega)
        fun k _ _ => hshown (by omega) fun hhides => by have := hhides.2.2; omega,
      shownFrom_of_hides (j := l.stop) List.mem_cons_self (by omega) hstop
        fun k _ _ => ⟨by omega, by omega, .inr (by omega)⟩,
      htext, shownFrom_stop, List.append_assoc]

/-! ## Spans that are left untouched -/

/-- All characters of a code span are shown iff it ends in the label of each link that it starts
in. -/
theorem isShown_iff_isKept (h : Scan t 0 links out) (hs : s ∈ codeSpans t) :
    (∀ j, s.start ≤ j → j < s.stop → IsShown t links j) ↔ s.IsKept links := by
  obtain ⟨hspan, hpos⟩ := mem_codeSpans.mp hs
  have hget := getElem?_of_spans hspan hpos
  constructor
  · rintro hshown l hl ⟨-, hlt⟩
    by_contra hends
    -- Of the span the first character after the label is hidden.
    have hlabel := (h.mem l hl).1.label_length
    have hbefore := Link.before_le l t
    have hstop : s.start < s.stop := Nat.lt_add_of_pos_right hpos
    rw [Link.stop] at hlt
    refine hshown (max s.start (l.start + 1 + l.label.length)) (by omega) (by omega) l hl
      ⟨by omega, ?_, .inr (by omega)⟩
    rw [Link.stop]
    omega
  · intro hkept j hj hlt l hl hhides
    by_cases houtside : ∀ l ∈ links, ¬ l.Covers s.start
    · rcases h.avoids hs (Nat.zero_le _) houtside l hl with hstop | hbefore
      · exact absurd hhides.2.1 (by omega)
      · exact absurd hhides.1 (by omega)
    · obtain ⟨l', hl', hcovers⟩ : ∃ l' ∈ links, l'.Covers s.start := by simpa using houtside
      obtain ⟨hlink', -⟩ := h.mem l' hl'
      have hends := hkept l' hl' hcovers
      -- A link starts with a bracket, but a code span with a backtick.
      have hne : l'.start ≠ s.start := fun heq =>
        absurd (hget.symm.trans (heq ▸ hlink'.opens.1)) (by decide)
      have hafter : l'.start < j := by
        have := hcovers.1
        omega
      have hinside : j < l'.stop := by
        have := hlink'.label_length
        rw [Link.stop]
        omega
      by_cases heq : l = l'
      · subst heq
        have := hhides.2.2
        omega
      · rcases h.apart hl hl' heq with hstop | hstop
        · exact absurd hhides.2.1 (by omega)
        · exact absurd hhides.1 (by have := hlink'.stop_le_before hstop; omega)

/-- Pieces of which all characters are shown are shown in their order. -/
theorem inOrder_textAt {pieces : List Span} (hstop : ∀ s ∈ pieces, s.stop ≤ t.length)
    (hpairwise : pieces.Pairwise fun a b => a.stop ≤ b.start) (hi : ∀ s ∈ pieces, i ≤ s.start)
    (h : ∀ s ∈ pieces, ∀ j, s.start ≤ j → j < s.stop → IsShown t links j) :
    InOrder (pieces.map (Span.text t)) (textAt t (shownFrom t links i)) := by
  induction pieces generalizing i with
  | nil => exact .nil _
  | cons s pieces ih =>
    obtain ⟨hapart, hpairwise⟩ := List.pairwise_cons.mp hpairwise
    obtain ⟨hs, hstop⟩ := List.forall_mem_cons.mp hstop
    obtain ⟨hshown, h⟩ := List.forall_mem_cons.mp h
    have hle : s.start ≤ s.stop := Nat.le_add_right s.start s.length
    rw [shownFrom_eq_append links (hi s List.mem_cons_self) (hle.trans hs), textAt_append,
      textAt_shownFrom hle hs hshown, ← List.append_assoc]
    exact .cons _ _ (ih hstop hpairwise hapart h)

/-- A stripped title is the text of the characters that no link hides. Of the code spans just those
are left untouched that end in the label of each link that they start in, and they stand in the
stripped title in their order. -/
theorem stripLinks_keeps_codeSpans (t : Text) :
    ∃ links, AllLinks t links ∧ stripLinks t = textAt t (shownFrom t links 0) ∧
      (∀ s ∈ codeSpans t,
        (∀ j, s.start ≤ j → j < s.stop → IsShown t links j) ↔ s.IsKept links) ∧
      InOrder (((codeSpans t).filter fun s => s.IsKept links).map (Span.text t)) (stripLinks t) := by
  obtain ⟨links, hscan⟩ := exists_scan t
  have hshown : stripLinks t = textAt t (shownFrom t links 0) :=
    hscan.eq_replaced.trans (replaced_eq_textAt (fun l hl => (hscan.mem l hl).1) hscan.pairwise
      fun l _ => Nat.zero_le _)
  refine ⟨links, hscan.allLinks, hshown, fun s hs => isShown_iff_isKept hscan hs, ?_⟩
  have hkept {s : Span} (hs : s ∈ (codeSpans t).filter fun s => s.IsKept links) :
      s ∈ codeSpans t ∧ s.IsKept links := by simpa using hs
  rw [hshown]
  exact inOrder_textAt (fun s hs => (endsAt_of_mem_codeSpans (hkept hs).1).le_length)
    ((pairwise_codeSpans t).filter _) (fun s _ => Nat.zero_le _)
    fun s hs => (isShown_iff_isKept hscan (hkept hs).1).mpr (hkept hs).2

/-- A code span that starts in a label and ends in an address. -/
theorem codeSpan_across_link :
    let t := "[foo`](/uri)`".toList
    codeSpans t = [⟨4, 9⟩] ∧ Span.text t ⟨4, 9⟩ = "`](/uri)`".toList ∧
      stripLinks t = "foo``".toList ∧ ¬ Span.text t ⟨4, 9⟩ <:+: stripLinks t := by
  intro t
  have hstripped : stripLinks t = "foo``".toList := by decide +kernel
  refine ⟨by decide +kernel, rfl, hstripped, ?_⟩
  rw [hstripped]
  exact fun hinfix => absurd hinfix.length_le (by decide)

end TaggedOutline.Title
