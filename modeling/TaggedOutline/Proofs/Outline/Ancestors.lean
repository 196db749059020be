import Mathlib.Data.List.Basic
import TaggedOutline.Outline.Basic
import TaggedOutline.Proofs.Table
import TaggedOutline.Proofs.Text.Basic

/-!
# The headings above a heading

1. The open items are a stack of smaller and smaller levels, so an item lies under another one iff
   all items from the other one on are deeper than that (`exists_of_mem_openedBy`).
2. The items above an item are the first of them and the items above that (`Linked`).
3. So following the parents in an outline leads through the stack (`ancestorsOf_eq_reverse`).
-/

namespace TaggedOutline

/-! ## The stack of open items -/

section Stack

variable {α : Type} {level : α → Int} {a b : α} {seen stack : List α}

/-- An item of a sequence is open after it if all later items are deeper. -/
def OpenAfter (level : α → Int) (seen : List α) (a : α) : Prop :=
  ∃ pre later, seen = pre ++ a :: later ∧ ∀ x ∈ later, level a < level x

theorem openAfter_concat :
    OpenAfter level (seen ++ [b]) a ↔ a = b ∨ OpenAfter level seen a ∧ level a < level b := by
  constructor
  · rintro ⟨pre, later, hsplit, hlater⟩
    rcases List.eq_nil_or_concat later with rfl | ⟨l, x, rfl⟩
    · exact .inl (by simpa using (List.append_inj' hsplit rfl).2.symm)
    · rw [List.concat_eq_append] at hsplit hlater
      rw [← List.cons_append, ← List.append_assoc] at hsplit
      obtain ⟨hseen, hx⟩ := List.append_inj' hsplit rfl
      obtain rfl : b = x := by simpa using hx
      exact .inr ⟨⟨pre, l, hseen, fun y hy => hlater y (List.mem_append_left _ hy)⟩,
        hlater b (by simp)⟩
  · rintro (rfl | ⟨⟨pre, later, rfl, hlater⟩, hlt⟩)
    · exact ⟨seen, [], rfl, by simp⟩
    · refine ⟨pre, later ++ [b], by simp, fun x hx => ?_⟩
      rcases List.mem_append.mp hx with hx | hx
      · exact hlater x hx
      · rw [List.mem_singleton.mp hx]
        exact hlt

/-- The stack holds what is open after a sequence, the innermost first. -/
structure IsStack (level : α → Int) (seen stack : List α) : Prop where
  decreasing : stack.Pairwise (level · > level ·)
  mem_iff : ∀ a, a ∈ stack ↔ OpenAfter level seen a

theorem isStack_nil : IsStack level [] [] := by
  refine ⟨List.Pairwise.nil, fun a => ?_⟩
  simp [OpenAfter]

/-- What is not less deep than `k` is popped from the stack. -/
theorem mem_dropWhile_of_decreasing (h : stack.Pairwise (level · > level ·)) (k : Int) :
    a ∈ stack.dropWhile (k ≤ level ·) ↔ a ∈ stack ∧ level a < k := by
  induction stack with
  | nil => simp
  | cons x stack ih =>
    obtain ⟨hx, hrest⟩ := List.pairwise_cons.mp h
    rw [List.mem_cons]
    by_cases hpop : k ≤ level x
    · rw [List.dropWhile_cons_of_pos (by simpa using hpop)]
      constructor
      · intro hm
        obtain ⟨hm, hlt⟩ := (ih hrest).mp hm
        exact ⟨.inr hm, hlt⟩
      · rintro ⟨rfl | hm, hlt⟩
        · omega
        · exact (ih hrest).mpr ⟨hm, hlt⟩
    · rw [List.dropWhile_cons_of_neg (by simpa using hpop), List.mem_cons]
      constructor
      · rintro (rfl | hm)
        · exact ⟨.inl rfl, by omega⟩
        · have := hx a hm
          exact ⟨.inr hm, by omega⟩
      · exact fun ⟨hm, _⟩ => hm

theorem IsStack.mem_above (h : IsStack level seen stack) :
    a ∈ stack.dropWhile (level b ≤ level ·) ↔ OpenAfter level seen a ∧ level a < level b := by
  rw [mem_dropWhile_of_decreasing h.decreasing, h.mem_iff]

theorem IsStack.push (h : IsStack level seen stack) (b : α) :
    IsStack level (seen ++ [b]) (b :: stack.dropWhile (level b ≤ level ·)) := by
  refine ⟨List.pairwise_cons.mpr ⟨fun a ha => (h.mem_above.mp ha).2, ?_⟩, fun a => ?_⟩
  · exact h.decreasing.sublist (List.dropWhile_sublist _)
  · rw [List.mem_cons, h.mem_above, openAfter_concat]

/-- An item lies under the items that are open before it and less deep. -/
theorem exists_of_mem_openedBy {r above : List α} (hs : IsStack level seen stack)
    (h : (b, above) ∈ openedBy level stack r) :
    ∃ pre post, r = pre ++ b :: post ∧
      ∀ a, a ∈ above ↔ OpenAfter level (seen ++ pre) a ∧ level a < level b := by
  induction r generalizing seen stack with
  | nil => exact absurd h (by simp [openedBy])
  | cons x r ih =>
    rcases List.mem_cons.mp h with he | h
    · obtain ⟨rfl, rfl⟩ := Prod.mk.inj he
      exact ⟨[], r, rfl, fun a => by rw [List.append_nil, hs.mem_above]⟩
    · obtain ⟨pre, post, rfl, habove⟩ := ih (hs.push x) h
      refine ⟨x :: pre, post, rfl, fun a => ?_⟩
      rw [habove, List.append_assoc, List.singleton_append]

theorem map_fst_openedBy (level : α → Int) (stack r : List α) :
    (openedBy level stack r).map Prod.fst = r := by
  induction r generalizing stack with
  | nil => rfl
  | cons x r ih =>
    rw [openedBy, List.map_cons, ih]

theorem length_lt_of_mem_openedBy {r above : List α} (h : (b, above) ∈ openedBy level stack r) :
    above.length < stack.length + r.length := by
  induction r generalizing stack with
  | nil => exact absurd h (by simp [openedBy])
  | cons x r ih =>
    have hdrop :=
      (List.dropWhile_sublist (l := stack) fun y => decide (level x ≤ level y)).length_le
    rcases List.mem_cons.mp h with he | h
    · obtain ⟨rfl, rfl⟩ := Prod.mk.inj he
      rw [List.length_cons]
      omega
    · have := ih h
      rw [List.length_cons] at this ⊢
      omega

/-- Each item of a stack is recorded with the items after it. -/
def Linked (pairs : List (α × List α)) (stack : List α) : Prop :=
  ∀ a above, (a :: above) <:+ stack → (a, above) ∈ pairs

theorem Linked.mono {pairs pairs' : List (α × List α)} (h : Linked pairs stack)
    (hsub : ∀ e ∈ pairs, e ∈ pairs') : Linked pairs' stack :=
  fun a above hs => hsub _ (h a above hs)

/-- The items above an item are recorded with those above them. -/
theorem linked_of_mem_openedBy {pairs : List (α × List α)} {r above : List α}
    (hl : Linked pairs stack) (h : (b, above) ∈ openedBy level stack r) :
    Linked (pairs ++ openedBy level stack r) above := by
  induction r generalizing pairs stack with
  | nil => exact absurd h (by simp [openedBy])
  | cons x r ih =>
    have hdrop : Linked pairs (stack.dropWhile (level x ≤ level ·)) :=
      fun a above hs => hl a above (hs.trans (List.dropWhile_suffix _))
    rcases List.mem_cons.mp h with he | h
    · obtain ⟨rfl, rfl⟩ := Prod.mk.inj he
      exact hdrop.mono fun e he => List.mem_append_left _ he
    · -- The item that is pushed is recorded with what it is pushed on.
      have hpush : Linked (pairs ++ [(x, stack.dropWhile (level x ≤ level ·))])
          (x :: stack.dropWhile (level x ≤ level ·)) := by
        intro a above hs
        rcases List.suffix_cons_iff.mp hs with he | hs
        · obtain ⟨rfl, rfl⟩ := List.cons.inj he
          simp
        · exact List.mem_append_left _ (hdrop a above hs)
      refine (ih hpush h).mono fun e he => ?_
      rw [openedBy, List.append_cons]
      exact he

end Stack

namespace Outline

/-! ## Nodes -/

theorem mem_nodesFrom {hs : List Heading} {k : Nat} {n : Node} (h : n ∈ nodesFrom k hs) :
    ∃ g ∈ hs, ∃ i, k ≤ i ∧ n = nodeOf g i := by
  induction hs generalizing k with
  | nil => exact absurd h (by simp [nodesFrom])
  | cons g hs ih =>
    rcases List.mem_cons.mp h with rfl | h
    · exact ⟨g, List.mem_cons_self, k, Nat.le_refl k, rfl⟩
    · obtain ⟨g', hg', i, hi, rfl⟩ := ih h
      exact ⟨g', List.mem_cons_of_mem g hg', i, by omega, rfl⟩

theorem nodeOf_id_injective {g g' : Heading} {i j : Nat} (h : (nodeOf g i).id = (nodeOf g' j).id) :
    i = j := by
  have hdash (n : Nat) : '-' ∉ Text.ofNat n := fun hm => by
    have := Text.isDigit_of_mem_ofNat hm
    exact absurd this (by decide)
  exact Text.ofNat_injective (Text.eq_of_append_cons_eq (hdash i) (hdash j) h)

/-- The identifiers of the nodes are distinct. -/
theorem nodup_id_nodesFrom (k : Nat) (hs : List Heading) :
    ((nodesFrom k hs).map Node.id).Nodup := by
  induction hs generalizing k with
  | nil => exact List.nodup_nil
  | cons g hs ih =>
    rw [nodesFrom, List.map_cons]
    refine List.nodup_cons.mpr ⟨fun h => ?_, ih (k + 1)⟩
    obtain ⟨n, hn, hid⟩ := List.mem_map.mp h
    obtain ⟨g', -, i, hi, rfl⟩ := mem_nodesFrom hn
    have := nodeOf_id_injective hid
    omega

/-! ## Parents -/

section Parents

variable {hs : List Heading} {n : Node} {above : List Node}

/-- The parent of a node is the innermost of the headings it lies under. -/
theorem parentOf?_eq_head? (h : (n, above) ∈ openedBy Node.level [] (nodesFrom 0 hs)) :
    (ofHeadings hs).parentOf? n = above.head? := by
  have hkeys : (Table.keys (ofHeadings hs).parents).Nodup := by
    have hmap : Table.keys (ofHeadings hs).parents = (nodesFrom 0 hs).map Node.id := by
      rw [Table.keys, ofHeadings, List.map_map]
      conv_rhs => rw [← map_fst_openedBy Node.level [] (nodesFrom 0 hs), List.map_map]
      rfl
    rw [hmap]
    exact nodup_id_nodesFrom 0 hs
  have hmem : (n.id, above.head?) ∈ (ofHeadings hs).parents :=
    List.mem_map.mpr ⟨(n, above), h, rfl⟩
  rw [parentOf?, Table.get?_of_mem hkeys hmem]
  rfl

/-- What lies above the parent of a node are the other headings that the node lies under. -/
theorem mem_openedBy_of_cons {p : Node}
    (h : (n, p :: above) ∈ openedBy Node.level [] (nodesFrom 0 hs)) :
    (p, above) ∈ openedBy Node.level [] (nodesFrom 0 hs) := by
  have hlinked : Linked [] ([] : List Node) := fun a above hs =>
    absurd (List.suffix_nil.mp hs) (by simp)
  exact linked_of_mem_openedBy hlinked h p above (List.suffix_refl _)

theorem ancestorsWithin_eq_reverse (h : (n, above) ∈ openedBy Node.level [] (nodesFrom 0 hs))
    (fuel : Nat) (hfuel : above.length ≤ fuel) :
    (ofHeadings hs).ancestorsWithin fuel n = above.reverse := by
  induction above generalizing n fuel with
  | nil =>
    cases fuel with
    | zero => rfl
    | succ fuel => rw [ancestorsWithin, parentOf?_eq_head? h]; rfl
  | cons p above ih =>
    cases fuel with
    | zero => exact absurd hfuel (by simp)
    | succ fuel =>
      rw [ancestorsWithin, parentOf?_eq_head? h]
      simp only [List.head?_cons]
      rw [ih (mem_openedBy_of_cons h) fuel (Nat.le_of_succ_le_succ hfuel), List.reverse_cons]

/-- The headings above a node are those it lies under. -/
theorem ancestorsOf_eq_reverse (h : (n, above) ∈ openedBy Node.level [] (nodesFrom 0 hs)) :
    (ofHeadings hs).ancestorsOf n = above.reverse := by
  refine ancestorsWithin_eq_reverse h _ ?_
  have := length_lt_of_mem_openedBy h
  rw [List.length_nil] at this
  show above.length ≤ (nodesFrom 0 hs).length
  omega

end Parents

/-- The headings above a node are the less deep ones before it that are still open. -/
theorem mem_ancestorsOf_iff {hs : List Heading} {pre post : List Node} {n a : Node}
    (h : nodesFrom 0 hs = pre ++ n :: post) :
    a ∈ (ofHeadings hs).ancestorsOf n ↔ OpenAfter Node.level pre a ∧ a.level < n.level := by
  have hnodup : (pre ++ n :: post).Nodup := by
    rw [← h]
    exact (nodup_id_nodesFrom 0 hs).of_map
  have hmem : n ∈ (openedBy Node.level [] (nodesFrom 0 hs)).map Prod.fst := by
    rw [map_fst_openedBy, h]
    simp
  obtain ⟨⟨m, above⟩, hopened, hm⟩ := List.mem_map.mp hmem
  obtain rfl : m = n := hm
  obtain ⟨pre', post', hsplit, habove⟩ := exists_of_mem_openedBy isStack_nil hopened
  rw [ancestorsOf_eq_reverse hopened, List.mem_reverse, habove, List.nil_append]
  -- The node occurs once, so it is split off in one way.
  rw [h] at hsplit
  have hnot := List.nodup_append.mp hnodup
  have hpre : m ∉ pre := fun hp => hnot.2.2 m hp m List.mem_cons_self rfl
  have hpost : m ∉ post := (List.nodup_cons.mp hnot.2.1).1
  rw [((List.append_cons_inj_of_notMem hpre hpost).mp hsplit).1]

end Outline

end TaggedOutline
