import TaggedOutline.Proofs.Edit.Move
import TaggedOutline.Proofs.Edit.Moved
import TaggedOutline.Proofs.Outline.Branch

/-!
# The hierarchy after a move

1. The headings with one parent are the roots of branches, and their blocks are these branches
   (`Family.inBlock_iff`). So a move of siblings puts some of the branches before another place
   among them (`Family.rearranged_eq`).
2. The headings of the text are then those of the branches in the new order, and all of them keep
   their parents iff no branch is rooted deeper than one before it (`keepsHierarchy_iff`).
3. So a move keeps the hierarchy unless it puts a sibling behind one of a smaller level
   (`keepsHierarchy_moveBlocks_iff`), which takes it in (`not_keepsHierarchy_moveBlocks`).
-/

namespace TaggedOutline

open Outline (ofDocument isOrdered)

variable {d d' : Document} {ns pre post front back selected : List Node} {m n s : Node}
  {parent : Option Node} {bs bs' before after : List Branch} {c : Branch} {line : Nat}

/-! ## Branches as blocks -/

/-- The headings before one are those on earlier lines. -/
theorem line_lt_iff_mem (hlines : (pre ++ n :: post).Pairwise (·.line < ·.line))
    (hm : m ∈ pre ++ n :: post) : m.line < n.line ↔ m ∈ pre := by
  obtain ⟨-, hlater, hearlier⟩ := List.pairwise_append.mp hlines
  constructor
  · intro hlt
    refine (List.mem_append.mp hm).resolve_right fun hin => ?_
    rcases List.mem_cons.mp hin with rfl | hin
    · omega
    · have := (List.pairwise_cons.mp hlater).1 m hin
      omega
  · exact fun hin => hearlier m hin n List.mem_cons_self

/-- A branch that is followed by a heading that is no deeper than its root is the block of this. -/
theorem inBlock_root_iff (hlines : (pre ++ (c.nodes ++ post)).Pairwise (·.line < ·.line))
    (hpost : ∀ n ∈ post.head?, n.level ≤ c.root.level) (hm : m ∈ pre ++ (c.nodes ++ post)) :
    InBlock (pre ++ (c.nodes ++ post)) c.root m.line ↔ m ∈ c.nodes := by
  obtain ⟨-, hlater, hearlier⟩ := List.pairwise_append.mp hlines
  obtain ⟨hnodes, hrest, hapart⟩ := List.pairwise_append.mp hlater
  have hroot := root_mem_nodes c
  have hunder := (List.pairwise_cons.mp hnodes).1
  constructor
  · rintro ⟨hle, hdeeper⟩
    rcases List.mem_append.mp hm with hin | hin
    · have := hearlier m hin c.root (List.mem_append_left post hroot)
      omega
    · refine (List.mem_append.mp hin).resolve_right fun hin => ?_
      obtain ⟨first, rest, rfl⟩ := List.exists_cons_of_ne_nil (List.ne_nil_of_mem hin)
      have hfirst : first.line ≤ m.line := by
        rcases List.mem_cons.mp hin with rfl | hin
        · exact Int.le_refl _
        · exact Int.le_of_lt ((List.pairwise_cons.mp hrest).1 m hin)
      have := hdeeper first (by simp) (hapart c.root hroot first List.mem_cons_self) hfirst
      have := hpost first rfl
      omega
  · intro hin
    rcases List.mem_cons.mp hin with rfl | hin
    · exact inBlock_line _ _
    · refine ⟨Int.le_of_lt (hunder m hin), fun x hx hlt hle => ?_⟩
      rcases List.mem_append.mp hx with hx | hx
      · have := hearlier x hx c.root (List.mem_append_left post hroot)
        omega
      · rcases List.mem_append.mp hx with hx | hx
        · rcases List.mem_cons.mp hx with rfl | hx
          · omega
          · exact c.deeper x hx
        · have := hapart m (List.mem_cons_of_mem _ hin) x hx
          omega

theorem map_root_sublist (bs : List Branch) : (bs.map Branch.root).Sublist (nodesOf bs) := by
  induction bs with
  | nil => exact List.Sublist.refl []
  | cons c bs ih => exact (ih.trans (List.sublist_append_right c.under _)).cons_cons c.root

namespace Family

variable (h : Family ns parent front bs back) (hlines : ns.Pairwise (·.line < ·.line))

include h hlines

/-- The blocks of headings with one parent are their branches. -/
theorem inBlock_iff (hc : c ∈ bs) (hm : m ∈ ns) : InBlock ns c.root m.line ↔ m ∈ c.nodes := by
  obtain ⟨before, after, rfl⟩ := List.append_of_mem hc
  have hsplit : ns = front ++ nodesOf before ++ (c.nodes ++ (nodesOf after ++ back)) := by
    rw [h.split, nodesOf_append, nodesOf_cons]
    simp only [List.append_assoc]
  have hpost : ∀ n ∈ (nodesOf after ++ back).head?, n.level ≤ c.root.level := by
    intro n hn
    cases after with
    | nil => exact h.below c.root (root_mem_nodesOf hc) n hn
    | cons next after =>
      obtain rfl : next.root = n := Option.some.inj hn
      have hlater := (List.pairwise_append.mp h.descending).2.1
      exact (List.pairwise_cons.mp hlater).1 next List.mem_cons_self
  rw [hsplit] at hlines hm ⊢
  exact inBlock_root_iff hlines hpost hm

variable (hselected : ∀ n ∈ selected, n ∈ bs.map Branch.root)

include hselected

theorem covered_iff (hm : m ∈ ns) :
    Covered ns selected m.line ↔ ∃ c ∈ bs, c.root ∈ selected ∧ m ∈ c.nodes := by
  constructor
  · rintro ⟨n, hn, hin⟩
    obtain ⟨c, hc, rfl⟩ := List.mem_map.mp (hselected n hn)
    exact ⟨c, hc, hn, (h.inBlock_iff hlines hc hm).mp hin⟩
  · rintro ⟨c, hc, hn, hin⟩
    exact ⟨c.root, hn, (h.inBlock_iff hlines hc hm).mpr hin⟩

theorem covered_iff_root (hc : c ∈ bs) (hm : m ∈ c.nodes) :
    Covered ns selected m.line ↔ c.root ∈ selected := by
  have hnodup := Heading.nodup_of_lines hlines
  have hnodes := (List.nodup_append.mp (h.nodup_nodesOf hnodup (List.Perm.refl bs))).2.1
  have hmem : m ∈ ns := by
    rw [h.split]
    simp [mem_nodesOf.mpr ⟨c, hc, hm⟩]
  refine (h.covered_iff hlines hselected hmem).trans ⟨?_, fun hn => ⟨c, hc, hn, hm⟩⟩
  rintro ⟨c', hc', hn, hm'⟩
  rwa [branch_eq_of_mem hnodes hc hc' hm hm']

theorem not_covered_of_outside (hm : m ∈ front ∨ m ∈ back) : ¬ Covered ns selected m.line := by
  have hmem : m ∈ ns := by
    rw [h.split]
    rcases hm with hm | hm <;> simp [hm]
  have hnodup := Heading.nodup_of_lines hlines
  rw [h.split] at hnodup
  obtain ⟨hfront, -, hback⟩ := List.nodup_append.mp hnodup
  intro hin
  obtain ⟨c, hc, -, hmc⟩ := (h.covered_iff hlines hselected hmem).mp hin
  have hmem' := mem_nodesOf.mpr ⟨c, hc, hmc⟩
  rcases hm with hm | hm
  · exact (List.nodup_append.mp hfront).2.2 m hm m hmem' rfl
  · exact hback m (List.mem_append_right front hmem') m hm rfl

/-- The selected branches come in one piece before a place among the branches. -/
theorem rearranged_eq (hbs : bs = before ++ after)
    (hline : ∀ m ∈ ns, m.line < (line : Int) ↔ m ∈ front ++ nodesOf before) :
    rearranged ns selected line =
      front ++ nodesOf (before.filter (fun c => c.root ∉ selected) ++
        bs.filter (fun c => c.root ∈ selected) ++
        after.filter fun c => c.root ∉ selected) ++ back := by
  have hfilter {cs : List Branch} (hcs : ∀ c ∈ cs, c ∈ bs) :
      ((nodesOf cs).filter fun m => ¬ Covered ns selected m.line) =
        nodesOf (cs.filter fun c => c.root ∉ selected) :=
    filter_nodesOf fun c hc m hm =>
      decide_eq_decide.mpr (not_congr (h.covered_iff_root hlines hselected (hcs c hc) hm))
  have hkept {l : List Node} (hl : ∀ m ∈ l, m ∈ front ∨ m ∈ back) :
      (l.filter fun m => ¬ Covered ns selected m.line) = l ∧
        (l.filter fun m => Covered ns selected m.line) = [] := by
    have hout (m : Node) (hm : m ∈ l) : ¬ Covered ns selected m.line :=
      h.not_covered_of_outside hlines hselected (hl m hm)
    exact ⟨List.filter_eq_self.mpr fun m hm => decide_eq_true (hout m hm),
      List.filter_eq_nil_iff.mpr fun m hm hin => hout m hm (of_decide_eq_true hin)⟩
  have hmoved : (ns.filter fun m => Covered ns selected m.line) =
      nodesOf (bs.filter fun c => c.root ∈ selected) := by
    have hbranches : ((nodesOf bs).filter fun m => Covered ns selected m.line) =
        nodesOf (bs.filter fun c => c.root ∈ selected) :=
      filter_nodesOf fun c hc m hm =>
        decide_eq_decide.mpr (h.covered_iff_root hlines hselected hc hm)
    conv_lhs => rw [h.split]
    rw [List.filter_append, List.filter_append, ← h.split, (hkept fun m => .inl).2, hbranches,
      (hkept fun m => .inr).2, List.nil_append, List.append_nil]
  have hparts : ns = (front ++ nodesOf before) ++ (nodesOf after ++ back) := by
    rw [h.split, hbs, nodesOf_append]
    simp only [List.append_assoc]
  have hearlier : ∀ m ∈ front ++ nodesOf before, m.line < (line : Int) := fun m hm =>
    (hline m (by rw [hparts]; exact List.mem_append_left _ hm)).mpr hm
  have hlater : ∀ m ∈ nodesOf after ++ back, (line : Int) ≤ m.line := by
    have hnodup := Heading.nodup_of_lines hlines
    rw [hparts] at hnodup
    intro m hm
    refine Int.not_lt.mp fun hlt => ?_
    have hin := (hline m (by rw [hparts]; exact List.mem_append_right _ hm)).mp hlt
    exact (List.nodup_append.mp hnodup).2.2 m hin m hm rfl
  obtain ⟨hfirst, hlast⟩ := filter_append_of_line hearlier hlater
    fun k => ¬ Covered ns selected k
  rw [← hparts] at hfirst hlast
  rw [rearranged, hfirst, hlast, hmoved, List.filter_append, List.filter_append,
    (hkept fun m => .inl).1, (hkept fun m => .inr).1,
    hfilter fun c hc => hbs ▸ List.mem_append_left after hc,
    hfilter fun c hc => hbs ▸ List.mem_append_right before hc, nodesOf_append, nodesOf_append]
  simp only [List.append_assoc]

omit h hlines hselected in
/-- The branches are the same ones in another order. -/
theorem perm_filter (before after : List Branch) (selected : List Node) :
    (before.filter (fun c => c.root ∉ selected) ++
        (before ++ after).filter (fun c => c.root ∈ selected) ++
        after.filter fun c => c.root ∉ selected).Perm (before ++ after) := by
  have hparts (l : List Branch) : (l.filter (fun c => c.root ∈ selected) ++
      l.filter fun c => c.root ∉ selected).Perm l := by
    have hall := List.filter_append_perm (fun c : Branch => decide (c.root ∈ selected)) l
    simpa only [decide_not] using hall
  rw [List.filter_append, ← List.append_assoc, List.append_assoc]
  exact (List.perm_append_comm.trans (hparts before)).append (hparts after)

end Family

/-! ## The hierarchy -/

/-- The headings of an outline are given ones, each written as it was. -/
structure Carries (o : Outline) (order : List Node) (carry : Node → Node) : Prop where
  ordered : o.ordered = order.map carry
  written : ∀ n ∈ order, (carry n).written = n.written

/-- All headings have the parents they had. The headings with one parent may change places; those
with any other one keep their order. -/
structure KeepsHierarchy (o o' : Outline) (carry : Node → Node) (parent : Option Node) : Prop where
  parents : ∀ n ∈ o.ordered, o'.parentOf? (carry n) = (o.parentOf? n).map carry
  siblings : ∀ n ∈ o.ordered, o.parentOf? n ≠ parent →
    o'.siblingsOf (carry n) = (o.siblingsOf n).map carry
  moved : ∀ n ∈ o.ordered, o.parentOf? n = parent →
    (o'.siblingsOf (carry n)).Perm ((o.siblingsOf n).map carry)

theorem level_eq_of_written (h : m.written = n.written) : m.level = n.level :=
  congrArg (fun w : Text × Int × Markup => w.2.1) h

section Carried

variable {carry : Node → Node}

theorem map_carry_inj {a b : Option Node} (hinj : ∀ m ∈ ns, ∀ n ∈ ns, carry m = carry n → m = n)
    (ha : ∀ m ∈ a, m ∈ ns) (hb : ∀ m ∈ b, m ∈ ns) : a.map carry = b.map carry ↔ a = b := by
  refine ⟨fun heq => ?_, fun heq => by rw [heq]⟩
  cases a with
  | none => exact (Option.map_eq_none_iff.mp heq.symm).symm
  | some m =>
    obtain ⟨n, rfl, hn⟩ := Option.map_eq_some_iff.mp heq.symm
    rw [hinj m (ha m rfl) n (hb n rfl) hn.symm]

variable (hperm : ns.Perm (ofDocument d).ordered) (hcarries : Carries (ofDocument d') ns carry)

include hperm hcarries

theorem Carries.inj (hm : m ∈ (ofDocument d).ordered) (hn : n ∈ (ofDocument d).ordered)
    (heq : carry m = carry n) : m = n := by
  have hnodup := Heading.nodup_of_lines (isOrdered d').lines
  rw [hcarries.ordered] at hnodup
  exact List.inj_on_of_nodup_map hnodup (hperm.mem_iff.mpr hm) (hperm.mem_iff.mpr hn) heq

theorem Carries.parentOf?_eq (hn : n ∈ (ofDocument d).ordered) :
    (ofDocument d').parentOf? (carry n) = (parentIn ns n).map carry := by
  have hmem := hperm.mem_iff.mpr hn
  have hcarry : carry n ∈ (ofDocument d').ordered := by
    rw [hcarries.ordered]
    exact List.mem_map_of_mem hmem
  rw [Outline.parentOf?_eq_parentIn hcarry]
  show parentIn (ofDocument d').ordered (carry n) = _
  rw [hcarries.ordered]
  refine parentIn_map (fun m hm n hn => ?_) (fun m hm => ?_) hmem
  · exact hcarries.inj hperm (hperm.mem_iff.mp hm) (hperm.mem_iff.mp hn)
  · exact level_eq_of_written (hcarries.written m hm)

/-- Parents are kept in the text iff they are in the order of the headings. -/
theorem Carries.parents_iff :
    (∀ n ∈ (ofDocument d).ordered,
        (ofDocument d').parentOf? (carry n) = ((ofDocument d).parentOf? n).map carry) ↔
      ∀ n ∈ (ofDocument d).ordered, parentIn ns n = parentIn (ofDocument d).ordered n := by
  refine forall₂_congr fun n hn => ?_
  rw [hcarries.parentOf?_eq hperm hn, Outline.parentOf?_eq_parentIn hn]
  exact map_carry_inj (fun m hm n hn => hcarries.inj hperm hm hn)
    (fun m hm => hperm.mem_iff.mp (mem_of_parentIn hm)) fun m hm => mem_of_parentIn hm

/-- If parents are kept, siblings are, in the order of the headings. -/
theorem Carries.siblingsOf_eq
    (hparents : ∀ n ∈ (ofDocument d).ordered,
      (ofDocument d').parentOf? (carry n) = ((ofDocument d).parentOf? n).map carry)
    (hn : n ∈ (ofDocument d).ordered) :
    (ofDocument d').siblingsOf (carry n) =
      (ns.filter fun m => parentIn (ofDocument d).ordered m =
        (ofDocument d).parentOf? n).map carry := by
  have hcarry : carry n ∈ (ofDocument d').ordered := by
    rw [hcarries.ordered]
    exact List.mem_map_of_mem (hperm.mem_iff.mpr hn)
  rw [Outline.siblingsOf_eq_filter hcarry, hparents n hn]
  show ((ofDocument d').ordered.filter _) = _
  rw [hcarries.ordered, List.filter_map]
  refine congrArg _ (List.filter_congr fun m hm => decide_eq_decide.mpr ?_)
  have hm := hperm.mem_iff.mp hm
  rw [hparents m hm, Outline.parentOf?_eq_parentIn hm, Outline.parentOf?_eq_parentIn hn]
  exact map_carry_inj (fun m hm n hn => hcarries.inj hperm hm hn)
    (fun m hm => mem_of_parentIn hm) fun m hm => mem_of_parentIn hm

end Carried

/-- In a sequence in the order of keys, a relation of each item to all later ones holds of all items
with increasing keys. -/
theorem pairwise_iff_of_increasing {α : Type} {key : α → Int} {r : α → α → Prop} {l : List α}
    (hkey : l.Pairwise (key · < key ·)) :
    l.Pairwise r ↔ ∀ a ∈ l, ∀ b ∈ l, key a < key b → r a b := by
  constructor
  · intro hr a ha b hb
    have hlater : l.Pairwise fun a b => key a < key b → r a b := by
      refine hr.imp ?_
      intro a b hab _
      exact hab
    have hearlier : l.Pairwise fun a b => key b < key a → r b a :=
      hkey.imp fun hlt hlt' => absurd (Int.lt_trans hlt hlt') (Int.lt_irrefl _)
    exact hlater.forall_of_forall_of_flip (fun a _ hlt => absurd hlt (Int.lt_irrefl _)) hearlier
      ha hb
  · exact fun h => hkey.imp_of_mem fun ha hb hlt => h _ ha _ hb hlt

section Reordered

variable {carry : Node → Node} (h : Family (ofDocument d).ordered parent front bs back)
  (hperm : bs'.Perm bs) (hcarries : Carries (ofDocument d') (front ++ nodesOf bs' ++ back) carry)

include h hperm hcarries

/-- The roots of the branches are no deeper than those before them iff the siblings are no deeper
than those on earlier lines. -/
theorem descending_iff : Descending bs' ↔
    ∀ m ∈ (ofDocument d).ordered, ∀ n ∈ (ofDocument d).ordered,
      (ofDocument d).parentOf? m = parent → (ofDocument d).parentOf? n = parent →
        (carry m).line < (carry n).line → n.level ≤ m.level := by
  have hnodup := Heading.nodup_of_lines (isOrdered d).lines
  have hroots (n : Node) (hn : n ∈ (ofDocument d).ordered) :
      (ofDocument d).parentOf? n = parent ↔ ∃ c ∈ bs', c.root = n := by
    rw [Outline.parentOf?_eq_parentIn hn]
    refine (h.mem_map_root_iff hnodup hn).symm.trans (List.mem_map.trans ?_)
    exact exists_congr fun c => and_congr_left fun _ => hperm.mem_iff.symm
  have hmem {c : Branch} (hc : c ∈ bs') : c.root ∈ (ofDocument d).ordered := by
    rw [h.split]
    simp [root_mem_nodesOf (hperm.mem_iff.mp hc)]
  have hincreasing : bs'.Pairwise fun c c' => (carry c.root).line < (carry c'.root).line := by
    have hlines := (isOrdered d').lines
    rw [hcarries.ordered, List.pairwise_map] at hlines
    have hnodes := (List.pairwise_append.mp (List.pairwise_append.mp hlines).1).2.1
    have hroots := hnodes.sublist (map_root_sublist bs')
    rwa [List.pairwise_map] at hroots
  rw [Descending, pairwise_iff_of_increasing hincreasing]
  constructor
  · intro hall m hm n hn hmp hnp
    obtain ⟨c, hc, rfl⟩ := (hroots m hm).mp hmp
    obtain ⟨c', hc', rfl⟩ := (hroots n hn).mp hnp
    exact hall c hc c' hc'
  · intro hall c hc c' hc'
    exact hall c.root (hmem hc) c'.root (hmem hc') ((hroots _ (hmem hc)).mpr ⟨c, hc, rfl⟩)
      ((hroots _ (hmem hc')).mpr ⟨c', hc', rfl⟩)

/-- Branches in another order keep the hierarchy iff no sibling is deeper than one on an earlier
line. -/
theorem keepsHierarchy_iff : KeepsHierarchy (ofDocument d) (ofDocument d') carry parent ↔
    ∀ m ∈ (ofDocument d).ordered, ∀ n ∈ (ofDocument d).ordered,
      (ofDocument d).parentOf? m = parent → (ofDocument d).parentOf? n = parent →
        (carry m).line < (carry n).line → n.level ≤ m.level := by
  have hnodup := Heading.nodup_of_lines (isOrdered d).lines
  have hall := h.perm hperm
  rw [← descending_iff h hperm hcarries, ← h.parentIn_eq_iff hnodup hperm,
    ← hcarries.parents_iff hall]
  refine ⟨KeepsHierarchy.parents, fun hparents => ⟨hparents, fun n hn hne => ?_, fun n hn heq => ?_⟩⟩
  · rw [hcarries.siblingsOf_eq hall hparents hn, h.filter_parentIn_eq hnodup hperm hne,
      Outline.siblingsOf_eq_filter hn]
    refine congrArg _ (List.filter_congr fun m hm => ?_)
    rw [Outline.parentOf?_eq_parentIn hm]
    rfl
  · rw [hcarries.siblingsOf_eq hall hparents hn, Outline.siblingsOf_eq_filter hn]
    refine List.Perm.map _ ((hall.filter _).trans (List.Perm.of_eq ?_))
    refine List.filter_congr fun m hm => ?_
    rw [Outline.parentOf?_eq_parentIn hm]
    rfl

end Reordered

/-! ## Moved siblings -/

/-- Items that are written as given ones of which none comes twice are images of these. -/
theorem exists_map_eq {α β γ : Type} [DecidableEq α] {f : α → γ} {g : β → γ} (other : α → β)
    {l : List α} {l' : List β} (hnodup : l.Nodup) (heq : l'.map g = l.map f) :
    ∃ carry : α → β, l' = l.map carry ∧ ∀ a ∈ l, g (carry a) = f a := by
  induction l generalizing l' with
  | nil => exact ⟨other, List.map_eq_nil_iff.mp heq, by simp⟩
  | cons a l ih =>
    obtain ⟨b, l', rfl, hb, hrest⟩ := List.map_eq_cons_iff.mp heq
    obtain ⟨hfirst, hlater⟩ := List.nodup_cons.mp hnodup
    obtain ⟨carry, rfl, hcarry⟩ := ih hlater hrest
    have hsame {x : α} (hx : x ∈ l) : Function.update carry a b x = carry x :=
      Function.update_of_ne (fun e : x = a => hfirst (e ▸ hx)) _ _
    refine ⟨Function.update carry a b, ?_, ?_⟩
    · rw [List.map_cons, Function.update_self, List.map_congr_left fun x hx => hsame hx]
    · intro x hx
      rcases List.mem_cons.mp hx with rfl | hx
      · rwa [Function.update_self]
      · rw [hsame hx]
        exact hcarry x hx

theorem rearranged_nil (hnonneg : ∀ n ∈ ns, 0 ≤ n.line) : rearranged ns [] 0 = ns := by
  have hnone (k : Int) : ¬ Covered ns [] k := by
    rintro ⟨n, hn, -⟩
    exact absurd hn (by simp)
  have hfirst : (ns.filter fun n => ¬ Covered ns [] n.line ∧ n.line < ((0 : Nat) : Int)) = [] := by
    refine List.filter_eq_nil_iff.mpr fun n hn hin => ?_
    have := hnonneg n hn
    have := (of_decide_eq_true hin).2
    omega
  have hmiddle : (ns.filter fun n => Covered ns [] n.line) = [] :=
    List.filter_eq_nil_iff.mpr fun n _ hin => hnone n.line (of_decide_eq_true hin)
  have hlast : (ns.filter fun n => ¬ Covered ns [] n.line ∧ ((0 : Nat) : Int) ≤ n.line) = ns :=
    List.filter_eq_self.mpr fun n hn => decide_eq_true ⟨hnone n.line, hnonneg n hn⟩
  rw [rearranged, hfirst, hmiddle, hlast, List.nil_append, List.nil_append]

theorem movedBefore_nil (d : Document) : MovedBefore d (ofDocument d).ordered [] 0 d.text := by
  have hkeep : keep (fun k => decide (Covered (ofDocument d).ordered [] k)) 0 (Line.ofText d.text) =
      Line.ofText d.text := keep_eq_self fun k _ _ => decide_eq_false (by simp [Covered])
  refine ⟨?_, List.Perm.refl _, ?_⟩
  · rw [List.take_zero, List.drop_zero, hkeep, Line.join_ofText]
    rfl
  · rw [hkeep]

/-- The end of a sibling is a place among the branches: before its own or after it. -/
theorem exists_place (h : Family (ofDocument d).ordered parent front bs back)
    (hs : s ∈ (ofDocument d).ordered) (hparent : (ofDocument d).parentOf? s = parent) (up : Prop)
    [Decidable up] : ∃ before after, bs = before ++ after ∧
      ∀ m ∈ (ofDocument d).ordered,
        m.line < ((if up then s.line.toNat
          else (blockEnd d.lineCount (ofDocument d).ordered s).toNat : Nat) : Int) ↔
          m ∈ front ++ nodesOf before := by
  have ho := isOrdered d
  have hnodup := Heading.nodup_of_lines ho.lines
  rw [Outline.parentOf?_eq_parentIn hs] at hparent
  obtain ⟨c, hc, rfl⟩ := List.mem_map.mp ((h.mem_map_root_iff hnodup hs).mpr hparent)
  obtain ⟨before, after, hbs⟩ := List.append_of_mem hc
  have hsplit : (ofDocument d).ordered =
      (front ++ nodesOf before) ++ c.root :: (c.under ++ (nodesOf after ++ back)) := by
    rw [h.split, hbs, nodesOf_append, nodesOf_cons, Branch.nodes]
    simp only [List.append_assoc, List.cons_append]
  have hstart : ∀ m ∈ (ofDocument d).ordered, m.line < c.root.line ↔ m ∈ front ++ nodesOf before := by
    intro m hm
    have hlines := ho.lines
    rw [hsplit] at hlines hm
    exact line_lt_iff_mem hlines hm
  have hnonneg := ho.nonneg c.root hs
  by_cases hup : up
  · refine ⟨before, c :: after, hbs, fun m hm => ?_⟩
    rw [if_pos hup, Int.toNat_of_nonneg hnonneg]
    exact hstart m hm
  · refine ⟨before ++ [c], after, by rw [hbs, List.append_assoc]; rfl, fun m hm => ?_⟩
    have hend := line_lt_blockEnd ho hs
    have hblock := (inBlock_iff (n := c.root) ho (ho.line_lt hm)).symm.trans
      (h.inBlock_iff ho.lines hc hm)
    rw [if_neg hup, Int.toNat_of_nonneg (by omega), nodesOf_append, ← List.append_assoc,
      List.mem_append, ← hstart m hm]
    have hnodes : m ∈ nodesOf [c] ↔ m ∈ c.nodes := by simp [nodesOf]
    rw [hnodes, ← hblock]
    omega

/-- At an end of a block there is a heading, or the document ends. -/
theorem exists_heading_or_end (hs : s ∈ (ofDocument d).ordered) (up : Prop) [Decidable up] :
    (∃ g ∈ Heading.ofDocument d, g.line = ((if up then s.line.toNat
      else (blockEnd d.lineCount (ofDocument d).ordered s).toNat : Nat) : Int)) ∨
      d.lineCount ≤ if up then s.line.toNat
        else (blockEnd d.lineCount (ofDocument d).ordered s).toNat := by
  have ho := isOrdered d
  have hat {n : Node} (hn : n ∈ (ofDocument d).ordered) :
      ∃ g ∈ Heading.ofDocument d, g.line = (n.line.toNat : Int) := by
    obtain ⟨g, hg, -, hgline⟩ := Outline.exists_of_mem_ordered hn
    exact ⟨g, hg, by rw [Int.toNat_of_nonneg (ho.nonneg n hn), hgline]⟩
  split
  · exact .inl (hat hs)
  · rcases (blockEnd_spec ho s).1 with ⟨next, hnext, -, -, hblock⟩ | hblock
    · rw [hblock]
      exact .inl (hat hnext)
    · rw [hblock, Int.toNat_natCast]
      exact .inr (Nat.le_refl _)

/-- Moved blocks are found again, and keep the hierarchy iff no sibling is deeper than one on an
earlier line. -/
theorem exists_carries (hend : Text.endsWith ['\n'] d.text = true)
    (hclosed : (({} : Fence).afterLines d.lines).inside = false)
    (hselected : ∀ n ∈ selected, n ∈ (ofDocument d).ordered)
    (hparent : ∀ n ∈ selected, (ofDocument d).parentOf? n = parent)
    (h : Family (ofDocument d).ordered parent front bs back)
    (hs : s ∈ (ofDocument d).ordered) (hsparent : (ofDocument d).parentOf? s = parent) (up : Prop)
    [Decidable up] {t : Text}
    (hmoved : MovedBefore d (ofDocument d).ordered ((ofDocument d).ordered.filter (· ∈ selected))
      (if up then s.line.toNat else (blockEnd d.lineCount (ofDocument d).ordered s).toNat) t) :
    ∃ carry, Carries (ofDocument { d with text := t })
        (rearranged (ofDocument d).ordered ((ofDocument d).ordered.filter (· ∈ selected))
          (if up then s.line.toNat else (blockEnd d.lineCount (ofDocument d).ordered s).toNat))
        carry ∧
      (KeepsHierarchy (ofDocument d) (ofDocument { d with text := t }) carry parent ↔
        ∀ m ∈ (ofDocument d).ordered, ∀ n ∈ (ofDocument d).ordered,
          (ofDocument d).parentOf? m = parent → (ofDocument d).parentOf? n = parent →
            (carry m).line < (carry n).line → n.level ≤ m.level) := by
  have ho := isOrdered d
  have hnodup := Heading.nodup_of_lines ho.lines
  have hns : ∀ n ∈ (ofDocument d).ordered.filter (· ∈ selected), n ∈ (ofDocument d).ordered :=
    fun n hn => (List.mem_filter.mp hn).1
  have hapart : Apart (ofDocument d).ordered ((ofDocument d).ordered.filter (· ∈ selected)) := by
    rw [← outermost_eq_of_parentOf?_eq hselected hparent]
    exact (outermost_spec ho hselected).2.1
  have hroots : ∀ n ∈ (ofDocument d).ordered.filter (· ∈ selected), n ∈ bs.map Branch.root := by
    intro n hn
    rw [h.mem_map_root_iff hnodup (hns n hn)]
    exact (Outline.parentOf?_eq_parentIn (hns n hn)).symm.trans
      (hparent n (of_decide_eq_true (List.mem_filter.mp hn).2))
  obtain ⟨before, after, rfl, hplace⟩ := exists_place h hs hsparent up
  have hwritten := map_written_movedBefore hend hns hapart hmoved hclosed
    (exists_heading_or_end hs up)
  rw [h.rearranged_eq ho.lines hroots rfl hplace] at hwritten ⊢
  have hperm := Family.perm_filter before after ((ofDocument d).ordered.filter (· ∈ selected))
  have hall := h.perm hperm
  have heq : (ofDocument { d with text := t }).ordered.map Node.written = _ :=
    (Outline.map_written_nodesFrom 0 (Heading.ofText t)).trans hwritten
  obtain ⟨carry, hordered, hcarry⟩ := exists_map_eq id (hall.nodup_iff.mpr hnodup) heq
  have hcarries : Carries (ofDocument { d with text := t }) _ carry := ⟨hordered, hcarry⟩
  exact ⟨carry, hcarries, keepsHierarchy_iff h hperm hcarries⟩

/-- A move that succeeds puts the blocks of siblings before a line. All headings are found again,
written as they were, and keep the hierarchy iff no sibling is deeper than one that stands on an
earlier line then. -/
theorem keepsHierarchy_moveBlocks_iff (d : Document) (selected : List Node) (offset : Int) (t : Text)
    (hend : Text.endsWith ['\n'] d.text = true)
    (hclosed : (({} : Fence).afterLines d.lines).inside = false)
    (hselected : ∀ n ∈ selected, n ∈ (ofDocument d).ordered)
    (hmoved : moveBlocks (ofDocument d) d selected offset = .ok t) :
    let o := ofDocument d
    let o' := ofDocument { d with text := t }
    ∃ parent ns line carry, (∀ n ∈ selected, o.parentOf? n = parent) ∧
      (ns = o.ordered.filter (· ∈ selected) ∨ ns = [] ∧ t = d.text) ∧
      MovedBefore d o.ordered ns line t ∧
      Carries o' (rearranged o.ordered ns line) carry ∧
      (KeepsHierarchy o o' carry parent ↔
        ∀ m ∈ o.ordered, ∀ n ∈ o.ordered, o.parentOf? m = parent → o.parentOf? n = parent →
          (carry m).line < (carry n).line → n.level ≤ m.level) := by
  intro o o'
  have ho := isOrdered d
  obtain ⟨parent, hparent, hmem, hcases⟩ := moveBlocks_eq_ok hend hselected hmoved
  obtain ⟨front, bs, back, hfamily⟩ := exists_family (Heading.nodup_of_lines ho.lines) hmem
  rcases hcases with rfl | ⟨s, hs, hsparent, hbefore⟩
  · have hcarries : Carries o' (front ++ nodesOf bs ++ back) id := by
      refine ⟨?_, fun n _ => rfl⟩
      rw [List.map_id, ← hfamily.split]
    refine ⟨parent, [], 0, id, hparent, .inr ⟨rfl, rfl⟩, movedBefore_nil d, ?_,
      keepsHierarchy_iff hfamily (List.Perm.refl bs) hcarries⟩
    rw [rearranged_nil ho.nonneg, hfamily.split]
    exact hcarries
  · obtain ⟨carry, hcarries, hiff⟩ := exists_carries hend hclosed hselected hparent hfamily hs
      hsparent (offset < 0) hbefore
    exact ⟨parent, _, _, carry, hparent, .inl rfl, hbefore, hcarries, hiff⟩

theorem Carries.mem_ordered {o o' : Outline} {carry : Node → Node}
    (h : Carries o' (rearranged o.ordered ns line) carry) (hn : n ∈ o.ordered) :
    carry n ∈ o'.ordered ∧ (carry n).written = n.written := by
  have hmem : n ∈ rearranged o.ordered ns line := by
    simp only [rearranged, List.mem_append, List.mem_filter, decide_eq_true_eq]
    rcases Int.lt_or_le n.line line with hlt | hle <;> tauto
  refine ⟨?_, h.written n hmem⟩
  rw [h.ordered]
  exact List.mem_map_of_mem hmem

/-- Children of unequal levels, mixed breaks and a look-alike in code. -/
def unevenBlocks : Document :=
  ⟨[], "# A\r\n### B\r\n~~~\n# no\n~~~\n## C\n#### D\n## E\n# F\n".toList, .markdown⟩

/-- The last child is moved before another one of its level. -/
theorem keepsHierarchy_moveBlocks_uneven :
    let d := unevenBlocks
    let o := ofDocument d
    let e := o.ordered[4]
    let t := "# A\r\n### B\r\n~~~\n# no\n~~~\n## E\n## C\n#### D\n# F\n".toList
    let o' := ofDocument { d with text := t }
    Text.endsWith ['\n'] d.text = true ∧ (({} : Fence).afterLines d.lines).inside = false ∧
      (∀ n ∈ [e], n ∈ o.ordered) ∧ moveBlocks o d [e] (-1) = .ok t ∧
      ∃ carry, (∀ n ∈ o.ordered, carry n ∈ o'.ordered ∧ (carry n).written = n.written) ∧
        KeepsHierarchy o o' carry (o.parentOf? e) := by
  intro d o e t o'
  have hend : Text.endsWith ['\n'] d.text = true := by decide
  have hclosed : (({} : Fence).afterLines d.lines).inside = false := by decide
  have hselected : ∀ n ∈ [e], n ∈ o.ordered := by decide
  have hmoved : moveBlocks o d [e] (-1) = .ok t := by decide +kernel
  obtain ⟨parent, ns, line, carry, hparent, -, -, hcarries, hiff⟩ :=
    keepsHierarchy_moveBlocks_iff d [e] (-1) t hend hclosed hselected hmoved
  obtain rfl := hparent e (List.mem_singleton_self e)
  have hcarry (n : Node) (hn : n ∈ o.ordered) := hcarries.mem_ordered hn
  refine ⟨hend, hclosed, hselected, hmoved, carry, hcarry, hiff.mpr fun m hm n hn hmp hnp => ?_⟩
  have hlevels : ∀ m ∈ o.ordered, ∀ n ∈ o.ordered, o.parentOf? m = o.parentOf? e →
      o.parentOf? n = o.parentOf? e → ∀ m' ∈ o'.ordered, ∀ n' ∈ o'.ordered,
        m'.written = m.written → n'.written = n.written → m'.line < n'.line →
          n.level ≤ m.level := by decide +kernel
  exact hlevels m hm n hn hmp hnp _ (hcarry m hm).1 _ (hcarry n hn).1 (hcarry m hm).2
    (hcarry n hn).2

/-- A root of level two is not one any more after a root of level one has been moved before it. -/
theorem not_keepsHierarchy_moveBlocks :
    let d : Document := ⟨[], "## A\n# B\n".toList, .markdown⟩
    let o := ofDocument d
    let t := "# B\n## A\n".toList
    let o' := ofDocument { d with text := t }
    Text.endsWith ['\n'] d.text = true ∧ (({} : Fence).afterLines d.lines).inside = false ∧
      moveBlocks o d [o.ordered[1]] (-1) = .ok t ∧
      ¬ ∃ carry parent, (∀ n ∈ o.ordered, carry n ∈ o'.ordered ∧ (carry n).written = n.written) ∧
        KeepsHierarchy o o' carry parent := by
  intro d o t o'
  refine ⟨by decide, by decide, by decide +kernel, ?_⟩
  rintro ⟨carry, parent, hcarry, hkeeps⟩
  have ha : o.ordered[0] ∈ o.ordered := List.getElem_mem _
  have hplace : ∀ n ∈ o'.ordered, n.written = o.ordered[0].written → n = o'.ordered[1] := by decide
  have hparent := hkeeps.parents _ ha
  rw [hplace _ (hcarry _ ha).1 (hcarry _ ha).2] at hparent
  have hbefore : o.parentOf? o.ordered[0] = none := by decide
  have hafter : o'.parentOf? o'.ordered[1] ≠ none := by decide
  exact hafter (hparent.trans (by rw [hbefore]; rfl))

end TaggedOutline
