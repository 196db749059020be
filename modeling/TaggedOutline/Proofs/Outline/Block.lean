import Mathlib.Data.List.Find
import TaggedOutline.Heading.Scan
import TaggedOutline.Outline.Block
import TaggedOutline.Proofs.Heading.Scan
import TaggedOutline.Proofs.Outline.Ancestors

/-!
# The lines of a block

A line lies in the block of a heading if no heading after that one, up to the line, closes it
(`InBlock`). Blocks are nested or apart (`InBlock.trans`), the lines of a block are those from its
heading to its end (`inBlock_iff`), and the headings in a block are its own and those under it
(`inBlock_line_iff`). So the range of a block contains that of another iff the heading of the other
lies in it (`contains_blockRange_iff`), and the outermost of some blocks cover the same lines as
all of them (`outermost_spec`).
-/

namespace TaggedOutline

/-- The line lies in the block of a node. -/
def InBlock (ordered : List Node) (n : Node) (k : Int) : Prop :=
  n.line ≤ k ∧ ∀ m ∈ ordered, n.line < m.line → m.line ≤ k → n.level < m.level

instance (ordered : List Node) (n : Node) (k : Int) : Decidable (InBlock ordered n k) :=
  inferInstanceAs (Decidable (_ ∧ _))

/-- The nodes of a document in document order: they start at distinct lines that are not empty. -/
structure IsOrdered (d : Document) (ordered : List Node) : Prop where
  lines : ordered.Pairwise (·.line < ·.line)
  ids : (ordered.map Node.id).Nodup
  start : ∀ n ∈ ordered, n.range.start = ⟨n.line, 0⟩
  nonneg : ∀ n ∈ ordered, 0 ≤ n.line
  solid : ∀ n ∈ ordered, ∃ line, d.lines[n.line.toNat]? = some line ∧ line ≠ []

section Nested

variable {d : Document} {ordered : List Node} {m n : Node} {j k : Int}

theorem inBlock_line (ordered : List Node) (n : Node) : InBlock ordered n n.line :=
  ⟨Int.le_refl _, fun _ _ _ _ => by omega⟩

theorem InBlock.of_le (h : InBlock ordered n k) (hnj : n.line ≤ j) (hjk : j ≤ k) :
    InBlock ordered n j :=
  ⟨hnj, fun m hm hnm hmj => h.2 m hm hnm (by omega)⟩

/-- The block of a heading in a block lies in that block. -/
theorem InBlock.trans (ho : IsOrdered d ordered) (hm : m ∈ ordered) (hn : n ∈ ordered)
    (h : InBlock ordered m n.line) (hk : InBlock ordered n k) : InBlock ordered m k := by
  have hlevel : m.level ≤ n.level := by
    by_cases hline : m.line = n.line
    · exact Int.le_of_eq (congrArg Node.level (Heading.eq_of_line_eq ho.lines hm hn hline))
    · have := h.2 n hn (by have := h.1; omega) (Int.le_refl _)
      omega
  refine ⟨by have := h.1; have := hk.1; omega, fun x hx hmx hxk => ?_⟩
  by_cases hxn : x.line ≤ n.line
  · exact h.2 x hx hmx hxn
  · have := hk.2 x hx (by omega) hxk
    omega

/-- A block begins and ends at headings. -/
theorem inBlock_succ_iff (hn : n ∈ ordered) (hno : ∀ m ∈ ordered, m.line ≠ k + 1) :
    InBlock ordered n (k + 1) ↔ InBlock ordered n k := by
  constructor
  · intro h
    have := hno n hn
    exact h.of_le (by have := h.1; omega) (by omega)
  · intro h
    refine ⟨by have := h.1; omega, fun m hm hnm hmk => ?_⟩
    have := hno m hm
    exact h.2 m hm hnm (by omega)

end Nested

/-! ## The nodes of a document -/

namespace Outline

/-- The outline of a document. -/
abbrev ofDocument (d : Document) : Outline := ofHeadings (Heading.ofDocument d)

theorem start_of_mem_ofDocument {d : Document} {g : Heading} (h : g ∈ Heading.ofDocument d) :
    g.range.start = ⟨g.line, 0⟩ := by
  obtain ⟨line, -, hread⟩ := Heading.exists_line_of_mem_ofText h
  rw [Heading.range_of_ofLine? hread]
  rfl

/-- Each heading comes with its node. -/
theorem exists_of_mem_zip {hs : List Heading} {k : Nat} {e : Heading × Node}
    (h : e ∈ hs.zip (nodesFrom k hs)) : ∃ i, e.2 = nodeOf e.1 i := by
  induction hs generalizing k with
  | nil => exact absurd h (by simp)
  | cons g hs ih =>
    rcases List.mem_cons.mp h with rfl | h
    · exact ⟨k, rfl⟩
    · exact ih h

theorem length_nodesFrom (k : Nat) (hs : List Heading) : (nodesFrom k hs).length = hs.length := by
  induction hs generalizing k with
  | nil => rfl
  | cons g hs ih => rw [nodesFrom, List.length_cons, List.length_cons, ih]

theorem line_of_mem_zip {d : Document} {e : Heading × Node}
    (h : e ∈ (Heading.ofDocument d).zip (ofDocument d).ordered) :
    e.2 ∈ (ofDocument d).ordered ∧ e.2.line = e.1.line := by
  obtain ⟨i, hi⟩ := exists_of_mem_zip h
  refine ⟨(List.of_mem_zip h).2, ?_⟩
  rw [hi]
  exact congrArg Position.line (start_of_mem_ofDocument (List.of_mem_zip h).1)

/-- A node stands for a heading of the document. -/
theorem exists_of_mem_ordered {d : Document} {n : Node} (h : n ∈ (ofDocument d).ordered) :
    ∃ g ∈ Heading.ofDocument d, n.range = g.range ∧ n.line = g.line := by
  obtain ⟨g, hg, i, -, rfl⟩ := mem_nodesFrom h
  exact ⟨g, hg, rfl, congrArg Position.line (start_of_mem_ofDocument hg)⟩

/-- The headings of a document are those that come with its nodes. -/
theorem map_fst_zip_ordered (d : Document) :
    ((Heading.ofDocument d).zip (ofDocument d).ordered).map Prod.fst = Heading.ofDocument d :=
  List.map_fst_zip (Nat.le_of_eq (length_nodesFrom 0 _).symm)

theorem map_line_ordered (d : Document) :
    (ofDocument d).ordered.map Node.line = (Heading.ofDocument d).map Heading.line := by
  have hsnd : ((Heading.ofDocument d).zip (ofDocument d).ordered).map Prod.snd =
      (ofDocument d).ordered := List.map_snd_zip (Nat.le_of_eq (length_nodesFrom 0 _))
  conv_lhs => rw [← hsnd, List.map_map]
  conv_rhs => rw [← map_fst_zip_ordered d, List.map_map]
  exact List.map_congr_left fun e he => (line_of_mem_zip he).2

theorem isOrdered (d : Document) : IsOrdered d (ofDocument d).ordered := by
  refine ⟨?_, nodup_id_nodesFrom 0 _, fun n hn => ?_, fun n hn => ?_, fun n hn => ?_⟩
  · have := Heading.ofText_pairwise_line d.text
    rw [← List.pairwise_map] at this ⊢
    rwa [map_line_ordered]
  · obtain ⟨g, hg, hrange, hline⟩ := exists_of_mem_ordered hn
    rw [hrange, hline, start_of_mem_ofDocument hg]
  · obtain ⟨g, hg, -, hline⟩ := exists_of_mem_ordered hn
    rw [hline]
    exact (Heading.line_of_mem_ofLines hg).1
  · obtain ⟨g, hg, -, hline⟩ := exists_of_mem_ordered hn
    obtain ⟨line, hl, hread⟩ := Heading.exists_line_of_mem_ofText hg
    rw [hline]
    refine ⟨line, hl, ?_⟩
    rintro rfl
    exact absurd hread (by simp [Heading.ofLine?, Heading.markdownTitle?, Heading.typstTitle?])

/-- The headings in the block of a node are the node and those under it. -/
theorem inBlock_line_iff (d : Document) {m n : Node} (hm : m ∈ (ofDocument d).ordered)
    (hn : n ∈ (ofDocument d).ordered) :
    InBlock (ofDocument d).ordered m n.line ↔ m = n ∨ m ∈ (ofDocument d).ancestorsOf n := by
  have hlines := (isOrdered d).lines
  obtain ⟨pre, post, hsplit⟩ := List.append_of_mem hn
  rw [mem_ancestorsOf_iff hsplit]
  rw [hsplit] at hm hlines ⊢
  obtain ⟨hprelines, hpost, hpre⟩ := List.pairwise_append.mp hlines
  have hpost := (List.pairwise_cons.mp hpost).1
  constructor
  · intro h
    have hmn := h.1
    rcases List.mem_append.mp hm with hm | hm
    · have hlt := hpre m hm n List.mem_cons_self
      obtain ⟨front, later, rfl⟩ := List.append_of_mem hm
      have hlater := (List.pairwise_cons.mp (List.pairwise_append.mp hprelines).2.1).1
      refine .inr ⟨⟨front, later, rfl, fun x hx => ?_⟩, h.2 n (by simp) hlt (Int.le_refl _)⟩
      have hxn := hpre x (by simp [hx]) n List.mem_cons_self
      exact h.2 x (by simp [hx]) (hlater x hx) (Int.le_of_lt hxn)
    · rcases List.mem_cons.mp hm with rfl | hm
      · exact .inl rfl
      · have := hpost m hm
        omega
  · rintro (rfl | ⟨⟨front, later, rfl, hdeeper⟩, hlevel⟩)
    · exact inBlock_line _ m
    · have hmn := hpre m (by simp) n List.mem_cons_self
      have hfront := (List.pairwise_append.mp hprelines).2.2
      refine ⟨Int.le_of_lt hmn, fun x hx hmx hxn => ?_⟩
      rcases List.mem_append.mp hx with hx | hx
      · rcases List.mem_append.mp hx with hx | hx
        · have := hfront x hx m List.mem_cons_self
          omega
        · rcases List.mem_cons.mp hx with rfl | hx
          · omega
          · exact hdeeper x hx
      · rcases List.mem_cons.mp hx with rfl | hx
        · exact hlevel
        · have := hpost x hx
          omega

end Outline

/-! ## Ranges -/

/-- The line after the block of a node in a document of `count` lines. -/
def blockEnd (count : Nat) (ordered : List Node) (n : Node) : Int :=
  ((ordered.find? fun m => n.line < m.line ∧ m.level ≤ n.level).map Node.line).getD count

/-- The place before a line, or the end of the document after the last one. -/
def placeBefore (d : Document) (line : Int) : Position :=
  if line < d.lineCount then ⟨line, 0⟩ else d.endPosition

section Ranges

variable {d : Document} {ordered : List Node} {m n : Node} {k : Int}

theorem IsOrdered.line_lt (ho : IsOrdered d ordered) (hn : n ∈ ordered) : n.line < d.lineCount := by
  obtain ⟨line, hline, -⟩ := ho.solid n hn
  have := (List.getElem?_eq_some_iff.mp hline).1
  rw [Document.lineCount]
  omega

/-- The first node with a property is on the first line of such a node. -/
theorem IsOrdered.line_le_of_find? {p : Node → Bool} {next : Node} (ho : IsOrdered d ordered)
    (hnext : ordered.find? p = some next) (hm : m ∈ ordered) (hp : p m = true) :
    next.line ≤ m.line := by
  obtain ⟨-, front, later, hsplit, hfront⟩ := List.find?_eq_some_iff_append.mp hnext
  have hlines := ho.lines
  rw [hsplit] at hm hlines
  rcases List.mem_append.mp hm with hm | hm
  · exact absurd hp (by simpa using hfront m hm)
  · rcases List.mem_cons.mp hm with rfl | hm
    · exact Int.le_refl _
    · exact Int.le_of_lt ((List.pairwise_cons.mp (List.pairwise_append.mp hlines).2.1).1 m hm)

/-- A block ends before the first later heading that is not deeper, or with the document. -/
theorem blockEnd_spec (ho : IsOrdered d ordered) (n : Node) :
    ((∃ next ∈ ordered, n.line < next.line ∧ next.level ≤ n.level ∧
        blockEnd d.lineCount ordered n = next.line) ∨
      blockEnd d.lineCount ordered n = d.lineCount) ∧
    ∀ m ∈ ordered, n.line < m.line → m.line < blockEnd d.lineCount ordered n →
      n.level < m.level := by
  unfold blockEnd
  cases hnext : ordered.find? fun m => n.line < m.line ∧ m.level ≤ n.level with
  | none =>
    refine ⟨.inr rfl, fun m hm hnm _ => ?_⟩
    have := List.find?_eq_none.mp hnext m hm
    simp only [decide_eq_true_eq, not_and] at this
    have := this hnm
    omega
  | some next =>
    have hprop := List.find?_some hnext
    simp only [decide_eq_true_eq] at hprop
    refine ⟨.inl ⟨next, List.mem_of_find?_eq_some hnext, hprop.1, hprop.2, rfl⟩,
      fun m hm hnm hmk => ?_⟩
    simp only [Option.map_some, Option.getD_some] at hmk
    by_contra hlevel
    have := ho.line_le_of_find? hnext hm (decide_eq_true ⟨hnm, by omega⟩)
    omega

theorem blockEnd_le (ho : IsOrdered d ordered) (n : Node) :
    blockEnd d.lineCount ordered n ≤ d.lineCount := by
  rcases (blockEnd_spec ho n).1 with ⟨next, hnext, -, -, hend⟩ | hend
  · have := ho.line_lt hnext
    omega
  · omega

theorem line_lt_blockEnd (ho : IsOrdered d ordered) (hn : n ∈ ordered) :
    n.line < blockEnd d.lineCount ordered n := by
  rcases (blockEnd_spec ho n).1 with ⟨next, -, hlt, -, hend⟩ | hend
  · omega
  · have := ho.line_lt hn
    omega

/-- The lines of a block are those from its heading to its end. -/
theorem inBlock_iff (ho : IsOrdered d ordered) (hk : k < d.lineCount) :
    InBlock ordered n k ↔ n.line ≤ k ∧ k < blockEnd d.lineCount ordered n := by
  obtain ⟨hend, hdeeper⟩ := blockEnd_spec ho n
  constructor
  · intro h
    refine ⟨h.1, ?_⟩
    rcases hend with ⟨next, hnext, hlt, hlevel, hend⟩ | hend
    · by_contra hle
      have := h.2 next hnext hlt (by omega)
      omega
    · omega
  · rintro ⟨hnk, hkend⟩
    exact ⟨hnk, fun m hm hnm hmk => hdeeper m hm hnm (by omega)⟩

/-- A block ends at the first later heading that is not deeper, or with the document, which may be
another one than that of the nodes. -/
theorem blockRange_eq_find? (e : Document) (ho : IsOrdered d ordered) (hn : n ∈ ordered) :
    blockRange e ordered n = ⟨⟨n.line, 0⟩,
      ((ordered.find? fun m => n.line < m.line ∧ m.level ≤ n.level).map
        fun next => (⟨next.line, 0⟩ : Position)).getD e.endPosition⟩ := by
  obtain ⟨pre, later, hsplit⟩ := List.append_of_mem hn
  have hids := ho.ids
  have hlines := ho.lines
  rw [hsplit, List.map_append, List.map_cons] at hids
  rw [hsplit] at hlines
  obtain ⟨-, hlater, hpre⟩ := List.pairwise_append.mp hlines
  have hlater := (List.pairwise_cons.mp hlater).1
  have hdrop : ordered.dropWhile (·.id ≠ n.id) = n :: later := by
    rw [hsplit, List.dropWhile_append_of_pos, List.dropWhile_cons_of_neg (by simp)]
    intro m hm
    have := (List.nodup_append.mp hids).2.2 m.id (List.mem_map_of_mem hm) n.id List.mem_cons_self
    simpa using this
  have hfind : (ordered.find? fun m => n.line < m.line ∧ m.level ≤ n.level) =
      later.find? (·.level ≤ n.level) := by
    have hnone : (pre.find? fun m => n.line < m.line ∧ m.level ≤ n.level) = none := by
      rw [List.find?_eq_none]
      intro m hm
      have := hpre m hm n List.mem_cons_self
      simp only [decide_eq_true_eq, not_and]
      omega
    rw [hsplit, List.find?_append, hnone, Option.none_or, List.find?_cons_of_neg (by simp)]
    refine List.find?_congr fun m hm => ?_
    have := hlater m hm
    simp [this]
  rw [blockRange, hdrop]
  simp only
  rw [← hfind]
  cases hnext : ordered.find? fun m => n.line < m.line ∧ m.level ≤ n.level with
  | none => rw [Option.map_none, Option.getD_none, ho.start n hn]
  | some next =>
    rw [Option.map_some, Option.getD_some, ho.start n hn,
      ← ho.start next (List.mem_of_find?_eq_some hnext)]

theorem blockRange_eq (ho : IsOrdered d ordered) (hn : n ∈ ordered) :
    blockRange d ordered n = ⟨⟨n.line, 0⟩, placeBefore d (blockEnd d.lineCount ordered n)⟩ := by
  rw [blockRange_eq_find? d ho hn, blockEnd]
  cases hnext : ordered.find? fun m => n.line < m.line ∧ m.level ≤ n.level with
  | none =>
    rw [Option.map_none, Option.map_none, Option.getD_none, Option.getD_none, placeBefore,
      if_neg (by omega)]
  | some next =>
    rw [Option.map_some, Option.map_some, Option.getD_some, Option.getD_some, placeBefore,
      if_pos (ho.line_lt (List.mem_of_find?_eq_some hnext))]

theorem Position.le_iff {p q : Position} :
    p ≤ q ↔ p.line < q.line ∨ p.line = q.line ∧ p.character ≤ q.character :=
  Iff.rfl

/-- The document ends with its last line. -/
theorem character_endPosition {line : Text} (hline : d.lines[k.toNat]? = some line)
    (hk : k = d.lineCount - 1) : d.endPosition.character = line.length := by
  have hlast : d.lines.getLast? = some line := by
    rw [List.getLast?_eq_getElem?, ← hline]
    congr 1
    rw [Document.lineCount] at hk
    omega
  rw [Document.endPosition, hlast, Option.getD_some]

/-- The places before lines are in the order of the lines, as the last line is not empty if a
heading is on it. -/
theorem placeBefore_le_iff {b b' : Int} (hb : b ≤ d.lineCount)
    (hb' : (∃ line, 0 ≤ b' ∧ d.lines[b'.toNat]? = some line ∧ line ≠ []) ∨ b' = d.lineCount) :
    placeBefore d b ≤ placeBefore d b' ↔ b ≤ b' := by
  have hlast : d.endPosition.line = d.lineCount - 1 := rfl
  rw [Position.le_iff]
  unfold placeBefore
  rcases hb' with ⟨line, h0, hline, hne⟩ | rfl
  · have hlt : b' < d.lineCount := by
      have := (List.getElem?_eq_some_iff.mp hline).1
      rw [Document.lineCount]
      omega
    rw [if_pos hlt]
    by_cases hbc : b < d.lineCount
    · rw [if_pos hbc]
      simp only
      omega
    · rw [if_neg hbc, hlast]
      simp only
      -- The end of the document comes after the start of its last line.
      have hend (h : b' = d.lineCount - 1) : ¬ d.endPosition.character ≤ 0 := by
        have hpos := List.length_pos_of_ne_nil hne
        rw [character_endPosition hline h]
        omega
      constructor
      · rintro (h | ⟨h, hchar⟩)
        · omega
        · exact absurd hchar (hend h.symm)
      · omega
  · rw [if_neg (Int.lt_irrefl _), hlast]
    by_cases hbc : b < d.lineCount
    · rw [if_pos hbc]
      have : (0 : Int) ≤ d.endPosition.character := Int.natCast_nonneg _
      simp only
      omega
    · rw [if_neg hbc, hlast]
      omega

/-- The range of a block contains that of another iff the other begins in it. -/
theorem contains_blockRange_iff (ho : IsOrdered d ordered) (hm : m ∈ ordered) (hn : n ∈ ordered) :
    (blockRange d ordered m).contains (blockRange d ordered n) = true ↔
      InBlock ordered m n.line := by
  have hstop : (∃ line, 0 ≤ blockEnd d.lineCount ordered m ∧
      d.lines[(blockEnd d.lineCount ordered m).toNat]? = some line ∧ line ≠ []) ∨
      blockEnd d.lineCount ordered m = d.lineCount := by
    rcases (blockEnd_spec ho m).1 with ⟨next, hnext, -, -, hend⟩ | hend
    · obtain ⟨line, hline, hne⟩ := ho.solid next hnext
      rw [hend]
      exact .inl ⟨line, ho.nonneg next hnext, hline, hne⟩
    · exact .inr hend
  have hstart : (⟨m.line, 0⟩ : Position) ≤ ⟨n.line, 0⟩ ↔ m.line ≤ n.line := by
    rw [Position.le_iff]
    simp only
    omega
  rw [blockRange_eq ho hm, blockRange_eq ho hn, Range.contains, Bool.and_eq_true, decide_eq_true_eq,
    decide_eq_true_eq, hstart, placeBefore_le_iff (blockEnd_le ho n) hstop]
  have hnend := line_lt_blockEnd ho hn
  constructor
  · rintro ⟨hmn, hends⟩
    exact (inBlock_iff ho (ho.line_lt hn)).mpr ⟨hmn, by omega⟩
  · intro h
    refine ⟨h.1, ?_⟩
    by_contra hlt
    -- The line after the block of `m` would lie in the block of `n`, so in that of `m`.
    have hle := blockEnd_le ho n
    have hmend := ((inBlock_iff ho (ho.line_lt hn)).mp h).2
    have hin : InBlock ordered n (blockEnd d.lineCount ordered m) :=
      (inBlock_iff ho (by omega)).mpr ⟨by omega, by omega⟩
    have := ((inBlock_iff ho (by omega)).mp (h.trans ho hm hn hin)).2
    omega

end Ranges

/-! ## Outermost blocks -/

/-- A line in the block of one of some nodes. -/
def Covered (ordered ns : List Node) (k : Int) : Prop := ∃ n ∈ ns, InBlock ordered n k

instance (ordered ns : List Node) (k : Int) : Decidable (Covered ordered ns k) :=
  inferInstanceAs (Decidable (∃ n ∈ ns, InBlock ordered n k))

/-- The nodes are in line order, each outside of the blocks of those before it. -/
def Apart (ordered ns : List Node) : Prop :=
  ns.Pairwise fun m n => m.line ≤ n.line ∧ ¬ InBlock ordered m n.line

section Outermost

variable {d : Document} {ordered kept r selected : List Node} {n : Node} {k : Int}

theorem covered_append {ns ns' : List Node} :
    Covered ordered (ns ++ ns') k ↔ Covered ordered ns k ∨ Covered ordered ns' k := by
  unfold Covered
  constructor
  · rintro ⟨m, hm, hk⟩
    rcases List.mem_append.mp hm with hm | hm
    · exact .inl ⟨m, hm, hk⟩
    · exact .inr ⟨m, hm, hk⟩
  · rintro (⟨m, hm, hk⟩ | ⟨m, hm, hk⟩)
    · exact ⟨m, List.mem_append_left _ hm, hk⟩
    · exact ⟨m, List.mem_append_right _ hm, hk⟩

theorem covered_cons {ns : List Node} :
    Covered ordered (n :: ns) k ↔ InBlock ordered n k ∨ Covered ordered ns k := by
  simp [Covered]

/-- A node is left out iff it lies in the block of a kept one. -/
theorem any_contains_iff (ho : IsOrdered d ordered) (hkept : ∀ m ∈ kept, m ∈ ordered)
    (hn : n ∈ ordered) :
    (kept.any fun m => (blockRange d ordered m).contains (blockRange d ordered n)) = true ↔
      Covered ordered kept n.line := by
  rw [List.any_eq_true, Covered]
  constructor
  · rintro ⟨m, hm, hcontains⟩
    exact ⟨m, hm, (contains_blockRange_iff ho (hkept m hm) hn).mp hcontains⟩
  · rintro ⟨m, hm, hin⟩
    exact ⟨m, hm, (contains_blockRange_iff ho (hkept m hm) hn).mpr hin⟩

/-- Keeping the outermost of nodes in line order keeps blocks apart and covers the same lines. -/
theorem keepOutermost_spec (ho : IsOrdered d ordered) (hkept : ∀ m ∈ kept, m ∈ ordered)
    (hr : ∀ n ∈ r, n ∈ ordered) (hsorted : r.Pairwise (·.line ≤ ·.line))
    (hbefore : ∀ m ∈ kept, ∀ n ∈ r, m.line ≤ n.line) (hapart : Apart ordered kept) :
    (∀ n ∈ keepOutermost d ordered kept r, n ∈ ordered) ∧
      Apart ordered (keepOutermost d ordered kept r) ∧
      ∀ k, Covered ordered (keepOutermost d ordered kept r) k ↔ Covered ordered (kept ++ r) k := by
  induction r generalizing kept with
  | nil =>
    rw [keepOutermost, List.append_nil]
    exact ⟨hkept, hapart, fun _ => Iff.rfl⟩
  | cons n r ih =>
    obtain ⟨hn, hr'⟩ := List.forall_mem_cons.mp hr
    obtain ⟨hfirst, hrest⟩ := List.pairwise_cons.mp hsorted
    have hbefore' : ∀ m ∈ kept, ∀ n ∈ r, m.line ≤ n.line :=
      fun m hm x hx => hbefore m hm x (List.mem_cons_of_mem n hx)
    rw [keepOutermost]
    split
    · next hany =>
      obtain ⟨m, hm, hin⟩ := (any_contains_iff ho hkept hn).mp hany
      obtain ⟨hmem, hap, hcov⟩ := ih hkept hr' hrest hbefore' hapart
      refine ⟨hmem, hap, fun k => ?_⟩
      rw [hcov, covered_append, covered_append, covered_cons]
      constructor
      · rintro (h | h)
        · exact .inl h
        · exact .inr (.inr h)
      · rintro (h | h | h)
        · exact .inl h
        · exact .inl ⟨m, hm, hin.trans ho (hkept m hm) hn h⟩
        · exact .inr h
    · next hany =>
      have hout := fun hc => hany ((any_contains_iff ho hkept hn).mpr hc)
      have hkept' : ∀ m ∈ kept ++ [n], m ∈ ordered :=
        List.forall_mem_append.mpr ⟨hkept, List.forall_mem_singleton.mpr hn⟩
      have hbefore' : ∀ m ∈ kept ++ [n], ∀ x ∈ r, m.line ≤ x.line :=
        List.forall_mem_append.mpr ⟨hbefore', List.forall_mem_singleton.mpr hfirst⟩
      have hapart' : Apart ordered (kept ++ [n]) := by
        refine List.pairwise_append.mpr ⟨hapart, List.pairwise_singleton _ _, fun m hm x hx => ?_⟩
        rw [List.mem_singleton.mp hx]
        exact ⟨hbefore m hm n List.mem_cons_self, fun hin => hout ⟨m, hm, hin⟩⟩
      obtain ⟨hmem, hap, hcov⟩ := ih hkept' hr' hrest hbefore' hapart'
      refine ⟨hmem, hap, fun k => ?_⟩
      rw [hcov, List.append_assoc, List.singleton_append]

theorem pairwise_sortByLine (ns : List Node) : (sortByLine ns).Pairwise (·.line ≤ ·.line) :=
  Heading.pairwise_mergeSort_line Node.line ns

theorem mem_sortByLine {ns : List Node} : n ∈ sortByLine ns ↔ n ∈ ns :=
  (List.mergeSort_perm ns _).mem_iff

/-- The outermost of the selected nodes have blocks that are apart, and cover the same lines. -/
theorem outermost_spec (ho : IsOrdered d ordered) (hselected : ∀ n ∈ selected, n ∈ ordered) :
    (∀ n ∈ outermost d ordered selected, n ∈ ordered) ∧
      Apart ordered (outermost d ordered selected) ∧
      ∀ k, Covered ordered (outermost d ordered selected) k ↔ Covered ordered selected k := by
  obtain ⟨hmem, hapart, hcov⟩ := keepOutermost_spec ho (fun n (hn : n ∈ []) => by simp at hn)
    (fun n hn => hselected n (mem_sortByLine.mp hn)) (pairwise_sortByLine selected) (by simp)
    List.Pairwise.nil
  refine ⟨hmem, hapart, fun k => (hcov k).trans ?_⟩
  simp only [Covered, List.nil_append, mem_sortByLine]

end Outermost

end TaggedOutline
