import TaggedOutline.Proofs.Document.Keep
import TaggedOutline.Proofs.Document.Position
import TaggedOutline.Proofs.Outline.Nesting
import TaggedOutline.Proofs.Outline.Outermost
import TaggedOutline.Proofs.Outline.Range

/-!
# The texts of blocks

1. The text of a block is that of its lines (`blockText_eq`), and the texts of blocks that are apart
   are those of the lines they cover (`flatMap_blockText`).
2. Nodes under one parent have blocks that are apart (`Outline.apart_under`). The way up from the
   heading at a line passes one of them before it passes their parent, so from the first of them on
   they cover what the block of the parent does (`Outline.covered_under_iff`).
3. So the blocks of the nodes under a node are what its own text leaves of its block, and the blocks
   of the roots what the text before the first heading leaves of the document
   (`Outline.blockText_tiles`).
-/

namespace TaggedOutline

open Outline (ofDocument isOrdered)

variable {d : Document} {ordered ns : List Node} {m n : Node} {a b e : Nat}

/-! ## The text of some lines -/

/-- The text of the lines from `a` up to `b`. -/
def linesText (d : Document) (a b : Nat) : Text := Line.join (((Line.ofText d.text).take b).drop a)

theorem linesText_append (hab : a ≤ b) (hbe : b ≤ e) :
    linesText d a b ++ linesText d b e = linesText d a e := by
  rw [linesText, linesText, linesText, ← Line.join_append, Text.drop_take_append_drop_take _ hab hbe]

theorem linesText_lineCount (d : Document) : linesText d 0 d.lineCount = d.text := by
  rw [linesText, lineCount_eq, List.take_length, List.drop_zero, Line.join_ofText]

theorem offsetAt_placeBefore {b : Nat} (hb : b ≤ d.lineCount) :
    d.offsetAt (placeBefore d b) = lineStart (Line.ofText d.text) b := by
  rw [lineCount_eq] at hb
  unfold placeBefore
  split
  · next hlt =>
    rw [lineCount_eq] at hlt
    have hget := List.getElem?_eq_getElem (l := Line.ofText d.text) (i := b) (by omega)
    rw [Document.offsetAt_eq hget]
    simp
  · next hge =>
    rw [lineCount_eq] at hge
    have : b = (Line.ofText d.text).length := by omega
    rw [Document.offsetAt_endPosition, lineStart, this, List.take_length, Line.join_ofText]

/-- The text between the places before two lines is that of the lines between them. -/
theorem textIn_placeBefore (hab : a ≤ b) (hb : b ≤ d.lineCount) :
    d.textIn ⟨placeBefore d a, placeBefore d b⟩ = linesText d a b := by
  have hlines : lineStart (Line.ofText d.text) a = lineStart ((Line.ofText d.text).take b) a := by
    rw [lineStart, lineStart, List.take_take, Nat.min_eq_left hab]
  have htake := take_lineStart (Line.ofText d.text) b
  rw [Line.join_ofText] at htake
  rw [Document.textIn, offsetAt_placeBefore (by omega), offsetAt_placeBefore hb,
    Text.slice_of_nonneg _ (Int.natCast_nonneg _) (Int.natCast_nonneg _), Int.toNat_natCast,
    Int.toNat_natCast, htake, hlines, drop_lineStart, linesText]

/-! ## The text of a block -/

/-- A block runs from the place before its heading to that before the line after it. -/
theorem blockRange_eq_placeBefore (ho : IsOrdered d ordered) (hn : n ∈ ordered) :
    n.range.start = placeBefore d (n.line.toNat : Nat) ∧
      blockRange d ordered n = ⟨placeBefore d (n.line.toNat : Nat),
        placeBefore d ((blockEnd d.lineCount ordered n).toNat : Nat)⟩ := by
  have hline := ho.line_lt hn
  have hnonneg := ho.nonneg n hn
  have hend := line_lt_blockEnd ho hn
  have hstart : placeBefore d (n.line.toNat : Nat) = ⟨n.line, 0⟩ := by
    rw [placeBefore, Int.toNat_of_nonneg hnonneg, if_pos hline]
  rw [hstart, Int.toNat_of_nonneg (by omega)]
  exact ⟨ho.start n hn, blockRange_eq ho hn⟩

/-- The offsets of the ends of a block. -/
theorem offsetAt_blockRange (ho : IsOrdered d ordered) (hn : n ∈ ordered) :
    d.offsetAt (blockRange d ordered n).start = lineStart (Line.ofText d.text) n.line.toNat ∧
      d.offsetAt (blockRange d ordered n).stop =
        lineStart (Line.ofText d.text) (blockEnd d.lineCount ordered n).toNat := by
  have hline := ho.line_lt hn
  have hend := line_lt_blockEnd ho hn
  have hle := blockEnd_le ho n
  rw [(blockRange_eq_placeBefore ho hn).2]
  exact ⟨offsetAt_placeBefore (by omega), offsetAt_placeBefore (by omega)⟩

/-- The text of a block is that of its lines. -/
theorem blockText_eq (ho : IsOrdered d ordered) (hn : n ∈ ordered) :
    blockText d ordered n = linesText d n.line.toNat (blockEnd d.lineCount ordered n).toNat := by
  have hend := line_lt_blockEnd ho hn
  have hle := blockEnd_le ho n
  rw [blockText, (blockRange_eq_placeBefore ho hn).2]
  exact textIn_placeBefore (by omega) (by omega)

/-- The blocks of later nodes begin after the block of the first one. -/
theorem covered_cons_of_apart (ho : IsOrdered d ordered) (hns : ∀ m ∈ n :: ns, m ∈ ordered)
    (hapart : Apart ordered (n :: ns)) :
    (∀ k : Nat, k < (blockEnd d.lineCount ordered n).toNat → ¬ Covered ordered ns k) ∧
      ∀ k : Nat, k < (Line.ofText d.text).length → (Covered ordered (n :: ns) k ↔
        (n.line.toNat ≤ k ∧ k < (blockEnd d.lineCount ordered n).toNat) ∨ Covered ordered ns k) := by
  have hfirst := (List.pairwise_cons.mp hapart).1
  have hnonneg := ho.nonneg n (hns n List.mem_cons_self)
  have hcount := lineCount_eq d
  refine ⟨fun k hk => ?_, fun k hk => ?_⟩
  · rintro ⟨m, hm, hin⟩
    obtain ⟨hnm, hout⟩ := hfirst m hm
    rw [inBlock_iff ho (ho.line_lt (hns m (List.mem_cons_of_mem n hm)))] at hout
    have := hin.1
    omega
  · rw [covered_cons, inBlock_iff ho (by omega)]
    refine or_congr ?_ Iff.rfl
    omega

/-- The texts of blocks that are apart are those of their lines. -/
theorem flatMap_blockText (ho : IsOrdered d ordered) (hns : ∀ n ∈ ns, n ∈ ordered)
    (hapart : Apart ordered ns) :
    ns.flatMap (blockText d ordered) =
      Line.join (keep (fun k => !decide (Covered ordered ns k)) 0 (Line.ofText d.text)) := by
  induction ns with
  | nil =>
    rw [keep_eq_nil (by simp [Covered])]
    rfl
  | cons n ns ih =>
    have hn := hns n List.mem_cons_self
    have hrest := ih (fun m hm => hns m (List.mem_cons_of_mem n hm))
      (List.pairwise_cons.mp hapart).2
    obtain ⟨hbefore, hcovered⟩ := covered_cons_of_apart ho hns hapart
    have hline := line_lt_blockEnd ho hn
    have hle := blockEnd_le ho n
    have hcount := lineCount_eq d
    rw [List.flatMap_cons, hrest, blockText_eq ho hn, linesText, ← Line.join_append]
    refine congrArg Line.join (keep_eq_interval_append (by omega) (by omega) (fun k hk => ?_)
      fun k hk => ?_).symm
    · simpa using hbefore k hk
    · rw [decide_eq_decide.mpr (hcovered k hk), Bool.decide_or, Bool.not_or]

/-! ## The nodes under one parent -/

/-- Siblings do not lie in each other's blocks. -/
theorem not_inBlock_of_parentOf?_eq (hm : m ∈ (ofDocument d).ordered)
    (hn : n ∈ (ofDocument d).ordered)
    (hparent : (ofDocument d).parentOf? m = (ofDocument d).parentOf? n) (hlt : m.line < n.line) :
    ¬ InBlock (ofDocument d).ordered m n.line := by
  intro hin
  have hlines := (isOrdered d).lines
  have hlevel := hin.2 n hn hlt (Int.le_refl _)
  obtain ⟨p, hp, hle⟩ := exists_parentIn_of_level_lt hlines hn hm hlt hlevel
  have hpm : parentIn (ofDocument d).ordered m = some p := by
    rw [← hp]
    exact (Outline.parentOf?_eq_parentIn hm).symm.trans
      (hparent.trans (Outline.parentOf?_eq_parentIn hn))
  have := line_lt_of_parentIn hlines hm hpm
  omega

/-- The block of a sibling ends before another one begins. -/
theorem blockEnd_le_of_parentOf?_eq (hm : m ∈ (ofDocument d).ordered)
    (hn : n ∈ (ofDocument d).ordered)
    (hparent : (ofDocument d).parentOf? m = (ofDocument d).parentOf? n) (hlt : m.line < n.line) :
    blockEnd d.lineCount (ofDocument d).ordered m ≤ n.line := by
  have hout := not_inBlock_of_parentOf?_eq hm hn hparent hlt
  rw [inBlock_iff (isOrdered d) ((isOrdered d).line_lt hn)] at hout
  omega

namespace Outline

/-- The nodes with the parent, or all without one, in document order. -/
def under (o : Outline) (parent : Option Node) : List Node :=
  o.ordered.filter fun n => o.parentOf? n = parent

variable {o : Outline} {parent : Option Node} {c : Node} {later above : List Node} {k : Nat}

theorem mem_under : n ∈ o.under parent ↔ n ∈ o.ordered ∧ o.parentOf? n = parent := by
  rw [under, List.mem_filter, decide_eq_true_eq]

/-- The way up to a node, or to the outermost, passes one of the nodes under it. -/
theorem Ascent.exists_under (h : o.Ascent n above) (hparent : ∀ p ∈ parent, p ∈ above) :
    ∃ c, (c = n ∨ c ∈ above) ∧ o.parentOf? c = parent := by
  induction h with
  | @root n hnone =>
    cases parent with
    | none => exact ⟨n, .inl rfl, hnone⟩
    | some p => exact absurd (hparent p rfl) (by simp)
  | @step n p above hp _ ih =>
    by_cases hlast : parent = some p
    · exact ⟨n, .inl rfl, hp.trans hlast.symm⟩
    · have hbefore : ∀ q ∈ parent, q ∈ above := fun q hq => by
        refine (List.mem_append.mp (hparent q hq)).resolve_right fun hqp => hlast ?_
        rw [← List.mem_singleton.mp hqp]
        exact hq
      obtain ⟨c, rfl | hc, hparentc⟩ := ih hbefore
      · exact ⟨c, .inr (by simp), hparentc⟩
      · exact ⟨c, .inr (List.mem_append_left _ hc), hparentc⟩

theorem apart_under (d : Document) (parent : Option Node) :
    Apart (ofDocument d).ordered ((ofDocument d).under parent) := by
  have hlines : ((ofDocument d).under parent).Pairwise (·.line < ·.line) :=
    (isOrdered d).lines.filter _
  refine hlines.imp_of_mem fun {m n} hm hn hlt => ⟨Int.le_of_lt hlt, ?_⟩
  obtain ⟨hm, hmp⟩ := mem_under.mp hm
  obtain ⟨hn, hnp⟩ := mem_under.mp hn
  exact not_inBlock_of_parentOf?_eq hm hn (hmp.trans hnp.symm) hlt

/-- A node comes after its parent, in the block of that. -/
theorem inBlock_of_parentOf? (hn : n ∈ (ofDocument d).ordered)
    (hparent : (ofDocument d).parentOf? n = some m) :
    m ∈ (ofDocument d).ordered ∧ m.line < n.line ∧ InBlock (ofDocument d).ordered m n.line := by
  have habove : m ∈ (ofDocument d).ancestorsOf n := by
    rcases ancestorsOf_cases (Heading.ofDocument d) n with ⟨hnone, -⟩ | ⟨_, p, above, -, hp, heq⟩
    · exact absurd (hparent.symm.trans hnone) (by simp)
    · obtain rfl : p = m := Option.some.inj (hp.symm.trans hparent)
      rw [heq]
      exact List.mem_append_right _ (List.mem_singleton_self p)
  have hm := (level_lt_of_mem_ancestorsOf hn habove).1
  have hin : parentIn (ofDocument d).ordered n = some m :=
    (parentOf?_eq_parentIn hn).symm.trans hparent
  exact ⟨hm, line_lt_of_parentIn (isOrdered d).lines hn hin,
    (inBlock_line_iff d hm hn).mpr (.inr habove)⟩

/-- From the first of the nodes under a parent on, their blocks cover what that of the parent
does. -/
theorem covered_under_iff : Covered (ofDocument d).ordered ((ofDocument d).under parent) k ↔
    (∃ c ∈ (ofDocument d).under parent, c.line ≤ k) ∧
      ∀ p ∈ parent, InBlock (ofDocument d).ordered p k := by
  have ho := isOrdered d
  constructor
  · rintro ⟨c, hc, hin⟩
    obtain ⟨hmem, hparent⟩ := mem_under.mp hc
    refine ⟨⟨c, hc, hin.1⟩, fun p hp => ?_⟩
    obtain ⟨hpmem, -, hpc⟩ := inBlock_of_parentOf? hmem (hparent.trans hp)
    exact hpc.trans ho hpmem hmem hin
  · rintro ⟨⟨c, hc, hck⟩, hparent⟩
    obtain ⟨hmem, hcparent⟩ := mem_under.mp hc
    obtain ⟨g, hg⟩ := exists_headingAtLine? hmem hck
    obtain ⟨hgmem, hgk, hlast⟩ := headingAtLine?_spec hg
    have habove : ∀ p ∈ parent, p ∈ (ofDocument d).ancestorsOf g := fun p hp => by
      obtain ⟨hpmem, hpc, -⟩ := inBlock_of_parentOf? hmem (hcparent.trans hp)
      obtain ⟨g', hg', hpg⟩ := (inBlock_iff_headingAtLine? hpmem).mp (hparent p hp)
      obtain rfl : g' = g := Option.some.inj (hg'.symm.trans hg)
      -- The parent is not the last heading, as `c` comes after it.
      refine hpg.resolve_left ?_
      rintro rfl
      have := hlast c hmem hck
      omega
    obtain ⟨s, hsg, hsparent⟩ := (ascent_ancestorsOf (Heading.ofDocument d) g).exists_under habove
    have hsmem : s ∈ (ofDocument d).ordered := by
      rcases hsg with rfl | hsg
      · exact hgmem
      · exact (level_lt_of_mem_ancestorsOf hgmem hsg).1
    exact ⟨s, mem_under.mpr ⟨hsmem, hsparent⟩, (inBlock_iff_headingAtLine? hsmem).mpr ⟨g, hg, hsg⟩⟩

/-- The line after the block of a node, or after all lines. -/
def stopUnder (d : Document) (parent : Option Node) : Nat :=
  parent.elim d.lineCount fun p => (blockEnd d.lineCount (ofDocument d).ordered p).toNat

section First

variable (hfirst : (ofDocument d).under parent = c :: later)

include hfirst

theorem mem_ordered_of_first :
    c ∈ (ofDocument d).ordered ∧ (ofDocument d).parentOf? c = parent := by
  rw [← mem_under, hfirst]
  exact List.mem_cons_self

theorem line_le_stopUnder :
    c.line.toNat ≤ stopUnder d parent ∧ stopUnder d parent ≤ d.lineCount := by
  have ho := isOrdered d
  obtain ⟨hc, hparent⟩ := mem_ordered_of_first hfirst
  have hline := ho.line_lt hc
  cases parent with
  | none =>
    show c.line.toNat ≤ d.lineCount ∧ d.lineCount ≤ d.lineCount
    omega
  | some p =>
    obtain ⟨-, -, hin⟩ := inBlock_of_parentOf? hc hparent
    have hend := ((inBlock_iff ho hline).mp hin).2
    have hle := blockEnd_le ho p
    show c.line.toNat ≤ (blockEnd d.lineCount (ofDocument d).ordered p).toNat ∧
      (blockEnd d.lineCount (ofDocument d).ordered p).toNat ≤ d.lineCount
    omega

/-- The blocks of the nodes under a parent cover the lines from the first of them to the end of that
of the parent. -/
theorem covered_under_iff_interval {k : Nat} (hk : k < d.lineCount) :
    Covered (ofDocument d).ordered (c :: later) k ↔ c.line.toNat ≤ k ∧ k < stopUnder d parent := by
  have ho := isOrdered d
  obtain ⟨hc, hparent⟩ := mem_ordered_of_first hfirst
  have hnonneg := ho.nonneg c hc
  have hlines : (c :: later).Pairwise (·.line < ·.line) := hfirst ▸ (isOrdered d).lines.filter _
  have hstart : (∃ m ∈ c :: later, m.line ≤ (k : Int)) ↔ c.line.toNat ≤ k := by
    constructor
    · rintro ⟨m, hm, hmk⟩
      rcases List.mem_cons.mp hm with rfl | hm
      · omega
      · have := (List.pairwise_cons.mp hlines).1 m hm
        omega
    · exact fun hck => ⟨c, List.mem_cons_self, by omega⟩
  rw [← hfirst] at hstart ⊢
  rw [covered_under_iff, hstart]
  refine and_congr_right fun hck => ?_
  cases parent with
  | none =>
    show (∀ p ∈ none, _) ↔ k < d.lineCount
    simp [hk]
  | some p =>
    obtain ⟨-, hpc, -⟩ := inBlock_of_parentOf? hc hparent
    show (∀ q ∈ some p, _) ↔ k < (blockEnd d.lineCount (ofDocument d).ordered p).toNat
    have hin := inBlock_iff ho (n := p) (k := k) (by omega)
    simp only [Option.mem_def, Option.some.injEq, forall_eq', hin]
    omega

/-- The texts of the nodes under a parent are those of the lines from the first of them on. -/
theorem flatMap_blockText_under :
    (c :: later).flatMap (blockText d (ofDocument d).ordered) =
      linesText d c.line.toNat (stopUnder d parent) := by
  obtain ⟨hle, hcount⟩ := line_le_stopUnder hfirst
  have hmem : ∀ m ∈ c :: later, m ∈ (ofDocument d).ordered := fun m hm =>
    (mem_under.mp (hfirst ▸ hm)).1
  have hinterval : keep (fun k => !decide (Covered (ofDocument d).ordered (c :: later) k)) 0
      (Line.ofText d.text) =
        ((Line.ofText d.text).take (stopUnder d parent)).drop c.line.toNat ++
          keep (fun _ => true) 0 (Line.ofText d.text) := by
    rw [lineCount_eq] at hcount
    refine keep_eq_interval_append hle hcount (fun _ _ => rfl) fun k hk => ?_
    rw [← lineCount_eq] at hk
    rw [Bool.and_true, decide_eq_decide.mpr (covered_under_iff_interval hfirst hk)]
  rw [flatMap_blockText (isOrdered d) hmem (hfirst ▸ apart_under d parent), hinterval,
    keep_eq_nil fun _ _ _ => rfl, List.append_nil, linesText]

end First

/-! ## Tiling -/

/-- The text before the first heading of a document. -/
def leadText (d : Document) : Text :=
  d.textIn ⟨⟨0, 0⟩, ((ofDocument d).ordered.head?.map fun n => n.range.start).getD d.endPosition⟩

/-- The text of the block of a node before the first of the nodes under it. -/
def ownText (d : Document) (n : Node) : Text :=
  d.textIn ⟨(blockRange d (ofDocument d).ordered n).start,
    (((ofDocument d).childrenOf n).head?.map fun c => c.range.start).getD
      (blockRange d (ofDocument d).ordered n).stop⟩

theorem text_eq_leadText_append (d : Document) : d.text = leadText d ++
    ((ofDocument d).under none).flatMap (blockText d (ofDocument d).ordered) := by
  have hstart : (⟨0, 0⟩ : Position) = placeBefore d (0 : Nat) := by
    have : 0 < d.lineCount := by rw [lineCount_eq, Line.length_ofText]; omega
    rw [placeBefore, if_pos (by omega)]
    rfl
  unfold leadText
  rw [hstart]
  cases hordered : (ofDocument d).ordered with
  | nil =>
    have hstop : d.endPosition = placeBefore d d.lineCount := by
      rw [placeBefore, if_neg (Int.lt_irrefl _)]
    rw [under, hordered, List.head?_nil, Option.map_none, Option.getD_none, hstop,
      textIn_placeBefore (Nat.zero_le _) (Nat.le_refl _), linesText_lineCount]
    exact (List.append_nil _).symm
  | cons n rest =>
    have hn : n ∈ (ofDocument d).ordered := hordered ▸ List.mem_cons_self
    -- There is no heading above the first one.
    have hsplit : (ofDocument d).ordered = [] ++ n :: rest := hordered
    have hnone : (ofDocument d).parentOf? n = none := (parentOf?_eq_none_iff hsplit).mpr (by simp)
    have hfirst : (ofDocument d).under none =
        n :: rest.filter fun m => (ofDocument d).parentOf? m = none := by
      rw [under, hordered, List.filter_cons_of_pos (by simpa using hnone)]
    obtain ⟨hle, hcount⟩ := line_le_stopUnder hfirst
    have htexts := flatMap_blockText_under hfirst
    rw [hordered] at htexts
    rw [List.head?_cons, Option.map_some, Option.getD_some,
      (blockRange_eq_placeBefore (isOrdered d) hn).1,
      textIn_placeBefore (Nat.zero_le _) (by omega), hfirst, htexts,
      linesText_append (Nat.zero_le _) hle]
    exact (linesText_lineCount d).symm

theorem blockText_eq_ownText_append (hn : n ∈ (ofDocument d).ordered) :
    blockText d (ofDocument d).ordered n = ownText d n ++
      ((ofDocument d).childrenOf n).flatMap (blockText d (ofDocument d).ordered) := by
  have hchildren : (ofDocument d).childrenOf n = (ofDocument d).under (some n) :=
    childrenOf_eq_filter hn
  unfold ownText
  rw [hchildren]
  cases hfirst : (ofDocument d).under (some n) with
  | nil =>
    rw [List.head?_nil, Option.map_none, Option.getD_none]
    exact (List.append_nil _).symm
  | cons c later =>
    obtain ⟨hle, hcount⟩ := line_le_stopUnder hfirst
    obtain ⟨hc, hparent⟩ := mem_ordered_of_first hfirst
    obtain ⟨-, hlt, -⟩ := inBlock_of_parentOf? hc hparent
    rw [List.head?_cons, Option.map_some, Option.getD_some,
      (blockRange_eq_placeBefore (isOrdered d) hn).2,
      (blockRange_eq_placeBefore (isOrdered d) hc).1, flatMap_blockText_under hfirst,
      textIn_placeBefore (by omega) (by omega), linesText_append (by omega) hle]
    exact blockText_eq (isOrdered d) hn

/-- The text before the first heading and the blocks of the roots make up the text of a document.
What a block has before the first node under its own, and the blocks of the nodes under it, make up
the block. -/
theorem blockText_tiles (d : Document) :
    let o := ofDocument d
    d.text = leadText d ++ (o.roots.map Tree.root).flatMap (blockText d o.ordered) ∧
      ∀ n ∈ o.ordered, blockText d o.ordered n =
        ownText d n ++ (o.childrenOf n).flatMap (blockText d o.ordered) := by
  intro o
  have hroots : o.roots.map Tree.root = o.under none := roots_eq_filter
  refine ⟨?_, fun n hn => blockText_eq_ownText_append hn⟩
  rw [hroots]
  exact text_eq_leadText_append d

/-- Lines before the first heading, a skipped level and no break at the end. -/
theorem blockText_tiles_mixed :
    let d : Document := ⟨[], "in\ntro\n## A\n#### B\ntext\n### C\n# D\nend".toList, .markdown⟩
    let o := ofDocument d
    ∃ a b c e, o.ordered = [a, b, c, e] ∧
      d.text = "in\ntro\n".toList ++ (blockText d o.ordered a ++ blockText d o.ordered e) ∧
      blockText d o.ordered a =
        "## A\n".toList ++ (blockText d o.ordered b ++ blockText d o.ordered c) ∧
      blockText d o.ordered b = "#### B\ntext\n".toList ∧
      blockText d o.ordered e = "# D\nend".toList := by
  intro d o
  let node (k : Fin 4) : Node := o.ordered.get (k.castLE (by decide))
  obtain ⟨htext, hblock⟩ := blockText_tiles d
  have ha : node 0 ∈ o.ordered := List.get_mem _ _
  have hroots : o.roots.map Tree.root = [node 0, node 3] := roots_eq_filter.trans (by decide)
  have hchildren : o.childrenOf (node 0) = [node 1, node 2] :=
    (childrenOf_eq_filter ha).trans (by decide)
  have hlead : leadText d = "in\ntro\n".toList := by decide
  have hown : ownText d (node 0) = "## A\n".toList := by
    rw [ownText, hchildren]
    decide
  rw [hroots, hlead, List.flatMap_cons, List.flatMap_singleton] at htext
  have hsplit := hblock _ ha
  rw [hchildren, hown, List.flatMap_cons, List.flatMap_singleton] at hsplit
  exact ⟨_, _, _, _, by decide, htext, hsplit, by decide, by decide⟩

end Outline

end TaggedOutline
