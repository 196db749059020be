import TaggedOutline.Proofs.Document.OpenEnd
import TaggedOutline.Proofs.Edit.Move

/-!
# Moves in a document without a final break

1. When blocks are put back, the line without a break gets one where another line comes after it, and
   such a break is taken off the end (`relocate_eq_closeOpen`).
2. So the lines stay the same ones iff the line that comes last in the new order is that line, or has
   the break which that line gets, and no carriage return is lost in this break (`KeepsEnd`). Otherwise
   an empty line is added or a carriage return is lost (`MovedOpen`).
3. This holds of every move (`movedOpen_moveBlocks`), and not every move keeps the end
   (`not_perm_moveBlocks`).
-/

namespace TaggedOutline

open Outline (ofDocument isOrdered)

section Open

variable {d : Document} {ordered ns : List Node} {n : Node} {line : Nat} {ls : List Line}
  {last newline : Text}

variable (ho : IsOrdered d ordered) (hsplit : Line.ofText d.text = ls ++ [⟨last, .none⟩])
  (hls : ∀ l ∈ ls, l.IsEnded) (hfeed : '\n' ∉ last) (hne : last ≠ [])

include ho hsplit hls hfeed hne

/-- A block ends with a break unless the last line lies in it. -/
theorem endsWith_blockText_iff (hn : n ∈ ordered) :
    Text.endsWith ['\n'] (blockText d ordered n) = true ↔ ¬ InBlock ordered n ls.length := by
  have hcount : (Line.ofText d.text).length = ls.length + 1 := by
    rw [hsplit, List.length_append]
    rfl
  have hlines := lineCount_eq d
  have hline := ho.line_lt hn
  have hnonneg := ho.nonneg n hn
  have hle := blockEnd_le ho n
  have hlt := line_lt_blockEnd ho hn
  rw [inBlock_iff ho (by omega)]
  rw [blockText_eq ho hn, linesText, hsplit]
  by_cases hend : blockEnd d.lineCount ordered n ≤ ls.length
  · refine iff_of_true ?_ (by omega)
    rw [List.take_append_of_le_length (by omega)]
    refine (Line.endsWith_join fun l hl => .inl (hls l ?_)).resolve_left ?_
    · exact List.take_subset _ _ (List.drop_subset _ _ hl)
    · have hnil := blockText_ne_nil ho hn
      rwa [blockText_eq ho hn, linesText, hsplit, List.take_append_of_le_length (by omega)] at hnil
  · refine iff_of_false ?_ (by omega)
    rw [List.take_of_length_le (by rw [List.length_append, List.length_singleton]; omega),
      List.drop_append_of_le_length (by omega), Line.endsWith_join_open _ hne hfeed]
    exact Bool.false_ne_true

/-- Of blocks that are apart only the one with the last line gets a break. -/
theorem flatMap_terminated (hns : ∀ n ∈ ns, n ∈ ordered) (hapart : Apart ordered ns) :
    ns.flatMap (fun n => terminated newline (blockText d ordered n)) =
      ns.flatMap (blockText d ordered) ++ if Covered ordered ns ls.length then newline else [] := by
  induction ns with
  | nil => simp [Covered]
  | cons n ns ih =>
    have hn := hns n List.mem_cons_self
    have hrest := ih (fun m hm => hns m (List.mem_cons_of_mem n hm)) (List.pairwise_cons.mp hapart).2
    have hiff := endsWith_blockText_iff ho hsplit hls hfeed hne hn
    rw [List.flatMap_cons, List.flatMap_cons, terminated]
    by_cases hin : InBlock ordered n ls.length
    · -- The later blocks would begin after the last line.
      have hnil : ns = [] := by
        refine List.eq_nil_iff_forall_not_mem.mpr fun m hm => ?_
        obtain ⟨hnm, hout⟩ := (List.pairwise_cons.mp hapart).1 m hm
        have hlt := ho.line_lt (hns m (List.mem_cons_of_mem n hm))
        rw [lineCount_eq, hsplit, List.length_append, List.length_singleton] at hlt
        exact hout (hin.of_le hnm (by omega))
      rw [if_neg fun h => hiff.mp h hin, hnil, if_pos ⟨n, List.mem_cons_self, hin⟩]
      simp
    · have hcovered : Covered ordered (n :: ns) ls.length ↔ Covered ordered ns ls.length :=
        covered_cons.trans (or_iff_right hin)
      rw [if_pos (hiff.mpr hin), hrest, List.append_assoc]
      simp only [hcovered]

end Open

/-- Blocks are put back between two parts of what is left of a text without a final break. -/
theorem relocate_of_not_endsWith {d : Document} {blocks : List Block} {target : Nat}
    {front back : Text} (hopen : Text.endsWith ['\n'] d.text = false)
    (hbare : removeBlocks d.text blocks = front ++ back)
    (hplace : target - (blocks.filter (·.start < target)).foldl (fun n b => n + (b.stop - b.start)) 0 =
      front.length) :
    let newline := lineBreak d.text
    let moved := blocks.flatMap fun b => terminated newline b.text
    relocate d blocks target = Line.dropBreak newline
      (if back = [] ∧ front ≠ [] ∧ Text.endsWith ['\n'] front = false then
        front ++ newline ++ moved else front ++ moved ++ back) := by
  intro newline moved
  have hcondition : ((front ++ back).length ≤ front.length ∧ front ++ back ≠ [] ∧
      ¬ Text.endsWith ['\n'] (front ++ back) = true) ↔
        back = [] ∧ front ≠ [] ∧ Text.endsWith ['\n'] front = false := by
    rw [List.length_append]
    constructor
    · rintro ⟨hle, hne, hend⟩
      obtain rfl : back = [] := List.length_eq_zero_iff.mp (by omega)
      rw [List.append_nil] at hne hend
      exact ⟨rfl, hne, by simpa using hend⟩
    · rintro ⟨rfl, hne, hend⟩
      rw [List.append_nil]
      exact ⟨by simp, hne, by simp [hend]⟩
  unfold relocate
  simp only
  rw [hbare, hplace, if_neg (by simp [hopen])]
  by_cases hlast : back = [] ∧ front ≠ [] ∧ Text.endsWith ['\n'] front = false
  · rw [if_pos (hcondition.mpr hlast), if_pos (hcondition.mpr hlast)]
    rw [if_pos hlast, hlast.1, List.append_nil, List.take_length, List.drop_length, List.append_nil]
    rfl
  · rw [if_neg (mt hcondition.mp hlast), if_neg (mt hcondition.mp hlast), List.take_left,
      List.drop_left, if_neg hlast]
    rfl

theorem lineBreak_cases (t : Text) : lineBreak t = ['\n'] ∨ lineBreak t = ['\r', '\n'] := by
  unfold lineBreak
  split
  · exact .inr rfl
  · exact .inl rfl

theorem dropBreak_of_not_endsWith {t : Text} (h : Text.endsWith ['\n'] t = false) (u : Text) :
    Line.dropBreak (lineBreak u) t = t := by
  cases hbefore : Text.before? (lineBreak u) t with
  | none => rw [Line.dropBreak, hbefore]; rfl
  | some r =>
    have htext := Text.before?_eq_some_iff.mp hbefore
    obtain ⟨front, hfront⟩ : ∃ front, lineBreak u = front ++ ['\n'] := by
      rcases lineBreak_cases u with hu | hu
      · exact ⟨[], hu⟩
      · exact ⟨['\r'], hu⟩
    rw [htext, hfront, ← List.append_assoc, Text.endsWith, Text.before?_append] at h
    exact absurd h (by simp)

section Arranged

variable {d : Document} {ordered ns : List Node} {line : Nat} {ls : List Line} {last : Text}

theorem keep_concat (out : Nat → Bool) (number : Nat) (ls : List Line) (l : Line) :
    keep out number (ls ++ [l]) =
      keep out number ls ++ if out (number + ls.length) then [] else [l] := by
  rw [keep_append, keep_cons]
  rfl

theorem keep_take_concat (out : Nat → Bool) (ls : List Line) (l : Line) (line : Nat) :
    keep out 0 ((ls ++ [l]).take line) =
      keep out 0 (ls.take line) ++ if line ≤ ls.length ∨ out ls.length then [] else [l] := by
  by_cases hline : line ≤ ls.length
  · rw [List.take_append_of_le_length hline, if_pos (.inl hline), List.append_nil]
  · rw [List.take_of_length_le (by rw [List.length_append, List.length_singleton]; omega),
      List.take_of_length_le (by omega), keep_concat, Nat.zero_add]
    simp only [hline, false_or]

theorem keep_drop_concat (out : Nat → Bool) (ls : List Line) (l : Line) (line : Nat) :
    keep out line ((ls ++ [l]).drop line) =
      keep out line (ls.drop line) ++ if line ≤ ls.length ∧ ¬ out ls.length then [l] else [] := by
  by_cases hline : line ≤ ls.length
  · rw [List.drop_append_of_le_length hline, keep_concat, List.length_drop,
      Nat.add_sub_cancel' hline]
    by_cases hout : out ls.length <;> simp [hline, hout]
  · rw [List.drop_of_length_le (by rw [List.length_append, List.length_singleton]; omega),
      List.drop_of_length_le (by omega)]
    simp [hline]

/-- The lines that are left stand around the moved ones, the last moved one gets a break, and a break
comes off the end. -/
theorem relocate_eq_dropBreak (ho : IsOrdered d ordered)
    (hsplit : Line.ofText d.text = ls ++ [⟨last, .none⟩]) (hls : ∀ l ∈ ls, l.IsEnded)
    (hfeed : '\n' ∉ last) (hne : last ≠ []) (hns : ∀ n ∈ ns, n ∈ ordered)
    (hapart : Apart ordered ns) (hline : line ≤ (Line.ofText d.text).length)
    (houtside : ∀ n ∈ ns, line ≤ n.line.toNat ∨ (blockEnd d.lineCount ordered n).toNat ≤ line) :
    let out : Nat → Bool := fun k => decide (Covered ordered ns k)
    let front := Line.join (keep out 0 ((Line.ofText d.text).take line))
    let back := Line.join (keep out line ((Line.ofText d.text).drop line))
    let moved := Line.join (keep (fun k => !out k) 0 (Line.ofText d.text)) ++
      if Covered ordered ns ls.length then lineBreak d.text else []
    relocate d (ns.map (Block.ofNode d ordered)) (lineStart (Line.ofText d.text) line) =
      Line.dropBreak (lineBreak d.text)
        (if back = [] ∧ front ≠ [] ∧ Text.endsWith ['\n'] front = false then
          front ++ lineBreak d.text ++ moved else front ++ moved ++ back) := by
  intro out front back moved
  have hopen : Text.endsWith ['\n'] d.text = false := by
    rw [← Line.join_ofText d.text, hsplit]
    exact Line.endsWith_join_open ls hne hfeed
  have hbare := removeBlocks_eq ho hns hapart
  rw [keep_split _ hline, Line.join_append] at hbare
  have hplace := lineStart_sub out (Line.ofText d.text) line
  rw [← removedBefore_eq ho hns hapart hline houtside] at hplace
  have hmoved : ((ns.map (Block.ofNode d ordered)).flatMap
      fun b => terminated (lineBreak d.text) b.text) = moved := by
    rw [List.flatMap_map]
    exact (flatMap_terminated ho hsplit hls hfeed hne hns hapart).trans
      (congrArg (· ++ _) (flatMap_blockText ho hns hapart))
  rw [← hmoved]
  exact relocate_of_not_endsWith hopen hbare hplace

/-- The open line gets a break where another line comes after it. -/
theorem relocate_eq_closeOpen (ho : IsOrdered d ordered)
    (hsplit : Line.ofText d.text = ls ++ [⟨last, .none⟩]) (hls : ∀ l ∈ ls, l.IsEnded)
    (hfeed : '\n' ∉ last) (hne : last ≠ []) (hns : ∀ n ∈ ns, n ∈ ordered)
    (hapart : Apart ordered ns) (hline : line ≤ (Line.ofText d.text).length)
    (houtside : ∀ n ∈ ns, line ≤ n.line.toNat ∨ (blockEnd d.lineCount ordered n).toNat ≤ line) :
    ∃ pre post, arranged d ordered ns line = pre ++ ⟨last, .none⟩ :: post ∧
      relocate d (ns.map (Block.ofNode d ordered)) (lineStart (Line.ofText d.text) line) =
        Line.closeOpen (lineBreak d.text) pre last post := by
  rw [relocate_eq_dropBreak ho hsplit hls hfeed hne hns hapart hline houtside, arranged, hsplit,
    keep_concat, keep_take_concat, keep_drop_concat, Nat.zero_add]
  set front := keep (fun k => decide (Covered ordered ns k)) 0 (ls.take line)
  set back := keep (fun k => decide (Covered ordered ns k)) line (ls.drop line) with hback
  set moved := keep (fun k => !decide (Covered ordered ns k)) 0 ls
  by_cases hcovered : Covered ordered ns ls.length
  · -- The line is in a moved block, which gets the break.
    refine ⟨front ++ moved, back, by simp [hcovered], ?_⟩
    have hfront : ∀ l ∈ front, l.IsClosed := fun l hl =>
      .inl (hls l (List.take_subset line ls (mem_of_mem_keep hl)))
    have hclosed : ¬ (Line.join back = [] ∧ Line.join front ≠ [] ∧
        Text.endsWith ['\n'] (Line.join front) = false) := by
      rintro ⟨-, hne, hend⟩
      rw [(Line.endsWith_join hfront).resolve_left hne] at hend
      exact absurd hend (by simp)
    simp only [hcovered, not_true, and_false, or_true, decide_true, Bool.not_true, if_true, if_false,
      List.append_nil, Line.join_append, Line.join_open, Bool.false_eq_true]
    rw [if_neg hclosed, Line.closeOpen, Line.join_append]
    simp only [List.append_assoc]
  · by_cases hbefore : line ≤ ls.length
    · -- The line stays at the end.
      refine ⟨front ++ (moved ++ back), [], by simp [hcovered, hbefore], ?_⟩
      have hend (t : Text) : Text.endsWith ['\n'] (t ++ last) = false :=
        Text.endsWith_append_eq_false hne hfeed
      simp only [hcovered, hbefore, true_or, not_false_iff, and_self, decide_false, Bool.not_false,
        if_true, if_false, List.append_nil, Line.join_append, Line.join_open, List.append_eq_nil_iff, hne,
        and_false, false_and, Bool.false_eq_true]
      rw [← List.append_assoc, dropBreak_of_not_endsWith (hend _), Line.closeOpen_nil,
        Line.join_append, Line.join_append]
      simp only [List.append_assoc]
    · -- The line is the last of what is left, and blocks come after it.
      have hnil : back = [] := by rw [hback, List.drop_of_length_le (by omega), keep_nil]
      refine ⟨front, moved, by simp [hcovered, hbefore, hnil], ?_⟩
      have hend : Text.endsWith ['\n'] (Line.join front ++ last) = false :=
        Text.endsWith_append_eq_false hne hfeed
      have hjoin : Line.join [] = [] := rfl
      simp only [hcovered, hbefore, hnil, hjoin, or_self, false_and, decide_false, Bool.not_false,
        if_true, if_false, List.append_nil, Line.join_append, Line.join_open, List.append_eq_nil_iff, hne,
        and_false, Bool.false_eq_true, not_false_iff, ne_eq, hend, and_self]
      rw [Line.closeOpen]
      simp only [List.append_assoc]

end Arranged

/-! ## What becomes of the lines -/

/-- In a new order of the lines of a document the last line is the one that has no break, or it has
the break that this one gets; and a line feed does not take a carriage return from this one. -/
def KeepsEnd (d : Document) (ls : List Line) : Prop :=
  ∀ l ∈ ls.getLast?, l.terminator = .none ∨ l.terminator.text = lineBreak d.text ∧
    (lineBreak d.text = ['\n'] → d.text.getLast? ≠ some '\r')

instance (d : Document) (ls : List Line) : Decidable (KeepsEnd d ls) :=
  inferInstanceAs (Decidable (∀ l ∈ ls.getLast?, _))

/-- The blocks of some nodes stand before a line of a document without a final break, in one piece.
The lines are those of the document iff this order keeps the end. Otherwise an empty line comes after
them, or the line that had no break loses the carriage return at its end. -/
structure MovedOpen (d : Document) (ordered ns : List Node) (line : Nat) (result : Text) :
    Prop where
  lines : (Line.contents result).Perm d.lines ↔ KeepsEnd d (arranged d ordered ns line)
  kept : KeepsEnd d (arranged d ordered ns line) →
    Line.contents result = (arranged d ordered ns line).map Line.content
  added : ¬ KeepsEnd d (arranged d ordered ns line) → lineBreak d.text = ['\r', '\n'] →
    Line.contents result = (arranged d ordered ns line).map Line.content ++ [[]]
  shortened : ¬ KeepsEnd d (arranged d ordered ns line) → lineBreak d.text = ['\n'] →
    ∃ front last back, arranged d ordered ns line = front ++ ⟨last ++ ['\r'], .none⟩ :: back ∧
      Line.contents result = front.map Line.content ++ last :: back.map Line.content

section Moved

variable {d : Document} {ordered ns : List Node} {line : Nat} {result : Text}

theorem perm_lines_arranged (hline : line ≤ (Line.ofText d.text).length) :
    ((arranged d ordered ns line).map Line.content).Perm d.lines :=
  (perm_arranged hline).map Line.content

section Cases

variable (hperm : ((arranged d ordered ns line).map Line.content).Perm d.lines)

include hperm

theorem MovedOpen.of_keeps (hkeeps : KeepsEnd d (arranged d ordered ns line))
    (hlines : Line.contents result = (arranged d ordered ns line).map Line.content) :
    MovedOpen d ordered ns line result :=
  ⟨iff_of_true (hlines ▸ hperm) hkeeps, fun _ => hlines,
    fun h => absurd hkeeps h, fun h => absurd hkeeps h⟩

theorem MovedOpen.of_added (hkeeps : ¬ KeepsEnd d (arranged d ordered ns line))
    (hbreak : lineBreak d.text = ['\r', '\n'])
    (hlines : Line.contents result = (arranged d ordered ns line).map Line.content ++ [[]]) :
    MovedOpen d ordered ns line result := by
  refine ⟨iff_of_false (fun h => ?_) hkeeps, fun h => absurd h hkeeps, fun _ _ => hlines,
    fun _ hlf => ?_⟩
  · have hlength := (h.trans hperm.symm).length_eq
    rw [hlines, List.length_append, List.length_singleton] at hlength
    omega
  · exact absurd (hbreak.symm.trans hlf) (by decide)

theorem MovedOpen.of_shortened {front back : List Line} {last : Text}
    (hkeeps : ¬ KeepsEnd d (arranged d ordered ns line)) (hbreak : lineBreak d.text = ['\n'])
    (harranged : arranged d ordered ns line = front ++ ⟨last ++ ['\r'], .none⟩ :: back)
    (hlines : Line.contents result = front.map Line.content ++ last :: back.map Line.content) :
    MovedOpen d ordered ns line result := by
  refine ⟨iff_of_false (fun h => ?_) hkeeps, fun h => absurd h hkeeps, fun _ hcrlf => ?_,
    fun _ _ => ⟨front, last, back, harranged, hlines⟩⟩
  · have hcons := h.trans hperm.symm
    rw [hlines, harranged, List.map_append, List.map_cons] at hcons
    have hheads : ([last] ++ _).Perm ([last ++ ['\r']] ++ _) :=
      (List.perm_middle.symm.trans hcons).trans List.perm_middle
    have hsame := (List.perm_append_right_iff _).mp hheads
    exact absurd (congrArg List.length (List.cons.inj (List.perm_singleton.mp hsame)).1) (by simp)
  · exact absurd (hbreak.symm.trans hcrlf) (by decide)

end Cases

/-- A document with line feeds only gets line feeds. -/
theorem terminator_of_lineBreak {l : Line} (hl : l ∈ Line.ofText d.text) (hended : l.IsEnded)
    (hne : l.terminator.text ≠ lineBreak d.text) :
    lineBreak d.text = ['\r', '\n'] ∧ l.terminator = .lf := by
  unfold lineBreak at hne ⊢
  by_cases hcrlf : (Line.ofText d.text).any (·.terminator = .crlf) = true
  · rw [if_pos hcrlf] at hne ⊢
    refine ⟨rfl, ?_⟩
    cases hl' : l.terminator with
    | none => exact absurd hl' hended.ends
    | lf => rfl
    | crlf => rw [hl'] at hne; exact absurd rfl hne
  · rw [if_neg hcrlf] at hne
    cases hl' : l.terminator with
    | none => exact absurd hl' hended.ends
    | lf => rw [hl'] at hne; exact absurd rfl hne
    | crlf => exact absurd (List.any_eq_true.mpr ⟨l, hl, decide_eq_true hl'⟩) hcrlf

/-- The open line `last` stands before the line `l`, whose break must be the one that `last` gets. -/
theorem movedOpen_closeOpen {pre post : List Line} {last : Text} {l : Line}
    (hlines : ((arranged d ordered ns line).map Line.content).Perm d.lines)
    (harranged : arranged d ordered ns line = pre ++ ⟨last, .none⟩ :: (post ++ [l]))
    (hpre : ∀ l ∈ pre, l.IsEnded) (hpost : ∀ l ∈ post, l.IsEnded) (hl : l.IsEnded)
    (hmem : l ∈ Line.ofText d.text) (hfeed : '\n' ∉ last) (hlast : d.text.getLast? = last.getLast?) :
    MovedOpen d ordered ns line (Line.closeOpen (lineBreak d.text) pre last (post ++ [l])) := by
  have hcontents : (arranged d ordered ns line).map Line.content =
      pre.map Line.content ++ last :: (post ++ [l]).map Line.content := by
    rw [harranged, List.map_append, List.map_cons]
  have hfinal : (arranged d ordered ns line).getLast? = some l := by
    rw [harranged, ← List.cons_append, ← List.append_assoc, List.getLast?_concat]
  have hkeeps : KeepsEnd d (arranged d ordered ns line) ↔ l.terminator.text = lineBreak d.text ∧
      (lineBreak d.text = ['\n'] → last.getLast? ≠ some '\r') := by
    rw [KeepsEnd, hfinal, hlast]
    exact ⟨fun h => (h l rfl).resolve_left hl.ends, fun h x hx => .inr (Option.some.inj hx ▸ h)⟩
  by_cases hbreak : l.terminator.text = lineBreak d.text
  · have hsame := Line.contents_closeOpen_of_eq (lineBreak_cases d.text) hpre hfeed hpost hl hbreak
    by_cases hreturn : lineBreak d.text = ['\n'] ∧ last.getLast? = some '\r'
    · obtain ⟨front, rfl⟩ := List.getLast?_eq_some_iff.mp hreturn.2
      rw [Line.closed, if_pos hreturn.1, Line.withoutReturn_concat] at hsame
      exact .of_shortened hlines (fun h => (hkeeps.mp h).2 hreturn.1 hreturn.2) hreturn.1 harranged
        hsame
    · have hclosed : Line.closed (lineBreak d.text) last = last := by
        unfold Line.closed
        split
        · next hlf => exact Line.withoutReturn_of_getLast? fun hr => hreturn ⟨hlf, hr⟩
        · rfl
      refine .of_keeps hlines (hkeeps.mpr ⟨hbreak, fun hlf hr => hreturn ⟨hlf, hr⟩⟩) ?_
      rw [hsame, hclosed, hcontents]
  · obtain ⟨hcrlf, hlf⟩ := terminator_of_lineBreak hmem hl hbreak
    refine .of_added hlines (fun h => hbreak (hkeeps.mp h).1) hcrlf ?_
    rw [Line.contents_closeOpen_of_ne (lineBreak_cases d.text) hpre hfeed hpost hl hcrlf hlf,
      hcontents]

/-- What becomes of the lines when blocks are put back into a text without a final break. -/
theorem movedOpen_relocate (hopen : Text.endsWith ['\n'] d.text = false) (htext : d.text ≠ [])
    (ho : IsOrdered d ordered) (hns : ∀ n ∈ ns, n ∈ ordered) (hapart : Apart ordered ns)
    (hline : line ≤ (Line.ofText d.text).length)
    (houtside : ∀ n ∈ ns, line ≤ n.line.toNat ∨ (blockEnd d.lineCount ordered n).toNat ≤ line) :
    MovedOpen d ordered ns line
      (relocate d (ns.map (Block.ofNode d ordered)) (lineStart (Line.ofText d.text) line)) := by
  obtain ⟨ls, last, hsplit, hls, hfeed, hne⟩ := Line.exists_ofText_of_not_endsWith hopen htext
  obtain ⟨pre, post, harranged, hresult⟩ :=
    relocate_eq_closeOpen ho hsplit hls hfeed hne hns hapart hline houtside
  rw [hresult]
  have hlines : ((arranged d ordered ns line).map Line.content).Perm d.lines :=
    perm_lines_arranged hline
  have hothers : (pre ++ post).Perm ls := by
    have hperm : (arranged d ordered ns line).Perm (Line.ofText d.text) := perm_arranged hline
    rw [harranged, hsplit] at hperm
    exact (List.perm_cons _).mp (List.perm_middle.symm.trans (hperm.trans List.perm_append_comm))
  have hended : ∀ l ∈ pre ++ post, l.IsEnded := fun l hl => hls l (hothers.mem_iff.mp hl)
  obtain ⟨hpre, hpost⟩ := List.forall_mem_append.mp hended
  rcases List.eq_nil_or_concat post with rfl | ⟨post, l, rfl⟩
  · -- The open line is still the last one.
    refine .of_keeps hlines (fun l hl => ?_) ?_
    · rw [harranged, List.getLast?_concat] at hl
      obtain rfl := Option.mem_some_iff.mp hl
      exact .inl rfl
    · rw [Line.contents_closeOpen_nil hpre hfeed, harranged, List.map_append]
      rfl
  · rw [List.concat_eq_append] at *
    obtain ⟨hpost, hl⟩ := List.forall_mem_append.mp hpost
    have hmem : l ∈ Line.ofText d.text := by
      rw [hsplit]
      exact List.mem_append_left _ (hothers.mem_iff.mp (by simp))
    have hlast : d.text.getLast? = last.getLast? := by
      rw [← Line.join_ofText d.text, hsplit, Line.join_append, Line.join_open,
        List.getLast?_append_of_ne_nil _ hne]
    exact movedOpen_closeOpen hlines harranged hpre hpost (hl l List.mem_cons_self) hmem hfeed hlast

end Moved

/-- The outermost selected blocks are put back before a line outside of them. -/
theorem movedOpen_select {d : Document} {selected : List Node} {line : Nat}
    (hopen : Text.endsWith ['\n'] d.text = false)
    (hselected : ∀ n ∈ selected, n ∈ (ofDocument d).ordered) (hne : selected ≠ [])
    (hline : line ≤ (Line.ofText d.text).length)
    (houtside : ∀ n ∈ selected, line ≤ n.line.toNat ∨
      (blockEnd d.lineCount (ofDocument d).ordered n).toNat ≤ line) :
    MovedOpen d (ofDocument d).ordered
      ((ofDocument d).ordered.filter fun n => (ofDocument d).IsOutermost selected n) line
      (relocate d (Block.select d (ofDocument d).ordered selected)
        (lineStart (Line.ofText d.text) line)) := by
  obtain ⟨hmem, hapart, -⟩ := outermost_spec (isOrdered d) hselected
  obtain ⟨n, hn⟩ := List.exists_mem_of_ne_nil selected hne
  have htext : d.text ≠ [] := by
    intro hnil
    obtain ⟨content, hcontent, hsolid⟩ := (isOrdered d).solid n (hselected n hn)
    rw [Document.lines, hnil] at hcontent
    obtain rfl : content = [] := List.mem_singleton.mp (List.mem_of_getElem? hcontent)
    exact hsolid rfl
  rw [← Outline.outermost_eq_filter hselected, Block.select]
  exact movedOpen_relocate hopen htext (isOrdered d) hmem hapart hline
    fun n hn => houtside n (mem_of_mem_outermost hn)

/-- A move in a document without a final break leaves the text alone, or puts blocks before a line.
Then the lines stay the same ones iff their new order keeps the end. -/
theorem movedOpen_moveBlocks (d : Document) (selected : List Node)
    (hopen : Text.endsWith ['\n'] d.text = false)
    (hselected : ∀ n ∈ selected, n ∈ (ofDocument d).ordered) :
    let o := ofDocument d
    let outermost := o.ordered.filter fun n => o.IsOutermost selected n
    (∀ offset t, moveBlocks o d selected offset = .ok t → t = d.text ∨
      ∃ s ∈ o.ordered, (∀ n ∈ selected, o.parentOf? n = o.parentOf? s) ∧
        MovedOpen d o.ordered outermost
          (if offset < 0 then s.line.toNat else (blockEnd d.lineCount o.ordered s).toNat) t) ∧
    (∀ target ∈ o.ordered, ∀ t, moveBlocksBefore o d selected (some target) = .ok t →
      t = d.text ∨ MovedOpen d o.ordered outermost target.line.toNat t) ∧
    ∀ t, moveBlocksBefore o d selected none = .ok t →
      t = d.text ∨ MovedOpen d o.ordered outermost d.lineCount t := by
  intro o outermost
  have ho := isOrdered d
  have hcount := lineCount_eq d
  by_cases hne : selected = []
  · subst hne
    have hsorted : sortByLine [] = [] := List.mergeSort_nil
    have hmove (offset : Int) : moveBlocks o d [] offset = .ok d.text := by
      rw [moveBlocks, hsorted]
    have hbefore (target : Option Node) : moveBlocksBefore o d [] target = .ok d.text := by
      rw [moveBlocksBefore, Block.select, TaggedOutline.outermost, hsorted]
      rfl
    refine ⟨fun offset t h => ?_, fun target _ t h => ?_, fun t h => ?_⟩
    · exact .inl (Except.ok.inj ((hmove offset).symm.trans h)).symm
    · exact .inl (Except.ok.inj ((hbefore target).symm.trans h)).symm
    · exact .inl (Except.ok.inj ((hbefore none).symm.trans h)).symm
  refine ⟨fun offset t h => ?_, fun target htarget t h => ?_, fun t h => ?_⟩
  · obtain ⟨parent, hparent, -, rfl | ⟨s, hsmem, hsparent, rfl⟩⟩ := moveBlocks_eq_relocate hselected h
    · exact .inl rfl
    · obtain ⟨hoffset, hline, houtside⟩ :=
        offsetAt_sibling hselected hparent (offset < 0) hsmem hsparent
      rw [hoffset]
      exact .inr ⟨s, hsmem, fun n hn => (hparent n hn).trans hsparent.symm,
        movedOpen_select hopen hselected hne hline houtside⟩
  · rw [moveBlocksBefore_some hselected hne] at h
    split at h
    · exact absurd h (by simp)
    · next hany =>
      have hout : ¬ o.IntoOwnSubtree selected target := fun hin =>
        hany ((any_contains_iff_intoOwnSubtree hselected htarget).mpr hin)
      rw [← Except.ok.inj h, (offsetAt_blockRange ho htarget).1, Int.toNat_natCast]
      have hline := ho.line_lt htarget
      exact .inr (movedOpen_select hopen hselected hne (by omega)
        (outside_of_not_intoOwnSubtree htarget hout))
  · have hlength : d.text.length = lineStart (Line.ofText d.text) d.lineCount := by
      rw [lineStart, hcount, List.take_length, Line.join_ofText]
    rw [moveBlocksBefore_none hselected hne, hlength] at h
    rw [← Except.ok.inj h]
    refine .inr (movedOpen_select hopen hselected hne (by omega) fun n _ => ?_)
    have := blockEnd_le ho n
    omega

/-- The last break is the one that the open line gets, and then one of another kind. -/
theorem movedOpen_moveBlocks_mixed :
    let d : Document := ⟨[], "# A\n\n# B\r\n# C".toList, .markdown⟩
    let o := ofDocument d
    let a := o.ordered[0]
    let b := o.ordered[1]
    let c := o.ordered[2]
    Text.endsWith ['\n'] d.text = false ∧ (∀ n ∈ [c], n ∈ o.ordered) ∧ (∀ n ∈ [a], n ∈ o.ordered) ∧
      moveBlocksBefore o d [c] (some b) = .ok "# A\n\n# C\r\n# B".toList ∧
      (Line.contents "# A\n\n# C\r\n# B".toList).Perm d.lines ∧
      moveBlocksBefore o d [a] none = .ok "# B\r\n# C\r\n# A\n\n".toList ∧
      (Line.contents "# B\r\n# C\r\n# A\n\n".toList).Perm (d.lines ++ [[]]) := by
  intro d o a b c
  have hopen : Text.endsWith ['\n'] d.text = false := by decide
  have hc : ∀ n ∈ [c], n ∈ o.ordered := by decide
  have ha : ∀ n ∈ [a], n ∈ o.ordered := by decide
  have hbefore : moveBlocksBefore o d [c] (some b) = .ok "# A\n\n# C\r\n# B".toList := by
    decide +kernel
  have hend : moveBlocksBefore o d [a] none = .ok "# B\r\n# C\r\n# A\n\n".toList := by
    decide +kernel
  obtain ⟨-, hmoved, -⟩ := movedOpen_moveBlocks d [c] hopen hc
  obtain ⟨-, -, hmoved'⟩ := movedOpen_moveBlocks d [a] hopen ha
  refine ⟨hopen, hc, ha, hbefore, ?_, hend, ?_⟩
  · have hkept := (hmoved b (by decide) _ hbefore).resolve_left (by decide)
    exact hkept.lines.mpr (by decide)
  · have hadded := (hmoved' _ hend).resolve_left (by decide)
    rw [hadded.added (by decide) (by decide)]
    exact (perm_lines_arranged (by decide)).append_right [[]]

/-- A last break that is not the one of the open line leaves an empty line, and a line feed takes the
carriage return at the end of that line. -/
theorem not_perm_moveBlocks :
    let d : Document := ⟨[], "# A\r\nx\n# B".toList, .markdown⟩
    let e : Document := ⟨[], "# A\n# B\r".toList, .markdown⟩
    let t := "# B\r\n# A\r\nx\n".toList
    let u := "# B\r\n# A".toList
    (Text.endsWith ['\n'] d.text = false ∧
      moveBlocks (ofDocument d) d [(ofDocument d).ordered[1]] (-1) = .ok t ∧
      ¬ (Line.contents t).Perm d.lines) ∧
    Text.endsWith ['\n'] e.text = false ∧
      moveBlocks (ofDocument e) e [(ofDocument e).ordered[1]] (-1) = .ok u ∧
      ¬ (Line.contents u).Perm e.lines := by
  intro d e t u
  exact ⟨⟨by decide, by decide +kernel, by decide⟩, by decide, by decide +kernel, by decide⟩

end TaggedOutline
