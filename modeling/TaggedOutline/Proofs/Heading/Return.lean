import TaggedOutline.Proofs.Heading.Append
import TaggedOutline.Proofs.Heading.Fence

/-!
# Headings of lines without their carriage returns

1. A carriage return at the end of a line has no effect on the title and the marks of a heading
   (`splitTitle_concat_return`).
2. So a heading is read as it was, unless the carriage return is the one blank after the number
   signs of its line, which are no heading without it (`map_unmeasured_ofLine?`).
3. The headings of some lines are found again without the carriage returns iff none of them is such
   a heading (`map_unmeasured_ofLines_iff`).
-/

namespace TaggedOutline

/-- A text begins with one that has no carriage return no matter whether one follows it. -/
theorem Text.after?_concat_return {start : Text} (h : '\r' ∉ start) (t : Text) :
    Text.after? start (t ++ ['\r']) = (Text.after? start t).map (· ++ ['\r']) := by
  induction start generalizing t with
  | nil => rfl
  | cons s start ih =>
    rw [List.mem_cons, not_or] at h
    cases t with
    | nil =>
      have hne : s ≠ '\r' := fun e => h.1 e.symm
      simp [Text.after?, List.isPrefixOf?, hne]
    | cons c t =>
      have hrest := ih h.2 t
      unfold Text.after? at hrest ⊢
      rw [List.cons_append, List.isPrefixOf?, List.isPrefixOf?, hrest]
      split
      · rfl
      · rfl

/-! ## Marks -/

namespace Marks

theorem closeRemark?_concat_return (t : Text) :
    closeRemark? (t ++ ['\r']) = (closeRemark? t).map fun (a, b) => (a, b ++ ['\r']) := by
  fun_induction closeRemark? t with
  | case1 r => rfl
  | case2 r hne => simp [closeRemark?]
  | case3 c r hne hfeed ih =>
    have hstep : closeRemark? (c :: (r ++ ['\r'])) =
        (closeRemark? (r ++ ['\r'])).map fun (a, b) => (c :: a, b) := by
      rw [closeRemark?, if_neg hfeed]
      intro s hc hs
      cases r with
      | nil => exact absurd (List.cons.inj hs).1 (by decide)
      | cons x r => exact hne r hc (by rw [(List.cons.inj hs).1])
    rw [List.cons_append, hstep, ih, Option.map_map, Option.map_map]
    rfl
  | case4 => rfl

theorem findRemark?_concat_return (t : Text) :
    findRemark? (t ++ ['\r']) = (findRemark? t).map fun (a, b, r) => (a, b, r ++ ['\r']) := by
  induction t with
  | nil => rfl
  | cons c t ih =>
    have hopen : (Text.after? [':', ':'] (c :: t ++ ['\r'])).bind closeRemark? =
        ((Text.after? [':', ':'] (c :: t)).bind closeRemark?).map fun (a, b) => (a, b ++ ['\r']) := by
      rw [Text.after?_concat_return (by decide), Option.bind_map, Option.map_bind]
      exact Option.bind_congr fun r _ => closeRemark?_concat_return r
    rw [List.cons_append] at hopen ⊢
    rw [findRemark?, findRemark?, hopen]
    cases (Text.after? [':', ':'] (c :: t)).bind closeRemark? with
    | some found => rfl
    | none =>
      show (findRemark? (t ++ ['\r'])).map _ = ((findRemark? t).map _).map _
      rw [ih, Option.map_map, Option.map_map]
      rfl

theorem words_concat_return (t : Text) : Text.words (t ++ ['\r']) = Text.words t := by
  rw [Text.words_append_cons Text.isBlank_return, Text.words_nil, List.append_nil]

/-- A carriage return at the end of a body has no effect on its marks. -/
theorem decode_concat_return (body : Text) : decode (body ++ ['\r']) = decode body := by
  unfold decode
  rw [findRemark?_concat_return]
  cases findRemark? body with
  | none =>
    show ({ tags := _ } : Marks) = { tags := _ }
    rw [words_concat_return]
  | some found =>
    obtain ⟨before, inside, rest⟩ := found
    show ({ tags := _, remark := _ } : Marks) = { tags := _, remark := _ }
    rw [← List.append_assoc, words_concat_return]

end Marks

namespace Heading

open Comment (opening findFrom? find? body? Found)

/-! ## Titles -/

/-- The place and the marks of a comment. -/
def placed (f : Found) : Nat × Marks := (f.start, Marks.decode f.body)

theorem body?_concat_return (markup : Markup) {rest : Text} (hn : '\n' ∉ rest) :
    (body? markup (rest ++ ['\r'])).map (fun b => Marks.decode b.1) =
      (body? markup rest).map fun b => Marks.decode b.1 := by
  have hn' : '\n' ∉ rest ++ ['\r'] := by simpa using hn
  cases markup with
  | markdown =>
    rw [Comment.body?_markdown hn, Comment.body?_markdown hn',
      Text.trimEnd_append_of_blank fun c => Text.isBlank_of_mem_return]
  | typst =>
    rw [Comment.body?_typst hn, Comment.body?_typst hn']
    show some (Marks.decode _) = some (Marks.decode _)
    unfold Text.trimStart
    rw [List.dropWhile_append]
    split
    · next h => rw [List.isEmpty_iff.mp h]; rfl
    · rw [Marks.decode_concat_return]

theorem findFrom?_concat_return (markup : Markup) (start : Nat) {t : Text} (hn : '\n' ∉ t) :
    (findFrom? markup start (t ++ ['\r'])).map placed = (findFrom? markup start t).map placed := by
  have hopening : '\r' ∉ opening markup := by cases markup <;> decide
  induction t generalizing start with
  | nil => cases markup <;> rfl
  | cons c t ih =>
    rw [List.mem_cons, not_or] at hn
    have hlater := ih (start + 1) hn.2
    have hhere : ((Text.after? (opening markup) (c :: t ++ ['\r'])).bind (body? markup)).map
          (fun b => Marks.decode b.1) =
        ((Text.after? (opening markup) (c :: t)).bind (body? markup)).map
          fun b => Marks.decode b.1 := by
      rw [Text.after?_concat_return hopening, Option.bind_map, Option.map_bind, Option.map_bind]
      refine Option.bind_congr fun rest hrest => body?_concat_return markup fun hm => ?_
      have htext := Text.after?_eq_some_iff.mp hrest
      have : '\n' ∈ c :: t := by rw [htext]; exact List.mem_append_right _ hm
      exact (List.mem_cons.mp this).elim hn.1 hn.2
    rw [List.cons_append] at hhere ⊢
    rw [findFrom?, findFrom?]
    cases hnew : (Text.after? (opening markup) (c :: (t ++ ['\r']))).bind (body? markup) with
    | none =>
      rw [hnew, Option.map_none, eq_comm, Option.map_eq_none_iff] at hhere
      rw [hhere]
      exact hlater
    | some b =>
      rw [hnew, Option.map_some, eq_comm, Option.map_eq_some_iff] at hhere
      obtain ⟨b', hb', hmarks⟩ := hhere
      rw [hb']
      show some (start, Marks.decode b.1) = some (start, Marks.decode b'.1)
      rw [hmarks]

/-- A carriage return at the end has no effect on a title and its marks. -/
theorem splitTitle_concat_return (markup : Markup) {raw : Text} (hn : '\n' ∉ raw) :
    splitTitle markup (raw ++ ['\r']) = splitTitle markup raw := by
  have hfind := findFrom?_concat_return markup 0 hn
  unfold splitTitle find?
  cases hnew : findFrom? markup 0 (raw ++ ['\r']) with
  | none =>
    rw [hnew, Option.map_none, eq_comm, Option.map_eq_none_iff] at hfind
    rw [hfind]
    show (Text.trim (raw ++ ['\r']), _) = _
    rw [Text.trim_append_of_blank fun c => Text.isBlank_of_mem_return]
  | some f =>
    rw [hnew, Option.map_some, eq_comm, Option.map_eq_some_iff] at hfind
    obtain ⟨f', hf', hplaced⟩ := hfind
    obtain ⟨hstart, hmarks⟩ := Prod.mk.inj hplaced
    obtain ⟨a, rest, body, ht, -, -, -, hfound⟩ := Comment.exists_of_findFrom? hn hf'
    have hle : f'.start ≤ raw.length := by
      obtain rfl : ⟨0 + a.length, 0 + raw.length, body⟩ = f' :=
        Option.some.inj ((hfound 0).symm.trans hf')
      rw [ht, List.length_append]
      simp only
      omega
    rw [hf']
    show (Text.trim ((raw ++ ['\r']).take f.start), Marks.decode f.body) =
      (Text.trim (raw.take f'.start), Marks.decode f'.body)
    rw [← hstart, ← hmarks, List.take_append_of_le_length hle]

/-! ## Headings -/

/-- The heading, the length of its line aside. -/
def unmeasured (h : Heading) : Heading := { h with range := Range.ofLine h.line 0 }

/-- Number signs and a carriage return, which is the blank after them. -/
def IsBare (line : Text) : Prop := line = List.replicate (line.length - 1) '#' ++ ['\r']

instance (line : Text) : Decidable (IsBare line) := inferInstanceAs (Decidable (_ = _))

theorem isBare_iff {line : Text} : IsBare line ↔ ∃ k, line = List.replicate k '#' ++ ['\r'] := by
  constructor
  · exact fun h => ⟨_, h⟩
  · rintro ⟨k, rfl⟩
    rw [IsBare, List.length_append, List.length_replicate]
    rfl

theorem markdownTitle?_cons {n : Nat} {c : Char} {r : Text} (hc : c ≠ '#') (hn : '\n' ∉ r) :
    markdownTitle? (List.replicate n '#' ++ c :: r) =
      if 1 ≤ n ∧ n ≤ 6 ∧ Text.isBlank c then some (n, Text.trimStart r) else none := by
  have hhead : (c :: r).head? ≠ some '#' := by simpa using hc
  have hbare : '\n' ∉ Text.trimStart r := fun h => hn (Text.mem_of_mem_trimStart h)
  unfold markdownTitle?
  simp only [Text.takeWhile_replicate_append hhead, List.length_replicate,
    List.drop_left' List.length_replicate, Comment.takeWhile_of_no_lineFeed hbare,
    List.drop_length, List.length_nil, Nat.zero_le, if_true]

theorem markdownTitle?_replicate (k : Nat) : markdownTitle? (List.replicate k '#') = none := by
  have hsigns : (List.replicate k '#').takeWhile (· = '#') = List.replicate k '#' := by
    have h := Text.takeWhile_replicate_append (r := []) (c := '#') (by simp) k
    rwa [List.append_nil] at h
  unfold markdownTitle?
  simp only [hsigns, List.drop_length]

/-- Number signs alone are no heading. -/
theorem ofLine?_replicate (k : Nat) (number : Int) :
    ofLine? (List.replicate k '#') number = none := by
  have hsigns : typstTitle? (List.replicate k '#') = none := by cases k <;> rfl
  rw [ofLine?, markdownTitle?_replicate]
  simp only [hsigns]

theorem markdownTitle?_concat_return {line : Text} (hn : '\n' ∉ line)
    (hsigns : ∀ k, line ≠ List.replicate k '#') :
    markdownTitle? (line ++ ['\r']) = (markdownTitle? line).map fun (level, raw) =>
      (level, if raw = [] then [] else raw ++ ['\r']) := by
  obtain ⟨n, s, rfl, hs⟩ := Text.exists_replicate_append '#' line
  cases s with
  | nil => exact absurd (List.append_nil _) (hsigns n)
  | cons c r =>
    have hc : c ≠ '#' := fun h => hs (by rw [h]; rfl)
    have hr : '\n' ∉ r := fun h => hn (by simp [h])
    have hr' : '\n' ∉ r ++ ['\r'] := by simpa using hr
    rw [List.append_assoc, List.cons_append, markdownTitle?_cons hc hr, markdownTitle?_cons hc hr']
    split
    · show some (n, _) = some (n, _)
      unfold Text.trimStart
      rw [List.dropWhile_append]
      by_cases hblank : r.dropWhile Text.isBlank = []
      · rw [hblank]
        rfl
      · rw [if_neg (by simpa using hblank), if_neg hblank]
    · rfl

theorem typstTitle?_concat_return (line : Text) :
    typstTitle? (line ++ ['\r']) = (typstTitle? line).map fun (level, raw) =>
      (level, raw ++ ['\r']) := by
  obtain ⟨n, s, rfl, hs⟩ := Text.exists_replicate_append '=' line
  have hs' : (s ++ ['\r']).head? ≠ some '=' := by
    cases s with
    | nil => simp
    | cons c r => exact hs
  unfold typstTitle?
  rw [List.append_assoc]
  simp only [Text.takeWhile_replicate_append hs, Text.takeWhile_replicate_append hs',
    List.length_replicate, List.drop_left' List.length_replicate]
  split
  · rfl
  · rfl

/-- A heading is read as it was without a carriage return at the end of its line, unless it is the
one blank of the line. -/
theorem map_unmeasured_ofLine? {line : Text} (hn : '\n' ∉ line) (hbare : ¬ IsBare line)
    (number : Int) :
    (ofLine? (Line.withoutReturn line) number).map unmeasured =
      (ofLine? line number).map unmeasured := by
  rcases Line.withoutReturn_cases line with he | he
  · rw [he]
  · have hn' : '\n' ∉ Line.withoutReturn line := fun h => hn (Line.mem_of_mem_withoutReturn h)
    have hsigns (k : Nat) : Line.withoutReturn line ≠ List.replicate k '#' := by
      intro hk
      rw [hk] at he
      exact hbare (isBare_iff.mpr ⟨k, he⟩)
    conv_rhs => rw [he]
    generalize Line.withoutReturn line = t at hn' hsigns
    rw [ofLine?, ofLine?, markdownTitle?_concat_return hn' hsigns, typstTitle?_concat_return]
    cases hmarkdown : markdownTitle? t with
    | some found =>
      obtain ⟨level, raw⟩ := found
      obtain ⟨-, -, -, gap, -, -, ht⟩ := (markdownTitle?_eq_some_iff hn').mp hmarkdown
      have hraw : '\n' ∉ raw := fun h => hn' (by rw [ht]; simp [h])
      have hsplit : splitTitle .markdown (if raw = [] then [] else raw ++ ['\r']) =
          splitTitle .markdown raw := by
        split
        · next h => rw [h]
        · exact splitTitle_concat_return .markdown hraw
      simp only [Option.map_some, hsplit]
      rfl
    | none =>
      cases htypst : typstTitle? t with
      | none => rfl
      | some found =>
        obtain ⟨level, raw⟩ := found
        obtain ⟨-, -, ht⟩ := typstTitle?_eq_some_iff.mp htypst
        have hraw : '\n' ∉ raw := fun h => hn' (by rw [ht]; simp [h])
        simp only [Option.map_some, Option.map_none, splitTitle_concat_return .typst hraw]
        split
        · rfl
        · rfl

/-- A line is read in a scan as it was, unless it is a heading that needs its carriage return. -/
theorem map_unmeasured_read? {fence : Fence} {number : Int} {line : Text} (hf : fence.Genuine)
    (hn : '\n' ∉ line) (hbare : ∀ h, read? fence number line = some h → ¬ IsBare line) :
    (read? fence number (Line.withoutReturn line)).map unmeasured =
      (read? fence number line).map unmeasured := by
  have hstep := Fence.step_withoutReturn hf line
  by_cases hcode : (fence.step line).1 = true
  · rw [read?, read?, hstep, if_pos hcode, if_pos hcode]
  · rw [read?, if_neg hcode] at hbare
    rw [read?, read?, hstep, if_neg hcode, if_neg hcode]
    by_cases hb : IsBare line
    · -- Such a line is no heading here, and without its carriage return it never is.
      have hnone : ofLine? line number = none :=
        Option.eq_none_iff_forall_ne_some.mpr fun h hh => hbare h hh hb
      obtain ⟨k, rfl⟩ := isBare_iff.mp hb
      rw [Line.withoutReturn_concat, ofLine?_replicate, hnone]
    · exact map_unmeasured_ofLine? hn hb number

/-- The headings of some lines are found again without the carriage returns at the ends of the lines
iff none of them has just signs and a carriage return. -/
theorem map_unmeasured_ofLines_iff {fence : Fence} {number : Int} {lines : List Text}
    (hf : fence.Genuine) (hlines : ∀ line ∈ lines, '\n' ∉ line) :
    (ofLines fence number (lines.map Line.withoutReturn)).map unmeasured =
        (ofLines fence number lines).map unmeasured ↔
      ∀ h ∈ ofLines fence number lines, ∀ line ∈ lines[(h.line - number).toNat]?,
        ¬ IsBare line := by
  constructor
  · intro heq h hh line hline hbare
    obtain ⟨g, hg, hgh⟩ : ∃ g ∈ ofLines fence number (lines.map Line.withoutReturn),
        unmeasured g = unmeasured h := by
      have := List.mem_map_of_mem (f := unmeasured) hh
      rw [← heq] at this
      exact List.mem_map.mp this
    have hsame : (unmeasured g).line = (unmeasured h).line := congrArg Heading.line hgh
    change g.line = h.line at hsame
    obtain ⟨l, hl, hread⟩ := exists_line_of_mem_ofLines hg
    obtain ⟨k, rfl⟩ := isBare_iff.mp hbare
    rw [hsame, List.getElem?_map, Option.mem_def.mp hline, Option.map_some,
      Line.withoutReturn_concat] at hl
    rw [← Option.some.inj hl, ofLine?_replicate] at hread
    exact absurd hread (by simp)
  · intro hbare
    induction lines generalizing fence number with
    | nil => rfl
    | cons line rest ih =>
      obtain ⟨hn, hlines⟩ := List.forall_mem_cons.mp hlines
      have hhead : ∀ h, read? fence number line = some h → ¬ IsBare line := fun h hh => by
        refine hbare h (mem_ofLines_cons.mpr (.inl hh)) line ?_
        rw [line_of_read? hh, Int.sub_self]
        rfl
      have hlater := ih (hf.step line) hlines fun h hh l hl => by
        have := line_of_mem_ofLines hh
        refine hbare h (mem_ofLines_cons.mpr (.inr hh)) l ?_
        rwa [show (h.line - number).toNat = (h.line - (number + 1)).toNat + 1 by omega,
          List.getElem?_cons_succ]
      rw [List.map_cons, ofLines_cons, ofLines_cons, List.map_append, List.map_append,
        Fence.step_withoutReturn hf line, hlater, ← Option.toList_map, ← Option.toList_map,
        map_unmeasured_read? hf hn hhead]

/-- Lines that open no code region leave the fence state as it is. -/
theorem afterLines_of_opening? {fence : Fence} {lines : List Text} (hf : fence.inside = false)
    (hlines : ∀ line ∈ lines, Fence.opening? line = none) : fence.afterLines lines = fence := by
  induction lines with
  | nil => rfl
  | cons line rest ih =>
    show (fence.step line).2.afterLines rest = fence
    rw [step_of_opening? hf (hlines line List.mem_cons_self),
      ih fun l hl => hlines l (List.mem_cons_of_mem line hl)]

/-- Empty lines hold no headings. -/
theorem ofLines_append_replicate_nil (fence : Fence) (number : Int) (lines : List Text) (k : Nat) :
    ofLines fence number (lines ++ List.replicate k []) = ofLines fence number lines := by
  have hempty (fence : Fence) (number : Int) : ofLines fence number (List.replicate k []) = [] := by
    refine List.eq_nil_iff_forall_not_mem.mpr fun h hh => ?_
    obtain ⟨line, hline, hread⟩ := exists_line_of_mem_ofLines hh
    obtain rfl := List.eq_of_mem_replicate (List.mem_of_getElem? hline)
    exact absurd hread (by simp [ofLine?, markdownTitle?, typstTitle?])
  rw [ofLines_append, hempty, List.append_nil]

end Heading

end TaggedOutline
