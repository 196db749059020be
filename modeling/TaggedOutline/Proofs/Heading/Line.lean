import TaggedOutline.Heading.Basic
import TaggedOutline.Proofs.Comment.Trailing

/-!
# Heading lines with other marks

A heading line is its signs, the blanks after them in Markdown, and a raw title in which a comment
may stand (`Signed`). What `update` makes of a line with a comment has the same signs, and its raw
title is the title as it was, a space, and the new comment (`Signed.retitle`), at which it is split
again (`splitTitle_append_wrap`).
-/

namespace TaggedOutline.Heading

open Text (isBlank)
open Comment (opening wrap find? update strip)

/-! ## Signs -/

theorem markdownTitle?_eq_some_iff {line raw : Text} {level : Nat} (hn : '\n' ∉ line) :
    markdownTitle? line = some (level, raw) ↔
      1 ≤ level ∧ level ≤ 6 ∧ (∀ c ∈ raw.head?, isBlank c = false) ∧
        ∃ gap, gap ≠ [] ∧ (∀ c ∈ gap, isBlank c) ∧
          line = List.replicate level '#' ++ (gap ++ raw) := by
  constructor
  · intro h
    obtain ⟨n, s, rfl, hs⟩ := Text.exists_replicate_append '#' line
    unfold markdownTitle? at h
    simp only [Text.takeWhile_replicate_append hs, List.length_replicate,
      List.drop_left' List.length_replicate] at h
    split at h
    · next c r =>
      split at h
      · next hc =>
        obtain ⟨h1, h6, hb⟩ := hc
        have hbare : '\n' ∉ Text.trimStart r := fun hm => hn
          (List.mem_append_right _ (List.mem_cons_of_mem c (Text.mem_of_mem_trimStart hm)))
        simp only [Comment.takeWhile_of_no_lineFeed hbare, List.drop_length, List.length_nil,
          Nat.zero_le, if_true, Option.some.injEq, Prod.mk.injEq] at h
        obtain ⟨rfl, rfl⟩ := h
        obtain ⟨gap, hgap, hblank⟩ := Text.exists_append_trimStart r
        refine ⟨h1, h6, Text.head?_trimStart r, c :: gap, by simp, ?_, ?_⟩
        · intro x hx
          rcases List.mem_cons.mp hx with rfl | hx
          · exact hb
          · exact hblank x hx
        · rw [List.cons_append, ← hgap]
      · exact absurd h (by simp)
    · exact absurd h (by simp)
  · rintro ⟨h1, h6, hhead, gap, hne, hblank, rfl⟩
    obtain ⟨c, g, rfl⟩ := List.exists_cons_of_ne_nil hne
    have hc : isBlank c := hblank c List.mem_cons_self
    have hsign : (c :: (g ++ raw)).head? ≠ some '#' := by
      intro h
      have : c = '#' := by simpa using h
      rw [this] at hc
      exact absurd hc (by decide)
    have hbare : Text.trimStart (g ++ raw) = raw := by
      rw [Text.trimStart_append_of_blank fun x hx => hblank x (List.mem_cons_of_mem c hx),
        Text.trimStart_of_head hhead]
    have hraw : '\n' ∉ raw := fun h => hn (by simp [h])
    rw [List.cons_append]
    unfold markdownTitle?
    simp only [Text.takeWhile_replicate_append hsign, List.length_replicate,
      List.drop_left' List.length_replicate]
    rw [if_pos ⟨h1, h6, hc⟩, hbare, Comment.takeWhile_of_no_lineFeed hraw, List.drop_length]
    rfl

theorem markdownTitle?_of_equals (level : Nat) (raw : Text) (h : level ≠ 0) :
    markdownTitle? (List.replicate level '=' ++ raw) = none := by
  obtain ⟨n, rfl⟩ := Nat.exists_eq_succ_of_ne_zero h
  rfl

theorem typstTitle?_eq_some_iff {line raw : Text} {level : Nat} :
    typstTitle? line = some (level, raw) ↔
      level ≠ 0 ∧ raw.head? ≠ some '=' ∧ line = List.replicate level '=' ++ raw := by
  constructor
  · intro h
    obtain ⟨n, r, rfl, hr⟩ := Text.exists_replicate_append '=' line
    unfold typstTitle? at h
    simp only [Text.takeWhile_replicate_append hr, List.length_replicate,
      List.drop_left' List.length_replicate] at h
    split at h
    · exact absurd h (by simp)
    · next h0 =>
      rw [Option.some.injEq, Prod.mk.injEq] at h
      obtain ⟨rfl, rfl⟩ := h
      exact ⟨h0, hr, rfl⟩
  · rintro ⟨h0, hhead, rfl⟩
    unfold typstTitle?
    simp only [Text.takeWhile_replicate_append hhead, List.length_replicate, if_neg h0,
      List.drop_left' List.length_replicate]

/-- The line has the signs of a heading of a level, and `raw` after them. -/
def Signed (markup : Markup) (level : Nat) (line raw : Text) : Prop :=
  match markup with
  | .markdown => markdownTitle? line = some (level, raw)
  | .typst => markdownTitle? line = none ∧ typstTitle? line = some (level, raw)

/-- A heading is read from a line that has its signs; a Typst heading has a title. -/
theorem ofLine?_eq_some_iff {line : Text} {number : Int} {h : Heading} :
    ofLine? line number = some h ↔
      ∃ markup level raw, Signed markup level line raw ∧
        (markup = .typst → (splitTitle markup raw).1 ≠ []) ∧
        h = ofParts markup number level line.length (splitTitle markup raw).1
          (splitTitle markup raw).2 := by
  unfold ofLine?
  constructor
  · intro hh
    split at hh
    · next level raw hm =>
      exact ⟨.markdown, level, raw, hm, by simp, (Option.some.inj hh).symm⟩
    · next hm =>
      split at hh
      · next level raw ht =>
        simp only at hh
        split at hh
        · exact absurd hh (by simp)
        · next hne => exact ⟨.typst, level, raw, ⟨hm, ht⟩, fun _ => hne, (Option.some.inj hh).symm⟩
      · exact absurd hh (by simp)
  · rintro ⟨markup, level, raw, hs, hne, rfl⟩
    cases markup with
    | markdown => rw [show markdownTitle? line = some (level, raw) from hs]
    | typst =>
      rw [hs.1, hs.2]
      simp only
      rw [if_neg (hne rfl)]

/-! ## The title with another comment -/

/-- What precedes the raw title opens no comment. -/
theorem Signed.exists_append {markup : Markup} {level : Nat} {line raw : Text} (hn : '\n' ∉ line)
    (h : Signed markup level line raw) :
    ∃ pre, line = pre ++ raw ∧ ∀ c ∈ pre, (opening markup).head? ≠ some c := by
  cases markup with
  | markdown =>
    obtain ⟨-, -, -, gap, -, hblank, rfl⟩ := (markdownTitle?_eq_some_iff hn).mp h
    refine ⟨List.replicate level '#' ++ gap, by rw [List.append_assoc], fun c hc he => ?_⟩
    obtain rfl : '<' = c := by simpa [opening] using he
    rcases List.mem_append.mp hc with hc | hc
    · exact absurd (List.mem_replicate.mp hc).2 (by decide)
    · exact absurd (hblank _ hc) (by decide)
  | typst =>
    obtain ⟨-, -, rfl⟩ := typstTitle?_eq_some_iff.mp h.2
    refine ⟨List.replicate level '=', rfl, fun c hc he => ?_⟩
    obtain rfl : '/' = c := by simpa [opening] using he
    exact absurd (List.mem_replicate.mp hc).2 (by decide)

theorem not_mem_retitled {pre a tail w : Text} (hn : '\n' ∉ pre ++ (a ++ tail)) (hwn : '\n' ∉ w) :
    '\n' ∉ Text.trimEnd (pre ++ a) ++ ' ' :: w := by
  intro hm
  rcases List.mem_append.mp hm with hm | hm
  · refine hn ?_
    rw [← List.append_assoc]
    exact List.mem_append_left _ (Text.mem_of_mem_trimEnd hm)
  · rcases List.mem_cons.mp hm with hm | hm
    · exact absurd hm (by decide)
    · exact hwn hm

theorem signed_markdown_retitled {level : Nat} {pre a tail w : Text}
    (h : Signed .markdown level (pre ++ (a ++ tail)) (a ++ tail)) (hn : '\n' ∉ pre ++ (a ++ tail))
    (hwhead : ∀ c ∈ w.head?, isBlank c = false) (hwn : '\n' ∉ w) :
    ∃ a', Signed .markdown level (Text.trimEnd (pre ++ a) ++ ' ' :: w) (a' ++ w) ∧
      (a' = [] ∧ Text.trim a = [] ∨ a' = Text.trimEnd a ++ [' ']) := by
  obtain ⟨h1, h6, hhead, gap, hgap, hblank, hline⟩ := (markdownTitle?_eq_some_iff hn).mp h
  obtain rfl : pre = List.replicate level '#' ++ gap :=
    List.append_cancel_right (hline.trans (List.append_assoc ..).symm)
  have hnew := not_mem_retitled hn hwn
  cases a with
  | nil =>
    -- Without a title the blanks after the signs are trimmed away with those before the comment.
    refine ⟨[], ?_, .inl ⟨rfl, rfl⟩⟩
    have hend : Text.trimEnd (List.replicate level '#' ++ gap) = List.replicate level '#' := by
      rw [Text.trimEnd_append_of_blank hblank]
      refine Text.trimEnd_of_getLast fun c hc => ?_
      rw [(List.mem_replicate.mp (List.mem_of_mem_getLast? hc)).2]
      rfl
    refine (markdownTitle?_eq_some_iff hnew).mpr
      ⟨h1, h6, hwhead, [' '], by simp, fun _ => Text.isBlank_of_mem_space, ?_⟩
    rw [List.append_nil, hend]
    rfl
  | cons x s =>
    have hs : ∃ c ∈ x :: s, isBlank c = false := ⟨x, List.mem_cons_self, hhead x rfl⟩
    refine ⟨Text.trimEnd (x :: s) ++ [' '], ?_, .inr rfl⟩
    refine (markdownTitle?_eq_some_iff hnew).mpr
      ⟨h1, h6, fun c hc => ?_, gap, hgap, hblank, ?_⟩
    · rw [List.append_assoc, List.head?_append_of_ne_nil _ (Text.trimEnd_ne_nil hs),
        Text.head?_trimEnd hs] at hc
      exact hhead c hc
    · rw [Text.trimEnd_append hs]
      simp

theorem signed_typst_retitled {level : Nat} {pre a tail w : Text}
    (h : Signed .typst level (pre ++ (a ++ tail)) (a ++ tail)) (ha : Text.trim a ≠ []) :
    Signed .typst level (Text.trimEnd (pre ++ a) ++ ' ' :: w) (Text.trimEnd a ++ [' '] ++ w) := by
  obtain ⟨h0, hhead, hline⟩ := typstTitle?_eq_some_iff.mp h.2
  obtain rfl : pre = List.replicate level '=' := List.append_cancel_right hline
  have hs := Text.exists_of_trim_ne_nil ha
  have hne : a ≠ [] := by
    obtain ⟨c, hc, -⟩ := hs
    exact List.ne_nil_of_mem hc
  have hsplit : Text.trimEnd (List.replicate level '=' ++ a) ++ ' ' :: w =
      List.replicate level '=' ++ (Text.trimEnd a ++ [' '] ++ w) := by
    rw [Text.trimEnd_append hs]
    simp
  rw [hsplit]
  refine ⟨markdownTitle?_of_equals level _ h0, typstTitle?_eq_some_iff.mpr ⟨h0, ?_, rfl⟩⟩
  rw [List.append_assoc, List.head?_append_of_ne_nil _ (Text.trimEnd_ne_nil hs), Text.head?_trimEnd hs]
  rwa [List.head?_append_of_ne_nil _ hne] at hhead

/-- The raw title of a line that is cut off after `a` and goes on with a space and `w`. -/
theorem Signed.retitle {markup : Markup} {level : Nat} {pre a tail w : Text}
    (h : Signed markup level (pre ++ (a ++ tail)) (a ++ tail)) (hn : '\n' ∉ pre ++ (a ++ tail))
    (hwhead : ∀ c ∈ w.head?, isBlank c = false) (hwn : '\n' ∉ w)
    (ha : markup = .typst → Text.trim a ≠ []) :
    ∃ a', Signed markup level (Text.trimEnd (pre ++ a) ++ ' ' :: w) (a' ++ w) ∧
      (a' = [] ∧ Text.trim a = [] ∨ a' = Text.trimEnd a ++ [' ']) := by
  cases markup with
  | markdown => exact signed_markdown_retitled h hn hwhead hwn
  | typst => exact ⟨_, signed_typst_retitled h (ha rfl), .inr rfl⟩

/-- The heading with other marks, on a line of another length. -/
def withMarks (h : Heading) (m : Marks) (length : Nat) : Heading :=
  { h with tags := m.tags, remark := m.remark, range := Range.ofLine h.line length }

theorem splitTitle_of_find? {markup : Markup} {raw : Text} {f : Comment.Found}
    (h : find? markup raw = some f) :
    splitTitle markup raw = (Text.trim (raw.take f.start), Marks.decode f.body) := by
  unfold splitTitle
  rw [h]

/-- The raw title that ends with a comment is split there. -/
theorem splitTitle_append_wrap {markup : Markup} {a : Text} {m : Marks} (hm : m.Clean)
    (ha : a = [] ∨ ∃ b, a = b ++ [' '] ∧ ¬ opening markup <:+: b) :
    splitTitle markup (a ++ wrap markup m.encode) = (Text.trim a, m) := by
  have hbody := Comment.body?_wrapped hm.isTrimmed_encode hm.lineFeed_not_mem_encode markup
  have hfound : find? markup (a ++ wrap markup m.encode) =
      some ⟨a.length, a.length + (wrap markup m.encode).length, m.encode⟩ := by
    rw [Comment.wrap_eq]
    rcases ha with rfl | ⟨b, rfl, hb⟩
    · exact Comment.findFrom?_opening hbody 0
    · unfold find?
      rw [List.append_assoc, List.singleton_append, Comment.findFrom?_spaced hb,
        Comment.findFrom?_opening hbody]
      simp
  rw [splitTitle_of_find? hfound, List.take_left, Marks.decode_encode_of_clean hm]

/-- The comment of a heading line is that of its raw title. -/
theorem Signed.exists_find? {markup : Markup} {level : Nat} {line raw : Text} {f : Comment.Found}
    (hn : '\n' ∉ line) (hs : Signed markup level line raw) (hf : find? markup line = some f) :
    ∃ pre a tail body, line = pre ++ (a ++ tail) ∧ raw = a ++ tail ∧ ¬ opening markup <:+: a ∧
      strip markup line = Text.trimEnd (pre ++ a) ∧
      splitTitle markup raw = (Text.trim a, Marks.decode body) := by
  obtain ⟨pre, rfl, hpre⟩ := hs.exists_append hn
  have hraw : '\n' ∉ raw := fun h => hn (List.mem_append_right pre h)
  have hf' := hf
  rw [find?, Comment.findFrom?_append hpre] at hf'
  obtain ⟨a, rest, body, rfl, hopen, -, -, hfind⟩ := Comment.exists_of_findFrom? hraw hf'
  refine ⟨pre, a, opening markup ++ rest, body, rfl, rfl, hopen, ?_, ?_⟩
  · rw [hfind] at hf'
    obtain rfl := Option.some.inj hf'
    rw [Comment.strip_of_find? hn hf, Nat.zero_add, ← List.length_append, ← List.append_assoc pre]
    exact congrArg Text.trimEnd List.take_left
  · rw [splitTitle_of_find? (hfind 0), Nat.zero_add, List.take_left]

/-- The marks of a heading, as its comment holds them. -/
def marks (h : Heading) : Marks := { tags := h.tags, remark := h.remark }

/-- The marks of a heading are such as a comment can hold. -/
theorem clean_of_ofLine? {line : Text} {number : Int} {h : Heading}
    (hh : ofLine? line number = some h) : h.marks.Clean := by
  obtain ⟨markup, level, raw, -, -, rfl⟩ := ofLine?_eq_some_iff.mp hh
  show (splitTitle markup raw).2.Clean
  unfold splitTitle
  split
  · exact ⟨by simp, by simp⟩
  · exact Marks.clean_decode _

/-- Without a comment on its line a heading has no marks. -/
theorem marks_of_find?_eq_none {line : Text} {number : Int} {h : Heading} (hn : '\n' ∉ line)
    (hh : ofLine? line number = some h) (hf : find? h.markup line = none) : h.marks = {} := by
  obtain ⟨markup, level, raw, hs, -, rfl⟩ := ofLine?_eq_some_iff.mp hh
  obtain ⟨pre, rfl, hpre⟩ := hs.exists_append hn
  have hnone : find? markup raw = none := (Comment.find?_append_eq_none_iff hpre).mp hf
  show (splitTitle markup raw).2 = {}
  rw [splitTitle, hnone]

/-- A heading that carries tags has a comment on its line. -/
theorem exists_find?_of_tags {line : Text} {number : Int} {h : Heading} (hn : '\n' ∉ line)
    (hh : ofLine? line number = some h) (ht : h.tags ≠ []) : ∃ f, find? h.markup line = some f :=
  Option.ne_none_iff_exists'.mp fun hf =>
    ht (congrArg Marks.tags (marks_of_find?_eq_none hn hh hf))

end TaggedOutline.Heading
