import TaggedOutline.Edit.Lines
import TaggedOutline.Proofs.Heading.Marks

/-!
# Canonical heading lines

Every heading with a title has a canonical line: its signs, one space, its title, and the comment
that holds its marks. The line is read as the heading it is written for, and writing the marks to it
once more changes nothing (`ofLine?_canonical`).

1. The title of a heading holds no comment, and no opening either where marks are to be written after
   it (`find?_text`, `canHold_marks`).
2. So the signs, a space and the title are read as the heading without its marks (`ofLine?_plain`),
   and the marks can be written after them.
3. Marks that are written over others leave nothing of them (`Comment.update_update`).
-/

namespace TaggedOutline.Heading

open Comment (opening find? update)

/-- The signs, a space and the title: the line of a heading without its marks. -/
def plain (h : Heading) : Text :=
  List.replicate h.level.toNat (sign h.markup) ++ ' ' :: h.text

/-- The line that a heading is written as. -/
def canonical (h : Heading) : Text := update h.markup h.plain h.marks

/-! ## The title and the marks -/

section Read

variable {line : Text} {number : Int} {h : Heading} (hn : '\n' ∉ line)
  (hh : ofLine? line number = some h)

include hn hh

/-- The title of a heading is trimmed text of its line, in which there is no comment. -/
theorem find?_text : Text.IsTrimmed h.text ∧ '\n' ∉ h.text ∧ find? h.markup h.text = none := by
  obtain ⟨markup, level, raw, hs, -, rfl⟩ := ofLine?_eq_some_iff.mp hh
  obtain ⟨pre, a, tail, rfl, rfl, htext, -, hnone⟩ := hs.exists_title hn
  have ha : '\n' ∉ Text.trimEnd a := fun h => hn
    (List.mem_append_right pre (List.mem_append_left tail (Text.mem_of_mem_trimEnd h)))
  show Text.IsTrimmed (splitTitle markup (a ++ tail)).1 ∧ '\n' ∉ (splitTitle markup (a ++ tail)).1 ∧
    find? markup (splitTitle markup (a ++ tail)).1 = none
  rw [htext, ← Text.trim_trimEnd]
  exact ⟨Text.isTrimmed_trim _, fun h => ha (Text.mem_of_mem_trim h), Comment.find?_trim ha hnone⟩

/-- A heading with a title can hold the marks that it has. -/
theorem canHold_marks (htext : h.text ≠ []) : h.CanHold h.marks := by
  unfold CanHold
  split
  · exact htext
  · next hne =>
    cases hf : find? h.markup line with
    | some f => exact not_isInfix_text_of_find? hn hh hf
    | none =>
      rw [marks_of_find?_eq_none hn hh hf] at hne
      exact absurd rfl hne

end Read

/-! ## The line without the marks -/

theorem sign_ne_lineFeed (markup : Markup) : '\n' ≠ sign markup := by cases markup <;> decide

/-- What precedes a title opens no comment. -/
theorem not_opening_of_mem_signs {markup : Markup} {level : Nat} {c : Char}
    (hc : c ∈ List.replicate level (sign markup) ++ [' ']) : (opening markup).head? ≠ some c := by
  have hsign : c = sign markup ∨ c = ' ' :=
    (List.mem_append.mp hc).imp (fun h => (List.mem_replicate.mp h).2) List.mem_singleton.mp
  rcases hsign with rfl | rfl <;> cases markup <;> decide

section Plain

variable {markup : Markup} {level : Nat} {title line : Text} {number : Int} {h : Heading}

/-- Signs, a space and a title are read as a heading with that title. -/
theorem ofLine?_signs (hlevel : 1 ≤ level) (hsix : markup = .markdown → level ≤ 6)
    (ht : Text.IsTrimmed title) (hne : title ≠ []) (hn : '\n' ∉ title)
    (hf : find? markup title = none) :
    ofLine? (List.replicate level (sign markup) ++ ' ' :: title) number =
      some (ofParts markup number level (List.replicate level (sign markup) ++ ' ' :: title).length
        title {}) := by
  have hfeed : '\n' ∉ List.replicate level (sign markup) ++ ' ' :: title := by
    simp only [List.mem_append, List.mem_replicate, List.mem_cons, not_or]
    exact ⟨fun h => sign_ne_lineFeed markup h.2, by decide, hn⟩
  cases markup with
  | markdown =>
    have hsplit : splitTitle .markdown title = (title, {}) := by
      rw [splitTitle, hf]
      simp only
      rw [Text.trim_of_isTrimmed ht]
    refine ofLine?_eq_some_iff.mpr ⟨.markdown, level, title, ?_, by simp, by rw [hsplit]⟩
    exact (markdownTitle?_eq_some_iff hfeed).mpr
      ⟨hlevel, hsix rfl, ht.1, [' '], by simp, fun _ => Text.isBlank_of_mem_space, rfl⟩
  | typst =>
    have hspace : find? .typst (' ' :: title) = none := by
      have hpre : ∀ c ∈ [' '], (opening .typst).head? ≠ some c := by simp [opening]
      exact (Comment.find?_append_eq_none_iff hpre).mpr hf
    have hsplit : splitTitle .typst (' ' :: title) = (title, {}) := by
      rw [splitTitle, hspace]
      simp only
      rw [← List.singleton_append, Text.trim_blank_append fun _ => Text.isBlank_of_mem_space,
        Text.trim_of_isTrimmed ht]
    refine ofLine?_eq_some_iff.mpr ⟨.typst, level, ' ' :: title, ⟨?_, ?_⟩, ?_, by rw [hsplit]⟩
    · exact markdownTitle?_of_equals level _ (by omega)
    · exact typstTitle?_eq_some_iff.mpr ⟨by omega, by simp, rfl⟩
    · rw [hsplit]
      exact fun _ => hne

/-- The level of a heading is the number of its signs, of which Markdown has no more than six. -/
theorem level_of_ofLine? (hn : '\n' ∉ line) (hh : ofLine? line number = some h) :
    ∃ level : Nat, h.level = level ∧ 1 ≤ level ∧ (h.markup = .markdown → level ≤ 6) := by
  obtain ⟨markup, level, raw, hs, -, rfl⟩ := ofLine?_eq_some_iff.mp hh
  refine ⟨level, rfl, ?_⟩
  cases markup with
  | markdown =>
    obtain ⟨h1, h6, -⟩ := (markdownTitle?_eq_some_iff hn).mp hs
    exact ⟨h1, fun _ => h6⟩
  | typst =>
    obtain ⟨h0, -⟩ := typstTitle?_eq_some_iff.mp hs.2
    exact ⟨by omega, fun h => by cases h⟩

variable (hn : '\n' ∉ line) (hh : ofLine? line number = some h)

include hn hh

theorem lineFeed_not_mem_plain : '\n' ∉ h.plain := by
  obtain ⟨-, hfeed, -⟩ := find?_text hn hh
  simp only [plain, List.mem_append, List.mem_replicate, List.mem_cons, not_or]
  exact ⟨fun hc => sign_ne_lineFeed h.markup hc.2, by decide, hfeed⟩

/-- The line without the marks is read as the heading without them. -/
theorem ofLine?_plain (htext : h.text ≠ []) (number' : Int) :
    ofLine? h.plain number' =
      some (ofParts h.markup number' h.level.toNat h.plain.length h.text {}) := by
  obtain ⟨ht, hfeed, hf⟩ := find?_text hn hh
  obtain ⟨level, hlevel, h1, h6⟩ := level_of_ofLine? hn hh
  unfold plain
  rw [hlevel, Int.toNat_natCast]
  exact ofLine?_signs h1 h6 ht htext hfeed hf

end Plain

/-! ## The canonical line -/

section Canonical

variable {line : Text} {number : Int} {h : Heading}

/-- The line that a heading with a title is written as is read as that heading, and its marks can be
written to it once more. -/
theorem ofLine?_canonical (hn : '\n' ∉ line) (hh : ofLine? line number = some h)
    (htext : h.text ≠ []) (number' : Int) :
    ofLine? h.canonical number' =
        some { h with line := number', range := Range.ofLine number' h.canonical.length } ∧
      update h.markup h.canonical h.marks = h.canonical := by
  have hplain := ofLine?_plain hn hh htext number'
  have hfeed := lineFeed_not_mem_plain hn hh
  have hhold := canHold_marks hn hh htext
  have hclean : h.marks.Clean := clean_of_ofLine? hh
  constructor
  · have hread := (ofLine?_update_iff hfeed hplain hclean).mpr hhold
    obtain ⟨markup, level, raw, -, -, rfl⟩ := ofLine?_eq_some_iff.mp hh
    exact hread
  · refine Comment.update_update hfeed hclean fun hne => ?_
    have hopen : ¬ opening h.markup <:+: h.text := by
      rwa [CanHold, if_neg hne] at hhold
    have hnone := (find?_text hn hh).2.2
    rw [plain, ← List.singleton_append, ← List.append_assoc] at hfeed ⊢
    rw [Comment.strip_of_find?_eq_none hfeed
        ((Comment.find?_append_eq_none_iff fun _ => not_opening_of_mem_signs).mpr hnone),
      Comment.isInfix_append_iff fun _ => not_opening_of_mem_signs]
    exact hopen

/-- A number sign before the title, a word that is no tag, a tag twice and on both sides of the remark,
colons and a backslash, and what closes a Markdown comment. -/
theorem ofLine?_canonical_colons :
    let line := "===\t# T  // word #x:y :: p \\:\\: q ::#x:y #\\\\\\::-->\r".toList
    let h : Heading := ⟨.typst, 3, "# T".toList, "# T".toList, 7, Range.ofLine 7 line.length,
      ["x:y".toList, "x:y".toList, "\\::-->".toList], some "p :: q".toList⟩
    '\n' ∉ line ∧ ofLine? line 7 = some h ∧ h.text ≠ [] ∧
      h.canonical = "=== # T // #x:y #x:y #\\\\\\:\\:--> :: p \\:\\: q ::".toList ∧
      ofLine? h.canonical 0 =
        some { h with line := 0, range := Range.ofLine 0 h.canonical.length } ∧
      update h.markup h.canonical h.marks = h.canonical := by
  intro line h
  have hn : '\n' ∉ line := by decide
  have hh : ofLine? line 7 = some h := by decide +kernel
  have htext : h.text ≠ [] := by decide
  exact ⟨hn, hh, htext, by decide +kernel, ofLine?_canonical hn hh htext 0⟩

end Canonical

end TaggedOutline.Heading
