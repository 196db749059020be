import TaggedOutline.Edit.Extract
import TaggedOutline.Proofs.Heading.FenceLine
import TaggedOutline.Proofs.Heading.Return

/-!
# The header lines of Typst documents

1. The search for header lines passes blank lines and lines that start with a number sign, ends at
   any other line, and finds the header lines among those that it passed (`headersOf_eq`).
2. Passed lines open no code region (`opening?_of_isPassed`), so those of them that have the form of
   a heading are headings of the document. A Typst heading is none of them, since it starts with an
   equals sign (`markup_of_isPassed`), but a Markdown heading is.
3. So the header lines stand before the first heading unless one of them comes after a Markdown
   heading that the search has passed (`lines_fileHeaders_iff`).
-/

namespace TaggedOutline

open Text (isBlank)

/-- The first word of the line imports something, sets something or shows something. -/
def IsHeaderLine (line : Text) : Prop := ∃ start ∈ headerStarts, start <+: Text.trim line

instance (line : Text) : Decidable (IsHeaderLine line) :=
  inferInstanceAs (Decidable (∃ start ∈ headerStarts, start <+: Text.trim line))

/-- The search goes on after the line: there is nothing on it, or a number sign comes first. -/
def IsPassed (line : Text) : Prop := Text.trim line = [] ∨ (Text.trim line).head? = some '#'

instance (line : Text) : Decidable (IsPassed line) := inferInstanceAs (Decidable (_ ∨ _))

/-- The lines up to the first one with other content. -/
def searchedLines (d : Document) : List Text := d.lines.takeWhile fun line => IsPassed line

/-- The line starts with one to six number signs and a blank. -/
def HasNumberSigns (line : Text) : Prop :=
  ∃ n, 1 ≤ n ∧ n ≤ 6 ∧ ∃ c r, isBlank c ∧ line = List.replicate n '#' ++ c :: r

variable {line t : Text} {d : Document} {h : Heading} {k : Nat}

/-! ## The search -/

theorem isHeaderLine_iff :
    headerStarts.any (Text.startsWith · (Text.trim line)) = true ↔ IsHeaderLine line := by
  rw [List.any_eq_true]
  refine exists_congr fun start => and_congr_right fun _ => ?_
  rw [Text.startsWith, Option.isSome_iff_exists]
  exact exists_congr fun r => Text.after?_eq_some_iff.trans eq_comm

/-- A header line starts with a number sign and a letter. -/
theorem IsHeaderLine.exists_cons (h : IsHeaderLine line) :
    ∃ c r, Text.trim line = '#' :: c :: r ∧ c ≠ '#' ∧ isBlank c = false := by
  obtain ⟨start, hstart, r, hr⟩ := h
  have hall : ∀ start ∈ headerStarts,
      ∃ c s, start = '#' :: c :: s ∧ c ≠ '#' ∧ isBlank c = false := by
    simp only [headerStarts, List.forall_mem_cons]
    exact ⟨⟨'i', _, rfl, by decide, rfl⟩, ⟨'s', _, rfl, by decide, rfl⟩,
      ⟨'s', _, rfl, by decide, rfl⟩, by simp⟩
  obtain ⟨c, s, rfl, hc⟩ := hall start hstart
  exact ⟨c, s ++ r, hr.symm, hc⟩

theorem IsHeaderLine.isPassed (h : IsHeaderLine line) : IsPassed line := by
  obtain ⟨c, r, htrim, -⟩ := h.exists_cons
  exact .inr (by rw [htrim]; rfl)

/-- The header lines are found among the passed lines. -/
theorem headersOf_eq (ls : List Text) :
    headersOf ls = (ls.takeWhile fun line => IsPassed line).filter fun line => IsHeaderLine line := by
  induction ls with
  | nil => rfl
  | cons line rest ih =>
    rw [headersOf]
    simp only [isHeaderLine_iff]
    by_cases hheader : IsHeaderLine line
    · rw [if_pos hheader, List.takeWhile_cons_of_pos (by simpa using hheader.isPassed),
        List.filter_cons_of_pos (by simpa using hheader), ih]
    · rw [if_neg hheader]
      by_cases hpassed : IsPassed line
      · have hcontent : ¬ (Text.trim line ≠ [] ∧ (Text.trim line).head? ≠ some '#') := fun hboth =>
          hpassed.elim hboth.1 hboth.2
        rw [if_neg hcontent, List.takeWhile_cons_of_pos (by simpa using hpassed),
          List.filter_cons_of_neg (by simpa using hheader), ih]
      · rw [if_pos (not_or.mp hpassed), List.takeWhile_cons_of_neg (by simpa using hpassed)]
        rfl

/-! ## Headings among the passed lines -/

/-- A passed line opens no code region. -/
theorem opening?_of_isPassed (h : IsPassed line) : Fence.opening? line = none := by
  rcases h with hnil | hhead
  · rw [Option.eq_none_iff_forall_ne_some]
    rintro ⟨c, n⟩ hopens
    obtain ⟨hc, hn, lead, rest, -, -, hline⟩ := Fence.opening?_eq_some_iff.mp hopens
    have hmark : [c] <:+: Text.trim line := by
      refine Text.isInfix_trim (by simpa using hc.isBlank_eq_false) ?_
      obtain ⟨m, rfl⟩ := Nat.exists_eq_add_of_le' hn
      exact ⟨lead, List.replicate (m + 2) c ++ rest, by rw [hline]; simp [List.replicate_succ]⟩
    rw [hnil, List.infix_nil] at hmark
    exact absurd hmark (by simp)
  · obtain ⟨r, hr⟩ := List.head?_eq_some_iff.mp hhead
    exact Fence.opening?_of_trim ⟨r, hr⟩

/-- On a passed line a heading is a Markdown heading. -/
theorem markup_of_isPassed {number : Int} (h' : IsPassed line)
    (hread : Heading.ofLine? line number = some h) : h.markup = .markdown := by
  obtain ⟨markup, level, raw, hs, -, rfl⟩ := Heading.ofLine?_eq_some_iff.mp hread
  cases markup with
  | markdown => rfl
  | typst =>
    obtain ⟨h0, -, rfl⟩ := Heading.typstTitle?_eq_some_iff.mp hs.2
    obtain ⟨n, rfl⟩ := Nat.exists_eq_succ_of_ne_zero h0
    have hhead : (Text.trim (List.replicate (n + 1) '=' ++ raw)).head? = some '=' :=
      Text.head?_trim_cons rfl _
    rcases h' with hnil | hsign
    · exact absurd hhead (by rw [hnil]; simp)
    · exact absurd (hhead.symm.trans hsign) (by decide)

/-- The Markdown headings are the lines with number signs. -/
theorem hasNumberSigns_iff (number : Int) (hn : '\n' ∉ line) :
    HasNumberSigns line ↔ ∃ h, Heading.ofLine? line number = some h ∧ h.markup = .markdown := by
  constructor
  · rintro ⟨n, h1, h6, c, r, hc, rfl⟩
    obtain ⟨gap, hgap, hblank⟩ := Text.exists_append_trimStart r
    have htitle := (Heading.markdownTitle?_eq_some_iff hn).mpr
      ⟨h1, h6, Text.head?_trimStart r, c :: gap, by simp, List.forall_mem_cons.mpr ⟨hc, hblank⟩,
        by rw [List.cons_append, ← hgap]⟩
    exact ⟨_, Heading.ofLine?_eq_some_iff.mpr ⟨.markdown, n, _, htitle, by simp, rfl⟩, rfl⟩
  · rintro ⟨h, hread, hmarkup⟩
    obtain ⟨markup, level, raw, hs, -, rfl⟩ := Heading.ofLine?_eq_some_iff.mp hread
    obtain rfl : markup = .markdown := hmarkup
    obtain ⟨h1, h6, -, gap, hgap, hblank, rfl⟩ := (Heading.markdownTitle?_eq_some_iff hn).mp hs
    obtain ⟨c, gap, rfl⟩ := List.exists_cons_of_ne_nil hgap
    exact ⟨level, h1, h6, c, gap ++ raw, hblank c List.mem_cons_self, rfl⟩

/-- A header line is no heading. -/
theorem IsHeaderLine.not_hasNumberSigns (h : IsHeaderLine line) : ¬ HasNumberSigns line := by
  rintro ⟨n, h1, -, b, s, hb, rfl⟩
  obtain ⟨n, rfl⟩ := Nat.exists_eq_add_of_le' h1
  obtain ⟨c, r, htrim, hsign, hc⟩ := h.exists_cons
  -- The second character is a number sign or a blank, but on a header line it is neither.
  have hstart : Text.trimStart (List.replicate (n + 1) '#' ++ b :: s) =
      List.replicate (n + 1) '#' ++ b :: s :=
    Text.trimStart_of_head fun x hx => by
      obtain rfl : '#' = x := by simpa [List.replicate_succ] using hx
      rfl
  obtain ⟨rest, hrest⟩ := Text.trimEnd_isPrefix (List.replicate (n + 1) '#' ++ b :: s)
  rw [Text.trim, hstart] at htrim
  rw [htrim, List.replicate_succ] at hrest
  cases n with
  | zero =>
    obtain rfl : c = b := (List.cons.inj (List.cons.inj hrest).2).1
    exact absurd hb (by simp [hc])
  | succ n => exact hsign (List.cons.inj (List.cons.inj hrest).2).1

/-- On the first lines of a text, if they open no code region, each line that has the form of a
heading is one. -/
theorem Heading.mem_ofText_of_opening? {front rest : List Text}
    (hsplit : Line.contents t = front ++ rest) (hfront : ∀ line ∈ front, Fence.opening? line = none)
    (hk : front[k]? = some line) (hread : ofLine? line k = some h) : h ∈ ofText t := by
  obtain ⟨hlt, rfl⟩ := List.getElem?_eq_some_iff.mp hk
  have hbefore : ({} : Fence).afterLines (front.take k) = {} :=
    afterLines_of_opening? rfl fun line hline => hfront line (List.mem_of_mem_take hline)
  have hlength : (0 : Int) + (front.take k).length = k := by
    rw [List.length_take]
    omega
  have hread' : read? {} k front[k] = some h := by
    rw [read?, step_of_opening? rfl (hfront _ (List.getElem_mem hlt))]
    exact hread
  rw [ofText, hsplit, ← List.take_append_drop k front, List.append_assoc, ofLines_append, hbefore,
    hlength, List.drop_eq_getElem_cons hlt]
  exact List.mem_append_right _ (mem_ofLines_cons.mpr (.inl hread'))

/-! ## The documents -/

theorem lines_eq_searchedLines_append (d : Document) :
    d.lines = searchedLines d ++ d.lines.dropWhile fun line => IsPassed line :=
  List.takeWhile_append_dropWhile.symm

theorem isPassed_of_getElem? (hk : (searchedLines d)[k]? = some line) : IsPassed line := by
  have hmem := List.mem_of_getElem? hk
  rw [searchedLines] at hmem
  simpa using List.mem_takeWhile_imp hmem

theorem getElem?_lines_of_searchedLines (hk : (searchedLines d)[k]? = some line) :
    d.lines[k]? = some line := by
  rw [lines_eq_searchedLines_append, List.getElem?_append_left (List.getElem?_eq_some_iff.mp hk).1]
  exact hk

/-- A heading on a passed line is read from it. -/
theorem ofLine?_of_searchedLines (hh : h ∈ Heading.ofDocument d) (hline : h.line = k)
    (hk : (searchedLines d)[k]? = some line) : Heading.ofLine? line k = some h :=
  hline ▸ Heading.ofLine?_of_mem_ofText hh hline (getElem?_lines_of_searchedLines hk)

/-- Of the passed lines just those with number signs are headings. -/
theorem exists_heading_iff (hk : (searchedLines d)[k]? = some line) :
    (∃ h ∈ Heading.ofDocument d, h.line = k) ↔ HasNumberSigns line := by
  have hn : '\n' ∉ line := Line.lineFeed_not_mem_of_mem_contents
    (List.mem_of_getElem? (getElem?_lines_of_searchedLines hk))
  constructor
  · rintro ⟨h, hh, hline⟩
    have hread := ofLine?_of_searchedLines hh hline hk
    exact (hasNumberSigns_iff k hn).mpr
      ⟨h, hread, markup_of_isPassed (isPassed_of_getElem? hk) hread⟩
  · intro hsigns
    obtain ⟨h, hread, -⟩ := (hasNumberSigns_iff k hn).mp hsigns
    refine ⟨h, ?_, Heading.line_of_ofLine? hread⟩
    refine Heading.mem_ofText_of_opening? (lines_eq_searchedLines_append d) (fun l hl => ?_) hk hread
    obtain ⟨j, hj⟩ := List.mem_iff_getElem?.mp hl
    exact opening?_of_isPassed (isPassed_of_getElem? hj)

/-- The header lines of a Typst document are those among the lines up to the first one with other
content. Of the headings only Markdown headings can be on these lines, and the header lines stand
before all headings iff none of them comes after a line with number signs. -/
theorem lines_fileHeaders_iff (uri t : Text) :
    let d : Document := ⟨uri, t, .typst⟩
    fileHeaders d = (searchedLines d).filter (fun line => IsHeaderLine line) ∧
      (∀ h ∈ Heading.ofDocument d, h.line < (searchedLines d).length → h.markup = .markdown) ∧
      ((∀ (k : Nat) (line : Text), (searchedLines d)[k]? = some line → IsHeaderLine line →
          ∀ h ∈ Heading.ofDocument d, (k : Int) < h.line) ↔
        (searchedLines d).Pairwise fun first later => HasNumberSigns first → ¬ IsHeaderLine later) := by
  intro d
  have htoNat {h : Heading} (hh : h ∈ Heading.ofDocument d) : (h.line.toNat : Int) = h.line :=
    Int.toNat_of_nonneg (Heading.line_of_mem_ofLines hh).1
  refine ⟨headersOf_eq d.lines, fun h hh hlt => ?_, ?_⟩
  · have hj : h.line.toNat < (searchedLines d).length := by
      have := htoNat hh
      omega
    obtain ⟨line, hk⟩ : ∃ line, (searchedLines d)[h.line.toNat]? = some line :=
      ⟨_, List.getElem?_eq_getElem hj⟩
    exact markup_of_isPassed (isPassed_of_getElem? hk)
      (ofLine?_of_searchedLines hh (htoNat hh).symm hk)
  rw [List.pairwise_iff_getElem]
  constructor
  · intro hbefore i j hi hj hij hsigns hheader
    obtain ⟨h, hh, hline⟩ := (exists_heading_iff (List.getElem?_eq_getElem hi)).mpr hsigns
    have := hbefore j _ (List.getElem?_eq_getElem hj) hheader h hh
    omega
  · intro hpairwise k line hk hheader h hh
    by_contra hle
    obtain ⟨hlt, rfl⟩ := List.getElem?_eq_some_iff.mp hk
    have hj : h.line.toNat < (searchedLines d).length := by
      have := htoNat hh
      omega
    have hsigns := (exists_heading_iff (List.getElem?_eq_getElem hj)).mp ⟨h, hh, (htoNat hh).symm⟩
    rcases Nat.eq_or_lt_of_le (show h.line.toNat ≤ k by omega) with heq | hearlier
    · simp only [heq] at hsigns
      exact hheader.not_hasNumberSigns hsigns
    · exact hpairwise _ k hj hlt hearlier hsigns hheader

/-- A header line after a Markdown heading. -/
theorem fileHeaders_after_heading :
    let d : Document := ⟨[], "# H\n#set text(red)\n".toList, .typst⟩
    fileHeaders d = ["#set text(red)".toList] ∧ d.lines[1]? = some "#set text(red)".toList ∧
      (Heading.ofDocument d).map (fun h => (h.line, h.text)) = [(0, ['H'])] := by
  intro d
  exact ⟨by decide, by decide, by decide⟩

end TaggedOutline
