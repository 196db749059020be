import Mathlib.Algebra.Ring.Nat
import TaggedOutline.Document.Basic
import TaggedOutline.Proofs.Document.Line

/-!
# Offsets of positions

1. The offset of a position is the length of the lines before its own, and its character or the end
   of its line (`offsetAt_eq`); after the last line it is the length of the text
   (`offsetAt_of_lineCount_le`).
2. So it lies between the starts of its own line and the next one, and grows with the position
   (`offsetAt_mono`).
3. The texts of ranges are pieces of the text, and those of adjacent ranges are put together
   (`textIn_append`).
4. An offset may as well be counted along the breaks of the text, with the line feeds to tell which
   lines are past the end (`offsetAt_eq_offsetAlong`). So positions, lines, breaks and texts agree
   on what a line is (`offsetAt_lines`).
-/

namespace TaggedOutline

/-- The number of characters before a line. -/
def lineStart (ls : List Line) (k : Nat) : Nat := (Line.join (ls.take k)).length

theorem take_lineStart (ls : List Line) (k : Nat) :
    (Line.join ls).take (lineStart ls k) = Line.join (ls.take k) := by
  conv_lhs => rw [← List.take_append_drop k ls, Line.join_append]
  rw [lineStart, List.take_append_drop, List.take_left]

theorem drop_lineStart (ls : List Line) (k : Nat) :
    (Line.join ls).drop (lineStart ls k) = Line.join (ls.drop k) := by
  conv_lhs => rw [← List.take_append_drop k ls, Line.join_append]
  rw [lineStart, List.take_append_drop, List.drop_left]

namespace Document

theorem offsetIn_eq {ls : List Line} {k : Nat} {l : Line} (h : ls[k]? = some l) (character : Int) :
    offsetIn ls k character = lineStart ls k + min character l.content.length := by
  induction ls generalizing k with
  | nil => exact absurd h (by simp)
  | cons first ls ih =>
    cases k with
    | zero =>
      obtain rfl : first = l := by simpa using h
      simp [offsetIn, lineStart, Line.join]
    | succ k =>
      rw [List.getElem?_cons_succ] at h
      have hne : ls ≠ [] := by
        rintro rfl
        exact absurd h (by simp)
      rw [offsetIn, if_neg hne, ih h]
      simp only [lineStart, Line.join, List.take_succ_cons, List.flatMap_cons, List.length_append]
      omega

/-- The offset of a position on a line of the document. -/
theorem offsetAt_eq {d : Document} {k : Nat} {l : Line} (h : (Line.ofText d.text)[k]? = some l)
    (character : Int) :
    d.offsetAt ⟨k, character⟩ =
      lineStart (Line.ofText d.text) k + min character l.content.length := by
  unfold offsetAt
  simp only
  rw [if_neg (by omega), Int.toNat_natCast, offsetIn_eq h]

theorem offsetIn_of_length_le {ls : List Line} {k : Nat} (h : ls.length ≤ k) (character : Int) :
    offsetIn ls k character = (Line.join ls).length := by
  induction ls generalizing k with
  | nil => rfl
  | cons first ls ih =>
    obtain ⟨k, rfl⟩ := Nat.exists_eq_add_of_lt (Nat.lt_of_lt_of_le (Nat.succ_pos ls.length) h)
    rw [Nat.zero_add, offsetIn]
    split
    · next hnil => simp [hnil, Line.join]
    · have hle : ls.length ≤ k := by
        rw [List.length_cons] at h
        omega
      rw [ih hle]
      simp [Line.join]

/-- The end of the document comes after all of its characters. -/
theorem offsetAt_endPosition (d : Document) : d.offsetAt d.endPosition = d.text.length := by
  obtain ⟨ls, last, hsplit, -, -⟩ := Line.exists_ofText d.text
  have hget : (Line.ofText d.text)[ls.length]? = some ⟨last, .none⟩ := by rw [hsplit]; simp
  have hend : d.endPosition = ⟨(ls.length : Nat), last.length⟩ := by
    simp [endPosition, lines, Line.contents, hsplit]
  have htext : d.text.length = (Line.join ls).length + last.length := by
    rw [← Line.join_ofText d.text, hsplit]
    simp [Line.join, Line.text, Terminator.text]
  rw [hend, offsetAt_eq hget, lineStart, hsplit, List.take_left, htext]
  simp

end Document

theorem lineCount_eq (d : Document) : d.lineCount = (Line.ofText d.text).length := by
  rw [Document.lineCount, Document.lines, Line.contents, List.length_map]

/-- The offset of a position after the last line. -/
theorem Document.offsetAt_of_lineCount_le {d : Document} {k : Nat} (h : d.lineCount ≤ k)
    (character : Int) : d.offsetAt ⟨k, character⟩ = d.text.length := by
  rw [lineCount_eq] at h
  unfold offsetAt
  simp only
  rw [if_neg (by omega), Int.toNat_natCast, offsetIn_of_length_le h, Line.join_ofText]

/-! ## Starts of lines -/

theorem lineStart_succ {ls : List Line} {k : Nat} {l : Line} (h : ls[k]? = some l) :
    lineStart ls (k + 1) = lineStart ls k + l.text.length := by
  rw [lineStart, lineStart, List.take_add_one, h, Line.join_append, List.length_append]
  simp [Line.join]

theorem lineStart_of_length_le {ls : List Line} {k : Nat} (h : ls.length ≤ k) :
    lineStart ls k = (Line.join ls).length := by
  rw [lineStart, List.take_of_length_le h]

theorem lineStart_mono (ls : List Line) {j k : Nat} (h : j ≤ k) :
    lineStart ls j ≤ lineStart ls k := by
  obtain ⟨i, rfl⟩ := Nat.exists_eq_add_of_le h
  rw [lineStart, lineStart, List.take_add, Line.join_append, List.length_append]
  exact Nat.le_add_right _ _

theorem lineStart_eq_sum (ls : List Line) (k : Nat) :
    lineStart ls k = ((ls.take k).map (·.text.length)).sum := by
  rw [lineStart, Line.join, List.length_flatMap]

/-! ## Positions in order -/

/-- Neither the line nor the character is negative. -/
def Position.IsNonneg (p : Position) : Prop := 0 ≤ p.line ∧ 0 ≤ p.character

instance (p : Position) : Decidable p.IsNonneg := inferInstanceAs (Decidable (_ ∧ _))

namespace Document

variable {d : Document} {p q r : Position}

/-- A position lies between the starts of its own line and the next one. -/
theorem offsetAt_bounds (d : Document) (hp : p.IsNonneg) :
    lineStart (Line.ofText d.text) p.line.toNat ≤ d.offsetAt p ∧
      d.offsetAt p ≤ lineStart (Line.ofText d.text) (p.line.toNat + 1) := by
  obtain ⟨line, character⟩ := p
  obtain ⟨hline, hcharacter⟩ := hp
  simp only at hline hcharacter ⊢
  obtain ⟨k, rfl⟩ := Int.eq_ofNat_of_zero_le hline
  rw [Int.toNat_natCast]
  cases hget : (Line.ofText d.text)[k]? with
  | none =>
    have hle : (Line.ofText d.text).length ≤ k := List.getElem?_eq_none_iff.mp hget
    rw [offsetAt_of_lineCount_le (by rwa [lineCount_eq]), lineStart_of_length_le hle,
      lineStart_of_length_le (by omega), Line.join_ofText]
    exact ⟨Int.le_refl _, Int.le_refl _⟩
  | some l =>
    have htext : l.content.length ≤ l.text.length := by
      rw [Line.text, List.length_append]
      exact Nat.le_add_right _ _
    rw [offsetAt_eq hget, lineStart_succ hget]
    omega

theorem offsetAt_nonneg (d : Document) (hp : p.IsNonneg) : 0 ≤ d.offsetAt p :=
  Int.le_trans (Int.natCast_nonneg _) (offsetAt_bounds d hp).1

/-- Offsets grow with the positions. -/
theorem offsetAt_mono (d : Document) (hp : p.IsNonneg) (hq : q.IsNonneg) (h : p ≤ q) :
    d.offsetAt p ≤ d.offsetAt q := by
  obtain ⟨-, hupper⟩ := offsetAt_bounds d hp
  obtain ⟨hlower, -⟩ := offsetAt_bounds d hq
  obtain ⟨line, character⟩ := p
  obtain ⟨line', character'⟩ := q
  obtain ⟨hline, -⟩ := hp
  rcases h with hlt | ⟨heq, hle⟩
  · -- The next line begins at or before the later line.
    simp only at hline hlt hupper hlower
    have := lineStart_mono (Line.ofText d.text) (j := line.toNat + 1) (k := line'.toNat) (by omega)
    omega
  · simp only at heq hle hline
    subst heq
    obtain ⟨k, rfl⟩ := Int.eq_ofNat_of_zero_le hline
    cases hget : (Line.ofText d.text)[k]? with
    | none =>
      have hcount : d.lineCount ≤ k := by
        rw [lineCount_eq]
        exact List.getElem?_eq_none_iff.mp hget
      exact Int.le_of_eq ((offsetAt_of_lineCount_le hcount character).trans
        (offsetAt_of_lineCount_le hcount character').symm)
    | some l =>
      rw [offsetAt_eq hget, offsetAt_eq hget]
      omega

end Document

/-! ## Texts of ranges -/

theorem Text.slice_of_nonneg (t : Text) {a b : Int} (ha : 0 ≤ a) (hb : 0 ≤ b) :
    slice t a b = (t.take b.toNat).drop a.toNat := by
  rw [slice]
  simp only
  rw [if_neg (by omega), if_neg (by omega)]

namespace Document

variable {d : Document} {p q r : Position}

theorem textIn_eq (d : Document) (hp : p.IsNonneg) (hq : q.IsNonneg) :
    d.textIn ⟨p, q⟩ = (d.text.take (d.offsetAt q).toNat).drop (d.offsetAt p).toNat :=
  Text.slice_of_nonneg d.text (offsetAt_nonneg d hp) (offsetAt_nonneg d hq)

/-- The texts of adjacent ranges are put together. -/
theorem textIn_append (d : Document) (hp : p.IsNonneg) (hq : q.IsNonneg) (hr : r.IsNonneg)
    (hpq : p ≤ q) (hqr : q ≤ r) : d.textIn ⟨p, q⟩ ++ d.textIn ⟨q, r⟩ = d.textIn ⟨p, r⟩ := by
  have hab := offsetAt_mono d hp hq hpq
  have hbe := offsetAt_mono d hq hr hqr
  rw [textIn_eq d hp hq, textIn_eq d hq hr, textIn_eq d hp hr]
  exact Text.drop_take_append_drop_take d.text (by omega) (by omega)

/-- The range of a line holds the line without its break. -/
theorem textIn_ofLine {k : Nat} {line : Text} (h : d.lines[k]? = some line) :
    d.textIn (Range.ofLine k line.length) = line := by
  rw [lines, Line.contents, List.getElem?_map, Option.map_eq_some_iff] at h
  obtain ⟨l, hget, rfl⟩ := h
  have hdrop := drop_lineStart (Line.ofText d.text) k
  obtain ⟨hk, hl⟩ := List.getElem?_eq_some_iff.mp hget
  rw [Line.join_ofText, List.drop_eq_getElem_cons hk, hl] at hdrop
  rw [Range.ofLine, textIn_eq d ⟨by simp, by simp⟩ ⟨by simp, by simp⟩, offsetAt_eq hget,
    offsetAt_eq hget, List.drop_take]
  have hlength : (lineStart (Line.ofText d.text) k + min (l.content.length : Int)
      l.content.length).toNat - (lineStart (Line.ofText d.text) k +
        min (0 : Int) l.content.length).toNat = l.content.length := by omega
  have hstart : (lineStart (Line.ofText d.text) k + min (0 : Int) l.content.length).toNat =
      lineStart (Line.ofText d.text) k := by omega
  rw [hlength, hstart, hdrop]
  simp [Line.join, Line.text]

/-- The range from the first position to the last one holds the whole text. -/
theorem textIn_whole (d : Document) : d.textIn ⟨⟨0, 0⟩, d.endPosition⟩ = d.text := by
  obtain ⟨l, ls, hls⟩ := List.exists_cons_of_ne_nil (Line.ofText_ne_nil d.text)
  have hget : (Line.ofText d.text)[0]? = some l := by rw [hls]; rfl
  have hzero : d.offsetAt ⟨0, 0⟩ = 0 := by
    refine (offsetAt_eq hget 0).trans ?_
    rw [show lineStart (Line.ofText d.text) 0 = 0 from rfl]
    omega
  rw [textIn, hzero, offsetAt_endPosition, Text.slice_of_nonneg _ (by simp) (by simp)]
  simp

end Document

/-! ## Breaks -/

/-- The breaks of a text that starts at an offset: where each of them starts and ends. -/
def Text.breaksFrom (i : Nat) : Text → List (Nat × Nat)
  | [] => []
  | '\n' :: r => (i, i + 1) :: breaksFrom (i + 1) r
  | '\r' :: '\n' :: r => (i, i + 2) :: breaksFrom (i + 2) r
  | _ :: r => breaksFrom (i + 1) r

/-- The offset of a position, counted along the breaks from line `k` on, which starts at `start`. A
line is past the end if it comes after as many lines as there are line feeds. -/
def Document.offsetAlong (d : Document) (p : Position) (start k : Nat) : List (Nat × Nat) → Int
  | [] =>
    if d.text.count '\n' < p.line then d.text.length
    else start + min p.character (d.text.length - start)
  | (a, b) :: breaks =>
    if p.line = k then start + min p.character (a - start) else offsetAlong d p b (k + 1) breaks

/-- Each line but the last one ends with a break. -/
def Line.breaksFrom (i : Nat) : List Line → List (Nat × Nat)
  | [] => []
  | l :: ls =>
    if ls = [] then []
    else (i + l.content.length, i + l.text.length) :: breaksFrom (i + l.text.length) ls

theorem Text.breaksFrom_eq (i : Nat) (t : Text) :
    breaksFrom i t = Line.breaksFrom i (Line.ofText t) := by
  fun_induction breaksFrom i t with
  | case1 => rfl
  | case2 i r ih => rw [Line.ofText, Line.breaksFrom, if_neg (Line.ofText_ne_nil r), ih]; rfl
  | case3 i r ih => rw [Line.ofText, Line.breaksFrom, if_neg (Line.ofText_ne_nil r), ih]; rfl
  | case4 i c r hfeed hreturn ih =>
    obtain ⟨l, ls, hls⟩ := List.exists_cons_of_ne_nil (Line.ofText_ne_nil r)
    rw [Line.ofText, ih, hls]
    · simp [Line.breaksFrom, Line.cons, Line.text, Nat.add_assoc, Nat.add_comm 1]
    · exact hfeed
    · exact hreturn

/-- From line `k` on, which starts at `start`, with the lines `ls` and an open one left. -/
theorem Document.offsetAlong_eq {d : Document} {ls : List Line} {last : Text} {start k : Nat}
    (hlength : d.text.length = start + (Line.join ls).length + last.length)
    (hcount : d.text.count '\n' = k + ls.length) (p : Position) :
    d.offsetAlong p start k (Line.breaksFrom start (ls ++ [⟨last, .none⟩])) =
      start + offsetIn (ls ++ [⟨last, .none⟩])
        (if p.line < k then ls.length else (p.line - k).toNat) p.character := by
  induction ls generalizing start k with
  | nil =>
    rw [Line.join, List.flatMap_nil, List.length_nil, Nat.add_zero] at hlength
    rw [List.length_nil, Nat.add_zero] at hcount
    rw [List.nil_append, Line.breaksFrom, if_pos rfl, offsetAlong, hcount, hlength]
    rcases Int.lt_or_le (k : Int) p.line with hlt | hge
    · obtain ⟨j, hj⟩ := Int.eq_ofNat_of_zero_le (a := p.line - k - 1) (by omega)
      have hnumber : (p.line - k).toNat = j + 1 := by omega
      rw [if_pos hlt, if_neg (by omega), hnumber, offsetIn, if_pos rfl]
      simp [Line.text, Terminator.text]
    · have hnumber : (if p.line < k then 0 else (p.line - k).toNat) = 0 := by
        split <;> omega
      rw [if_neg (by omega), List.length_nil, hnumber, offsetIn]
      simp only
      omega
  | cons l ls ih =>
    have hne : ls ++ [⟨last, .none⟩] ≠ [] := by simp
    have hjoin : (Line.join (l :: ls)).length = l.text.length + (Line.join ls).length := by
      simp [Line.join]
    rw [List.length_cons] at hcount
    have hlength' : d.text.length = start + l.text.length + (Line.join ls).length + last.length := by
      omega
    have hrest := ih hlength' (Nat.add_right_comm k 1 _ ▸ hcount)
    rw [List.cons_append, Line.breaksFrom, if_neg hne, offsetAlong]
    split
    · next hline =>
      rw [if_neg (by omega), hline, Int.sub_self, Int.toNat_zero, offsetIn]
      omega
    · next hline =>
      have hnumber : (if p.line < k then (l :: ls).length else (p.line - k).toNat) =
          (if p.line < (k + 1 : Nat) then ls.length else (p.line - (k + 1 : Nat)).toNat) + 1 := by
        rw [List.length_cons]
        split <;> split <;> omega
      rw [hrest, hnumber, offsetIn, if_neg hne]
      omega

/-- Counting along the breaks gives the offset of a position. -/
theorem Document.offsetAt_eq_offsetAlong (d : Document) (p : Position) :
    d.offsetAt p = d.offsetAlong p 0 0 (Text.breaksFrom 0 d.text) := by
  obtain ⟨ls, last, hsplit, -, -⟩ := Line.exists_ofText d.text
  have hlength : d.text.length = 0 + (Line.join ls).length + last.length := by
    conv_lhs => rw [← Line.join_ofText d.text, hsplit, Line.join_append]
    simp [Line.join, Line.text, Terminator.text]
  have hcount := Line.length_ofText d.text
  rw [hsplit, List.length_append, List.length_singleton] at hcount
  rw [Text.breaksFrom_eq, hsplit, offsetAlong_eq hlength (by omega), offsetAt, hsplit]
  simp only [List.length_append, List.length_singleton, Nat.add_sub_cancel]
  simp

/-! ## Lines and offsets -/

/-- The lines of a text: ended ones, and an open one after them. -/
structure Line.Splits (t : Text) (ls : List Line) (last : Text) : Prop where
  ended : ∀ l ∈ ls, l.IsEnded
  lineFeed : '\n' ∉ last
  text : t = join ls ++ last

theorem Line.exists_splits (t : Text) :
    ∃ ls last, Line.Splits t ls last ∧ ofText t = ls ++ [⟨last, .none⟩] := by
  obtain ⟨ls, last, hsplit, hls, hlast⟩ := exists_ofText t
  refine ⟨ls, last, ⟨hls, hlast, ?_⟩, hsplit⟩
  rw [← join_ofText t, hsplit]
  simp [join, Line.text, Terminator.text]

namespace Document

/-- The text is ended lines and an open one after them. The offset of a position, also where it is
counted along the breaks, is the length of the lines before its own, with their breaks, and its
character or the end of its line; after the last line it is the length of the text. Offsets grow
with the positions, the range of a line holds that line, and the texts of adjacent ranges are put
together, up to the whole text. -/
theorem offsetAt_lines (d : Document) :
    ∃ ls last, Line.Splits d.text ls last ∧ d.lines = ls.map Line.content ++ [last] ∧
      (∀ p, d.offsetAt p = d.offsetAlong p 0 0 (Text.breaksFrom 0 d.text)) ∧
      (∀ p : Position, p.IsNonneg →
        (∀ line, d.lines[p.line.toNat]? = some line →
          d.offsetAt p =
            ((ls.take p.line.toNat).map (·.text.length)).sum + min p.character line.length) ∧
        (d.lineCount ≤ p.line → d.offsetAt p = d.text.length)) ∧
      (∀ p q : Position, p.IsNonneg → q.IsNonneg → p ≤ q → d.offsetAt p ≤ d.offsetAt q) ∧
      (∀ (k : Nat) (line : Text), d.lines[k]? = some line →
        d.textIn (Range.ofLine k line.length) = line) ∧
      (∀ p q r : Position, p.IsNonneg → q.IsNonneg → r.IsNonneg → p ≤ q → q ≤ r →
        d.textIn ⟨p, q⟩ ++ d.textIn ⟨q, r⟩ = d.textIn ⟨p, r⟩) ∧
      d.textIn ⟨⟨0, 0⟩, d.endPosition⟩ = d.text := by
  obtain ⟨ls, last, hsplits, hsplit⟩ := Line.exists_splits d.text
  refine ⟨ls, last, hsplits, by simp [lines, Line.contents, hsplit], offsetAt_eq_offsetAlong d,
    fun p hp => ⟨?_, ?_⟩, fun p q => offsetAt_mono d, fun k line => textIn_ofLine,
    fun p q r => textIn_append d, textIn_whole d⟩
  · intro line hline
    obtain ⟨number, character⟩ := p
    obtain ⟨k, rfl⟩ := Int.eq_ofNat_of_zero_le hp.1
    simp only [Int.toNat_natCast] at hline ⊢
    rw [lines, Line.contents, List.getElem?_map, Option.map_eq_some_iff] at hline
    obtain ⟨l, hget, rfl⟩ := hline
    have hk : k ≤ ls.length := by
      have := (List.getElem?_eq_some_iff.mp hget).1
      rw [hsplit, List.length_append, List.length_singleton] at this
      omega
    rw [offsetAt_eq hget, lineStart_eq_sum, hsplit, List.take_append_of_le_length hk]
  · intro hcount
    obtain ⟨number, character⟩ := p
    obtain ⟨k, rfl⟩ := Int.eq_ofNat_of_zero_le hp.1
    exact offsetAt_of_lineCount_le (Int.ofNat_le.mp hcount) character

/-- Breaks of both kinds, carriage returns at the start and the end of a line, and positions past
the ends of a line and of the document. -/
theorem offsetAt_lines_mixed :
    let d : Document := ⟨[], "ab\r\n\rc\r\r\nd\n".toList, .markdown⟩
    let p : Position := ⟨0, 7⟩
    let q : Position := ⟨1, 2⟩
    let r : Position := ⟨9, 0⟩
    p.IsNonneg ∧ q.IsNonneg ∧ r.IsNonneg ∧ p ≤ q ∧ q ≤ r ∧
      d.lines[1]? = some "\rc\r".toList ∧
      d.offsetAt p ≤ d.offsetAt q ∧ d.offsetAt r = d.text.length ∧
      d.textIn (Range.ofLine 1 3) = "\rc\r".toList ∧
      d.textIn ⟨p, q⟩ ++ d.textIn ⟨q, r⟩ = d.textIn ⟨p, r⟩ := by
  intro d p q r
  have hp : p.IsNonneg := by decide
  have hq : q.IsNonneg := by decide
  have hr : r.IsNonneg := by decide
  have hpq : p ≤ q := by decide
  have hqr : q ≤ r := by decide
  have hline : d.lines[1]? = some "\rc\r".toList := by decide
  obtain ⟨ls, last, -, -, -, hoffset, hmono, hown, happend, -⟩ := offsetAt_lines d
  have hpast : (d.lineCount : Int) ≤ r.line := by decide
  have htext := hown 1 _ hline
  exact ⟨hp, hq, hr, hpq, hqr, hline, hmono p q hp hq hpq, (hoffset r hr).2 hpast, htext,
    happend p q r hp hq hr hpq hqr⟩

end Document

end TaggedOutline
