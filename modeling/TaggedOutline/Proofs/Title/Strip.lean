import TaggedOutline.Proofs.Title.Link

/-!
# Titles without links

1. A scan of a title takes steps of three kinds: over a code span, over a link, of which the label is
   shown, and over a single character (`Scan`). Each step moves on, and the sign of an image is
   dropped with a step of its own.
2. Stripping is such a scan (`exists_scan`): it takes a character as it stands iff the character is
   escaped or after an escaped sign, which can be said from one character to the next
   (`literal_succ`).
3. By induction on the scan its links are links of the title, one after the other, and what is shown
   is the title with each of them replaced (`Scan.eq_replaced`). No bracket that starts a link is
   passed, unless it is in a code span (`Scan.isHeld`).
-/

namespace TaggedOutline.Title

variable {t : Text} {i k n : Nat} {c : Char}

/-! ## Links in a title -/

/-- A bracket that may open a link: it is not escaped, and neither is an exclamation mark right
before it. -/
def OpensLink (t : Text) (i : Nat) : Prop :=
  t[i]? = some '[' ∧ isEscaped t i = false ∧
    ∀ k, k + 1 = i → t[k]? = some '!' → isEscaped t k = false

/-- An exclamation mark that makes an image of a link after it. -/
def IsImageSign (t : Text) (i : Nat) : Prop := t[i]? = some '!' ∧ isEscaped t i = false

instance (t : Text) (i : Nat) : Decidable (IsImageSign t i) := inferInstanceAs (Decidable (_ ∧ _))

/-- A link: where it starts, its length, and its label. -/
structure Link where
  start : Nat
  length : Nat
  label : Text
  deriving DecidableEq, Repr

/-- The offset after a link. -/
def Link.stop (l : Link) : Nat := l.start + l.length

/-- The link is one of the title. -/
structure IsLink (t : Text) (l : Link) : Prop where
  opens : OpensLink t l.start
  accepted : link? (t.drop l.start) = some (l.label, l.length)

variable {l : Link} {links : List Link} {out : Text}

/-- A bracket after the sign of an image opens a link. -/
theorem IsImageSign.opensLink (h : IsImageSign t i) (hnext : t[i + 1]? = some '[') :
    OpensLink t (i + 1) := by
  refine ⟨hnext, by rw [isEscaped_succ h.1]; rfl, fun k hk _ => ?_⟩
  obtain rfl := Nat.succ.inj hk
  exact h.2

theorem IsLink.endsAt (h : IsLink t l) : EndsAt t l.stop ')' ∨ EndsAt t l.stop ']' :=
  (link?_spec h.accepted).1.imp EndsAt.of_drop EndsAt.of_drop

theorem IsLink.length_pos (h : IsLink t l) : 0 < l.length :=
  (link?_spec h.accepted).1.elim EndsAt.pos EndsAt.pos

theorem IsLink.stop_le (h : IsLink t l) : l.stop ≤ t.length :=
  h.endsAt.elim EndsAt.le_length EndsAt.le_length

/-- The label stands right after the bracket. -/
theorem IsLink.label_prefix (h : IsLink t l) : l.label <+: t.drop (l.start + 1) := by
  rw [← List.drop_drop]
  exact (link?_spec h.accepted).2.1

theorem IsLink.label_length (h : IsLink t l) : l.label.length + 1 < l.length :=
  (link?_spec h.accepted).2.2

theorem IsLink.label_sublist (h : IsLink t l) : l.label.Sublist ((t.drop l.start).take l.length) := by
  have hprefix : l.label <+: ((t.drop l.start).take l.length).drop 1 := by
    rw [List.drop_take, List.prefix_take_iff, List.drop_drop]
    have := h.label_length
    exact ⟨h.label_prefix, by omega⟩
  exact hprefix.sublist.trans (List.drop_sublist 1 _)

/-! ## Scans -/

/-- A scan of a title from an offset to its end, with the links it replaces and what is shown. -/
inductive Scan (t : Text) : Nat → List Link → Text → Prop
  | done : Scan t t.length [] []
  | code {i n : Nat} {links : List Link} {out : Text} (span : (spans t)[i]? = some n) (pos : 0 < n)
      (rest : Scan t (i + n) links out) : Scan t i links ((t.drop i).take n ++ out)
  | link {l : Link} {links : List Link} {out : Text} (isLink : IsLink t l)
      (rest : Scan t l.stop links out) : Scan t l.start (l :: links) (l.label ++ out)
  | image {i : Nat} {l : Link} {links : List Link} {out : Text} (sign : IsImageSign t i)
      (start : l.start = i + 1) (rest : Scan t (i + 1) (l :: links) out) :
      Scan t i (l :: links) out
  | char {i : Nat} {c : Char} {links : List Link} {out : Text} (get : t[i]? = some c)
      (noSpan : (spans t)[i]? = some 0) (passed : OpensLink t i → link? (t.drop i) = none)
      (noImage : IsImageSign t i → OpensLink t (i + 1) → link? (t.drop (i + 1)) = none)
      (rest : Scan t (i + 1) links out) : Scan t i links (c :: out)

/-! ## Stripping is a scan -/

/-- A character that is kept even if it is a bracket: it is escaped, or it is a bracket after an
escaped exclamation mark. -/
def Literal (t : Text) (i : Nat) : Prop :=
  isEscaped t i = true ∨
    t[i]? = some '[' ∧ ∃ k, k + 1 = i ∧ t[k]? = some '!' ∧ isEscaped t k = true

theorem opensLink_iff : OpensLink t i ↔ t[i]? = some '[' ∧ ¬ Literal t i := by
  unfold OpensLink Literal
  constructor
  · rintro ⟨hget, hescaped, hbefore⟩
    refine ⟨hget, ?_⟩
    rintro (h | ⟨-, k, hk, hbang, h⟩)
    · simp [hescaped] at h
    · simp [hbefore k hk hbang] at h
  · rintro ⟨hget, hnot⟩
    rw [not_or] at hnot
    refine ⟨hget, by simpa using hnot.1, fun k hk hbang => ?_⟩
    by_contra h
    exact hnot.2 ⟨hget, k, hk, hbang, by simpa using h⟩

theorem literal_iff_of_ne (h : t[i]? = some c) (hc : c ≠ '[') :
    Literal t i ↔ isEscaped t i = true := by
  refine or_iff_left fun hbracket => hc ?_
  exact Option.some.inj (h.symm.trans hbracket.1)

/-- Which characters are kept can be said from one to the next. -/
theorem literal_succ (h : t[i]? = some c) :
    Literal t (i + 1) ↔
      c = '\\' ∧ ¬ Literal t i ∨ c = '!' ∧ Literal t i ∧ t[i + 1]? = some '[' := by
  have hescaped := isEscaped_succ h
  constructor
  · rintro (hnext | ⟨hbracket, k, hk, hbang, hnext⟩)
    · rw [hescaped, Bool.and_eq_true, decide_eq_true_eq] at hnext
      obtain ⟨rfl, hnot⟩ := hnext
      exact .inl ⟨rfl, by rw [literal_iff_of_ne h (by decide)]; simpa using hnot⟩
    · obtain rfl := Nat.succ.inj hk
      obtain rfl : c = '!' := Option.some.inj (h.symm.trans hbang)
      exact .inr ⟨rfl, .inl hnext, hbracket⟩
  · rintro (⟨rfl, hnot⟩ | ⟨rfl, hliteral, hbracket⟩)
    · rw [literal_iff_of_ne h (by decide)] at hnot
      exact .inl (by simpa [hescaped] using hnot)
    · rw [literal_iff_of_ne h (by decide)] at hliteral
      exact .inr ⟨hbracket, i, rfl, h, hliteral⟩

/-- After other characters than backslashes and exclamation marks no character is kept as such. -/
theorem EndsAt.not_literal (h : EndsAt t i c) (hslash : c ≠ '\\') (hbang : c ≠ '!') :
    ¬ Literal t i := by
  obtain ⟨k, rfl, hk⟩ := h
  rw [literal_succ hk]
  simp [hslash, hbang]

section Stripping

/-- The characters of a title with the spans they start, from an offset on. -/
def marked (t : Text) (i : Nat) : List (Char × Nat) := (t.zip (spans t)).drop i

theorem drop_marked (t : Text) (i n : Nat) : (marked t i).drop n = marked t (i + n) := by
  rw [marked, marked, List.drop_drop]

theorem map_fst_marked (t : Text) (i : Nat) : (marked t i).map Prod.fst = t.drop i := by
  rw [marked, List.map_drop, List.map_fst_zip]
  exact Nat.le_of_eq (length_spansFrom 0 none t).symm

theorem head?_marked (t : Text) (i : Nat) : (marked t i).head?.map Prod.fst = t[i]? := by
  rw [← List.head?_map, map_fst_marked, List.head?_drop]

theorem exists_marked_eq_cons (h : t[i]? = some c) :
    ∃ n, (spans t)[i]? = some n ∧ marked t i = (c, n) :: marked t (i + 1) := by
  obtain ⟨hi, hc⟩ := List.getElem?_eq_some_iff.mp h
  have hspans : i < (spans t).length := by
    rw [spans, length_spansFrom]
    exact hi
  have hzip : i < (t.zip (spans t)).length := by
    rw [List.length_zip]
    exact Nat.lt_min.mpr ⟨hi, hspans⟩
  refine ⟨(spans t)[i], List.getElem?_eq_getElem hspans, ?_⟩
  rw [marked, List.drop_eq_getElem_cons hzip, List.getElem_zip, hc]
  rfl

/-- Stripping goes on after the characters that are left out. -/
theorem stripFrom_skip (t : Text) (i n : Nat) :
    stripFrom n 0 false (marked t i) = stripFrom 0 0 false (marked t (i + n)) := by
  rw [← drop_marked]
  generalize marked t i = z
  induction n generalizing z with
  | zero => rfl
  | succ n ih =>
    cases z with
    | nil => rfl
    | cons x z =>
      rw [stripFrom, if_pos (Nat.succ_pos n), Nat.add_sub_cancel, ih]
      rfl

/-- Stripping goes on after the characters that are kept. -/
theorem stripFrom_copy (t : Text) (i n : Nat) :
    stripFrom 0 n false (marked t i) =
      (t.drop i).take n ++ stripFrom 0 0 false (marked t (i + n)) := by
  rw [← drop_marked, ← map_fst_marked]
  generalize marked t i = z
  induction n generalizing z with
  | zero => rfl
  | succ n ih =>
    cases z with
    | nil => rfl
    | cons x z =>
      rw [stripFrom, if_neg (Nat.lt_irrefl 0), if_pos (Nat.succ_pos n), Nat.add_sub_cancel, ih]
      rfl

variable {literal : Bool}

/-- A code span is kept. -/
theorem stripFrom_code (hspan : (spans t)[i]? = some n) (hn : 0 < n) :
    stripFrom 0 0 literal (marked t i) =
      (t.drop i).take n ++ stripFrom 0 0 false (marked t (i + n)) := by
  have hi : i < t.length := by
    have := (List.getElem?_eq_some_iff.mp hspan).1
    rwa [spans, length_spansFrom] at this
  obtain ⟨m, hm, hmarked⟩ := exists_marked_eq_cons (List.getElem?_eq_getElem hi)
  obtain rfl : n = m := Option.some.inj (hspan.symm.trans hm)
  obtain ⟨n, rfl⟩ := Nat.exists_eq_add_of_lt hn
  rw [hmarked, stripFrom, if_neg (Nat.lt_irrefl 0), if_neg (Nat.lt_irrefl 0), if_pos hn,
    Nat.add_sub_cancel, stripFrom_copy, List.drop_eq_getElem_cons hi, Nat.zero_add,
    List.take_succ_cons, List.cons_append]
  congr 4
  omega

section NoSpan

variable {label : Text} (hget : t[i]? = some c) (hspan : (spans t)[i]? = some 0)

include hget hspan

theorem marked_eq_cons : marked t i = (c, 0) :: marked t (i + 1) := by
  obtain ⟨n, hn, hmarked⟩ := exists_marked_eq_cons hget
  rwa [← Option.some.inj (hspan.symm.trans hn)] at hmarked

theorem drop_eq_cons : c :: (marked t (i + 1)).map Prod.fst = t.drop i := by
  rw [← map_fst_marked, marked_eq_cons hget hspan, List.map_cons]

/-- A link is replaced by its label. -/
theorem stripFrom_link (hc : c = '[') (hlink : link? (t.drop i) = some (label, n)) (hn : 0 < n) :
    stripFrom 0 0 false (marked t i) = label ++ stripFrom 0 0 false (marked t (i + n)) := by
  rw [marked_eq_cons hget hspan, stripFrom, drop_eq_cons hget hspan, hlink]
  simp only [Nat.lt_irrefl, if_false, hc, if_true, Bool.false_eq_true]
  rw [stripFrom_skip]
  congr 3
  omega

/-- So is an image. -/
theorem stripFrom_image (hc : c = '!') (hnext : t[i + 1]? = some '[')
    (hlink : link? (t.drop (i + 1)) = some (label, n)) :
    stripFrom 0 0 false (marked t i) = label ++ stripFrom 0 0 false (marked t (i + 1 + n)) := by
  have hskip := stripFrom_skip t (i + 1) n
  rw [marked_eq_cons hget hspan, stripFrom, head?_marked, map_fst_marked, hlink]
  simp [hc, hnext, hskip]

/-- Any other character is kept. -/
theorem stripFrom_char (hlink : literal = false → c = '[' → link? (t.drop i) = none)
    (himage : literal = false → c = '!' → t[i + 1]? = some '[' → link? (t.drop (i + 1)) = none) :
    stripFrom 0 0 literal (marked t i) =
      c :: stripFrom 0 0 (c = '\\' && !literal || c = '!' && literal && t[i + 1]? = some '[')
        (marked t (i + 1)) := by
  rw [marked_eq_cons hget hspan, stripFrom, drop_eq_cons hget hspan, head?_marked, map_fst_marked]
  simp only [Nat.lt_irrefl, if_false]
  cases literal with
  | true => rfl
  | false =>
    rw [if_neg Bool.false_ne_true]
    by_cases hc : c = '['
    · rw [if_pos hc, hlink rfl hc]
    · rw [if_neg hc]
      by_cases hsign : c = '!' ∧ t[i + 1]? = some '['
      · rw [if_pos hsign, himage rfl hsign.1 hsign.2]
      · rw [if_neg hsign]

end NoSpan

end Stripping

/-- Stripping a title from an offset on is a scan. -/
def Scanned (t : Text) (i : Nat) : Prop :=
  ∀ literal : Bool, (literal = true ↔ Literal t i) →
    ∃ links, Scan t i links (stripFrom 0 0 literal (marked t i))

theorem scanned_length (t : Text) : Scanned t t.length := by
  intro literal _
  rw [marked, List.drop_eq_nil_of_le (by rw [List.length_zip]; exact Nat.min_le_left _ _)]
  exact ⟨[], .done⟩

/-- A step over a code span or a link does not end with a backslash or an exclamation mark. -/
theorem Scanned.of_endsAt (h : Scanned t i) (hend : EndsAt t i c) (hslash : c ≠ '\\')
    (hbang : c ≠ '!') : ∃ links, Scan t i links (stripFrom 0 0 false (marked t i)) :=
  h false (by simpa using hend.not_literal hslash hbang)

theorem Scanned.code (h : Scanned t (i + n)) (hspan : (spans t)[i]? = some n) (hn : 0 < n) :
    Scanned t i := by
  intro literal _
  obtain ⟨links, hrest⟩ := h.of_endsAt (endsAt_of_spans hspan hn) (by decide) (by decide)
  rw [stripFrom_code hspan hn]
  exact ⟨links, .code hspan hn hrest⟩

theorem Scanned.link (h : Scanned t l.stop) (hl : IsLink t l) :
    ∃ links, Scan t l.start (l :: links)
      (l.label ++ stripFrom 0 0 false (marked t l.stop)) := by
  have hexists : ∃ links, Scan t l.stop links (stripFrom 0 0 false (marked t l.stop)) := by
    rcases hl.endsAt with hend | hend
    · exact h.of_endsAt hend (by decide) (by decide)
    · exact h.of_endsAt hend (by decide) (by decide)
  obtain ⟨links, hrest⟩ := hexists
  exact ⟨links, .link hl hrest⟩

theorem Scanned.char (h : Scanned t (i + 1)) (hget : t[i]? = some c)
    (hspan : (spans t)[i]? = some 0) {literal : Bool} (hliteral : literal = true ↔ Literal t i)
    (hlink : literal = false → c = '[' → link? (t.drop i) = none)
    (himage : literal = false → c = '!' → t[i + 1]? = some '[' → link? (t.drop (i + 1)) = none) :
    ∃ links, Scan t i links (stripFrom 0 0 literal (marked t i)) := by
  have hfalse (h : ¬ Literal t i) : literal = false := by simpa [← hliteral] using h
  rw [stripFrom_char hget hspan hlink himage]
  obtain ⟨links, hrest⟩ := h (c = '\\' && !literal || c = '!' && literal && t[i + 1]? = some '[')
    (by rw [literal_succ hget, ← hliteral]; simp [and_assoc])
  refine ⟨links, .char hget hspan (fun hopens => ?_) (fun hsign hopens => ?_) hrest⟩
  · obtain ⟨hbracket, hnot⟩ := opensLink_iff.mp hopens
    exact hlink (hfalse hnot) (Option.some.inj (hget.symm.trans hbracket))
  · refine himage (hfalse ?_) (Option.some.inj (hget.symm.trans hsign.1)) hopens.1
    rw [literal_iff_of_ne hsign.1 (by decide), hsign.2]
    exact Bool.false_ne_true

/-- At each offset one of the steps is taken, and the steps after it are those from a later one. -/
theorem scanned (t : Text) {i : Nat} (hi : i ≤ t.length) : Scanned t i := by
  induction hk : t.length - i using Nat.strongRecOn generalizing i with
  | _ k ih =>
    have hlater {j : Nat} (hij : i < j) (hj : j ≤ t.length) : Scanned t j :=
      ih (t.length - j) (by omega) hj rfl
    rcases Nat.eq_or_lt_of_le hi with rfl | hlt
    · exact scanned_length t
    have hget : t[i]? = some t[i] := List.getElem?_eq_getElem hlt
    obtain ⟨n, hspan, -⟩ := exists_marked_eq_cons hget
    rcases Nat.eq_zero_or_pos n with rfl | hn
    · intro literal hliteral
      have hchar := (hlater (Nat.lt_succ_self i) hlt).char hget hspan hliteral
      cases literal with
      | true => exact hchar (by simp) (by simp)
      | false =>
        have hnot : ¬ Literal t i := by simpa using hliteral
        by_cases hbracket : t[i] = '['
        · cases hlink : link? (t.drop i) with
          | none => exact hchar (fun _ _ => hlink) (by simp [hbracket])
          | some found =>
            obtain ⟨label, m⟩ := found
            have hl : IsLink t ⟨i, m, label⟩ :=
              ⟨opensLink_iff.mpr ⟨by rw [hget, hbracket], hnot⟩, hlink⟩
            have hpos := hl.length_pos
            obtain ⟨links, hscan⟩ :=
              (hlater (j := i + m) (Nat.lt_add_of_pos_right hpos) hl.stop_le).link hl
            rw [stripFrom_link hget hspan hbracket hlink hpos]
            exact ⟨_, hscan⟩
        · by_cases hsign : t[i] = '!' ∧ t[i + 1]? = some '['
          · cases hlink : link? (t.drop (i + 1)) with
            | none => exact hchar (by simp [hbracket]) fun _ _ _ => hlink
            | some found =>
              obtain ⟨label, m⟩ := found
              have himage : IsImageSign t i := by
                refine ⟨by rw [hget, hsign.1], ?_⟩
                rwa [literal_iff_of_ne hget hbracket, Bool.not_eq_true] at hnot
              have hl : IsLink t ⟨i + 1, m, label⟩ := ⟨himage.opensLink hsign.2, hlink⟩
              have hpos := hl.length_pos
              obtain ⟨links, hscan⟩ :=
                (hlater (j := i + 1 + m) (by omega) hl.stop_le).link hl
              rw [stripFrom_image hget hspan hsign.1 hsign.2 hlink]
              exact ⟨_, .image himage rfl hscan⟩
          · exact hchar (by simp [hbracket]) fun _ hbang hnext => absurd ⟨hbang, hnext⟩ hsign
    · have hend := endsAt_of_spans hspan hn
      exact (hlater (Nat.lt_add_of_pos_right hn) hend.le_length).code hspan hn

/-! ## What a scan replaces -/

/-- Where the text before a link ends: before its sign, if it is an image. -/
def Link.before (l : Link) (t : Text) : Nat :=
  if 0 < l.start ∧ IsImageSign t (l.start - 1) then l.start - 1 else l.start

/-- The link holds an offset. -/
def Link.Covers (l : Link) (i : Nat) : Prop := l.start ≤ i ∧ i < l.stop

/-- The offset `j` is in one of the links, or in a code span that starts at `i` or later and outside
of the links. -/
def IsHeld (t : Text) (links : List Link) (i j : Nat) : Prop :=
  (∃ l ∈ links, l.Covers j) ∨
    ∃ k n, (spans t)[k]? = some n ∧ (∀ l ∈ links, ¬ l.Covers k) ∧ i ≤ k ∧ k ≤ j ∧ j < k + n

theorem IsHeld.mono {i' j : Nat} (h : IsHeld t links i' j) (hle : i ≤ i') : IsHeld t links i j := by
  refine h.imp_right ?_
  rintro ⟨k, n, span, houtside, hk, hj⟩
  exact ⟨k, n, span, houtside, hle.trans hk, hj⟩

/-- The title from an offset on, with each of the links replaced by its label. -/
def replaced (t : Text) (i : Nat) : List Link → Text
  | [] => t.drop i
  | l :: links => (t.take (l.before t)).drop i ++ l.label ++ replaced t l.stop links

theorem Link.before_le (l : Link) (t : Text) : l.before t ≤ l.start := by
  unfold before
  split <;> omega

theorem Link.le_before (hi : i ≤ l.start) (h : l.start = i → ¬ IsImageSign t (i - 1)) :
    i ≤ l.before t := by
  unfold before
  split
  · next hsign =>
    by_contra hlt
    obtain rfl : l.start = i := by omega
    exact h rfl hsign.2
  · exact hi

/-- A link or a code span ends with no sign of an image. -/
theorem EndsAt.le_before (h : EndsAt t i c) (hbang : c ≠ '!') (hi : i ≤ l.start) :
    i ≤ l.before t := by
  refine Link.le_before hi fun _ hsign => hbang ?_
  obtain ⟨k, rfl, hget⟩ := h
  exact Option.some.inj (hget.symm.trans hsign.1)

/-- What stands before the first link is kept. -/
theorem append_replaced (h : ∀ l ∈ links.head?, i + n ≤ l.before t) :
    (t.drop i).take n ++ replaced t (i + n) links = replaced t i links := by
  cases links with
  | nil => rw [replaced, replaced, ← List.drop_drop, List.take_append_drop]
  | cons l links =>
    have htake : (t.drop i).take n = (t.take (i + n)).drop i := by
      rw [List.drop_take, Nat.add_sub_cancel_left]
    rw [replaced, replaced, htake, List.append_assoc, ← List.append_assoc,
      Text.drop_take_append_drop_take t (Nat.le_add_right i n) (h l rfl), List.append_assoc]

theorem replaced_start (l : Link) (links : List Link) (hi : l.before t ≤ i) :
    replaced t i (l :: links) = l.label ++ replaced t l.stop links := by
  rw [replaced, List.drop_eq_nil_of_le, List.nil_append]
  exact (List.length_take_le _ _).trans hi

namespace Scan

theorem mem (h : Scan t i links out) : ∀ l ∈ links, IsLink t l ∧ i ≤ l.start := by
  induction h with
  | done => exact fun l hl => absurd hl List.not_mem_nil
  | @link l links out hlink rest ih =>
    rintro l' (_ | ⟨_, hl'⟩)
    · exact ⟨hlink, Nat.le_refl _⟩
    · exact (ih l' hl').imp id fun hle => (Nat.le_add_right l.start l.length).trans hle
  | code _ _ _ ih | image _ _ _ ih | char _ _ _ _ _ ih =>
    exact fun l hl => (ih l hl).imp id fun hle => by omega

theorem pairwise (h : Scan t i links out) : links.Pairwise fun a b => a.stop ≤ b.start := by
  induction h with
  | done => exact .nil
  | link _ rest ih => exact .cons (fun b hb => (rest.mem b hb).2) ih
  | code _ _ _ ih | image _ _ _ ih | char _ _ _ _ _ ih => exact ih

/-- What a scan shows is the title with its links replaced. -/
theorem eq_replaced (h : Scan t i links out) : out = replaced t i links := by
  induction h with
  | done => exact (List.drop_length).symm
  | code span pos rest ih =>
    rw [ih]
    exact append_replaced fun l hl => (endsAt_of_spans span pos).le_before (by decide)
      (rest.mem l (List.mem_of_mem_head? hl)).2
  | link hlink rest ih => rw [replaced_start _ _ (Link.before_le _ t), ih]
  | @image i l links out sign start rest ih =>
    have hbefore : l.before t ≤ i := by
      rw [Link.before, if_pos ⟨by omega, by rwa [start]⟩, start]
      exact Nat.le_refl i
    rw [ih, replaced_start l links hbefore, replaced_start l links (by omega)]
  | @char i c links out get _ passed noImage rest ih =>
    obtain ⟨hi, hc⟩ := List.getElem?_eq_some_iff.mp get
    have htake : [c] = (t.drop i).take 1 := by rw [List.drop_eq_getElem_cons hi, hc]; rfl
    rw [ih, ← List.singleton_append, htake]
    refine append_replaced fun l hl => ?_
    obtain ⟨hlink, hle⟩ := rest.mem l (List.mem_of_mem_head? hl)
    refine Link.le_before hle fun hstart hsign => ?_
    have hnone := noImage hsign (hstart ▸ hlink.opens)
    rw [← hstart, hlink.accepted] at hnone
    exact absurd hnone (by simp)

/-- Nothing is shown that the title does not hold, and in its order. -/
theorem sublist (h : Scan t i links out) : out.Sublist (t.drop i) := by
  have happend {i n : Nat} {a b : Text} (ha : a.Sublist ((t.drop i).take n))
      (hb : b.Sublist (t.drop (i + n))) : (a ++ b).Sublist (t.drop i) := by
    rw [← List.drop_drop] at hb
    exact List.take_append_drop n (t.drop i) ▸ ha.append hb
  induction h with
  | done => exact List.nil_sublist _
  | code _ _ _ ih => exact happend (List.Sublist.refl _) ih
  | link hlink _ ih => exact happend hlink.label_sublist ih
  | image _ _ _ ih => exact ih.trans (List.drop_sublist_drop_left t (Nat.le_succ _))
  | char get _ _ _ _ ih =>
    obtain ⟨hi, rfl⟩ := List.getElem?_eq_some_iff.mp get
    rw [List.drop_eq_getElem_cons hi]
    exact ih.cons_cons _

/-- A bracket that starts a link is in one of the links that are replaced, or in a code span. -/
theorem isHeld (h : Scan t i links out) {j : Nat} (hij : i ≤ j) (hopens : OpensLink t j)
    (hlink : link? (t.drop j) ≠ none) : IsHeld t links i j := by
  induction h with
  | done => exact absurd (List.getElem?_eq_some_iff.mp hopens.1).1 (by omega)
  | @code i n links out span pos rest ih =>
    rcases Nat.lt_or_ge j (i + n) with hlt | hge
    · refine .inr ⟨i, n, span, fun l hl hcovers => ?_, Nat.le_refl i, hij, hlt⟩
      have hle := (rest.mem l hl).2
      exact absurd hcovers.1 (by omega)
    · exact (ih hge).mono (Nat.le_add_right i n)
  | @link l links out isLink rest ih =>
    rcases Nat.lt_or_ge j l.stop with hlt | hge
    · exact .inl ⟨l, List.mem_cons_self, hij, hlt⟩
    · rcases ih hge with ⟨l', hl', hcovers⟩ | ⟨k, n, span, houtside, hstop, hj⟩
      · exact .inl ⟨l', List.mem_cons_of_mem l hl', hcovers⟩
      · refine .inr ⟨k, n, span, ?_, (Nat.le_add_right l.start l.length).trans hstop, hj⟩
        rintro l' (_ | ⟨_, hl'⟩)
        · exact fun hcovers => absurd hcovers.2 (Nat.not_lt.mpr hstop)
        · exact houtside l' hl'
  | @image i l links out sign start rest ih =>
    have hne : i ≠ j := by
      rintro rfl
      exact absurd (sign.1.symm.trans hopens.1) (by decide)
    exact (ih (Nat.lt_of_le_of_ne hij hne)).mono (Nat.le_succ i)
  | @char i c links out get _ passed noImage rest ih =>
    have hne : i ≠ j := by
      rintro rfl
      exact hlink (passed hopens)
    exact (ih (Nat.lt_of_le_of_ne hij hne)).mono (Nat.le_succ i)

end Scan

/-! ## Titles without links -/

/-- The links that are replaced in a title: one after the other, and all that are not in a code
span. -/
structure AllLinks (t : Text) (links : List Link) : Prop where
  isLink : ∀ l ∈ links, IsLink t l
  inside : ∀ l ∈ links, l.start < l.stop ∧ l.stop ≤ t.length
  apart : links.Pairwise fun a b => a.stop ≤ b.start
  reached : ∀ i, OpensLink t i → link? (t.drop i) ≠ none → IsHeld t links 0 i

theorem Scan.allLinks (h : Scan t 0 links out) : AllLinks t links where
  isLink l hl := (h.mem l hl).1
  inside l hl := by
    have hlink := (h.mem l hl).1
    exact ⟨Nat.lt_add_of_pos_right hlink.length_pos, hlink.stop_le⟩
  apart := h.pairwise
  reached i := h.isHeld (Nat.zero_le i)

theorem exists_scan (t : Text) : ∃ links, Scan t 0 links (stripLinks t) := by
  have hzero : ¬ Literal t 0 := by
    rintro (h | ⟨-, k, hk, -⟩)
    · exact absurd h (by simp [isEscaped])
    · exact absurd hk (Nat.succ_ne_zero k)
  exact scanned t (Nat.zero_le _) false (by simpa using hzero)

/-- A stripped title is the title with all of its links replaced by their labels, and nothing else
changed but the signs of images. -/
theorem stripLinks_replaces (t : Text) :
    (∃ links, AllLinks t links ∧ stripLinks t = replaced t 0 links) ∧
      (stripLinks t).Sublist t ∧ ('[' ∉ t → stripLinks t = t) := by
  obtain ⟨links, hscan⟩ := exists_scan t
  refine ⟨⟨links, hscan.allLinks, hscan.eq_replaced⟩, hscan.sublist, fun hnone => ?_⟩
  have hnil : links = [] := List.eq_nil_iff_forall_not_mem.mpr fun l hl =>
    hnone (List.mem_of_getElem? (hscan.mem l hl).1.opens.1)
  rw [hscan.eq_replaced, hnil]
  rfl

/-- Code spans, escaped signs and brackets in labels stay as they are. -/
theorem stripLinks_replaces_nested :
    let t := "![a](b) \\![c](d) `[e](f)` [x [y](z) w](<u v> )".toList
    let plain := "b!`(c)".toList
    (∃ links, AllLinks t links ∧
      replaced t 0 links = "a \\![c](d) `[e](f)` x [y](z) w".toList) ∧
    '[' ∉ plain ∧ stripLinks plain = plain := by
  intro t plain
  have hplain : '[' ∉ plain := by decide
  obtain ⟨links, hall, hreplaced⟩ := (stripLinks_replaces t).1
  exact ⟨⟨links, hall, hreplaced.symm.trans (by decide +kernel)⟩, hplain,
    (stripLinks_replaces plain).2.2 hplain⟩

end TaggedOutline.Title
