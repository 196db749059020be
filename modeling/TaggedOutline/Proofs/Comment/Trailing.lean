import TaggedOutline.Comment.Trailing
import TaggedOutline.Proofs.Comment.RoundTrip

/-!
# Where the trailing comment of a line is

A line has no line feed. On it the comment that is found is the one that is removed, and no other
comment opens before it (`exists_of_findFrom?`): an earlier opening could be closed as well. So what
is left of a line holds no opening, and the comment that `update` writes after it is found again
where it was written. Marks that are written over others take their place (`update_update`).
-/

namespace TaggedOutline.Comment

open Text (isBlank IsTrimmed)

/-! ## Openings -/

theorem opening_ne_nil (markup : Markup) : opening markup ≠ [] := by cases markup <;> decide

theorem space_not_mem_opening (markup : Markup) : ' ' ∉ opening markup := by
  cases markup <;> decide

/-- An opening does not go across a space. -/
theorem opening_isPrefix_of_space {markup : Markup} {a t : Text}
    (h : opening markup <+: a ++ ' ' :: t) : opening markup <+: a := by
  obtain ⟨r, hr⟩ := h
  rcases List.append_eq_append_iff.mp hr with ⟨s, hs, -⟩ | ⟨s, hs, hs'⟩
  · exact ⟨s, hs.symm⟩
  · cases s with
    | nil => exact ⟨[], by rw [hs, List.append_nil, List.append_nil]⟩
    | cons c s =>
      have hc : c = ' ' := by simpa using (List.cons.inj hs').1.symm
      exact absurd (by simp [hs, hc]) (space_not_mem_opening markup)

/-! ## Bodies on a line -/

section Body

variable {rest : Text} (hn : '\n' ∉ rest)

include hn

theorem not_mem_of_before? {inside : Text}
    (hb : Text.before? closing (Text.trimEnd rest) = some inside) : '\n' ∉ inside := by
  intro h
  refine hn (Text.mem_of_mem_trimEnd ?_)
  rw [Text.before?_eq_some_iff.mp hb]
  exact List.mem_append_left _ h

/-- On a line a Markdown comment is closed iff only blanks follow the last closing. -/
theorem body?_markdown :
    body? .markdown rest = (Text.before? closing (Text.trimEnd rest)).map (Text.trim ·, 0) := by
  rw [body?, markdownBody?]
  cases hb : Text.before? closing (Text.trimEnd rest) with
  | none => rfl
  | some inside =>
    have hi : '\n' ∉ Text.trim inside := fun h =>
      not_mem_of_before? hn hb (Text.mem_of_mem_trim h)
    simp [hi]

theorem takeWhile_of_no_lineFeed : rest.takeWhile (· ≠ '\n') = rest := by
  rw [List.takeWhile_eq_self_iff]
  intro c hc
  exact decide_eq_true fun e => hn (e ▸ hc)

theorem dropWhile_of_no_lineFeed : rest.dropWhile (· ≠ '\n') = [] := by
  rw [List.dropWhile_eq_nil_iff]
  intro c hc
  exact decide_eq_true fun e => hn (e ▸ hc)

/-- On a line a Typst comment reaches to the end. -/
theorem body?_typst : body? .typst rest = some (Text.trimStart rest, 0) := by
  have hs : '\n' ∉ Text.trimStart rest := fun h => hn (Text.mem_of_mem_trimStart h)
  rw [body?, typstBody?]
  simp only [takeWhile_of_no_lineFeed hs, List.drop_length]

theorem remainder?_eq_map (markup : Markup) :
    remainder? markup rest = (body? markup rest).map fun _ => [] := by
  cases markup with
  | markdown =>
    rw [body?_markdown hn, remainder?]
    cases hb : Text.before? closing (Text.trimEnd rest) with
    | none => rfl
    | some inside =>
      have hi : '\n' ∉ Text.trimStart inside := fun h =>
        not_mem_of_before? hn hb (Text.mem_of_mem_trimStart h)
      simp [hi]
  | typst =>
    rw [body?_typst hn, remainder?, dropWhile_of_no_lineFeed hn]
    rfl

theorem body?_offset {markup : Markup} {body : Text} {left : Nat}
    (h : body? markup rest = some (body, left)) : left = 0 := by
  cases markup with
  | markdown =>
    rw [body?_markdown hn, Option.map_eq_some_iff] at h
    obtain ⟨inside, -, h⟩ := h
    exact (Prod.mk.inj h).2.symm
  | typst =>
    rw [body?_typst hn, Option.some.injEq] at h
    exact (Prod.mk.inj h).2.symm

end Body

/-- A comment that can be closed can be closed from further left. -/
theorem body?_append_isSome {markup : Markup} {p rest : Text} (hn : '\n' ∉ p ++ rest)
    (h : (body? markup rest).isSome) : (body? markup (p ++ rest)).isSome := by
  have hr : '\n' ∉ rest := fun h => hn (List.mem_append_right p h)
  cases markup with
  | markdown =>
    rw [body?_markdown hr, Option.isSome_map] at h
    rw [body?_markdown hn, Option.isSome_map]
    obtain ⟨inside, hi⟩ := Option.isSome_iff_exists.mp h
    have hclose := Text.before?_eq_some_iff.mp hi
    have hsolid : ∃ c ∈ rest, isBlank c = false :=
      ⟨'>', Text.mem_of_mem_trimEnd (by rw [hclose]; simp [closing]), rfl⟩
    rw [Text.trimEnd_append hsolid, hclose, ← List.append_assoc, Text.before?_append]
    rfl
  | typst => rw [body?_typst hn]; rfl

/-- Where a comment can be closed it can be removed. -/
theorem bind_remainder? {markup : Markup} {t : Text} (hn : '\n' ∉ t) :
    (Text.after? (opening markup) t).bind (remainder? markup) =
      ((Text.after? (opening markup) t).bind (body? markup)).map fun _ => [] := by
  cases ha : Text.after? (opening markup) t with
  | none => rfl
  | some rest =>
    have hr : '\n' ∉ rest := by
      intro h
      refine hn ?_
      rw [Text.after?_eq_some_iff.mp ha]
      exact List.mem_append_right _ h
    exact remainder?_eq_map hr markup

/-! ## Finding and removing -/

/-- The comment of a line: it is found wherever the offsets start from, it is what is removed, and
nothing before it opens a comment. -/
theorem exists_of_findFrom? {markup : Markup} {start : Nat} {t : Text} {f : Found} (hn : '\n' ∉ t)
    (h : findFrom? markup start t = some f) :
    ∃ a rest body, t = a ++ (opening markup ++ rest) ∧ ¬ opening markup <:+: a ∧
      body? markup rest = some (body, 0) ∧ cut? markup t = some (a, []) ∧
      ∀ k, findFrom? markup k t = some ⟨k + a.length, k + t.length, body⟩ := by
  induction t generalizing start with
  | nil =>
    have hnone : Text.after? (opening markup) [] = none := by cases markup <;> rfl
    rw [findFrom?, hnone] at h
    exact absurd h (by simp)
  | cons c r ih =>
    have hr : '\n' ∉ r := fun h => hn (List.mem_cons_of_mem c h)
    cases hb : (Text.after? (opening markup) (c :: r)).bind (body? markup) with
    | some found =>
      obtain ⟨body, left⟩ := found
      obtain ⟨rest, hrest, hbody⟩ := Option.bind_eq_some_iff.mp hb
      have ht := Text.after?_eq_some_iff.mp hrest
      have hnr : '\n' ∉ rest := fun h => hn (by rw [ht]; exact List.mem_append_right _ h)
      obtain rfl := body?_offset hnr hbody
      refine ⟨[], rest, body, ht, ?_, hbody, ?_, fun k => ?_⟩
      · rw [List.infix_nil]
        exact opening_ne_nil markup
      · rw [cut?, bind_remainder? hn, hb]
        rfl
      · rw [findFrom?, hb]
        rfl
    | none =>
      have hstep (k : Nat) : findFrom? markup k (c :: r) = findFrom? markup (k + 1) r := by
        rw [findFrom?, hb]
      rw [hstep] at h
      obtain ⟨a, rest, body, ht, hopen, hbody, hcut, hfind⟩ := ih hr h
      refine ⟨c :: a, rest, body, by rw [ht]; rfl, ?_, hbody, ?_, fun k => ?_⟩
      · -- An opening at the front would be closed where the one that was found is.
        rw [List.infix_cons_iff]
        rintro (hc | hc)
        · obtain ⟨s, hs⟩ := hc
          have hcr : c :: r = opening markup ++ (s ++ (opening markup ++ rest)) := by
            rw [ht, ← List.cons_append, ← hs, List.append_assoc]
          have hn' : '\n' ∉ (s ++ opening markup) ++ rest := by
            intro h
            refine hn ?_
            rw [hcr]
            exact List.mem_append_right _ (by simpa using h)
          have hsome := body?_append_isSome hn' (by rw [hbody]; rfl)
          rw [hcr, Text.after?_append, Option.bind_some, ← List.append_assoc] at hb
          rw [hb] at hsome
          exact absurd hsome (by simp)
        · exact hopen hc
      · rw [cut?, bind_remainder? hn, hb]
        simp only [Option.map_none, hcut, Option.map_some]
      · rw [hstep, hfind, List.length_cons, List.length_cons, Nat.add_assoc k 1,
          Nat.add_comm 1, Nat.add_assoc k 1, Nat.add_comm 1]

theorem cut?_eq_none {markup : Markup} {start : Nat} {t : Text} (hn : '\n' ∉ t)
    (h : findFrom? markup start t = none) : cut? markup t = none := by
  induction t generalizing start with
  | nil =>
    have hnone : Text.after? (opening markup) [] = none := by cases markup <;> rfl
    rw [cut?, hnone]
    rfl
  | cons c r ih =>
    unfold findFrom? at h
    cases hb : (Text.after? (opening markup) (c :: r)).bind (body? markup) with
    | some found => simp [hb] at h
    | none =>
      simp only [hb] at h
      rw [cut?, bind_remainder? hn, hb]
      simp only [Option.map_none, ih (fun h => hn (List.mem_cons_of_mem c h)) h]

/-- No comment is found iff none of the openings goes on with a body. -/
theorem findFrom?_eq_none_iff {markup : Markup} {start : Nat} {t : Text} :
    findFrom? markup start t = none ↔
      ∀ a rest, t = a ++ (opening markup ++ rest) → body? markup rest = none := by
  induction t generalizing start with
  | nil =>
    have hnone : Text.after? (opening markup) [] = none := by cases markup <;> rfl
    rw [findFrom?, hnone]
    refine iff_of_true rfl fun a rest h => ?_
    have hopen := (List.append_eq_nil_iff.mp (List.append_eq_nil_iff.mp h.symm).2).1
    exact absurd hopen (opening_ne_nil markup)
  | cons c r ih =>
    unfold findFrom?
    constructor
    · intro h a rest ht
      cases hb : (Text.after? (opening markup) (c :: r)).bind (body? markup) with
      | some found => simp [hb] at h
      | none =>
        simp only [hb] at h
        cases a with
        | nil =>
          rw [ht, List.nil_append, Text.after?_append, Option.bind_some] at hb
          exact hb
        | cons x a => exact ih.mp h a rest (List.cons.inj ht).2
    · intro h
      cases hb : (Text.after? (opening markup) (c :: r)).bind (body? markup) with
      | some found =>
        obtain ⟨rest, hrest, hbody⟩ := Option.bind_eq_some_iff.mp hb
        have hsplit : c :: r = opening markup ++ rest := Text.after?_eq_some_iff.mp hrest
        have hnone := h [] rest hsplit
        rw [hnone] at hbody
        exact absurd hbody (by simp)
      | none => exact ih.mpr fun a rest ht => h (c :: a) rest (by rw [ht]; rfl)

/-- A text without a comment has none either when its end is trimmed. -/
theorem find?_trimEnd {markup : Markup} {t : Text} (hn : '\n' ∉ t) (h : find? markup t = none) :
    find? markup (Text.trimEnd t) = none := by
  obtain ⟨b, hb, hblank⟩ := Text.exists_trimEnd_append t
  refine findFrom?_eq_none_iff.mpr fun a rest ht => ?_
  have hsplit : t = a ++ (opening markup ++ (rest ++ b)) := by
    conv_lhs => rw [hb, ht]
    simp
  have hnone := findFrom?_eq_none_iff.mp h a (rest ++ b) hsplit
  have hnb : '\n' ∉ rest ++ b := fun h => hn (by rw [hsplit]; simp [List.mem_append.mp h])
  have hnr : '\n' ∉ rest := fun h => hnb (List.mem_append_left b h)
  cases markup with
  | markdown =>
    rw [body?_markdown hnb, Text.trimEnd_append_of_blank hblank] at hnone
    rwa [body?_markdown hnr]
  | typst =>
    rw [body?_typst hnb] at hnone
    exact absurd hnone (by simp)

/-- A text without a comment has none either when its start is trimmed. -/
theorem find?_trimStart {markup : Markup} {t : Text} (h : find? markup t = none) :
    find? markup (Text.trimStart t) = none := by
  obtain ⟨b, hb, -⟩ := Text.exists_append_trimStart t
  refine findFrom?_eq_none_iff.mpr fun a rest ht => ?_
  refine findFrom?_eq_none_iff.mp h (b ++ a) rest ?_
  rw [List.append_assoc, ← ht]
  exact hb

theorem find?_trim {markup : Markup} {t : Text} (hn : '\n' ∉ t) (h : find? markup t = none) :
    find? markup (Text.trim t) = none :=
  find?_trimEnd (fun hm => hn (Text.mem_of_mem_trimStart hm)) (find?_trimStart h)

theorem not_isPrefix_of_head {markup : Markup} {c : Char} (h : (opening markup).head? ≠ some c)
    (t : Text) : ¬ opening markup <+: c :: t := by
  rintro ⟨s, hs⟩
  refine h ?_
  cases markup <;> exact congrArg List.head? hs

/-- Characters that no opening begins with do not make one with what follows them. -/
theorem isInfix_append_iff {markup : Markup} {a t : Text}
    (h : ∀ c ∈ a, (opening markup).head? ≠ some c) :
    opening markup <:+: a ++ t ↔ opening markup <:+: t := by
  induction a with
  | nil => rfl
  | cons c a ih =>
    rw [List.cons_append, List.infix_cons_iff, ih fun x hx => h x (List.mem_cons_of_mem c hx)]
    exact or_iff_right (not_isPrefix_of_head (h c List.mem_cons_self) _)

/-- A text without an opening, and a space after it, are passed over. -/
theorem findFrom?_spaced {markup : Markup} {a : Text} (h : ¬ opening markup <:+: a) (start : Nat)
    (t : Text) :
    findFrom? markup start (a ++ ' ' :: t) = findFrom? markup (start + a.length + 1) t := by
  induction a generalizing start with
  | nil =>
    have hnone : Text.after? (opening markup) (' ' :: t) = none := by
      rw [Text.after?_eq_none_iff]
      exact fun h => absurd (List.prefix_nil.mp (opening_isPrefix_of_space (a := []) h))
        (opening_ne_nil markup)
    rw [List.nil_append, findFrom?, hnone]
    rfl
  | cons c r ih =>
    have hnone : Text.after? (opening markup) (c :: (r ++ ' ' :: t)) = none := by
      rw [Text.after?_eq_none_iff]
      exact fun hc => h (opening_isPrefix_of_space (a := c :: r) hc).isInfix
    rw [List.cons_append, findFrom?, hnone]
    simp only [Option.bind_none]
    rw [ih fun hr => h (List.infix_cons_iff.mpr (.inr hr)), List.length_cons,
      Nat.add_right_comm start 1, Nat.add_assoc start]

/-- A comment that stands at the front is found there. -/
theorem findFrom?_opening {markup : Markup} {rest body : Text}
    (h : body? markup rest = some (body, 0)) (start : Nat) :
    findFrom? markup start (opening markup ++ rest) =
      some ⟨start, start + (opening markup ++ rest).length, body⟩ := by
  unfold findFrom?
  simp only [Text.after?_append, Option.bind_some, h, Nat.sub_zero]

/-- Characters that no opening begins with are passed over. -/
theorem findFrom?_append {markup : Markup} {a : Text} (h : ∀ c ∈ a, (opening markup).head? ≠ some c)
    (start : Nat) (t : Text) :
    findFrom? markup start (a ++ t) = findFrom? markup (start + a.length) t := by
  induction a generalizing start with
  | nil => rfl
  | cons c r ih =>
    have hnone : Text.after? (opening markup) (c :: (r ++ t)) = none := by
      rw [Text.after?_eq_none_iff]
      exact not_isPrefix_of_head (h c List.mem_cons_self) _
    rw [List.cons_append, findFrom?, hnone]
    simp only [Option.bind_none]
    rw [ih fun x hx => h x (List.mem_cons_of_mem c hx), List.length_cons,
      Nat.add_right_comm start 1, Nat.add_assoc start]

theorem find?_append_eq_none_iff {markup : Markup} {a t : Text}
    (h : ∀ c ∈ a, (opening markup).head? ≠ some c) :
    find? markup (a ++ t) = none ↔ find? markup t = none := by
  rw [find?, findFrom?_append h, findFrom?_eq_none_iff, find?, findFrom?_eq_none_iff]

/-- What is left of a line with a comment is what precedes the comment. -/
theorem strip_of_find? {markup : Markup} {line : Text} {f : Found} (hn : '\n' ∉ line)
    (h : find? markup line = some f) : strip markup line = Text.trimEnd (line.take f.start) := by
  obtain ⟨a, rest, body, ht, -, -, hcut, hfind⟩ := exists_of_findFrom? hn h
  obtain rfl : ⟨0 + a.length, 0 + line.length, body⟩ = f := Option.some.inj ((hfind 0).symm.trans h)
  rw [strip, hcut]
  simp only [List.append_nil, Nat.zero_add]
  rw [ht, List.take_left]

theorem strip_of_find?_eq_none {markup : Markup} {line : Text} (hn : '\n' ∉ line)
    (h : find? markup line = none) : strip markup line = line := by
  rw [strip, cut?_eq_none hn h]

/-! ## Writing -/

/-- The text of a comment after its opening. -/
def wrapped : Markup → Text → Text
  | .markdown, body => ' ' :: (body ++ ' ' :: closing)
  | .typst, body => ' ' :: body

theorem wrap_eq (markup : Markup) (body : Text) :
    wrap markup body = opening markup ++ wrapped markup body := by
  cases markup <;> simp [wrap, wrapped]

/-- The body of a comment is read as it was written. -/
theorem body?_wrapped {body : Text} (hb : IsTrimmed body) (hn : '\n' ∉ body) (markup : Markup) :
    body? markup (wrapped markup body) = some (body, 0) := by
  have hspace : ∀ c ∈ [' '], isBlank c := fun _ => Text.isBlank_of_mem_space
  cases markup with
  | markdown =>
    have hline : '\n' ∉ wrapped .markdown body := by simp [wrapped, closing, hn]
    have hsplit : wrapped .markdown body = ([' '] ++ body ++ [' ']) ++ closing := by
      simp [wrapped]
    have hend : Text.trimEnd (wrapped .markdown body) = wrapped .markdown body := by
      refine Text.trimEnd_of_getLast fun c hc => ?_
      rw [hsplit, List.getLast?_append] at hc
      have : c = '>' := by simpa [closing] using hc.symm
      rw [this]
      rfl
    rw [body?_markdown hline, hend, hsplit, Text.before?_append, Option.map_some,
      Text.trim_append_of_blank hspace, Text.trim_blank_append hspace, Text.trim_of_isTrimmed hb]
  | typst =>
    have hline : '\n' ∉ wrapped .typst body := by simp [wrapped, hn]
    rw [body?_typst hline, show wrapped .typst body = [' '] ++ body from rfl,
      Text.trimStart_append_of_blank hspace, Text.trimStart_of_head hb.1]

theorem wrap_ne_nil (markup : Markup) (body : Text) : wrap markup body ≠ [] := by
  rw [wrap_eq]
  exact List.append_ne_nil_of_left_ne_nil (opening_ne_nil markup) _

theorem lineFeed_not_mem_wrap {markup : Markup} {body : Text} (h : '\n' ∉ body) :
    '\n' ∉ wrap markup body := by
  cases markup <;> simp [wrap, opening, closing, h]

theorem getLast?_wrap {markup : Markup} {body : Text} (hb : body ≠ []) (ht : IsTrimmed body) :
    ∀ c ∈ (wrap markup body).getLast?, isBlank c = false := by
  intro c hc
  cases markup with
  | markdown =>
    rw [wrap, List.getLast?_append_of_ne_nil _ (by decide)] at hc
    have h : c = '>' := by simpa [closing] using hc.symm
    rw [h]
    rfl
  | typst =>
    rw [wrap, List.getLast?_append_of_ne_nil _ hb] at hc
    exact ht.2 c hc

/-- The comment is written after a space, and nothing is trimmed from its end. -/
theorem update_eq {markup : Markup} {line : Text} {m : Marks} (hm : m.encode ≠ [])
    (ht : IsTrimmed m.encode) :
    update markup line m =
      Text.trimEnd (strip markup line) ++ ' ' :: wrap markup m.encode := by
  unfold update
  simp only [if_neg hm]
  rw [Text.trimEnd_of_getLast, List.append_assoc]
  · rfl
  · intro c hc
    rw [List.getLast?_append_of_ne_nil _ (wrap_ne_nil markup _)] at hc
    exact getLast?_wrap hm ht c hc

/-- The changed line does not end with a blank. -/
theorem getLast?_update (markup : Markup) (line : Text) (m : Marks) :
    ∀ c ∈ (update markup line m).getLast?, isBlank c = false := by
  unfold update
  simp only
  split
  · exact Text.getLast?_trimEnd _
  · exact Text.getLast?_trimEnd _

theorem lineFeed_not_mem_strip {markup : Markup} {line : Text} (hn : '\n' ∉ line) :
    '\n' ∉ strip markup line := by
  cases hf : find? markup line with
  | some f =>
    rw [strip_of_find? hn hf]
    exact fun h => hn (List.mem_of_mem_take (Text.mem_of_mem_trimEnd h))
  | none => rwa [strip_of_find?_eq_none hn hf]

theorem lineFeed_not_mem_update {line : Text} {m : Marks} (hn : '\n' ∉ line)
    (hm : '\n' ∉ m.encode) (markup : Markup) : '\n' ∉ update markup line m := by
  have hbase : '\n' ∉ Text.trimEnd (strip markup line) := fun h =>
    lineFeed_not_mem_strip hn (Text.mem_of_mem_trimEnd h)
  unfold update
  simp only
  split
  · exact hbase
  · intro h
    rcases List.mem_append.mp (Text.mem_of_mem_trimEnd h) with h | h
    · rcases List.mem_append.mp h with h | h
      · exact hbase h
      · exact absurd h (by decide)
    · exact lineFeed_not_mem_wrap hm h

/-- The line feeds of a changed line are those of the marks. -/
theorem count_lineFeed_update {line : Text} {m : Marks} (hn : '\n' ∉ line)
    (ht : IsTrimmed m.encode) (markup : Markup) :
    (update markup line m).count '\n' = m.encode.count '\n' := by
  have hbase : (Text.trimEnd (strip markup line)).count '\n' = 0 :=
    List.count_eq_zero.mpr fun h => lineFeed_not_mem_strip hn (Text.mem_of_mem_trimEnd h)
  by_cases hne : m.encode = []
  · have hupdate : update markup line m = Text.trimEnd (strip markup line) := by
      unfold update
      simp only [if_pos hne]
    rw [hupdate, hbase, hne]
    rfl
  · have hwrap (body : Text) : (wrap markup body).count '\n' = body.count '\n' := by
      cases markup <;> simp [wrap, opening, closing]
    rw [update_eq hne ht, List.count_append, hbase, List.count_cons_of_ne (by decide), hwrap,
      Nat.zero_add]

/-! ## Writing again -/

section Again

variable {markup : Markup} {line : Text} {m m' : Marks} (hn : '\n' ∉ line)

include hn

/-- What is left of a line holds no comment. -/
theorem find?_strip : find? markup (strip markup line) = none := by
  cases hf : find? markup line with
  | none => rwa [strip_of_find?_eq_none hn hf]
  | some f =>
    obtain ⟨a, rest, body, hline, hopen, -, hcut, -⟩ := exists_of_findFrom? hn hf
    have hstrip : strip markup line = Text.trimEnd a := by
      rw [strip, hcut]
      exact List.append_nil _
    rw [hstrip]
    refine findFrom?_eq_none_iff.mpr fun b tail hb => absurd ?_ hopen
    exact (List.infix_append' b _ tail).trans (hb ▸ (Text.trimEnd_isPrefix a).isInfix)

variable (hm : m.Clean) (hopen : m.encode ≠ [] → ¬ opening markup <:+: strip markup line)

include hm hopen

/-- Nothing of the marks is left when they are removed again. -/
theorem trimEnd_strip_update :
    Text.trimEnd (strip markup (update markup line m)) = Text.trimEnd (strip markup line) := by
  have hfeed : '\n' ∉ update markup line m :=
    lineFeed_not_mem_update hn hm.lineFeed_not_mem_encode markup
  by_cases hne : m.encode = []
  · have hupdate : update markup line m = Text.trimEnd (strip markup line) := by
      unfold update
      simp only [if_pos hne]
    have hnone : find? markup (update markup line m) = none := by
      rw [hupdate]
      exact find?_trimEnd (lineFeed_not_mem_strip hn) (find?_strip hn)
    rw [strip_of_find?_eq_none hfeed hnone, hupdate, Text.trimEnd_trimEnd]
  · have hbase : ¬ opening markup <:+: Text.trimEnd (strip markup line) := fun h =>
      hopen hne (h.trans (Text.trimEnd_isPrefix _).isInfix)
    have hbody := body?_wrapped hm.isTrimmed_encode hm.lineFeed_not_mem_encode markup
    have hupdate : update markup line m =
        Text.trimEnd (strip markup line) ++ ' ' :: wrap markup m.encode :=
      update_eq hne hm.isTrimmed_encode
    have hend := Text.trimEnd_trimEnd (strip markup line)
    generalize Text.trimEnd (strip markup line) = base at hbase hupdate hend ⊢
    have hfound : find? markup (update markup line m) =
        some ⟨base.length + 1, base.length + 1 + (wrap markup m.encode).length, m.encode⟩ := by
      rw [hupdate, wrap_eq, find?, findFrom?_spaced hbase, findFrom?_opening hbody, Nat.zero_add]
    have hcut : (base ++ ' ' :: wrap markup m.encode).take (base.length + 1) = base ++ [' '] := by
      rw [List.append_cons, List.take_left' (by simp)]
    rw [strip_of_find? hfeed hfound, hupdate, hcut,
      Text.trimEnd_append_of_blank fun _ => Text.isBlank_of_mem_space, hend, hend]

/-- Marks take the place of those that were written before them. -/
theorem update_update : update markup (update markup line m) m' = update markup line m' := by
  rw [update, trimEnd_strip_update hn hm hopen, ← update]

end Again

end TaggedOutline.Comment
