import TaggedOutline.Comment.Marks
import TaggedOutline.Proofs.Comment.Escape

/-!
# Marks are read as they were written

1. A written tag is a word without a double colon, so the first double colon of a body opens its
   remark (`findRemark?_append`), and the next one closes it (`closeRemark?_append`).
2. What precedes the remark are the tag words with a space after each, so they are read back.
3. Marks are `Clean` if they look as a body of a comment can hold them. Clean marks are read as they
   were written (`decode_encode_of_clean`); all others are written as if they were trimmed first.
-/

namespace TaggedOutline.Marks

open Text (IsWord IsTrimmed spaced)
open Comment (NoDoubleColon noDoubleColon_nil noDoubleColon_cons noDoubleColon_append
  noDoubleColon_escape)

/-! ## The remark of a body -/

theorem closeRemark?_cons {c : Char} {r : Text} (h : c = ':' → r.head? ≠ some ':') :
    closeRemark? (c :: r) =
      if c = '\n' then none else (closeRemark? r).map fun (a, b) => (c :: a, b) := by
  rw [closeRemark?]
  rintro s rfl rfl
  exact h rfl rfl

theorem getLast?_of_cons {c x : Char} {r : Text} (h : (c :: r).getLast? ≠ some x) :
    r.getLast? ≠ some x := by
  intro hr
  refine h ?_
  rw [List.getLast?_cons, hr]
  rfl

/-- A text that does not end with a colon has no double colon at its end whatever follows. -/
theorem head?_append_of_getLast? {c : Char} {r : Text} (hc : c = ':' → r.head? ≠ some ':')
    (hl : (c :: r).getLast? ≠ some ':') (b : Text) : c = ':' → (r ++ b).head? ≠ some ':' := by
  intro h
  cases r with
  | nil => exact absurd (by simp [h]) hl
  | cons x s => exact hc h

/-- A remark ends at the first double colon. -/
theorem closeRemark?_append {a : Text} (ha : NoDoubleColon a) (hl : a.getLast? ≠ some ':')
    (hn : '\n' ∉ a) (b : Text) : closeRemark? (a ++ ':' :: ':' :: b) = some (a, b) := by
  induction a with
  | nil => rfl
  | cons c r ih =>
    obtain ⟨hc, hr⟩ := noDoubleColon_cons.mp ha
    have hhead := head?_append_of_getLast? hc hl (':' :: ':' :: b)
    rw [List.cons_append, closeRemark?_cons hhead, if_neg fun h => hn (by simp [h]),
      ih hr (getLast?_of_cons hl) fun h => hn (List.mem_cons_of_mem c h)]
    rfl

theorem after?_doubleColon {c : Char} {r : Text} (h : c = ':' → r.head? ≠ some ':') :
    Text.after? [':', ':'] (c :: r) = none := by
  unfold Text.after?
  by_cases hc : c = ':'
  · cases r with
    | nil => simp [List.isPrefixOf?]
    | cons x s =>
      have hx : ':' ≠ x := fun e => h hc (by rw [← e]; rfl)
      simp [List.isPrefixOf?, hx]
  · have hc' : ':' ≠ c := fun e => hc e.symm
    simp [List.isPrefixOf?, hc']

theorem findRemark?_cons {c : Char} {r : Text} (h : c = ':' → r.head? ≠ some ':') :
    findRemark? (c :: r) = (findRemark? r).map fun (a, b) => (c :: a, b) := by
  rw [findRemark?, after?_doubleColon h]
  rfl

theorem findRemark?_eq_none {t : Text} (h : NoDoubleColon t) : findRemark? t = none := by
  induction t with
  | nil => rfl
  | cons c r ih =>
    obtain ⟨hc, hr⟩ := noDoubleColon_cons.mp h
    rw [findRemark?_cons hc, ih hr]
    rfl

/-- A remark begins at the first double colon if it ends anywhere. -/
theorem findRemark?_append {a : Text} (ha : NoDoubleColon a) (hl : a.getLast? ≠ some ':')
    {b inside rest : Text} (h : closeRemark? b = some (inside, rest)) :
    findRemark? (a ++ ':' :: ':' :: b) = some (a, inside, rest) := by
  induction a with
  | nil =>
    rw [List.nil_append, findRemark?]
    simp [Text.after?, List.isPrefixOf?, h]
  | cons c r ih =>
    obtain ⟨hc, hr⟩ := noDoubleColon_cons.mp ha
    have hhead := head?_append_of_getLast? hc hl (':' :: ':' :: b)
    rw [List.cons_append, findRemark?_cons hhead, ih hr (getLast?_of_cons hl)]
    rfl

/-! ## Tag words -/

theorem isWord_tagWord {t : Text} (h : IsWord t) : IsWord (tagWord t) := by
  refine ⟨by simp [tagWord], fun c hc => ?_⟩
  rcases List.mem_cons.mp hc with rfl | hc
  · rfl
  · exact (Comment.isWord_escape h).2 c hc

theorem noDoubleColon_tagWord (t : Text) : NoDoubleColon (tagWord t) :=
  noDoubleColon_cons.mpr ⟨fun h => absurd h (by decide), noDoubleColon_escape t⟩

theorem tagOfWord?_tagWord {t : Text} (h : t ≠ []) : tagOfWord? (tagWord t) = some t := by
  have hu := Comment.unescape_escape t
  unfold tagWord
  cases he : Comment.escape t with
  | nil => exact absurd (Comment.escapeFrom_eq_nil_iff.mp he) h
  | cons c r => rw [tagOfWord?, ← he, hu]

theorem filterMap_tagWord {ts : List Text} (h : ∀ t ∈ ts, t ≠ []) :
    (ts.map tagWord).filterMap tagOfWord? = ts := by
  induction ts with
  | nil => rfl
  | cons t ts ih =>
    rw [List.map_cons, List.filterMap_cons_some (tagOfWord?_tagWord (h t List.mem_cons_self)),
      ih fun x hx => h x (List.mem_cons_of_mem t hx)]

/-! ## Spaced words -/

theorem getLast?_spaced (ws : List Text) : (spaced ws).getLast? ≠ some ':' := by
  rcases List.eq_nil_or_concat ws with rfl | ⟨l, t, rfl⟩
  · simp [spaced]
  · have hs : spaced (l.concat t) = (spaced l ++ t) ++ [' '] := by
      simp [spaced, List.concat_eq_append]
    rw [hs, List.getLast?_concat]
    decide

theorem noDoubleColon_spaced {ws : List Text} (h : ∀ w ∈ ws, NoDoubleColon w) :
    NoDoubleColon (spaced ws) := by
  induction ws with
  | nil => exact noDoubleColon_nil
  | cons w ws ih =>
    have hs : spaced (w :: ws) = w ++ ' ' :: spaced ws := by simp [spaced]
    rw [hs]
    refine noDoubleColon_append (h w List.mem_cons_self) ?_ (by simp)
    exact noDoubleColon_cons.mpr
      ⟨fun e => absurd e (by decide), ih fun x hx => h x (List.mem_cons_of_mem w hx)⟩

theorem noDoubleColon_unwords {ws : List Text} (h : ∀ w ∈ ws, NoDoubleColon w) :
    NoDoubleColon (Text.unwords ws) := by
  rcases List.eq_nil_or_concat ws with rfl | ⟨l, t, rfl⟩
  · exact noDoubleColon_nil
  · rw [List.concat_eq_append] at h ⊢
    rw [Text.unwords_concat]
    exact noDoubleColon_append (noDoubleColon_spaced fun w hw => h w (List.mem_append_left _ hw))
      (h t (by simp)) fun e => absurd e (getLast?_spaced l)

/-! ## Clean marks -/

/-- Marks as the body of a comment can hold them. -/
structure Clean (m : Marks) : Prop where
  tags : ∀ t ∈ m.tags, IsWord t
  remark : ∀ r ∈ m.remark, r ≠ [] ∧ IsTrimmed r ∧ '\n' ∉ r

theorem nonEmpty?_of_ne_nil {t : Text} (h : t ≠ []) : nonEmpty? t = some t := if_neg h

theorem trimmedTags_of_isTrimmed {ts : List Text} (h : ∀ t ∈ ts, t ≠ [] ∧ IsTrimmed t) :
    trimmedTags ts = ts := by
  have hm : ts.map Text.trim = ts := by
    conv_rhs => rw [← List.map_id ts]
    exact List.map_congr_left fun t ht => Text.trim_of_isTrimmed (h t ht).2
  unfold trimmedTags
  rw [hm, List.filter_eq_self]
  exact fun t ht => decide_eq_true (h t ht).1

theorem trimmedTags_of_isWord {ts : List Text} (h : ∀ t ∈ ts, IsWord t) : trimmedTags ts = ts :=
  trimmedTags_of_isTrimmed fun t ht => ⟨(h t ht).1, (h t ht).isTrimmed⟩

theorem trimmedRemark_of_isTrimmed {remark : Option Text}
    (h : ∀ r ∈ remark, r ≠ [] ∧ IsTrimmed r) : trimmedRemark remark = remark := by
  cases hr : remark with
  | none => rfl
  | some r =>
    obtain ⟨hne, ht⟩ := h r hr
    rw [trimmedRemark, Option.bind_some, Text.trim_of_isTrimmed ht, nonEmpty?_of_ne_nil hne]

theorem Clean.trimmedRemark_eq {m : Marks} (h : m.Clean) : trimmedRemark m.remark = m.remark :=
  trimmedRemark_of_isTrimmed fun r hr => ⟨(h.remark r hr).1, (h.remark r hr).2.1⟩

/-- The space and the escaped remark between two double colons. -/
theorem closeRemark?_remark {r : Text} (hn : '\n' ∉ r) :
    closeRemark? (' ' :: Comment.escape r ++ [' ', ':', ':']) =
      some (' ' :: Comment.escape r ++ [' '], []) := by
  have hsplit : ' ' :: Comment.escape r ++ [' ', ':', ':'] =
      (' ' :: Comment.escape r ++ [' ']) ++ ':' :: ':' :: [] := by simp
  rw [hsplit]
  refine closeRemark?_append ?_ ?_ ?_ []
  · refine noDoubleColon_append (noDoubleColon_cons.mpr ⟨fun e => absurd e (by decide),
      noDoubleColon_escape r⟩) (noDoubleColon_cons.mpr ⟨by simp, noDoubleColon_nil⟩) (by simp)
  · rw [List.getLast?_concat]
    decide
  · intro h
    have hr : '\n' ∈ Comment.escape r := by simpa using h
    exact (Comment.mem_escapeFrom hr).elim (fun e => absurd e (by decide)) hn

/-- Clean marks are read as they were written. -/
theorem decode_encode_of_clean {m : Marks} (h : m.Clean) : decode m.encode = m := by
  have hne : ∀ t ∈ m.tags, t ≠ [] := fun t ht => (h.tags t ht).1
  have hwords : ∀ w ∈ m.tags.map tagWord, IsWord w := by
    intro w hw
    obtain ⟨t, ht, rfl⟩ := List.mem_map.mp hw
    exact isWord_tagWord (h.tags t ht)
  have hcolons : ∀ w ∈ m.tags.map tagWord, NoDoubleColon w := by
    intro w hw
    obtain ⟨t, -, rfl⟩ := List.mem_map.mp hw
    exact noDoubleColon_tagWord t
  unfold encode
  rw [trimmedTags_of_isWord h.tags, h.trimmedRemark_eq]
  rcases m with ⟨tags, remark⟩
  cases remark with
  | none =>
    have hnone := findRemark?_eq_none (noDoubleColon_unwords hcolons)
    simp only [Option.map_none, Option.toList_none, List.append_nil]
    rw [decode, hnone]
    simp only
    rw [Text.words_unwords hwords, filterMap_tagWord hne]
  | some r =>
    obtain ⟨hr, htrim, hn⟩ := h.remark r rfl
    have hbody : Text.unwords (tags.map tagWord ++ ((some r).map remarkSpan).toList) =
        spaced (tags.map tagWord) ++
          ':' :: ':' :: (' ' :: Comment.escape r ++ [' ', ':', ':']) :=
      Text.unwords_concat (tags.map tagWord) (remarkSpan r)
    have hfind := findRemark?_append (noDoubleColon_spaced hcolons) (getLast?_spaced _)
      (closeRemark?_remark hn)
    have hinside : Text.trim (' ' :: Comment.escape r ++ [' ']) = Comment.escape r := by
      have hspace : ∀ c ∈ [' '], Text.isBlank c := fun _ => Text.isBlank_of_mem_space
      rw [Text.trim_append_of_blank hspace]
      exact (Text.trim_blank_append hspace _).trans
        (Text.trim_of_isTrimmed (Comment.isTrimmed_escape htrim))
    have hwordsOf : Text.words (spaced (tags.map tagWord) ++ []) = tags.map tagWord := by
      rw [Text.words_spaced_append hwords, Text.words_nil, List.append_nil]
    rw [hbody, decode, hfind]
    simp only
    rw [hwordsOf, filterMap_tagWord hne, hinside, Comment.unescape_escape, nonEmpty?_of_ne_nil hr]

/-! ## The written form of clean marks -/

theorem isTrimmed_remarkSpan (r : Text) : IsTrimmed (remarkSpan r) := by
  unfold remarkSpan
  refine ⟨?_, ?_⟩
  · intro c hc
    have h : c = ':' := by simpa using hc.symm
    rw [h]
    rfl
  · intro c hc
    rw [List.getLast?_append_of_ne_nil _ (by decide)] at hc
    have h : c = ':' := by simpa using hc.symm
    rw [h]
    rfl

section Encode

variable {m : Marks} (htags : ∀ t ∈ m.tags, IsWord t)

include htags

/-- The tag words and the remark, which the written form of marks consists of. -/
theorem encode_eq : m.encode =
    Text.unwords (m.tags.map tagWord ++ ((trimmedRemark m.remark).map remarkSpan).toList) := by
  rw [encode, trimmedTags_of_isWord htags]

theorem isTrimmed_encode : IsTrimmed m.encode := by
  rw [encode_eq htags]
  refine Text.isTrimmed_unwords fun w hw => ?_
  rcases List.mem_append.mp hw with hw | hw
  · obtain ⟨t, ht, rfl⟩ := List.mem_map.mp hw
    exact ⟨by simp [tagWord], (isWord_tagWord (htags t ht)).isTrimmed⟩
  · obtain ⟨r, -, rfl⟩ := Option.map_eq_some_iff.mp (Option.mem_toList.mp hw)
    exact ⟨by simp [remarkSpan], isTrimmed_remarkSpan r⟩

/-- The line feeds of the written form are those of the remark. -/
theorem count_lineFeed_encode :
    m.encode.count '\n' = ((trimmedRemark m.remark).getD []).count '\n' := by
  have hwords : (m.tags.map tagWord).flatten.count '\n' = 0 := by
    refine List.count_eq_zero.mpr fun hfeed => ?_
    obtain ⟨w, hw, hfeed⟩ := List.mem_flatten.mp hfeed
    obtain ⟨t, ht, rfl⟩ := List.mem_map.mp hw
    exact absurd ((isWord_tagWord (htags t ht)).2 _ hfeed) (by decide)
  rw [encode_eq htags, Text.count_unwords (by decide), List.flatten_append, List.count_append,
    hwords, Nat.zero_add]
  cases trimmedRemark m.remark with
  | none => rfl
  | some r =>
    have hspan : (remarkSpan r).count '\n' = r.count '\n' := by
      rw [remarkSpan, List.count_append, List.count_append, Comment.escape,
        Comment.count_escapeFrom (by decide)]
      simp
    simpa using hspan

end Encode

theorem Clean.isTrimmed_encode {m : Marks} (h : m.Clean) : IsTrimmed m.encode :=
  Marks.isTrimmed_encode h.tags

theorem Clean.lineFeed_not_mem_encode {m : Marks} (h : m.Clean) : '\n' ∉ m.encode := by
  rw [← List.count_eq_zero, count_lineFeed_encode h.tags, h.trimmedRemark_eq, List.count_eq_zero]
  cases hr : m.remark with
  | none => simp
  | some r => exact (h.remark r hr).2.2

theorem Clean.encode_ne_nil {m : Marks} (h : m.Clean) (ht : m.tags ≠ []) : m.encode ≠ [] := by
  intro he
  have hm := decode_encode_of_clean h
  rw [he] at hm
  exact ht (by rw [← hm]; rfl)

/-! ## What is read is clean -/

theorem lineFeed_not_mem_closeRemark? {t inside rest : Text}
    (h : closeRemark? t = some (inside, rest)) : '\n' ∉ inside := by
  induction t generalizing inside with
  | nil => exact absurd h (by simp [closeRemark?])
  | cons c r ih =>
    by_cases hc : c = ':' → r.head? ≠ some ':'
    · rw [closeRemark?_cons hc] at h
      split at h
      · exact absurd h (by simp)
      · next hn =>
        obtain ⟨⟨a, b⟩, hr, he⟩ := Option.map_eq_some_iff.mp h
        obtain ⟨rfl, rfl⟩ := Prod.mk.inj he
        rw [List.mem_cons, not_or]
        exact ⟨fun e => hn e.symm, ih hr⟩
    · obtain ⟨rfl, hr⟩ := Classical.not_imp.mp hc
      cases r with
      | nil => exact absurd hr (by simp)
      | cons x s =>
        obtain rfl : x = ':' := by simpa using hr
        rw [closeRemark?, Option.some.injEq, Prod.mk.injEq] at h
        rw [← h.1]
        simp

theorem lineFeed_not_mem_findRemark? {t before inside rest : Text}
    (h : findRemark? t = some (before, inside, rest)) : '\n' ∉ inside := by
  induction t generalizing before with
  | nil => exact absurd h (by simp [findRemark?])
  | cons c r ih =>
    unfold findRemark? at h
    split at h
    · next i s hb =>
      obtain ⟨u, -, hu⟩ := Option.bind_eq_some_iff.mp hb
      simp only [Option.some.injEq, Prod.mk.injEq] at h
      rw [← h.2.1]
      exact lineFeed_not_mem_closeRemark? hu
    · obtain ⟨⟨a, b⟩, hr, he⟩ := Option.map_eq_some_iff.mp h
      obtain ⟨-, rfl⟩ := Prod.mk.inj he
      exact ih hr

theorem isWord_of_mem_tags {t tag : Text} (h : tag ∈ (Text.words t).filterMap tagOfWord?) :
    IsWord tag := by
  obtain ⟨w, hw, htag⟩ := List.mem_filterMap.mp h
  have hword := Text.isWord_of_mem_words hw
  unfold tagOfWord? at htag
  split at htag
  · next c r =>
    rw [Option.some.injEq] at htag
    subst htag
    exact ⟨Comment.unescape_ne_nil (by simp), fun x hx =>
      hword.2 x (List.mem_cons_of_mem _ (Comment.mem_unescape hx))⟩
  · exact absurd htag (by simp)

/-- Marks that are read from a body are clean, whatever the body. -/
theorem clean_decode (body : Text) : (decode body).Clean := by
  unfold decode
  split
  · exact ⟨fun t ht => isWord_of_mem_tags ht, fun r hr => absurd hr (by simp)⟩
  · next before inside rest hf =>
    refine ⟨fun t ht => isWord_of_mem_tags ht, fun r hr => ?_⟩
    have hn := lineFeed_not_mem_findRemark? hf
    simp only [nonEmpty?, Option.mem_def] at hr
    split at hr
    · exact absurd hr (by simp)
    · next hne =>
      rw [Option.some.injEq] at hr
      subst hr
      exact ⟨hne, Comment.isTrimmed_unescape (Text.isTrimmed_trim inside), fun h =>
        hn (Text.mem_of_mem_trim (Comment.mem_unescape h))⟩

/-- Whatever the body, its tags are words and its remark is trimmed and on one line; and what is
written of them is read as the body was. Spans that do not close, colons in odd numbers and words
that are joined where the remark was all end up in such marks. -/
theorem decode_encode_decode (body : Text) :
    (∀ t ∈ (decode body).tags, t ≠ [] ∧ ∀ c ∈ t, Text.isBlank c = false) ∧
      (∀ r ∈ (decode body).remark, r ≠ [] ∧ Text.trim r = r ∧ '\n' ∉ r) ∧
      decode (decode body).encode = decode body := by
  have hclean := clean_decode body
  refine ⟨fun t ht => ?_, fun r hr => ?_, decode_encode_of_clean hclean⟩
  · exact hclean.tags t ht
  · obtain ⟨hne, htrim, hn⟩ := hclean.remark r hr
    exact ⟨hne, Text.trim_of_isTrimmed htrim, hn⟩

/-- A remark between two halves of a tag, a half escape in it, and a span too many. -/
example : decode "#a:: \\::b ::c::".toList = ⟨["ab".toList], some "\\".toList⟩ := by decide

/-! ## All marks -/

theorem isTrimmed_of_mem_trimmedTags {ts : List Text} {t : Text} (h : t ∈ trimmedTags ts) :
    t ≠ [] ∧ IsTrimmed t := by
  obtain ⟨hmem, hne⟩ := List.mem_filter.mp h
  obtain ⟨s, -, rfl⟩ := List.mem_map.mp hmem
  exact ⟨by simpa using hne, Text.isTrimmed_trim s⟩

theorem trimmedTags_trimmedTags (ts : List Text) :
    trimmedTags (trimmedTags ts) = trimmedTags ts :=
  trimmedTags_of_isTrimmed fun _ => isTrimmed_of_mem_trimmedTags

theorem trimmedRemark_eq_filter (remark : Option Text) :
    trimmedRemark remark = (remark.map Text.trim).filter (· ≠ []) := by
  cases remark with
  | none => rfl
  | some r => by_cases h : Text.trim r = [] <;> simp [trimmedRemark, nonEmpty?, h, Option.filter]

theorem isTrimmed_of_mem_trimmedRemark {remark : Option Text} {r : Text}
    (h : r ∈ trimmedRemark remark) : r ≠ [] ∧ IsTrimmed r := by
  rw [trimmedRemark_eq_filter, Option.mem_filter_iff, Option.mem_def, Option.map_eq_some_iff] at h
  obtain ⟨⟨s, -, rfl⟩, hne⟩ := h
  exact ⟨by simpa using hne, Text.isTrimmed_trim s⟩

theorem trimmedRemark_trimmedRemark (remark : Option Text) :
    trimmedRemark (trimmedRemark remark) = trimmedRemark remark :=
  trimmedRemark_of_isTrimmed fun _ => isTrimmed_of_mem_trimmedRemark

theorem encode_trimmed (m : Marks) :
    encode { tags := trimmedTags m.tags, remark := trimmedRemark m.remark } = encode m := by
  unfold encode
  rw [trimmedTags_trimmedTags, trimmedRemark_trimmedRemark]

/-- Blanks around tags are not written. -/
theorem encode_map_trim (ts : List Text) (remark : Option Text) :
    encode ⟨ts.map Text.trim, remark⟩ = encode ⟨ts, remark⟩ := by
  have htags : trimmedTags (ts.map Text.trim) = trimmedTags ts := by
    have htrim : (ts.map Text.trim).map Text.trim = ts.map Text.trim := by
      rw [List.map_map]
      exact List.map_congr_left fun t _ => Text.trim_trim t
    rw [trimmedTags, htrim, ← trimmedTags]
  unfold encode
  rw [htags]

theorem isWord_of_mem_trimmedTags {ts : List Text}
    (h : ∀ t ∈ ts, ∀ c ∈ Text.trim t, Text.isBlank c = false) : ∀ t ∈ trimmedTags ts, IsWord t := by
  intro t ht
  obtain ⟨hmem, hne⟩ := List.mem_filter.mp ht
  obtain ⟨s, hs, rfl⟩ := List.mem_map.mp hmem
  exact ⟨by simpa using hne, h s hs⟩

theorem clean_trimmed {m : Marks} (htags : ∀ t ∈ m.tags, ∀ c ∈ Text.trim t, Text.isBlank c = false)
    (hremark : ∀ r ∈ m.remark, '\n' ∉ Text.trim r) :
    Clean { tags := trimmedTags m.tags, remark := trimmedRemark m.remark } := by
  refine ⟨isWord_of_mem_trimmedTags htags, fun r hr => ?_⟩
  rw [Option.mem_def, trimmedRemark, Option.bind_eq_some_iff] at hr
  obtain ⟨s, hs, hr⟩ := hr
  by_cases h : Text.trim s = []
  · rw [nonEmpty?, if_pos h] at hr
    exact absurd hr (by simp)
  · rw [nonEmpty?_of_ne_nil h, Option.some.injEq] at hr
    subst hr
    exact ⟨h, Text.isTrimmed_trim s, hremark s hs⟩

/-- The tags are read as they were written, without the blanks around them, and so is the remark,
as long as every tag is one word and the remark is on one line. -/
theorem decode_encode (m : Marks)
    (htags : ∀ t ∈ m.tags, ∀ c ∈ Text.trim t, Text.isBlank c = false)
    (hremark : ∀ r ∈ m.remark, '\n' ∉ Text.trim r) :
    decode m.encode =
      { tags := (m.tags.map Text.trim).filter (· ≠ [])
        remark := (m.remark.map Text.trim).filter (· ≠ []) } := by
  rw [← encode_trimmed, decode_encode_of_clean (clean_trimmed htags hremark),
    trimmedRemark_eq_filter]
  rfl

/-- Colons and backslashes at every end, blank tags, a tag twice, and what looks like a comment. -/
theorem decode_encode_colons :
    let tags := [" \\:::".toList, "#".toList, " \t".toList, "::#".toList, "-->".toList, "#".toList]
    let remark := some ":: \\:: // <!-- :\n".toList
    (∀ t ∈ tags, ∀ c ∈ Text.trim t, Text.isBlank c = false) ∧
      (∀ r ∈ remark, '\n' ∉ Text.trim r) ∧
      decode (encode ⟨tags, remark⟩) =
        ⟨["\\:::".toList, "#".toList, "::#".toList, "-->".toList, "#".toList],
          some ":: \\:: // <!-- :".toList⟩ := by
  intro tags remark
  have htags : ∀ t ∈ tags, ∀ c ∈ Text.trim t, Text.isBlank c = false := by
    have hall : (tags.all fun t => (Text.trim t).all fun c => !Text.isBlank c) = true := by decide
    intro t ht c hc
    simpa using List.all_eq_true.mp (List.all_eq_true.mp hall t ht) c hc
  have hremark : ∀ r ∈ remark, '\n' ∉ Text.trim r := by decide
  exact ⟨htags, hremark, (decode_encode ⟨tags, remark⟩ htags hremark).trans (by decide)⟩

end TaggedOutline.Marks
