import TaggedOutline.Proofs.Heading.Line

/-!
# Marks that a heading line can hold

`update` writes marks after what is left of a line without its comment. A title with an opening in
it is then cut off there, and without a title and marks nothing but signs is left. In all other
cases the line is read as the same heading with the marks (`ofLine?_update_iff`).
-/

namespace TaggedOutline.Heading

open Text (isBlank)
open Comment (opening wrap find? update strip)

/-- The title of a heading stays as it is when marks are written after it: without marks there is a
title, and a title before marks opens no comment. -/
def CanHold (h : Heading) (m : Marks) : Prop :=
  if m.encode = [] then h.text ≠ [] else ¬ opening h.markup <:+: h.text

instance (h : Heading) (m : Marks) : Decidable (h.CanHold m) :=
  inferInstanceAs
    (Decidable (if m.encode = [] then h.text ≠ [] else ¬ opening h.markup <:+: h.text))

variable {markup : Markup} {level : Nat} {line raw pre a tail : Text} {number : Int} {h : Heading}
  {m : Marks}

theorem isBlank_of_mem_opening {c : Char} (hc : c ∈ opening markup) : isBlank c = false := by
  have hall : (opening markup).all (fun c => !isBlank c) = true := by cases markup <;> rfl
  simpa using List.all_eq_true.mp hall c hc

theorem isInfix_trim_iff : opening markup <:+: Text.trim a ↔ opening markup <:+: a :=
  ⟨fun h => h.trans (Text.trim_isInfix a),
    Text.isInfix_trim fun _ hc => isBlank_of_mem_opening hc⟩

/-! ## The line without its comment -/

/-- The title of a line stands before its comment, or reaches to its end. -/
theorem Signed.exists_title (hn : '\n' ∉ line) (hs : Signed markup level line raw) :
    ∃ pre a tail, line = pre ++ (a ++ tail) ∧ raw = a ++ tail ∧
      (splitTitle markup raw).1 = Text.trim a ∧
      Text.trimEnd (strip markup line) = Text.trimEnd (pre ++ a) ∧
      find? markup (Text.trimEnd a) = none := by
  cases hf : find? markup line with
  | some f =>
    obtain ⟨pre, a, tail, body, rfl, rfl, hopen, hstrip, hsplit⟩ := hs.exists_find? hn hf
    refine ⟨pre, a, tail, rfl, rfl, by rw [hsplit], by rw [hstrip, Text.trimEnd_trimEnd], ?_⟩
    refine Comment.findFrom?_eq_none_iff.mpr fun b rest hb => absurd ?_ hopen
    exact (List.infix_append' b _ rest).trans (hb ▸ (Text.trimEnd_isPrefix a).isInfix)
  | none =>
    obtain ⟨pre, rfl, hpre⟩ := hs.exists_append hn
    have hraw : '\n' ∉ raw := fun h => hn (List.mem_append_right pre h)
    have hnone : find? markup raw = none := (Comment.find?_append_eq_none_iff hpre).mp hf
    refine ⟨pre, raw, [], by rw [List.append_nil], by rw [List.append_nil], ?_, ?_,
      Comment.find?_trimEnd hraw hnone⟩
    · rw [splitTitle, hnone]
    · rw [Comment.strip_of_find?_eq_none hn hf]

/-- The title before a comment holds no opening. -/
theorem not_isInfix_text_of_find? {f : Comment.Found} (hn : '\n' ∉ line)
    (hh : ofLine? line number = some h) (hf : find? h.markup line = some f) :
    ¬ opening h.markup <:+: h.text := by
  obtain ⟨markup, level, raw, hs, -, rfl⟩ := ofLine?_eq_some_iff.mp hh
  obtain ⟨pre, a, tail, body, rfl, rfl, hopen, -, hsplit⟩ := hs.exists_find? hn hf
  rw [hsplit]
  exact fun hin => hopen (isInfix_trim_iff.mp hin)

/-- The signs of a line whose title is cut off after `a`. -/
theorem Signed.cutoff (hs : Signed markup level (pre ++ (a ++ tail)) (a ++ tail))
    (hn : '\n' ∉ pre ++ (a ++ tail)) (ha : Text.trim a ≠ []) :
    Signed markup level (Text.trimEnd (pre ++ a)) (Text.trimEnd a) := by
  have hsolid := Text.exists_of_trim_ne_nil ha
  have hne : a ≠ [] := by
    obtain ⟨c, hc, -⟩ := hsolid
    exact List.ne_nil_of_mem hc
  rw [Text.trimEnd_append hsolid]
  have hhead : (Text.trimEnd a).head? = (a ++ tail).head? := by
    rw [Text.head?_trimEnd hsolid, List.head?_append_of_ne_nil _ hne]
  cases markup with
  | markdown =>
    obtain ⟨h1, h6, hfirst, gap, hgap, hblank, hline⟩ := (markdownTitle?_eq_some_iff hn).mp hs
    obtain rfl : pre = List.replicate level '#' ++ gap :=
      List.append_cancel_right (hline.trans (List.append_assoc ..).symm)
    have hcut : '\n' ∉ List.replicate level '#' ++ gap ++ Text.trimEnd a := by
      intro hm
      refine hn ?_
      rcases List.mem_append.mp hm with hm | hm
      · exact List.mem_append_left _ hm
      · exact List.mem_append_right _ (List.mem_append_left _ (Text.mem_of_mem_trimEnd hm))
    refine (markdownTitle?_eq_some_iff hcut).mpr ⟨h1, h6, ?_, gap, hgap, hblank, ?_⟩
    · rwa [hhead]
    · rw [List.append_assoc]
  | typst =>
    obtain ⟨h0, hfirst, hline⟩ := typstTitle?_eq_some_iff.mp hs.2
    obtain rfl : pre = List.replicate level '=' := List.append_cancel_right hline
    exact ⟨markdownTitle?_of_equals level _ h0,
      typstTitle?_eq_some_iff.mpr ⟨h0, by rwa [hhead], rfl⟩⟩

/-- Without a title nothing but the signs is left, which is no heading. -/
theorem Signed.ofLine?_cutoff_eq_none
    (hs : Signed markup level (pre ++ (a ++ tail)) (a ++ tail)) (hn : '\n' ∉ pre ++ (a ++ tail))
    (hmarkup : markup = .markdown) (ha : Text.trim a = []) :
    ofLine? (Text.trimEnd (pre ++ a)) number = none := by
  subst hmarkup
  obtain ⟨h1, -, hfirst, gap, -, hblank, hline⟩ := (markdownTitle?_eq_some_iff hn).mp hs
  obtain rfl : pre = List.replicate level '#' ++ gap :=
    List.append_cancel_right (hline.trans (List.append_assoc ..).symm)
  obtain rfl : a = [] := by
    cases a with
    | nil => rfl
    | cons c r =>
      have hc : isBlank c = false := hfirst c rfl
      refine absurd ha ?_
      rw [Text.trim, Text.trimStart_of_head (by simpa using hc)]
      exact Text.trimEnd_ne_nil ⟨c, List.mem_cons_self, hc⟩
  have hend : Text.trimEnd (List.replicate level '#' ++ gap ++ []) = List.replicate level '#' := by
    rw [List.append_nil, Text.trimEnd_append_of_blank hblank]
    refine Text.trimEnd_of_getLast fun c hc => ?_
    rw [(List.mem_replicate.mp (List.mem_of_mem_getLast? hc)).2]
    rfl
  have hrun : (List.replicate level '#').takeWhile (· = '#') = List.replicate level '#' := by simp
  have hmarkdown : markdownTitle? (List.replicate level '#') = none := by
    unfold markdownTitle?
    simp only [hrun, List.drop_length]
  have htypst : typstTitle? (List.replicate level '#') = none := by
    obtain ⟨k, rfl⟩ := Nat.exists_eq_add_of_le' h1
    rfl
  rw [hend, ofLine?, hmarkdown, htypst]

/-! ## The line with other marks -/

/-- The text of written marks begins with an opening. -/
theorem isBlank_of_mem_head?_wrap {body : Text} :
    ∀ c ∈ (wrap markup body).head?, isBlank c = false := by
  intro c hc
  cases markup with
  | markdown =>
    obtain rfl : '<' = c := by simpa [wrap, opening] using hc
    rfl
  | typst =>
    obtain rfl : '/' = c := by simpa [wrap, opening] using hc
    rfl

theorem exists_find?_update (hm : m.Clean) (hne : m.encode ≠ []) :
    ∃ f, find? markup (update markup line m) = some f := by
  rw [Comment.update_eq hne hm.isTrimmed_encode, Comment.wrap_eq]
  have hbody := Comment.body?_wrapped hm.isTrimmed_encode hm.lineFeed_not_mem_encode markup
  refine Option.ne_none_iff_exists'.mp fun hnone => ?_
  have := Comment.findFrom?_eq_none_iff.mp hnone (Text.trimEnd (strip markup line) ++ [' '])
    (Comment.wrapped markup m.encode) (by simp)
  rw [hbody] at this
  exact absurd this (by simp)

variable (hn : '\n' ∉ line) (hh : ofLine? line number = some h)

include hn hh

/-- Without marks a title has to be there. -/
theorem ofLine?_update_nil_iff :
    ofLine? (update h.markup line {}) number =
      some (h.withMarks {} (update h.markup line {}).length) ↔ h.text ≠ [] := by
  obtain ⟨markup, level, raw, hs, htitle, rfl⟩ := ofLine?_eq_some_iff.mp hh
  obtain ⟨pre, a, tail, rfl, rfl, htext, hstrip, hnone⟩ := hs.exists_title hn
  have hupdate : update markup (pre ++ (a ++ tail)) {} = Text.trimEnd (pre ++ a) := hstrip
  show ofLine? (update markup (pre ++ (a ++ tail)) {}) number = some
    ((ofParts markup number level _ (splitTitle markup (a ++ tail)).1 _).withMarks {}
      (update markup (pre ++ (a ++ tail)) {}).length) ↔ (splitTitle markup (a ++ tail)).1 ≠ []
  rw [htext] at htitle ⊢
  rw [hupdate]
  constructor
  · intro hread hnil
    have hmarkup : markup = .markdown := by
      cases markup with
      | markdown => rfl
      | typst => exact absurd hnil (htitle rfl)
    rw [hs.ofLine?_cutoff_eq_none hn hmarkup hnil] at hread
    exact absurd hread (by simp)
  · intro htrim
    have hsplit : splitTitle markup (Text.trimEnd a) = (Text.trim a, {}) := by
      rw [splitTitle, hnone]
      simp only
      rw [Text.trim_trimEnd]
    refine ofLine?_eq_some_iff.mpr ⟨markup, level, _, hs.cutoff hn htrim, ?_, ?_⟩
    · rw [hsplit]
      exact htitle
    · rw [hsplit]
      rfl

/-- A title before marks opens no comment. -/
theorem ofLine?_update_iff_of_ne_nil (hm : m.Clean) (hne : m.encode ≠ []) :
    ofLine? (update h.markup line m) number =
      some (h.withMarks m (update h.markup line m).length) ↔ ¬ opening h.markup <:+: h.text := by
  constructor
  · intro hread
    obtain ⟨f, hf⟩ : ∃ f, find? h.markup (update h.markup line m) = some f :=
      exists_find?_update hm hne
    have hfeed := Comment.lineFeed_not_mem_update hn hm.lineFeed_not_mem_encode h.markup
    exact not_isInfix_text_of_find? (h := h.withMarks m _) hfeed hread hf
  · intro hopen
    obtain ⟨markup, level, raw, hs, htitle, rfl⟩ := ofLine?_eq_some_iff.mp hh
    obtain ⟨pre, a, tail, rfl, rfl, htext, hstrip, -⟩ := hs.exists_title hn
    show ofLine? (update markup (pre ++ (a ++ tail)) m) number = some
      ((ofParts markup number level _ (splitTitle markup (a ++ tail)).1 _).withMarks m
        (update markup (pre ++ (a ++ tail)) m).length)
    have hopen : ¬ opening markup <:+: (splitTitle markup (a ++ tail)).1 := hopen
    rw [htext] at htitle hopen ⊢
    rw [isInfix_trim_iff] at hopen
    rw [Comment.update_eq hne hm.isTrimmed_encode, hstrip]
    obtain ⟨a', hs', ha'⟩ := hs.retitle hn isBlank_of_mem_head?_wrap
      (Comment.lineFeed_not_mem_wrap hm.lineFeed_not_mem_encode) htitle
    have htrim : Text.trim a' = Text.trim a := by
      rcases ha' with ⟨rfl, h⟩ | rfl
      · exact h.symm
      · rw [Text.trim_append_of_blank fun _ => Text.isBlank_of_mem_space, Text.trim_trimEnd]
    have hsplit : splitTitle markup (a' ++ wrap markup m.encode) = (Text.trim a, m) := by
      rw [← htrim]
      refine splitTitle_append_wrap hm ?_
      rcases ha' with ⟨rfl, -⟩ | rfl
      · exact .inl rfl
      · exact .inr ⟨_, rfl, fun h => hopen (h.trans (Text.trimEnd_isPrefix a).isInfix)⟩
    refine ofLine?_eq_some_iff.mpr ⟨markup, level, _, hs', ?_, ?_⟩
    · rw [hsplit]
      exact htitle
    · rw [hsplit]
      rfl

/-- A heading line is read as the same heading with the marks that are written to it iff the
heading can hold them. -/
theorem ofLine?_update_iff (hm : m.Clean) :
    ofLine? (update h.markup line m) number =
      some (h.withMarks m (update h.markup line m).length) ↔ h.CanHold m := by
  unfold CanHold
  split
  · next hnil =>
    have hdecode := Marks.decode_encode_of_clean hm
    rw [hnil] at hdecode
    obtain rfl : m = {} := hdecode.symm
    exact ofLine?_update_nil_iff hn hh
  · next hne => exact ofLine?_update_iff_of_ne_nil hn hh hm hne

/-- A heading with tags can hold all marks that have some. -/
theorem canHold_of_tags (hm : m.Clean) (htags : h.tags ≠ []) (hne : m.tags ≠ []) : h.CanHold m := by
  obtain ⟨f, hf⟩ := exists_find?_of_tags hn hh htags
  unfold CanHold
  rw [if_neg (hm.encode_ne_nil hne)]
  exact not_isInfix_text_of_find? hn hh hf

/-- The title of a Typst heading opens no comment, for on its line the first opening is the comment. -/
theorem not_isInfix_text_of_typst (hmarkup : h.markup = .typst) :
    ¬ opening h.markup <:+: h.text := by
  intro hopen
  obtain ⟨markup, level, raw, hs, -, rfl⟩ := ofLine?_eq_some_iff.mp hh
  obtain ⟨pre, a, tail, hline, -, htext, -⟩ := hs.exists_title hn
  have hinfix : opening markup <:+: line := by
    have ha : opening markup <:+: a := isInfix_trim_iff.mp (htext ▸ hopen)
    refine ha.trans ?_
    rw [hline, ← List.append_assoc]
    exact List.infix_append pre a tail
  cases hf : find? markup line with
  | some f => exact not_isInfix_text_of_find? hn hh hf hopen
  | none =>
    obtain rfl : markup = .typst := hmarkup
    obtain ⟨front, rest, hsplit⟩ := hinfix
    rw [List.append_assoc] at hsplit
    have hbody := Comment.findFrom?_eq_none_iff.mp hf front rest hsplit.symm
    have hrest : '\n' ∉ rest := fun hm => hn (by rw [← hsplit]; simp [hm])
    rw [Comment.body?_typst hrest] at hbody
    exact absurd hbody (by simp)

/-- A Typst heading can hold all marks. -/
theorem canHold_of_typst (hmarkup : h.markup = .typst) (m : Marks) : h.CanHold m := by
  unfold CanHold
  split
  · obtain ⟨markup, level, raw, -, htitle, rfl⟩ := ofLine?_eq_some_iff.mp hh
    exact htitle hmarkup
  · exact not_isInfix_text_of_typst hn hh hmarkup

end TaggedOutline.Heading
