import Mathlib.Data.List.Nodup
import TaggedOutline.Proofs.Comment.RoundTrip
import TaggedOutline.Proofs.Text.Names

/-!
# Normalized marks

1. Beside other tags the remark tag is dropped and the remark kept (`normalize_of_others`). Without
   them all depends on whether there is a remark and whether the remark tag can stand for it
   (`normalize_of_no_others`).
2. Marks that look as normalizing leaves them are `IsNormal`. Normalized marks are
   (`isNormal_normalize`), and normal marks stay as they are (`IsNormal.normalize_eq`), so
   normalizing a second time changes nothing (`normalize_form`).
-/

namespace TaggedOutline.Marks

open Text (IsWord IsTrimmed FirstOccurrences)

variable {m : Marks} {remarkTag : Text} {ensure : Bool}

/-- The trimmed tags that are neither blank nor the remark tag. -/
def otherTags (m : Marks) (remarkTag : Text) : List Text :=
  (m.tags.map Text.trim).filter fun t => t ≠ [] ∧ t ≠ remarkTag

/-- The remark tag can stand for a remark: it may be added, or it is one of the tags. -/
def HasRemarkTag (m : Marks) (remarkTag : Text) (ensure : Bool) : Prop :=
  remarkTag ≠ [] ∧ (ensure = true ∨ remarkTag ∈ m.tags.map Text.trim)

instance (m : Marks) (remarkTag : Text) (ensure : Bool) :
    Decidable (m.HasRemarkTag remarkTag ensure) :=
  inferInstanceAs (Decidable (_ ∧ _))

theorem otherTags_eq (m : Marks) (remarkTag : Text) :
    m.otherTags remarkTag = (trimmedTags m.tags).filter (· ≠ remarkTag) := by
  rw [trimmedTags, List.filter_filter, otherTags]
  refine List.filter_congr fun t _ => ?_
  rw [Bool.decide_and, Bool.and_comm]

theorem mem_otherTags {t : Text} :
    t ∈ m.otherTags remarkTag ↔ t ∈ trimmedTags m.tags ∧ t ≠ remarkTag := by
  rw [otherTags_eq, List.mem_filter, decide_eq_true_eq]

theorem filter_distinct_trimmedTags (m : Marks) (remarkTag : Text) :
    (Text.distinct (trimmedTags m.tags)).filter (· ≠ remarkTag) =
      Text.distinct (m.otherTags remarkTag) := by
  rw [← Text.distinct_filter, otherTags_eq]

/-! ## The two cases -/

/-- Beside other tags the remark tag is dropped. -/
theorem normalize_of_others (h : m.otherTags remarkTag ≠ []) :
    m.normalize remarkTag ensure =
      ⟨Text.distinct (m.otherTags remarkTag), trimmedRemark m.remark⟩ := by
  have hne := mt Text.distinct_eq_nil_iff.mp h
  unfold normalize
  simp only [filter_distinct_trimmedTags]
  cases trimmedRemark m.remark with
  | none => rfl
  | some r =>
    simp only
    rw [if_pos hne, if_neg hne]

/-- The remark tag is the one tag that can be left of tags without others. -/
theorem filter_eq_remarkTag (m : Marks) (remarkTag : Text) :
    (Text.distinct (trimmedTags m.tags)).filter (· = remarkTag) =
      if remarkTag ≠ [] ∧ remarkTag ∈ m.tags.map Text.trim then [remarkTag] else [] := by
  have hmem : remarkTag ∈ Text.distinct (trimmedTags m.tags) ↔
      remarkTag ≠ [] ∧ remarkTag ∈ m.tags.map Text.trim := by
    rw [Text.mem_distinct, trimmedTags, List.mem_filter, decide_eq_true_eq, and_comm]
  rw [List.filter_eq]
  split
  · next h => rw [List.count_eq_one_of_mem (Text.nodup_distinct _) (hmem.mpr h)]; rfl
  · next h => rw [List.count_eq_zero.mpr fun hin => h (hmem.mp hin)]; rfl

/-- Without other tags the remark is kept iff the remark tag can stand for it. -/
theorem normalize_of_no_others (h : m.otherTags remarkTag = []) :
    m.normalize remarkTag ensure =
      match trimmedRemark m.remark with
      | none => {}
      | some r => if m.HasRemarkTag remarkTag ensure then ⟨[remarkTag], some r⟩ else {} := by
  unfold normalize
  simp only [filter_distinct_trimmedTags, filter_eq_remarkTag, h]
  cases trimmedRemark m.remark with
  | none => rfl
  | some r =>
    by_cases htag : remarkTag = []
    · simp [htag, HasRemarkTag, Text.distinct]
    · cases ensure with
      | true => simp [htag, HasRemarkTag, Text.distinct]
      | false =>
        by_cases hmem : remarkTag ∈ m.tags.map Text.trim <;>
          simp [-List.mem_map, htag, hmem, HasRemarkTag, Text.distinct]

/-! ## What is kept -/

/-- What is kept of some marks: some of the tags or the remark tag, and the remark beside them. -/
theorem normalize_spec (m : Marks) (remarkTag : Text) (ensure : Bool) :
    (∀ t ∈ (m.normalize remarkTag ensure).tags,
        t ∈ trimmedTags m.tags ∨ ensure = true ∧ remarkTag ≠ [] ∧ t = remarkTag) ∧
      ∀ r ∈ (m.normalize remarkTag ensure).remark, trimmedRemark m.remark = some r := by
  by_cases h : m.otherTags remarkTag = []
  · rw [normalize_of_no_others h]
    split
    · exact ⟨by simp, by simp⟩
    · next r hr =>
      split
      · next hstands =>
        obtain ⟨hne, hensure | hin⟩ := hstands
        · exact ⟨fun t ht => .inr ⟨hensure, hne, List.mem_singleton.mp ht⟩, fun s hs => hr.trans hs⟩
        · refine ⟨fun t ht => .inl ?_, fun s hs => hr.trans hs⟩
          rw [List.mem_singleton.mp ht]
          exact List.mem_filter.mpr ⟨hin, decide_eq_true hne⟩
      · exact ⟨by simp, by simp⟩
  · rw [normalize_of_others h]
    exact ⟨fun t ht => .inl (mem_otherTags.mp (Text.mem_distinct.mp ht)).1, fun r hr => hr⟩

theorem isWord_of_mem_normalize (htags : ∀ t ∈ m.tags, ∀ c ∈ Text.trim t, Text.isBlank c = false)
    (htag : ensure = true → ∀ c ∈ remarkTag, Text.isBlank c = false) :
    ∀ t ∈ (m.normalize remarkTag ensure).tags, IsWord t := by
  intro t ht
  rcases (m.normalize_spec remarkTag ensure).1 t ht with ht | ⟨hensure, hne, rfl⟩
  · exact isWord_of_mem_trimmedTags htags t ht
  · exact ⟨hne, htag hensure⟩

/-- Normalized marks can be held by a comment. -/
theorem clean_normalize (htags : ∀ t ∈ m.tags, ∀ c ∈ Text.trim t, Text.isBlank c = false)
    (hremark : ∀ r ∈ m.remark, '\n' ∉ Text.trim r)
    (htag : ensure = true → ∀ c ∈ remarkTag, Text.isBlank c = false) :
    (m.normalize remarkTag ensure).Clean :=
  ⟨isWord_of_mem_normalize htags htag, fun r hr =>
    (clean_trimmed htags hremark).remark r ((m.normalize_spec remarkTag ensure).2 r hr)⟩

/-- Where the remark tag can be added the remark is kept. -/
theorem remark_normalize (htag : remarkTag ≠ []) :
    (m.normalize remarkTag true).remark = trimmedRemark m.remark := by
  by_cases h : m.otherTags remarkTag = []
  · rw [normalize_of_no_others h]
    split
    · next hr => exact hr.symm
    · next r hr => rw [if_pos ⟨htag, .inl rfl⟩, hr]
  · rw [normalize_of_others h]

theorem getD_trimmedRemark (remark : Option Text) :
    (trimmedRemark remark).getD [] = (remark.map Text.trim).getD [] := by
  cases remark with
  | none => rfl
  | some r =>
    by_cases h : Text.trim r = []
    · simp [trimmedRemark, nonEmpty?, h]
    · simp [trimmedRemark, nonEmpty?, h]

/-! ## The normal form -/

/-- Marks as normalizing leaves them: the remark tag stands for a remark only where there is no
other tag, and no remark stands without a tag. -/
structure IsNormal (remarkTag : Text) (m : Marks) : Prop where
  tags : ∀ t ∈ m.tags, t ≠ [] ∧ IsTrimmed t
  nodup : m.tags.Nodup
  remark : ∀ r ∈ m.remark, r ≠ [] ∧ IsTrimmed r
  tagged : m.tags = [] → m.remark = none
  remarkTag : remarkTag ∈ m.tags → m.tags = [remarkTag] ∧ m.remark ≠ none

theorem isNormal_empty (remarkTag : Text) : IsNormal remarkTag {} :=
  ⟨by simp, .nil, by simp, fun _ => rfl, by simp⟩

theorem isNormal_normalize (m : Marks) (ensure : Bool) (htag : IsTrimmed remarkTag) :
    IsNormal remarkTag (m.normalize remarkTag ensure) := by
  by_cases h : m.otherTags remarkTag = []
  · rw [normalize_of_no_others h]
    split
    · exact isNormal_empty remarkTag
    · next r hr =>
      split
      · next hstands =>
        have htags : ∀ t ∈ [remarkTag], t ≠ [] ∧ IsTrimmed t := by
          intro t ht
          rw [List.mem_singleton.mp ht]
          exact ⟨hstands.1, htag⟩
        refine ⟨htags, List.nodup_singleton _, ?_, by simp, fun _ => ⟨rfl, by simp⟩⟩
        rw [← hr]
        exact fun _ => isTrimmed_of_mem_trimmedRemark
      · exact isNormal_empty remarkTag
  · rw [normalize_of_others h]
    refine ⟨fun t ht => ?_, Text.nodup_distinct _, fun _ => isTrimmed_of_mem_trimmedRemark,
      fun hnil => absurd (Text.distinct_eq_nil_iff.mp hnil) h, fun hin => ?_⟩
    · exact isTrimmed_of_mem_trimmedTags (mem_otherTags.mp (Text.mem_distinct.mp ht)).1
    · exact absurd rfl (mem_otherTags.mp (Text.mem_distinct.mp hin)).2

/-- Normal marks stay as they are. -/
theorem IsNormal.normalize_eq (h : IsNormal remarkTag m) : m.normalize remarkTag ensure = m := by
  obtain ⟨tags, remark⟩ := m
  have htrimmed : trimmedTags tags = tags := trimmedTags_of_isTrimmed h.tags
  have hremark : trimmedRemark remark = remark := trimmedRemark_of_isTrimmed h.remark
  by_cases hin : remarkTag ∈ tags
  · -- The remark tag is the only one, and stands for itself.
    obtain ⟨htags, hsome⟩ := h.remarkTag hin
    obtain ⟨r, rfl⟩ := Option.ne_none_iff_exists'.mp hsome
    obtain rfl : tags = [remarkTag] := htags
    have hothers : otherTags ⟨[remarkTag], some r⟩ remarkTag = [] := by
      rw [List.eq_nil_iff_forall_not_mem]
      intro t ht
      rw [mem_otherTags, htrimmed, List.mem_singleton] at ht
      exact ht.2 ht.1
    have hstands : HasRemarkTag ⟨[remarkTag], some r⟩ remarkTag ensure :=
      ⟨(h.tags remarkTag hin).1, .inr ((List.mem_filter.mp (htrimmed ▸ hin)).1)⟩
    rw [normalize_of_no_others hothers, hremark]
    exact if_pos hstands
  · have hothers : otherTags ⟨tags, remark⟩ remarkTag = tags := by
      rw [otherTags_eq, htrimmed, List.filter_eq_self]
      exact fun t ht => decide_eq_true fun e => hin (e ▸ ht)
    by_cases hnil : tags = []
    · obtain rfl := hnil
      obtain rfl : remark = none := h.tagged rfl
      exact normalize_of_no_others hothers
    · rw [normalize_of_others (by rwa [hothers]), hothers, hremark, Text.distinct_of_nodup h.nodup]

/-! ## What normalizing gives -/

/-- Normalizing gives distinct trimmed tags. If there are other tags than the remark tag, these are
left in the order of their first occurrences, with the trimmed remark; else the remark tag is left
with a remark that it can stand for, or nothing at all. Normalizing again changes nothing. -/
theorem normalize_form (m : Marks) (remarkTag : Text) (ensure : Bool)
    (htag : ∀ c ∈ remarkTag, Text.isBlank c = false) :
    let n := m.normalize remarkTag ensure
    let remark := (m.remark.map Text.trim).filter (· ≠ [])
    (n.tags.Nodup ∧ ∀ t ∈ n.tags, t ≠ [] ∧ IsTrimmed t) ∧
      (m.otherTags remarkTag ≠ [] →
        FirstOccurrences n.tags (m.otherTags remarkTag) ∧ n.remark = remark) ∧
      (m.otherTags remarkTag = [] →
        (n = {} ∨ ∃ r, n = ⟨[remarkTag], some r⟩) ∧
          ∀ r, n = ⟨[remarkTag], some r⟩ ↔ remark = some r ∧ remarkTag ≠ [] ∧
            (ensure = true ∨ remarkTag ∈ m.tags.map Text.trim)) ∧
      n.normalize remarkTag ensure = n := by
  intro n remark
  have hremark : remark = trimmedRemark m.remark := (trimmedRemark_eq_filter m.remark).symm
  have htrimmed : IsTrimmed remarkTag :=
    ⟨fun c hc => htag c (List.mem_of_mem_head? hc), fun c hc => htag c (List.mem_of_getLast? hc)⟩
  have hnormal : IsNormal remarkTag n := isNormal_normalize m ensure htrimmed
  refine ⟨⟨hnormal.nodup, hnormal.tags⟩, fun h => ?_, fun h => ?_, hnormal.normalize_eq⟩
  · have hn : n = _ := normalize_of_others h
    rw [hn, hremark]
    exact ⟨Text.firstOccurrences_distinct _, rfl⟩
  · have hn : n = _ := normalize_of_no_others h
    rw [hn, hremark]
    cases trimmedRemark m.remark with
    | none => exact ⟨.inl rfl, fun r => by simp⟩
    | some r =>
      by_cases hstands : m.HasRemarkTag remarkTag ensure
      · simp only [if_pos hstands]
        refine ⟨.inr ⟨r, rfl⟩, fun s => ⟨fun hs => ?_, fun hs => ?_⟩⟩
        · exact ⟨congrArg Marks.remark hs, hstands⟩
        · rw [hs.1]
      · simp only [if_neg hstands]
        exact ⟨.inl trivial, fun s => ⟨fun hs => absurd (congrArg Marks.tags hs) (by simp),
          fun hs => absurd hs.2 hstands⟩⟩

/-- Padded, blank and repeated tags beside the remark tag, and the remark tag alone. -/
theorem normalize_form_padded :
    let m : Marks := ⟨[" b ".toList, "remark".toList, ['a'], [' '], ['b']], some " x\n".toList⟩
    let alone : Marks := ⟨["\tremark ".toList, []], m.remark⟩
    let remarkTag := "remark".toList
    (∀ c ∈ remarkTag, Text.isBlank c = false) ∧
      m.otherTags remarkTag ≠ [] ∧
      FirstOccurrences (m.normalize remarkTag true).tags [['b'], ['a'], ['b']] ∧
      (m.normalize remarkTag true).remark = some ['x'] ∧
      alone.otherTags remarkTag = [] ∧
      alone.normalize remarkTag false = ⟨[remarkTag], some ['x']⟩ := by
  intro m alone remarkTag
  have hall : remarkTag.all (fun c => !Text.isBlank c) = true := by decide
  have htag : ∀ c ∈ remarkTag, Text.isBlank c = false :=
    fun c hc => by simpa using List.all_eq_true.mp hall c hc
  have hothers : m.otherTags remarkTag ≠ [] := by decide
  have halone : alone.otherTags remarkTag = [] := by decide
  obtain ⟨htags, hremark⟩ := (normalize_form m remarkTag true htag).2.1 hothers
  have hleft := ((normalize_form alone remarkTag false htag).2.2.1 halone).2 ['x']
  have hnamed : remarkTag ∈ alone.tags.map Text.trim := .head _
  exact ⟨htag, hothers, htags, hremark, halone, hleft.mpr ⟨by decide, by decide, .inr hnamed⟩⟩

end TaggedOutline.Marks
