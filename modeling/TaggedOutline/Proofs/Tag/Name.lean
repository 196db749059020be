import TaggedOutline.Proofs.Except
import TaggedOutline.Proofs.Text.Basic
import TaggedOutline.Tag.Name

/-!
# Accepted tag names

A text is accepted as a tag name iff it is one word between blanks, and that word is the name.
-/

namespace TaggedOutline

open Text (IsWord)

variable {t name : Text}

theorem tagName_eq_ok_iff : tagName t = .ok name ↔ name = Text.trim t ∧ IsWord name := by
  unfold tagName tagNameOf
  simp only [Option.getD_some]
  constructor
  · intro h
    split at h
    · exact absurd h (by simp)
    · next hne =>
      split at h
      · exact absurd h (by simp)
      · next hblank =>
        obtain rfl := Except.ok.inj h
        exact ⟨rfl, hne, fun c hc => by simpa using fun hb => hblank (List.any_eq_true.mpr ⟨c, hc, hb⟩)⟩
  · rintro ⟨rfl, hne, hsolid⟩
    have hblank : ¬ (Text.trim t).any Text.isBlank = true := by
      rw [List.any_eq_true]
      rintro ⟨c, hc, hb⟩
      rw [hsolid c hc] at hb
      exact absurd hb (by decide)
    rw [if_neg hne, if_neg hblank]

theorem tagName_eq_ok_self_iff : tagName name = .ok name ↔ IsWord name := by
  rw [tagName_eq_ok_iff]
  exact ⟨And.right, fun h => ⟨(Text.trim_of_isTrimmed h.isTrimmed).symm, h⟩⟩

/-! ## Several names -/

/-- Texts that are all accepted give their names. -/
theorem mapM_tagName {tags : List Text} (h : ∀ t ∈ tags, ∃ name, tagName t = .ok name) :
    tags.mapM tagName = .ok (tags.map Text.trim) := by
  refine mapM_ok fun t ht => ?_
  obtain ⟨name, hname⟩ := h t ht
  rw [hname, (tagName_eq_ok_iff.mp hname).1]

end TaggedOutline
