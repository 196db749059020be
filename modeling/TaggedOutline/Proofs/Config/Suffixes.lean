import TaggedOutline.Proofs.Config.Check
import TaggedOutline.Proofs.Text.Lowercase

/-!
# File suffixes of a checked configuration

A configuration that passes its check has the suffixes that the settings list, each in its usual
form. This form is in lower case, so lowercasing it again says nothing new
(`lower_of_mem_extensions`).
-/

namespace TaggedOutline

/-! ## Suffixes -/

theorem lower_normalSuffix (t : Text) : Text.lower (normalSuffix t) = normalSuffix t := by
  have hlower {c : Char} {t : Text} (hc : c ∈ Text.lower t) : Text.isUnmapped c.toNat :=
    Text.isUnmapped_of_mem_lowerAfter hc
  refine Text.lowerAfter_of_isUnmapped (fun c hc => ?_) []
  unfold normalSuffix at hc
  simp only at hc
  split at hc
  · exact hlower hc
  · rcases List.mem_cons.mp hc with rfl | hc
    · decide
    · exact hlower hc

/-- The suffixes of a checked configuration are in lower case. -/
theorem lower_of_mem_extensions {given : Settings} {c : Config} (h : given.check = .ok c)
    {suffix : Text} (hsuffix : suffix ∈ c.extensions) : Text.lower suffix = suffix := by
  have hsuffixes := (Settings.makes_of_check h).suffixes
  unfold suffixesOf? at hsuffixes
  obtain ⟨ts, -, hts⟩ := Option.bind_eq_some_iff.mp hsuffixes
  split at hts
  · exact absurd hts (by simp)
  · rw [← Option.some.inj hts] at hsuffix
    obtain ⟨t, -, rfl⟩ := List.mem_map.mp hsuffix
    exact lower_normalSuffix t

end TaggedOutline
