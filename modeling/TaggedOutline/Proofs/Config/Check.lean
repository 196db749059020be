import TaggedOutline.Config.Basic
import TaggedOutline.Proofs.Except

/-!
# Settings that pass their check

Settings that pass the check make up a configuration: its suffixes are those that the settings list,
in their usual form, and its tag tables are those of the settings, each of which was checked
(`makes_of_check`).
-/

namespace TaggedOutline

variable {given : Settings} {c : Config}

theorem texts?_map_text (ts : List Text) : (Value.list (ts.map .text)).texts? = some ts := by
  show (ts.map Value.text).mapM Value.text? = some ts
  induction ts with
  | nil => rfl
  | cons t ts ih =>
    rw [List.map_cons, List.mapM_cons, ih]
    rfl

namespace Settings

/-- A configuration is what some settings make up. -/
structure Makes (given : Settings) (c : Config) : Prop where
  suffixes : suffixesOf? (given.value .extensions) = some c.extensions
  tags : given.value .tags = .list c.tags
  entries : c.tags.forM checkTagEntry = .ok ()

/-- Normal settings list the suffixes in their usual form and are otherwise the same. -/
theorem normalize_eq_ok {s : Settings} (h : given.normalize = .ok s) :
    suffixesOf? (given.value .extensions) = some ((s.value .extensions).texts?.getD []) ∧
      s.value .tags = given.value .tags := by
  unfold normalize at h
  split at h
  · next suffixes hsuffixes =>
    rw [hsuffixes, ← Except.ok.inj h]
    refine ⟨?_, rfl⟩
    show some suffixes = some (((Value.list (suffixes.map .text)).texts?).getD [])
    rw [texts?_map_text, Option.getD_some]
  · exact absurd h (by simp)

theorem makes_of_check (h : given.check = .ok c) : given.Makes c := by
  unfold check at h
  obtain ⟨s, hs, h⟩ := exists_of_bind_eq_ok h
  obtain ⟨hsuffixes, htags⟩ := normalize_eq_ok hs
  obtain ⟨maxPinned, -, h⟩ := exists_of_bind_eq_ok h
  obtain ⟨maxFileSize, -, h⟩ := exists_of_bind_eq_ok h
  replace h := of_guard_eq_ok (of_guard_eq_ok (of_guard_eq_ok h))
  simp only at h
  split at h
  · obtain ⟨excludeDirs, -, h⟩ := exists_of_bind_eq_ok h
    obtain ⟨remarkTag, -, h⟩ := exists_of_bind_eq_ok h
    obtain ⟨defaultIcon, -, h⟩ := exists_of_bind_eq_ok h
    obtain ⟨defaultColor, -, h⟩ := exists_of_bind_eq_ok h
    replace h := of_guard_eq_ok h
    split at h
    · next tables htables =>
      obtain ⟨tags, ht, h⟩ := exists_of_bind_eq_ok h
      obtain ⟨⟨⟩, hentries, h⟩ := exists_of_bind_eq_ok h
      obtain rfl := Except.ok.inj ht
      rw [← Except.ok.inj h]
      exact ⟨hsuffixes, htags ▸ htables, hentries⟩
    · exact absurd h (by simp [bind, Except.bind])
  · exact absurd h (by simp [bind, Except.bind])

end Settings

end TaggedOutline
