import TaggedOutline.Proofs.Disk.Written

/-!
# Faults that concern a path

Whether a file can be read or written concerns the file, as long as its path has no null character.
Only its name may then still be missing: nobody is known by the name after a tilde, or there is a
loop of links (`Disk.load_fault_iff`).
-/

namespace TaggedOutline

namespace Disk

variable {d : Disk} {p : Path} {limit : Option Int} {e : FileError} {t : Text}

theorem isReadFailure_of_regularFile (hnull : p.text.contains '\x00' = false)
    (h : d.regularFile p limit = .error e) : e.isReadFailure = true := by
  unfold regularFile at h
  rw [hnull, if_neg Bool.false_ne_true] at h
  split at h
  · rw [← Except.error.inj h]; rfl
  · rw [← Except.error.inj h]; rfl
  · rw [← Except.error.inj h]; rfl
  · split at h
    · split at h
      · rw [← Except.error.inj h]; rfl
      · cases h
    · cases h

theorem isReadFailure_of_readText (hnull : p.text.contains '\x00' = false)
    (h : d.readText p = .error e) : e.isReadFailure = true := by
  unfold readText readBytes at h
  rw [hnull, if_neg Bool.false_ne_true] at h
  split at h
  · next place mode bytes _ =>
    simp only [Except.bind] at h
    cases hdecode : Text.Utf8.decode bytes with
    | error fault =>
      rw [hdecode] at h
      rw [← Except.error.inj h]
      rfl
    | ok t =>
      rw [hdecode] at h
      cases h
  · rw [← Except.error.inj h]; rfl
  · rw [← Except.error.inj h]; rfl

theorem not_isReadFailure_of_uriOf (h : d.uriOf p = .error e) : e.isReadFailure = false := by
  unfold uriOf at h
  cases hexpand : d.expandHome p with
  | error e' =>
    rw [hexpand] at h
    rw [← Except.error.inj h]
    unfold expandHome at hexpand
    split at hexpand
    · split at hexpand
      · rw [← Except.error.inj hexpand]; rfl
      · split at hexpand
        · cases hexpand
        · rw [← Except.error.inj hexpand]; rfl
    · cases hexpand
  | ok q =>
    rw [hexpand] at h
    cases hresolve : d.resolve q with
    | ok real =>
      simp only [Except.bind, hresolve] at h
      cases h
    | error e' =>
      simp only [Except.bind, hresolve] at h
      rw [← Except.error.inj h]
      unfold resolve at hresolve
      split at hresolve
      · rw [← Except.error.inj hresolve]; rfl
      · simp only at hresolve
        split at hresolve
        · rw [← Except.error.inj hresolve]; rfl
        · cases hresolve

/-- The faults of reading a document that do not concern the file: it is there, but there is no name
for it. -/
theorem load_fault_iff (hnull : p.text.contains '\x00' = false) :
    d.load p limit = .error e ∧ e.isReadFailure = false ↔
      (∃ r, d.regularFile p limit = .ok r) ∧ d.uriOf p = .error e := by
  unfold load
  cases hfile : d.regularFile p limit with
  | error e' =>
    constructor
    · rintro ⟨h, hfault⟩
      rw [← Except.error.inj h, isReadFailure_of_regularFile hnull hfile] at hfault
      cases hfault
    · rintro ⟨⟨r, h⟩, -⟩
      cases h
  | ok r =>
    cases huri : d.uriOf p with
    | error e' =>
      show (Except.error e' : Except FileError Document) = .error e ∧ _ ↔ _
      rw [Except.error.injEq, Except.error.injEq]
      constructor
      · exact fun h => ⟨⟨r, rfl⟩, h.1⟩
      · exact fun h => ⟨h.2, h.2 ▸ not_isReadFailure_of_uriOf huri⟩
    | ok uri =>
      constructor
      · rintro ⟨h, hfault⟩
        cases htext : d.readText p with
        | error e' =>
          rw [htext] at h
          rw [← Except.error.inj h, isReadFailure_of_readText hnull htext] at hfault
          cases hfault
        | ok t =>
          rw [htext] at h
          cases h
      · rintro ⟨-, h⟩
        cases h

/-- As long as there is a name for the document, all that keeps it from being read concerns the
file. -/
theorem isReadFailure_of_uriOf (hnull : p.text.contains '\x00' = false) {uri : Text}
    (huri : d.uriOf p = .ok uri) (h : d.load p limit = .error e) : e.isReadFailure = true := by
  by_contra hfault
  have hname := (load_fault_iff hnull).mp ⟨h, Bool.eq_false_iff.mpr hfault⟩
  rw [huri] at hname
  cases hname.2

/-- A text cannot be written to a path with a null character; all else concerns the file. -/
theorem write_fault_iff :
    d.write p t = .error e ∧ e.isReadFailure = false ↔
      p.text.contains '\x00' = true ∧ e = .nullInPath := by
  unfold write
  by_cases hnull : p.text.contains '\x00' = true
  · rw [if_pos hnull]
    constructor
    · exact fun h => ⟨hnull, (Except.error.inj h.1).symm⟩
    · rintro ⟨-, rfl⟩
      exact ⟨rfl, rfl⟩
  · rw [if_neg hnull]
    refine ⟨fun ⟨h, hfault⟩ => ?_, fun h => absurd h.1 hnull⟩
    split at h
    · cases h
    · cases h
    · rw [← Except.error.inj h] at hfault; cases hfault
    · rw [← Except.error.inj h] at hfault; cases hfault

end Disk

end TaggedOutline
