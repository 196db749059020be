import TaggedOutline.Frontend.Value
import TaggedOutline.Proofs.Frontend.Line
import TaggedOutline.Proofs.Text.Names

/-!
# Checked command lines

There is nothing to complain about in a command line if its switches and parameters are what they
must be and there are no words too many (`Line.complaint?_eq_none_iff`). No complaint is a fault but
that a path has a null character, and then some word has one (`Line.eq_nullInPath_of_complaint?`).
-/

namespace TaggedOutline.Frontend

variable {d : Disk} {c : Command} {l : Line} {p : Parameter} {s : Switch} {t : Text}
  {kind : ValueKind} {hint : String} {e : FileError}

/-! ## Values -/

theorem ValueKind.complaint?_eq_none_iff :
    kind.complaint? d hint t = none ↔
      (kind.isPath = true → t.contains '\x00' = false) ∧ kind.complaintOf d t = none := by
  unfold ValueKind.complaint?
  split
  · next h =>
    refine ⟨fun hnone => absurd hnone (by simp), fun hall => ?_⟩
    rw [hall.1 h.1] at h
    exact absurd h.2 Bool.false_ne_true
  · next h =>
    rw [Option.map_eq_none_iff]
    refine ⟨fun hnone => ⟨fun hpath => ?_, hnone⟩, And.right⟩
    exact Bool.not_eq_true _ ▸ fun hnull => h ⟨hpath, hnull⟩

theorem ValueKind.eq_nullInPath_of_complaint? (h : kind.complaint? d hint t = some (.fault e)) :
    e = .nullInPath ∧ '\x00' ∈ t := by
  unfold ValueKind.complaint? at h
  split at h
  · next hnull => exact ⟨(Complaint.fault.inj (Option.some.inj h)).symm, by simpa using hnull.2⟩
  · obtain ⟨message, -, hwrong⟩ := Option.map_eq_some_iff.mp h
    cases hwrong

/-! ## Lines -/

theorem nodup_parameters (c : Command) : c.parameters.Nodup := by
  cases c <;> decide

theorem mem_zipIdx_parameters {k : Nat} :
    (p, k) ∈ c.parameters.zipIdx ↔ p ∈ c.parameters ∧ k = c.parameters.idxOf p := by
  rw [List.mem_zipIdx_iff_getElem?]
  constructor
  · intro h
    obtain ⟨hk, hp⟩ := List.getElem?_eq_some_iff.mp h
    simp only at hk hp
    subst hp
    exact ⟨List.getElem_mem hk, ((nodup_parameters c).idxOf_getElem k hk).symm⟩
  · rintro ⟨hp, rfl⟩
    exact List.getElem?_idxOf hp

/-- Nothing is wrong with a line if nothing is with its switches and its parameters, and there are
no words too many. -/
theorem Line.complaint?_eq_none_iff :
    l.complaint? d c = none ↔
      (∀ s ∈ l.switches.map Prod.fst, switchComplaint? d l s = none) ∧
      (∀ p ∈ c.parameters, parameterComplaint? d p l.words[c.parameters.idxOf p]? = none) ∧
      l.words.length ≤ c.parameters.length := by
  have hextra (words : List Text) : extraComplaint? words = none ↔ words = [] := by
    unfold extraComplaint?
    split
    · simp
    · simp
    · next hne _ => simpa using hne
  unfold Line.complaint?
  rw [Option.or_eq_none_iff, Option.or_eq_none_iff, hextra, List.drop_eq_nil_iff,
    List.findSome?_eq_none_iff, List.findSome?_eq_none_iff]
  simp only [Text.mem_distinct]
  refine and_congr_right fun _ => and_congr_left fun _ => ?_
  constructor
  · intro h p hp
    exact h _ (List.mem_map.mpr ⟨_, mem_zipIdx_parameters.mpr ⟨hp, rfl⟩, rfl⟩)
  · intro h given hgiven
    obtain ⟨⟨p, k⟩, hmem, rfl⟩ := List.mem_map.mp hgiven
    obtain ⟨hp, rfl⟩ := mem_zipIdx_parameters.mp hmem
    exact h p hp

/-- The value of a switch has no character that the line lacks. -/
theorem Line.Lacks.value {a : Char} (h : l.Lacks a) (s : Switch) : a ∉ (l.value? s).getD [] := by
  unfold Line.value?
  cases hfind : l.switches.reverse.find? (·.1 = s) with
  | none => exact List.not_mem_nil
  | some given => exact h.2 given (List.mem_reverse.mp (List.mem_of_find?_eq_some hfind))

/-- The only fault that a line can have is a null character in a path, which is one of its own. -/
theorem Line.eq_nullInPath_of_complaint? (h : l.complaint? d c = some (.fault e)) :
    e = .nullInPath ∧ ¬l.Lacks '\x00' := by
  unfold Line.complaint? at h
  rcases Option.or_eq_some_iff.mp h with h | ⟨-, h⟩
  · obtain ⟨s, -, hs⟩ := List.exists_of_findSome?_eq_some h
    obtain ⟨he, hnull⟩ := ValueKind.eq_nullInPath_of_complaint? hs
    exact ⟨he, fun hlacks => hlacks.value s hnull⟩
  rcases Option.or_eq_some_iff.mp h with h | ⟨-, h⟩
  · obtain ⟨⟨p, given⟩, hmem, hp⟩ := List.exists_of_findSome?_eq_some h
    obtain ⟨⟨p', k⟩, -, heq⟩ := List.mem_map.mp hmem
    obtain ⟨rfl, rfl⟩ := Prod.mk.inj heq
    simp only at hp
    unfold parameterComplaint? at hp
    split at hp
    · split at hp
      · cases hp
      · exact absurd (ValueKind.eq_nullInPath_of_complaint? hp).2 (by decide)
    · next word hword =>
      obtain ⟨he, hnull⟩ := ValueKind.eq_nullInPath_of_complaint? hp
      exact ⟨he, fun hlacks => hlacks.1 word (List.mem_of_getElem? hword) hnull⟩
  · unfold extraComplaint? at h
    split at h <;> cases h

end TaggedOutline.Frontend
