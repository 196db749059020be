import TaggedOutline.Frontend.Line
import TaggedOutline.Proofs.Command.Frontend
import TaggedOutline.Proofs.Except

/-!
# What a command line gives

A word that does not start with a hyphen is given by its place, and so is every word after two
hyphens. So a command line that writes some words in this way gives these words (`read_of_gives`).
Whatever else it gives is a part of its words (`Line.lacks_of_read`).
-/

namespace TaggedOutline.Frontend

variable {accepted : List Switch} {mixed : Bool} {words args : List Text} {r r' : Reading}
  {l : Line} {c : Char} {arg : Text}

namespace Reading

/-- Some words were given by their places. -/
def withWords (r : Reading) (words : List Text) : Reading :=
  { r with line := { r.line with words := r.line.words ++ words } }

theorem step_of_ended (hwaiting : r.waiting = none) (hended : r.ended = true) (arg : Text) :
    step accepted mixed r arg = .ok (r.word arg) := by
  unfold step
  rw [hwaiting]
  exact if_pos hended

theorem step_of_isPlainWord (hwaiting : r.waiting = none) (hended : r.ended = false)
    (h : IsPlainWord arg) : step accepted mixed r arg = .ok { r.word arg with ended := ¬ mixed } := by
  have hne : arg ≠ ['-', '-'] := by
    rintro rfl
    exact absurd (h rfl) (by decide)
  have hplain : ¬(arg.head? = some '-' ∧ arg ≠ ['-']) := fun hboth => hboth.2 (h hboth.1)
  unfold step
  rw [hwaiting, hended]
  simp only [Bool.false_eq_true, if_false]
  rw [if_neg hne, if_neg hplain]

theorem step_hyphens (hwaiting : r.waiting = none) (hended : r.ended = false) :
    step accepted mixed r ['-', '-'] = .ok { r with ended := true } := by
  unfold step
  rw [hwaiting, hended]
  rfl

theorem foldlM_cons_of_step (h : step accepted mixed r arg = .ok r') (args : List Text) :
    (arg :: args).foldlM (step accepted mixed) r = args.foldlM (step accepted mixed) r' := by
  rw [List.foldlM_cons, h]
  rfl

theorem foldlM_of_ended (hwaiting : r.waiting = none) (hended : r.ended = true)
    (args : List Text) : args.foldlM (step accepted mixed) r = .ok (r.withWords args) := by
  induction args generalizing r with
  | nil =>
    rw [withWords, List.append_nil]
    rfl
  | cons arg args ih =>
    have hrest := ih (r := r.word arg) hwaiting hended
    rw [foldlM_cons_of_step (step_of_ended hwaiting hended arg), hrest, withWords, withWords, word,
      List.append_assoc]
    rfl

/-- Where switches may be mixed with other words, plain words do not end them. -/
theorem foldlM_of_isPlainWord (hwaiting : r.waiting = none) (hended : r.ended = false)
    (h : ∀ arg ∈ args, IsPlainWord arg) :
    args.foldlM (step accepted true) r = .ok (r.withWords args) := by
  induction args generalizing r with
  | nil =>
    rw [withWords, List.append_nil]
    rfl
  | cons arg args ih =>
    obtain ⟨harg, hargs⟩ := List.forall_mem_cons.mp h
    have hrest := ih (r := { r.word arg with ended := false }) hwaiting rfl hargs
    rw [foldlM_cons_of_step (step_of_isPlainWord hwaiting hended harg)]
    refine hrest.trans ?_
    rw [withWords, withWords, word, List.append_assoc, ← hended]
    rfl

end Reading

open Reading

theorem read_of_foldlM (h : args.foldlM (step accepted mixed) {} = .ok r)
    (hwaiting : r.waiting = none) : Line.read accepted mixed args = .ok r.line := by
  unfold Line.read
  rw [h]
  simp only [bind, Except.bind]
  rw [hwaiting]
  rfl

/-- The words that a command line gives by their places are all that it gives. -/
theorem read_of_gives (accepted : List Switch) (h : Gives words args) :
    Line.read accepted true args = .ok { words := words } := by
  cases h with
  | plain h => exact read_of_foldlM (foldlM_of_isPlainWord rfl rfl h) rfl
  | hyphens before after hwords hbefore =>
    have hfold : (before ++ ['-', '-'] :: after).foldlM (step accepted true) {} =
        after.foldlM (step accepted true) { withWords {} before with ended := true } := by
      rw [List.foldlM_append, foldlM_of_isPlainWord rfl rfl hbefore]
      exact foldlM_cons_of_step (step_hyphens (r := withWords {} before) rfl rfl) after
    rw [hwords]
    exact read_of_foldlM (hfold.trans (foldlM_of_ended rfl rfl after)) rfl

/-- After the name of a command nothing is read before the command is known. -/
theorem read_of_command (accepted : List Switch) {name : Text} (h : IsPlainWord name)
    (args : List Text) :
    Line.read accepted false (name :: args) = .ok { words := name :: args } :=
  read_of_foldlM ((foldlM_cons_of_step (step_of_isPlainWord rfl rfl h) args).trans
    (foldlM_of_ended rfl rfl args)) rfl

/-! ## Characters -/

/-- A character is in no word and in no value of a line. -/
def Line.Lacks (l : Line) (c : Char) : Prop :=
  (∀ word ∈ l.words, c ∉ word) ∧ ∀ s ∈ l.switches, c ∉ s.2

theorem suffix_of_cutAt? {p : Char → Bool} {t before after : Text}
    (h : Text.cutAt? p t = some (before, after)) : after <:+ t := by
  induction t generalizing before with
  | nil => cases h
  | cons a t ih =>
    rw [Text.cutAt?] at h
    split at h
    · rw [← (Prod.mk.inj (Option.some.inj h)).2]
      exact List.suffix_cons a t
    · obtain ⟨⟨start, rest⟩, hcut, heq⟩ := Option.map_eq_some_iff.mp h
      obtain rfl : rest = after := (Prod.mk.inj heq).2
      exact (ih hcut).trans (List.suffix_cons a t)

namespace Reading

theorem lacks_give (h : r.line.Lacks c) {value : Text} (hvalue : c ∉ value) (s : Switch) :
    (r.give s value).line.Lacks c := by
  refine ⟨h.1, fun given hgiven => ?_⟩
  rcases List.mem_append.mp hgiven with hgiven | hgiven
  · exact h.2 given hgiven
  · rw [List.mem_singleton.mp hgiven]
    exact hvalue

theorem lacks_word (h : r.line.Lacks c) (harg : c ∉ arg) : (r.word arg).line.Lacks c := by
  refine ⟨fun word hword => ?_, h.2⟩
  rcases List.mem_append.mp hword with hword | hword
  · exact h.1 word hword
  · rw [List.mem_singleton.mp hword]
    exact harg

theorem lacks_letters (h : r.line.Lacks c) (harg : c ∉ arg)
    (hread : letters accepted r arg = .ok r') : r'.line.Lacks c := by
  induction arg generalizing r with
  | nil =>
    rw [letters] at hread
    exact Except.ok.inj hread ▸ h
  | cons a rest ih =>
    have hrest : c ∉ rest := fun hmem => harg (List.mem_cons_of_mem a hmem)
    rw [letters] at hread
    split at hread
    · cases hread
    · split at hread
      · exact ih (lacks_give h List.not_mem_nil _) hrest hread
      · split at hread
        · exact Except.ok.inj hread ▸ h
        · exact Except.ok.inj hread ▸ lacks_give h hrest _

theorem lacks_hyphened (h : r.line.Lacks c) (harg : c ∉ arg)
    (hread : hyphened accepted r arg = .ok r') : r'.line.Lacks c := by
  unfold hyphened at hread
  cases hcut : Text.cutAt? (· == '=') arg with
  | none =>
    simp only [hcut] at hread
    split at hread
    · next heq => cases heq
    · split at hread
      · exact Except.ok.inj hread ▸ h
      · exact Except.ok.inj hread ▸ lacks_give h List.not_mem_nil _
    · split at hread
      · cases hread
      · exact lacks_letters h (fun hmem => harg (List.mem_of_mem_drop hmem)) hread
  | some parts =>
    obtain ⟨form, value⟩ := parts
    have hvalue : c ∉ value := fun hmem => harg ((suffix_of_cutAt? hcut).subset hmem)
    simp only [hcut] at hread
    split at hread
    · next heq =>
      obtain rfl := Option.some.inj heq
      split at hread
      · exact Except.ok.inj hread ▸ lacks_give h hvalue _
      · cases hread
    · next heq => cases heq
    · split at hread
      · cases hread
      · exact lacks_letters h (fun hmem => harg (List.mem_of_mem_drop hmem)) hread

theorem lacks_step (h : r.line.Lacks c) (harg : c ∉ arg)
    (hread : step accepted mixed r arg = .ok r') : r'.line.Lacks c := by
  unfold step at hread
  split at hread
  · exact Except.ok.inj hread ▸ lacks_give h harg _
  · split at hread
    · exact Except.ok.inj hread ▸ lacks_word h harg
    · split at hread
      · exact Except.ok.inj hread ▸ h
      · split at hread
        · exact lacks_hyphened h harg hread
        · exact Except.ok.inj hread ▸ lacks_word h harg

theorem lacks_foldlM (h : r.line.Lacks c) (hargs : ∀ arg ∈ args, c ∉ arg)
    (hread : args.foldlM (step accepted mixed) r = .ok r') : r'.line.Lacks c := by
  induction args generalizing r with
  | nil => exact Except.ok.inj hread ▸ h
  | cons arg args ih =>
    obtain ⟨harg, hargs⟩ := List.forall_mem_cons.mp hargs
    rw [List.foldlM_cons] at hread
    obtain ⟨r₁, hstep, hread⟩ := exists_of_bind_eq_ok hread
    exact ih (lacks_step h harg hstep) hargs hread

end Reading

/-- A character that is in no word of a command line is in nothing that it gives. -/
theorem Line.lacks_of_read (hargs : ∀ arg ∈ args, c ∉ arg)
    (h : Line.read accepted mixed args = .ok l) : l.Lacks c := by
  unfold Line.read at h
  obtain ⟨r, hfold, h⟩ := exists_of_bind_eq_ok h
  split at h
  · cases h
  · have hnothing : Line.Lacks {} c :=
      ⟨fun _ hmem => absurd hmem List.not_mem_nil, fun _ hmem => absurd hmem List.not_mem_nil⟩
    exact Except.ok.inj h ▸ Reading.lacks_foldlM (r := {}) hnothing hargs hfold

end TaggedOutline.Frontend
