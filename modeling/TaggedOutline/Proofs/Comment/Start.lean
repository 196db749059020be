import Mathlib.Order.Bounds.Basic
import TaggedOutline.Proofs.Comment.Trailing

/-!
# Where the comment of a line starts

A comment may start at an opening if the rest of the line closes it: in Markdown the rest ends with
a closing that nothing but blanks follow, in Typst nothing more is needed (`body?_isSome_iff`). The
comment of a line starts at the first place of this kind (`start_find?_iff`), and stripping the line
leaves what precedes this place, without the blanks at the end (`strip_at_start`).
-/

namespace TaggedOutline.Comment

open Text (isBlank)

variable {markup : Markup} {rest t line : Text} {start k : Nat} {f : Found}

/-! ## Places where a comment may start -/

/-- What follows an opening closes the comment. -/
def Closes : Markup → Text → Prop
  | .markdown, rest =>
    ∃ inside blanks, rest = inside ++ closing ++ blanks ∧ ∀ c ∈ blanks, isBlank c
  | .typst, _ => True

/-- At offset `k` an opening stands that what follows it closes. -/
def OpensAt (markup : Markup) (t : Text) (k : Nat) : Prop :=
  ∃ rest, t.drop k = opening markup ++ rest ∧ Closes markup rest

/-- On a line a body is read iff what follows the opening closes the comment. -/
theorem body?_isSome_iff (hn : '\n' ∉ rest) : (body? markup rest).isSome ↔ Closes markup rest := by
  cases markup with
  | typst =>
    rw [body?_typst hn]
    exact iff_of_true rfl trivial
  | markdown =>
    rw [body?_markdown hn, Option.isSome_map]
    constructor
    · intro h
      obtain ⟨inside, hinside⟩ := Option.isSome_iff_exists.mp h
      obtain ⟨blanks, hrest, hblanks⟩ := Text.exists_trimEnd_append rest
      rw [Text.before?_eq_some_iff.mp hinside] at hrest
      exact ⟨inside, blanks, hrest, hblanks⟩
    · rintro ⟨inside, blanks, rfl, hblanks⟩
      have hlast : ∀ c ∈ (inside ++ closing).getLast?, isBlank c = false := by
        intro c hc
        rw [List.getLast?_append_of_ne_nil _ (by decide)] at hc
        obtain rfl : '>' = c := Option.some.inj hc
        rfl
      rw [Text.trimEnd_append_of_blank hblanks, Text.trimEnd_of_getLast hlast, Text.before?_append]
      rfl

theorem opensAt_cons {c : Char} : OpensAt markup (c :: t) (k + 1) ↔ OpensAt markup t k := Iff.rfl

/-- A comment may start at the front iff one is read there. -/
theorem opensAt_zero_iff (hn : '\n' ∉ t) :
    OpensAt markup t 0 ↔ ((Text.after? (opening markup) t).bind (body? markup)).isSome := by
  constructor
  · rintro ⟨rest, hrest, hcloses⟩
    rw [List.drop_zero] at hrest
    have hnr : '\n' ∉ rest := fun h => hn (hrest ▸ List.mem_append_right _ h)
    rw [hrest, Text.after?_append, Option.bind_some]
    exact (body?_isSome_iff hnr).mpr hcloses
  · intro h
    obtain ⟨found, hfound⟩ := Option.isSome_iff_exists.mp h
    obtain ⟨rest, hrest, hbody⟩ := Option.bind_eq_some_iff.mp hfound
    have ht := Text.after?_eq_some_iff.mp hrest
    have hnr : '\n' ∉ rest := fun h => hn (ht ▸ List.mem_append_right _ h)
    exact ⟨rest, ht, (body?_isSome_iff hnr).mp (Option.isSome_iff_exists.mpr ⟨found, hbody⟩)⟩

/-! ## The first place -/

/-- A comment that is found starts at the first place where one may start. -/
theorem isLeast_of_findFrom? (hn : '\n' ∉ t) (h : findFrom? markup start t = some f) :
    ∃ k, f.start = start + k ∧ IsLeast {k | OpensAt markup t k} k := by
  induction t generalizing start with
  | nil =>
    have hnone : Text.after? (opening markup) [] = none := by cases markup <;> rfl
    rw [findFrom?, hnone] at h
    cases h
  | cons c r ih =>
    have hfront : OpensAt markup (c :: r) 0 ↔ _ := opensAt_zero_iff hn
    rw [findFrom?] at h
    split at h
    · next hbody =>
      obtain rfl := Option.some.inj h
      have hopens : OpensAt markup (c :: r) 0 := hfront.mpr (by rw [hbody]; rfl)
      exact ⟨0, rfl, hopens, fun k _ => Nat.zero_le k⟩
    · next hbody =>
      have hnot : ¬ OpensAt markup (c :: r) 0 := fun hopens => by
        rw [hfront, hbody] at hopens
        cases hopens
      obtain ⟨k, hstart, hopens, hleast⟩ := ih (fun h => hn (List.mem_cons_of_mem c h)) h
      refine ⟨k + 1, by rw [hstart]; omega, opensAt_cons.mpr hopens, fun j hj => ?_⟩
      cases j with
      | zero => exact absurd hj hnot
      | succ j => exact Nat.succ_le_succ (hleast (opensAt_cons.mp hj))

/-- Where no comment is found none may start. -/
theorem not_opensAt_of_find? (hn : '\n' ∉ line) (h : find? markup line = none) (k : Nat) :
    ¬ OpensAt markup line k := by
  rintro ⟨rest, hrest, hcloses⟩
  have hline : line = line.take k ++ (opening markup ++ rest) := by
    rw [← hrest, List.take_append_drop]
  have hnr : '\n' ∉ rest := fun h => hn (by rw [hline]; simp [h])
  have hsome := (body?_isSome_iff hnr).mpr hcloses
  rw [findFrom?_eq_none_iff.mp h _ rest hline] at hsome
  cases hsome

/-- The comment of a line starts at the first place where one may start. -/
theorem start_find?_iff (hn : '\n' ∉ line) :
    (find? markup line).map Found.start = some k ↔ IsLeast {k | OpensAt markup line k} k := by
  cases hfind : find? markup line with
  | none =>
    exact iff_of_false (by simp) fun h => not_opensAt_of_find? hn hfind k h.1
  | some f =>
    obtain ⟨j, hj, hleast⟩ := isLeast_of_findFrom? hn hfind
    rw [Nat.zero_add] at hj
    rw [Option.map_some, Option.some.injEq, hj]
    exact ⟨fun h => h ▸ hleast, hleast.unique⟩

/-- A line without a comment stays as it is, and of any other line what precedes the comment is
left, without the blanks at the end. The comment starts at the first opening that the rest of the
line closes. -/
theorem strip_at_start (markup : Markup) (hn : '\n' ∉ line) :
    (find? markup line = none → strip markup line = line) ∧
      (∀ f, find? markup line = some f →
        strip markup line = Text.trimEnd (line.take f.start)) ∧
      ∀ k, (find? markup line).map Found.start = some k ↔
        IsLeast {k | OpensAt markup line k} k :=
  ⟨strip_of_find?_eq_none hn, fun _ => strip_of_find? hn, fun _ => start_find?_iff hn⟩

/-- Openings and closings that run into each other, and blanks at the end. -/
theorem strip_at_start_nested :
    let line := "T\t <!--> <!-- <!-- a -->-->\x0b ".toList
    '\n' ∉ line ∧ strip .markdown line = ['T'] ∧
      IsLeast {k | OpensAt .markdown line k} 3 ∧ strip .typst line = line := by
  intro line
  have hn : '\n' ∉ line := by decide
  obtain ⟨-, hsome, hstart⟩ := strip_at_start .markdown hn
  obtain ⟨hnone, -, -⟩ := strip_at_start .typst hn
  have hfind : find? .markdown line = some ⟨3, 29, "> <!-- <!-- a -->".toList⟩ := by decide
  refine ⟨hn, ?_, (hstart 3).mp (by rw [hfind]; rfl), hnone (by decide)⟩
  rw [hsome _ hfind]
  decide

end TaggedOutline.Comment
