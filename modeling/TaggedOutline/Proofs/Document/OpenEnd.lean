import TaggedOutline.Proofs.Document.Feed

/-!
# Texts without a final break

The last line of such a text is open and not empty (`Line.exists_ofText_of_not_endsWith`). Where it
comes before other lines it gets a break, and a last break of the same kind is taken off the end
(`Line.closeOpen`). Then the lines are as they were, apart from a carriage return at the end of the
open line (`Line.contents_closeOpen_of_eq`). But if the last break is of another kind, it stays, and
there is an empty line after it (`Line.contents_closeOpen_of_ne`).
-/

namespace TaggedOutline

theorem Text.endsWith_append_eq_false {t u : Text} (hne : u ≠ []) (hfeed : '\n' ∉ u) :
    Text.endsWith ['\n'] (t ++ u) = false := by
  cases hbefore : Text.before? ['\n'] (t ++ u) with
  | none => rw [Text.endsWith, hbefore]; rfl
  | some r =>
    have hlast := congrArg List.getLast? (Text.before?_eq_some_iff.mp hbefore)
    rw [List.getLast?_append_of_ne_nil _ hne, List.getLast?_concat] at hlast
    exact absurd (List.mem_of_getLast? hlast) hfeed

namespace Line

/-! ## The last line -/

/-- A text that does not end with a break has a last line that is not empty. -/
theorem exists_ofText_of_not_endsWith {t : Text} (hopen : Text.endsWith ['\n'] t = false)
    (hne : t ≠ []) : ∃ ls last, ofText t = ls ++ [⟨last, .none⟩] ∧
      (∀ l ∈ ls, l.IsEnded) ∧ '\n' ∉ last ∧ last ≠ [] := by
  obtain ⟨ls, last, hsplit, hls, hlast⟩ := exists_ofText t
  refine ⟨ls, last, hsplit, hls, hlast, ?_⟩
  rintro rfl
  exact (endsWith_of_ofText hsplit hls).elim hne (by simp [hopen])

theorem join_open (last : Text) : join [⟨last, .none⟩] = last := by
  simp [join, text, Terminator.text]

theorem endsWith_join_open (ls : List Line) {last : Text} (hne : last ≠ []) (hfeed : '\n' ∉ last) :
    Text.endsWith ['\n'] (join (ls ++ [⟨last, .none⟩])) = false := by
  rw [join_append, join_open]
  exact Text.endsWith_append_eq_false hne hfeed

/-! ## A break for the last line -/

/-- A text without a break of the given kind at its end. -/
def dropBreak (newline t : Text) : Text := (Text.before? newline t).getD t

/-- The text of some lines, of which the one between `pre` and `post` gets a break. A break of that
kind is taken off the end again. -/
def closeOpen (newline : Text) (pre : List Line) (last : Text) (post : List Line) : Text :=
  dropBreak newline (join pre ++ (last ++ newline) ++ join post)

/-- What is left of the content of a line when a break comes after it: a carriage return at its end
becomes a part of a line feed. -/
def closed (newline last : Text) : Text := if newline = ['\n'] then withoutReturn last else last

variable {newline last : Text} {pre post : List Line} {l : Line}

/-- A line with a break after it is one line. -/
theorem exists_isEnded_append (hnewline : newline = ['\n'] ∨ newline = ['\r', '\n'])
    (hlast : '\n' ∉ last) :
    ∃ l : Line, l.IsEnded ∧ l.content = closed newline last ∧ l.text = last ++ newline := by
  rcases hnewline with rfl | rfl
  · exact exists_isEnded_lineFeed hlast
  · exact ⟨⟨last, .crlf⟩, ⟨by simp, hlast, by simp⟩, rfl, rfl⟩

theorem closeOpen_nil : closeOpen newline pre last [] = join pre ++ last := by
  have htext : join pre ++ (last ++ newline) ++ join [] = join pre ++ last ++ newline := by
    rw [show join [] = [] from rfl, List.append_nil, List.append_assoc]
  rw [closeOpen, htext, dropBreak, Text.before?_append]
  rfl

/-- Ended lines of which the last one has a line feed do not end with the other break. -/
theorem before?_join_concat {ls : List Line} (hls : ∀ x ∈ ls, x.IsEnded) (hl : l.IsEnded)
    (hlf : l.terminator = .lf) : Text.before? ['\r', '\n'] (join (ls ++ [l])) = none := by
  cases hbefore : Text.before? ['\r', '\n'] (join (ls ++ [l])) with
  | none => rfl
  | some r =>
    have hbefore := Text.before?_eq_some_iff.mp hbefore
    have htext : join (ls ++ [l]) = join ls ++ l.content ++ ['\n'] := by
      simp [join, text, hlf, Terminator.text]
    have hend : r ++ ['\r', '\n'] = r ++ ['\r'] ++ ['\n'] := by simp
    rw [htext, hend] at hbefore
    have hreturn := congrArg List.getLast? (List.append_cancel_right hbefore)
    rw [List.getLast?_concat] at hreturn
    by_cases hempty : l.content = []
    · -- The carriage return would be at the end of the line before.
      rw [hempty, List.append_nil] at hreturn
      rcases endsWith_join fun x hx => .inl (hls x hx) with hnil | hends
      · rw [hnil] at hreturn
        exact absurd hreturn (by simp)
      · obtain ⟨front, hfront⟩ := Option.isSome_iff_exists.mp hends
        rw [Text.before?_eq_some_iff.mp hfront, List.getLast?_concat] at hreturn
        exact absurd hreturn (by simp)
    · rw [List.getLast?_append_of_ne_nil _ hempty] at hreturn
      exact absurd hreturn (hl.carriageReturn hlf)

section Contents

variable (hnewline : newline = ['\n'] ∨ newline = ['\r', '\n']) (hpre : ∀ l ∈ pre, l.IsEnded)
  (hlast : '\n' ∉ last)

include hpre hlast

theorem contents_closeOpen_nil :
    contents (closeOpen newline pre last []) = pre.map content ++ [last] := by
  rw [closeOpen_nil, contents, ofText_join_append hpre, ofText_of_no_lineFeed hlast, List.map_append]
  rfl

variable (hpost : ∀ l ∈ post, l.IsEnded) (hl : l.IsEnded)

include hnewline hpost hl

/-- The last break is taken off where it is the one that the open line got. -/
theorem contents_closeOpen_of_eq (hbreak : l.terminator.text = newline) :
    contents (closeOpen newline pre last (post ++ [l])) =
      pre.map content ++ closed newline last :: (post ++ [l]).map content := by
  obtain ⟨m, hm, hcontent, hmtext⟩ := exists_isEnded_append hnewline hlast
  have hended : ∀ x ∈ pre ++ m :: post, x.IsEnded :=
    List.forall_mem_append.mpr ⟨hpre, List.forall_mem_cons.mpr ⟨hm, hpost⟩⟩
  have htext : join pre ++ (last ++ newline) ++ join (post ++ [l]) =
      join (pre ++ m :: post) ++ l.content ++ newline := by
    rw [← hmtext, ← hbreak]
    simp [join, text]
  rw [closeOpen, htext, dropBreak, Text.before?_append, Option.getD_some, contents, ofText_join_append hended,
    ofText_of_no_lineFeed hl.lineFeed, ← hcontent]
  simp

/-- A last break of another kind stays, and an empty line comes after it. -/
theorem contents_closeOpen_of_ne (hbreak : newline = ['\r', '\n']) (hlf : l.terminator = .lf) :
    contents (closeOpen newline pre last (post ++ [l])) =
      pre.map content ++ last :: (post ++ [l]).map content ++ [[]] := by
  obtain ⟨m, hm, hcontent, hmtext⟩ := exists_isEnded_append hnewline hlast
  have hended : ∀ x ∈ pre ++ m :: post, x.IsEnded :=
    List.forall_mem_append.mpr ⟨hpre, List.forall_mem_cons.mpr ⟨hm, hpost⟩⟩
  have htext : join pre ++ (last ++ newline) ++ join (post ++ [l]) =
      join (pre ++ m :: post ++ [l]) := by
    rw [← hmtext]
    simp [join]
  have hnone : Text.before? newline (join (pre ++ m :: post ++ [l])) = none := by
    rw [hbreak]
    exact before?_join_concat hended hl hlf
  have hsplit := ofText_join_append
    (List.forall_mem_append.mpr ⟨hended, List.forall_mem_singleton.mpr hl⟩) []
  rw [List.append_nil] at hsplit
  have hcontent : m.content = last := by rw [hcontent, closed, if_neg (by simp [hbreak])]
  rw [closeOpen, htext, dropBreak, hnone, Option.getD_none, contents, hsplit, ← hcontent]
  simp [ofText]

end Contents

end Line

end TaggedOutline
