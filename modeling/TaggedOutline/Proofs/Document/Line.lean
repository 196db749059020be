import Mathlib.Data.List.Basic
import TaggedOutline.Document.Line
import TaggedOutline.Proofs.Text.Basic

/-!
# Splitting into lines

A text is split into ended lines and one open line after them (`exists_ofText`), and ended lines in
front of a text are split off as they are (`ofText_join_append`). So lines can be left out, changed
or put together, and the text of what results is split into just these lines again. In a text that
ends with a break the open line is empty (`exists_ofText_of_endsWith`), and lines can be put in
another order (`ofText_join_of_isClosed`).
-/

namespace TaggedOutline.Line

theorem join_append (a b : List Line) : join (a ++ b) = join a ++ join b := List.flatMap_append

/-- The line ends with a break and is not split anywhere else. -/
structure IsEnded (l : Line) : Prop where
  ends : l.terminator ≠ .none
  lineFeed : '\n' ∉ l.content
  carriageReturn : l.terminator = .lf → l.content.getLast? ≠ some '\r'

theorem ofText_cons {c : Char} {r : Text} (hc : c ≠ '\n') (hr : c = '\r' → r.head? ≠ some '\n') :
    ofText (c :: r) = (ofText r).modifyHead (cons c) := by
  rw [ofText]
  · exact hc
  · rintro s rfl rfl
    exact hr rfl rfl

theorem ofText_of_no_lineFeed {t : Text} (h : '\n' ∉ t) : ofText t = [⟨t, .none⟩] := by
  induction t with
  | nil => rfl
  | cons c r ih =>
    rw [List.mem_cons, not_or] at h
    rw [ofText_cons (Ne.symm h.1) fun _ e => h.2 (List.mem_of_mem_head? e), ih h.2]
    rfl

/-- There is one line more than there are line feeds. -/
theorem length_ofText (t : Text) : (ofText t).length = t.count '\n' + 1 := by
  fun_induction ofText t with
  | case1 => rfl
  | case2 r ih => rw [List.length_cons, ih, List.count_cons_self]
  | case3 r ih => rw [List.length_cons, ih, List.count_cons_of_ne (by decide), List.count_cons_self]
  | case4 c r hc hr ih => rw [List.length_modifyHead, ih, List.count_cons_of_ne hc]

theorem ofText_text_append {l : Line} (h : l.IsEnded) (t : Text) :
    ofText (l.text ++ t) = l :: ofText t := by
  obtain ⟨content, terminator⟩ := l
  obtain ⟨hends, hfeed, hreturn⟩ := h
  simp only at hends hfeed hreturn
  unfold text
  induction content with
  | nil => cases terminator with
    | none => exact absurd rfl hends
    | lf => rfl
    | crlf => rfl
  | cons c r ih =>
    rw [List.mem_cons, not_or] at hfeed
    have hlast : terminator = .lf → r.getLast? ≠ some '\r' := by
      intro ht hr
      refine hreturn ht ?_
      rw [List.getLast?_cons, hr]
      rfl
    have hhead : c = '\r' → (r ++ terminator.text ++ t).head? ≠ some '\n' := by
      rintro rfl
      cases r with
      | cons x s =>
        intro e
        exact hfeed.2 (List.mem_of_mem_head? e)
      | nil => cases terminator with
        | none => exact absurd rfl hends
        | lf => exact absurd rfl (hreturn rfl)
        | crlf => simp [Terminator.text]
    show ofText (c :: (r ++ terminator.text ++ t)) = _
    rw [ofText_cons (Ne.symm hfeed.1) hhead, ih hfeed.2 hlast]
    rfl

/-- Ended lines in front of a text are split off. -/
theorem ofText_join_append {ls : List Line} (h : ∀ l ∈ ls, l.IsEnded) (t : Text) :
    ofText (join ls ++ t) = ls ++ ofText t := by
  induction ls with
  | nil => rfl
  | cons l ls ih =>
    have hj : join (l :: ls) ++ t = l.text ++ (join ls ++ t) := by simp [join]
    rw [hj, ofText_text_append (h l List.mem_cons_self),
      ih fun x hx => h x (List.mem_cons_of_mem l hx)]
    rfl

theorem isEnded_cons {c : Char} {l : Line} (h : l.IsEnded) (hc : c ≠ '\n')
    (hr : c = '\r' → l.content = [] → l.terminator ≠ .lf) : (cons c l).IsEnded := by
  refine ⟨h.ends, ?_, fun ht hlast => ?_⟩
  · rw [cons, List.mem_cons, not_or]
    exact ⟨hc.symm, h.lineFeed⟩
  · cases hl : l.content with
    | nil =>
      have : c = '\r' := by simpa [cons, hl] using hlast
      exact hr this hl ht
    | cons x s =>
      refine h.carriageReturn ht ?_
      rw [hl]
      rw [show (cons c l).content = c :: x :: s by rw [cons, hl], List.getLast?_cons_cons] at hlast
      exact hlast

/-- A text is split into ended lines and an open one. -/
theorem exists_ofText (t : Text) :
    ∃ ls last, ofText t = ls ++ [⟨last, .none⟩] ∧ (∀ l ∈ ls, l.IsEnded) ∧ '\n' ∉ last := by
  fun_induction ofText t with
  | case1 => exact ⟨[], [], rfl, by simp, by simp⟩
  | case2 r ih =>
    obtain ⟨ls, last, h, hls, hlast⟩ := ih
    refine ⟨⟨[], .lf⟩ :: ls, last, by rw [h]; rfl, fun l hl => ?_, hlast⟩
    rcases List.mem_cons.mp hl with rfl | hl
    · exact ⟨by simp, by simp, by simp⟩
    · exact hls l hl
  | case3 r ih =>
    obtain ⟨ls, last, h, hls, hlast⟩ := ih
    refine ⟨⟨[], .crlf⟩ :: ls, last, by rw [h]; rfl, fun l hl => ?_, hlast⟩
    rcases List.mem_cons.mp hl with rfl | hl
    · exact ⟨by simp, by simp, by simp⟩
    · exact hls l hl
  | case4 c r hc hr ih =>
    obtain ⟨ls, last, h, hls, hlast⟩ := ih
    cases ls with
    | nil =>
      refine ⟨[], c :: last, by rw [h]; rfl, by simp, ?_⟩
      rw [List.mem_cons, not_or]
      exact ⟨fun e => hc e.symm, hlast⟩
    | cons l ls =>
      refine ⟨cons c l :: ls, last, by rw [h]; rfl, fun x hx => ?_, hlast⟩
      rcases List.mem_cons.mp hx with rfl | hx
      · refine isEnded_cons (hls l List.mem_cons_self) hc fun hcr hl ht => ?_
        -- A bare line feed would follow the carriage return.
        have hjoin := join_ofText r
        rw [h] at hjoin
        refine hr (join (ls ++ [⟨last, .none⟩])) hcr ?_
        rw [← hjoin]
        simp [join, text, hl, ht, Terminator.text]
      · exact hls x (List.mem_cons_of_mem l hx)

theorem lineFeed_not_mem_of_mem_contents {t line : Text} (h : line ∈ contents t) : '\n' ∉ line := by
  obtain ⟨ls, last, hsplit, hls, hlast⟩ := exists_ofText t
  obtain ⟨l, hl, rfl⟩ := List.mem_map.mp h
  rw [hsplit] at hl
  rcases List.mem_append.mp hl with hl | hl
  · exact (hls l hl).lineFeed
  · rw [List.mem_singleton] at hl
    rw [hl]
    exact hlast

/-- Lines that look like those a text is split into are those their text is split into. -/
theorem ofText_join {ls : List Line} {last : Text} (h : ∀ l ∈ ls, l.IsEnded) (hlast : '\n' ∉ last) :
    ofText (join (ls ++ [⟨last, .none⟩])) = ls ++ [⟨last, .none⟩] := by
  have hj : join (ls ++ [⟨last, .none⟩]) = join ls ++ last := by
    simp [join, text, Terminator.text]
  rw [hj, ofText_join_append h, ofText_of_no_lineFeed hlast]

/-- Texts with a line feed between them are split where each of them is. A carriage return before
the line feed would become a part of the break. -/
theorem contents_append_lineFeed {a : Text} (ha : a.getLast? ≠ some '\r') (b : Text) :
    contents (a ++ '\n' :: b) = contents a ++ contents b := by
  obtain ⟨ls, last, hsplit, hls, hlast⟩ := exists_ofText a
  have htext : a = join ls ++ last := by
    rw [← join_ofText a, hsplit]
    simp [join, text, Terminator.text]
  have hreturn : last.getLast? ≠ some '\r' := by
    intro h
    have hne : last ≠ [] := by
      rintro rfl
      exact absurd h (by simp)
    refine ha ?_
    rw [htext, List.getLast?_append_of_ne_nil _ hne]
    exact h
  have hended : ∀ l ∈ ls ++ [⟨last, .lf⟩], l.IsEnded := by
    intro l hl
    rcases List.mem_append.mp hl with hl | hl
    · exact hls l hl
    · rw [List.mem_singleton.mp hl]
      exact ⟨by simp, hlast, fun _ => hreturn⟩
  have hjoin : a ++ '\n' :: b = join (ls ++ [⟨last, .lf⟩]) ++ b := by
    rw [htext]
    simp [join, text, Terminator.text]
  rw [contents, hjoin, ofText_join_append hended, contents, contents, hsplit]
  simp

/-! ## Texts that end with a break -/

/-- The line has its break, or is the empty line at the end. -/
def IsClosed (l : Line) : Prop := l.IsEnded ∨ l = ⟨[], .none⟩

variable {l : Line} {ls : List Line} {t : Text}

theorem IsEnded.ne_empty (h : l.IsEnded) : l ≠ ⟨[], .none⟩ := by
  rintro rfl
  exact h.ends rfl

theorem IsEnded.endsWith (h : l.IsEnded) : ∃ front, l.text = front ++ ['\n'] := by
  obtain ⟨content, terminator⟩ := l
  cases terminator with
  | none => exact absurd rfl h.ends
  | lf => exact ⟨content, rfl⟩
  | crlf => exact ⟨content ++ ['\r'], by simp [text, Terminator.text]⟩

/-- A text that ends with a break is split into ended lines and an empty one. -/
theorem exists_ofText_of_endsWith (h : Text.endsWith ['\n'] t = true) :
    ∃ ls, ofText t = ls ++ [⟨[], .none⟩] ∧ ∀ l ∈ ls, l.IsEnded := by
  obtain ⟨front, hfront⟩ := Option.isSome_iff_exists.mp h
  obtain rfl := Text.before?_eq_some_iff.mp hfront
  obtain ⟨ls, last, hsplit, hls, hlast⟩ := exists_ofText (front ++ ['\n'])
  have htext := join_ofText (front ++ ['\n'])
  rw [hsplit] at htext
  cases last with
  | nil => exact ⟨ls, hsplit, hls⟩
  | cons c r =>
    -- The last character would be on the open line.
    refine absurd ?_ hlast
    have hend := congrArg List.getLast? htext
    rw [join_append, List.getLast?_append_of_ne_nil _ (by simp [join, text]),
      List.getLast?_concat] at hend
    exact List.mem_of_getLast? (by simpa [join, text, Terminator.text] using hend)

theorem isClosed_of_endsWith (h : Text.endsWith ['\n'] t = true) : ∀ l ∈ ofText t, l.IsClosed := by
  obtain ⟨ls, hsplit, hls⟩ := exists_ofText_of_endsWith h
  intro l hl
  rw [hsplit] at hl
  exact (List.mem_append.mp hl).imp (hls l) List.mem_singleton.mp

/-- The text of closed lines ends with a break. -/
theorem endsWith_join (h : ∀ l ∈ ls, l.IsClosed) :
    join ls = [] ∨ Text.endsWith ['\n'] (join ls) = true := by
  induction ls using List.reverseRecOn with
  | nil => exact .inl rfl
  | append_singleton ls l ih =>
    have hjoin : join (ls ++ [l]) = join ls ++ l.text := by simp [join]
    rw [hjoin]
    rcases h l (by simp) with hl | rfl
    · obtain ⟨front, hfront⟩ := hl.endsWith
      rw [hfront, ← List.append_assoc, Text.endsWith, Text.before?_append]
      exact .inr rfl
    · rw [show text ⟨[], .none⟩ = [] from rfl, List.append_nil]
      exact ih fun x hx => h x (List.mem_append_left _ hx)

/-- A text of which the last line is empty ends with a break, or is empty itself. -/
theorem endsWith_of_ofText (hsplit : ofText t = ls ++ [⟨[], .none⟩]) (hls : ∀ l ∈ ls, l.IsEnded) :
    t = [] ∨ Text.endsWith ['\n'] t = true := by
  have hclosed : ∀ l ∈ ofText t, l.IsClosed := by
    intro l hl
    rw [hsplit, List.mem_append, List.mem_singleton] at hl
    exact hl.imp_left (hls l)
  have hend := endsWith_join hclosed
  rwa [join_ofText] at hend

theorem endsWith_of_contents {front : List Text} (hne : front ≠ [])
    (h : contents t = front ++ [[]]) : Text.endsWith ['\n'] t = true := by
  obtain ⟨ls, last, hsplit, hls, -⟩ := exists_ofText t
  have hlast := h
  rw [contents, hsplit, List.map_append, List.map_singleton] at hlast
  obtain rfl : last = [] := (List.cons.inj (List.append_inj' hlast rfl).2).1
  refine (endsWith_of_ofText hsplit hls).resolve_left ?_
  rintro rfl
  exact hne (List.append_cancel_right (h.symm.trans (List.nil_append [[]]).symm))

theorem join_filter_ne_empty (ls : List Line) : join (ls.filter (· ≠ ⟨[], .none⟩)) = join ls := by
  induction ls with
  | nil => rfl
  | cons l ls ih =>
    rw [List.filter_cons]
    split
    · simpa [join] using ih
    · next hl =>
      obtain rfl : l = ⟨[], .none⟩ := by simpa using hl
      simpa [join, text, Terminator.text] using ih

/-- Closed lines are split as they are, with an empty line at the end. -/
theorem ofText_join_of_isClosed (h : ∀ l ∈ ls, l.IsClosed) :
    ofText (join ls) = ls.filter (· ≠ ⟨[], .none⟩) ++ [⟨[], .none⟩] := by
  have hended : ∀ l ∈ ls.filter (· ≠ ⟨[], .none⟩), l.IsEnded := by
    intro l hl
    obtain ⟨hl, hne⟩ := List.mem_filter.mp hl
    exact (h l hl).resolve_right (by simpa using hne)
  have hsplit := ofText_join_append hended []
  rw [List.append_nil, join_filter_ne_empty] at hsplit
  rw [hsplit]
  rfl

end TaggedOutline.Line
