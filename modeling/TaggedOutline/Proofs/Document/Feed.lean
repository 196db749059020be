import Mathlib.Data.List.DropRight
import TaggedOutline.Proofs.Document.Line

/-!
# Texts in which a line feed follows

Where a line feed follows a text, a carriage return at the end of the text becomes a part of the
break (`fed`). In a text of which the breaks have become line feeds this befalls every line
(`fed_unifyBreaks`), so all that a new document has of a line is the line without its last carriage
return.
-/

namespace TaggedOutline.Line

/-- A line without the carriage return at its end. -/
def withoutReturn (line : Text) : Text :=
  if line.getLast? = some '\r' then line.dropLast else line

/-- The contents of the lines of a text when a line feed follows it. -/
def fed (t : Text) : List Text := (contents (t ++ ['\n'])).dropLast

variable {t : Text}

/-! ## Single lines -/

theorem withoutReturn_of_getLast? (h : t.getLast? ≠ some '\r') : withoutReturn t = t := if_neg h

theorem withoutReturn_concat (t : Text) : withoutReturn (t ++ ['\r']) = t := by
  rw [withoutReturn, if_pos List.getLast?_concat, List.dropLast_concat]

/-- A line has a carriage return at its end, or stays as it is. -/
theorem withoutReturn_cases (t : Text) :
    withoutReturn t = t ∨ t = withoutReturn t ++ ['\r'] := by
  by_cases h : t.getLast? = some '\r'
  · right
    obtain ⟨front, rfl⟩ := List.getLast?_eq_some_iff.mp h
    rw [withoutReturn_concat]
  · exact .inl (withoutReturn_of_getLast? h)

theorem mem_of_mem_withoutReturn {c : Char} (h : c ∈ withoutReturn t) : c ∈ t := by
  rcases withoutReturn_cases t with he | he
  · rwa [he] at h
  · rw [he]
    exact List.mem_append_left _ h

/-- A line takes the line feed after it, and a carriage return at its end with it. -/
theorem exists_isEnded_lineFeed (h : '\n' ∉ t) :
    ∃ l : Line, l.IsEnded ∧ l.content = withoutReturn t ∧ l.text = t ++ ['\n'] := by
  rcases withoutReturn_cases t with he | he
  · by_cases hr : t.getLast? = some '\r'
    · obtain ⟨front, rfl⟩ := List.getLast?_eq_some_iff.mp hr
      rw [withoutReturn_concat] at he
      exact absurd (congrArg List.length he) (by simp)
    · exact ⟨⟨t, .lf⟩, ⟨by simp, h, fun _ => hr⟩, he.symm, rfl⟩
  · refine ⟨⟨withoutReturn t, .crlf⟩, ⟨by simp, fun hm => ?_, by simp⟩, rfl, ?_⟩
    · exact h (mem_of_mem_withoutReturn hm)
    · conv_rhs => rw [he]
      simp [text, Terminator.text]

/-! ## Texts -/

/-- A text and a line feed are some ended lines. -/
theorem exists_join_append_lineFeed (t : Text) : ∃ ls last, (∀ l ∈ ls, l.IsEnded) ∧
    contents t = (ls.map content).dropLast ++ [last] ∧
    ls.map content = (ls.map content).dropLast ++ [withoutReturn last] ∧
    ∀ r, t ++ '\n' :: r = join ls ++ r := by
  obtain ⟨ls, last, hsplit, hls, hlast⟩ := exists_ofText t
  have htext : t = join ls ++ last := by
    rw [← join_ofText t, hsplit]
    simp [join, text, Terminator.text]
  obtain ⟨l, hl, hcontent, hlf⟩ := exists_isEnded_lineFeed hlast
  refine ⟨ls ++ [l], last, fun x hx => ?_, ?_, ?_, fun r => ?_⟩
  · rcases List.mem_append.mp hx with hx | hx
    · exact hls x hx
    · rw [List.mem_singleton.mp hx]
      exact hl
  · rw [contents, hsplit, List.map_append, List.map_append, List.map_singleton, List.map_singleton,
      List.dropLast_concat]
  · rw [List.map_append, List.map_singleton, List.dropLast_concat, hcontent]
  · have hlast : join [l] = last ++ ['\n'] := by rw [← hlf, join, List.flatMap_singleton]
    rw [htext, join_append, hlast]
    simp

theorem fed_ne_nil (t : Text) : fed t ≠ [] := by
  obtain ⟨ls, last, hls, -, hfed, hjoin⟩ := exists_join_append_lineFeed t
  rw [fed, contents, hjoin [], ofText_join_append hls, List.map_append]
  intro h
  rw [hfed] at h
  simp [ofText] at h

/-- After a line feed a text is split on its own. -/
theorem contents_append_feed (t r : Text) : contents (t ++ '\n' :: r) = fed t ++ contents r := by
  obtain ⟨ls, last, hls, -, -, hjoin⟩ := exists_join_append_lineFeed t
  have hcontents (r : Text) : contents (t ++ '\n' :: r) = ls.map content ++ contents r := by
    rw [hjoin, contents, ofText_join_append hls, List.map_append]
    rfl
  rw [hcontents, fed, hcontents, show contents [] = [[]] from rfl, List.dropLast_concat]

/-- The lines of a text stay as they are, apart from the end of the last one. -/
theorem exists_fed_eq (t : Text) :
    ∃ front last, contents t = front ++ [last] ∧ fed t = front ++ [withoutReturn last] := by
  obtain ⟨ls, last, hls, hcontents, hfed, hjoin⟩ := exists_join_append_lineFeed t
  refine ⟨_, last, hcontents, ?_⟩
  rw [← hfed, fed, hjoin [], contents, ofText_join_append hls, List.map_append,
    show (ofText []).map content = [[]] from rfl, List.dropLast_concat]

/-- A line feed after a text is a break of its own where no carriage return stands before it. -/
theorem fed_of_getLast? (h : t.getLast? ≠ some '\r') : fed t = contents t := by
  rw [fed, contents_append_lineFeed h, show contents [] = [[]] from rfl, List.dropLast_concat]

theorem length_fed (t : Text) : (fed t).length = (contents t).length := by
  obtain ⟨front, last, hcontents, hfed⟩ := exists_fed_eq t
  rw [hcontents, hfed, List.length_append, List.length_append]
  rfl

theorem fed_nil : fed [] = [[]] := rfl

theorem fed_append_feed (a b : Text) : fed (a ++ '\n' :: b) = fed a ++ fed b := by
  have hne : contents (b ++ ['\n']) ≠ [] := by
    rw [contents_append_feed]
    exact List.append_ne_nil_of_left_ne_nil (fed_ne_nil b) _
  rw [fed, List.append_assoc, List.cons_append, contents_append_feed,
    List.dropLast_append_of_ne_nil hne]
  rfl

theorem fed_of_no_lineFeed (h : '\n' ∉ t) : fed t = [withoutReturn t] := by
  obtain ⟨front, last, hcontents, hfed⟩ := exists_fed_eq t
  rw [contents, ofText_of_no_lineFeed h] at hcontents
  obtain ⟨rfl, rfl⟩ : front = [] ∧ last = t := by
    cases front with
    | nil => exact ⟨rfl, (List.cons.inj hcontents).1.symm⟩
    | cons x front => exact absurd (congrArg List.length hcontents) (by simp)
  rw [hfed, List.nil_append]

/-! ## Line feeds for breaks -/

theorem unifyBreaks_of_no_lineFeed (h : '\n' ∉ t) : Text.unifyBreaks t = t := by
  fun_induction Text.unifyBreaks t with
  | case1 r => exact absurd h (by simp)
  | case2 c r hne ih => rw [ih fun hm => h (List.mem_cons_of_mem c hm)]
  | case3 => rfl

theorem unifyBreaks_text_append {l : Line} (h : l.IsEnded) (r : Text) :
    Text.unifyBreaks (l.text ++ r) = l.content ++ '\n' :: Text.unifyBreaks r := by
  obtain ⟨content, terminator⟩ := l
  obtain ⟨hends, hfeed, hreturn⟩ := h
  simp only at hends hfeed hreturn
  unfold text
  induction content with
  | nil => cases terminator with
    | none => exact absurd rfl hends
    | lf => rfl
    | crlf => rfl
  | cons c s ih =>
    rw [List.mem_cons, not_or] at hfeed
    have hlast : terminator = .lf → s.getLast? ≠ some '\r' := by
      intro ht hr
      refine hreturn ht ?_
      rw [List.getLast?_cons, hr]
      rfl
    have hnext : ∀ u, c = '\r' → s ++ terminator.text ++ r = '\n' :: u → False := by
      rintro u rfl hu
      cases s with
      | cons x s =>
        obtain ⟨rfl, -⟩ := List.cons.inj hu
        exact hfeed.2 List.mem_cons_self
      | nil => cases terminator with
        | none => exact absurd rfl hends
        | lf => exact absurd rfl (hreturn rfl)
        | crlf => simp [Terminator.text] at hu
    show Text.unifyBreaks (c :: (s ++ terminator.text ++ r)) = _
    rw [Text.unifyBreaks, ih hfeed.2 hlast]
    · rfl
    · exact hnext

/-- With line feeds for breaks, a text is its lines with one between two neighbours. -/
theorem unifyBreaks_eq_joinWith (t : Text) :
    Text.unifyBreaks t = Text.joinWith ['\n'] (contents t) := by
  obtain ⟨ls, last, hsplit, hls, hlast⟩ := exists_ofText t
  have htext : t = join ls ++ last := by
    rw [← join_ofText t, hsplit]
    simp [join, text, Terminator.text]
  rw [contents, hsplit, List.map_append, htext]
  clear hsplit htext
  induction ls with
  | nil => exact unifyBreaks_of_no_lineFeed hlast
  | cons l ls ih =>
    have hjoin : join (l :: ls) ++ last = l.text ++ (join ls ++ last) := by simp [join]
    rw [hjoin, unifyBreaks_text_append (hls l List.mem_cons_self),
      ih fun x hx => hls x (List.mem_cons_of_mem l hx)]
    cases ls <;> simp [Text.joinWith]

/-- The line feeds at the end of a text stand for empty lines. -/
theorem exists_fed_dropFinalFeeds (t : Text) :
    ∃ k, fed t = fed (Text.dropFinalFeeds t) ++ List.replicate k [] := by
  have hsplit : t = Text.dropFinalFeeds t ++ t.rtakeWhile (· == '\n') :=
    List.rdropWhile_append_rtakeWhile.symm
  have hfeeds : t.rtakeWhile (· == '\n') =
      List.replicate (t.rtakeWhile (· == '\n')).length '\n' :=
    List.eq_replicate_of_mem fun c hc => by simpa using List.mem_rtakeWhile_imp hc
  have hfed (a : Text) (k : Nat) :
      fed (a ++ List.replicate k '\n') = fed a ++ List.replicate k [] := by
    induction k with
    | zero => rw [List.replicate_zero, List.replicate_zero, List.append_nil, List.append_nil]
    | succ k ih =>
      rw [List.replicate_succ', ← List.append_assoc, fed_append_feed, ih, fed_nil,
        List.append_assoc, ← List.replicate_succ']
  refine ⟨(t.rtakeWhile (· == '\n')).length, ?_⟩
  conv_lhs => rw [hsplit, hfeeds]
  exact hfed _ _

/-! ## Carriage returns in breaks only -/

/-- Each carriage return is a part of a break: a line feed comes right after it. -/
def ReturnsBreak (t : Text) : Prop := ∀ i : Nat, t[i]? = some '\r' → t[i + 1]? = some '\n'

instance (t : Text) : Decidable (ReturnsBreak t) :=
  decidable_of_iff (∀ i < t.length, t[i]? = some '\r' → t[i + 1]? = some '\n')
    ⟨fun h i hi => h i (List.getElem?_eq_some_iff.mp hi).1 hi, fun h i _ => h i⟩

theorem ReturnsBreak.tail {c : Char} (h : ReturnsBreak (c :: t)) : ReturnsBreak t :=
  fun i hi => h (i + 1) hi

theorem ReturnsBreak.return_not_mem (h : ReturnsBreak t) :
    ∀ line ∈ contents t, '\r' ∉ line := by
  unfold contents
  fun_induction ofText t with
  | case1 => simp
  | case2 r ih => simpa using ih h.tail
  | case3 r ih => simpa using ih h.tail.tail
  | case4 c r _ hreturn ih =>
    have hc : '\r' ≠ c := by
      rintro rfl
      have hhead : r.head? = some '\n' := List.head?_eq_getElem? ▸ h 0 rfl
      obtain ⟨s, rfl⟩ := List.head?_eq_some_iff.mp hhead
      exact hreturn s rfl rfl
    cases hr : ofText r with
    | nil => exact absurd hr (ofText_ne_nil r)
    | cons l ls =>
      have hlines := ih h.tail
      rw [hr, List.map_cons] at hlines
      rw [List.modifyHead_cons, List.map_cons]
      intro line hline
      rcases List.mem_cons.mp hline with rfl | hline
      · rw [cons, List.mem_cons, not_or]
        exact ⟨hc, hlines l.content List.mem_cons_self⟩
      · exact hlines line (List.mem_cons_of_mem _ hline)

/-! ## Joined texts -/

theorem fed_joinWith {ts : List Text} (hts : ∀ t ∈ ts, '\n' ∉ t) (t : Text) :
    fed (Text.joinWith ['\n'] (ts ++ [t])) = ts.map withoutReturn ++ fed t := by
  induction ts with
  | nil => rfl
  | cons s ts ih =>
    have hjoin : Text.joinWith ['\n'] (s :: (ts ++ [t])) =
        s ++ '\n' :: Text.joinWith ['\n'] (ts ++ [t]) := by
      cases ts <;> simp [Text.joinWith]
    rw [List.cons_append, hjoin, fed_append_feed, fed_of_no_lineFeed (hts s List.mem_cons_self),
      ih fun x hx => hts x (List.mem_cons_of_mem s hx)]
    rfl

theorem fed_joinWith_lines {ts : List Text} (hne : ts ≠ []) (hts : ∀ t ∈ ts, '\n' ∉ t) :
    fed (Text.joinWith ['\n'] ts) = ts.map withoutReturn := by
  rcases List.eq_nil_or_concat ts with rfl | ⟨front, last, rfl⟩
  · exact absurd rfl hne
  · rw [List.concat_eq_append] at hts ⊢
    rw [fed_joinWith fun t ht => hts t (List.mem_append_left _ ht),
      fed_of_no_lineFeed (hts last (by simp)), List.map_append]
    rfl

/-- With line feeds for breaks, each line loses a carriage return at its end. -/
theorem fed_unifyBreaks (t : Text) : fed (Text.unifyBreaks t) = (contents t).map withoutReturn := by
  rw [unifyBreaks_eq_joinWith]
  exact fed_joinWith_lines (by simpa [contents] using ofText_ne_nil t)
    fun line => lineFeed_not_mem_of_mem_contents

/-- What stands before the first break of a text stands before its first line. -/
theorem contents_append_of_plain {p : Text} (hfeed : '\n' ∉ p) (hreturn : '\r' ∉ p) (t : Text) :
    contents (p ++ t) = (contents t).modifyHead (p ++ ·) := by
  induction p with
  | nil =>
    show contents t = (contents t).modifyHead id
    rw [List.modifyHead_id]
    rfl
  | cons c p ih =>
    rw [List.mem_cons, not_or] at hfeed hreturn
    have hcons : contents (c :: (p ++ t)) = (contents (p ++ t)).modifyHead (c :: ·) := by
      rw [contents, ofText_cons (Ne.symm hfeed.1) fun h => absurd h (Ne.symm hreturn.1)]
      cases hls : ofText (p ++ t) with
      | nil => exact absurd hls (ofText_ne_nil _)
      | cons l ls => rw [contents, hls]; rfl
    rw [List.cons_append, hcons, ih hfeed.2 hreturn.2, List.modifyHead_modifyHead]
    rfl

/-- Texts with empty lines between them are split one after another. -/
theorem contents_joinWith {ts : List Text} (hts : ts ≠ []) :
    contents (Text.joinWith ['\n', '\n'] ts ++ ['\n']) = ts.flatMap fun t => fed t ++ [[]] := by
  induction ts with
  | nil => exact absurd rfl hts
  | cons t ts ih =>
    cases ts with
    | nil =>
      show contents (t ++ ['\n']) = _
      rw [contents_append_feed, List.flatMap_singleton]
      rfl
    | cons s ts =>
      have hjoin : Text.joinWith ['\n', '\n'] (t :: s :: ts) ++ ['\n'] =
          t ++ '\n' :: ([] ++ '\n' :: (Text.joinWith ['\n', '\n'] (s :: ts) ++ ['\n'])) := by
        simp [Text.joinWith]
      rw [hjoin, contents_append_feed, contents_append_feed, ih (by simp), fed_nil,
        ← List.append_assoc]
      rfl

end TaggedOutline.Line
