import Mathlib.Data.List.DropRight
import Mathlib.Data.List.TakeWhile
import TaggedOutline.Text.Basic

/-!
# Pieces, trimming and words

A text is trimmed iff neither its first nor its last character is blank, and trimming is what makes
it so. The words of a text are those of its parts on both sides of a blank, so words that are
written with single spaces between them are read back.
-/

namespace TaggedOutline.Text

/-! ## Pieces -/

/-- Two pieces of a list of which the second begins where the first ends. -/
theorem drop_take_append_drop_take {α : Type} (l : List α) {a b e : Nat} (hab : a ≤ b)
    (hbe : b ≤ e) : (l.take b).drop a ++ (l.take e).drop b = (l.take e).drop a := by
  have htake : l.take b = (l.take e).take b := by rw [List.take_take, Nat.min_eq_left hbe]
  have hdrop : (l.take e).drop b = ((l.take e).drop a).drop (b - a) := by
    rw [List.drop_drop, Nat.add_sub_cancel' hab]
  rw [htake, List.drop_take, hdrop, List.take_append_drop]

theorem after?_eq_some_iff {start t r : Text} : after? start t = some r ↔ t = start ++ r := by
  unfold after?
  induction start generalizing t with
  | nil => simp [List.isPrefixOf?]
  | cons c s ih =>
    cases t with
    | nil => simp [List.isPrefixOf?]
    | cons x t =>
      by_cases h : c = x
      · simp [List.isPrefixOf?, h, ih]
      · have h' : x ≠ c := fun e => h e.symm
        simp [List.isPrefixOf?, h, h']

theorem after?_append (start r : Text) : after? start (start ++ r) = some r :=
  after?_eq_some_iff.mpr rfl

theorem after?_eq_none_iff {start t : Text} : after? start t = none ↔ ¬ start <+: t := by
  rw [Option.eq_none_iff_forall_not_mem]
  constructor
  · rintro h ⟨r, rfl⟩
    exact h r (after?_append start r)
  · intro h r hr
    exact h ⟨r, (after?_eq_some_iff.mp hr).symm⟩

theorem before?_eq_some_iff {stop t r : Text} : before? stop t = some r ↔ t = r ++ stop := by
  unfold before?
  rw [Option.map_eq_some_iff]
  constructor
  · rintro ⟨a, ha, rfl⟩
    have ht : t.reverse = stop.reverse ++ a := after?_eq_some_iff.mp ha
    rw [← List.reverse_reverse t, ht, List.reverse_append, List.reverse_reverse]
  · rintro rfl
    refine ⟨r.reverse, ?_, List.reverse_reverse r⟩
    rw [List.reverse_append]
    exact after?_append stop.reverse r.reverse

theorem before?_append (stop r : Text) : before? stop (r ++ stop) = some r :=
  before?_eq_some_iff.mpr rfl

theorem joinWith_cons_cons (sep t t' : Text) (ts : List Text) :
    joinWith sep (t :: t' :: ts) = t ++ (sep ++ joinWith sep (t' :: ts)) :=
  List.append_assoc t sep _

theorem joinWith_concat (sep t : Text) {ts : List Text} (hne : ts ≠ []) :
    joinWith sep (ts ++ [t]) = joinWith sep ts ++ sep ++ t := by
  induction ts with
  | nil => exact absurd rfl hne
  | cons s ts ih =>
    cases ts with
    | nil => rfl
    | cons s' ts =>
      rw [List.cons_append, List.cons_append, joinWith_cons_cons, ← List.cons_append,
        ih (List.cons_ne_nil _ _), joinWith_cons_cons]
      simp only [List.append_assoc]

theorem mem_joinWith {sep : Text} {c : Char} {ts : List Text} (h : c ∈ joinWith sep ts) :
    c ∈ sep ∨ ∃ t ∈ ts, c ∈ t := by
  induction ts with
  | nil => cases h
  | cons t ts ih =>
    cases ts with
    | nil => exact .inr ⟨t, List.mem_cons_self, h⟩
    | cons t' ts =>
      rw [joinWith_cons_cons, List.mem_append, List.mem_append] at h
      rcases h with h | h | h
      · exact .inr ⟨t, List.mem_cons_self, h⟩
      · exact .inl h
      · rcases ih h with h | ⟨other, hother, h⟩
        · exact .inl h
        · exact .inr ⟨other, List.mem_cons_of_mem t hother, h⟩

/-! ## Runs -/

theorem takeWhile_replicate_append {c : Char} {r : Text} (h : r.head? ≠ some c) (n : Nat) :
    (List.replicate n c ++ r).takeWhile (· = c) = List.replicate n c := by
  have hr : r.takeWhile (· = c) = [] := by
    cases r with
    | nil => rfl
    | cons x s => exact List.takeWhile_cons_of_neg (by simpa using h)
  rw [List.takeWhile_append_of_pos fun x hx => decide_eq_true (List.mem_replicate.mp hx).2, hr,
    List.append_nil]

/-- A text is a run of a character and what goes on with another one. -/
theorem exists_replicate_append (c : Char) (t : Text) :
    ∃ n r, t = List.replicate n c ++ r ∧ r.head? ≠ some c := by
  induction t with
  | nil => exact ⟨0, [], rfl, by simp⟩
  | cons x s ih =>
    by_cases hx : x = c
    · obtain ⟨n, r, rfl, hr⟩ := ih
      exact ⟨n + 1, r, by rw [hx]; rfl, hr⟩
    · exact ⟨0, x :: s, rfl, by simpa using hx⟩

/-! ## Trimmed texts -/

theorem isBlank_of_mem_space {c : Char} (h : c ∈ [' ']) : isBlank c = true := by
  rw [List.mem_singleton.mp h]
  rfl

/-- No blank stands at either end of the text. -/
def IsTrimmed (t : Text) : Prop :=
  (∀ c ∈ t.head?, isBlank c = false) ∧ ∀ c ∈ t.getLast?, isBlank c = false

instance (t : Text) : Decidable (IsTrimmed t) :=
  decidable_of_iff (t.head?.all (!isBlank ·) = true ∧ t.getLast?.all (!isBlank ·) = true)
    (by simp [IsTrimmed, Option.all_eq_true])

theorem trimStart_append_of_blank {b : Text} (hb : ∀ c ∈ b, isBlank c) (t : Text) :
    trimStart (b ++ t) = trimStart t :=
  List.dropWhile_append_of_pos hb

theorem trimEnd_append_of_blank {b : Text} (hb : ∀ c ∈ b, isBlank c) (t : Text) :
    trimEnd (t ++ b) = trimEnd t := by
  unfold trimEnd
  rw [List.reverse_append, List.dropWhile_append_of_pos fun c hc => hb c (List.mem_reverse.mp hc)]

theorem trimStart_of_head {t : Text} (h : ∀ c ∈ t.head?, isBlank c = false) : trimStart t = t := by
  cases t with
  | nil => rfl
  | cons c r => exact List.dropWhile_cons_of_neg (by simpa using h c)

theorem trimEnd_of_getLast {t : Text} (h : ∀ c ∈ t.getLast?, isBlank c = false) :
    trimEnd t = t := by
  have hr : trimStart t.reverse = t.reverse := trimStart_of_head (by rwa [List.head?_reverse])
  show (trimStart t.reverse).reverse = t
  rw [hr, List.reverse_reverse]

theorem trim_of_isTrimmed {t : Text} (h : IsTrimmed t) : trim t = t := by
  rw [trim, trimStart_of_head h.1, trimEnd_of_getLast h.2]

theorem head?_trimStart (t : Text) : ∀ c ∈ (trimStart t).head?, isBlank c = false := by
  intro c hc
  have h := List.head?_dropWhile_not isBlank t
  rw [show (t.dropWhile isBlank).head? = some c from hc] at h
  exact h

theorem getLast?_trimEnd (t : Text) : ∀ c ∈ (trimEnd t).getLast?, isBlank c = false := by
  intro c hc
  refine head?_trimStart t.reverse c ?_
  rw [← List.getLast?_reverse]
  exact hc

/-- What precedes a character that is not blank stays when the end is trimmed. -/
theorem trimEnd_append {b : Text} (hb : ∃ c ∈ b, isBlank c = false) (a : Text) :
    trimEnd (a ++ b) = a ++ trimEnd b := by
  have hne : b.reverse.dropWhile isBlank ≠ [] := by
    obtain ⟨c, hc, hn⟩ := hb
    rw [ne_eq, List.dropWhile_eq_nil_iff]
    intro h
    rw [h c (List.mem_reverse.mpr hc)] at hn
    exact absurd hn (by simp)
  unfold trimEnd
  rw [List.reverse_append, List.dropWhile_append, if_neg (by simpa using hne), List.reverse_append,
    List.reverse_reverse]

theorem head?_trimEnd {b : Text} (hb : ∃ c ∈ b, isBlank c = false) :
    (trimEnd b).head? = b.head? := by
  cases b with
  | nil => rfl
  | cons c r =>
    by_cases hr : ∃ x ∈ r, isBlank x = false
    · rw [show c :: r = [c] ++ r from rfl, trimEnd_append hr]
      rfl
    · have hc : isBlank c = false := by
        obtain ⟨x, hx, hn⟩ := hb
        rcases List.mem_cons.mp hx with rfl | hx
        · exact hn
        · exact absurd ⟨x, hx, hn⟩ hr
      have hblank : ∀ x ∈ r, isBlank x := by
        intro x hx
        by_contra h
        exact hr ⟨x, hx, by simpa using h⟩
      rw [show c :: r = [c] ++ r from rfl, trimEnd_append_of_blank hblank,
        trimEnd_of_getLast (by simpa using hc)]
      rfl

/-- A text that starts with another character than a blank still does so without blanks. -/
theorem head?_trim_cons {c : Char} (hc : isBlank c = false) (r : Text) :
    (trim (c :: r)).head? = some c := by
  rw [trim, trimStart_of_head (by simpa using hc), head?_trimEnd ⟨c, List.mem_cons_self, hc⟩]
  rfl

theorem trimEnd_ne_nil {b : Text} (hb : ∃ c ∈ b, isBlank c = false) : trimEnd b ≠ [] := by
  intro h
  have hhead := head?_trimEnd hb
  rw [h, eq_comm, List.head?_nil, List.head?_eq_none_iff] at hhead
  obtain ⟨c, hc, -⟩ := hb
  rw [hhead] at hc
  exact absurd hc (by simp)

theorem trimEnd_isPrefix (t : Text) : trimEnd t <+: t := List.rdropWhile_prefix _ t

/-- A text is what is left of it with its end trimmed, and blanks. -/
theorem exists_trimEnd_append (t : Text) : ∃ b, t = trimEnd t ++ b ∧ ∀ c ∈ b, isBlank c :=
  ⟨t.rtakeWhile isBlank, List.rdropWhile_append_rtakeWhile.symm,
    fun _ hc => List.mem_rtakeWhile_imp hc⟩

/-- A text is blanks and what is left of it with its start trimmed. -/
theorem exists_append_trimStart (t : Text) : ∃ b, t = b ++ trimStart t ∧ ∀ c ∈ b, isBlank c :=
  ⟨t.takeWhile isBlank, List.takeWhile_append_dropWhile.symm, fun _ hc => List.mem_takeWhile_imp hc⟩

theorem trimEnd_trimEnd (t : Text) : trimEnd (trimEnd t) = trimEnd t :=
  trimEnd_of_getLast (getLast?_trimEnd t)

theorem isTrimmed_trim (t : Text) : IsTrimmed (trim t) := by
  refine ⟨fun c hc => ?_, getLast?_trimEnd _⟩
  -- The trimmed end leaves a beginning, so the first character is that of the trimmed start.
  obtain ⟨b, hb⟩ := trimEnd_isPrefix (trimStart t)
  refine head?_trimStart t c ?_
  rw [← hb, List.head?_append, show (trimEnd (trimStart t)).head? = some c from hc]
  rfl

theorem trim_trim (t : Text) : trim (trim t) = trim t := trim_of_isTrimmed (isTrimmed_trim t)

/-- Blanks at either end make no difference to what is left. -/
theorem trim_append_of_blank {b : Text} (hb : ∀ c ∈ b, isBlank c) (t : Text) :
    trim (t ++ b) = trim t := by
  unfold trim
  by_cases ht : trimStart t = []
  · have hall : ∀ c ∈ t, isBlank c := List.dropWhile_eq_nil_iff.mp ht
    have hboth : trimStart (t ++ b) = trimStart b := trimStart_append_of_blank hall b
    have hnil : trimStart b = [] := List.dropWhile_eq_nil_iff.mpr hb
    rw [hboth, hnil, ht]
  · have hkeep : trimStart (t ++ b) = trimStart t ++ b := by
      unfold trimStart
      rw [List.dropWhile_append, if_neg (by simpa [trimStart] using ht)]
    rw [hkeep, trimEnd_append_of_blank hb]

theorem trim_blank_append {b : Text} (hb : ∀ c ∈ b, isBlank c) (t : Text) :
    trim (b ++ t) = trim t := by
  rw [trim, trimStart_append_of_blank hb, trim]

theorem mem_of_mem_trimStart {c : Char} {t : Text} (h : c ∈ trimStart t) : c ∈ t :=
  List.dropWhile_subset _ h

theorem mem_of_mem_trimEnd {c : Char} {t : Text} (h : c ∈ trimEnd t) : c ∈ t :=
  (trimEnd_isPrefix t).subset h

theorem mem_of_mem_trim {c : Char} {t : Text} (h : c ∈ trim t) : c ∈ t :=
  mem_of_mem_trimStart (mem_of_mem_trimEnd h)

theorem exists_of_trim_ne_nil {t : Text} (h : trim t ≠ []) : ∃ c ∈ t, isBlank c = false := by
  obtain ⟨c, r, hr⟩ := List.exists_cons_of_ne_nil h
  exact ⟨c, mem_of_mem_trim (by rw [hr]; exact List.mem_cons_self),
    (isTrimmed_trim t).1 c (by rw [hr]; rfl)⟩

theorem trim_trimEnd (t : Text) : trim (trimEnd t) = trim t := by
  obtain ⟨b, hb, hblank⟩ := exists_trimEnd_append t
  conv_rhs => rw [hb]
  exact (trim_append_of_blank hblank _).symm

theorem isInfix_trimStart {w t : Text} (hw : ∀ c ∈ w, isBlank c = false) (h : w <:+: t) :
    w <:+: trimStart t := by
  induction t with
  | nil => exact h
  | cons c r ih =>
    by_cases hc : isBlank c = true
    · rw [trimStart, List.dropWhile_cons_of_pos hc]
      rcases List.infix_cons_iff.mp h with ⟨s, hs⟩ | h
      · -- An occurrence at the front would begin with a blank.
        cases w with
        | nil => exact List.nil_infix
        | cons x w =>
          obtain rfl : x = c := (List.cons.inj hs).1
          rw [hw x List.mem_cons_self] at hc
          exact absurd hc (by simp)
      · exact ih h
    · rw [trimStart, List.dropWhile_cons_of_neg hc]
      exact h

/-- A text without blanks occurs in what is left of a text that it occurs in. -/
theorem isInfix_trim {w t : Text} (hw : ∀ c ∈ w, isBlank c = false) (h : w <:+: t) :
    w <:+: trim t := by
  have hstart := List.reverse_infix.mpr (isInfix_trimStart hw h)
  have hend := isInfix_trimStart (fun c hc => hw c (List.mem_reverse.mp hc)) hstart
  have hboth := List.reverse_infix.mpr hend
  rwa [List.reverse_reverse] at hboth

theorem trim_isInfix (t : Text) : trim t <:+: t :=
  (trimEnd_isPrefix _).isInfix.trans (List.dropWhile_suffix isBlank).isInfix

/-! ## Words -/

/-- A word: a text that is not empty and has no blank. -/
def IsWord (t : Text) : Prop := t ≠ [] ∧ ∀ c ∈ t, isBlank c = false

instance (t : Text) : Decidable (IsWord t) :=
  decidable_of_iff (t ≠ [] ∧ t.all (!isBlank ·) = true) (by simp [IsWord])

theorem IsWord.isTrimmed {t : Text} (h : IsWord t) : IsTrimmed t :=
  ⟨fun c hc => h.2 c (List.mem_of_mem_head? hc), fun c hc => h.2 c (List.mem_of_mem_getLast? hc)⟩

theorem splitWhere_ne_nil (p : Char → Bool) (t : Text) : splitWhere p t ≠ [] := by
  induction t with
  | nil => simp [splitWhere]
  | cons c r ih =>
    unfold splitWhere
    split
    · simp
    · simpa using ih

theorem splitWhere_append_cons {p : Char → Bool} {c : Char} (hc : p c) (a b : Text) :
    splitWhere p (a ++ c :: b) = splitWhere p a ++ splitWhere p b := by
  induction a with
  | nil => simp [splitWhere, hc]
  | cons x a ih =>
    rw [List.cons_append, splitWhere, splitWhere, ih]
    by_cases hx : p x
    · rw [if_pos hx, if_pos hx, List.cons_append]
    · rw [if_neg hx, if_neg hx]
      cases h : splitWhere p a with
      | nil => exact absurd h (splitWhere_ne_nil p a)
      | cons s ss => rfl

/-- The pieces of a text have only characters of the text. -/
theorem mem_of_mem_splitWhere {p : Char → Bool} {t w : Text} {c : Char} (h : w ∈ splitWhere p t)
    (hc : c ∈ w) : c ∈ t := by
  induction t generalizing w with
  | nil =>
    rw [splitWhere, List.mem_singleton] at h
    rwa [h] at hc
  | cons x r ih =>
    unfold splitWhere at h
    obtain ⟨first, rest, hsplit⟩ := List.exists_cons_of_ne_nil (splitWhere_ne_nil p r)
    rw [hsplit] at h ih
    split at h
    · rcases List.mem_cons.mp h with rfl | h
      · cases hc
      · exact List.mem_cons_of_mem x (ih h hc)
    · rcases List.mem_cons.mp h with rfl | h
      · rcases List.mem_cons.mp hc with rfl | hc
        · exact List.mem_cons_self
        · exact List.mem_cons_of_mem x (ih List.mem_cons_self hc)
      · exact List.mem_cons_of_mem x (ih (List.mem_cons_of_mem _ h) hc)

/-- The pieces of a text have none of the characters that it is split at. -/
theorem eq_false_of_mem_splitWhere {p : Char → Bool} {t w : Text} {c : Char}
    (h : w ∈ splitWhere p t) (hc : c ∈ w) : p c = false := by
  induction t generalizing w with
  | nil =>
    rw [splitWhere, List.mem_singleton] at h
    rw [h] at hc
    cases hc
  | cons x r ih =>
    unfold splitWhere at h
    obtain ⟨first, rest, hsplit⟩ := List.exists_cons_of_ne_nil (splitWhere_ne_nil p r)
    rw [hsplit] at h ih
    split at h
    · rcases List.mem_cons.mp h with rfl | h
      · cases hc
      · exact ih h hc
    · next hx =>
      rcases List.mem_cons.mp h with rfl | h
      · rcases List.mem_cons.mp hc with rfl | hc
        · exact Bool.eq_false_iff.mpr hx
        · exact ih List.mem_cons_self hc
      · exact ih (List.mem_cons_of_mem _ h) hc

theorem splitWhere_of_forall {p : Char → Bool} {t : Text} (h : ∀ c ∈ t, p c = false) :
    splitWhere p t = [t] := by
  induction t with
  | nil => rfl
  | cons c r ih =>
    unfold splitWhere
    rw [if_neg (by simp [h c]), ih fun x hx => h x (List.mem_cons_of_mem c hx)]
    rfl

/-- The words on both sides of a blank are those of the two parts. -/
theorem words_append_cons {c : Char} (hc : isBlank c) (a b : Text) :
    words (a ++ c :: b) = words a ++ words b := by
  unfold words
  rw [splitWhere_append_cons hc, List.filter_append]

theorem words_nil : words [] = [] := rfl

theorem words_of_isWord {t : Text} (h : IsWord t) : words t = [t] := by
  unfold words
  rw [splitWhere_of_forall h.2]
  simp [h.1]

theorem isWord_of_mem_splitWhere {t w : Text} (h : w ∈ splitWhere isBlank t) (hw : w ≠ []) :
    IsWord w := ⟨hw, fun _ hc => eq_false_of_mem_splitWhere h hc⟩

theorem isWord_of_mem_words {t w : Text} (h : w ∈ words t) : IsWord w := by
  obtain ⟨hs, hw⟩ := List.mem_filter.mp h
  exact isWord_of_mem_splitWhere hs (by simpa using hw)

/-! ## Words with spaces between them -/

/-- Each of the words with a space after it. -/
def spaced (ws : List Text) : Text := ws.flatMap (· ++ [' '])

theorem words_spaced_append {ws : List Text} (h : ∀ w ∈ ws, IsWord w) (t : Text) :
    words (spaced ws ++ t) = ws ++ words t := by
  induction ws with
  | nil => rfl
  | cons w ws ih =>
    have hw : words w = [w] := words_of_isWord (h w List.mem_cons_self)
    have hs : spaced (w :: ws) ++ t = w ++ ' ' :: (spaced ws ++ t) := by simp [spaced]
    rw [hs, words_append_cons isBlank_space, hw,
      ih fun x hx => h x (List.mem_cons_of_mem w hx)]
    rfl

/-- The last of some words stands after the others, each with its space. -/
theorem unwords_concat (ws : List Text) (t : Text) : unwords (ws ++ [t]) = spaced ws ++ t := by
  induction ws with
  | nil => rfl
  | cons w ws ih =>
    have hne : ws ++ [t] ≠ [] := by simp
    have hj : unwords (w :: (ws ++ [t])) = w ++ [' '] ++ unwords (ws ++ [t]) :=
      joinWith.eq_3 [' '] w (ws ++ [t]) hne
    rw [List.cons_append, hj, ih]
    simp [spaced]

theorem mem_unwords {c : Char} {ws : List Text} (h : c ∈ unwords ws) :
    c = ' ' ∨ ∃ w ∈ ws, c ∈ w := by
  induction ws with
  | nil => exact absurd h (by simp [unwords, joinWith])
  | cons w ws ih =>
    cases ws with
    | nil => exact .inr ⟨w, List.mem_cons_self, h⟩
    | cons v vs =>
      have hj : unwords (w :: v :: vs) = w ++ ' ' :: unwords (v :: vs) := by
        simp [unwords, joinWith]
      rw [hj, List.mem_append, List.mem_cons] at h
      rcases h with h | h | h
      · exact .inr ⟨w, List.mem_cons_self, h⟩
      · exact .inl h
      · obtain h | ⟨u, hu, h⟩ := ih h
        · exact .inl h
        · exact .inr ⟨u, List.mem_cons_of_mem w hu, h⟩

/-- The words hold a character other than the space as often as the text that joins them. -/
theorem count_unwords {c : Char} (hc : c ≠ ' ') (ws : List Text) :
    (unwords ws).count c = ws.flatten.count c := by
  rcases List.eq_nil_or_concat ws with rfl | ⟨l, t, rfl⟩
  · rfl
  · have hspaced (ws : List Text) : (spaced ws).count c = ws.flatten.count c := by
      induction ws with
      | nil => rfl
      | cons w ws ih =>
        have hnone : [' '].count c = 0 := List.count_eq_zero.mpr (by simpa using hc)
        rw [show spaced (w :: ws) = w ++ [' '] ++ spaced ws from rfl, List.flatten_cons,
          List.count_append, List.count_append, List.count_append, ih, hnone, Nat.add_zero]
    rw [List.concat_eq_append, unwords_concat, List.count_append, hspaced, List.flatten_append,
      List.count_append, List.flatten_singleton]

theorem isTrimmed_unwords {ws : List Text} (h : ∀ w ∈ ws, w ≠ [] ∧ IsTrimmed w) :
    IsTrimmed (unwords ws) := by
  rcases List.eq_nil_or_concat ws with rfl | ⟨l, t, rfl⟩
  · exact ⟨by simp [unwords, joinWith], by simp [unwords, joinWith]⟩
  · rw [List.concat_eq_append] at h ⊢
    obtain ⟨hne, ht⟩ := h t (by simp)
    rw [unwords_concat]
    refine ⟨fun c hc => ?_, fun c hc => ht.2 c ?_⟩
    · cases l with
      | nil => exact ht.1 c hc
      | cons w l =>
        obtain ⟨hw, hwt⟩ := h w (by simp)
        have hs : spaced (w :: l) ++ t = w ++ (' ' :: (spaced l ++ t)) := by simp [spaced]
        rw [hs, List.head?_append_of_ne_nil _ hw] at hc
        exact hwt.1 c hc
    · rwa [List.getLast?_append_of_ne_nil _ hne] at hc

theorem words_unwords {ws : List Text} (h : ∀ w ∈ ws, IsWord w) : words (unwords ws) = ws := by
  rcases List.eq_nil_or_concat ws with rfl | ⟨l, t, rfl⟩
  · rfl
  · rw [List.concat_eq_append] at h ⊢
    rw [unwords_concat, words_spaced_append fun w hw => h w (List.mem_append_left _ hw),
      words_of_isWord (h t (by simp))]

/-! ## Numbers -/

theorem isDigit_of_mem_ofNat {n : Nat} {c : Char} (h : c ∈ ofNat n) : c.isDigit :=
  Nat.isDigit_of_mem_toDigits (by decide) (by decide) h

theorem ofNat_injective {m n : Nat} (h : ofNat m = ofNat n) : m = n := by
  have hm := Nat.ofDigitChars_ten_toDigits (n := m)
  rwa [show Nat.toDigits 10 m = Nat.toDigits 10 n from h, Nat.ofDigitChars_ten_toDigits,
    eq_comm] at hm

theorem ofInt_injective {m n : Int} (hm : 0 ≤ m) (hn : 0 ≤ n) (h : ofInt m = ofInt n) : m = n := by
  obtain ⟨m, rfl⟩ := Int.eq_ofNat_of_zero_le hm
  obtain ⟨n, rfl⟩ := Int.eq_ofNat_of_zero_le hn
  exact congrArg Int.ofNat (ofNat_injective h)

/-- What follows the last occurrence of a character is determined. -/
theorem eq_of_append_cons_eq {c : Char} {a a' b b' : Text} (hb : c ∉ b) (hb' : c ∉ b')
    (h : a ++ c :: b = a' ++ c :: b') : b = b' := by
  have htake {a b : Text} (hb : c ∉ b) : (a ++ c :: b).reverse.takeWhile (· ≠ c) = b.reverse := by
    rw [List.reverse_append, List.reverse_cons, List.append_assoc, List.takeWhile_append_of_pos]
    · simp
    · intro x hx
      have : x ≠ c := fun e => hb (by rw [← e]; exact List.mem_reverse.mp hx)
      simpa using this
  have := (htake (a := a) hb).symm.trans ((congrArg _ (congrArg _ h)).trans (htake hb'))
  exact List.reverse_injective this

end TaggedOutline.Text
