import Mathlib.Data.List.Chain
import TaggedOutline.Proofs.Text.Lowercase
import TaggedOutline.Text.FileComponent

/-!
# What a file name is made of

1. The characters that do not go into a file name, and the hyphen, separate the pieces of a title.
   They lie in a few runs, and the lower case of every capital lies apart from them
   (`all_isApart_separators`), so a piece in lower case still is one (`IsPiece.lower`).
2. None of the steps that lead to a part of a file name changes the pieces. So what they come to is
   the pieces with hyphens between them (`trimHyphens_hyphenate`).
3. Pieces with hyphens between them never have two hyphens side by side or a hyphen at an end
   (`isHyphened_joinWith`), and each is lowercased for itself.
4. A part of a file name is the beginning of such a text. Cutting it may leave a hyphen at its end,
   and this is all that may be wrong with it (`fileComponent_shape`).
-/

namespace TaggedOutline.Text

variable {c : Char} {title t p : Text} {ps : List Text} {run : CaseRun}

/-! ## Separators -/

/-- The characters between the pieces of a title. -/
def isSeparator (c : Char) : Bool := isUnsafe c || c == '-'

/-- The code points of the separators, as runs. -/
def separatorRuns : List CaseRun :=
  [⟨0x9, 0xd, 1, 0⟩, ⟨0x1c, 0x20, 1, 0⟩, ⟨0x22, 0x22, 1, 0⟩, ⟨0x2a, 0x2a, 1, 0⟩,
   ⟨0x2d, 0x2d, 1, 0⟩, ⟨0x2f, 0x2f, 1, 0⟩, ⟨0x3a, 0x3a, 1, 0⟩, ⟨0x3c, 0x3c, 1, 0⟩,
   ⟨0x3e, 0x3f, 1, 0⟩, ⟨0x5c, 0x5c, 1, 0⟩, ⟨0x7c, 0x7c, 1, 0⟩, ⟨0x85, 0x85, 1, 0⟩,
   ⟨0xa0, 0xa0, 1, 0⟩, ⟨0x1680, 0x1680, 1, 0⟩, ⟨0x2000, 0x200a, 1, 0⟩, ⟨0x2028, 0x2029, 1, 0⟩,
   ⟨0x202f, 0x202f, 1, 0⟩, ⟨0x205f, 0x205f, 1, 0⟩, ⟨0x3000, 0x3000, 1, 0⟩]

theorem any_covers_of_isSeparator (h : isSeparator c = true) :
    separatorRuns.any (·.covers c.toNat) = true := by
  simp only [isSeparator, isUnsafe, Bool.or_eq_true, beq_iff_eq, decide_eq_true_eq] at h
  rcases h with (hblank | hmark) | rfl
  · simp only [isBlank, Bool.or_eq_true, Bool.and_eq_true, decide_eq_true_eq, beq_iff_eq] at hblank
    simp only [separatorRuns, CaseRun.covers, List.any_cons, List.any_nil, Nat.mod_one, and_true,
      Bool.or_eq_true, Bool.or_false, Bool.and_eq_true, decide_eq_true_eq, beq_iff_eq]
    omega
  · simp only [List.mem_cons, List.not_mem_nil, or_false] at hmark
    rcases hmark with rfl | rfl | rfl | rfl | rfl | rfl | rfl | rfl | rfl <;> decide
  · decide

theorem all_isApart_separators :
    (caseRuns.all fun run => separatorRuns.all (run.isApart ·)) = true := by
  decide +kernel

/-- The lower case of a capital is no separator. -/
theorem isSeparator_of_covers (hrun : run ∈ caseRuns) (hn : run.covers c.toNat = true) :
    isSeparator (Char.ofNat (c.toNat + run.distance).toNat) = false := by
  rw [Bool.eq_false_iff]
  intro hseparator
  obtain ⟨other, hother, hcovers⟩ := List.any_eq_true.mp (any_covers_of_isSeparator hseparator)
  have hapart := List.all_eq_true.mp (List.all_eq_true.mp all_isApart_separators run hrun) other
    hother
  by_cases hvalid : (c.toNat + run.distance).toNat.isValidChar
  · have hkept : (Char.ofNat (c.toNat + run.distance).toNat).toNat =
        (c.toNat + run.distance).toNat := by
      rw [Char.ofNat, dif_pos hvalid]
      rfl
    rw [hkept, CaseRun.not_covers_of_isApart hapart hn] at hcovers
    cases hcovers
  · rw [Char.ofNat, dif_neg hvalid] at hseparator
    revert hseparator
    decide

/-! ## Pieces -/

/-- A piece of a title: a text that is not empty and has no separator. -/
def IsPiece (p : Text) : Prop := p ≠ [] ∧ ∀ c ∈ p, isSeparator c = false

theorem IsPiece.lower (h : IsPiece p) : IsPiece (lower p) := by
  refine ⟨lower_ne_nil h.1, forall_mem_lowerAfter ⟨by decide, by decide⟩ fun c hc c' hc' => ?_⟩
  rcases lowerChar_cases c with ⟨-, hlower⟩ | hlower | ⟨run, hrun, hcovers, hlower⟩
  · rw [hlower, List.mem_singleton] at hc'
    rw [hc']
    exact h.2 c hc
  · rw [hlower, List.mem_cons, List.mem_singleton] at hc'
    rcases hc' with rfl | rfl
    · decide
    · decide
  · rw [hlower, List.mem_singleton] at hc'
    rw [hc']
    exact isSeparator_of_covers hrun hcovers

theorem IsPiece.hyphen_not_mem (h : IsPiece p) : '-' ∉ p := fun hmem => by
  have hhyphen := h.2 '-' hmem
  revert hhyphen
  decide

/-- The pieces of a title, in their order. -/
def titlePieces (title : Text) : List Text := (splitWhere isSeparator title).filter (· ≠ [])

theorem isPiece_of_mem_titlePieces (h : p ∈ titlePieces title) : IsPiece p := by
  obtain ⟨hsplit, hne⟩ := List.mem_filter.mp h
  exact ⟨of_decide_eq_true hne, fun _ hc => eq_false_of_mem_splitWhere hsplit hc⟩

/-! ## Steps that keep the pieces -/

/-- The pieces of a text between the characters that satisfy `sep`. -/
def pieces (sep : Char → Bool) (t : Text) : List Text := (splitWhere sep t).filter (· ≠ [])

theorem pieces_cons_of {sep : Char → Bool} (hc : sep c = true) (t : Text) :
    pieces sep (c :: t) = pieces sep t := by
  simp [pieces, splitWhere, hc]

theorem pieces_append_left {sep : Char → Bool} {run : Text} (hrun : ∀ c ∈ run, sep c = true)
    (t : Text) : pieces sep (run ++ t) = pieces sep t := by
  induction run with
  | nil => rfl
  | cons c run ih =>
    obtain ⟨hc, hrun⟩ := List.forall_mem_cons.mp hrun
    rw [List.cons_append, pieces_cons_of hc, ih hrun]

theorem pieces_append_right {sep : Char → Bool} {run : Text} (hrun : ∀ c ∈ run, sep c = true)
    (t : Text) : pieces sep (t ++ run) = pieces sep t := by
  cases run with
  | nil => rw [List.append_nil]
  | cons c run =>
    obtain ⟨hc, hrun⟩ := List.forall_mem_cons.mp hrun
    have hnone : pieces sep run = [] := (List.append_nil run).symm ▸ pieces_append_left hrun []
    rw [pieces] at hnone
    rw [pieces, splitWhere_append_cons hc, List.filter_append, hnone, List.append_nil, pieces]

theorem titlePieces_trim (title : Text) : titlePieces (trim title) = titlePieces title := by
  have hblank {b : Text} (hb : ∀ c ∈ b, isBlank c = true) : ∀ c ∈ b, isSeparator c = true :=
    fun c hc => by rw [isSeparator, isUnsafe, hb c hc]; rfl
  obtain ⟨before, hbefore, hleft⟩ := exists_append_trimStart title
  obtain ⟨after, hafter, hright⟩ := exists_trimEnd_append (trimStart title)
  calc titlePieces (trim title)
      = pieces isSeparator (trimEnd (trimStart title) ++ after) :=
        (pieces_append_right (hblank hright) _).symm
    _ = pieces isSeparator (before ++ trimStart title) := by
        rw [← hafter, pieces_append_left (hblank hleft)]
    _ = titlePieces title := by rw [← hbefore]; rfl

theorem pieces_trimHyphens (t : Text) : pieces isHyphen (trimHyphens t) = pieces isHyphen t := by
  have hall (u : Text) : ∀ c ∈ u.takeWhile isHyphen, isHyphen c = true :=
    List.all_eq_true.mp List.all_takeWhile
  have hend (u : Text) : (u.reverse.dropWhile isHyphen).reverse ++
      (u.reverse.takeWhile isHyphen).reverse = u := by
    rw [← List.reverse_append, List.takeWhile_append_dropWhile, List.reverse_reverse]
  calc pieces isHyphen (trimHyphens t)
      = pieces isHyphen (t.dropWhile isHyphen) := by
        conv_rhs => rw [← hend (t.dropWhile isHyphen)]
        rw [pieces_append_right fun c hc => hall _ c (List.mem_reverse.mp hc)]
        rfl
    _ = pieces isHyphen t := by
        conv_rhs => rw [← List.takeWhile_append_dropWhile (p := isHyphen) (l := t)]
        rw [pieces_append_left (hall t)]

/-- The pieces between hyphens are those between the characters that were replaced and hyphens. The
first piece is kept as it is unless a run before it was replaced already, so the two cases are shown
together. -/
theorem splitWhere_hyphenate (p : Char → Bool) (t : Text) :
    (∃ w rest rest', splitWhere isHyphen (hyphenate p false t) = w :: rest ∧
      splitWhere (fun c => p c || isHyphen c) t = w :: rest' ∧
      rest.filter (· ≠ []) = rest'.filter (· ≠ [])) ∧
    pieces isHyphen (hyphenate p true t) = pieces (fun c => p c || isHyphen c) t := by
  induction t with
  | nil => exact ⟨⟨[], [], [], rfl, rfl, rfl⟩, rfl⟩
  | cons c t ih =>
    obtain ⟨⟨w, rest, rest', hleft, hright, hrest⟩, hrun⟩ := ih
    have hpieces : pieces isHyphen (hyphenate p false t) = pieces (fun c => p c || isHyphen c) t := by
      rw [pieces, pieces, hleft, hright, List.filter_cons, List.filter_cons, hrest]
    by_cases hp : p c = true
    · have hsep : (p c || isHyphen c) = true := by rw [hp]; rfl
      constructor
      · refine ⟨[], splitWhere isHyphen (hyphenate p true t), _, ?_, ?_, hrun⟩
        · simp [hyphenate, hp, splitWhere, isHyphen]
        · simp [splitWhere, hsep]
      · rw [pieces_cons_of hsep, ← hrun]
        simp [hyphenate, hp]
    · have hkept (inRun : Bool) : hyphenate p inRun (c :: t) = c :: hyphenate p false t := by
        rw [hyphenate, if_pos hp]
      rw [Bool.not_eq_true] at hp
      rw [hkept, hkept]
      cases hc : isHyphen c with
      | true =>
        have hsep : (p c || isHyphen c) = true := by rw [hc, Bool.or_true]
        refine ⟨⟨[], splitWhere isHyphen (hyphenate p false t), _, ?_, ?_, hpieces⟩, ?_⟩
        · simp [splitWhere, hc]
        · simp [splitWhere, hsep]
        · rw [pieces_cons_of hc, pieces_cons_of hsep, hpieces]
      | false =>
        have hsep : (p c || isHyphen c) = false := by rw [hp, hc]; rfl
        have hleft' : splitWhere isHyphen (c :: hyphenate p false t) = (c :: w) :: rest := by
          simp [splitWhere, hc, hleft]
        have hright' : splitWhere (fun c => p c || isHyphen c) (c :: t) = (c :: w) :: rest' := by
          simp [splitWhere, hp, hc, hright]
        refine ⟨⟨_, _, _, hleft', hright', hrest⟩, ?_⟩
        rw [pieces, pieces, hleft', hright', List.filter_cons, List.filter_cons, hrest]

theorem pieces_hyphenate (p : Char → Bool) (t : Text) :
    pieces isHyphen (hyphenate p false t) = pieces (fun c => p c || isHyphen c) t := by
  obtain ⟨⟨w, rest, rest', hleft, hright, hrest⟩, -⟩ := splitWhere_hyphenate p t
  rw [pieces, pieces, hleft, hright, List.filter_cons, List.filter_cons, hrest]

/-! ## Hyphens between pieces -/

/-- A text whose hyphens stand alone and not at the ends, and that is safe in a file name. -/
structure IsHyphened (t : Text) : Prop where
  single : t.IsChain fun a b => ¬ (a = '-' ∧ b = '-')
  first : t.head? ≠ some '-'
  last : t.getLast? ≠ some '-'
  safe : ∀ c ∈ t, isUnsafe c = false

theorem IsPiece.isHyphened (h : IsPiece p) : IsHyphened p where
  single := by
    refine List.Pairwise.isChain (List.pairwise_of_forall_mem_list fun a ha b _ hboth => ?_)
    exact h.hyphen_not_mem (hboth.1 ▸ ha)
  first := fun hfirst => h.hyphen_not_mem (List.mem_of_mem_head? hfirst)
  last := fun hlast => h.hyphen_not_mem (List.mem_of_getLast? hlast)
  safe := fun c hc => (Bool.or_eq_false_iff.mp (h.2 c hc)).1

theorem IsHyphened.append {u : Text} (ht : IsHyphened t) (htne : t ≠ []) (hu : IsHyphened u)
    (hune : u ≠ []) : IsHyphened (t ++ '-' :: u) where
  single := by
    refine List.isChain_append.mpr ⟨ht.single, List.isChain_cons.mpr ⟨?_, hu.single⟩, ?_⟩
    · rintro c hc ⟨-, rfl⟩
      exact hu.first hc
    · rintro c hc - - ⟨rfl, -⟩
      exact ht.last hc
  first := by
    rw [List.head?_append_of_ne_nil _ htne]
    exact ht.first
  last := by
    rw [List.getLast?_append_of_ne_nil _ (List.cons_ne_nil _ _), List.getLast?_cons_of_ne_nil hune]
    exact hu.last
  safe := fun c hc => by
    rcases List.mem_append.mp hc with hc | hc
    · exact ht.safe c hc
    · rcases List.mem_cons.mp hc with rfl | hc
      · decide
      · exact hu.safe c hc

theorem joinWith_ne_nil (h : ∀ p ∈ ps, p ≠ []) (hne : ps ≠ []) (sep : Text) :
    joinWith sep ps ≠ [] := by
  cases ps with
  | nil => exact absurd rfl hne
  | cons p ps =>
    have hp := h p List.mem_cons_self
    cases ps with
    | nil => exact hp
    | cons q ps =>
      rw [joinWith_cons_cons]
      exact List.append_ne_nil_of_left_ne_nil hp _

theorem isHyphened_joinWith (h : ∀ p ∈ ps, IsPiece p) : IsHyphened (joinWith ['-'] ps) := by
  induction ps with
  | nil => exact ⟨List.IsChain.nil, by simp [joinWith], by simp [joinWith], by simp [joinWith]⟩
  | cons p ps ih =>
    obtain ⟨hp, hps⟩ := List.forall_mem_cons.mp h
    cases ps with
    | nil => exact hp.isHyphened
    | cons q ps =>
      rw [joinWith_cons_cons]
      exact hp.isHyphened.append hp.1 (ih hps)
        (joinWith_ne_nil (fun r hr => (hps r hr).1) (List.cons_ne_nil q ps) _)

/-! ## What the steps come to -/

/-- A text without hyphens side by side or at its end has no empty piece, unless it starts with a
hyphen. -/
theorem splitWhere_of_isChain (hsingle : t.IsChain fun a b => ¬ (a = '-' ∧ b = '-'))
    (hlast : t.getLast? ≠ some '-') :
    ∃ w rest, splitWhere isHyphen t = w :: rest ∧ (w = [] → t = [] ∨ t.head? = some '-') ∧
      ∀ piece ∈ rest, piece ≠ [] := by
  induction t with
  | nil => exact ⟨[], [], rfl, fun _ => .inl rfl, by simp⟩
  | cons c t ih =>
    have hnext : t.getLast? ≠ some '-' := fun h => by
      cases t with
      | nil => cases h
      | cons a t => exact hlast (List.getLast?_cons_cons.trans h)
    obtain ⟨w, rest, hsplit, hempty, hrest⟩ := ih hsingle.tail hnext
    cases hc : isHyphen c with
    | true =>
      obtain rfl : c = '-' := eq_of_beq hc
      refine ⟨[], w :: rest, by simp [splitWhere, hc, hsplit], fun _ => .inr rfl, ?_⟩
      refine List.forall_mem_cons.mpr ⟨fun hw => ?_, hrest⟩
      rcases hempty hw with rfl | hhead
      · exact hlast rfl
      · obtain ⟨t, rfl⟩ := List.head?_eq_some_iff.mp hhead
        exact (List.isChain_cons_cons.mp hsingle).1 ⟨rfl, rfl⟩
    | false =>
      refine ⟨c :: w, rest, by simp [splitWhere, hc, hsplit], fun h => ?_, hrest⟩
      cases h

theorem joinWith_splitWhere (t : Text) : joinWith ['-'] (splitWhere isHyphen t) = t := by
  induction t with
  | nil => rfl
  | cons c t ih =>
    obtain ⟨w, rest, hsplit⟩ := List.exists_cons_of_ne_nil (splitWhere_ne_nil isHyphen t)
    rw [hsplit] at ih
    cases hc : isHyphen c with
    | true =>
      obtain rfl : c = '-' := eq_of_beq hc
      rw [splitWhere, if_pos hc, hsplit, joinWith_cons_cons, ih]
      rfl
    | false =>
      rw [splitWhere, if_neg (Bool.eq_false_iff.mp hc), hsplit, List.modifyHead_cons]
      cases rest with
      | nil => exact congrArg (c :: ·) ih
      | cons q rest =>
        rw [joinWith_cons_cons] at ih ⊢
        exact congrArg (c :: ·) ih

/-- A text whose hyphens stand alone and not at the ends is its pieces with hyphens between them. -/
theorem joinWith_pieces (hsingle : t.IsChain fun a b => ¬ (a = '-' ∧ b = '-'))
    (hfirst : t.head? ≠ some '-') (hlast : t.getLast? ≠ some '-') :
    joinWith ['-'] (pieces isHyphen t) = t := by
  obtain ⟨w, rest, hsplit, hempty, hrest⟩ := splitWhere_of_isChain hsingle hlast
  by_cases hnil : t = []
  · rw [hnil]
    rfl
  · have hw : w ≠ [] := fun hw => (hempty hw).elim hnil hfirst
    have hall : (splitWhere isHyphen t).filter (· ≠ []) = splitWhere isHyphen t := by
      rw [hsplit]
      exact List.filter_eq_self.mpr (List.forall_mem_cons.mpr ⟨by simp [hw], by simpa using hrest⟩)
    rw [pieces, hall, joinWith_splitWhere]

/-- Where hyphens are put for runs of hyphens, no two stand side by side. -/
theorem isChain_hyphenate (inRun : Bool) (t : Text) :
    ((hyphenate isHyphen inRun t).IsChain fun a b => ¬ (a = '-' ∧ b = '-')) ∧
      (inRun = true → (hyphenate isHyphen inRun t).head? ≠ some '-') := by
  induction t generalizing inRun with
  | nil => exact ⟨List.IsChain.nil, fun _ h => by cases h⟩
  | cons c t ih =>
    rw [hyphenate]
    split
    · next hc =>
      have hne : c ≠ '-' := fun heq => hc (heq ▸ rfl)
      refine ⟨List.isChain_cons.mpr ⟨fun b _ hboth => hne hboth.1, (ih false).1⟩, fun _ h => ?_⟩
      exact hne (Option.some.inj h)
    · split
      · exact ⟨(ih true).1, fun _ => (ih true).2 rfl⟩
      · next hrun =>
        refine ⟨List.isChain_cons.mpr ⟨fun b hb hboth => ?_, (ih true).1⟩, fun h => absurd h hrun⟩
        exact (ih true).2 rfl (hboth.2 ▸ hb)

theorem joinWith_pieces_trimHyphens (hsingle : t.IsChain fun a b => ¬ (a = '-' ∧ b = '-')) :
    joinWith ['-'] (pieces isHyphen (trimHyphens t)) = trimHyphens t := by
  have hprefix : trimHyphens t <+: t.dropWhile isHyphen := List.rdropWhile_prefix _ _
  have hsuffix : t.dropWhile isHyphen <:+ t := List.dropWhile_suffix _
  have hchain := List.IsChain.prefix (hsingle.suffix hsuffix) hprefix
  refine joinWith_pieces hchain (fun hfirst => ?_) fun hlast => ?_
  · obtain ⟨rest, hrest⟩ := List.head?_eq_some_iff.mp hfirst
    obtain ⟨more, hmore⟩ := hprefix
    rw [hrest] at hmore
    have hhead := List.head?_dropWhile_not isHyphen t
    rw [← hmore] at hhead
    cases hhead
  · have hne : trimHyphens t ≠ [] := fun hnil => by rw [hnil] at hlast; cases hlast
    have hend := List.rdropWhile_last_not isHyphen (t.dropWhile isHyphen) hne
    rw [List.getLast?_eq_some_getLast hne, Option.some.injEq] at hlast
    exact hend (congrArg isHyphen hlast)

/-- The steps before letters become lower case leave the pieces of the title with hyphens between
them. -/
theorem trimHyphens_hyphenate (title : Text) :
    trimHyphens (hyphenate isHyphen false (hyphenate isUnsafe false (trim title))) =
      joinWith ['-'] (titlePieces title) := by
  have hhyphen : (fun c => isHyphen c || isHyphen c) = isHyphen := funext fun c => Bool.or_self _
  rw [← joinWith_pieces_trimHyphens (isChain_hyphenate false _).1, pieces_trimHyphens,
    pieces_hyphenate, hhyphen, pieces_hyphenate, ← titlePieces_trim]
  rfl

/-! ## The part of a file name -/

/-- The pieces of a title in lower case, with hyphens between them. -/
def wholeComponent (title : Text) : Text := joinWith ['-'] ((titlePieces title).map lower)

theorem isHyphened_wholeComponent (title : Text) : IsHyphened (wholeComponent title) := by
  refine isHyphened_joinWith fun p hp => ?_
  obtain ⟨q, hq, rfl⟩ := List.mem_map.mp hp
  exact (isPiece_of_mem_titlePieces hq).lower

/-- Without pieces a title has no file name of its own. -/
theorem fileComponent_cases (title : Text) :
    wholeComponent title = [] ∧ fileComponent title = "untitled".toList ∨
      (wholeComponent title).take maxComponentLength ≠ [] ∧
        fileComponent title = (wholeComponent title).take maxComponentLength := by
  have hwhole : wholeComponent title =
      lower (trimHyphens (hyphenate isHyphen false (hyphenate isUnsafe false (trim title)))) := by
    rw [wholeComponent, ← lower_joinWith, trimHyphens_hyphenate]
  have heq : fileComponent title =
      if (wholeComponent title).take maxComponentLength = [] then "untitled".toList
      else (wholeComponent title).take maxComponentLength := by
    rw [hwhole, fileComponent]
    by_cases hblank : trim title = []
    · rw [hblank]
      rfl
    · simp only [if_neg hblank]
      rfl
  by_cases hnil : (wholeComponent title).take maxComponentLength = []
  · rw [if_pos hnil] at heq
    exact .inl ⟨(List.take_eq_nil_iff.mp hnil).resolve_left (by decide), heq⟩
  · rw [if_neg hnil] at heq
    exact .inr ⟨hnil, heq⟩

/-- The part of a file name for a title is neither empty nor too long, has no blank and no character
that file names do not take, no two hyphens side by side, and no hyphen at its start. It ends with a
hyphen iff the cut falls right behind a hyphen of the whole text. -/
theorem fileComponent_shape (title : Text) :
    let t := fileComponent title
    t ≠ [] ∧ t.length ≤ 60 ∧
      (∀ c ∈ t, isBlank c = false ∧ c ∉ ['/', '\\', ':', '?', '*', '\x22', '<', '>', '|']) ∧
      ¬ ['-', '-'] <:+: t ∧ t.head? ≠ some '-' ∧
      (t.getLast? = some '-' ↔ (wholeComponent title)[59]? = some '-') := by
  dsimp only
  rcases fileComponent_cases title with ⟨hwhole, heq⟩ | ⟨hne, heq⟩
  · rw [heq, hwhole]
    have hhyphen : '-' ∉ "untitled".toList := by decide
    have hsafe : "untitled".toList.any isUnsafe = false := by decide
    refine ⟨by decide, by decide, fun c hc => ?_, fun hdouble => ?_, fun hhead => ?_, ?_⟩
    · have hc' := List.any_eq_false.mp hsafe c hc
      rwa [Bool.not_eq_true, isUnsafe, Bool.or_eq_false_iff, decide_eq_false_iff_not] at hc'
    · exact hhyphen (hdouble.subset List.mem_cons_self)
    · exact hhyphen (List.mem_of_head? hhead)
    · exact iff_of_false (fun hlast => hhyphen (List.mem_of_getLast? hlast)) (by simp)
  · have hwhole := isHyphened_wholeComponent title
    have hchain := hwhole.single.take maxComponentLength
    rw [heq]
    refine ⟨hne, List.length_take_le _ _, fun c hc => ?_, fun hdouble => ?_, ?_, ?_⟩
    · have hsafe := hwhole.safe c (List.mem_of_mem_take hc)
      rw [isUnsafe, Bool.or_eq_false_iff, decide_eq_false_iff_not] at hsafe
      exact hsafe
    · have hpair := hchain.infix hdouble
      rw [List.isChain_pair] at hpair
      exact hpair ⟨rfl, rfl⟩
    · rw [List.head?_take, if_neg (by decide)]
      exact hwhole.first
    · rw [List.getLast?_take, if_neg (by decide), Option.or_eq_some_iff]
      exact or_iff_left fun hlast => hwhole.last hlast.2

/-- A title that is cut right behind a hyphen. -/
theorem fileComponent_cut :
    (fileComponent (List.replicate 59 'a' ++ " b".toList)).getLast? = some '-' := by
  decide +kernel

end TaggedOutline.Text
