import TaggedOutline.Disk.File
import TaggedOutline.Proofs.Text.Basic

/-!
# Written forms of paths

The written form of a path has its names after some that stay where they are
(`Path.IsProper.exists_written`), and it is read as the path (`Path.IsProper.ofText_text`).
-/

namespace TaggedOutline

/-! ## Names -/

/-- Names that a directory can hold. -/
structure IsFileName (name : Text) : Prop where
  not_stays : Disk.staysAt name = false
  not_up : name ≠ ['.', '.']
  no_slash : '/' ∉ name
  no_null : '\x00' ∉ name

instance (name : Text) : Decidable (IsFileName name) :=
  decidable_of_iff (Disk.staysAt name = false ∧ name ≠ ['.', '.'] ∧ '/' ∉ name ∧ '\x00' ∉ name)
    ⟨fun ⟨hstays, hup, hslash, hnull⟩ => ⟨hstays, hup, hslash, hnull⟩,
      fun ⟨hstays, hup, hslash, hnull⟩ => ⟨hstays, hup, hslash, hnull⟩⟩

/-- Names on the way along a path: names of files, and two dots. -/
structure IsWayName (name : Text) : Prop where
  not_stays : Disk.staysAt name = false
  no_slash : '/' ∉ name
  no_null : '\x00' ∉ name

section Names

variable {name : Text} {names names' : List Text}

theorem IsFileName.isWayName (h : IsFileName name) : IsWayName name :=
  ⟨h.not_stays, h.no_slash, h.no_null⟩

theorem isWayName_up : IsWayName ['.', '.'] := ⟨by decide, by decide, by decide⟩

theorem IsWayName.isFileName (h : IsWayName name) (hup : name ≠ ['.', '.']) : IsFileName name :=
  ⟨h.not_stays, hup, h.no_slash, h.no_null⟩

theorem IsWayName.ne_nil (h : IsWayName name) : name ≠ [] := by
  rintro rfl
  exact absurd h.not_stays (by decide)

theorem IsFileName.ne_nil (h : IsFileName name) : name ≠ [] := h.isWayName.ne_nil

theorem written_cons (t : Text) : written ('/' :: t) = [] :: written t := by
  unfold written
  exact Text.splitWhere_append_cons (by decide) [] t

theorem written_joinWith (h : ∀ name ∈ names, '/' ∉ name) (hne : names ≠ []) :
    written (Text.joinWith ['/'] names) = names := by
  have hsingle {name : Text} (hname : '/' ∉ name) : written name = [name] :=
    Text.splitWhere_of_forall fun c hc => by
      rw [beq_eq_false_iff_ne]
      rintro rfl
      exact hname hc
  induction names with
  | nil => exact absurd rfl hne
  | cons name names ih =>
    obtain ⟨hname, hnames⟩ := List.forall_mem_cons.mp h
    cases names with
    | nil => exact hsingle hname
    | cons name' names =>
      rw [Text.joinWith_cons_cons, List.singleton_append, written,
        Text.splitWhere_append_cons (by decide)]
      exact congrArg₂ (· ++ ·) (hsingle hname) (ih hnames (List.cons_ne_nil _ _))

end Names

namespace Path

variable {p : Path} {t : Text} {names names' : List Text}

/-! ## Slashes at the start -/

theorem anchorOf_cases (t : Text) :
    anchorOf t = [] ∨ anchorOf t = ['/'] ∨ anchorOf t = ['/', '/'] := by
  unfold anchorOf
  split
  · exact .inr (.inl rfl)
  · exact .inr (.inr rfl)
  · exact .inr (.inl rfl)
  · exact .inl rfl

theorem anchorOf_eq_nil : anchorOf t = [] ↔ t.head? ≠ some '/' := by
  unfold anchorOf
  split
  · simp
  · simp
  · simp
  · next hnone =>
    refine iff_of_true rfl fun hhead => ?_
    obtain ⟨r, rfl⟩ := List.head?_eq_some_iff.mp hhead
    exact hnone r rfl

theorem anchorOf_cons (h : t.head? ≠ some '/') : anchorOf ('/' :: t) = ['/'] := by
  unfold anchorOf
  split
  · next heq => exact absurd (by rw [(List.cons.inj heq).2]; rfl) h
  · next heq => exact absurd (by rw [(List.cons.inj heq).2]; rfl) h
  · rfl
  · next hnone => exact absurd rfl (hnone t)

theorem anchorOf_cons_cons (h : t.head? ≠ some '/') :
    anchorOf ('/' :: '/' :: t) = ['/', '/'] := by
  unfold anchorOf
  split
  · next heq => exact absurd (by rw [(List.cons.inj (List.cons.inj heq).2).2]; rfl) h
  · rfl
  · next hnone heq => exact absurd (List.cons.inj heq).2.symm (hnone t)
  · next hnone => exact absurd rfl (hnone _)

theorem text_absolute (names : List Text) :
    (absolute names).text = '/' :: Text.joinWith ['/'] names := by
  unfold text
  rw [if_neg fun h => absurd h.1 (by simp [absolute])]
  rfl

theorem head?_joinWith_ne_slash (h : ∀ name ∈ names, IsWayName name) :
    (Text.joinWith ['/'] names).head? ≠ some '/' := by
  cases names with
  | nil => simp [Text.joinWith]
  | cons name names =>
    have hname := h name List.mem_cons_self
    obtain ⟨c, r, rfl⟩ := List.exists_cons_of_ne_nil hname.ne_nil
    have hc : c ≠ '/' := fun hc => hname.no_slash (hc ▸ List.mem_cons_self)
    cases names with
    | nil => simpa [Text.joinWith] using hc
    | cons name' names =>
      rw [Text.joinWith_cons_cons]
      simpa using hc

/-! ## Proper paths -/

/-- The paths that texts write: slashes, and names on the way. -/
structure IsProper (p : Path) : Prop where
  anchor : p.anchor = [] ∨ p.anchor = ['/'] ∨ p.anchor = ['/', '/']
  names : ∀ name ∈ p.names, IsWayName name

/-- Neither the path nor one of its names is too long. -/
def IsShort (p : Path) : Prop :=
  (Text.Utf8.encode p.text).length < Disk.pathLimit ∧
    ∀ name ∈ p.names, (Text.Utf8.encode name).length ≤ Disk.nameLimit

instance (p : Path) : Decidable p.IsShort :=
  inferInstanceAs (Decidable (_ ∧ _))

/-- A relative path whose first name starts with a tilde. -/
def HasTilde (p : Path) : Prop :=
  p.anchor = [] ∧ p.names.head?.bind List.head? = some '~'

instance (p : Path) : Decidable p.HasTilde :=
  inferInstanceAs (Decidable (_ ∧ _))

theorem isProper_ofText (h : '\x00' ∉ t) : (ofText t).IsProper := by
  refine ⟨anchorOf_cases t, fun name hname => ?_⟩
  obtain ⟨hmem, hkept⟩ := List.mem_filter.mp hname
  refine ⟨?_, fun hslash => ?_, fun hnull => h (Text.mem_of_mem_splitWhere hmem hnull)⟩
  · unfold Disk.staysAt
    simpa using hkept
  · exact absurd (Text.eq_false_of_mem_splitWhere hmem hslash) (by decide)

theorem isProper_absolute (h : ∀ name ∈ names, IsFileName name) : (absolute names).IsProper :=
  ⟨.inr (.inl rfl), fun name hname => (h name hname).isWayName⟩

namespace IsProper

theorem join (h : p.IsProper) (hnames : ∀ name ∈ names, IsWayName name) :
    (p.join names).IsProper := by
  refine ⟨h.anchor, fun name hname => ?_⟩
  rcases List.mem_append.mp hname with hname | hname
  · exact h.names name hname
  · exact hnames name hname

theorem not_contains_null (h : p.IsProper) : p.text.contains '\x00' = false := by
  have hanchor : '\x00' ∉ p.anchor := by
    rcases h.anchor with hanchor | hanchor | hanchor
    all_goals
      rw [hanchor]
      decide
  rw [← Bool.not_eq_true, List.contains_iff_mem]
  unfold text
  split
  · decide
  · rw [List.mem_append, not_or]
    refine ⟨hanchor, fun hmem => ?_⟩
    rcases Text.mem_joinWith hmem with hslash | ⟨name, hname, hnull⟩
    · exact absurd hslash (by decide)
    · exact (h.names name hname).no_null hnull

/-- The slashes that a path starts with, and the dot that stands for no names, are written as names
that stay where they are. -/
theorem exists_written (h : p.IsProper) :
    ∃ still, (∀ name ∈ still, Disk.staysAt name = true) ∧ written p.text = still ++ p.names := by
  have hjoined : ∃ still, (∀ name ∈ still, Disk.staysAt name = true) ∧
      written (Text.joinWith ['/'] p.names) = still ++ p.names := by
    by_cases hnil : p.names = []
    · rw [hnil]
      exact ⟨[[]], by decide, rfl⟩
    · exact ⟨[], by simp, written_joinWith (fun name hname => (h.names name hname).no_slash) hnil⟩
  obtain ⟨still, hstill, hjoined⟩ := hjoined
  have hempty : Disk.staysAt [] = true := by decide
  unfold text
  split
  · next hnone =>
    rw [hnone.2]
    exact ⟨[['.']], by decide, rfl⟩
  · rcases h.anchor with hanchor | hanchor | hanchor
    · rw [hanchor]
      exact ⟨still, hstill, hjoined⟩
    · rw [hanchor, List.singleton_append, written_cons, hjoined]
      exact ⟨[] :: still, List.forall_mem_cons.mpr ⟨hempty, hstill⟩, rfl⟩
    · rw [hanchor, List.cons_append, List.singleton_append, written_cons, written_cons, hjoined]
      exact ⟨[] :: [] :: still,
        List.forall_mem_cons.mpr ⟨hempty, List.forall_mem_cons.mpr ⟨hempty, hstill⟩⟩, rfl⟩

/-- A path is read as it was written. -/
theorem ofText_text (h : p.IsProper) : ofText p.text = p := by
  have hanchor : anchorOf p.text = p.anchor := by
    have hjoin := head?_joinWith_ne_slash h.names
    unfold text
    split
    · next hnone =>
      rw [hnone.1]
      rfl
    · rcases h.anchor with hanchor | hanchor | hanchor
      · rw [hanchor]
        exact anchorOf_eq_nil.mpr hjoin
      · rw [hanchor]
        exact anchorOf_cons hjoin
      · rw [hanchor]
        exact anchorOf_cons_cons hjoin
  have hnames : namesOf p.text = p.names := by
    obtain ⟨still, hstill, hwritten⟩ := h.exists_written
    show (written p.text).filter _ = p.names
    rw [hwritten, List.filter_append, List.filter_eq_nil_iff.mpr, List.filter_eq_self.mpr,
      List.nil_append]
    · intro name hname
      have hstays := (h.names name hname).not_stays
      unfold Disk.staysAt at hstays
      simpa using hstays
    · intro name hname
      have hstays := hstill name hname
      unfold Disk.staysAt at hstays
      simpa [imp_iff_not_or] using hstays
  unfold ofText
  rw [hanchor, hnames]

theorem text_ne_nil (h : p.IsProper) : p.text ≠ [] := by
  intro hnil
  have hread := h.ofText_text
  rw [hnil] at hread
  rw [← hread] at hnil
  exact absurd hnil (by decide)

/-- The written form starts with a slash just if the path is absolute. -/
theorem head?_text (h : p.IsProper) : p.text.head? = some '/' ↔ p.anchor ≠ [] := by
  have hanchor : anchorOf p.text = p.anchor := congrArg Path.anchor h.ofText_text
  rw [← hanchor, Ne, anchorOf_eq_nil, not_not]

theorem start_eq (h : p.IsProper) (d : Disk) :
    d.start p.text = if p.anchor = [] then d.base else [] := by
  unfold Disk.start
  by_cases hanchor : p.anchor = []
  · rw [if_pos hanchor, if_neg fun hhead => h.head?_text.mp hhead hanchor]
  · rw [if_neg hanchor, if_pos (h.head?_text.mpr hanchor)]

end IsProper

/-- The path that a text writes has no null character but those of the text. -/
theorem ofText_not_contains_null (h : t.contains '\x00' = false) :
    (ofText t).text.contains '\x00' = false := by
  refine (isProper_ofText fun hnull => ?_).not_contains_null
  rw [List.contains_iff_mem.mpr hnull] at h
  cases h

/-! ## Absolute paths -/

theorem not_contains_null (h : ∀ name ∈ names, IsFileName name) :
    (absolute names).text.contains '\x00' = false :=
  (isProper_absolute h).not_contains_null

theorem ofText_absolute (h : ∀ name ∈ names, IsFileName name) :
    ofText (absolute names).text = absolute names :=
  (isProper_absolute h).ofText_text

theorem absolute_text_injective (h : ∀ name ∈ names, IsFileName name)
    (h' : ∀ name ∈ names', IsFileName name) (heq : (absolute names).text = (absolute names').text) :
    names = names' := by
  have hread := congrArg ofText heq
  rw [ofText_absolute h, ofText_absolute h'] at hread
  exact congrArg Path.names hread

end Path

end TaggedOutline
