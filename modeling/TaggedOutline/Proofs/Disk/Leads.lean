import Mathlib.Data.List.Infix
import TaggedOutline.Proofs.Disk.Fault
import TaggedOutline.Proofs.Disk.Unlinked

/-!
# Ways through directories

If the names of a path lead from directory to directory, up and down, to what is no link, then the
path leads to it, links followed or not, unless it is too long (`Reaches.lookup`). A path that has
no link on its way leads to a directory in no other way (`reaches_of_lookup`).
-/

namespace TaggedOutline

namespace Disk

variable {d : Disk} {aim : Aim} {place q : Place} {names names' : List Text} {e e' : Entry}

/-! ## Ways -/

/-- Names lead from a place through directories, up and down, to an entry. -/
inductive Leads (d : Disk) : Place → List Text → Place → Entry → Prop
  | here {place : Place} {e : Entry} : d.entry? place = some e → Leads d place [] place e
  | up {place q : Place} {names : List Text} {e : Entry} : d.entry? place = some .directory →
    Leads d place.dropLast names q e → Leads d place (['.', '.'] :: names) q e
  | down {place q : Place} {name : Text} {names : List Text} {e : Entry} :
    d.entry? place = some .directory → IsFileName name → Leads d (place ++ [name]) names q e →
      Leads d place (name :: names) q e

namespace Leads

theorem entry (h : d.Leads place names q e) : d.entry? q = some e := by
  induction h with
  | here hentry => exact hentry
  | up _ _ ih => exact ih
  | down _ _ _ ih => exact ih

/-- A way to what is no link begins with what is no link. -/
theorem first (h : d.Leads place names q e) (hlink : e.isLink = false) :
    ∃ e', d.entry? place = some e' ∧ e'.isLink = false := by
  cases h with
  | here hentry => exact ⟨e, hentry, hlink⟩
  | up hdirectory _ => exact ⟨.directory, hdirectory, rfl⟩
  | down hdirectory _ _ => exact ⟨.directory, hdirectory, rfl⟩

theorem goAlong_eq (h : d.Leads place names q e) : goAlong place names = q := by
  induction h with
  | here _ => rfl
  | up _ _ ih => rw [goAlong, if_neg (by decide), if_pos rfl, ih]
  | down _ hname _ ih =>
    rw [goAlong, if_neg (by simp [hname.not_stays]), if_neg hname.not_up, ih]

theorem append (h : d.Leads place names q e) {q' : Place} (h' : d.Leads q names' q' e') :
    d.Leads place (names ++ names') q' e' := by
  induction h with
  | here _ => exact h'
  | up hdirectory _ ih => exact .up hdirectory (ih h')
  | down hdirectory hname _ ih => exact .down hdirectory hname (ih h')

/-- The last name on a way leads up or down from a directory. -/
theorem of_concat {name : Text} (h : d.Leads place (names ++ [name]) q e) :
    ∃ r, d.Leads place names r .directory ∧ d.Leads r [name] q e := by
  induction names generalizing place with
  | nil =>
    cases h with
    | up hdirectory hrest => exact ⟨place, .here hdirectory, .up hdirectory hrest⟩
    | down hdirectory hname hrest => exact ⟨place, .here hdirectory, .down hdirectory hname hrest⟩
  | cons name' names ih =>
    cases h with
    | up hdirectory hrest =>
      obtain ⟨r, hleads, hlast⟩ := ih hrest
      exact ⟨r, .up hdirectory hleads, hlast⟩
    | down hdirectory hname hrest =>
      obtain ⟨r, hleads, hlast⟩ := ih hrest
      exact ⟨r, .down hdirectory hname hleads, hlast⟩

end Leads

/-- Names lead along a way to what is no link as long as none of them is too long. -/
theorem advance_of_leads (haim : aim ≠ .room) (h : d.Leads place names q e)
    (hlink : e.isLink = false) :
    d.advance aim place names =
      if ∀ name ∈ names, (Text.Utf8.encode name).length ≤ nameLimit then .found q e
      else .failed .nameTooLong := by
  induction h with
  | here hentry => rw [advance, hentry, if_pos (by simp)]
  | up hdirectory _ ih =>
    have hup : (Text.Utf8.encode ['.', '.']).length ≤ nameLimit := by decide
    rw [advance, if_neg (fun hne => hne hdirectory), if_neg (by decide), if_pos rfl, ih hlink]
    simp only [List.forall_mem_cons, hup, true_and]
  | @down _ _ name names _ hdirectory hname hrest ih =>
    have hroom : ¬(aim = .room ∧ onlySlashes names = true) := fun h => haim h.1
    obtain ⟨e', hentry, hlink'⟩ := hrest.first hlink
    rw [advance, if_neg (fun hne => hne hdirectory), if_neg (by simp [hname.not_stays]),
      if_neg hname.not_up, if_neg hroom, hentry]
    by_cases hlong : nameLimit < (Text.Utf8.encode name).length
    · rw [if_pos hlong, if_neg]
      intro hall
      exact absurd (hall name List.mem_cons_self) (Nat.not_le.mpr hlong)
    · have hgo := ih hlink
      simp only [List.forall_mem_cons, Nat.le_of_not_lt hlong, true_and]
      rw [if_neg hlong]
      cases e' with
      | link target => exact absurd hlink' (by simp [Entry.isLink])
      | directory => exact hgo
      | file mode bytes => exact hgo

/-- Where there are no links along some names, they lead along a way or nowhere. -/
theorem advance_unlinked (aim : Aim) (hnames : ∀ name ∈ names, IsWayName name)
    (hunlinked : ∀ before, before <+: names → ∀ e, d.entry? (goAlong place before) = some e →
      e.isLink = false) :
    (∃ q e, d.advance aim place names = .found q e ∧ d.Leads place names q e) ∨
      (∃ q, d.advance aim place names = .vacant q) ∨
        ∃ c, d.advance aim place names = .failed c := by
  induction names generalizing place with
  | nil =>
    rw [advance]
    cases hentry : d.entry? place with
    | none => exact .inr (.inl ⟨place, rfl⟩)
    | some e => exact .inl ⟨place, e, rfl, .here hentry⟩
  | cons name names ih =>
    obtain ⟨hname, hnames⟩ := List.forall_mem_cons.mp hnames
    have hafter {next : Place} (hnext : goAlong place [name] = next) : ∀ before, before <+: names →
        ∀ e, d.entry? (goAlong next before) = some e → e.isLink = false := by
      intro before hbefore e hentry
      refine hunlinked (name :: before) (List.prefix_cons_inj name |>.mpr hbefore) e ?_
      rwa [← List.singleton_append, goAlong_append, hnext]
    have hstays : ¬(staysAt name = true) := by simp [hname.not_stays]
    rw [advance]
    split
    · exact .inr (.inr ⟨_, rfl⟩)
    · next hdirectory =>
      have hdirectory := not_not.mp hdirectory
      split
      · next hup =>
        have hnext : goAlong place [name] = place.dropLast := by
          rw [goAlong, if_neg hstays, if_pos hup, goAlong]
        rcases ih hnames (hafter hnext) with ⟨q, e, hfound, hleads⟩ | hnone
        · rw [hup]
          exact .inl ⟨q, e, hfound, .up hdirectory hleads⟩
        · exact .inr hnone
      · next hup =>
        have hnext : goAlong place [name] = place ++ [name] := by
          rw [goAlong, if_neg hstays, if_neg hup, goAlong]
        split
        · exact .inr (.inr ⟨_, rfl⟩)
        · split
          · exact .inr (.inr ⟨_, rfl⟩)
          · split
            · next target hlink =>
              have hnone := hafter hnext [] (List.nil_prefix) _ hlink
              exact absurd hnone (by simp [Entry.isLink])
            · rcases ih hnames (hafter hnext) with ⟨q, e, hfound, hleads⟩ | hnone
              · exact .inl ⟨q, e, hfound, .down hdirectory (hname.isFileName hup) hleads⟩
              · exact .inr hnone
            · split
              · exact .inr (.inl ⟨_, rfl⟩)
              · exact .inr (.inr ⟨_, rfl⟩)

/-! ## What a path leads to -/

/-- A path leads through directories to what is no link. -/
structure Reaches (d : Disk) (p : Path) (place : Place) (e : Entry) : Prop where
  proper : p.IsProper
  start : d.entry? (d.start p.text) = some .directory
  leads : d.Leads (d.start p.text) p.names place e
  not_link : e.isLink = false

/-- There are no links on the way of a path. -/
def UnlinkedTo (d : Disk) (p : Path) : Prop :=
  ∀ before, before <+: p.names → ∀ e, d.entry? (goAlong (d.start p.text) before) = some e →
    e.isLink = false

instance (d : Disk) (p : Path) : Decidable (d.UnlinkedTo p) :=
  decidable_of_iff (∀ before ∈ p.names.inits, ∀ e ∈ d.entry? (goAlong (d.start p.text) before),
      e.isLink = false) (by simp only [List.mem_inits, Option.mem_def]; exact Iff.rfl)

/-- A path is looked up by its names. -/
theorem target_eq {p : Path} (hp : p.IsProper) (hstart : d.entry? (d.start p.text) = some .directory)
    (aim : Aim) :
    d.target aim p.text =
      if pathLimit ≤ (Text.Utf8.encode p.text).length then .error .nameTooLong
      else d.seek aim linkLimit (d.start p.text) p.names := by
  unfold target
  rw [if_neg hp.text_ne_nil, show Text.splitWhere (· == '/') p.text = written p.text from rfl]
  unfold seek
  rw [advance_written hp hstart]

namespace Reaches

variable {p : Path} {mode : Nat} {bytes : List UInt8} {limit : Option Int} {uri : Text}
  {document : Document}

theorem entry (h : d.Reaches p place e) : d.entry? place = some e := h.leads.entry

/-- The path leads there, links followed or not, unless it is too long. -/
theorem lookup (h : d.Reaches p place e) (follow : Bool) :
    d.lookup follow p.text = if p.IsShort then .ok (place, e) else .error .nameTooLong := by
  have haim : (if follow then Aim.behind else Aim.itself) ≠ .room := by cases follow <;> decide
  unfold Disk.lookup
  rw [target_eq h.proper h.start]
  by_cases hlong : pathLimit ≤ (Text.Utf8.encode p.text).length
  · rw [if_pos hlong, if_neg fun hshort => absurd hshort.1 (Nat.not_lt.mpr hlong)]
    rfl
  · rw [if_neg hlong]
    unfold seek
    rw [advance_of_leads haim h.leads h.not_link]
    by_cases hnames : ∀ name ∈ p.names, (Text.Utf8.encode name).length ≤ nameLimit
    · have hshort : p.IsShort := ⟨Nat.not_le.mp hlong, hnames⟩
      rw [if_pos hnames, if_pos hshort]
      rfl
    · rw [if_neg hnames, if_neg fun hshort : p.IsShort => hnames hshort.2]
      rfl

/-- A path with the same start leads to what its names lead to. -/
theorem withNames (h : d.Reaches p place e) (hnames : ∀ name ∈ names, IsWayName name)
    (hleads : d.Leads (d.start p.text) names q e') (hlink : e'.isLink = false) :
    d.Reaches ⟨p.anchor, names⟩ q e' := by
  have hproper : Path.IsProper ⟨p.anchor, names⟩ := ⟨h.proper.anchor, hnames⟩
  have hstart : d.start (Path.text ⟨p.anchor, names⟩) = d.start p.text :=
    (hproper.start_eq d).trans (h.proper.start_eq d).symm
  exact ⟨hproper, hstart ▸ h.start, hstart ▸ hleads, hlink⟩

theorem join (h : d.Reaches p place e) (hnames : ∀ name ∈ names, IsWayName name)
    (hleads : d.Leads place names q e') (hlink : e'.isLink = false) :
    d.Reaches (p.join names) q e' :=
  h.withNames (h.proper.join hnames).names (h.leads.append hleads) hlink

/-! ## Reading -/

theorem regularFile (h : d.Reaches p place (.file mode bytes)) (limit : Option Int) :
    d.regularFile p limit =
      if p.IsShort then
        if ∃ n ∈ limit, n < (bytes.length : Int) then .error (.tooLarge p (limit.getD 0))
        else .ok (place, mode, bytes)
      else .error (.inaccessible p .nameTooLong) := by
  unfold Disk.regularFile
  rw [h.proper.not_contains_null, h.lookup false, if_neg Bool.false_ne_true]
  by_cases hshort : p.IsShort
  · rw [if_pos hshort, if_pos hshort]
    cases limit with
    | none => simp
    | some n =>
      simp only [Option.mem_def, Option.some.injEq, exists_eq_left', Option.getD_some]
  · rw [if_neg hshort, if_neg hshort]

theorem readText (h : d.Reaches p place (.file mode bytes)) :
    d.readText p =
      if p.IsShort then (Text.Utf8.decode bytes).mapError .undecodable
      else .error (.inaccessible p .nameTooLong) := by
  unfold Disk.readText readBytes
  rw [h.proper.not_contains_null, h.lookup true, if_neg Bool.false_ne_true]
  by_cases hshort : p.IsShort
  · rw [if_pos hshort, if_pos hshort]
    rfl
  · rw [if_neg hshort, if_neg hshort]
    rfl

/-- Which documents can be read: files whose path and size are within the limits and whose bytes
encode a text. -/
theorem load_eq_ok_iff (h : d.Reaches p place (.file mode bytes)) (huri : d.uriOf p = .ok uri) :
    d.load p limit = .ok document ↔
      p.IsShort ∧ (∀ n ∈ limit, (bytes.length : Int) ≤ n) ∧
        Text.Utf8.decode bytes = .ok document.text ∧ document.uri = uri ∧
          document.markup = p.markup := by
  unfold load
  rw [h.regularFile, huri, h.readText]
  by_cases hshort : p.IsShort
  · rw [if_pos hshort, if_pos hshort]
    by_cases hlarge : ∃ n ∈ limit, n < (bytes.length : Int)
    · rw [if_pos hlarge]
      obtain ⟨n, hn, hlt⟩ := hlarge
      constructor
      · intro herror
        cases herror
      · rintro ⟨-, hsize, -⟩
        exact absurd (hsize n hn) (by omega)
    · rw [if_neg hlarge]
      have hsize : ∀ n ∈ limit, (bytes.length : Int) ≤ n := fun n hn =>
        Int.not_lt.mp fun hlt => hlarge ⟨n, hn, hlt⟩
      cases hdecode : Text.Utf8.decode bytes with
      | error fault =>
        constructor
        · intro herror
          cases herror
        · rintro ⟨-, -, herror, -⟩
          cases herror
      | ok t =>
        show Except.ok ⟨uri, t, p.markup⟩ = Except.ok document ↔ _
        constructor
        · intro hdocument
          obtain rfl := Except.ok.inj hdocument
          exact ⟨hshort, hsize, rfl, rfl, rfl⟩
        · rintro ⟨-, -, htext, huri, hmarkup⟩
          rw [Except.ok.inj htext, ← huri, ← hmarkup]
  · rw [if_neg hshort]
    constructor
    · intro herror
      cases herror
    · exact fun hall => absurd hall.1 hshort

end Reaches

/-- A path without links on its way that leads to a directory leads through directories. -/
theorem reaches_of_lookup {p : Path} (hp : p.IsProper) (hunlinked : d.UnlinkedTo p)
    (h : d.lookup true p.text = .ok (place, .directory)) : d.Reaches p place .directory := by
  have hstart := start_of_lookup h
  have hseek := seek_of_lookup h
  unfold seek at hseek
  rw [advance_written hp hstart] at hseek
  rcases advance_unlinked (if true then .behind else .itself) hp.names hunlinked with
    ⟨q, e, hfound, hleads⟩ | ⟨q, hvacant⟩ | ⟨c, hfailed⟩
  · rw [hfound] at hseek
    obtain ⟨rfl, rfl⟩ := Target.entry.inj (Except.ok.inj hseek)
    exact ⟨hp, hstart, hleads, rfl⟩
  · rw [hvacant] at hseek
    cases hseek
  · rw [hfailed] at hseek
    cases hseek

end Disk

end TaggedOutline
