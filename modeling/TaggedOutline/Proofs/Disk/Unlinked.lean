import TaggedOutline.Proofs.Disk.Way

/-!
# Disks without links

Where there are no links, names lead down from one place to the next or nowhere (`advance_cases`).
So the absolute path of some names stands for itself (`realPath_absolute`), it leads to nothing but
what is at its names (`lookup_absolute`), and the document at it is determined by the bytes there
(`load_absolute`).
-/

namespace TaggedOutline

open Text (splitWhere)

namespace Disk

/-- There are no links on the disk. -/
def Unlinked (d : Disk) : Prop := ∀ place target, d.entry? place ≠ some (.link target)

theorem unlinked_of_all {d : Disk} (h : (d.entries.all fun e => !e.2.isLink) = true) :
    d.Unlinked := by
  intro place target hentry
  unfold entry? at hentry
  split at hentry
  · exact absurd hentry (by simp)
  · obtain ⟨e, he, hlink⟩ := Option.map_eq_some_iff.mp hentry
    have hnone := List.all_eq_true.mp h e (List.mem_of_find?_eq_some he)
    rw [hlink] at hnone
    exact absurd hnone (by simp [Entry.isLink])

section Lookup

variable {d : Disk} {aim : Aim} {place q : Place} {e : Entry} {names : List Text} {t : Text}

/-! ## Looking up -/

/-- One name fails, leads to where nothing is, or goes on: from where it is, upwards or down. -/
theorem advance_cases (hd : d.Unlinked) (aim : Aim) (place : Place) (name : Text)
    (rest : List Text) :
    (∃ c, c ≠ Cause.tooManyLinks ∧ d.advance aim place (name :: rest) = .failed c) ∨
      (∃ q, d.advance aim place (name :: rest) = .vacant q) ∨
      (staysAt name = true ∧ d.advance aim place (name :: rest) = d.advance aim place rest) ∨
      (name = ['.', '.'] ∧
        d.advance aim place (name :: rest) = d.advance aim place.dropLast rest) ∨
      d.advance aim place (name :: rest) = d.advance aim (place ++ [name]) rest := by
  rw [advance]
  split
  · exact .inl ⟨_, by decide, rfl⟩
  · split
    · next hstays => exact .inr (.inr (.inl ⟨hstays, rfl⟩))
    · split
      · next hup => exact .inr (.inr (.inr (.inl ⟨hup, rfl⟩)))
      · split
        · exact .inl ⟨_, by decide, rfl⟩
        · split
          · exact .inl ⟨_, by decide, rfl⟩
          · split
            · next target hlink => exact absurd hlink (hd _ target)
            · exact .inr (.inr (.inr (.inr rfl)))
            · split
              · exact .inr (.inl ⟨_, rfl⟩)
              · exact .inl ⟨_, by decide, rfl⟩

/-- A stop that is no link, is not due to links, and satisfies `below` if something is there. -/
def Stop.IsPlain (d : Disk) (below : Place → Prop) : Stop → Prop
  | .found q e => d.entry? q = some e ∧ below q
  | .vacant _ => True
  | .link _ _ _ => False
  | .failed c => c ≠ .tooManyLinks

theorem Stop.IsPlain.mono {below below' : Place → Prop} {stop : Stop} (h : stop.IsPlain d below)
    (himp : ∀ q, below q → below' q) : stop.IsPlain d below' := by
  cases stop with
  | found q e => exact ⟨h.1, himp q h.2⟩
  | vacant q => trivial
  | link directory target rest => exact h
  | failed c => exact h

/-- Names of files lead down to a place, if they lead anywhere. -/
theorem isPlain_advance (hd : d.Unlinked) (aim : Aim) (place : Place) (names : List Text) :
    (d.advance aim place names).IsPlain d
      fun q => (∀ name ∈ names, IsFileName name) → q = place ++ names := by
  induction names generalizing place with
  | nil =>
    rw [advance]
    cases he : d.entry? place with
    | none => trivial
    | some e => exact ⟨he, fun _ => (List.append_nil place).symm⟩
  | cons name names ih =>
    rcases advance_cases hd aim place name names with
      ⟨c, hc, h⟩ | ⟨q, h⟩ | ⟨hstays, h⟩ | ⟨hup, h⟩ | h
    · rw [h]
      exact hc
    · rw [h]
      trivial
    · rw [h]
      refine (ih place).mono fun q _ hall => ?_
      have hname := (hall name List.mem_cons_self).not_stays
      exact absurd hstays (Bool.eq_false_iff.mp hname)
    · rw [h]
      refine (ih place.dropLast).mono fun q _ hall => ?_
      exact absurd hup (hall name List.mem_cons_self).not_up
    · rw [h]
      refine (ih (place ++ [name])).mono fun q hq hall => ?_
      rw [hq (List.forall_mem_cons.mp hall).2, List.append_assoc, List.singleton_append]

/-- No link is followed. -/
theorem seek_eq (hd : d.Unlinked) (aim : Aim) (links : Nat) (place : Place) (names : List Text) :
    d.seek aim links place names =
      match d.advance aim place names with
      | .found q e => .ok (.entry q e)
      | .vacant q => .ok (.vacant q)
      | .link _ _ _ => .error .tooManyLinks
      | .failed c => .error c := by
  have hplain := isPlain_advance hd aim place names
  unfold seek
  cases hstop : d.advance aim place names with
  | found q e => rfl
  | vacant q => rfl
  | link directory target rest =>
    rw [hstop] at hplain
    exact absurd hplain id
  | failed c => rfl

/-- A path leads where its names lead, and does not fail because of links. -/
theorem lookup_spec (hd : d.Unlinked) (follow : Bool) (t : Text) :
    match d.lookup follow t with
    | .ok (q, e) => ∃ aim, d.advance aim (d.start t) (written t) = .found q e
    | .error c => c ≠ .tooManyLinks := by
  unfold lookup target
  by_cases hempty : t = []
  · rw [if_pos hempty]
    show Cause.notFound ≠ .tooManyLinks
    decide
  · rw [if_neg hempty]
    by_cases hlong : pathLimit ≤ (Text.Utf8.encode t).length
    · rw [if_pos hlong]
      show Cause.nameTooLong ≠ .tooManyLinks
      decide
    · rw [if_neg hlong, show splitWhere (· == '/') t = written t from rfl, seek_eq hd]
      have hplain :=
        isPlain_advance hd (if follow then .behind else .itself) (d.start t) (written t)
      cases hstop : d.advance (if follow then .behind else .itself) (d.start t) (written t) with
      | found q e => exact ⟨_, hstop⟩
      | vacant q =>
        show Cause.notFound ≠ .tooManyLinks
        decide
      | link directory target rest =>
        rw [hstop] at hplain
        exact absurd hplain id
      | failed c =>
        rw [hstop] at hplain
        exact hplain

theorem lookup_ne_tooManyLinks (hd : d.Unlinked) (follow : Bool) (t : Text) :
    d.lookup follow t ≠ .error .tooManyLinks := by
  intro h
  have hspec := lookup_spec hd follow t
  rw [h] at hspec
  exact hspec rfl

/-- An absolute path leads to nothing but what is at its names. -/
theorem lookup_absolute (hd : d.Unlinked) (hnames : ∀ name ∈ names, IsFileName name)
    {follow : Bool} (h : d.lookup follow (Path.absolute names).text = .ok (q, e)) : q = names := by
  have hspec := lookup_spec hd follow (Path.absolute names).text
  rw [h] at hspec
  obtain ⟨aim, hfound⟩ := hspec
  have hplain := isPlain_advance hd aim [] names
  rw [start_absolute, advance_written (Path.isProper_absolute hnames) rfl,
    show (Path.absolute names).names = names from rfl] at hfound
  rw [hfound] at hplain
  exact hplain.2 hnames

/-! ## Resolving -/

theorem Unlinked.direct (hd : d.Unlinked) (names : List Text) : d.Direct names :=
  fun _ _ _ target hlink => hd _ target (entry?_of_lookup hlink)

/-- An absolute path stands for itself. -/
theorem realPath_absolute (hd : d.Unlinked) (hnames : ∀ name ∈ names, IsFileName name) :
    d.realPath (Path.absolute names).text = Path.absolute names :=
  realPath_of_direct (hd.direct names) hnames

/-- The document at an absolute path is known by the path, be there anything or not. -/
theorem uriOf_absolute (hd : d.Unlinked) (hnames : ∀ name ∈ names, IsFileName name) :
    d.uriOf (Path.absolute names) = .ok (Path.absolute names).text :=
  uriOf_of_direct (hd.direct names) hnames (lookup_ne_tooManyLinks hd true _)

/-! ## Reading -/

/-- The bytes of the regular file at a place. -/
def bytesAt? (d : Disk) (place : Place) : Option (List UInt8) :=
  match d.entry? place with
  | some (.file _ bytes) => some bytes
  | _ => none

/-- A document that can be read has the path for a name and the bytes at its place for a text. -/
theorem load_absolute (hd : d.Unlinked) (hnames : ∀ name ∈ names, IsFileName name)
    {limit : Option Int} {document : Document}
    (h : d.load (Path.absolute names) limit = .ok document) :
    ∃ bytes, d.bytesAt? names = some bytes ∧ Text.Utf8.decode bytes = .ok document.text ∧
      document.uri = (Path.absolute names).text ∧
        document.markup = (Path.absolute names).markup := by
  have huri := (uriOf_of_load h).symm.trans (uriOf_absolute hd hnames)
  unfold load at h
  obtain ⟨file, -, h⟩ := exists_of_bind_eq_ok h
  obtain ⟨uri, -, h⟩ := exists_of_bind_eq_ok h
  obtain ⟨text, htext, h⟩ := exists_of_bind_eq_ok h
  obtain rfl := Except.ok.inj h
  obtain ⟨bytes, hbytes, hdecode⟩ := exists_of_bind_eq_ok htext
  refine ⟨bytes, ?_, eq_ok_of_mapError hdecode, Except.ok.inj huri, rfl⟩
  unfold readBytes at hbytes
  rw [Path.not_contains_null hnames, if_neg Bool.false_ne_true] at hbytes
  split at hbytes
  · next q mode bytes' hlookup =>
    unfold bytesAt?
    rw [← lookup_absolute hd hnames hlookup, entry?_of_lookup hlookup, ← Except.ok.inj hbytes]
  · cases hbytes
  · cases hbytes

end Lookup

end Disk

end TaggedOutline
