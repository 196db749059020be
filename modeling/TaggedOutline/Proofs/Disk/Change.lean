import TaggedOutline.Disk.Change
import TaggedOutline.Proofs.Disk.Unlinked
import TaggedOutline.Proofs.Table

/-!
# Files after a change of a disk

On a disk without links an absolute path is its own place, so putting a file at it and moving a file
change the bytes at the places of these paths and nowhere else.
-/

namespace TaggedOutline

namespace Disk

variable {d : Disk} {place q : Place} {e : Entry} {names source target : List Text} {mode : Nat}
  {bytes : List UInt8}

/-! ## Entries -/

theorem entry?_put (h : place ≠ []) (e : Entry) (q : Place) :
    entry? (d.put place e) q = if q = place then some e else d.entry? q := by
  unfold entry? put
  rw [Table.get?_put]
  by_cases hq : q = []
  · rw [if_pos hq, if_pos hq, if_neg]
    rintro rfl
    exact h hq
  · rw [if_neg hq, if_neg hq]
    by_cases hp : place = q
    · rw [if_pos hp, if_pos hp.symm]
    · rw [if_neg hp, if_neg (Ne.symm hp)]

theorem entry?_erase (h : place ≠ []) (q : Place) :
    entry? (d.erase place) q = if q = place then none else d.entry? q := by
  unfold entry? erase
  rw [Table.get?_erase]
  by_cases hq : q = []
  · rw [if_pos hq, if_pos hq, if_neg]
    rintro rfl
    exact h hq
  · rw [if_neg hq, if_neg hq]

theorem bytesAt?_put_file (h : place ≠ []) (mode : Nat) (bytes : List UInt8) (q : Place) :
    (d.put place (.file mode bytes)).bytesAt? q =
      if q = place then some bytes else d.bytesAt? q := by
  unfold bytesAt?
  rw [entry?_put h]
  by_cases hq : q = place
  · rw [if_pos hq, if_pos hq]
  · rw [if_neg hq, if_neg hq]

theorem bytesAt?_erase (h : place ≠ []) (q : Place) :
    (d.erase place).bytesAt? q = if q = place then none else d.bytesAt? q := by
  unfold bytesAt?
  rw [entry?_erase h]
  by_cases hq : q = place
  · rw [if_pos hq, if_pos hq]
  · rw [if_neg hq, if_neg hq]

/-- Directories are made where nothing is. -/
theorem bytesAt?_makeDirectories (d : Disk) (place q : Place) :
    (d.makeDirectories place).bytesAt? q = d.bytesAt? q := by
  unfold makeDirectories
  induction List.range place.length generalizing d with
  | nil => rfl
  | cons k ks ih =>
    rw [List.foldl_cons, ih]
    simp only
    split
    · rfl
    · next hnone =>
      have hne : place.take (k + 1) ≠ [] := by
        intro htop
        rw [htop] at hnone
        exact hnone rfl
      unfold bytesAt?
      rw [entry?_put hne]
      by_cases hq : q = place.take (k + 1)
      · rw [if_pos hq, hq, Option.not_isSome_iff_eq_none.mp hnone]
      · rw [if_neg hq]

/-! ## Paths -/

theorem placeOf_absolute (hd : d.Unlinked) (hnames : ∀ name ∈ names, IsFileName name) :
    d.placeOf (Path.absolute names).text = names := by
  rw [placeOf, realPath_absolute hd hnames]
  rfl

theorem ownPlace_absolute (hd : d.Unlinked) (hnames : ∀ name ∈ names, IsFileName name) :
    d.ownPlace (Path.absolute names) = names := by
  have hparent : d.placeOf (Path.absolute names).parent.text = names.dropLast :=
    placeOf_absolute hd fun name hname => hnames name (List.dropLast_subset names hname)
  have hlast : names.dropLast ++ names.getLast?.toList = names := by
    cases hlast : names.getLast? with
    | none =>
      rw [List.getLast?_eq_none_iff.mp hlast]
      rfl
    | some name => exact List.dropLast_append_getLast? name hlast
  unfold ownPlace
  rw [hparent]
  exact hlast

/-- Putting a file at a path changes the bytes there. -/
theorem bytesAt?_install (hd : d.Unlinked) (hnames : ∀ name ∈ names, IsFileName name)
    (hne : names ≠ []) (mode : Nat) (bytes : List UInt8) (q : Place) :
    (d.install (Path.absolute names) (.file mode bytes)).bytesAt? q =
      if q = names then some bytes else d.bytesAt? q := by
  unfold install
  simp only
  rw [placeOf_absolute hd hnames, bytesAt?_put_file hne, bytesAt?_makeDirectories]

/-- Moving a file is removing it where it was and putting it where it goes. -/
theorem move_file (hd : d.Unlinked) (hkeys : (Table.keys d.entries).Nodup)
    (hsource : ∀ name ∈ source, IsFileName name) (htarget : ∀ name ∈ target, IsFileName name)
    (hne : source ≠ []) (hfile : d.entry? source = some (.file mode bytes))
    (hbelow : ∀ place ∈ Table.keys d.entries, source <+: place → place = source) :
    d.move (Path.absolute source) (Path.absolute target) =
      (d.erase source).put target (.file mode bytes) := by
  have hkey (e : Place × Entry) (he : e ∈ d.entries) :
      source.isPrefixOf e.1 = decide (e.1 = source) := by
    rw [Bool.eq_iff_iff, List.isPrefixOf_iff_prefix, decide_eq_true_eq]
    constructor
    · exact hbelow e.1 (List.mem_map_of_mem he)
    · rintro rfl
      exact List.prefix_rfl
  have hmoved : d.entries.filter (fun e => source.isPrefixOf e.1) =
      [(source, .file mode bytes)] := by
    rw [List.filter_congr hkey]
    unfold entry? at hfile
    rw [if_neg hne] at hfile
    exact Table.filter_key_of_get? hkeys hfile
  have hkept : d.entries.filter (fun e => !source.isPrefixOf e.1) =
      Table.erase d.entries source := by
    refine List.filter_congr fun e he => ?_
    rw [hkey e he]
    by_cases heq : e.1 = source
    · simp [heq]
    · simp [heq]
  unfold move
  rw [ownPlace_absolute hd hsource, ownPlace_absolute hd htarget]
  simp only
  rw [List.partition_eq_filter_filter]
  show (d.entries.filter fun e => source.isPrefixOf e.1).foldl _
    { d with entries := d.entries.filter fun e => !source.isPrefixOf e.1 } = _
  rw [hmoved, hkept]
  show Disk.put _ (target ++ source.drop source.length) _ = _
  rw [List.drop_length, List.append_nil]
  rfl

theorem bytesAt?_move (hd : d.Unlinked) (hkeys : (Table.keys d.entries).Nodup)
    (hsource : ∀ name ∈ source, IsFileName name) (htarget : ∀ name ∈ target, IsFileName name)
    (hne : source ≠ []) (hne' : target ≠ []) (hfile : d.entry? source = some (.file mode bytes))
    (hbelow : ∀ place ∈ Table.keys d.entries, source <+: place → place = source) (q : Place) :
    (d.move (Path.absolute source) (Path.absolute target)).bytesAt? q =
      if q = target then some bytes else if q = source then none else d.bytesAt? q := by
  rw [move_file hd hkeys hsource htarget hne hfile hbelow, bytesAt?_put_file hne',
    bytesAt?_erase hne]

end Disk

end TaggedOutline
