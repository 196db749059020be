import TaggedOutline.Proofs.Disk.Change
import TaggedOutline.Proofs.Disk.Leads
import TaggedOutline.Proofs.Disk.Walk

/-!
# Disks as trees

On a disk that is a tree, with links or without, the way to an entry leads through directories only
(`IsTree.directory_of_prefix`). So the absolute path of a file or a directory leads to it unless it
is too long (`IsTree.lookup_absolute`). Whatever path leads to a file through directories, up and
down, stands for the absolute one (`IsTree.realPath_of_reaches`), which is the name of the document
(`IsTree.uriOf_of_reaches`). Reading the file can fail, but never because of its absolute path
(`IsTree.isReadFailure_of_load`).
-/

namespace TaggedOutline

namespace Disk

/-- The entries are at distinct places, each in a directory and under names that a directory can
hold. -/
structure IsTree (d : Disk) : Prop where
  keys : (Table.keys d.entries).Nodup
  names : ∀ place ∈ Table.keys d.entries, ∀ name ∈ place, IsFileName name
  parent : ∀ place ∈ Table.keys d.entries,
    place ≠ [] ∧ d.entry? place.dropLast = some .directory

instance (d : Disk) : Decidable d.IsTree :=
  decidable_of_iff ((Table.keys d.entries).Nodup ∧
      (∀ place ∈ Table.keys d.entries, ∀ name ∈ place, IsFileName name) ∧
      ∀ place ∈ Table.keys d.entries, place ≠ [] ∧ d.entry? place.dropLast = some .directory)
    ⟨fun ⟨hkeys, hnames, hparent⟩ => ⟨hkeys, hnames, hparent⟩,
      fun ⟨hkeys, hnames, hparent⟩ => ⟨hkeys, hnames, hparent⟩⟩

/-- Neither the path of a place nor one of its names is too long. -/
def Fits (place : Place) : Prop :=
  (Text.Utf8.encode (Path.absolute place).text).length < pathLimit ∧
    ∀ name ∈ place, (Text.Utf8.encode name).length ≤ nameLimit

instance (place : Place) : Decidable (Fits place) :=
  inferInstanceAs (Decidable (_ ∧ _))

namespace IsTree

variable {d : Disk} {p : Path} {place before q : Place} {names : List Text} {e : Entry} {mode : Nat}
  {bytes : List UInt8} {limit : Option Int} {document : Document}

/-! ## Ways -/

theorem mem_keys_of_found (h : d.entry? place = some e) (hne : place ≠ []) :
    place ∈ Table.keys d.entries := by
  unfold entry? at h
  rw [if_neg hne] at h
  exact List.mem_map.mpr ⟨_, Table.mem_of_get? h, rfl⟩

theorem names_of_found (hd : d.IsTree) (h : d.entry? place = some e) :
    ∀ name ∈ place, IsFileName name := by
  by_cases hne : place = []
  · rw [hne]
    simp
  · exact hd.names place (mem_keys_of_found h hne)

/-- Directories lead to whatever there is. -/
theorem directory_of_prefix (hd : d.IsTree) (h : d.entry? place = some e)
    (hbefore : before <+: place) (hne : before ≠ place) : d.entry? before = some .directory := by
  induction place using List.reverseRecOn generalizing e with
  | nil => exact absurd (List.prefix_nil.mp hbefore) hne
  | append_singleton place name ih =>
    have hparent := (hd.parent _ (mem_keys_of_found h (by simp))).2
    rw [List.dropLast_concat] at hparent
    rcases List.prefix_concat_iff.mp hbefore with heq | hbefore
    · exact absurd heq hne
    · by_cases heq : before = place
      · rw [heq]
        exact hparent
      · exact ih hparent hbefore heq

theorem dropLast_directory (hd : d.IsTree) (h : d.entry? place = some e) :
    d.entry? place.dropLast = some .directory := by
  by_cases hne : place = []
  · rw [hne]
    rfl
  · exact (hd.parent place (mem_keys_of_found h hne)).2

/-- The names of a place lead down to what is there. -/
theorem leads_names (hd : d.IsTree) (h : d.entry? (before ++ names) = some e) :
    d.Leads before names (before ++ names) e := by
  induction names generalizing before with
  | nil =>
    rw [List.append_nil] at h ⊢
    exact .here h
  | cons name names ih =>
    have hname := hd.names_of_found h name (List.mem_append_right before List.mem_cons_self)
    have hhere : d.entry? before = some .directory :=
      hd.directory_of_prefix h (List.prefix_append before _) (by simp)
    have hrest : d.Leads (before ++ [name]) names (before ++ [name] ++ names) e :=
      ih (by rwa [← List.append_cons])
    rw [← List.append_cons] at hrest
    exact .down hhere hname hrest

theorem reaches_absolute (hd : d.IsTree) (h : d.entry? place = some e)
    (hlink : e.isLink = false) : d.Reaches (.absolute place) place e := by
  have hstart := start_absolute d place
  have hbelow : d.entry? ([] ++ place) = some e := h
  refine ⟨Path.isProper_absolute (hd.names_of_found h), ?_, ?_, hlink⟩
  · rw [hstart]
    rfl
  · rw [hstart]
    exact hd.leads_names hbelow

/-- The path of a file or a directory leads to it, unless it is too long. -/
theorem lookup_absolute (hd : d.IsTree) (follow : Bool) (h : d.entry? place = some e)
    (hlink : e.isLink = false) :
    d.lookup follow (Path.absolute place).text =
      if Fits place then .ok (place, e) else .error .nameTooLong :=
  (hd.reaches_absolute h hlink).lookup follow

/-! ## Resolving -/

theorem reaches_up (hd : d.IsTree) (h : d.Reaches p place .directory) :
    d.Reaches p.up place.dropLast .directory ∧ p.up.anchor = p.anchor := by
  have habove := hd.dropLast_directory h.entry
  have hdots : d.Reaches ⟨p.anchor, p.names ++ [['.', '.']]⟩ place.dropLast .directory :=
    h.join (List.forall_mem_singleton.mpr isWayName_up) (.up h.entry (.here habove)) rfl
  have hempty (hnil : p.names = []) : place = d.start p.text := by
    rw [← h.leads.goAlong_eq, hnil]
    rfl
  unfold Path.up
  split
  · next hnone =>
    have hnil := List.getLast?_eq_none_iff.mp hnone
    split
    · next habsolute =>
      have hanchor : p.anchor ≠ [] := by simpa [Path.isAbsolute] using habsolute
      rw [hempty hnil, h.proper.start_eq, if_neg hanchor] at h ⊢
      exact ⟨h, rfl⟩
    · rw [hnil] at hdots
      exact ⟨hdots, rfl⟩
  · next name hlast =>
    split
    · exact ⟨hdots, rfl⟩
    · next hup =>
      obtain ⟨front, hnames⟩ := List.getLast?_eq_some_iff.mp hlast
      have hleads := h.leads
      rw [hnames] at hleads
      obtain ⟨r, hfront, hstep⟩ := hleads.of_concat
      have hplace : place = r ++ [name] := by
        cases hstep with
        | up => exact absurd rfl hup
        | down _ _ hrest => exact (hrest.goAlong_eq).symm
      have hparent : p.parent = ⟨p.anchor, front⟩ := by
        unfold Path.parent
        rw [hnames, List.dropLast_concat]
      rw [hparent, hplace, List.dropLast_concat]
      refine ⟨h.withNames (fun name hname => h.proper.names name ?_) hfront rfl, rfl⟩
      rw [hnames]
      exact List.mem_append_left _ hname

/-- Names that lead along a way are resolved to a path that leads to its end. -/
theorem resolveAlong_of_leads (hd : d.IsTree) (h : d.Leads place names q e)
    (hlink : e.isLink = false) {r : Path} {e₀ : Entry} (hr : d.Reaches r place e₀) :
    ∃ r', (∀ visit met, d.resolveAlong visit met r names = (met, .reached r')) ∧
      r'.anchor = r.anchor ∧ d.Reaches r' q e := by
  induction h generalizing r e₀ with
  | here hentry =>
    have he := Option.some.inj (hr.entry.symm.trans hentry)
    exact ⟨r, fun _ _ => rfl, rfl, he ▸ hr⟩
  | up hdirectory _ ih =>
    obtain rfl := Option.some.inj (hr.entry.symm.trans hdirectory)
    obtain ⟨hup, hanchor⟩ := hd.reaches_up hr
    obtain ⟨r', hresolved, hanchor', hreaches⟩ := ih hlink hup
    refine ⟨r', fun visit met => ?_, hanchor'.trans hanchor, hreaches⟩
    rw [resolveAlong, if_neg (by decide), if_pos rfl, hresolved]
  | @down _ _ name _ _ hdirectory hname hrest ih =>
    obtain rfl := Option.some.inj (hr.entry.symm.trans hdirectory)
    obtain ⟨e', hentry, hlink'⟩ := hrest.first hlink
    have hnext := hr.join (List.forall_mem_singleton.mpr hname.isWayName)
      (.down hdirectory hname (.here hentry)) hlink'
    obtain ⟨r', hresolved, hanchor, hreaches⟩ := ih hlink hnext
    refine ⟨r', fun visit met => ?_, hanchor, hreaches⟩
    rw [resolveAlong, if_neg (by simp [hname.not_stays]), if_neg hname.not_up]
    simp only
    rw [hnext.lookup false]
    by_cases hshort : (r.join [name]).IsShort
    · rw [if_pos hshort]
      cases e' with
      | link target => exact absurd hlink' (by simp [Entry.isLink])
      | directory => exact hresolved visit met
      | file mode bytes => exact hresolved visit met
    · rw [if_neg hshort]
      exact hresolved visit met

/-- A path stands for the place that it leads to. -/
theorem realPath_of_reaches (hd : d.IsTree) (h : d.Reaches p place e) :
    d.realPath p.text = .absolute place := by
  have hbegin : d.Reaches (if p.anchor = [] then ⟨[], []⟩ else .absolute []) (d.start p.text)
      .directory := by
    have hstart := h.start
    rw [h.proper.start_eq] at hstart ⊢
    split
    · next hanchor =>
      rw [if_pos hanchor] at hstart
      exact ⟨⟨.inl rfl, by simp⟩, hstart, .here hstart, rfl⟩
    · exact hd.reaches_absolute rfl rfl
  obtain ⟨r, hresolved, hanchor, hr⟩ := hd.resolveAlong_of_leads h.leads h.not_link hbegin
  rw [realPath_of_resolveAlong h.proper fun visit => hresolved visit []]
  have hplace := hr.leads.goAlong_eq
  by_cases hrelative : p.anchor = []
  · rw [if_pos hrelative] at hanchor
    have hbase : d.entry? d.base = some .directory := by
      have hstart := h.start
      rwa [h.proper.start_eq, if_pos hrelative] at hstart
    rw [absolutePath_of_relative (hd.names_of_found hbase) hr.proper hanchor]
    rw [hr.proper.start_eq, if_pos hanchor] at hplace
    rw [hplace]
  · rw [if_neg hrelative] at hanchor
    rw [absolutePath_of_anchor d hr.proper hanchor]
    rw [hr.proper.start_eq, if_neg (by simp [hanchor, Path.absolute])] at hplace
    rw [hplace]

/-- The document at a path is known by the absolute path of its place, unless a user is named. -/
theorem uriOf_of_reaches (hd : d.IsTree) (h : d.Reaches p place e) (htilde : ¬p.HasTilde) :
    d.uriOf p = .ok (Path.absolute place).text := by
  refine uriOf_of_realPath h.proper htilde (hd.realPath_of_reaches h) ?_
  rw [hd.lookup_absolute true h.entry h.not_link]
  split <;> simp

/-- A document is known by the path of its place. -/
theorem uriOf_absolute (hd : d.IsTree) (h : d.entry? place = some e) (hlink : e.isLink = false) :
    d.uriOf (Path.absolute place) = .ok (Path.absolute place).text :=
  hd.uriOf_of_reaches (hd.reaches_absolute h hlink) fun htilde =>
    absurd htilde.1 (List.cons_ne_nil _ _)

/-! ## Reading -/

theorem load_eq_ok_iff (hd : d.IsTree) (h : d.entry? place = some (.file mode bytes)) :
    d.load (Path.absolute place) limit = .ok document ↔
      Fits place ∧ (∀ n ∈ limit, (bytes.length : Int) ≤ n) ∧
        Text.Utf8.decode bytes = .ok document.text ∧
        document.uri = (Path.absolute place).text ∧
        document.markup = (Path.absolute place).markup :=
  (hd.reaches_absolute h rfl).load_eq_ok_iff (hd.uriOf_absolute h rfl)

/-- That a file cannot be read concerns the file, not its path. -/
theorem isReadFailure_of_load (hd : d.IsTree) (h : d.entry? place = some (.file mode bytes))
    {fault : FileError} (hload : d.load (Path.absolute place) limit = .error fault) :
    fault.isReadFailure = true :=
  isReadFailure_of_uriOf (Path.not_contains_null (hd.names_of_found h)) (hd.uriOf_absolute h rfl)
    hload

/-! ## Writing -/

/-- A file that can be read is replaced if there is room beside it. -/
theorem save_absolute (hd : d.IsTree) (h : d.entry? place = some (.file mode bytes))
    (hfits : Fits place) (t : Text) :
    d.save (Path.absolute place) t =
      if hasRoom (Path.absolute place) then .ok (d.put place (.file mode (Text.Utf8.encode t)))
      else .error (.unusable ((Path.absolute place).withName
        ('.' :: (Path.absolute place).name ++ ['.'])).text .nameTooLong) := by
  have hregular : d.regularFile (Path.absolute place) none = .ok (place, mode, bytes) := by
    have hshort : (Path.absolute place).IsShort := hfits
    rw [(hd.reaches_absolute h rfl).regularFile, if_pos hshort, if_neg (by simp)]
  unfold save
  rw [hregular, absolutePath_absolute d (hd.names_of_found h)]
  by_cases hroom : hasRoom (Path.absolute place) = true
  · rw [if_pos hroom]
    simp [hroom, bind, Except.bind, pure, Except.pure]
  · rw [if_neg hroom]
    simp [hroom, bind, Except.bind, throw, throwThe, MonadExceptOf.throw]

theorem keys_put_file (h : d.entry? place = some (.file mode bytes)) (mode' : Nat)
    (bytes' : List UInt8) :
    Table.keys (d.put place (.file mode' bytes')).entries = Table.keys d.entries := by
  refine Table.keys_put_of_mem (mem_keys_of_found h ?_)
  rintro rfl
  exact absurd h (by unfold entry?; simp)

theorem ne_nil_of_file (h : d.entry? place = some (.file mode bytes)) : place ≠ [] := by
  rintro rfl
  exact absurd h (by unfold entry?; simp)

/-- A disk with a file in place of another one is a tree as before. -/
theorem put_file (hd : d.IsTree) (h : d.entry? place = some (.file mode bytes)) (mode' : Nat)
    (bytes' : List UInt8) : (d.put place (.file mode' bytes')).IsTree := by
  have hkeys := keys_put_file h mode' bytes'
  refine ⟨by rw [hkeys]; exact hd.keys, by rw [hkeys]; exact hd.names, ?_⟩
  rw [hkeys]
  intro q hq
  obtain ⟨hne, hparent⟩ := hd.parent q hq
  refine ⟨hne, ?_⟩
  rw [entry?_put (ne_nil_of_file h), if_neg]
  · exact hparent
  · intro heq
    rw [heq, h] at hparent
    exact absurd hparent (by simp)

/-! ## Documents below a root -/

theorem nodup_leavesBelow (hd : d.IsTree) (place : Place) :
    ((d.leavesBelow place).map Prod.fst).Nodup := by
  have hkeys : d.entries.Pairwise fun a b => a.1 ≠ b.1 := List.pairwise_map.mp hd.keys
  have hplace {p : Place} {leaf : List Text × Bool} (h : leaf ∈ d.leaf? place p) :
      p = place ++ leaf.1 :=
    (leaf?_eq_some_iff.mp h).1
  unfold leavesBelow
  refine List.pairwise_map.mpr (List.Pairwise.filterMap _ ?_ hkeys)
  rintro ⟨p, e⟩ ⟨p', e'⟩ hne leaf hleaf leaf' hleaf' hsame
  refine hne ((hplace hleaf).trans ?_)
  rw [hsame]
  exact (hplace hleaf').symm

theorem nodup_of_documents (hd : d.IsTree) {suffixes excluded : List Text} {paths : List Path}
    (h : d.documents p suffixes excluded = .ok paths) : paths.Nodup := by
  unfold documents at h
  split at h
  · cases h
  · split at h
    · next place _ =>
      have hcandidates : ((d.candidates p place suffixes excluded).map Prod.fst).Nodup := by
        unfold candidates
        rw [((List.mergeSort_perm _ _).map _).nodup_iff]
        exact (hd.nodup_leavesBelow place).sublist (List.filter_sublist.map _)
      simp only at h
      split at h
      · cases h
      · rw [← Except.ok.inj h]
        have hnames := hcandidates.sublist ((List.filter_sublist (p := (¬ ·.2))).map _)
        have hpaths := hnames.map (f := p.join) fun names names' heq =>
          List.append_cancel_left (congrArg Path.names heq)
        rwa [List.map_map] at hpaths
    · rw [← Except.ok.inj h]
      exact List.nodup_nil

/-- The documents below a directory are at the paths of files. -/
theorem place_of_documents (hd : d.IsTree)
    (hroot : d.lookup true (Path.absolute place).text = .ok (place, .directory))
    {suffixes excluded : List Text} {paths : List Path}
    (h : d.documents (Path.absolute place) suffixes excluded = .ok paths) (hp : p ∈ paths) :
    ∃ q mode bytes, p = Path.absolute q ∧ d.entry? q = some (.file mode bytes) := by
  have hnull := Path.not_contains_null (hd.names_of_found (entry?_of_lookup hroot))
  obtain ⟨names, hfile, -, -, rfl⟩ := (mem_of_documents hnull hroot h).mp hp
  obtain ⟨-, mode, bytes, hentry⟩ := mem_filesBelow.mp hfile
  exact ⟨place ++ names, mode, bytes, rfl, hentry⟩

/-- Below a root without links on its way, the path of each document leads to the file with the same
names below the place of the root. -/
theorem reaches_of_documents (hd : d.IsTree) (hp : p.IsProper) (hunlinked : d.UnlinkedTo p)
    {suffixes excluded : List Text} {paths : List Path}
    (h : d.documents p suffixes excluded = .ok paths) :
    ∃ place, ∀ p' ∈ paths,
      ∃ names mode bytes, p' = p.join names ∧ d.Reaches p' (place ++ names) (.file mode bytes) := by
  by_cases hroot : ∃ place, d.lookup true p.text = .ok (place, .directory)
  · obtain ⟨place, hroot⟩ := hroot
    have hreaches := reaches_of_lookup hp hunlinked hroot
    refine ⟨place, fun p' hp' => ?_⟩
    obtain ⟨names, hfile, -, -, rfl⟩ := (mem_of_documents hp.not_contains_null hroot h).mp hp'
    obtain ⟨-, mode, bytes, hentry⟩ := mem_filesBelow.mp hfile
    refine ⟨names, mode, bytes, rfl, hreaches.join ?_ (hd.leads_names hentry) rfl⟩
    intro name hname
    exact (hd.names_of_found hentry name (List.mem_append_right place hname)).isWayName
  · rw [documents_of_not_directory hp.not_contains_null (not_exists.mp hroot)] at h
    exact ⟨[], by simp [← Except.ok.inj h]⟩

end IsTree

end Disk

end TaggedOutline
