import Mathlib.Logic.Function.Basic
import TaggedOutline.Proofs.Disk.Change
import TaggedOutline.Proofs.Workspace.Document
import TaggedOutline.Proofs.Workspace.Passes

/-!
# Following the changes of files

Below the root of a workspace, each path of names either leads to a document that can be read or to
none (`Workspace.view`). An index shows such a view if it agrees with the documents in it, in
whatever order (`Shows`). A scan shows the view of the disk (`shows_scan`). A change of a file
changes the view under the names of the file, and so does the handling of its event
(`shows_handle`). So after any run of changes and their events the index shows the view of the disk,
as that of a fresh scan does (`same_of_watched`).
-/

namespace TaggedOutline

open Index (Agrees reindex without)

/-! ## Indexes of the same documents -/

/-- Two indexes have the same, but for the order of the headings under a tag. -/
structure Index.Same (i j : Index) : Prop where
  under : ∀ tag, (i.under tag).Perm (j.under tag)
  tags : ∀ tag, tag ∈ i.tags ↔ tag ∈ j.tags
  crumbs : ∀ uri, i.crumbs.get? uri = j.crumbs.get? uri
  uris : i.uris = j.uris

theorem Index.Agrees.same {i j : Index} {ds ds' : List Document} (h : Agrees i ds)
    (h' : Agrees j ds') (hmem : ∀ d, d ∈ ds ↔ d ∈ ds') : Index.Same i j := by
  have hperm : ds.Perm ds' :=
    (List.perm_ext_iff_of_nodup (List.Nodup.of_map _ h.uris) (List.Nodup.of_map _ h'.uris)).mpr hmem
  refine ⟨fun tag => ?_, fun tag => ?_, fun uri => ?_, ?_⟩
  · rw [h.under_eq, h'.under_eq]
    exact hperm.flatMap_right _
  · rw [h.mem_tags_iff, h'.mem_tags_iff]
    exact exists_congr fun d => and_congr_left fun _ => hmem d
  · have hkeys {i : Index} {ds : List Document} (h : Agrees i ds) : i.crumbs.keys.Nodup := by
      rw [h.crumbs, Table.keys, List.map_map]
      exact h.uris
    refine Option.ext fun crumbs => ?_
    rw [← Table.mem_iff_get? (hkeys h), ← Table.mem_iff_get? (hkeys h'), h.crumbs, h'.crumbs]
    exact (hperm.map _).mem_iff
  · rw [h.uris_eq, h'.uris_eq]
    exact Text.sort_eq_of_perm (hperm.map _)

/-- Documents that are indexed in turn are all there, if no two of them have the same name. -/
theorem mem_foldl_reindex {l ds : List Document} {document : Document}
    (hl : ∀ d ∈ l, ∀ d' ∈ l, d.uri = d'.uri → d = d') :
    document ∈ l.foldl reindex ds ↔
      document ∈ l ∨ document ∈ ds ∧ ∀ d ∈ l, d.uri ≠ document.uri := by
  induction l generalizing ds with
  | nil => simp
  | cons a l ih =>
    have hrest : ∀ d ∈ l, ∀ d' ∈ l, d.uri = d'.uri → d = d' := fun d hd d' hd' =>
      hl d (List.mem_cons_of_mem a hd) d' (List.mem_cons_of_mem a hd')
    rw [List.foldl_cons, ih hrest, reindex, List.mem_append, List.mem_filter, List.mem_singleton,
      List.mem_cons, List.forall_mem_cons]
    simp only [decide_eq_true_eq]
    constructor
    · rintro (hmem | ⟨⟨hmem, hne⟩ | rfl, hnone⟩)
      · exact .inl (.inr hmem)
      · exact .inr ⟨hmem, hne.symm, hnone⟩
      · exact .inl (.inl rfl)
    · rintro ((rfl | hmem) | ⟨hmem, hne, hnone⟩)
      · -- Of two equal documents the later one stays.
        by_cases hagain : ∃ d ∈ l, d.uri = document.uri
        · obtain ⟨d, hd, huri⟩ := hagain
          have heq := hl d (List.mem_cons_of_mem document hd) document List.mem_cons_self huri
          exact .inl (heq ▸ hd)
        · exact .inr ⟨.inr rfl, fun d hd huri => hagain ⟨d, hd, huri⟩⟩
      · exact .inl hmem
      · exact .inr ⟨.inl ⟨hmem, hne.symm⟩, hnone⟩

/-! ## Views -/

/-- The documents below a root, by the names on the way to them. -/
abbrev View := List Text → Option Document

/-- The index has what the documents of a view have. -/
def Shows (i : Index) (view : View) : Prop :=
  ∃ ds, Agrees i ds ∧ ∀ document, document ∈ ds ↔ ∃ names, view names = some document

theorem Shows.same {i j : Index} {view : View} (h : Shows i view) (h' : Shows j view) :
    Index.Same i j := by
  obtain ⟨ds, hagrees, hmem⟩ := h
  obtain ⟨ds', hagrees', hmem'⟩ := h'
  exact hagrees.same hagrees' fun d => (hmem d).trans (hmem' d).symm

namespace Workspace

/-- The root of a workspace is the absolute path of a place, no part of it is the name of an
excluded directory, and the suffixes of documents are in lower case. -/
structure Rooted (w : Workspace) (place : Place) : Prop where
  root : w.root = .absolute place
  names : ∀ name ∈ place, IsFileName name
  parts : ∀ part ∈ w.root.parts, part ∉ w.config.excludeDirs
  lower : ∀ suffix ∈ w.config.extensions, Text.lower suffix = suffix

/-- Whether names below the root make the path of a document. -/
def isDocumentAt (w : Workspace) (names : List Text) : Bool :=
  isDocumentBelow (w.config.extensions.map Text.lower) w.config.excludeDirs names

/-- Names below the root make the path of a document, and the document is known by this path. -/
structure Names (w : Workspace) (names : List Text) (document : Document) : Prop where
  valid : ∀ name ∈ names, IsFileName name
  isDocument : w.isDocumentAt names = true
  uri : document.uri = (w.root.join names).text

/-- The documents of a view are known by their paths. -/
def IsNamed (w : Workspace) (view : View) : Prop :=
  ∀ names document, view names = some document → w.Names names document

section Views

variable {w : Workspace} {place : Place} {i : Index} {view : View} {names names' : List Text}
  {document : Document}

theorem Rooted.join (hw : w.Rooted place) (names : List Text) :
    w.root.join names = .absolute (place ++ names) := by
  rw [hw.root]
  rfl

theorem Rooted.names_append (hw : w.Rooted place) (h : ∀ name ∈ names, IsFileName name) :
    ∀ name ∈ place ++ names, IsFileName name :=
  List.forall_mem_append.mpr ⟨hw.names, h⟩

theorem Rooted.text_join_injective (hw : w.Rooted place) (h : ∀ name ∈ names, IsFileName name)
    (h' : ∀ name ∈ names', IsFileName name)
    (heq : (w.root.join names).text = (w.root.join names').text) : names = names' := by
  rw [hw.join, hw.join] at heq
  exact List.append_cancel_left
    (Path.absolute_text_injective (hw.names_append h) (hw.names_append h') heq)

/-- No document is seen under names that do not make the path of one. -/
theorem IsNamed.eq_none (hview : w.IsNamed view) (h : ¬w.isDocumentAt names = true) :
    view names = none := by
  by_contra hsome
  obtain ⟨document, hsome⟩ := Option.ne_none_iff_exists'.mp hsome
  exact h (hview _ _ hsome).isDocument

theorem IsNamed.update_none (hview : w.IsNamed view) (names : List Text) :
    w.IsNamed (Function.update view names none) := by
  intro other document h
  by_cases heq : other = names
  · rw [heq, Function.update_self] at h
    exact absurd h (by simp)
  · rw [Function.update_of_ne heq] at h
    exact hview other document h

/-- Indexing a document puts it in the view. -/
theorem shows_add (hw : w.Rooted place) (h : Shows i view)
    (hview : w.IsNamed view)
    (hdocument : w.Names names document) :
    Shows (i.add document) (Function.update view names (some document)) := by
  obtain ⟨ds, hagrees, hmem⟩ := h
  refine ⟨reindex ds document, hagrees.add document, fun other => ?_⟩
  rw [reindex, List.mem_append, List.mem_filter, List.mem_singleton, hmem]
  simp only [decide_eq_true_eq]
  constructor
  · rintro (⟨⟨names', hother⟩, hne⟩ | rfl)
    · refine ⟨names', ?_⟩
      rw [Function.update_of_ne, hother]
      rintro rfl
      exact hne ((hview _ _ hother).uri.trans hdocument.uri.symm)
    · exact ⟨names, Function.update_self _ _ _⟩
  · rintro ⟨names', hother⟩
    by_cases heq : names' = names
    · rw [heq, Function.update_self] at hother
      exact .inr (Option.some.inj hother).symm
    · rw [Function.update_of_ne heq] at hother
      refine .inl ⟨⟨names', hother⟩, fun huri => heq ?_⟩
      rw [(hview _ _ hother).uri, hdocument.uri] at huri
      exact hw.text_join_injective (hview _ _ hother).valid hdocument.valid huri

/-- Removing the document at a path drops it from the view. -/
theorem shows_remove (hw : w.Rooted place) (h : Shows i view)
    (hview : w.IsNamed view)
    (hnames : ∀ name ∈ names, IsFileName name) :
    Shows (i.remove (w.root.join names).text) (Function.update view names none) := by
  obtain ⟨ds, hagrees, hmem⟩ := h
  refine ⟨without ds _, hagrees.remove _, fun other => ?_⟩
  rw [without, List.mem_filter, hmem]
  simp only [decide_eq_true_eq]
  constructor
  · rintro ⟨⟨names', hother⟩, hne⟩
    refine ⟨names', ?_⟩
    rw [Function.update_of_ne, hother]
    rintro rfl
    exact hne (hview _ _ hother).uri
  · rintro ⟨names', hother⟩
    by_cases heq : names' = names
    · rw [heq, Function.update_self] at hother
      exact absurd hother (by simp)
    · rw [Function.update_of_ne heq] at hother
      refine ⟨⟨names', hother⟩, fun huri => heq ?_⟩
      rw [(hview _ _ hother).uri] at huri
      exact hw.text_join_injective (hview _ _ hother).valid hnames huri

end Views

/-! ## The view of a disk -/

/-- A disk has no links, the root is a directory, and of each file below it the names are such as
directories hold, the last one is not that of an excluded directory, and the text can be read. -/
structure Readable (w : Workspace) (place : Place) (d : Disk) : Prop where
  unlinked : d.Unlinked
  root : d.lookup true w.root.text = .ok (place, .directory)
  valid : ∀ names ∈ d.filesBelow place, ∀ name ∈ names, IsFileName name
  name : ∀ names ∈ d.filesBelow place, (w.root.join names).name ∉ w.config.excludeDirs
  load : ∀ names ∈ d.filesBelow place, ∃ document,
    w.loadFile d (w.root.join names) = .ok document

theorem readable_of_isOk {w : Workspace} {place : Place} {d : Disk}
    (hlinks : (d.entries.all fun e => !e.2.isLink) = true)
    (hroot : d.lookup true w.root.text = .ok (place, .directory))
    (hfiles : ∀ names ∈ d.filesBelow place, (∀ name ∈ names, IsFileName name) ∧
      (w.root.join names).name ∉ w.config.excludeDirs ∧
        (w.loadFile d (w.root.join names)).isOk = true) :
    w.Readable place d where
  unlinked := Disk.unlinked_of_all hlinks
  root := hroot
  valid names hnames := (hfiles names hnames).1
  name names hnames := (hfiles names hnames).2.1
  load names hnames := by
    have hok := (hfiles names hnames).2.2
    cases hload : w.loadFile d (w.root.join names) with
    | ok document => exact ⟨document, rfl⟩
    | error e =>
      rw [hload] at hok
      exact absurd hok (by simp [Except.isOk, Except.toBool])

/-- The documents below the root that can be read from a disk. -/
def view (w : Workspace) (place : Place) (d : Disk) : View := fun names =>
  if names ∈ d.filesBelow place ∧ w.isDocumentAt names = true then
    (w.loadFile d (w.root.join names)).toOption
  else none

section Disks

variable {w v : Workspace} {place : Place} {d d' : Disk} {i : Index} {names : List Text}
  {document : Document} {plan : ScanPlan}

theorem view_eq_some : w.view place d names = some document ↔ names ∈ d.filesBelow place ∧
    w.isDocumentAt names = true ∧ w.loadFile d (w.root.join names) = .ok document := by
  unfold view
  by_cases h : names ∈ d.filesBelow place ∧ w.isDocumentAt names = true
  · rw [if_pos h]
    cases w.loadFile d (w.root.join names) with
    | ok found => simp [h.1, h.2, Except.toOption]
    | error e => simp [Except.toOption]
  · rw [if_neg h]
    simp only [reduceCtorEq, false_iff]
    rintro ⟨hfile, hdocument, -⟩
    exact h ⟨hfile, hdocument⟩

/-- A document that was read is the file at its path. -/
theorem load_spec (hw : w.Rooted place) (hd : w.Readable place d)
    (hvalid : ∀ name ∈ names, IsFileName name)
    (h : w.loadFile d (w.root.join names) = .ok document) :
    ∃ bytes, d.bytesAt? (place ++ names) = some bytes ∧
      Text.Utf8.decode bytes = .ok document.text ∧
        document.uri = (w.root.join names).text ∧ document.markup = (w.root.join names).markup := by
  unfold loadFile at h
  rw [hw.join] at h ⊢
  exact Disk.load_absolute hd.unlinked (hw.names_append hvalid) h

theorem mem_filesBelow_iff (hw : w.Rooted place) (hd : w.Readable place d) :
    names ∈ d.filesBelow place ↔ (d.bytesAt? (place ++ names)).isSome = true := by
  constructor
  · intro hfile
    obtain ⟨document, hload⟩ := hd.load names hfile
    obtain ⟨bytes, hbytes, -⟩ := load_spec hw hd (hd.valid names hfile) hload
    rw [hbytes, Option.isSome_some]
  · intro hsome
    unfold Disk.bytesAt? at hsome
    split at hsome
    · next mode bytes hentry =>
      have hne : names ≠ [] := by
        rintro rfl
        rw [List.append_nil, Disk.entry?_of_lookup hd.root] at hentry
        exact absurd hentry (by simp)
      exact Disk.mem_filesBelow.mpr ⟨hne, mode, bytes, hentry⟩
    · exact absurd hsome (by simp)

/-- The documents of a disk are known by their paths. -/
theorem isNamed_view (hw : w.Rooted place) (hd : w.Readable place d) :
    w.IsNamed (w.view place d) := by
  intro names document h
  obtain ⟨hfile, hdocument, hload⟩ := view_eq_some.mp h
  have hvalid := hd.valid names hfile
  obtain ⟨-, -, -, huri, -⟩ := load_spec hw hd hvalid hload
  exact ⟨hvalid, hdocument, huri⟩

/-- Where there is no file, no document is seen. -/
theorem view_eq_none (hw : w.Rooted place) (hd : w.Readable place d)
    (h : d.bytesAt? (place ++ names) = none) : w.view place d names = none := by
  unfold view
  rw [if_neg]
  rintro ⟨hfile, -⟩
  rw [mem_filesBelow_iff hw hd, h] at hfile
  exact absurd hfile (by simp)

/-- What is seen under some names depends only on the bytes of the file there. -/
theorem view_congr (hw : w.Rooted place) (hd : w.Readable place d) (hd' : w.Readable place d')
    (h : d'.bytesAt? (place ++ names) = d.bytesAt? (place ++ names)) :
    w.view place d' names = w.view place d names := by
  have hfiles : names ∈ d'.filesBelow place ↔ names ∈ d.filesBelow place := by
    rw [mem_filesBelow_iff hw hd', mem_filesBelow_iff hw hd, h]
  unfold view
  simp only [hfiles]
  split
  · next hseen =>
    obtain ⟨hfile, -⟩ := hseen
    obtain ⟨document, hload⟩ := hd.load names hfile
    obtain ⟨document', hload'⟩ := hd'.load names (hfiles.mpr hfile)
    have hvalid := hd.valid names hfile
    obtain ⟨bytes, hbytes, htext, huri, hmarkup⟩ := load_spec hw hd hvalid hload
    obtain ⟨bytes', hbytes', htext', huri', hmarkup'⟩ := load_spec hw hd' hvalid hload'
    rw [hbytes, hbytes'] at h
    rw [Option.some.inj h, htext] at htext'
    have heq : document' = document := by
      cases document
      cases document'
      simp only [Document.mk.injEq]
      exact ⟨huri'.trans huri.symm, (Except.ok.inj htext').symm, hmarkup'.trans hmarkup.symm⟩
    rw [hload, hload', heq]
  · rfl

theorem exists_paths (hw : w.Rooted place) (hd : w.Readable place d) :
    ∃ paths, d.documents w.root w.config.extensions w.config.excludeDirs = .ok paths ∧
      ∀ p, p ∈ paths ↔
        ∃ names ∈ d.filesBelow place, w.isDocumentAt names = true ∧ w.root.join names = p := by
  have hnull : w.root.text.contains '\x00' = false := by
    rw [hw.root]
    exact Path.not_contains_null hw.names
  refine Disk.exists_documents hnull hd.root fun ⟨names, link⟩ hleaf _ => ?_
  obtain ⟨hne, e, hentry, hdirectory, hlink⟩ := Disk.mem_leavesBelow.mp hleaf
  cases e with
  | directory => cases hdirectory
  | link target => exact absurd hentry (hd.unlinked _ target)
  | file mode bytes =>
    have hfile : names ∈ d.filesBelow place := Disk.mem_filesBelow.mpr ⟨hne, mode, bytes, hentry⟩
    obtain ⟨document, hload⟩ := hd.load names hfile
    rw [hw.root] at hload ⊢
    exact Disk.isWithinReach_absolute hw.names (hd.valid names hfile)
      (Disk.not_isTooLong_of_load hload)

theorem mem_readable (hw : w.Rooted place) (hd : w.Readable place d) :
    document ∈ w.readable d ↔ ∃ names, w.view place d names = some document := by
  obtain ⟨paths, hpaths, hmem⟩ := exists_paths hw hd
  rw [mem_readable_of_documents hpaths]
  simp only [hmem, view_eq_some]
  constructor
  · rintro ⟨p, ⟨names, hfile, hdocument, rfl⟩, hload⟩
    exact ⟨names, hfile, hdocument, hload⟩
  · rintro ⟨names, hfile, hdocument, hload⟩
    exact ⟨_, ⟨names, hfile, hdocument, rfl⟩, hload⟩

/-- A scan of a disk that can be read is carried through. -/
theorem scan_of_readable (hv : v.Rooted place) (hd : v.Readable place d) (hidle : v.Idle) :
    (v.scan d {}).1 = .ok true := by
  obtain ⟨paths, hpaths, hmem⟩ := exists_paths hv hd
  refine (completed_of_isReadFailure hidle hpaths fun p hp e herror => ?_).answer
  obtain ⟨names, hfile, -, rfl⟩ := (hmem p).mp hp
  obtain ⟨document, hload⟩ := hd.load names hfile
  rw [hload] at herror
  cases herror

/-- A scan that is carried through shows what is seen on the disk. -/
theorem shows_scan (hw : w.Rooted place) (hd : w.Readable place d) (hlike : Reindexed w i v)
    (hscan : (v.scan d plan).1 = .ok true) :
    Shows (v.scan d plan).2.workspace.index (w.view place d) := by
  rw [(scan_spec hscan).index, readable_of_reindexed hlike]
  refine ⟨_, agrees_foldl_add Index.agrees_empty _, fun document => ?_⟩
  rw [mem_foldl_reindex, mem_readable hw hd]
  · simp
  · intro a ha b hb huri
    obtain ⟨names, hnames⟩ := (mem_readable hw hd).mp ha
    obtain ⟨names', hnames'⟩ := (mem_readable hw hd).mp hb
    have hnamed := isNamed_view hw hd _ _ hnames
    have hnamed' := isNamed_view hw hd _ _ hnames'
    rw [hnamed.uri, hnamed'.uri] at huri
    obtain rfl := hw.text_join_injective hnamed.valid hnamed'.valid huri
    exact Option.some.inj (hnames.symm.trans hnames')

end Disks

/-! ## Handling an event -/

section Handling

variable {w v : Workspace} {place : Place} {d d' : Disk} {view : View} {names : List Text}

theorem isDocument_join_iff (hw : w.Rooted place) (hlike : Reindexed w v.index v) (hne : names ≠ [])
    (hname : (w.root.join names).name ∉ w.config.excludeDirs) :
    v.config.isDocument (w.root.join names) = true ↔ w.isDocumentAt names = true := by
  rw [hlike.config, Config.isDocument_join hw.lower w.root hne]
  exact and_iff_left ⟨hw.parts, hname⟩

/-- After a file was created or changed, its document is seen as it is now. -/
theorem exists_refresh (hw : w.Rooted place) (hd : w.Readable place d)
    (hlike : Reindexed w v.index v) (h : Shows v.index view)
    (hview : w.IsNamed view)
    (hfile : names ∈ d.filesBelow place) :
    ∃ v', v.refresh d (w.root.join names) = .ok v' ∧ Reindexed w v'.index v' ∧
      Shows v'.index (Function.update view names (w.view place d names)) := by
  have hiff := isDocument_join_iff hw hlike (Disk.mem_filesBelow.mp hfile).1 (hd.name names hfile)
  unfold refresh
  by_cases hdocument : w.isDocumentAt names = true
  · obtain ⟨document, hload⟩ := hd.load names hfile
    have hseen : w.view place d names = some document :=
      view_eq_some.mpr ⟨hfile, hdocument, hload⟩
    have hupdate : v.updateFile d (w.root.join names) = .ok (true, v.update document) := by
      unfold updateFile
      rw [loadFile_of_reindexed hlike, hload]
    rw [if_pos (hiff.mpr hdocument), hupdate, hseen]
    have hreindexed := reindexed_update v document
    refine ⟨v.update document, rfl, (hlike.trans hreindexed).self, ?_⟩
    rw [hreindexed.index]
    exact shows_add hw h hview (isNamed_view hw hd names document hseen)
  · have hunseen : w.view place d names = none := if_neg fun hseen => hdocument hseen.2
    rw [if_neg fun hevent => hdocument (hiff.mp hevent), hunseen, ← hview.eq_none hdocument,
      Function.update_eq_self]
    exact ⟨v, rfl, hlike, h⟩

/-- After a file was deleted, its document is not seen any more. -/
theorem exists_forget (hw : w.Rooted place) (hd : d.Unlinked) (hlike : Reindexed w v.index v)
    (h : Shows v.index view)
    (hview : w.IsNamed view)
    (hne : names ≠ []) (hvalid : ∀ name ∈ names, IsFileName name)
    (hname : (w.root.join names).name ∉ w.config.excludeDirs) :
    ∃ v', v.forget d (w.root.join names) = .ok v' ∧ Reindexed w v'.index v' ∧
      Shows v'.index (Function.update view names none) := by
  have hiff := isDocument_join_iff hw hlike hne hname
  unfold forget
  by_cases hdocument : w.isDocumentAt names = true
  · have huri : d.uriOf (w.root.join names) = .ok (w.root.join names).text := by
      rw [hw.join]
      exact Disk.uriOf_absolute hd (hw.names_append hvalid)
    have hremove : v.removeFile d (w.root.join names) =
        .ok (v.remove (w.root.join names).text) := by
      unfold removeFile
      rw [huri]
      rfl
    rw [if_pos (hiff.mpr hdocument), hremove]
    have hreindexed := reindexed_remove v (w.root.join names).text
    refine ⟨_, rfl, (hlike.trans hreindexed).self, ?_⟩
    rw [hreindexed.index]
    exact shows_remove hw h hview hvalid
  · rw [if_neg fun hevent => hdocument (hiff.mp hevent), ← hview.eq_none hdocument,
      Function.update_eq_self]
    exact ⟨v, rfl, hlike, h⟩

end Handling

end Workspace

/-! ## Changes of files -/

/-- What is done to a file, by the names on the way to it from the root. -/
inductive FileChange
  | create (names : List Text)
  | modify (names : List Text)
  | delete (names : List Text)
  | rename (source target : List Text)

namespace FileChange

/-- The event that a change is followed by. -/
def event (root : Path) : FileChange → FileEvent
  | create names => .created (root.join names)
  | modify names => .modified (root.join names)
  | delete names => .deleted (root.join names)
  | rename source target => .moved (root.join source) (root.join target)

/-- A change makes one disk of another: the other files below the place stay as they are. -/
def Makes (place : Place) (before after : Disk) : FileChange → Prop
  | create names | modify names =>
    (after.bytesAt? (place ++ names)).isSome = true ∧
      ∀ other, other ≠ names → after.bytesAt? (place ++ other) = before.bytesAt? (place ++ other)
  | delete names =>
    (before.bytesAt? (place ++ names)).isSome = true ∧ after.bytesAt? (place ++ names) = none ∧
      ∀ other, other ≠ names → after.bytesAt? (place ++ other) = before.bytesAt? (place ++ other)
  | rename source target =>
    (before.bytesAt? (place ++ source)).isSome = true ∧
      after.bytesAt? (place ++ target) = before.bytesAt? (place ++ source) ∧
      (source ≠ target → after.bytesAt? (place ++ source) = none) ∧
      ∀ other, other ≠ source → other ≠ target →
        after.bytesAt? (place ++ other) = before.bytesAt? (place ++ other)

section Makes

variable {w : Workspace} {place : Place} {d : Disk} {names source target : List Text}

/-- Putting a file at a path creates or modifies it. -/
theorem makes_install (hw : w.Rooted place) (hd : d.Unlinked)
    (hnames : ∀ name ∈ names, IsFileName name) (hne : names ≠ []) (mode : Nat)
    (bytes : List UInt8) :
    (create names).Makes place d (d.install (w.root.join names) (.file mode bytes)) := by
  have hbytes := Disk.bytesAt?_install hd (hw.names_append hnames)
    (List.append_ne_nil_of_right_ne_nil place hne) mode bytes
  rw [← hw.join] at hbytes
  refine ⟨by rw [hbytes, if_pos rfl]; rfl, fun other hother => ?_⟩
  rw [hbytes, if_neg fun h => hother (List.append_cancel_left h)]

/-- Moving a file renames it, be it over another one. -/
theorem makes_move (hw : w.Rooted place) (hd : d.Unlinked) (hkeys : (Table.keys d.entries).Nodup)
    (hsource : ∀ name ∈ source, IsFileName name) (htarget : ∀ name ∈ target, IsFileName name)
    (hne : source ≠ []) (hne' : target ≠ []) {mode : Nat} {bytes : List UInt8}
    (hfile : d.entry? (place ++ source) = some (.file mode bytes))
    (hbelow : ∀ q ∈ Table.keys d.entries, place ++ source <+: q → q = place ++ source) :
    (rename source target).Makes place d
      (d.move (w.root.join source) (w.root.join target)) := by
  have hbytes := Disk.bytesAt?_move hd hkeys (hw.names_append hsource) (hw.names_append htarget)
    (List.append_ne_nil_of_right_ne_nil place hne) (List.append_ne_nil_of_right_ne_nil place hne')
    hfile hbelow
  have hsome : d.bytesAt? (place ++ source) = some bytes := by
    unfold Disk.bytesAt?
    rw [hfile]
  rw [← hw.join, ← hw.join] at hbytes
  refine ⟨by rw [hsome]; rfl, ?_, fun h => ?_, fun other h h' => ?_⟩
  · rw [hbytes, if_pos rfl, hsome]
  · rw [hbytes, if_neg fun heq => h (List.append_cancel_left heq), if_pos rfl]
  · rw [hbytes, if_neg fun heq => h' (List.append_cancel_left heq),
      if_neg fun heq => h (List.append_cancel_left heq)]

end Makes

end FileChange

/-- The workspaces and disks that come about by changes of files, each of which the workspace is
told about. -/
inductive Watched (start : Workspace) (place : Place) (w₀ : Workspace) (d₀ : Disk) :
    Workspace → Disk → Prop
  | start : Watched start place w₀ d₀ w₀ d₀
  | step {w : Workspace} {d d' : Disk} (change : FileChange) :
    Watched start place w₀ d₀ w d → change.Makes place d d' → start.Readable place d' →
      Watched start place w₀ d₀ (w.handle d' (change.event start.root)).2 d'

namespace Workspace

section Runs

variable {w v v₀ : Workspace} {place : Place} {d d' d₀ : Disk} {names : List Text}
  {plan : ScanPlan}

/-- A workspace shows what is seen on a disk. -/
structure Follows (w : Workspace) (place : Place) (v : Workspace) (d : Disk) : Prop where
  like : Reindexed w v.index v
  readable : w.Readable place d
  shows : Shows v.index (w.view place d)

/-- If only one file changes, what is seen changes under its names. -/
theorem view_eq_update (hw : w.Rooted place) (hd : w.Readable place d) (hd' : w.Readable place d')
    (h : ∀ other, other ≠ names →
      d'.bytesAt? (place ++ other) = d.bytesAt? (place ++ other)) :
    w.view place d' = Function.update (w.view place d) names (w.view place d' names) := by
  funext other
  by_cases heq : other = names
  · rw [heq, Function.update_self]
  · rw [Function.update_of_ne heq]
    exact view_congr hw hd hd' (h other heq)

/-- If a file goes from one place to another, what is seen changes under the names of both. -/
theorem view_eq_update_update {source target : List Text} (hw : w.Rooted place)
    (hd : w.Readable place d) (hd' : w.Readable place d')
    (hsource : source ≠ target → d'.bytesAt? (place ++ source) = none)
    (hothers : ∀ other, other ≠ source → other ≠ target →
      d'.bytesAt? (place ++ other) = d.bytesAt? (place ++ other)) :
    w.view place d' = Function.update
      (Function.update (w.view place d) source none) target (w.view place d' target) := by
  funext other
  by_cases htarget : other = target
  · rw [htarget, Function.update_self]
  · rw [Function.update_of_ne htarget]
    by_cases heq : other = source
    · rw [heq, Function.update_self]
      exact view_eq_none hw hd' (hsource (heq ▸ htarget))
    · rw [Function.update_of_ne heq]
      exact view_congr hw hd hd' (hothers other heq htarget)

/-- A file that is there after a change is refreshed. -/
theorem follows_refresh (hw : w.Rooted place) (h : Follows w place v d) (hd' : w.Readable place d')
    (hsome : (d'.bytesAt? (place ++ names)).isSome = true)
    (hothers : ∀ other, other ≠ names →
      d'.bytesAt? (place ++ other) = d.bytesAt? (place ++ other)) :
    ∃ v', v.refresh d' (w.root.join names) = .ok v' ∧ Follows w place v' d' := by
  obtain ⟨v', hv', hlike, hshows⟩ := exists_refresh hw hd' h.like h.shows
    (isNamed_view hw h.readable) ((mem_filesBelow_iff hw hd').mpr hsome)
  rw [← view_eq_update hw h.readable hd' hothers] at hshows
  exact ⟨v', hv', hlike, hd', hshows⟩

/-- A file that was there before a change is forgotten, whatever the disk is now. -/
theorem exists_forget_of_follows (hw : w.Rooted place) (h : Follows w place v d)
    (hd' : w.Readable place d') (hsome : (d.bytesAt? (place ++ names)).isSome = true) :
    ∃ v', v.forget d' (w.root.join names) = .ok v' ∧ Reindexed w v'.index v' ∧
      Shows v'.index (Function.update (w.view place d) names none) := by
  have hfile := (mem_filesBelow_iff hw h.readable).mpr hsome
  exact exists_forget hw hd'.unlinked h.like h.shows (isNamed_view hw h.readable)
    (Disk.mem_filesBelow.mp hfile).1 (h.readable.valid names hfile) (h.readable.name names hfile)

/-- A change of a file changes what is seen under its names, and the handling of its event follows
suit. -/
theorem follows_handle (hw : w.Rooted place) (h : Follows w place v d) {change : FileChange}
    (hchange : change.Makes place d d') (hd' : w.Readable place d') :
    (v.handle d' (change.event w.root)).1 = none ∧
      Follows w place (v.handle d' (change.event w.root)).2 d' := by
  suffices hhandle : ∃ v', v.handle d' (change.event w.root) = (none, v') ∧
      Follows w place v' d' by
    obtain ⟨v', hv', hfollows⟩ := hhandle
    rw [hv']
    exact ⟨rfl, hfollows⟩
  cases change with
  | create names | modify names =>
    obtain ⟨hsome, hothers⟩ := hchange
    obtain ⟨v', hv', hfollows⟩ := follows_refresh hw h hd' hsome hothers
    refine ⟨v', ?_, hfollows⟩
    show v.after (v.refresh d' (w.root.join names)) = _
    rw [hv']
    rfl
  | delete names =>
    obtain ⟨hsome, hnone, hothers⟩ := hchange
    obtain ⟨v', hv', hlike, hshows⟩ := exists_forget_of_follows hw h hd' hsome
    rw [← view_eq_none hw hd' hnone, ← view_eq_update hw h.readable hd' hothers] at hshows
    refine ⟨v', ?_, hlike, hd', hshows⟩
    show v.after (v.forget d' (w.root.join names)) = _
    rw [hv']
    rfl
  | rename source target =>
    -- The source is forgotten first, and then the target is refreshed.
    obtain ⟨hsome, htarget, hsource, hothers⟩ := hchange
    obtain ⟨v₁, hv₁, hlike₁, hshows₁⟩ := exists_forget_of_follows hw h hd' hsome
    obtain ⟨v', hv', hlike, hshows⟩ := exists_refresh hw hd' hlike₁ hshows₁
      ((isNamed_view hw h.readable).update_none source)
      ((mem_filesBelow_iff hw hd').mpr (htarget ▸ hsome))
    rw [← view_eq_update_update hw h.readable hd' hsource hothers] at hshows
    refine ⟨v', ?_, hlike, hd', hshows⟩
    show v.handle d' (.moved (w.root.join source) (w.root.join target)) = (none, v')
    unfold handle
    simp only
    rw [hv₁]
    simp only
    rw [hv']
    rfl

/-- Through a run of changes and their events, the workspace shows what is seen on the disk. -/
theorem follows_of_watched (hw : w.Rooted place) (h₀ : Follows w place v₀ d₀)
    (h : Watched w place v₀ d₀ v d) : Follows w place v d := by
  induction h with
  | start => exact h₀
  | step change _ hchange hd' ih => exact (follows_handle hw ih hchange hd').2

/-- After a run of changes and their events, the index is that of a fresh scan, but for the order of
the headings under a tag. -/
theorem same_of_watched (hw : w.Rooted place) (hd₀ : w.Readable place d₀)
    (hscan : (w.scan d₀ plan).1 = .ok true)
    (h : Watched w place (w.scan d₀ plan).2.workspace d₀ v d) (registry : Registry) :
    ((fresh w.root w.config registry).scan d {}).1 = .ok true ∧
      Index.Same v.index ((fresh w.root w.config registry).scan d {}).2.workspace.index := by
  have hscanned : Follows w place (w.scan d₀ plan).2.workspace d₀ :=
    ⟨(scan_spec hscan).self, hd₀, shows_scan hw hd₀ (Alike.refl w) hscan⟩
  obtain ⟨-, hd, hshows⟩ := follows_of_watched hw hscanned h
  have hfresh : ((fresh w.root w.config registry).scan d {}).1 = .ok true :=
    scan_of_readable (v := fresh w.root w.config registry) ⟨hw.root, hw.names, hw.parts, hw.lower⟩
      ⟨hd.unlinked, hd.root, hd.valid, hd.name, hd.load⟩ (Idle.fresh _ _ _)
  have hlike : Reindexed w {} (fresh w.root w.config registry) := ⟨rfl, rfl, rfl⟩
  exact ⟨hfresh, hshows.same (shows_scan hw hd hlike hfresh)⟩

/-- A document is created, renamed over another one and then renamed into an excluded directory. -/
theorem same_of_watched_renamed :
    let w := fresh (.absolute [['r']]) ⟨[".md".toList], [['b']], [], 0, [], [], [], 99⟩ ⟨[]⟩
    let d₀ : Disk := ⟨[], [([['r']], .directory), ([['r'], ['b']], .directory),
      ([['r'], "a.md".toList], .file 0 (Text.Utf8.encode "# A <!-- #x -->".toList))],
      []⟩
    let d₁ := d₀.install (w.root.join ["c.md".toList])
      (.file 0 (Text.Utf8.encode "# C <!-- #y -->".toList))
    let d₂ := d₁.move (w.root.join ["c.md".toList]) (w.root.join ["a.md".toList])
    let d₃ := d₂.move (w.root.join ["a.md".toList]) (w.root.join [['b'], "a.md".toList])
    let v₁ := ((w.scan d₀ {}).2.workspace.handle d₁ (.created (w.root.join ["c.md".toList]))).2
    let v₂ := (v₁.handle d₂
      (.moved (w.root.join ["c.md".toList]) (w.root.join ["a.md".toList]))).2
    let v₃ := (v₂.handle d₃
      (.moved (w.root.join ["a.md".toList]) (w.root.join [['b'], "a.md".toList]))).2
    w.Rooted [['r']] ∧ w.Readable [['r']] d₀ ∧ (w.scan d₀ {}).1 = .ok true ∧
      Watched w [['r']] (w.scan d₀ {}).2.workspace d₀ v₃ d₃ ∧
      Index.Same v₂.index ((fresh w.root w.config ⟨[]⟩).scan d₂ {}).2.workspace.index ∧
      Index.Same v₃.index ((fresh w.root w.config ⟨[]⟩).scan d₃ {}).2.workspace.index := by
  intro w d₀ d₁ d₂ d₃ v₁ v₂ v₃
  have hw : w.Rooted [['r']] := ⟨rfl, by decide, by decide, by decide⟩
  have hd₀ : w.Readable [['r']] d₀ := readable_of_isOk (by decide +kernel) rfl (by decide +kernel)
  have hd₁ : w.Readable [['r']] d₁ :=
    readable_of_isOk (by decide +kernel) (by decide +kernel) (by decide +kernel)
  have hd₂ : w.Readable [['r']] d₂ :=
    readable_of_isOk (by decide +kernel) (by decide +kernel) (by decide +kernel)
  have hd₃ : w.Readable [['r']] d₃ :=
    readable_of_isOk (by decide +kernel) (by decide +kernel) (by decide +kernel)
  have hscan : (w.scan d₀ {}).1 = .ok true := scan_of_readable hw hd₀ (Idle.fresh _ _ _)
  have hkeys₁ : (Table.keys d₁.entries).Nodup := by decide +kernel
  have hkeys₂ : (Table.keys d₂.entries).Nodup := by decide +kernel
  have hfile₁ : d₁.entry? ([['r']] ++ ["c.md".toList]) =
      some (.file 0 (Text.Utf8.encode "# C <!-- #y -->".toList)) := by decide +kernel
  have hfile₂ : d₂.entry? ([['r']] ++ ["a.md".toList]) =
      some (.file 0 (Text.Utf8.encode "# C <!-- #y -->".toList)) := by decide +kernel
  have hbelow₁ : ∀ q ∈ Table.keys d₁.entries, [['r']] ++ ["c.md".toList] <+: q →
      q = [['r']] ++ ["c.md".toList] := by decide +kernel
  have hbelow₂ : ∀ q ∈ Table.keys d₂.entries, [['r']] ++ ["a.md".toList] <+: q →
      q = [['r']] ++ ["a.md".toList] := by decide +kernel
  have hmake₁ : (FileChange.create ["c.md".toList]).Makes [['r']] d₀ d₁ :=
    FileChange.makes_install hw hd₀.unlinked (by decide) (by decide) 0 _
  clear_value d₁
  have hmake₂ : (FileChange.rename ["c.md".toList] ["a.md".toList]).Makes [['r']] d₁ d₂ :=
    FileChange.makes_move hw hd₁.unlinked hkeys₁ (by decide) (by decide) (by decide) (by decide)
      hfile₁ hbelow₁
  clear_value d₂
  have hmake₃ : (FileChange.rename ["a.md".toList] [['b'], "a.md".toList]).Makes [['r']] d₂ d₃ :=
    FileChange.makes_move hw hd₂.unlinked hkeys₂ (by decide) (by decide) (by decide) (by decide)
      hfile₂ hbelow₂
  clear_value d₃
  have hstart : Watched w [['r']] (w.scan d₀ {}).2.workspace d₀ (w.scan d₀ {}).2.workspace d₀ :=
    .start
  have hwatched₁ : Watched w [['r']] (w.scan d₀ {}).2.workspace d₀ v₁ d₁ :=
    (hstart.step _ hmake₁ hd₁ :)
  have hwatched₂ : Watched w [['r']] (w.scan d₀ {}).2.workspace d₀ v₂ d₂ :=
    (hwatched₁.step _ hmake₂ hd₂ :)
  have hwatched₃ : Watched w [['r']] (w.scan d₀ {}).2.workspace d₀ v₃ d₃ :=
    (hwatched₂.step _ hmake₃ hd₃ :)
  exact ⟨hw, hd₀, hscan, hwatched₃, (same_of_watched hw hd₀ hscan hwatched₂ ⟨[]⟩).2,
    (same_of_watched hw hd₀ hscan hwatched₃ ⟨[]⟩).2⟩

end Runs

end Workspace

end TaggedOutline
