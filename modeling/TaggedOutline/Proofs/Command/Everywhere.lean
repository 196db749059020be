import TaggedOutline.Proofs.Command.Fault
import TaggedOutline.Proofs.Command.File
import TaggedOutline.Proofs.Command.Rename

/-!
# Faults of commands that open a workspace

A workspace cannot be opened if the settings for its root cannot be looked for or its documents are
not found (`OpenFault`). Once it is open there is no fault any more (`fault?_openWorkspace_bind`):
its documents are at places of their own, so there are names for them, and neither gathering blocks
nor renaming a tag has a fault.
-/

namespace TaggedOutline.Command

open Command.Run (exec fault? exec_pure exec_bind_of_ok exec_bind_of_error exec_disk
  exec_orStop_error fault?_bind_of_ok fault?_bind_of_error fault?_bind_of_none fault?_orStop_bind
  fault?_forM fault?_of_error)
open Index (Agrees)

variable {env : Environment} {d : Disk} {con : Console} {output : Option Text} {e : FileError}
  {place : Place}

/-- The workspace of a root cannot be opened for a reason that is not told to the user. -/
inductive OpenFault (env : Environment) (d : Disk) (root : Path) : FileError → Prop
  | settings {e : FileError} (h : Settings.Fault env.nesting d root e) : OpenFault env d root e
  | documents {e : FileError} {config : Config} (hconfig : GoesBy env d root config)
    (h : d.documents root config.extensions config.excludeDirs = .error e) : OpenFault env d root e

/-- With the workspace of a directory there is no fault but in opening it, if there is none in what
is done with it. -/
theorem fault?_openWorkspace_bind {α : Type} {f : Workspace → Command.Run α} (hd : con.disk.IsTree)
    (hdirectory : con.disk.lookup true (Path.absolute place).text = .ok (place, .directory))
    (hf : ∀ config w log, (unscanned (.absolute place) config).Planted con.disk place →
      w.config = config → Agrees w.index ((unscanned (.absolute place) config).readable con.disk) →
      fault? (f w) { con with log := log } = none) :
    fault? (openWorkspace env (.absolute place) >>= f) con = some e ↔
      OpenFault env con.disk (.absolute place) e := by
  rcases exec_loadConfig_cases env (.absolute place) con with ⟨config, hgoes⟩ | ⟨stop, hstop⟩
  · have hsettings : ¬Settings.Fault env.nesting con.disk (.absolute place) e := fun h => by
      cases congrArg Prod.fst ((exec_loadConfig_of_fault h).symm.trans (exec_loadConfig hgoes))
    have hplanted : (unscanned (.absolute place) config).Planted con.disk place :=
      ⟨hd, rfl, hdirectory⟩
    have hopen : OpenFault env con.disk (.absolute place) e ↔
        con.disk.documents (.absolute place) config.extensions config.excludeDirs = .error e := by
      refine ⟨fun h => ?_, .documents hgoes⟩
      cases h with
      | settings h => exact absurd h hsettings
      | documents hgoes' h => exact hgoes.unique hgoes' ▸ h
    rw [hopen]
    cases hpaths : con.disk.documents (.absolute place) config.extensions config.excludeDirs with
    | ok paths =>
      obtain ⟨w, log, hexec, hconfig, hagrees⟩ := exec_openWorkspace hgoes hplanted hpaths
      rw [fault?_bind_of_ok hexec, hf config w log hplanted hconfig hagrees]
      exact iff_of_false (fun h => by cases h) fun h => by cases h
    | error e' =>
      obtain ⟨log, hexec⟩ := exec_openWorkspace_of_documents_error hgoes hpaths
      rw [fault?_bind_of_error hexec, Except.error.injEq]
      exact Option.some.injEq e' e ▸ Iff.rfl
  · have hexec : exec (openWorkspace env (.absolute place)) con = (.error stop, con) :=
      exec_bind_of_error hstop
    rw [fault?_bind_of_error hexec, ← fault?_of_error hstop, fault?_loadConfig]
    refine ⟨.settings, fun h => ?_⟩
    cases h with
    | settings h => exact h
    | documents hgoes h =>
      cases congrArg Prod.fst ((exec_loadConfig hgoes).symm.trans hstop)

/-- The names under a tag are those of documents that can be read. -/
theorem exists_load_of_mem_under {config : Config} {w : Workspace} {tag : Text}
    (hplanted : (unscanned (.absolute place) config).Planted d place) (hconfig : w.config = config)
    (hagrees : Agrees w.index ((unscanned (.absolute place) config).readable d)) :
    ∀ uri ∈ (w.index.under tag).map (·.uri), ∃ q mode bytes document,
      uri = (Path.absolute q).text ∧ d.entry? q = some (.file mode bytes) ∧
        d.load (.ofText uri) (some w.config.maxFileSize) = .ok document := by
  intro uri huri
  rw [hagrees.under_eq] at huri
  obtain ⟨h, hh, rfl⟩ := List.mem_map.mp huri
  obtain ⟨document, hdocument, g, -, -, rfl⟩ := Index.mem_occurrences.mp hh
  obtain ⟨q, mode, bytes, hentry, hload⟩ := hplanted.exists_place hdocument
  have huri : document.uri = (Path.absolute q).text :=
    ((hplanted.tree.load_eq_ok_iff hentry).mp hload).2.2.2.1
  refine ⟨q, mode, bytes, document, huri, hentry, ?_⟩
  show d.load (.ofText document.uri) _ = _
  rw [huri, Path.ofText_absolute (hplanted.tree.names_of_found hentry), hconfig]
  exact hload

theorem exec_loadDocuments (con : Console) {config : Config} {uris : List Text}
    (h : ∀ uri ∈ uris, ∃ document,
      con.disk.load (.ofText uri) (some config.maxFileSize) = .ok document) :
    ∃ table, exec (loadDocuments config uris) con = (.ok table, con) := by
  unfold loadDocuments
  induction uris with
  | nil => exact ⟨[], rfl⟩
  | cons uri uris ih =>
    obtain ⟨⟨document, hload⟩, huris⟩ := List.forall_mem_cons.mp h
    obtain ⟨table, htable⟩ := ih huris
    refine ⟨(uri, document) :: table, ?_⟩
    rw [List.mapM_cons]
    rw [bind_assoc, exec_bind_of_ok (exec_loadDocument hload)]
    simp only [pure_bind]
    rw [exec_bind_of_ok htable, exec_pure]

/-- The names are paths of files of a disk that is a tree. -/
def NamesFiles (d : Disk) (uris : List Text) : Prop :=
  d.IsTree ∧ ∀ uri ∈ uris, ∃ q mode bytes, uri = (Path.absolute q).text ∧
    d.entry? q = some (.file mode bytes)

theorem NamesFiles.put {uris : List Text} {mode : Nat} {bytes bytes' : List UInt8}
    (h : NamesFiles d uris) (hentry : d.entry? place = some (.file mode bytes)) :
    NamesFiles (d.put place (.file mode bytes')) uris := by
  refine ⟨h.1.put_file hentry mode bytes', fun uri huri => ?_⟩
  obtain ⟨q, mode', bytes'', hq, hentry'⟩ := h.2 uri huri
  by_cases hsame : q = place
  · refine ⟨q, mode, bytes', hq, ?_⟩
    rw [Disk.entry?_put (Disk.IsTree.ne_nil_of_file hentry), if_pos hsame]
  · refine ⟨q, mode', bytes'', hq, ?_⟩
    rw [Disk.entry?_put (Disk.IsTree.ne_nil_of_file hentry), if_neg hsame, hentry']

/-- Renaming a tag in a file has no fault, and what names files before it does so after it. -/
theorem exec_renameIn_cases {uris : List Text} {mode : Nat} {bytes : List UInt8} {w : Workspace}
    {old new : Text} (h : NamesFiles con.disk uris)
    (hentry : con.disk.entry? place = some (.file mode bytes)) :
    (∃ stop, exec (renameIn old new w (Path.absolute place).text) con = (.error stop, con) ∧
      stop.fault? = none) ∨
    ∃ w' con', exec (renameIn old new w (Path.absolute place).text) con = (.ok w', con') ∧
      NamesFiles con'.disk uris := by
  have hread : Path.ofText (Path.absolute place).text = .absolute place :=
    Path.ofText_absolute (h.1.names_of_found hentry)
  cases hload : con.disk.load (.absolute place) (some w.config.maxFileSize) with
  | error e =>
    have hfailure : exec (loadDocument w.config (.absolute place)) con =
        (.error (fileStop e), con) := by
      unfold loadDocument
      rw [exec_bind_of_ok (exec_disk con), hload, exec_orStop_error]
    refine .inl ⟨fileStop e, ?_, ?_⟩
    · unfold renameIn
      rw [hread]
      exact exec_bind_of_error hfailure
    · unfold fileStop
      rw [if_pos (h.1.isReadFailure_of_load hentry hload)]
      rfl
  | ok document =>
    cases hrenamed : TaggedOutline.renameTag document old new with
    | error e =>
      refine .inl ⟨misuse e.message, ?_, rfl⟩
      unfold renameIn
      rw [hread]
      simp only
      rw [exec_bind_of_ok (exec_loadDocument hload), hrenamed]
      exact exec_bind_of_error (exec_orStop_error _ e con)
    | ok t =>
      by_cases hne : t = document.text
      · obtain ⟨w', log, hexec⟩ := exec_renameIn_of_eq h.1 hentry hload (hne ▸ hrenamed)
        exact .inr ⟨w', _, hexec, h⟩
      · obtain ⟨hroomy, hfull⟩ := exec_renameIn h.1 hentry hload hrenamed hne
        cases hroom : Disk.hasRoom (.absolute place) with
        | true =>
          obtain ⟨w', log, hexec, -⟩ := hroomy hroom
          exact .inr ⟨w', _, hexec, h.put hentry⟩
        | false =>
          obtain ⟨message, hexec⟩ := hfull hroom
          exact .inl ⟨_, hexec, rfl⟩

theorem fault?_foldlM_renameIn {all uris : List Text} {w : Workspace} {old new : Text}
    (h : NamesFiles con.disk all) (huris : ∀ uri ∈ uris, uri ∈ all) :
    fault? (uris.foldlM (renameIn old new) w) con = none := by
  induction uris generalizing con w with
  | nil => rfl
  | cons uri uris ih =>
    obtain ⟨huri, hrest⟩ := List.forall_mem_cons.mp huris
    obtain ⟨q, mode, bytes, rfl, hentry⟩ := h.2 uri huri
    rw [List.foldlM_cons]
    rcases exec_renameIn_cases h hentry with ⟨stop, hexec, hstop⟩ | ⟨w', con', hexec, h'⟩
    · rw [fault?_bind_of_error hexec, hstop]
    · rw [fault?_bind_of_ok hexec]
      exact ih h' hrest

section Commands

variable {root : Text} (hd : con.disk.IsTree) (hread : Path.ofText root = .absolute place)
  (hdirectory : con.disk.lookup true (Path.absolute place).text = .ok (place, .directory))

include hd hread hdirectory

theorem fault?_listTags :
    fault? (listTags env root) con = some e ↔ OpenFault env con.disk (.absolute place) e := by
  unfold listTags
  rw [hread]
  refine fault?_openWorkspace_bind hd hdirectory fun config w log _ _ _ => ?_
  exact fault?_forM (fun _ _ _ => rfl) _

theorem fault?_listHeadings {tag : Text} :
    fault? (listHeadings env tag root) con = some e ↔
      OpenFault env con.disk (.absolute place) e := by
  unfold listHeadings
  rw [hread]
  refine fault?_openWorkspace_bind hd hdirectory fun config w log _ _ _ => ?_
  exact fault?_forM (fun _ _ _ => rfl) _

theorem fault?_gatherTagged {tag : Text} {title : Option Text}
    (houtput : ∀ t ∈ output, '\x00' ∉ t) :
    fault? (gatherTagged env tag root title output) con = some e ↔
      OpenFault env con.disk (.absolute place) e := by
  unfold gatherTagged
  rw [hread]
  refine fault?_openWorkspace_bind hd hdirectory fun config w log hplanted hconfig hagrees => ?_
  have hloads : ∀ uri ∈ Text.distinct ((w.index.under (bareTag tag)).map (·.uri)), ∃ document,
      con.disk.load (.ofText uri) (some w.config.maxFileSize) = .ok document := fun uri huri => by
    obtain ⟨-, -, -, document, -, -, hload⟩ :=
      exists_load_of_mem_under hplanted hconfig hagrees uri (Text.mem_distinct.mp huri)
    exact ⟨document, hload⟩
  obtain ⟨table, htable⟩ := exec_loadDocuments { con with log := log } hloads
  dsimp only
  split
  · rfl
  · rw [fault?_bind_of_ok htable]
    have hemit (t : Text) : fault? (emit t (pathGiven output)) { con with log := log } = none := by
      cases hout : pathGiven output with
      | none => rfl
      | some q =>
        refine Option.eq_none_iff_forall_ne_some.mpr fun e he => ?_
        rw [fault?_emit, pathGiven_not_contains_null houtput hout] at he
        cases he.1
    refine Option.eq_none_iff_forall_ne_some.mpr fun e he => ?_
    rcases fault?_orStop_bind.mp he with ⟨reason, -, hreason⟩ | ⟨t, -, hfault⟩
    · cases hreason
    · rw [hemit t] at hfault
      cases hfault

theorem fault?_renameEverywhere {old new : Text} :
    fault? (renameEverywhere env old new root) con = some e ↔
      (∃ name, tagName new = .ok name) ∧ OpenFault env con.disk (.absolute place) e := by
  have hworkspace (name : Text) : fault? (openWorkspace env (.absolute place) >>=
      fun w => (Text.sort (Text.distinct ((w.index.under old).map (·.uri)))).foldlM
        (renameIn old name) w >>= fun _ => Run.echoLine ("Renamed #".toList ++ old ++
          " to #".toList ++ name ++ " in ".toList ++ Text.ofNat (Text.sort (Text.distinct
            ((w.index.under old).map (·.uri)))).length ++ " file(s)".toList)) con = some e ↔
      OpenFault env con.disk (.absolute place) e := by
    refine fault?_openWorkspace_bind hd hdirectory fun config w log hplanted hconfig hagrees => ?_
    rw [fault?_bind_of_none fun _ _ _ => rfl]
    have hfiles : NamesFiles con.disk ((w.index.under old).map (·.uri)) := by
      refine ⟨hd, fun uri huri => ?_⟩
      obtain ⟨q, mode, bytes, document, huri, hentry, -⟩ :=
        exists_load_of_mem_under hplanted hconfig hagrees uri huri
      exact ⟨q, mode, bytes, huri, hentry⟩
    refine fault?_foldlM_renameIn hfiles fun uri huri => ?_
    rw [Text.sort, (List.mergeSort_perm _ _).mem_iff] at huri
    exact Text.mem_distinct.mp huri
  unfold renameEverywhere
  rw [hread]
  simp only
  rw [fault?_orStop_bind]
  constructor
  · rintro (⟨reason, -, hreason⟩ | ⟨name, hname, hfault⟩)
    · cases hreason
    · exact ⟨⟨name, hname⟩, (hworkspace name).mp hfault⟩
  · rintro ⟨⟨name, hname⟩, hfault⟩
    exact .inr ⟨name, hname, (hworkspace name).mpr hfault⟩

end Commands

end TaggedOutline.Command
