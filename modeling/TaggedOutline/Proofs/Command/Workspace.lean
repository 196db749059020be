import TaggedOutline.Command.Run
import TaggedOutline.Proofs.Command.Console
import TaggedOutline.Proofs.Config.Load
import TaggedOutline.Proofs.Workspace.Tree

/-!
# Opening a workspace

A command goes by the configuration for its path and by the size limit of the environment
(`GoesBy`). If the root is a directory of a disk that is a tree and its documents are found, the scan
is carried through whatever cannot be read, so the command gets a workspace whose index agrees with
the documents that can be read (`exec_openWorkspace`). Otherwise it stops, and in no case is anything
echoed or written (`exec_openWorkspace_cases`).
-/

namespace TaggedOutline.Command

open Command.Run (exec exec_pure exec_bind_of_ok exec_bind_of_error exec_disk exec_note
  exec_orStop_ok exec_orStop_error)
open Index (Agrees)

variable {env : Environment} {p : Path} {config : Config} {con : Console}

/-- The configuration that a command goes by: the one for a path, with the size limit of the
environment. -/
def GoesBy (env : Environment) (d : Disk) (p : Path) (config : Config) : Prop :=
  ∃ found limit, Config.load env.nesting d p [] = .ok found ∧
    SizeLimit.read env.sizeLimit found.maxFileSize = .ok limit ∧
      config = { found with maxFileSize := limit }

theorem GoesBy.unique {config' : Config} (h : GoesBy env con.disk p config)
    (h' : GoesBy env con.disk p config') : config' = config := by
  obtain ⟨found, limit, hfound, hlimit, rfl⟩ := h
  obtain ⟨found', limit', hfound', hlimit', rfl⟩ := h'
  obtain rfl := Except.ok.inj (hfound.symm.trans hfound')
  rw [Except.ok.inj (hlimit.symm.trans hlimit')]

theorem exec_loadConfig (h : GoesBy env con.disk p config) :
    exec (loadConfig env p) con = (.ok config, con) := by
  obtain ⟨found, limit, hfound, hlimit, rfl⟩ := h
  unfold loadConfig
  rw [exec_bind_of_ok (exec_disk con), hfound, exec_bind_of_ok (exec_orStop_ok _ found con), hlimit,
    exec_bind_of_ok (exec_orStop_ok _ limit con), exec_pure]

theorem exec_loadConfig_of_error {e : LoadError}
    (h : Config.load env.nesting con.disk p [] = .error e) :
    exec (loadConfig env p) con = (.error (loadStop e), con) := by
  unfold loadConfig
  rw [exec_bind_of_ok (exec_disk con), h]
  exact exec_bind_of_error (exec_orStop_error _ e con)

/-- Faults of paths are not accounted for, null characters apart. -/
theorem loadStop_path {e : FileError} (h : e ≠ .nullInPath) : loadStop (.path e) = .fault e := by
  cases e <;> first | rfl | exact absurd rfl h

theorem exec_loadConfig_of_fault {e : FileError} (h : Settings.Fault env.nesting con.disk p e) :
    exec (loadConfig env p) con = (.error (.fault e), con) := by
  obtain ⟨hload, he⟩ := Config.load_fault_iff.mpr h
  rw [exec_loadConfig_of_error hload, loadStop_path he]

/-- There is a configuration to go by, or a command stops. -/
theorem exec_loadConfig_cases (env : Environment) (p : Path) (con : Console) :
    (∃ config, GoesBy env con.disk p config) ∨
      ∃ stop, exec (loadConfig env p) con = (.error stop, con) := by
  cases hload : Config.load env.nesting con.disk p [] with
  | error e => exact .inr ⟨loadStop e, exec_loadConfig_of_error hload⟩
  | ok found =>
    cases hlimit : SizeLimit.read env.sizeLimit found.maxFileSize with
    | ok limit => exact .inl ⟨_, found, limit, hload, hlimit, rfl⟩
    | error e =>
      refine .inr ⟨failure e.message, ?_⟩
      unfold loadConfig
      rw [exec_bind_of_ok (exec_disk con), hload,
        exec_bind_of_ok (exec_orStop_ok _ found con), hlimit]
      exact exec_bind_of_error (exec_orStop_error _ e con)

/-! ## Workspaces -/

/-- A directory is the root that its path writes. -/
theorem ofText_root {d : Disk} {place : Place} (hd : d.IsTree)
    (hdirectory : d.lookup true (Path.absolute place).text = .ok (place, .directory)) :
    Path.ofText (Path.absolute place).text = .absolute place :=
  Path.ofText_absolute (hd.names_of_found (Disk.entry?_of_lookup hdirectory))

/-- The workspace of a root before its scan. -/
def unscanned (root : Path) (config : Config) : Workspace :=
  Workspace.fresh root config (((Registry.ofTables config.tags).toOption).getD {})

theorem exec_takeLog (w : Workspace) (con : Console) :
    exec (takeLog w) con = (.ok { w with log := [] }, { con with log := con.log ++ w.log }) := by
  unfold takeLog
  rw [exec_bind_of_ok (exec_note w.log con), exec_pure]

/-- A command gets the workspace that was scanned, also if a load was made to fail. -/
theorem exec_openWorkspace_of_scan {result : Except ScanFault Bool} {scan : ScanRun}
    (h : GoesBy env con.disk p config)
    (hscan : (unscanned p config).scan con.disk {} = (result, scan))
    (hresult : ∀ e, result ≠ .error (.file e)) :
    exec (openWorkspace env p) con = (.ok { scan.workspace with log := [] },
      { con with log := con.log ++ scan.workspace.log }) := by
  unfold openWorkspace
  rw [exec_bind_of_ok (exec_loadConfig h)]
  simp only
  rw [exec_bind_of_ok (exec_disk con)]
  unfold unscanned Workspace.fresh at hscan
  rw [hscan]
  refine (exec_bind_of_ok (exec_takeLog _ con)).trans ?_
  rcases result with (_ | e) | _
  · rfl
  · exact absurd rfl (hresult e)
  · rfl

theorem exec_openWorkspace_of_fault {e : FileError} {scan : ScanRun}
    (h : GoesBy env con.disk p config)
    (hscan : (unscanned p config).scan con.disk {} = (.error (.file e), scan)) :
    exec (openWorkspace env p) con =
      (.error (.fault e), { con with log := con.log ++ scan.workspace.log }) := by
  unfold openWorkspace
  rw [exec_bind_of_ok (exec_loadConfig h)]
  simp only
  rw [exec_bind_of_ok (exec_disk con)]
  unfold unscanned Workspace.fresh at hscan
  rw [hscan]
  exact exec_bind_of_ok (exec_takeLog _ con)

/-- A command gets a workspace or stops, and has done nothing but log. -/
theorem exec_openWorkspace_cases (env : Environment) (p : Path) (con : Console) :
    (∃ w log, exec (openWorkspace env p) con = (.ok w, { con with log := log })) ∨
      ∃ stop log, exec (openWorkspace env p) con = (.error stop, { con with log := log }) := by
  rcases exec_loadConfig_cases env p con with ⟨config, hgoes⟩ | ⟨stop, hstop⟩
  · rcases hscan : (unscanned p config).scan con.disk {} with ⟨result, scan⟩
    by_cases hfile : ∃ e, result = .error (.file e)
    · obtain ⟨e, rfl⟩ := hfile
      exact .inr ⟨.fault e, _, exec_openWorkspace_of_fault hgoes hscan⟩
    · exact .inl ⟨_, _, exec_openWorkspace_of_scan hgoes hscan (not_exists.mp hfile)⟩
  · exact .inr ⟨stop, con.log, exec_bind_of_error hstop⟩

/-- A command gets the workspace of a directory with the documents that can be read, if the documents
are found. -/
theorem exec_openWorkspace (h : GoesBy env con.disk p config) {place : Place}
    (hplanted : (unscanned p config).Planted con.disk place) {paths : List Path}
    (hpaths : con.disk.documents p config.extensions config.excludeDirs = .ok paths) :
    ∃ w log, exec (openWorkspace env p) con = (.ok w, { con with log := log }) ∧
      w.config = config ∧ Agrees w.index ((unscanned p config).readable con.disk) := by
  obtain ⟨hanswer, hagrees⟩ := hplanted.scan_eq (Workspace.Idle.fresh _ _ _) hpaths
  have hconfig := (Workspace.scan_spec hanswer).config
  have hscan : (unscanned p config).scan con.disk {} =
      (.ok true, ((unscanned p config).scan con.disk {}).2) := Prod.ext hanswer rfl
  have hanswered : ∀ e, Except.ok true ≠ Except.error (ScanFault.file e) := fun e he => by cases he
  exact ⟨_, _, exec_openWorkspace_of_scan h hscan hanswered, hconfig, hagrees⟩

/-- If the documents cannot be found, the fault is that of a command. -/
theorem exec_openWorkspace_of_documents_error {e : FileError} (h : GoesBy env con.disk p config)
    (hdocuments : con.disk.documents p config.extensions config.excludeDirs = .error e) :
    ∃ log, exec (openWorkspace env p) con = (.error (.fault e), { con with log := log }) := by
  have hscan : ((unscanned p config).scan con.disk {}).1 = .error (.file e) :=
    Workspace.scan_of_documents_error (Workspace.Idle.fresh _ _ _) hdocuments
  exact ⟨_, exec_openWorkspace_of_fault h (Prod.ext hscan rfl)⟩

end TaggedOutline.Command
