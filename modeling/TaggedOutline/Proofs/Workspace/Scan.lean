import TaggedOutline.Proofs.Except
import TaggedOutline.Workspace.Scan

/-!
# What a completed scan leaves in the index

Listeners, log entries, definitions of tags and requests for scans have no effect on the index
(`Alike`). Each pass of a scan begins with an empty index and adds the documents that can be read in
turn, so a scan that is completed, after however many passes, leaves just these (`scan_spec`).
-/

namespace TaggedOutline

/-- The root and the configuration are as they were, and the index is `i`. -/
structure Reindexed (w : Workspace) (i : Index) (w' : Workspace) : Prop where
  root : w'.root = w.root
  config : w'.config = w.config
  index : w'.index = i

/-- The root, the configuration and the index are as they were. -/
abbrev Alike (w w' : Workspace) : Prop := Reindexed w w.index w'

theorem Alike.refl (w : Workspace) : Alike w w := ⟨rfl, rfl, rfl⟩

theorem Reindexed.trans {w w' w'' : Workspace} {i j : Index} (h : Reindexed w i w')
    (h' : Reindexed w' j w'') : Reindexed w j w'' :=
  ⟨h'.root.trans h.root, h'.config.trans h.config, h'.index⟩

theorem Reindexed.alike {w w' w'' : Workspace} {i : Index} (h : Reindexed w i w')
    (h' : Alike w' w'') : Reindexed w i w'' :=
  ⟨h'.root.trans h.root, h'.config.trans h.config, h'.index.trans h.index⟩

theorem Reindexed.self {w w' : Workspace} {i : Index} (h : Reindexed w i w') :
    Reindexed w w'.index w' :=
  ⟨h.root, h.config, rfl⟩

namespace Workspace

theorem alike_note (w : Workspace) (level : Level) (source : Source) (message : String) :
    Alike w (w.note level source message) :=
  ⟨rfl, rfl, rfl⟩

theorem alike_tell (w : Workspace) (l : Listener) : Alike w (w.tell l) := by
  unfold tell
  simp only
  split
  · exact ⟨rfl, rfl, rfl⟩
  · exact ⟨rfl, rfl, rfl⟩

theorem alike_notify (w : Workspace) : Alike w w.notify := by
  have hfold (ls : List Listener) (w : Workspace) : Alike w (ls.foldl tell w) := by
    induction ls generalizing w with
    | nil => exact Alike.refl w
    | cons l ls ih => exact (w.alike_tell l).alike (ih (w.tell l))
  exact hfold w.listeners w

/-- Unsubscribing drops a listener at most, whatever was subscribed. -/
theorem Handle.call_eq (h : Handle) (w : Workspace) :
    h.call w = { w with listeners := w.listeners.erase h.listener } := by
  unfold call
  split
  · rfl
  · next hnone => rw [List.erase_of_not_mem hnone]

theorem alike_register (w : Workspace) (tag : Text) : Alike w (w.register tag).2 := by
  unfold register
  split
  · exact Alike.refl w
  · split
    · exact w.alike_note _ _ _
    · split
      · exact Alike.refl w
      · split
        · exact Alike.refl w
        · exact ⟨rfl, rfl, rfl⟩

theorem alike_registerAll (w : Workspace) (tags : List Text) :
    Alike w (w.registerAll tags).2 := by
  induction tags generalizing w with
  | nil => exact Alike.refl w
  | cons tag tags ih => exact (w.alike_register tag).alike (ih (w.register tag).2)

theorem alike_askScan (w : Workspace) : Alike w w.askScan.2 := by
  unfold askScan
  split
  · exact ⟨rfl, rfl, rfl⟩
  · exact ⟨rfl, rfl, rfl⟩

end Workspace

namespace ScanRun

open Workspace

variable {plan : ScanPlan} {d : Disk} {r r' : ScanRun}

theorem alike_approach (plan : ScanPlan) (r : ScanRun) (p : Path) :
    Alike r.workspace (r.approach plan p).workspace := by
  unfold approach
  simp only
  split
  · exact r.workspace.alike_askScan
  · exact Alike.refl r.workspace

/-- The documents among some paths that can be read. -/
def loaded (w : Workspace) (d : Disk) (paths : List Path) : List Document :=
  paths.filterMap fun p => (w.loadFile d p).toOption

theorem loaded_of_config_eq {w w' : Workspace} (h : w'.config = w.config) (d : Disk)
    (paths : List Path) : loaded w' d paths = loaded w d paths := by
  unfold loaded loadFile
  rw [h]

/-- Documents that can be read are added in turn, the others are passed over. -/
theorem visit_spec {paths : List Path} (h : visit plan d r paths = (r', none)) :
    Reindexed r.workspace ((loaded r.workspace d paths).foldl Index.add r.workspace.index)
      r'.workspace := by
  induction paths generalizing r with
  | nil =>
    obtain ⟨rfl, -⟩ := Prod.mk.inj h
    exact Alike.refl r.workspace
  | cons p paths ih =>
    have happroach := alike_approach plan r p
    have hload : (r.approach plan p).workspace.loadFile d p = r.workspace.loadFile d p := by
      rw [loadFile, loadFile, happroach.config]
    unfold visit at h
    simp only at h
    split at h
    · exact absurd (Prod.mk.inj h).2 (by simp)
    · rw [hload] at h
      split at h
      · next document hok =>
        have hadded : Reindexed r.workspace (r.workspace.index.add document)
            { (r.approach plan p).workspace with
              index := (r.approach plan p).workspace.index.add document } :=
          ⟨happroach.root, happroach.config, by rw [happroach.index]⟩
        have hrest := hadded.trans (ih h)
        simp only at hrest
        rw [loaded_of_config_eq hadded.config, happroach.index] at hrest
        rw [loaded, List.filterMap_cons, hok]
        exact hrest
      · next e herror =>
        split at h
        · have hrest := happroach.trans ((alike_note _ _ _ _).trans (ih h))
          simp only at hrest
          rw [loaded_of_config_eq (happroach.alike (alike_note _ _ _ _)).config] at hrest
          rw [loaded, List.filterMap_cons, herror]
          rw [(happroach.alike (alike_note _ _ _ _)).index] at hrest
          exact hrest
        · exact absurd (Prod.mk.inj h).2 (by simp)

end ScanRun

namespace Workspace

open ScanRun

variable {plan : ScanPlan} {d : Disk} {r r' : ScanRun}

/-- The documents of a workspace that can be read, in the order in which they are visited. -/
def readable (w : Workspace) (d : Disk) : List Document :=
  match d.documents w.root w.config.extensions w.config.excludeDirs with
  | .ok paths => loaded w d paths
  | .error _ => []

theorem mem_readable_of_documents {w : Workspace} {paths : List Path} {document : Document}
    (h : d.documents w.root w.config.extensions w.config.excludeDirs = .ok paths) :
    document ∈ w.readable d ↔ ∃ p ∈ paths, w.loadFile d p = .ok document := by
  unfold readable
  rw [h]
  simp only [loaded, List.mem_filterMap, toOption_eq_some_iff]

theorem readable_of_reindexed {w w' : Workspace} {i : Index} (h : Reindexed w i w') (d : Disk) :
    w'.readable d = w.readable d := by
  unfold readable loaded loadFile
  rw [h.root, h.config]

/-- A pass begins with an empty index. -/
theorem pass_spec (h : r.pass plan d = (r', none)) :
    Reindexed r.workspace ((r.workspace.readable d).foldl Index.add {}) r'.workspace := by
  unfold ScanRun.pass at h
  simp only at h
  split at h
  · exact absurd (Prod.mk.inj h).2 (by simp)
  · next paths hpaths =>
    split at h
    · next r₁ hvisit =>
      obtain ⟨rfl, -⟩ := Prod.mk.inj h
      have hempty : Reindexed r.workspace {} { r.workspace with index := {} } := ⟨rfl, rfl, rfl⟩
      have hvisited := hempty.trans (visit_spec hvisit)
      rw [readable, hpaths]
      exact hvisited.alike (r₁.workspace.alike_note _ _ _)
    · exact absurd (Prod.mk.inj h).2 (by simp)

/-- Each further pass gives the same index. -/
theorem passes_spec {fuel : Nat} (h : passes plan d (fuel + 1) r = (r', none)) :
    Reindexed r.workspace ((r.workspace.readable d).foldl Index.add {}) r'.workspace := by
  induction fuel generalizing r with
  | zero =>
    unfold passes at h
    split at h
    · exact absurd (Prod.mk.inj h).2 (by simp)
    · next r₁ hpass =>
      split at h
      · obtain ⟨rfl, -⟩ := Prod.mk.inj h
        exact (pass_spec hpass).alike ⟨rfl, rfl, rfl⟩
      · obtain ⟨rfl, -⟩ := Prod.mk.inj h
        exact pass_spec hpass
  | succ fuel ih =>
    unfold passes at h
    split at h
    · exact absurd (Prod.mk.inj h).2 (by simp)
    · next r₁ hpass =>
      split at h
      · have hagain : Alike r₁.workspace { r₁.workspace with requested := false } := ⟨rfl, rfl, rfl⟩
        have hpassed := (pass_spec hpass).alike hagain
        rw [← readable_of_reindexed hpassed d]
        exact hpassed.trans (ih h)
      · obtain ⟨rfl, -⟩ := Prod.mk.inj h
        exact pass_spec hpass

/-- A completed scan leaves the documents that can be read in the index. -/
theorem scan_spec {w : Workspace} (h : (w.scan d plan).1 = .ok true) :
    Reindexed w ((w.readable d).foldl Index.add {}) (w.scan d plan).2.workspace := by
  have hask := w.alike_askScan
  unfold scan at h ⊢
  split
  · next w₁ ha =>
    rw [ha] at h
    exact absurd h (by simp)
  · next w₁ ha =>
    rw [ha] at h hask
    simp only at h hask ⊢
    split
    · next r hpasses =>
      have hdone : Alike r.workspace { r.workspace with scanning := false } := ⟨rfl, rfl, rfl⟩
      have hpassed := passes_spec hpasses
      rw [readable_of_reindexed hask] at hpassed
      exact ((hask.trans hpassed).alike hdone).alike (alike_notify _)
    · next r e hpasses =>
      rw [hpasses] at h
      exact absurd h (by simp)

end Workspace

end TaggedOutline
