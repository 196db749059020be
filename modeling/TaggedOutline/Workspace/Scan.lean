import TaggedOutline.Disk.Walk
import TaggedOutline.Workspace.Basic

/-!
# Scanning a workspace

A scan empties the index and adds the documents of the workspace one after the other. A scan that is
asked for while another one is running is put off: the running scan makes another pass when it is
through. A document that cannot be read is logged and left out; any other fault ends the scan. Who
has subscribed is told once, when the last pass is through.
-/

namespace TaggedOutline

/-- What happens during a scan: the numbers of the loads right before which another scan is asked
for, and the load that fails, both counted from one over all passes. -/
structure ScanPlan where
  requests : List Nat := []
  failure : Option Nat := none

/-- What ends a scan early. -/
inductive ScanFault
  | loadFailed
  | file (e : FileError)

/-- How far a scan has come: the answers to the scans that were asked for meanwhile, and the paths
that were loaded, both in order. -/
structure ScanRun where
  workspace : Workspace
  answers : List Bool := []
  loads : List Path := []

namespace Workspace

/-- Asks for a scan. It may begin unless one is running, which is then asked for another pass. -/
def askScan (w : Workspace) : Bool × Workspace :=
  if w.scanning then (false, { w with requested := true })
  else (true, { w with scanning := true })

end Workspace

namespace ScanRun

/-- Asks for another scan. -/
def ask (r : ScanRun) : ScanRun :=
  let (answer, w) := r.workspace.askScan
  { r with workspace := w, answers := r.answers ++ [answer] }

/-- Gets to the load of a path. -/
def approach (plan : ScanPlan) (r : ScanRun) (p : Path) : ScanRun :=
  let r := if r.loads.length + 1 ∈ plan.requests then r.ask else r
  { r with loads := r.loads ++ [p] }

/-- Loads paths in turn and indexes their documents. -/
def visit (plan : ScanPlan) (d : Disk) (r : ScanRun) : List Path → ScanRun × Option ScanFault
  | [] => (r, none)
  | p :: ps =>
    let r := r.approach plan p
    if plan.failure = some r.loads.length then (r, some .loadFailed)
    else match r.workspace.loadFile d p with
      | .ok document =>
        let w := { r.workspace with index := r.workspace.index.add document }
        visit plan d { r with workspace := w } ps
      | .error e =>
        if e.isReadFailure then
          let message := "Failed to index " ++ String.ofList p.text ++ ": " ++ e.message
          visit plan d { r with workspace := r.workspace.note .warning .index message } ps
        else (r, some (.file e))

/-- One pass over the documents of the workspace. -/
def pass (plan : ScanPlan) (d : Disk) (r : ScanRun) : ScanRun × Option ScanFault :=
  let w := r.workspace
  match d.documents w.root w.config.extensions w.config.excludeDirs with
  | .error e => (r, some (.file e))
  | .ok paths =>
    match visit plan d { r with workspace := { w with index := {} } } paths with
    | (r, none) =>
      let w := r.workspace
      let message := "Indexed " ++ toString paths.length ++ " files, " ++
        toString w.index.tags.length ++ " tags"
      ({ r with workspace := w.note .info .index message }, none)
    | (r, some e) => (r, some e)

/-- Makes at most `fuel` passes, until a pass is through and no other was asked for. -/
def passes (plan : ScanPlan) (d : Disk) : Nat → ScanRun → ScanRun × Option ScanFault
  | 0, r => (r, none)
  | fuel + 1, r =>
    match r.pass plan d with
    | (r, some e) => (r, some e)
    | (r, none) =>
      if r.workspace.requested then
        passes plan d fuel { r with workspace := { r.workspace with requested := false } }
      else (r, none)

end ScanRun

namespace Workspace

/-- The largest of some numbers. -/
def lastRequest (plan : ScanPlan) : Nat := plan.requests.foldl max 0

/-- Scans the workspace and says whether the scan was made or put off. A pass that is followed by
another one has loaded something, so there is at most one pass more than the number of the last
load before which a scan is asked for. -/
def scan (w : Workspace) (d : Disk) (plan : ScanPlan) : Except ScanFault Bool × ScanRun :=
  match w.askScan with
  | (false, w) => (.ok false, ⟨w, [], []⟩)
  | (true, w) =>
    match ScanRun.passes plan d (lastRequest plan + 1) ⟨w, [], []⟩ with
    | (r, none) =>
      (.ok true, { r with workspace := { r.workspace with scanning := false }.notify })
    | (r, some e) =>
      (.error e, { r with workspace := { r.workspace with scanning := false, requested := false } })

end Workspace

end TaggedOutline
