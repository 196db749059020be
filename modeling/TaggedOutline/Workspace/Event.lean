import TaggedOutline.Workspace.Basic

/-!
# File events

A workspace that is watched is told which files were created, changed, deleted or moved. An event
concerns the index if the path is that of a document: its suffix is one of the configured suffixes
and none of its parts is an excluded directory.
-/

namespace TaggedOutline

/-- What happened to a file. -/
inductive FileEvent
  | created (path : Path)
  | modified (path : Path)
  | deleted (path : Path)
  | moved (source target : Path)
  deriving DecidableEq, Repr

namespace Config

/-- Whether a path is that of a document of the workspace. -/
def isDocument (c : Config) (p : Path) : Bool :=
  p.hasSuffix c.extensions && p.parts.all (¬ Text.isIn · c.excludeDirs)

end Config

namespace Workspace

/-- Indexes what is at a path now, if it is that of a document. -/
def refresh (w : Workspace) (d : Disk) (p : Path) : Except FileError Workspace :=
  if w.config.isDocument p then (w.updateFile d p).map Prod.snd else .ok w

/-- Drops what was at a path, if it is that of a document. -/
def forget (w : Workspace) (d : Disk) (p : Path) : Except FileError Workspace :=
  if w.config.isDocument p then w.removeFile d p else .ok w

/-- The workspace after a change, or as it was before it and the fault. -/
def after (w : Workspace) : Except FileError Workspace → Option FileError × Workspace
  | .ok changed => (none, changed)
  | .error e => (some e, w)

/-- Takes notice of what happened to a file. A file that was moved is dropped from where it was even
if the path that it was moved to cannot be resolved. -/
def handle (w : Workspace) (d : Disk) : FileEvent → Option FileError × Workspace
  | .created p | .modified p => w.after (w.refresh d p)
  | .deleted p => w.after (w.forget d p)
  | .moved source target =>
    match w.forget d source with
    | .ok w => w.after (w.refresh d target)
    | .error e => (some e, w)

/-- Starts watching the root, if it is there. -/
def startWatching (w : Workspace) (d : Disk) : Except FileError Workspace := do
  let root := String.ofList w.root.text
  if ← d.leadsTo w.root Entry.isDirectory then
    return { w with watching := true }.note .info .watcher ("Watching: " ++ root)
  else
    return w.note .warning .watcher ("Workspace root " ++ root ++ " does not exist; not watching")

def stopWatching (w : Workspace) : Workspace := { w with watching := false }

end Workspace

end TaggedOutline
