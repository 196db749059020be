import TaggedOutline.Config.Basic
import TaggedOutline.Disk.File
import TaggedOutline.Index.Basic
import TaggedOutline.Tag.Registry
import TaggedOutline.Workspace.Log

/-!
# Workspaces

A workspace is a directory with its configuration, its registry of tags and its index. The listeners
that are subscribed are called in turn after each change of the index, and that one of them fails is
logged. An operation on a path may fail because the path cannot be resolved; a file that cannot be
read is logged and leaves the index as it is.
-/

namespace TaggedOutline

/-- Something that is called after changes of an index. What is called may be subscribed more than
once, and is the same each time. -/
structure Listener where
  id : Nat
  fails : Bool := false
  deriving DecidableEq, Repr

/-- A workspace and the state of its index. `scanning` says that a scan is running and `requested`
that another one was asked for meanwhile. -/
structure Workspace where
  root : Path
  config : Config
  registry : Registry
  index : Index := {}
  listeners : List Listener := []
  /-- The listeners that were called so far, in turn. -/
  called : List Listener := []
  scanning : Bool := false
  requested : Bool := false
  watching : Bool := false
  log : List LogEntry := []

namespace Workspace

/-- The workspace with one more log entry. -/
def note (w : Workspace) (level : Level) (source : Source) (message : String) : Workspace :=
  { w with log := w.log ++ [⟨level, source, message⟩] }

/-! ## Listeners -/

/-- What a subscription returns: by calling it one unsubscribes. -/
structure Handle where
  listener : Listener
  deriving DecidableEq, Repr

def subscribe (w : Workspace) (l : Listener) : Handle × Workspace :=
  (⟨l⟩, { w with listeners := w.listeners ++ [l] })

/-- Drops the first listener that is the same as the one that was subscribed, if there is one. -/
def Handle.call (h : Handle) (w : Workspace) : Workspace :=
  if h.listener ∈ w.listeners then { w with listeners := w.listeners.erase h.listener } else w

/-- The workspace after a listener was called. -/
def tell (w : Workspace) (l : Listener) : Workspace :=
  let told := { w with called := w.called ++ [l] }
  if l.fails then told.note .error .index "Tag index listener failed" else told

/-- The workspace after everybody was told. -/
def notify (w : Workspace) : Workspace := w.listeners.foldl tell w

/-! ## Changes of the index -/

/-- Indexes a document as it is now. -/
def update (w : Workspace) (d : Document) : Workspace :=
  { w with index := w.index.add d }.notify

/-- Drops a document from the index. -/
def remove (w : Workspace) (uri : Text) : Workspace :=
  { w with index := w.index.remove uri }.notify

/-- The document at a path, as the configuration allows it. -/
def loadFile (w : Workspace) (d : Disk) (p : Path) : Except FileError Document :=
  d.load p (some w.config.maxFileSize)

/-- Indexes the document at a path as it is now, and says whether it could be read. -/
def updateFile (w : Workspace) (d : Disk) (p : Path) : Except FileError (Bool × Workspace) :=
  match w.loadFile d p with
  | .ok document => .ok (true, w.update document)
  | .error e =>
    if e.isReadFailure then
      let message := "Failed to update " ++ String.ofList p.text ++ ": " ++ e.message
      .ok (false, w.note .warning .index message)
    else .error e

/-- Drops the document at a path from the index. -/
def removeFile (w : Workspace) (d : Disk) (p : Path) : Except FileError Workspace :=
  (d.uriOf p).map w.remove

/-! ## Definitions of tags -/

/-- The definition that a tag without one is given. -/
def newDefinition (w : Workspace) (name : Text) : Definition where
  name := name
  color := some w.config.defaultColor
  icon := some w.config.defaultIcon
  pinned := (w.registry.pinnedCount : Int) < w.config.maxPinned

/-- Defines a tag that has no definition yet; a name that is none is logged. -/
def register (w : Workspace) (tag : Text) : Option Definition × Workspace :=
  if w.registry.has tag then (none, w)
  else match tagName tag with
    | .error e => (none, w.note .warning .index ("Skipping tag registration: " ++ e.message))
    | .ok name =>
      if w.registry.has name then (none, w)
      else match w.registry.add (w.newDefinition name) with
        | .error _ => (none, w)
        | .ok (definition, registry) =>
          (some definition, { w with registry := registry }.note .info .index
            ("Registered new tag " ++ String.ofList name))

/-- Defines the tags that have no definition yet, in turn. -/
def registerAll (w : Workspace) : List Text → List Definition × Workspace
  | [] => ([], w)
  | tag :: rest =>
    let (definition, w) := w.register tag
    let (definitions, w) := registerAll w rest
    (definition.toList ++ definitions, w)

/-- Indexes a document that was saved and defines the tags that it brings in. -/
def save (w : Workspace) (d : Document) : List Definition × Workspace :=
  let w := w.update d
  w.registerAll (w.index.tagsOf d.uri)

/-- The tags that are used or defined, by name. -/
def tags (w : Workspace) : List Text :=
  Text.sort (Text.distinct (w.index.tags ++ w.registry.names))

end Workspace

end TaggedOutline
