import TaggedOutline.Command.Basic
import TaggedOutline.Command.Console
import TaggedOutline.Config.Load
import TaggedOutline.Config.SizeLimit
import TaggedOutline.Edit.Extract
import TaggedOutline.Edit.Lines
import TaggedOutline.Text.FileComponent
import TaggedOutline.Workspace.Event
import TaggedOutline.Workspace.Scan

/-!
# What the commands do

Each command loads the configuration of the path that it is called with, reads documents or scans the
workspace, and echoes its answer (`perform`).
-/

namespace TaggedOutline.Command

open Run

/-- What a command goes by besides its call and the disk. -/
structure Environment where
  /-- The size limit that a variable sets, if it is set. -/
  sizeLimit : Option Text := none
  /-- How deep the values of a settings file may lie inside of one another before reading it is
  given up. -/
  nesting : Nat

/-! ## Configuration and workspace -/

/-- Why a configuration cannot be loaded. -/
def loadStop : LoadError → Stop
  | .settings e => misuse e.message
  | .tooManyDigits n => failure (LoadError.tooManyDigits n).message
  | .path .nullInPath => failure FileError.nullInPath.message
  | .path e => .fault e

/-- The configuration for a path, with the size limit of the environment. -/
def loadConfig (env : Environment) (p : Path) : Run Config := do
  let config ← orStop loadStop (Config.load env.nesting (← disk) p [])
  let limit ← orStop (fun e => failure e.message)
    (SizeLimit.read env.sizeLimit config.maxFileSize)
  return { config with maxFileSize := limit }

/-- A fault of a file: what concerns the file itself is why the command cannot do its work. -/
def fileStop (e : FileError) : Stop := if e.isReadFailure then failure e.message else .fault e

/-- Takes the log of a workspace over. -/
def takeLog (w : Workspace) : Run Workspace := do
  note w.log
  return { w with log := [] }

/-- The workspace at a root, scanned. -/
def openWorkspace (env : Environment) (root : Path) : Run Workspace := do
  let config ← loadConfig env root
  let registry := ((Registry.ofTables config.tags).toOption).getD {}
  let (result, scan) := Workspace.scan { root, config, registry } (← disk) {}
  let w ← takeLog scan.workspace
  match result with
  | .ok _ => return w
  | .error (.file e) => throw (.fault e)
  | .error .loadFailed => return w

/-- The document at a path. -/
def loadDocument (config : Config) (p : Path) : Run Document := do
  orStop fileStop ((← disk).load p (some config.maxFileSize))

/-! ## Writing -/

/-- Writes a text to a file, or echoes it. -/
def emit (t : Text) : Option Path → Run Unit
  | none => echo t
  | some p => do setDisk (← orStop fileStop ((← disk).write p t))

/-- The path that is given; an empty one counts as none. -/
def pathGiven (given : Option Text) : Option Path := (given.filter (· ≠ [])).map Path.ofText

/-! ## The commands -/

/-- What the title of a heading without one is shown as. -/
def untitled : Text := "(Untitled)".toList

/-- Tags as an outline shows them. -/
def shownTags : List Text → Text
  | [] => []
  | ts => "  [".toList ++ Text.unwords (ts.map ('#' :: ·)) ++ [']']

/-- A line of an outline: the line of the heading, its title under those above it, and its tags. -/
def outlineLine (o : Outline) (tags : Table Int (List Text)) (n : Node) : Text :=
  let depth := (o.ancestorsOf n).length
  let label := if n.label = [] then untitled else n.label
  Text.padStart 5 (Text.ofInt (n.line + 1)) ++ List.replicate (2 * depth + 2) ' ' ++ label ++
    shownTags ((tags.get? n.line).getD [])

/-- Shows the outline of a file. -/
def showOutline (env : Environment) (file : Text) : Run Unit := do
  let p := Path.ofText file
  let config ← loadConfig env p.parent
  let stop (e : FileError) : Stop :=
    if e.isReadFailure then failure (e.parseMessage p) else .fault e
  let document ← orStop stop ((← disk).load p (some config.maxFileSize))
  let hs := Heading.ofDocument document
  let o := Outline.ofHeadings hs
  let tags := Table.ofList (hs.map fun h => (h.line, h.tags))
  o.ordered.forM fun n => echoLine (outlineLine o tags n)

/-- A line of the list of tags: whether the tag is pinned, its name, and how often it is used. -/
def tagLine (w : Workspace) (tag : Text) : Text :=
  let mark := if (w.registry.get? tag).any (·.pinned) then '*' else ' '
  mark :: ' ' :: tag ++ '\t' :: Text.ofNat (w.index.under tag).length

/-- Lists the tags of a workspace. -/
def listTags (env : Environment) (root : Text) : Run Unit := do
  let w ← openWorkspace env (Path.ofText root)
  w.tags.forM fun tag => echoLine (tagLine w tag)

/-- A tag name without the signs before it. -/
def bareTag (t : Text) : Text := t.dropWhile (· = '#')

/-- A line of the list of headings: where the heading is, its breadcrumb and its remark. -/
def headingLine (root : Path) (h : TaggedHeading) : Text :=
  let p := Path.ofText h.uri
  let place := ((root.below? p).getD p).text
  let remark := match h.heading.remark with
    | none | some [] => []
    | some r => "  (".toList ++ r ++ [')']
  place ++ ':' :: Text.ofInt (h.line + 1) ++ '\t' :: Text.joinWith " > ".toList h.breadcrumb ++
    remark

/-- Lists the headings under a tag. -/
def listHeadings (env : Environment) (tag root : Text) : Run Unit := do
  let w ← openWorkspace env (Path.ofText root)
  (w.index.under (bareTag tag)).forM fun h => echoLine (headingLine (Path.ofText root) h)

/-- Where the block of a node is saved: beside its file, named after the file and the title. -/
def exportPath (p : Path) (n : Node) : Path :=
  p.withName (p.stem ++ '-' :: Text.fileComponent n.label ++ p.suffix)

/-- The text that is put before a block. -/
def preambleText (preamble : Option Text) : Run Text :=
  match pathGiven preamble with
  | none => return []
  | some p => do orStop .fault ((← disk).readLines p)

/-- Exports the block of the heading on a line of a file. -/
def exportHeading (env : Environment) (file : Text) (line : Int) (preamble output : Option Text)
    (save : Bool) : Run Unit := do
  let p := Path.ofText file
  let config ← loadConfig env p.parent
  let document ← loadDocument config p
  let o := Outline.ofHeadings (Heading.ofDocument document)
  match o.findByLine? (line - 1) with
  | none =>
    throw (misuse ("No heading at line " ++ toString line ++ " of " ++ String.ofList file))
  | some n =>
    let t := TaggedOutline.exportBlock document o.ordered n (← preambleText preamble)
    match pathGiven output with
    | some output => emit t (some output)
    | none =>
      if save then
        let beside := exportPath p n
        emit t (some beside)
        echoLine ("Wrote ".toList ++ beside.text)
      else emit t none

/-- The documents of some names. -/
def loadDocuments (config : Config) (uris : List Text) : Run (Table Text Document) :=
  uris.mapM fun uri => return (uri, ← loadDocument config (Path.ofText uri))

/-- Gathers the blocks under a tag into one document. -/
def gatherTagged (env : Environment) (tag root : Text) (title output : Option Text) :
    Run Unit := do
  let tag := bareTag tag
  let w ← openWorkspace env (Path.ofText root)
  let headings := w.index.under tag
  if headings = [] then
    throw (failure ("No headings tagged #" ++ String.ofList tag ++ " under " ++
      String.ofList root))
  let documents ← loadDocuments w.config (Text.distinct (headings.map (·.uri)))
  let t ← orStop (fun e => failure e.message) (gatherBlocks documents headings title)
  emit t (pathGiven output)

/-- Renames a tag in one file. -/
def renameIn (old new : Text) (w : Workspace) (uri : Text) : Run Workspace := do
  let p := Path.ofText uri
  let document ← loadDocument w.config p
  let renamed ← orStop (fun e => misuse e.message) (TaggedOutline.renameTag document old new)
  if renamed ≠ document.text then
    setDisk (← orStop fileStop ((← disk).save p renamed))
  let (_, w) ← orStop .fault (w.updateFile (← disk) p)
  takeLog w

/-- Renames a tag in all documents of a workspace. -/
def renameEverywhere (env : Environment) (old new root : Text) : Run Unit := do
  let name ← orStop (fun e => misuse e.message) (tagName new)
  let w ← openWorkspace env (Path.ofText root)
  let uris := Text.sort (Text.distinct ((w.index.under old).map (·.uri)))
  let _ ← uris.foldlM (renameIn old name) w
  echoLine ("Renamed #".toList ++ old ++ " to #".toList ++ name ++ " in ".toList ++
    Text.ofNat uris.length ++ " file(s)".toList)

/-- Watches a workspace until it is interrupted. -/
def watchWorkspace (env : Environment) (root : Text) : Run Unit := do
  let w ← openWorkspace env (Path.ofText root)
  echoLine (Text.ofNat w.index.uris.length ++ " files, ".toList ++ Text.ofNat w.tags.length ++
    " tags".toList)
  let _ ← takeLog (← orStop .fault (w.startWatching (← disk)))

/-- Runs the command that is called. -/
def perform (env : Environment) : Call → Run Unit
  | .outline file => showOutline env file
  | .tags root => listTags env root
  | .blocks tag root => listHeadings env tag root
  | .exportBlock file line preamble output save => exportHeading env file line preamble output save
  | .gather tag root title output => gatherTagged env tag root title output
  | .renameTag old new root => renameEverywhere env old new root
  | .watch root => watchWorkspace env root

end TaggedOutline.Command
