import TaggedOutline.Disk.Change
import TaggedOutline.Disk.Listing
import TaggedOutline.Frontend.Standard

/-!
# The program

The command line, the size limit and the home directories come from the system, and a listing of the
disk from standard input, as `find "$PWD" -printf '%y %m %p\t%l\n'` writes it. The contents of the
files are read from the disk, and files that a command changes are written back to it.
-/

open TaggedOutline

/-- The lines of a stream. -/
partial def readLines (input : IO.FS.Stream) (lines : List String) : IO (List String) := do
  let line ← input.getLine
  if line.isEmpty then return lines.reverse
  readLines input (line :: lines)

/-- Puts what a line of a listing says on a disk. -/
def putListed (d : Disk) (line : String) : IO Disk := do
  match Listed.ofLine? (Text.dropFinalFeeds line.toList) with
  | none => return d
  | some (.directory p) => return d.install p .directory
  | some (.link p target) => return d.install p (.link target)
  | some (.file mode p) =>
    let bytes ← IO.FS.readBinFile (String.ofList p.text)
    return d.install p (.file mode bytes.toList)

/-- Writes a changed file back. -/
def writeBack (place : Place) : Entry → IO Unit
  | .file _ bytes =>
    IO.FS.writeBinFile (String.ofList (Path.absolute place).text) (ByteArray.mk bytes.toArray)
  | _ => pure ()

/-- The user of a line of the table of accounts, and the home directory. -/
def account? (line : String) : Option (Text × Text) :=
  match Text.splitWhere (· == ':') line.toList with
  | [user, _, _, _, _, home, _] => some (user, home)
  | _ => none

/-- The home directories of the users that the system knows. -/
def readHomes : IO (Table Text Text) := do
  let own := (← IO.getEnv "HOME").map fun home => ([], home.toList)
  let lines ← IO.FS.lines "/etc/passwd"
  return own.toList ++ lines.toList.filterMap account?

/-- How deep the values of a settings file may lie inside of one another. -/
def nesting : Nat := 960

def main (args : List String) : IO UInt32 := do
  let base := Path.ofText ((← IO.getEnv "PWD").getD "/").toList
  let limit := (← IO.getEnv SizeLimit.variableName).map String.toList
  let lines ← readLines (← IO.getStdin) []
  let disk ← lines.foldlM putListed { base := base.names, homes := ← readHomes }
  let env : Command.Environment := { sizeLimit := limit, nesting := nesting }
  let outcome := Frontend.standard.run env disk (args.map String.toList)
  (outcome.disk.filesSince disk).forM fun (place, e) => writeBack place e
  IO.print (String.ofList outcome.output)
  IO.eprint (String.ofList outcome.errors)
  match outcome.fault with
  | some e => IO.eprintln e.message
  | none => pure ()
  return outcome.exitCode.toUInt32
