import TaggedOutline.Command.Frontend
import TaggedOutline.Frontend.Help
import TaggedOutline.Frontend.Plain
import TaggedOutline.Frontend.Value

/-!
# The standard frontend

A frontend that reads switches and words in the usual way, answers questions for help and for the
version, and checks what a command is given before it calls the command. Its streams are no
terminals, so it writes no control sequences.
-/

namespace TaggedOutline.Frontend

open Command (Refusal advice commonSwitches ofName?)

/-! ## Endings -/

/-- The command, or the program, is not called as it should be. -/
def misused (c : Option Command) (message : String) : Ending :=
  { exitCode := 2, errors := plain (advice c ++ "Error: " ++ message ++ "\n").toList }

/-- A command line cannot be read. -/
def unread (c : Option Command) (e : LineError) : Ending :=
  match e with
  | .unknownSwitch .. => misused c e.message
  | _ => { exitCode := 2, errors := plain ("Error: " ++ e.message ++ "\n").toList }

def helped (c : Option Command) : Ending := { exitCode := 0, output := helpPage c }

/-- No command was named at all. -/
def nothingAsked : Ending := { exitCode := 2, errors := plain (helpPage none) }

def refused (c : Command) : Refusal → Ending
  | .misuse message => misused (some c) ("Invalid value: " ++ message)
  | .failure message => { exitCode := 1, errors := plain ("Error: " ++ message ++ "\n").toList }

/-! ## Answers -/

/-- The call of a command with a line that was checked. -/
def callOf (d : Disk) (c : Command) (l : Line) : Call :=
  let root := (rootPath d (l.parameter c .root)).text
  match c with
  | .outline => .outline (l.parameter c .file)
  | .tags => .tags root
  | .blocks => .blocks (l.parameter c .tag) root
  | .exportBlock =>
    let line := (Text.toInt? (l.parameter c .line)).getD 1
    .exportBlock (l.parameter c .file) line (l.value? .preamble) (l.value? .output) (l.has .save)
  | .gather => .gather (l.parameter c .tag) root (l.value? .title) (l.value? .output)
  | .renameTag => .renameTag (l.parameter c .oldName) (l.parameter c .newName) root
  | .watch => .watch root

/-- What is made of the line that a command is given. -/
def answerTo (d : Disk) (verbose : Bool) (c : Command) (l : Line) : Answer :=
  if l.has .help then .ended (helped (some c))
  else
    match l.complaint? d c with
    | some (.wrong message) => .ended (misused (some c) message)
    | some (.fault e) => .raised e
    | none => .call verbose (callOf d c l)

/-- The answer to a line that asks for the version or for help; what is asked for first counts. -/
def question? (common : Line) : Option Answer :=
  match common.switches.find? fun s => s.1 = .version ∨ s.1 = .help with
  | some (.version, _) => some (.ended { exitCode := 0, output := versionLine })
  | some _ => some (.ended (helped none))
  | none => none

/-- Finds the command that a line asks for. A switch in the place of a command, after two hyphens, is
read once more. -/
def dispatch (d : Disk) (common : Line) : Answer :=
  match common.words with
  | [] => .ended (misused none "Missing command.")
  | name :: rest =>
    match ofName? name with
    | some c =>
      match Line.read c.switches true rest with
      | .ok l => answerTo d (common.has .verbose) c l
      | .error e => .ended (unread (some c) e)
    | none =>
      match Line.read commonSwitches false common.words with
      | .ok again =>
        (question? again).getD (.ended (misused none ("No such command " ++ quotedName name ++ ".")))
      | .error e => .ended (unread none e)

/-- What is made of a command line. -/
def answerOf (d : Disk) (args : List Text) : Answer :=
  match Line.read commonSwitches false args with
  | .error e => .ended (unread none e)
  | .ok common =>
    if args = [] then .ended nothingAsked else (question? common).getD (dispatch d common)

/-- The frontend. -/
def standard : Frontend where
  read := answerOf
  shown := plain
  refuse := refused

end TaggedOutline.Frontend
