import TaggedOutline.Disk.Error
import TaggedOutline.Disk.Basic
import TaggedOutline.Workspace.Log

/-!
# Running a command

A command works on a disk, echoes texts and logs what happens on the way. It may stop before it is
through: because it refuses to do its work, which is for the user to know, or because of a fault that
it does not account for.
-/

namespace TaggedOutline.Command

/-- What a command has done so far. -/
structure Console where
  disk : Disk
  /-- The texts that were echoed, in turn. -/
  echoed : List Text := []
  log : List LogEntry := []

/-- What a command tells the user when it refuses to do its work. -/
inductive Refusal
  /-- A value that it was called with is no good. -/
  | misuse (message : String)
  /-- It cannot do what it was asked for. -/
  | failure (message : String)
  deriving DecidableEq, Repr

/-- Why a command stops before it is through. -/
inductive Stop
  | refused (r : Refusal)
  /-- A fault that no command accounts for. -/
  | fault (e : FileError)

/-- A run of a command. -/
abbrev Run := ExceptT Stop (StateM Console)

namespace Run

def disk : Run Disk := return (← get).disk

def setDisk (d : Disk) : Run Unit := modify fun c => { c with disk := d }

/-- Echoes a text. -/
def echo (t : Text) : Run Unit := modify fun c => { c with echoed := c.echoed ++ [t] }

/-- Echoes a text as a line. -/
def echoLine (t : Text) : Run Unit := echo (t ++ ['\n'])

def note (entries : List LogEntry) : Run Unit := modify fun c => { c with log := c.log ++ entries }

/-- The value, or a stop for the reason why there is none. -/
def orStop {ε α : Type} (stop : ε → Stop) : Except ε α → Run α
  | .ok a => pure a
  | .error e => throw (stop e)

end Run

/-- The command refuses since a value is no good. -/
def misuse (message : String) : Stop := .refused (.misuse message)

/-- The command refuses since it cannot do what it was asked for. -/
def failure (message : String) : Stop := .refused (.failure message)

end TaggedOutline.Command
