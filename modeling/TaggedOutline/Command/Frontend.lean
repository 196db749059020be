import TaggedOutline.Command.Run

/-!
# The program

The program is its commands behind a library for command lines (`Frontend`). The library reads the
command line and either calls a command with what it has read or ends the program itself: with an
answer, with a complaint or with an exception that it lets through. It also shows what commands echo
and tells the user why a command refuses. What it does in detail is not laid down here.

What a frontend shows and tells goes to streams that take any text.
-/

namespace TaggedOutline

open Command

/-- How the program ends, and what is written at the end to its output and for its errors. -/
structure Ending where
  exitCode : Nat
  output : Text := []
  errors : Text := []
  deriving DecidableEq, Repr

/-- What a library makes of a command line. -/
inductive Answer
  /-- It calls a command. All log entries are shown if `verbose` is asked for. -/
  | call (verbose : Bool) (call : Call)
  | ended (ending : Ending)
  /-- An exception of its own escapes. -/
  | raised (e : FileError)

/-- A library for command lines. -/
structure Frontend where
  /-- What it makes of the words of a command line. Paths among them are looked up on the disk. -/
  read : Disk → List Text → Answer
  /-- What it writes to the output for a text that is echoed. -/
  shown : Text → Text
  /-- How it ends the program for a command that refuses. -/
  refuse : Command → Refusal → Ending

/-- What becomes of a command line. -/
structure Outcome where
  exitCode : Nat
  output : Text
  /-- Log entries and last words. -/
  errors : Text
  disk : Disk
  /-- The exception that ended the program, if nothing accounts for it. -/
  fault : Option FileError := none

/-- A log entry on a line of its own. -/
def LogEntry.line (e : LogEntry) : Text :=
  ("[" ++ e.level.name ++ "] " ++ e.source.name ++ ": " ++ e.message ++ "\n").toList

/-- The log entries that are shown: without `verbose`, warnings and errors only. -/
def shownLog (verbose : Bool) (log : List LogEntry) : Text :=
  (log.filter fun e => verbose || e.level ≠ .info).flatMap LogEntry.line

namespace Frontend

/-- The code that the program ends with because of an exception. -/
def faultCode : Nat := 1

/-- How a command ends the program. -/
def ending (s : Frontend) (c : Command) : Except Stop Unit → Ending
  | .ok () => { exitCode := 0 }
  | .error (.refused r) => s.refuse c r
  | .error (.fault _) => { exitCode := faultCode }

/-- The fault that a command ends with. -/
def faultOf : Except Stop Unit → Option FileError
  | .error (.fault e) => some e
  | _ => none

/-- What becomes of a call. -/
def carryOut (s : Frontend) (env : Environment) (d : Disk) (verbose : Bool) (call : Call) :
    Outcome :=
  let (result, console) := (perform env call).run.run { disk := d }
  let ending := s.ending call.command result
  { exitCode := ending.exitCode
    output := console.echoed.flatMap s.shown ++ ending.output
    errors := shownLog verbose console.log ++ ending.errors
    disk := console.disk
    fault := faultOf result }

/-- What becomes of a command line. -/
def run (s : Frontend) (env : Environment) (d : Disk) (args : List Text) : Outcome :=
  match s.read d args with
  | .call verbose call => s.carryOut env d verbose call
  | .ended e => { exitCode := e.exitCode, output := e.output, errors := e.errors, disk := d }
  | .raised e => { exitCode := faultCode, output := [], errors := [], disk := d, fault := some e }

end Frontend

end TaggedOutline
