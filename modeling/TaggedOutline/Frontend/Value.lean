import TaggedOutline.Disk.Error
import TaggedOutline.Frontend.Line
import TaggedOutline.Text.Number

/-!
# Checking what a command is given

Before a command is called, the switches are checked in the order in which they were first given,
then the parameters by their places, and then whether there are words too many. A file must be there
and be no directory, a root must be a directory, and numbers must be numbers. That somebody may read
a file is not checked, since whatever is on a disk may be read.
-/

namespace TaggedOutline

namespace Frontend

/-- The absolute path of a root, links followed. -/
def rootPath (d : Disk) (t : Text) : Path := d.realPath t

def quotedName (t : Text) : String := String.ofList (Text.quoted t)

/-- What is wrong with a command line. -/
inductive Complaint
  | wrong (message : String)
  /-- There cannot be such a path. -/
  | fault (e : FileError)

/-- The complaint about a switch or a parameter that is given a wrong value. -/
def Complaint.about (hint message : String) : Complaint :=
  .wrong ("Invalid value for " ++ hint ++ ": " ++ message)

end Frontend

namespace ValueKind

open Frontend (Complaint quotedName rootPath)

def isPath : ValueKind → Bool
  | existingFile | outputFile | existingDirectory => true
  | anything | lineNumber | decimal => false

/-- Why a value without null characters is not what it must be; nothing if it is. -/
def complaintOf (d : Disk) (t : Text) : ValueKind → Option String
  | anything => none
  | existingFile =>
    match d.lookup true t with
    | .error _ => some ("File " ++ quotedName t ++ " does not exist.")
    | .ok (_, .directory) => some ("File " ++ quotedName t ++ " is a directory.")
    | .ok _ => none
  | outputFile =>
    match d.lookup true t with
    | .ok (_, .directory) => some ("File " ++ quotedName t ++ " is a directory.")
    | _ => none
  | existingDirectory =>
    match d.lookup true (rootPath d t).text with
    | .error _ => some ("Directory " ++ quotedName t ++ " does not exist.")
    | .ok (_, .file _ _) => some ("Directory " ++ quotedName t ++ " is a file.")
    | .ok _ => none
  | lineNumber =>
    match Text.toInt? t with
    | none => some (quotedName t ++ " is not a valid integer range.")
    | some n => if n < 1 then some (toString n ++ " is not in the range x>=1.") else none
  | decimal => if Text.isDecimal t then none else some (quotedName t ++ " is not a valid float.")

/-- Why a value is not what it must be; nothing if it is. -/
def complaint? (d : Disk) (hint : String) (t : Text) (kind : ValueKind) : Option Complaint :=
  if kind.isPath ∧ t.contains '\x00' then some (.fault .nullInPath)
  else (kind.complaintOf d t).map (.about hint)

end ValueKind

namespace Frontend

/-- What is wrong with a switch. -/
def switchComplaint? (d : Disk) (l : Line) (s : Switch) : Option Complaint :=
  s.kind.complaint? d s.hint ((l.value? s).getD [])

/-- What is wrong with a parameter that may be given. -/
def parameterComplaint? (d : Disk) (p : Parameter) (given : Option Text) : Option Complaint :=
  match given with
  | none =>
    if p.isRequired then some (.wrong ("Missing argument " ++ p.hint ++ "."))
    else p.kind.complaint? d p.hint Parameter.defaultRoot
  | some t => p.kind.complaint? d p.hint t

/-- The words that no parameter is there for. -/
def extraComplaint? (words : List Text) : Option Complaint :=
  let listed := String.ofList (Text.unwords words)
  match words with
  | [] => none
  | [_] => some (.wrong ("Got unexpected extra argument (" ++ listed ++ ")"))
  | _ => some (.wrong ("Got unexpected extra arguments (" ++ listed ++ ")"))

/-- The first thing that is wrong with a command line. -/
def Line.complaint? (d : Disk) (c : Command) (l : Line) : Option Complaint :=
  let given := Text.distinct (l.switches.map Prod.fst)
  let places := c.parameters.zipIdx.map fun (p, k) => (p, l.words[k]?)
  (given.findSome? (switchComplaint? d l)).or
    ((places.findSome? fun (p, t) => parameterComplaint? d p t).or
      (extraComplaint? (l.words.drop c.parameters.length)))

/-- The value of a parameter. -/
def Line.parameter (c : Command) (l : Line) (p : Parameter) : Text :=
  (l.words[c.parameters.idxOf p]?).getD Parameter.defaultRoot

end Frontend

end TaggedOutline
