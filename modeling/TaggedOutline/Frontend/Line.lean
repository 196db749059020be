import TaggedOutline.Frontend.Declaration
import TaggedOutline.Frontend.Similar

/-!
# Reading command lines

The words of a command line are read in turn. A word with a hyphen before it is a switch, or several
switches of one letter; the value of a switch is attached to it or is the next word. Two hyphens
alone end the switches, and all that follows is given by its place.
-/

namespace TaggedOutline.Frontend

/-- Why a command line cannot be read. -/
inductive LineError
  | unknownSwitch (form : Text) (suggestions : List Text)
  | valueMissing (form : Text)
  | valueGiven (form : Text)
  deriving DecidableEq, Repr

def LineError.message : LineError → String
  | unknownSwitch form suggestions =>
    let listed := String.ofList (Text.joinWith ", ".toList suggestions)
    let advice := match suggestions with
      | [] => ""
      | [_] => " Did you mean " ++ listed ++ "?"
      | _ => " (Possible options: " ++ listed ++ ")"
    "No such option: " ++ String.ofList form ++ advice
  | valueMissing form => "Option '" ++ String.ofList form ++ "' requires an argument."
  | valueGiven form => "Option '" ++ String.ofList form ++ "' does not take a value."

/-- What a command line gives: switches with their values, and words by their places. -/
structure Line where
  switches : List (Switch × Text) := []
  words : List Text := []
  deriving Repr

/-- How far a command line is read: what it gave so far, the switch that waits for its value with
its written form, and whether there are no more switches. -/
structure Reading where
  line : Line := {}
  waiting : Option (Switch × Text) := none
  ended : Bool := false
  deriving Repr

namespace Reading

/-- A switch was given with a value. -/
def give (r : Reading) (s : Switch) (value : Text) : Reading :=
  { r with
    line := { r.line with switches := r.line.switches ++ [(s, value)] }
    waiting := none }

/-- A word was given by its place. -/
def word (r : Reading) (t : Text) : Reading :=
  { r with line := { r.line with words := r.line.words ++ [t] } }

/-- Reads switches of one letter. The first that takes a value takes the rest for it. -/
def letters (accepted : List Switch) (r : Reading) : Text → Except LineError Reading
  | [] => .ok r
  | c :: rest =>
    let form := ['-', c]
    match accepted.find? (Text.isIn form ·.shortForms) with
    | none => .error (.unknownSwitch form [])
    | some s =>
      if ¬ s.takesValue then letters accepted (r.give s []) rest
      else if rest = [] then .ok { r with waiting := some (s, form) }
      else .ok (r.give s rest)

/-- Reads a word with a hyphen before it. -/
def hyphened (accepted : List Switch) (r : Reading) (arg : Text) : Except LineError Reading :=
  let (form, attached) := match Text.cutAt? (· == '=') arg with
    | some (form, value) => (form, some value)
    | none => (arg, none)
  match accepted.find? (Text.isIn form ·.longForms), attached with
  | some s, some value => if s.takesValue then .ok (r.give s value) else .error (.valueGiven form)
  | some s, none =>
    if s.takesValue then .ok { r with waiting := some (s, form) } else .ok (r.give s [])
  | none, _ =>
    if arg.take 2 = ['-', '-'] then
      .error (.unknownSwitch form (similarTo form (accepted.flatMap (·.longForms))))
    else letters accepted r (arg.drop 1)

/-- Reads one word. Unless switches are `mixed` with other words, the first other word ends them. -/
def step (accepted : List Switch) (mixed : Bool) (r : Reading) (arg : Text) :
    Except LineError Reading :=
  match r.waiting with
  | some (s, _) => .ok (r.give s arg)
  | none =>
    if r.ended then .ok (r.word arg)
    else if arg = ['-', '-'] then .ok { r with ended := true }
    else if arg.head? = some '-' ∧ arg ≠ ['-'] then hyphened accepted r arg
    else .ok { r.word arg with ended := ¬ mixed }

end Reading

/-- What the words of a command line give. -/
def Line.read (accepted : List Switch) (mixed : Bool) (args : List Text) :
    Except LineError Line := do
  let r ← args.foldlM (Reading.step accepted mixed) {}
  match r.waiting with
  | some (_, form) => throw (.valueMissing form)
  | none => return r.line

/-- The last value of a switch. -/
def Line.value? (l : Line) (s : Switch) : Option Text :=
  (l.switches.reverse.find? (·.1 = s)).map Prod.snd

def Line.has (l : Line) (s : Switch) : Bool := l.switches.any (·.1 = s)

end TaggedOutline.Frontend
