import TaggedOutline.Command.Basic

/-!
# What the commands declare

The switches that each command takes, the values that it is given by place, and what these must be.
The program itself takes switches of its own before the name of a command.
-/

namespace TaggedOutline

/-- What is written with hyphens before it. -/
inductive Switch
  | version
  | verbose
  | help
  | preamble
  | output
  | save
  | title
  | interval
  deriving DecidableEq, Repr

/-- What is given by its place. -/
inductive Parameter
  | file
  | line
  | tag
  | oldName
  | newName
  | root
  deriving DecidableEq, Repr

/-- What a value of a switch or a parameter must be. -/
inductive ValueKind
  | anything
  | existingFile
  | outputFile
  | existingDirectory
  | lineNumber
  | decimal
  deriving DecidableEq, Repr

namespace Switch

/-- The written forms: a hyphen and a letter, or two hyphens and a word. -/
def forms : Switch → List String
  | version => ["--version"]
  | verbose => ["-v", "--verbose"]
  | help => ["--help"]
  | preamble => ["--preamble"]
  | output => ["-o", "--output"]
  | save => ["--save"]
  | title => ["--title"]
  | interval => ["--interval"]

/-- Whether a value follows. -/
def takesValue : Switch → Bool
  | preamble | output | title | interval => true
  | version | verbose | help | save => false

def kind : Switch → ValueKind
  | preamble => .existingFile
  | output => .outputFile
  | interval => .decimal
  | version | verbose | help | save | title => .anything

def isShortForm (form : String) : Bool := form.length == 2

/-- The forms of one letter. -/
def shortForms (s : Switch) : List Text := (s.forms.filter isShortForm).map String.toList

/-- The forms of a word. -/
def longForms (s : Switch) : List Text := (s.forms.filter (¬ isShortForm ·)).map String.toList

/-- How messages name a switch. -/
def hint (s : Switch) : String := String.intercalate " / " (s.forms.map fun f => "'" ++ f ++ "'")

end Switch

namespace Parameter

/-- Whether a command cannot do without it. -/
def isRequired : Parameter → Bool
  | root => false
  | file | line | tag | oldName | newName => true

def kind : Parameter → ValueKind
  | file => .existingFile
  | line => .lineNumber
  | root => .existingDirectory
  | tag | oldName | newName => .anything

/-- How usage lines and messages name a parameter. -/
def shown : Parameter → String
  | file => "FILEPATH"
  | line => "LINE"
  | tag => "TAG"
  | oldName => "OLD_NAME"
  | newName => "NEW_NAME"
  | root => "[ROOT]"

def hint (p : Parameter) : String := "'" ++ p.shown ++ "'"

/-- The root of a workspace that is not given. -/
def defaultRoot : Text := ['.']

end Parameter

namespace Command

/-- The command with a name. -/
def ofName? (t : Text) : Option Command := all.find? (·.name.toList = t)

/-- The switches of a command. -/
def switches : Command → List Switch
  | exportBlock => [.preamble, .output, .save, .help]
  | gather => [.title, .output, .help]
  | watch => [.interval, .help]
  | outline | tags | blocks | renameTag => [.help]

/-- The parameters of a command, in their order. -/
def parameters : Command → List Parameter
  | outline => [.file]
  | tags | watch => [.root]
  | blocks | gather => [.tag, .root]
  | exportBlock => [.file, .line]
  | renameTag => [.oldName, .newName, .root]

/-- The switches before the name of a command. -/
def commonSwitches : List Switch := [.version, .verbose, .help]

/-- The name of the program. -/
def programName : String := "heading-tags"

/-- The name of the program, and of the command if there is one. -/
def pathOf : Option Command → String
  | none => programName
  | some c => programName ++ " " ++ c.name

/-- How a command, or the program, is called. -/
def usage (c : Option Command) : String :=
  let rest := match c with
    | none => ["COMMAND", "[ARGS]..."]
    | some c => c.parameters.map Parameter.shown
  "Usage: " ++ String.intercalate " " (pathOf c :: "[OPTIONS]" :: rest) ++ "\n"

/-- How a command, or the program, is called and how to learn more. -/
def advice (c : Option Command) : String :=
  usage c ++ "Try '" ++ pathOf c ++ " --help' for help.\n\n"

end Command

end TaggedOutline
