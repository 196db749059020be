import TaggedOutline.Frontend.Declaration
import TaggedOutline.Frontend.Fill

/-!
# Help

The page of a command says how it is called, what it does and what its switches are for. The page of
the program lists the commands too, each with the start of what it does.
-/

namespace TaggedOutline

/-- What a switch is for. -/
def Switch.purpose : Switch → String
  | version => "Show the version and exit."
  | verbose => "Log progress to stderr"
  | help => "Show this message and exit."
  | preamble => "File whose content is placed before the exported block"
  | output => "Write to a file instead of stdout"
  | save => "Write next to FILEPATH, named after the file and the heading"
  | title => "Title heading placed before the gathered blocks"
  | interval => "Polling interval  [default: 1.0]"

/-- What the value of a switch is called. -/
def Switch.valueName? : Switch → Option String
  | preamble | output => some "FILE"
  | title => some "TEXT"
  | interval => some "FLOAT"
  | version | verbose | help | save => none

/-- What the program does, in paragraphs. -/
def Frontend.programPurpose : List String :=
  ["Inspect Markdown and Typst heading outlines and the tags attached to them.",
    "Tags are written in a trailing comment on the heading line, for example \x60\x60## Intro " ++
      "<!-- #todo :: check numbers :: -->\x60\x60 or \x60\x60= Intro // #todo\x60\x60."]

/-- What a command does, in one sentence. -/
def Command.purpose : Command → String
  | outline => "Print the heading tree of FILEPATH."
  | tags => "List every tag used or defined under ROOT."
  | blocks => "List the headings tagged with TAG under ROOT."
  | exportBlock => "Export the heading block starting at LINE (1-based) of FILEPATH."
  | gather => "Gather every heading block tagged with TAG under ROOT into one document."
  | renameTag => "Rename OLD_NAME to NEW_NAME in every document under ROOT."
  | watch => "Keep the tag index of ROOT current and report changes."

/-- What there is to know of a command besides, in paragraphs. -/
def Command.remarks : Command → List String
  | exportBlock =>
    ["With --save and no --output, the block of \x60## Results\x60 in \x60paper.md\x60 is " ++
      "written to \x60paper-results.md\x60."]
  | gather =>
    ["Each block keeps its ancestor headings, and the \x60#import\x60, \x60#set\x60 and " ++
      "\x60#show\x60 lines of Typst sources are placed at the top."]
  | outline | tags | blocks | renameTag | watch => []

/-! ## Pages -/

namespace Frontend

open Command (programName usage commonSwitches)

/-- The width of a page. -/
def pageWidth : Nat := 78

/-- A line, set in from the margin. -/
def indented (depth : Nat) (line : Text) : Text := List.replicate depth ' ' ++ line ++ ['\n']

/-- A paragraph, after an empty line. -/
def paragraph (t : String) : Text :=
  '\n' :: (fill (pageWidth - 2) t.toList).flatMap (indented 2)

/-- A term and beside it, from a column on, its explanation. -/
def explained (column : Nat) (term explanation : Text) : Text :=
  match fill (pageWidth - column) explanation with
  | [] => indented 2 term
  | line :: lines =>
    indented 2 (term ++ List.replicate (column - 2 - term.length) ' ' ++ line) ++
      lines.flatMap (indented column)

/-- A title, after an empty line, and under it some terms with their explanations. -/
def glossary (title : String) (terms : List (Text × Text)) : Text :=
  let column := terms.foldl (fun n t => max n t.1.length) 0 + 4
  '\n' :: indented 0 title.toList ++ terms.flatMap fun t => explained column t.1 t.2

/-- How a list of switches shows a switch. -/
def switchTerm (s : Switch) : Text :=
  let value := match s.valueName? with
    | none => ""
    | some name => " " ++ name
  (String.intercalate ", " s.forms ++ value).toList

/-- The section on the switches. -/
def switchSection (switches : List Switch) : Text :=
  glossary "Options:" (switches.map fun s => (switchTerm s, s.purpose.toList))

/-- The section on the commands, each with what it does in one line. -/
def commandSection : Text :=
  let longest := Command.all.foldl (fun n c => max n c.name.length) 0
  glossary "Commands:" (Command.all.map fun c =>
    (c.name.toList, brief (pageWidth - 6 - longest) c.purpose.toList))

/-- The page of a command, or of the program. -/
def helpPage : Option Command → Text
  | none =>
    (usage none).toList ++ programPurpose.flatMap paragraph ++ switchSection commonSwitches ++
      commandSection
  | some c =>
    (usage (some c)).toList ++ (c.purpose :: c.remarks).flatMap paragraph ++
      switchSection c.switches

/-- The version of the program. -/
def programVersion : String := "0.1.0"

/-- What the program says of its version. -/
def versionLine : Text := (programName ++ ", version " ++ programVersion ++ "\n").toList

end Frontend

end TaggedOutline
