import TaggedOutline.Config.Basic
import TaggedOutline.Disk.File
import TaggedOutline.Toml.Document

/-!
# Looking for settings

Settings are kept in a table of a TOML file. The directories from a path up to the top are searched
for such a table, and the first one that is found holds all settings. A file that cannot be read or
is no TOML is passed over; a table that is found but is wrong is an error.
-/

namespace TaggedOutline

/-- Why there is no configuration. -/
inductive LoadError
  | settings (e : ConfigError)
  | path (e : FileError)
  | tooManyDigits (count : Nat)

def LoadError.message : LoadError → String
  | settings e => e.message
  | path e => e.message
  | tooManyDigits count =>
    "Exceeds the limit (" ++ toString Text.digitLimit ++
      " digits) for integer string conversion: value has " ++ toString count ++
      " digits; use sys.set_int_max_str_digits() to increase the limit"

namespace Settings

/-- The files of a directory that may hold settings, each with the paths of the tables that may. -/
def sources : List (Text × List (List Text)) :=
  let tool := ["tool".toList, "heading-tags".toList]
  [ ("pyproject.toml".toList, [tool]),
    (".heading-tags.toml".toList, [["heading-tags".toList], tool]) ]

/-- The table of a TOML file, if values nest no deeper in it than can be read; none if there is no such
file. -/
def tableOfFile (nesting : Nat) (d : Disk) (file : Path) : Except LoadError (Option Value) := do
  if ¬ (← (d.leadsTo file Entry.isFile).mapError .path) then return none
  match d.readLines file with
  | .error _ => return none
  | .ok t =>
    match Toml.read nesting t with
    | .ok entries => return some (.table entries)
    | .error .invalid => return none
    | .error (.tooManyDigits count) => throw (.tooManyDigits count)
    | .error .tooDeep => throw (.path .tooDeep)

/-- The settings in the table at a path of keys of a file. -/
def ofFound (file : Path) (keys : List Text) (found : Value) : Except ConfigError Settings :=
  let place := "\x60[".toList ++ Text.joinWith ['.'] keys ++ "]\x60 in ".toList ++ file.text
  match found with
  | .table entries =>
    match (Table.keys entries).filter fun k => (Setting.ofName? k).isNone with
    | [] => ((ofTable entries).mapError .unknownSetting).bind normalize
    | unknown => .error (.unsupportedKeys (Text.sort unknown) place)
  | _ => .error (.notTable place)

/-- The settings of a file, if it has a table of them. -/
def ofFile? (nesting : Nat) (d : Disk) (file : Path) (tables : List (List Text)) :
    Except LoadError (Option Settings) := do
  let v ← tableOfFile nesting d file
  let found := tables.findSome? fun keys =>
    (v.bind (·.lookup? keys)).map fun found => (keys, found)
  match found with
  | some (keys, found) => ((ofFound file keys found).mapError .settings).map some
  | none => return none

/-- The settings that the first of some files holds, and the defaults if none does. -/
def ofFiles (nesting : Nat) (d : Disk) :
    List (Path × List (List Text)) → Except LoadError Settings
  | [] => .ok {}
  | (file, tables) :: rest => do
    match ← ofFile? nesting d file tables with
    | some s => return s
    | none => ofFiles nesting d rest

/-- The files that may hold the settings of an absolute path, the nearest first. -/
def candidates (p : Path) : List (Path × List (List Text)) :=
  (List.range (p.names.length + 1)).reverse.flatMap fun k =>
    sources.map fun (name, tables) => ({ p with names := p.names.take k ++ [name] }, tables)

/-- The settings for a path. -/
def load (nesting : Nat) (d : Disk) (search : Path) : Except LoadError Settings :=
  ((d.resolve search).mapError .path).bind fun p => ofFiles nesting d (candidates p)

end Settings

/-- The configuration for a path, with some settings given beforehand. -/
def Config.load (nesting : Nat) (d : Disk) (search : Path) (overrides : List (Text × Value)) :
    Except LoadError Config := do
  let found ← Settings.load nesting d search
  let changed ← (found.override? overrides).mapError fun name => .settings (.unknownSetting name)
  ((changed.getD found).check).mapError .settings

end TaggedOutline
