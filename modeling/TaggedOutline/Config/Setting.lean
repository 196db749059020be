import TaggedOutline.Config.Value
import TaggedOutline.Text.Lowercase

/-!
# Settings

The eight settings, their names and their defaults. `Settings` holds a value of any type for each;
`Settings.ofTable` reads them from a table of names and `Settings.override` replaces some of them.
-/

namespace TaggedOutline

/-- The settings of an index. -/
inductive Setting
  | extensions
  | excludeDirs
  | remarkTag
  | maxPinned
  | defaultIcon
  | defaultColor
  | tags
  | maxFileSize
  deriving DecidableEq, Repr

namespace Setting

def all : List Setting :=
  [extensions, excludeDirs, remarkTag, maxPinned, defaultIcon, defaultColor, tags, maxFileSize]

/-- The name a setting is written under. -/
def name : Setting → Text
  | extensions => "extensions".toList
  | excludeDirs => "exclude_dirs".toList
  | remarkTag => "remark_tag".toList
  | maxPinned => "max_pinned".toList
  | defaultIcon => "default_icon".toList
  | defaultColor => "default_color".toList
  | tags => "tags".toList
  | maxFileSize => "max_file_size".toList

/-- The setting with a name. -/
def ofName? (t : Text) : Option Setting := all.find? (·.name = t)

/-- The largest file that is read unless a setting says otherwise, in bytes. -/
def defaultMaxFileSize : Int := 10 * 1024 * 1024

/-- The value of a setting that is not given. -/
def default : Setting → Value
  | extensions => .list [.text ".md".toList, .text ".markdown".toList, .text ".typ".toList]
  | excludeDirs =>
    .list [.text ".git".toList, .text "node_modules".toList, .text ".venv".toList,
      .text "__pycache__".toList]
  | remarkTag => .text "remark".toList
  | maxPinned => .integer 6
  | defaultIcon => .text "tag".toList
  | defaultColor => .text "charts.blue".toList
  | tags => .list []
  | maxFileSize => .integer defaultMaxFileSize

end Setting

/-- A value for every setting. -/
structure Settings where
  value : Setting → Value := Setting.default

namespace Settings

/-- The settings with another value for one of them. -/
def set (s : Settings) (k : Setting) (v : Value) : Settings :=
  ⟨fun k' => if k' = k then v else s.value k'⟩

/-- The settings with the values of a table; its first name that is not one of a setting is the
error. -/
def update (s : Settings) : List (Text × Value) → Except Text Settings
  | [] => .ok s
  | (name, v) :: r =>
    match Setting.ofName? name with
    | some k => update (s.set k v) r
    | none => .error name

/-- The settings of a table, with defaults for the others. -/
def ofTable (entries : List (Text × Value)) : Except Text Settings := update {} entries

/-- The settings with the values of a table that are not null; nothing if all of them are. -/
def override? (s : Settings) (entries : List (Text × Value)) : Except Text (Option Settings) :=
  match entries.filter fun (_, v) => ¬ v.isNull with
  | [] => .ok none
  | changes => (s.update changes).map some

end Settings

end TaggedOutline
