import TaggedOutline.Config.Setting
import TaggedOutline.Tag.Name

/-!
# Checked configurations

A configuration is a set of settings of the right types. `Settings.normalize` gives the file
suffixes their usual form, `Settings.check` refuses values that make no sense, and `Config.read?`
only asks for the right types.
-/

namespace TaggedOutline

/-- The settings of an index, by type. -/
structure Config where
  extensions : List Text
  excludeDirs : List Text
  remarkTag : Text
  maxPinned : Int
  defaultIcon : Text
  defaultColor : Text
  tags : List Value
  maxFileSize : Int

/-- Why settings are refused. -/
inductive ConfigError
  /-- A name that no setting has was given. -/
  | unknownSetting (name : Text)
  | notTable (place : Text)
  | unsupportedKeys (keys : List Text) (place : Text)
  | badExtensions
  | noExtensions
  | notInteger (key : Setting)
  | negativePinned
  | sizeNotPositive
  | badExcludeDirs
  | emptyText (key : Setting)
  | blankInRemarkTag
  | tagsNotList
  | tagWithoutName
  | unsupportedTagKeys (keys : List Text)
  | badTagName (error : TagNameError)
  | tagTextExpected (key name : Text)
  | tagPinnedNotBoolean (name : Text)

namespace ConfigError

/-- A name as messages show it. -/
def code (t : Text) : String := "\x60" ++ String.ofList t ++ "\x60"

def commas (ts : List Text) : String := String.ofList (Text.joinWith [',', ' '] ts)

def message : ConfigError → String
  | unknownSetting name => "unexpected setting " ++ code name
  | notTable place => String.ofList place ++ " must be a table"
  | unsupportedKeys keys place => "Unsupported keys " ++ commas keys ++ " in " ++ String.ofList place
  | badExtensions => "\x60extensions\x60 must be a list of file suffixes"
  | noExtensions => "\x60extensions\x60 must list at least one file suffix"
  | notInteger key => code key.name ++ " must be an integer"
  | negativePinned => "\x60max_pinned\x60 must be a non-negative integer"
  | sizeNotPositive => "\x60max_file_size\x60 must be a positive integer"
  | badExcludeDirs => "\x60exclude_dirs\x60 must be a list of directory names"
  | emptyText key => code key.name ++ " must not be empty"
  | blankInRemarkTag => "\x60remark_tag\x60 must not contain whitespace"
  | tagsNotList => "\x60tags\x60 must be a list of tag tables"
  | tagWithoutName => "every entry in \x60tags\x60 needs a \x60name\x60"
  | unsupportedTagKeys keys => "unsupported tag keys: " ++ commas keys
  | badTagName error => "invalid tag definition: " ++ error.message
  | tagTextExpected key name => code key ++ " of tag " ++ code name ++ " must be a string"
  | tagPinnedNotBoolean name => "\x60pinned\x60 of tag " ++ code name ++ " must be true or false"

end ConfigError

/-! ## File suffixes -/

/-- A file suffix in lower case and with its dot. -/
def normalSuffix (t : Text) : Text :=
  let bare := Text.trim t
  if bare.head? = some '.' then Text.lower bare else '.' :: Text.lower bare

/-- The file suffixes that a value lists; a text stands for a list of one. None may be blank. -/
def suffixesOf? (v : Value) : Option (List Text) :=
  let listed := match v with
    | .text t => some [t]
    | v => v.texts?
  listed.bind fun ts => if ts.any Text.isBlankText then none else some (ts.map normalSuffix)

/-- The settings with the file suffixes in their usual form. -/
def Settings.normalize (s : Settings) : Except ConfigError Settings :=
  match suffixesOf? (s.value .extensions) with
  | some suffixes => .ok (s.set .extensions (.list (suffixes.map .text)))
  | none => .error .badExtensions

/-! ## Checks -/

/-- The whole number that a setting must be. -/
def Settings.integer (s : Settings) (key : Setting) : Except ConfigError Int :=
  match s.value key with
  | .integer n => .ok n
  | _ => .error (.notInteger key)

/-- The text that a setting must be, which is not blank. -/
def Settings.text (s : Settings) (key : Setting) : Except ConfigError Text :=
  match s.value key with
  | .text t => if Text.isBlankText t then .error (.emptyText key) else .ok t
  | _ => .error (.emptyText key)

/-- The keys of a tag table. -/
def tagKeys : List Text := ["name".toList, "color".toList, "icon".toList, "pinned".toList]

/-- Refuses a value under `key` of a tag table that is not a text. -/
def checkTagText (entries : List (Text × Value)) (name : Text) (key : Text) :
    Except ConfigError Unit :=
  match Table.get? entries key with
  | none | some (.text _) => .ok ()
  | some _ => .error (.tagTextExpected key name)

/-- Refuses a value that is no tag table. -/
def checkTagEntry : Value → Except ConfigError Unit
  | .table entries =>
    match Table.get? entries "name".toList with
    | some (.text name) => do
      let unknown := (Table.keys entries).filter (¬ Text.isIn · tagKeys)
      if unknown ≠ [] then throw (.unsupportedTagKeys (Text.sort unknown))
      let _ ← (tagName name).mapError .badTagName
      checkTagText entries name "color".toList
      checkTagText entries name "icon".toList
      match Table.get? entries "pinned".toList with
      | none | some (.boolean _) => .ok ()
      | some _ => .error (.tagPinnedNotBoolean name)
    | _ => .error .tagWithoutName
  | _ => .error .tagWithoutName

/-- The configuration that settings make up. The first setting that makes no sense is the error. -/
def Settings.check (given : Settings) : Except ConfigError Config := do
  let s ← given.normalize
  let maxPinned ← s.integer .maxPinned
  let maxFileSize ← s.integer .maxFileSize
  if maxPinned < 0 then throw .negativePinned
  if maxFileSize ≤ 0 then throw .sizeNotPositive
  let extensions := ((s.value .extensions).texts?).getD []
  if extensions = [] then throw .noExtensions
  let excludeDirs ← match (s.value .excludeDirs).texts? with
    | some names => .ok names
    | none => .error .badExcludeDirs
  let remarkTag ← s.text .remarkTag
  let defaultIcon ← s.text .defaultIcon
  let defaultColor ← s.text .defaultColor
  if remarkTag.any Text.isBlank then throw .blankInRemarkTag
  let tags ← match s.value .tags with
    | .list vs => .ok vs
    | _ => .error .tagsNotList
  tags.forM checkTagEntry
  return {
    extensions := extensions
    excludeDirs := excludeDirs
    remarkTag := remarkTag
    maxPinned := maxPinned
    defaultIcon := defaultIcon
    defaultColor := defaultColor
    tags := tags
    maxFileSize := maxFileSize }

namespace Config

/-- The configuration in settings of the right types, which need not make sense. -/
def read? (s : Settings) : Option Config := do
  return {
    extensions := ← (s.value .extensions).texts?
    excludeDirs := ← (s.value .excludeDirs).texts?
    remarkTag := ← (s.value .remarkTag).text?
    maxPinned := ← (s.value .maxPinned).integer?
    defaultIcon := ← (s.value .defaultIcon).text?
    defaultColor := ← (s.value .defaultColor).text?
    tags := ← (s.value .tags).list?
    maxFileSize := ← (s.value .maxFileSize).integer? }

/-- The settings of a configuration. -/
def toSettings (c : Config) : Settings where
  value
    | .extensions => .list (c.extensions.map .text)
    | .excludeDirs => .list (c.excludeDirs.map .text)
    | .remarkTag => .text c.remarkTag
    | .maxPinned => .integer c.maxPinned
    | .defaultIcon => .text c.defaultIcon
    | .defaultColor => .text c.defaultColor
    | .tags => .list c.tags
    | .maxFileSize => .integer c.maxFileSize

end Config

end TaggedOutline
