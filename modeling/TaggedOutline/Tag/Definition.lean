import TaggedOutline.Config.Value
import TaggedOutline.Tag.Name

/-!
# Tag definitions

A definition says how a tag is shown: its colour, its icon, and whether it is pinned. In a
configuration it is a table, in which only the name must be there.
-/

namespace TaggedOutline

/-- How a tag is shown. -/
structure Definition where
  name : Text
  color : Option Text := none
  icon : Option Text := none
  pinned : Bool := false
  deriving DecidableEq, Repr

/-- Why a table is no definition. -/
inductive DefinitionError
  | notTable
  | unknownKey (key : Text)
  | nameMissing
  | wrongType (key : Text)
  deriving DecidableEq, Repr

namespace Definition

/-- The keys of a definition. -/
def keys : List Text := ["name".toList, "color".toList, "icon".toList, "pinned".toList]

/-- The optional text under a key. -/
def textUnder (entries : List (Text × Value)) (key : Text) :
    Except DefinitionError (Option Text) :=
  match Table.get? entries key with
  | none | some .null => .ok none
  | some (.text t) => .ok (some t)
  | some _ => .error (.wrongType key)

/-- The definition that a table holds. -/
def ofTable (entries : List (Text × Value)) : Except DefinitionError Definition := do
  match (Table.keys entries).find? (¬ Text.isIn · keys) with
  | some key => .error (.unknownKey key)
  | none => pure ()
  let name ← match Table.get? entries "name".toList with
    | some (.text t) => .ok t
    | some _ => .error (.wrongType "name".toList)
    | none => .error .nameMissing
  let pinned ← match Table.get? entries "pinned".toList with
    | some (.boolean b) => .ok b
    | some _ => .error (.wrongType "pinned".toList)
    | none => .ok false
  return {
    name := name
    color := ← textUnder entries "color".toList
    icon := ← textUnder entries "icon".toList
    pinned := pinned }

/-- The definition that a value holds. -/
def ofValue : Value → Except DefinitionError Definition
  | .table entries => ofTable entries
  | _ => .error .notTable

/-- The table of a definition, without what is not set. -/
def toTable (d : Definition) : List (Text × Value) :=
  [("name".toList, .text d.name)] ++
  (d.color.map fun t => ("color".toList, Value.text t)).toList ++
  (d.icon.map fun t => ("icon".toList, Value.text t)).toList ++
  (if d.pinned then [("pinned".toList, .boolean true)] else [])

end Definition

end TaggedOutline
