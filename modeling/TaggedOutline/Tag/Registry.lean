import TaggedOutline.Tag.Definition

/-!
# The registry of tags

Definitions are kept under their names, in the order in which the names came in. A tag may be
defined without being used, and used without being defined.
-/

namespace TaggedOutline

/-- The definitions of tags, by name. -/
structure Registry where
  table : Table Text Definition := []

/-- Why a definition cannot be renamed. -/
inductive RegistryError
  | badName (error : TagNameError)
  | undefined (name : Text)
  deriving DecidableEq, Repr

def RegistryError.message : RegistryError → String
  | badName error => error.message
  | undefined name => String.ofList (Text.quoted name)

namespace Registry

/-- The registry of a list of definitions; of two with one name the later counts. -/
def ofList (ds : List Definition) : Registry := ⟨Table.ofList (ds.map fun d => (d.name, d))⟩

/-- The definitions that hold unless a configuration has its own. -/
def builtins : List Definition :=
  [ { name := "todo".toList, color := some "charts.orange".toList,
      icon := some "circle-large-outline".toList },
    { name := "review".toList, color := some "charts.yellow".toList, icon := some "eye".toList },
    { name := "highlight".toList, color := some "charts.blue".toList, icon := some "star".toList } ]

/-- The registry of configured tables, and of the built-in definitions whose names are not among
them. -/
def ofTables (tables : List Value) : Except DefinitionError Registry := do
  let ds ← tables.mapM Definition.ofValue
  return ofList (ds ++ builtins.filter fun b => ¬ ds.any (·.name = b.name))

def get? (r : Registry) (name : Text) : Option Definition := r.table.get? name

def has (r : Registry) (name : Text) : Bool := r.table.has name

def toList (r : Registry) : List Definition := r.table.values

def names (r : Registry) : List Text := r.table.keys

def size (r : Registry) : Nat := r.table.length

/-- The number of pinned definitions. -/
def pinnedCount (r : Registry) : Nat := r.toList.countP (·.pinned)

/-- Puts a definition under its name without the blanks around it. -/
def add (r : Registry) (d : Definition) : Except TagNameError (Definition × Registry) := do
  let name ← tagName d.name
  let stored := { d with name := name }
  return (stored, ⟨r.table.put name stored⟩)

/-- Puts the definition of `old` under a new name. -/
def rename (r : Registry) (old new : Text) : Except RegistryError (Definition × Registry) := do
  let name ← (tagName new).mapError .badName
  match r.get? old with
  | none => .error (.undefined old)
  | some d =>
    let renamed := { d with name := name }
    return (renamed, ⟨(r.table.erase old).put name renamed⟩)

/-- Drops the definition of a name, if there is one. -/
def remove (r : Registry) (name : Text) : Bool × Registry := (r.has name, ⟨r.table.erase name⟩)

/-- The tables that a configuration would hold. -/
def toTables (r : Registry) : List Value := r.toList.map fun d => .table d.toTable

end Registry

end TaggedOutline
