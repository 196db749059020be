import TaggedOutline.Config.Value

/-!
# Building tables

The statements of a TOML text build up a tree of tables. A header opens a table that no header
opened before, or appends a table to a list of them; a key with dots opens tables on its way, which
no header may open again. Values, with all tables and lists written inside of them, are closed.
-/

namespace TaggedOutline.Toml

/-- What a table came from: it lies on the way to another table, a dotted key opened it, or a
header did. -/
inductive Origin
  | implied
  | dotted
  | header
  deriving DecidableEq, Repr

/-- What stands under a key: a value, a table, or a list of tables, the last first. -/
inductive Node
  | value (v : Value)
  | table (origin : Origin) (entries : List (Text × Node))
  | tables (items : List (List (Text × Node)))

/-- The keys of an open table. -/
abbrev Entries := List (Text × Node)

mutual

/-- The value of what stands under a key. -/
def Node.toValue : Node → Value
  | .value v => v
  | .table _ entries => .table (valuesOf entries)
  | .tables items => .list (tablesOf items).reverse

/-- The values under the keys of a table. -/
def valuesOf : List (Text × Node) → List (Text × Value)
  | [] => []
  | (k, n) :: r => (k, n.toValue) :: valuesOf r

/-- The tables of a list. -/
def tablesOf : List (List (Text × Node)) → List Value
  | [] => []
  | entries :: r => .table (valuesOf entries) :: tablesOf r

end

/-- A change of a table, which may fail. -/
abbrev Change := Entries → Option Entries

/-- Changes the table at the end of a path of headers. Tables on the way are implied, and of a list
of tables the last one is meant. -/
def within (change : Change) : List Text → Change
  | [], entries => change entries
  | k :: path, entries =>
    match Table.get? entries k with
    | none => (within change path []).map fun e => Table.put entries k (.table .implied e)
    | some (.table origin e) =>
      (within change path e).map fun e => Table.put entries k (.table origin e)
    | some (.tables (e :: items)) =>
      (within change path e).map fun e => Table.put entries k (.tables (e :: items))
    | some _ => none

/-- Puts a value under a dotted key. No header may have opened a table on the way, and there may be
nothing under the key. -/
def putDotted (v : Value) : List Text → Change
  | [], _ => none
  | [k], entries => if Table.has entries k then none else some (entries ++ [(k, .value v)])
  | k :: path, entries =>
    match Table.get? entries k with
    | none => (putDotted v path []).map fun e => Table.put entries k (.table .dotted e)
    | some (.table .header _) => none
    | some (.table _ e) => (putDotted v path e).map fun e => Table.put entries k (.table .dotted e)
    | some _ => none

/-- Opens the table under a key. -/
def openTable (k : Text) : Change := fun entries =>
  match Table.get? entries k with
  | none => some (entries ++ [(k, .table .header [])])
  | some (.table .implied e) => some (Table.put entries k (.table .header e))
  | some _ => none

/-- Appends a table to the list under a key. -/
def appendTable (k : Text) : Change := fun entries =>
  match Table.get? entries k with
  | none => some (entries ++ [(k, .tables [[]])])
  | some (.tables items) => some (Table.put entries k (.tables ([] :: items)))
  | some _ => none

/-- A change at the end of a path, whose last key the change is given. -/
def atLast (change : Text → Change) (path : List Text) : Change := fun entries =>
  path.getLast?.bind fun k => within (change k) path.dropLast entries

end TaggedOutline.Toml
