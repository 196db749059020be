/-!
# Tables

A table keeps values under keys, in the order in which the keys were first put in. Putting a value
under a key that is there replaces the value and keeps its place.
-/

namespace TaggedOutline

/-- Keys and values, in insertion order. -/
abbrev Table (κ α : Type) := List (κ × α)

namespace Table

variable {κ α : Type} [DecidableEq κ]

/-- The value under a key. -/
def get? (t : Table κ α) (k : κ) : Option α := (t.find? (·.1 = k)).map Prod.snd

def has (t : Table κ α) (k : κ) : Bool := t.any (·.1 = k)

/-- The table with `a` under `k`. -/
def put (t : Table κ α) (k : κ) (a : α) : Table κ α :=
  match t with
  | [] => [(k, a)]
  | (k', a') :: r => if k' = k then (k, a) :: r else (k', a') :: put r k a

/-- The table without the key. -/
def erase (t : Table κ α) (k : κ) : Table κ α := t.filter (·.1 ≠ k)

def keys (t : Table κ α) : List κ := t.map Prod.fst

def values (t : Table κ α) : List α := t.map Prod.snd

/-- The table of a list of keys and values; of two values under a key the later counts. -/
def ofList (l : List (κ × α)) : Table κ α := l.foldl (fun t (k, a) => put t k a) []

end Table

end TaggedOutline
