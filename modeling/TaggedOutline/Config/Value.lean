import TaggedOutline.Text.Basic
import TaggedOutline.Table

/-!
# Values of settings

A setting is written as a value of any type and checked later, so that a wrong type can be told
from a missing setting. Numbers with a fraction and moments in time are never right; only their
kind is kept.
-/

namespace TaggedOutline

/-- A value as it is written in a configuration. -/
inductive Value
  | null
  | boolean (b : Bool)
  | integer (n : Int)
  | fraction
  | moment
  | text (t : Text)
  | list (vs : List Value)
  | table (entries : List (Text × Value))
  deriving Repr, Inhabited

namespace Value

def isNull : Value → Bool
  | null => true
  | _ => false

def text? : Value → Option Text
  | text t => some t
  | _ => none

def integer? : Value → Option Int
  | integer n => some n
  | _ => none

def list? : Value → Option (List Value)
  | list vs => some vs
  | _ => none

/-- The texts of a list of texts. -/
def texts? : Value → Option (List Text)
  | list vs => vs.mapM text?
  | _ => none

/-- The value under a key of a table. -/
def get? (v : Value) (key : Text) : Option Value :=
  match v with
  | table entries => Table.get? entries key
  | _ => none

/-- The value under a path of keys. -/
def lookup? (v : Value) : List Text → Option Value
  | [] => some v
  | k :: ks => (v.get? k).bind (lookup? · ks)

end Value

end TaggedOutline
