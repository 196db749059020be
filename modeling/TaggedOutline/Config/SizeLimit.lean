import TaggedOutline.Text.Number
import TaggedOutline.Text.Quoted

/-!
# The size limit of the environment

A variable of the environment may set the largest size of a file that is read, in bytes. If it is
set to anything but a positive whole number there is no limit to go by.
-/

namespace TaggedOutline

/-- The variable was set to a text that is no positive whole number. -/
structure SizeLimitError where
  given : Text
  deriving DecidableEq, Repr

namespace SizeLimit

/-- The name of the variable. -/
def variableName : String := "HEADING_TAGS_MAX_FILE_SIZE"

/-- The limit that the variable sets, and `byDefault` if it is not set. -/
def read (given : Option Text) (byDefault : Int) : Except SizeLimitError Int :=
  match given with
  | none => .ok byDefault
  | some t =>
    match Text.toInt? t with
    | some n => if 0 < n then .ok n else .error ⟨t⟩
    | none => .error ⟨t⟩

end SizeLimit

def SizeLimitError.message (e : SizeLimitError) : String :=
  SizeLimit.variableName ++ " must be a positive number of bytes, got " ++
    String.ofList (Text.quoted e.given)

end TaggedOutline
