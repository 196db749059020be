import TaggedOutline.Text.Quoted

/-!
# Tag names

A tag name is a non-empty text without blanks. Blanks around a name that is given are dropped.
-/

namespace TaggedOutline

/-- Why a name cannot be that of a tag. -/
inductive TagNameError
  /-- Nothing, or nothing but blanks, was given. -/
  | empty (given : Option Text)
  | blankInside (given : Text)
  deriving DecidableEq, Repr

namespace TagNameError

def message : TagNameError → String
  | empty given =>
    let shown := (given.map fun t => String.ofList (Text.quoted t)).getD "None"
    "Invalid tag name " ++ shown ++ ": tag name cannot be empty"
  | blankInside given =>
    "Invalid tag name " ++ String.ofList (Text.quoted given) ++ ": tag name cannot contain whitespace"

end TagNameError

/-- The tag name in a text that may be missing. -/
def tagNameOf (given : Option Text) : Except TagNameError Text :=
  let t := given.getD []
  let name := Text.trim t
  if name = [] then .error (.empty given)
  else if name.any Text.isBlank then .error (.blankInside t)
  else .ok name

/-- The tag name in a text. -/
def tagName (t : Text) : Except TagNameError Text := tagNameOf (some t)

end TaggedOutline
