import TaggedOutline.Tag.Name

/-!
# Failing edits

An edit fails when it names a line or a document that is not there, when a block cannot go where it
is moved, or when a tag name is not one.
-/

namespace TaggedOutline

/-- Why an edit cannot be made. -/
inductive EditError
  | lineOutside (line : Int) (uri : Text)
  | notHeading (line : Int)
  | differentParents
  | intoOwnSubtree
  | documentMissing (uri : Text)
  | headingMissing (line : Int) (uri : Text)
  | badTagName (error : TagNameError)
  deriving DecidableEq, Repr

/-- The words for a failed edit. Lines are counted from one. -/
def EditError.message : EditError → String
  | lineOutside line uri => "Line " ++ toString (line + 1) ++ " is outside of " ++ String.ofList uri
  | notHeading line => "Could not parse heading at line " ++ toString (line + 1)
  | differentParents => "Select headings within the same parent to reorder."
  | intoOwnSubtree => "Cannot move a heading block into its own subtree."
  | documentMissing uri => "Document " ++ String.ofList uri ++ " is not loaded"
  | headingMissing line uri =>
    "Could not find heading at line " ++ toString (line + 1) ++ " of " ++ String.ofList uri
  | badTagName error => error.message

end TaggedOutline
