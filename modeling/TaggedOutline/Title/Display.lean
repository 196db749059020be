import TaggedOutline.Document.Basic
import TaggedOutline.Title.Inline
import TaggedOutline.Title.Link

/-!
# Displayed titles

A title is displayed without inline markup and with single spaces. A title of which nothing would
be left is displayed as it is written.
-/

namespace TaggedOutline.Title

/-- The title as it is displayed. -/
def display (markup : Markup) (title : Text) : Text :=
  let bare := match markup with
    | .markdown => stripLinks title
    | .typst => stripInline title
  let shown := Text.collapse bare
  if shown = [] then title else shown

end TaggedOutline.Title
