import TaggedOutline.Heading.Basic

/-!
# Headings of a workspace

Outside of its document a heading is known by the document's name and its line, and shown with its
breadcrumb.
-/

namespace TaggedOutline

/-- A heading of a named document, with its breadcrumb. -/
structure TaggedHeading where
  heading : Heading
  uri : Text
  breadcrumb : List Text
  deriving DecidableEq, Repr

namespace TaggedHeading

def line (h : TaggedHeading) : Int := h.heading.line

/-- The name of the document and the line. -/
def id (h : TaggedHeading) : Text := h.uri ++ ':' :: Text.ofInt h.line

end TaggedHeading

end TaggedOutline
