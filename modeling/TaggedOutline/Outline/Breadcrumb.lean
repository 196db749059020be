import TaggedOutline.Outline.Basic

/-!
# Breadcrumbs

The breadcrumb of a heading is the displayed titles of the headings it lies under, the outermost
first, and its own.
-/

namespace TaggedOutline

/-- The breadcrumbs of the headings, by their lines. -/
def breadcrumbs (hs : List Heading) : Table Int (List Text) :=
  Table.ofList <| (openedBy Heading.level [] hs).map fun (h, above) =>
    (h.line, (above.reverse ++ [h]).map Heading.display)

end TaggedOutline
