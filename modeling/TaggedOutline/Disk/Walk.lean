import TaggedOutline.Disk.File

/-!
# The documents below a directory

The documents of a workspace are the regular files below its root that have one of some suffixes and
lie in no excluded directory. In each directory the files come first, by name, and then what its
directories hold, by name. Links are neither documents nor gone into.

A directory whose path is too long is passed over, since it cannot be listed. Of what is listed it
must be told whether it is a link, and this cannot be told of a path that is too long.
-/

namespace TaggedOutline

/-- The order in which files below a directory are visited, by the names on the way to them. -/
def visitedBefore : List Text → List Text → Bool
  | a :: r, b :: s =>
    match r, s with
    | [], [] => Text.precedes a b
    | [], _ :: _ => true
    | _ :: _, [] => false
    | r, s => if a = b then visitedBefore r s else Text.precedes a b
  | [], _ => true
  | _ :: _, [] => false

/-- Whether the names on the way from a root to a file make it a document. -/
def isDocumentBelow (suffixes excluded : List Text) (names : List Text) : Bool :=
  Path.hasSuffix suffixes ⟨[], names⟩ && names.dropLast.all (¬ Text.isIn · excluded)

namespace Disk

/-- The names on the way from a place down to a file or a link, and whether it is a link. -/
def leaf? (d : Disk) (place p : Place) : Option (List Text × Bool) :=
  match d.entry? p, place.isPrefixOf? p with
  | some e, some (name :: names) =>
    if e.isDirectory then none else some (name :: names, e.isLink)
  | _, _ => none

/-- The regular files and the links below a place, by the names on the way to them, and whether they
are links. -/
def leavesBelow (d : Disk) (place : Place) : List (List Text × Bool) :=
  d.entries.filterMap fun (p, _) => d.leaf? place p

/-- The regular files below a place, by the names on the way to them. -/
def filesBelow (d : Disk) (place : Place) : List (List Text) :=
  ((d.leavesBelow place).filter (¬ ·.2)).map Prod.fst

/-- A directory below a root as the walk writes its path. -/
def walked (root : Path) (names : List Text) : Text := names.foldl joinWritten root.text

/-- The files and links with the names of documents in the directories below a root that can be
listed, in the order in which they are visited. -/
def candidates (d : Disk) (root : Path) (place : Place) (suffixes excluded : List Text) :
    List (List Text × Bool) :=
  let found := (d.leavesBelow place).filter fun (names, _) =>
    isDocumentBelow (suffixes.map Text.lower) excluded names &&
      ¬ isTooLong (walked root names.dropLast)
  found.mergeSort fun a b => visitedBefore a.1 b.1

/-- The documents below the root of a workspace, in the order in which they are visited. There are
none if the root is no directory. -/
def documents (d : Disk) (root : Path) (suffixes excluded : List Text) :
    Except FileError (List Path) :=
  if root.text.contains '\x00' then .error .nullInPath
  else match d.lookup true root.text with
    | .ok (place, .directory) =>
      let found := d.candidates root place suffixes excluded
      match found.find? fun (names, _) => isTooLong (root.join names).text with
      | some (names, _) => .error (.unusable (root.join names).text .nameTooLong)
      | none => .ok ((found.filter (¬ ·.2)).map fun (names, _) => root.join names)
    | _ => .ok []

end Disk

end TaggedOutline
