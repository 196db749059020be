import TaggedOutline.Disk.Resolve

/-!
# Changing a disk

Entries are put at paths, moved and removed. Directories on the way to a new entry are made, and a
file that is put where a link is goes where the link leads.
-/

namespace TaggedOutline.Disk

/-- The place of a path whose last name is taken as it is, be it a link or not. -/
def ownPlace (d : Disk) (p : Path) : Place := d.placeOf p.parent.text ++ p.names.getLast?.toList

/-- Puts an entry at a path. -/
def install (d : Disk) (p : Path) (e : Entry) : Disk :=
  let place := match e with
    | .link _ => d.ownPlace p
    | _ => d.placeOf p.text
  match e with
  | .directory => d.makeDirectories place
  | e => (d.makeDirectories place.dropLast).put place e

/-- Removes what is at a path. -/
def remove (d : Disk) (p : Path) : Disk := d.erase (d.ownPlace p)

/-- Moves what is at or below one path to another one. What was there before is replaced. -/
def move (d : Disk) (source target : Path) : Disk :=
  let source := d.ownPlace source
  let target := d.ownPlace target
  let (moved, kept) := d.entries.partition fun (place, _) => source.isPrefixOf place
  moved.foldl (fun d (place, e) => d.put (target ++ place.drop source.length) e)
    { d with entries := kept }

/-- The files and links below the base. -/
def files (d : Disk) : List (Place × Entry) :=
  d.entries.filter fun (place, e) => d.base.isPrefixOf place && e ≠ .directory

/-- The files and links that are not the same on an earlier disk. -/
def filesSince (d earlier : Disk) : List (Place × Entry) :=
  d.files.filter fun (place, e) => earlier.entry? place ≠ some e

end TaggedOutline.Disk
