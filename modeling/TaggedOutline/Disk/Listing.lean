import TaggedOutline.Disk.Path

/-!
# Listings of disks

A listing has a line for each directory, file and link: a letter that tells which of them it is, the
permissions in octal digits, the path, and after a tab the target of a link.
-/

namespace TaggedOutline

/-- A line of a listing. -/
inductive Listed
  | directory (path : Path)
  | file (mode : Nat) (path : Path)
  | link (path : Path) (target : Text)
  deriving DecidableEq, Repr

namespace Listed

/-- The number that octal digits write. -/
def octal? (t : Text) : Option Nat :=
  if t ≠ [] ∧ t.all fun c => '0' ≤ c && c ≤ '7' then
    some (t.foldl (fun n c => 8 * n + (c.toNat - '0'.toNat)) 0)
  else none

/-- What a line of a listing says. -/
def ofLine? (line : Text) : Option Listed := do
  let (kind, rest) ← Text.cutAt? (· == ' ') line
  let (mode, rest) ← Text.cutAt? (· == ' ') rest
  let (path, target) := (Text.cutAt? (· == '\t') rest).getD (rest, [])
  let path := Path.ofText path
  match kind with
  | ['d'] => some (.directory path)
  | ['f'] => (octal? mode).map (.file · path)
  | ['l'] => some (.link path target)
  | _ => none

end Listed

end TaggedOutline
