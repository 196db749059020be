import TaggedOutline.Disk.Path
import TaggedOutline.Table
import TaggedOutline.Text.Quoted
import TaggedOutline.Text.Utf8

/-!
# Disks

A disk holds directories, files and symbolic links at places; a place is the list of names on the
way to it from the top. Looking a path up goes along its names, starts anew at the target of every
link on the way, and gives up after `linkLimit` links. Names and paths that are too long lead
nowhere.

Files have permissions, which are kept when a file is written, but they keep nobody out: whatever is
on a disk may be read and written by whoever looks at it. There are no devices and no pipes.
-/

namespace TaggedOutline

/-- The names on the way from the top to a directory or a file, none of them a link. -/
abbrev Place := List Text

/-- What is at a place. -/
inductive Entry
  | directory
  | file (mode : Nat) (bytes : List UInt8)
  | link (target : Text)
  deriving DecidableEq, Repr

namespace Entry

def isDirectory : Entry → Bool
  | directory => true
  | _ => false

def isFile : Entry → Bool
  | file _ _ => true
  | _ => false

def isLink : Entry → Bool
  | link _ => true
  | _ => false

end Entry

/-- Directories, files and links, as somebody finds them who starts in a directory. The top is always
a directory. -/
structure Disk where
  /-- The directory that relative paths start from. -/
  base : Place := []
  entries : Table Place Entry := []
  /-- What is known of the home directories of users, by their names. No name stands for whoever
  asks. -/
  homes : Table Text Text := []
  deriving Repr

/-- Why a path leads nowhere. -/
inductive Cause
  | notFound
  | notDirectory
  | isDirectory
  | nameTooLong
  | tooManyLinks
  deriving DecidableEq, Repr

namespace Cause

def number : Cause → Nat
  | notFound => 2
  | notDirectory => 20
  | isDirectory => 21
  | nameTooLong => 36
  | tooManyLinks => 40

def text : Cause → String
  | notFound => "No such file or directory"
  | notDirectory => "Not a directory"
  | isDirectory => "Is a directory"
  | nameTooLong => "File name too long"
  | tooManyLinks => "Too many levels of symbolic links"

/-- A cause in words, with the path that it is about. -/
def describe (c : Cause) (path : Text) : String :=
  "[Errno " ++ toString c.number ++ "] " ++ c.text ++ ": " ++ String.ofList (Text.quoted path)

end Cause

namespace Disk

/-- What is at a place, if anything is. -/
def entry? (d : Disk) (place : Place) : Option Entry :=
  if place = [] then some .directory else d.entries.get? place

/-- The disk with an entry at a place. -/
def put (d : Disk) (place : Place) (e : Entry) : Disk :=
  { d with entries := d.entries.put place e }

/-- The disk without what is at a place. -/
def erase (d : Disk) (place : Place) : Disk := { d with entries := d.entries.erase place }

/-! ## Looking up a path -/

/-- Names that stay where they are. -/
def staysAt (name : Text) : Bool := name = [] ∨ name = ['.']

/-- The longest name, in bytes. -/
def nameLimit : Nat := 255

/-- The length in bytes from which on a path is too long. -/
def pathLimit : Nat := 4096

/-- Whether a written path is too long to be looked up. -/
def isTooLong (t : Text) : Bool := pathLimit ≤ (Text.Utf8.encode t).length

/-- The number of links that one look-up follows. -/
def linkLimit : Nat := 40

/-- Where a text starts from. -/
def start (d : Disk) (t : Text) : Place := if t.head? = some '/' then [] else d.base

/-- Where a link at a place in `directory` continues. -/
def linkStart (directory : Place) (target : Text) : Place :=
  if target.head? = some '/' then [] else directory

/-- How far names lead before a link is met. -/
inductive Stop
  | found (place : Place) (e : Entry)
  | vacant (place : Place)
  | link (directory : Place) (target : Text) (rest : List Text)
  | failed (c : Cause)

/-- What is looked for at the end of a path. -/
inductive Aim
  /-- What is there, be it a link. -/
  | itself
  /-- What is there, links followed. -/
  | behind
  /-- A place for a file, links followed. -/
  | room
  deriving DecidableEq, Repr

/-- Whether only slashes follow a name, so that it must be that of a directory. -/
def onlySlashes (rest : List Text) : Bool := rest ≠ [] ∧ rest.all (· = [])

/-- Goes along names from a place up to the first link. A link at the end is met unless it is looked
for itself. -/
def advance (d : Disk) (aim : Aim) (place : Place) : List Text → Stop
  | [] =>
    match d.entry? place with
    | some e => .found place e
    | none => .vacant place
  | name :: rest =>
    if d.entry? place ≠ some .directory then .failed .notDirectory
    else if staysAt name then advance d aim place rest
    else if name = ['.', '.'] then advance d aim place.dropLast rest
    else if aim = .room ∧ onlySlashes rest then .failed .isDirectory
    else if nameLimit < (Text.Utf8.encode name).length then .failed .nameTooLong
    else match d.entry? (place ++ [name]) with
      | some (.link target) =>
        if rest = [] ∧ aim = .itself then .found (place ++ [name]) (.link target)
        else .link place target rest
      | some _ => advance d aim (place ++ [name]) rest
      | none => if rest = [] then .vacant (place ++ [name]) else .failed .notFound

/-- What a path leads to: an entry, or a place where none is. -/
inductive Target
  | entry (place : Place) (e : Entry)
  | vacant (place : Place)

/-- Goes along names from a place and follows at most `links` links. -/
def seek (d : Disk) (aim : Aim) : Nat → Place → List Text → Except Cause Target
  | links, place, names =>
    match d.advance aim place names with
    | .found place e => .ok (.entry place e)
    | .vacant place => .ok (.vacant place)
    | .failed c => .error c
    | .link directory target rest =>
      match links with
      | 0 => .error .tooManyLinks
      | n + 1 =>
        seek d aim n (linkStart directory target) (Text.splitWhere (· == '/') target ++ rest)

/-- What a written path leads to. -/
def target (d : Disk) (aim : Aim) (t : Text) : Except Cause Target :=
  if t = [] then .error .notFound
  else if pathLimit ≤ (Text.Utf8.encode t).length then .error .nameTooLong
  else d.seek aim linkLimit (d.start t) (Text.splitWhere (· == '/') t)

/-- The entry that a written path leads to. A link at its end is followed if `follow` says so. -/
def lookup (d : Disk) (follow : Bool) (t : Text) : Except Cause (Place × Entry) := do
  match ← d.target (if follow then .behind else .itself) t with
  | .entry place e => return (place, e)
  | .vacant _ => throw .notFound

/-! ## Changes -/

/-- The places from the top to `place` where a directory is missing get one. -/
def makeDirectories (d : Disk) (place : Place) : Disk :=
  (List.range place.length).foldl (fun d k =>
    let above := place.take (k + 1)
    if (d.entry? above).isSome then d else d.put above .directory) d

end Disk

end TaggedOutline
