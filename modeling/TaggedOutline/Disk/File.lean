import TaggedOutline.Disk.Error

/-!
# Reading and writing documents

A document is read from a regular file, never through a link at the end of its path, and known by
the absolute path of the file. Writing a document keeps the permissions of its file.
-/

namespace TaggedOutline.Disk

/-! ## Names of documents -/

/-- The home directory of a user, if one is known. What is known may be no path itself but start with
a tilde again. -/
def homeOf? (d : Disk) (user : Text) : Option Path :=
  (d.homes.get? user).bind fun known =>
    if known.head? = some '~' then none
    else if known.all (· = '/') then some (.absolute [])
    else some (.ofText known)

/-- The path with the home directory of a user in place of a tilde and the name of the user. A name
that no path can have is refused before anybody is looked for. -/
def expandHome (d : Disk) (p : Path) : Except FileError Path :=
  match p.anchor, p.names with
  | [], ('~' :: user) :: rest =>
    if user.contains '\x00' then .error .nullInPath
    else
      match d.homeOf? user with
      | some home => .ok (home.join rest)
      | none => .error .noHome
  | _, _ => .ok p

/-- The absolute path without links for a path. -/
def resolve (d : Disk) (p : Path) : Except FileError Path :=
  if p.text.contains '\x00' then .error .nullInPath
  else
    let real := d.realPath p.text
    match d.lookup true real.text with
    | .error .tooManyLinks => .error (.linkLoop real)
    | _ => .ok real

/-- The name that the document at a path is known by. -/
def uriOf (d : Disk) (p : Path) : Except FileError Text :=
  (d.expandHome p).bind fun p => (d.resolve p).map Path.text

/-! ## Reading -/

/-- Whether a path leads to such an entry. That a name in it is too long is a fault, and all else
means that it does not. -/
def leadsTo (d : Disk) (p : Path) (kind : Entry → Bool) : Except FileError Bool :=
  if p.text.contains '\x00' then .ok false
  else match d.lookup true p.text with
    | .ok (_, e) => .ok (kind e)
    | .error .nameTooLong => .error (.unusable p.text .nameTooLong)
    | .error _ => .ok false

/-- The permissions and the bytes of the regular file at a path. -/
def regularFile (d : Disk) (p : Path) (limit : Option Int) :
    Except FileError (Place × Nat × List UInt8) :=
  if p.text.contains '\x00' then .error .nullInPath
  else match d.lookup false p.text with
    | .error c => .error (.inaccessible p c)
    | .ok (_, .link _) => .error (.isLink p)
    | .ok (_, .directory) => .error (.notRegular p)
    | .ok (place, .file mode bytes) =>
      match limit with
      | some n => if n < bytes.length then .error (.tooLarge p n) else .ok (place, mode, bytes)
      | none => .ok (place, mode, bytes)

/-- The bytes at a path, links followed. -/
def readBytes (d : Disk) (p : Path) : Except FileError (List UInt8) :=
  if p.text.contains '\x00' then .error .nullInPath
  else match d.lookup true p.text with
    | .ok (_, .file _ bytes) => .ok bytes
    | .ok _ => .error (.inaccessible p .isDirectory)
    | .error c => .error (.inaccessible p c)

/-- The text at a path, with its breaks as they are. -/
def readText (d : Disk) (p : Path) : Except FileError Text :=
  (d.readBytes p).bind fun bytes => (Text.Utf8.decode bytes).mapError .undecodable

/-- The text at a path, with line feeds for breaks. -/
def readLines (d : Disk) (p : Path) : Except FileError Text :=
  (d.readText p).map Text.feedBreaks

/-- The document at a path, unless it has more than `limit` bytes. -/
def load (d : Disk) (p : Path) (limit : Option Int) : Except FileError Document := do
  let _ ← d.regularFile p limit
  let uri ← d.uriOf p
  let text ← d.readText p
  return { uri := uri, text := text, markup := p.markup }

/-! ## Writing -/

/-- The number of bytes by which the name of a staged file is longer than that of its file: a dot
before it, and after it another one and eight letters that are made up. -/
def stagedMargin : Nat := 10

/-- Whether a text can be staged in a file beside the one at an absolute path: neither the longer
name nor the longer path is too long. -/
def hasRoom (p : Path) : Bool :=
  (Text.Utf8.encode p.name).length + stagedMargin ≤ nameLimit ∧
    (Text.Utf8.encode p.text).length + stagedMargin < pathLimit

/-- Replaces the text of the document at a path. The text is staged in a file beside it, which must
have a longer name. The letters of this name are left out of what is said of it. -/
def save (d : Disk) (p : Path) (t : Text) : Except FileError Disk := do
  let (place, mode, _) ← d.regularFile p none
  let p := d.absolutePath p.text
  if ¬ hasRoom p then
    throw (.unusable (p.withName ('.' :: p.name ++ ['.'])).text .nameTooLong)
  return d.put place (.file mode (Text.Utf8.encode t))

/-- The permissions of a new file. -/
def newFileMode : Nat := 0o644

/-- Writes a text to a path, links followed. A file that is there keeps its permissions. -/
def write (d : Disk) (p : Path) (t : Text) : Except FileError Disk :=
  if p.text.contains '\x00' then .error .nullInPath
  else match d.target .room p.text with
    | .ok (.entry place (.file mode _)) => .ok (d.put place (.file mode (Text.Utf8.encode t)))
    | .ok (.vacant place) => .ok (d.put place (.file newFileMode (Text.Utf8.encode t)))
    | .ok (.entry _ _) => .error (.unwritable p .isDirectory)
    | .error c => .error (.unwritable p c)

end TaggedOutline.Disk
