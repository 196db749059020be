import TaggedOutline.Disk.Resolve

/-!
# Faults of files

What keeps a file from being read or written. A read failure concerns the file itself, so that
whoever reads many files can go on with the next one; the other faults concern the path.
-/

namespace TaggedOutline

/-- Why a file is not read or written. -/
inductive FileError
  | inaccessible (path : Path) (cause : Cause)
  | isLink (path : Path)
  | notRegular (path : Path)
  | tooLarge (path : Path) (limit : Int)
  | undecodable (fault : Text.Utf8.Fault)
  | unwritable (path : Path) (cause : Cause)
  /-- A path of which it cannot even be told what is there. -/
  | unusable (path : Text) (cause : Cause)
  /-- The path starts in the home directory of somebody unknown. -/
  | noHome
  | linkLoop (path : Path)
  /-- The path has a character that no path can have. -/
  | nullInPath
  /-- What the file holds is nested too deep to be read. -/
  | tooDeep
  deriving DecidableEq, Repr

namespace FileError

def message : FileError → String
  | inaccessible path cause =>
    "Cannot access " ++ String.ofList path.text ++ ": " ++ cause.describe path.text
  | unwritable path cause =>
    "Cannot write " ++ String.ofList path.text ++ ": " ++ cause.describe path.text
  | isLink path => "Symlinks are not supported: " ++ String.ofList path.text
  | notRegular path => String.ofList path.text ++ " is not a regular file"
  | tooLarge path limit =>
    String.ofList path.text ++ " exceeds the maximum allowed size of " ++ toString limit ++ " bytes"
  | undecodable fault => fault.message
  | unusable path cause => cause.describe path
  | noHome => "Could not determine home directory."
  | linkLoop path => "Symlink loop from " ++ String.ofList (Text.quoted path.text)
  | nullInPath => "embedded null byte"
  | tooDeep => "maximum recursion depth exceeded"

/-- Whether a fault concerns the file itself. -/
def isReadFailure : FileError → Bool
  | noHome | linkLoop _ | nullInPath | tooDeep => false
  | _ => true

/-- A read failure of a file at a path in the words of whoever parses it. -/
def parseMessage (path : Path) : FileError → String
  | undecodable fault =>
    "Invalid UTF-8 sequence in " ++ String.ofList path.text ++ ": " ++ fault.message
  | e => e.message

end FileError

end TaggedOutline
