import TaggedOutline.Text.Basic

/-!
# Commands

The commands and their names, and what each of them is called with once a command line was read.
-/

namespace TaggedOutline

/-- What the program can be asked to do. -/
inductive Command
  | outline
  | tags
  | blocks
  | exportBlock
  | gather
  | renameTag
  | watch
  deriving DecidableEq, Repr

namespace Command

def all : List Command := [blocks, gather, exportBlock, outline, renameTag, tags, watch]

def name : Command → String
  | outline => "outline"
  | tags => "tags"
  | blocks => "blocks"
  | exportBlock => "export"
  | gather => "compile"
  | renameTag => "rename-tag"
  | watch => "watch"

end Command

/-- What a command is called with. Files, roots and outputs are written paths, and a line is counted
from one. -/
inductive Call
  | outline (file : Text)
  | tags (root : Text)
  | blocks (tag root : Text)
  | exportBlock (file : Text) (line : Int) (preamble output : Option Text) (save : Bool)
  | gather (tag root : Text) (title output : Option Text)
  | renameTag (old new root : Text)
  | watch (root : Text)
  deriving DecidableEq, Repr

/-- The command that is called. -/
def Call.command : Call → Command
  | outline _ => .outline
  | tags _ => .tags
  | blocks _ _ => .blocks
  | exportBlock .. => .exportBlock
  | gather .. => .gather
  | renameTag .. => .renameTag
  | watch _ => .watch

end TaggedOutline
