import TaggedOutline.Text.Basic

/-!
# Log entries

What happens on the way and ends no operation is logged with a level and the part of the program
that it happened in.
-/

namespace TaggedOutline

/-- How grave a log entry is. -/
inductive Level
  | info
  | warning
  | error
  deriving DecidableEq, Repr

/-- The parts of the program that write log entries. -/
inductive Source
  | index
  | watcher
  deriving DecidableEq, Repr

/-- A log entry. -/
structure LogEntry where
  level : Level
  source : Source
  message : String
  deriving DecidableEq, Repr

def Level.name : Level → String
  | info => "INFO"
  | warning => "WARNING"
  | error => "ERROR"

def Source.name : Source → String
  | index => "heading_tags.index"
  | watcher => "heading_tags.watcher"

end TaggedOutline
