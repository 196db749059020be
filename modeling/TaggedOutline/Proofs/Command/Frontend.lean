import TaggedOutline.Command.Frontend
import TaggedOutline.Proofs.Command.Console

/-!
# What is relied on of a frontend

The program is studied over an arbitrary library for command lines. What it is relied on for is a
structure of hypotheses (`Frontend.IsDocumented`): words that are given by their places reach the
command that they are meant for, no exception but one gets through, and texts without control
sequences are shown as they are. That the values of a run were checked before is a hypothesis about
the run (`Frontend.Checks`).

From this follows what becomes of a command line: if it calls a command, all is told by the run of
this command (`run_of_means`, `carryOut_of_ok`, `carryOut_of_error`).
-/

namespace TaggedOutline

open Command (Environment Console Stop perform)
open Command.Run (exec)

namespace Frontend

/-! ## Words -/

/-- A word that is not taken for a switch: it does not start with a hyphen, or is just one. -/
def IsPlainWord (arg : Text) : Prop := arg.head? = some '-' → arg = ['-']

instance (arg : Text) : Decidable (IsPlainWord arg) :=
  inferInstanceAs (Decidable (_ → _))

/-- A command line gives words by their places: it consists of them, with two hyphens at most once
in between, before which no word is taken for a switch. -/
inductive Gives (words : List Text) : List Text → Prop
  | plain (h : ∀ arg ∈ words, IsPlainWord arg) : Gives words words
  | hyphens (before after : List Text) (h : words = before ++ after)
    (hbefore : ∀ arg ∈ before, IsPlainWord arg) : Gives words (before ++ ['-', '-'] :: after)

/-! ## Values -/

/-- A text writes the path of a file. -/
def FileAt (d : Disk) (t : Text) : Prop :=
  '\x00' ∉ t ∧ ∃ place mode bytes, d.lookup true t = .ok (place, .file mode bytes)

/-- A text writes the path of a directory, which resolves to the path of its place. -/
def RootAt (d : Disk) (t : Text) (place : Place) : Prop :=
  '\x00' ∉ t ∧ d.realPath t = .absolute place ∧
    d.lookup true (Path.absolute place).text = .ok (place, .directory)

/-- The words that may end a command line give the root of a workspace. If there is none, the root
is the directory that relative paths start from. -/
inductive GivesRoot (d : Disk) : List Text → Place → Prop
  | here {place : Place} (h : RootAt d ['.'] place) : GivesRoot d [] place
  | given {t : Text} {place : Place} (h : RootAt d t place) : GivesRoot d [t] place

theorem GivesRoot.directory {d : Disk} {given : List Text} {place : Place}
    (h : GivesRoot d given place) :
    d.lookup true (Path.absolute place).text = .ok (place, .directory) := by
  cases h with
  | here h => exact h.2.2
  | given h => exact h.2.2

/-- The call that the words of a command line make up. -/
inductive Means (d : Disk) : List Text → Call → Prop
  | outline {file : Text} (hfile : FileAt d file) : Means d [file] (.outline file)
  | tags {given : List Text} {place : Place} (hroot : GivesRoot d given place) :
    Means d given (.tags (Path.absolute place).text)
  | blocks (tag : Text) {given : List Text} {place : Place} (hroot : GivesRoot d given place) :
    Means d (tag :: given) (.blocks tag (Path.absolute place).text)
  | exportBlock {file line : Text} {n : Int} (hfile : FileAt d file)
    (hline : Text.toInt? line = some n) (hn : 1 ≤ n) :
    Means d [file, line] (.exportBlock file n none none false)
  | gather (tag : Text) {given : List Text} {place : Place} (hroot : GivesRoot d given place) :
    Means d (tag :: given) (.gather tag (Path.absolute place).text none none)
  | renameTag (old new : Text) {given : List Text} {place : Place}
    (hroot : GivesRoot d given place) :
    Means d (old :: new :: given) (.renameTag old new (Path.absolute place).text)
  | watch {given : List Text} {place : Place} (hroot : GivesRoot d given place) :
    Means d given (.watch (Path.absolute place).text)

end Frontend

/-! ## The library -/

/-- A text is the absolute path of a directory, without links. -/
def IsRoot (d : Disk) (root : Text) : Prop :=
  ∃ place, root = (Path.absolute place).text ∧ d.lookup true root = .ok (place, .directory)

/-- What a command is called with after its paths were checked: none of them has a null character in
it, and a root is resolved. -/
def Call.IsChecked (d : Disk) : Call → Prop
  | .outline file => '\x00' ∉ file
  | .exportBlock file _ _ output _ => '\x00' ∉ file ∧ ∀ t ∈ output, '\x00' ∉ t
  | .gather _ root _ output => IsRoot d root ∧ ∀ t ∈ output, '\x00' ∉ t
  | .tags root | .blocks _ root | .renameTag _ _ root | .watch root => IsRoot d root

namespace Frontend

/-- What is documented of a library for command lines. -/
structure IsDocumented (s : Frontend) (d : Disk) : Prop where
  /-- After the name of a command, the words make up what the command is called with. -/
  gives : ∀ {words args call}, Gives words args → Means d words call →
    s.read d (call.command.name.toList :: args) = .call false call
  /-- If it does not call a command, it ends the program with a code for success, for a failure or
  for misuse. -/
  ended : ∀ {args e}, s.read d args = .ended e → e.exitCode ≤ 2
  /-- It lets no exception through but that a path cannot have a null character in it. -/
  raised : ∀ {args e}, s.read d args = .raised e →
    e = .nullInPath ∧ ∃ arg ∈ args, '\x00' ∈ arg
  misuse : ∀ c message, (s.refuse c (.misuse message)).exitCode = 2
  failure : ∀ c message, (s.refuse c (.failure message)).exitCode = 1
  /-- Why a command refuses is told as an error. -/
  refused : ∀ c r, (s.refuse c r).output = []
  /-- Only control sequences are ever left out of what is shown. -/
  shown : ∀ {t}, '\x1b' ∉ t → s.shown t = t

/-- The call that is made of a command line was checked, if there is one. -/
def Checks (s : Frontend) (d : Disk) (args : List Text) : Prop :=
  ∀ verbose call, s.read d args = .call verbose call → call.IsChecked d

/-! ## Command lines -/

variable {s : Frontend} {env : Environment} {d : Disk} {con : Console} {stop : Stop} {call : Call}
  {args words : List Text} {e : FileError}

/-- Words that are given by their places are carried out as the call that they make up. -/
theorem run_of_means (hs : s.IsDocumented d) (hargs : Gives words args) (h : Means d words call) :
    s.run env d (call.command.name.toList :: args) = s.carryOut env d false call := by
  unfold run
  rw [hs.gives hargs h]

theorem carryOut_of_ok (verbose : Bool)
    (h : exec (perform env call) { disk := d } = (.ok (), con)) :
    s.carryOut env d verbose call =
      { exitCode := 0, output := con.echoed.flatMap s.shown, errors := shownLog verbose con.log,
        disk := con.disk } := by
  unfold carryOut
  rw [show (perform env call).run.run { disk := d } =
    exec (perform env call) { disk := d } from rfl, h]
  simp only [ending, List.append_nil, faultOf]

/-- The exit code is that of the stop, and a fault is told of as it is. -/
theorem carryOut_of_error (verbose : Bool)
    (h : exec (perform env call) { disk := d } = (.error stop, con)) :
    let o := s.carryOut env d verbose call
    let ending := s.ending call.command (.error stop)
    o.exitCode = ending.exitCode ∧ o.disk = con.disk ∧
      o.output = con.echoed.flatMap s.shown ++ ending.output ∧ o.fault = faultOf (.error stop) := by
  unfold carryOut
  rw [show (perform env call).run.run { disk := d } =
    exec (perform env call) { disk := d } from rfl, h]
  exact ⟨rfl, rfl, rfl, rfl⟩

namespace IsDocumented

/-- A command that stops ends the program with a code for a failure or for misuse, and nothing is
written to the output any more. -/
theorem ending_of_error (hs : s.IsDocumented d) (c : Command) (stop : Stop) :
    (s.ending c (.error stop)).exitCode ≠ 0 ∧ (s.ending c (.error stop)).exitCode ≤ 2 ∧
      (s.ending c (.error stop)).output = [] := by
  cases stop with
  | fault e => exact ⟨Nat.one_ne_zero, Nat.le_succ 1, rfl⟩
  | refused r =>
    have hcode : (s.refuse c r).exitCode = 1 ∨ (s.refuse c r).exitCode = 2 := by
      cases r with
      | misuse message => exact .inr (hs.misuse c message)
      | failure message => exact .inl (hs.failure c message)
    refine ⟨?_, ?_, hs.refused c r⟩ <;> rcases hcode with h | h <;> simp [ending, h]

end IsDocumented

end Frontend

end TaggedOutline
