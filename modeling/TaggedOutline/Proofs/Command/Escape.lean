import TaggedOutline.Proofs.Command.Everywhere
import TaggedOutline.Proofs.Frontend.Standard

/-!
# Faults that escape

The program ends with a fault for a few reasons only. If a command is called, these are the reasons of
this command (`Escapes`): settings that cannot be looked for, documents that cannot be listed, one
without a name, a preamble that cannot be read and a made up name with a null character. Otherwise a
path on the command line has a null character. `fault_run` says so of all command lines but those that
watch a workspace, behind any library for command lines that does what is documented.

A disk keeps nobody out and holds nothing but directories, files and links, and texts are made of
characters. So nothing is said here of permissions, devices and names that are no text.
-/

namespace TaggedOutline.Command

open Command.Run (exec fault?)
open Frontend (Gives)

variable {s : Frontend} {env : Environment} {d : Disk} {call : Call} {e : FileError}
  {args : List Text} {verbose : Bool}

/-- The faults of a call. -/
inductive Escapes (env : Environment) (d : Disk) : Call → FileError → Prop
  | outline {file : Text} {e : FileError} (h : ReadFault env d (.ofText file) e) :
    Escapes env d (.outline file) e
  | document {file : Text} {line : Int} {preamble output : Option Text} {save : Bool}
    {e : FileError} (h : ReadFault env d (.ofText file) e) :
    Escapes env d (.exportBlock file line preamble output save) e
  | block {file : Text} {line : Int} {preamble output : Option Text} {save : Bool} {n : Node}
    {e : FileError} (hfind : Finds env d (.ofText file) line n)
    (h : ExportFault d preamble output save (.ofText file) n e) :
    Escapes env d (.exportBlock file line preamble output save) e
  | tags {root : Text} {e : FileError} (h : OpenFault env d (.ofText root) e) :
    Escapes env d (.tags root) e
  | blocks {tag root : Text} {e : FileError} (h : OpenFault env d (.ofText root) e) :
    Escapes env d (.blocks tag root) e
  | gather {tag root : Text} {title output : Option Text} {e : FileError}
    (h : OpenFault env d (.ofText root) e) : Escapes env d (.gather tag root title output) e
  | renameTag {old new name root : Text} {e : FileError} (hname : tagName new = .ok name)
    (h : OpenFault env d (.ofText root) e) : Escapes env d (.renameTag old new root) e

/-! ## Calls -/

/-- A root that was checked is the path of a directory. -/
theorem exists_place_of_isRoot {root : Text} (hd : d.IsTree) (h : IsRoot d root) :
    ∃ place, Path.ofText root = .absolute place ∧
      d.lookup true (Path.absolute place).text = .ok (place, .directory) := by
  obtain ⟨place, rfl, hdirectory⟩ := h
  exact ⟨place, ofText_root hd hdirectory, hdirectory⟩

theorem fault?_perform (hd : d.IsTree) (hwatch : call.command ≠ .watch)
    (hchecked : call.IsChecked d) :
    fault? (perform env call) { disk := d } = some e ↔ Escapes env d call e := by
  cases call with
  | watch root => exact absurd rfl hwatch
  | outline file =>
    refine (fault?_showOutline hchecked).trans ⟨.outline, fun h => ?_⟩
    cases h with
    | outline h => exact h
  | exportBlock file line preamble output save =>
    refine (fault?_exportHeading hchecked.1 hchecked.2).trans ⟨?_, fun h => ?_⟩
    · rintro (h | ⟨n, hfind, h⟩)
      · exact .document h
      · exact .block hfind h
    · cases h with
      | document h => exact .inl h
      | block hfind h => exact .inr ⟨_, hfind, h⟩
  | tags root =>
    obtain ⟨place, hread, hdirectory⟩ := exists_place_of_isRoot hd hchecked
    refine (fault?_listTags hd hread hdirectory).trans ⟨fun h => .tags (hread ▸ h), fun h => ?_⟩
    cases h with
    | tags h => exact hread ▸ h
  | blocks tag root =>
    obtain ⟨place, hread, hdirectory⟩ := exists_place_of_isRoot hd hchecked
    refine (fault?_listHeadings hd hread hdirectory).trans
      ⟨fun h => .blocks (hread ▸ h), fun h => ?_⟩
    cases h with
    | blocks h => exact hread ▸ h
  | gather tag root title output =>
    obtain ⟨place, hread, hdirectory⟩ := exists_place_of_isRoot hd hchecked.1
    refine (fault?_gatherTagged hd hread hdirectory hchecked.2).trans
      ⟨fun h => .gather (hread ▸ h), fun h => ?_⟩
    cases h with
    | gather h => exact hread ▸ h
  | renameTag old new root =>
    obtain ⟨place, hread, hdirectory⟩ := exists_place_of_isRoot hd hchecked
    refine (fault?_renameEverywhere hd hread hdirectory).trans ⟨?_, fun h => ?_⟩
    · rintro ⟨⟨name, hname⟩, h⟩
      exact .renameTag hname (hread ▸ h)
    · cases h with
      | renameTag hname h => exact ⟨⟨_, hname⟩, hread ▸ h⟩

/-! ## The program -/

theorem fault_carryOut (verbose : Bool) (call : Call) :
    (s.carryOut env d verbose call).fault = fault? (perform env call) { disk := d } := by
  show Frontend.faultOf (exec (perform env call) { disk := d }).1 = _
  unfold fault?
  rcases exec (perform env call) { disk := d } with ⟨stop | a, con⟩
  · cases stop <;> rfl
  · rfl

/-- The program ends with a code for success, for a failure or for misuse. -/
theorem exitCode_run (hs : s.IsDocumented d) (env : Environment) (args : List Text) :
    (s.run env d args).exitCode ≤ 2 := by
  unfold Frontend.run
  split
  · next call hread =>
    show (s.ending call.command (exec (perform env call) { disk := d }).1).exitCode ≤ 2
    rcases exec (perform env call) { disk := d } with ⟨stop | a, con⟩
    · exact (hs.ending_of_error call.command stop).2.1
    · exact Nat.zero_le 2
  · next ending hread => exact hs.ended hread
  · exact Nat.le_succ 1

/-- What escapes from the call that is made of a command line is the fault of the program. -/
theorem fault_run_of_escapes (hd : d.IsTree) (hread : s.read d args = .call verbose call)
    (hwatch : call.command ≠ .watch) (hchecked : call.IsChecked d) (h : Escapes env d call e) :
    (s.run env d args).fault = some e := by
  unfold Frontend.run
  rw [hread]
  exact (fault_carryOut verbose call).trans ((fault?_perform hd hwatch hchecked).mpr h)

end TaggedOutline.Command
