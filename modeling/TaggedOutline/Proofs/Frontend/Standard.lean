import TaggedOutline.Frontend.Standard
import TaggedOutline.Proofs.Frontend.Value

/-!
# The standard frontend does what is relied on

On every disk the frontend reads, shows and refuses as it is documented (`isDocumented_standard`).
-/

namespace TaggedOutline.Frontend

open Command (commonSwitches ofName?)

variable {d : Disk} {c : Command} {l : Line} {t : Text} {place : Place} {given args words : List Text}
  {call : Call} {e : FileError} {verbose : Bool}

/-! ## Texts without escapes -/

theorem dropControl_of_ne {a : Char} (h : a ≠ '\x1b') (r : Text) : dropControl (a :: r) = none := by
  unfold dropControl
  split
  · next heq => exact absurd (List.cons.inj heq).1 h
  · rfl

theorem plain_of_notMem (h : '\x1b' ∉ t) : plain t = t := by
  unfold plain
  induction t with
  | nil => rw [Text.replaceMatches]
  | cons a t ih =>
    obtain ⟨ha, ht⟩ := List.ne_and_not_mem_of_not_mem_cons h
    rw [Text.replaceMatches, dropControl_of_ne (Ne.symm ha)]
    exact congrArg (a :: ·) (ih ht)

/-! ## Calls -/

theorem isPlainWord_name (c : Command) : IsPlainWord c.name.toList := by
  cases c <;> decide

theorem ofName?_name (c : Command) : ofName? c.name.toList = some c := by
  cases c <;> decide

/-- The name of a command, and after it what the command reads for itself. -/
theorem read_of_line (h : Line.read c.switches true args = .ok l) :
    standard.read d (c.name.toList :: args) = answerTo d false c l := by
  show answerOf d (c.name.toList :: args) = _
  unfold answerOf
  rw [read_of_command commonSwitches (isPlainWord_name c) args]
  simp only
  rw [if_neg (List.cons_ne_nil _ _)]
  show dispatch d { words := c.name.toList :: args } = _
  unfold dispatch
  simp only [ofName?_name]
  rw [h]
  rfl

/-! ## Checked words -/

theorem parameterComplaint?_file (h : FileAt d t) :
    parameterComplaint? d .file (some t) = none := by
  obtain ⟨hnull, place, mode, bytes, hlookup⟩ := h
  refine ValueKind.complaint?_eq_none_iff.mpr ⟨fun _ => by simpa using hnull, ?_⟩
  show ValueKind.complaintOf d t .existingFile = none
  unfold ValueKind.complaintOf
  rw [hlookup]

theorem parameterComplaint?_line {n : Int} (h : Text.toInt? t = some n) (hn : 1 ≤ n) :
    parameterComplaint? d .line (some t) = none := by
  refine ValueKind.complaint?_eq_none_iff.mpr ⟨fun hpath => (by cases hpath), ?_⟩
  show ValueKind.complaintOf d t .lineNumber = none
  unfold ValueKind.complaintOf
  rw [h]
  exact if_neg (Int.not_lt.mpr hn)

/-- A root is given, or is where relative paths start. -/
theorem parameterComplaint?_root (h : GivesRoot d given place) :
    parameterComplaint? d .root given[0]? = none := by
  have hroot {t : Text} (h : RootAt d t place) :
      ValueKind.complaint? d Parameter.root.hint t Parameter.root.kind = none := by
    obtain ⟨hnull, hreal, hlookup⟩ := h
    refine ValueKind.complaint?_eq_none_iff.mpr ⟨fun _ => by simpa using hnull, ?_⟩
    show ValueKind.complaintOf d t .existingDirectory = none
    unfold ValueKind.complaintOf rootPath
    rw [hreal, hlookup]
  cases h with
  | here h => exact hroot h
  | given h => exact hroot h

theorem rootPath_of_givesRoot (h : GivesRoot d given place) :
    rootPath d ((given[0]?).getD Parameter.defaultRoot) = .absolute place := by
  cases h with
  | here h => exact h.2.1
  | given h => exact h.2.1

theorem length_of_givesRoot (h : GivesRoot d given place) : given.length ≤ 1 := by
  cases h with
  | here h => exact Nat.zero_le 1
  | given h => exact Nat.le_refl 1

/-- Nothing is wrong with the words that make up a call. -/
theorem complaint?_of_means (h : Means d words call) :
    Line.complaint? d call.command { words := words } = none := by
  refine Line.complaint?_eq_none_iff.mpr ⟨fun s hs => absurd hs List.not_mem_nil, ?_, ?_⟩
  · intro p hp
    cases h with
    | outline hfile =>
      obtain rfl := List.mem_singleton.mp hp
      exact parameterComplaint?_file hfile
    | tags hroot =>
      obtain rfl := List.mem_singleton.mp hp
      exact parameterComplaint?_root hroot
    | watch hroot =>
      obtain rfl := List.mem_singleton.mp hp
      exact parameterComplaint?_root hroot
    | blocks tag hroot =>
      rcases List.mem_pair.mp hp with rfl | rfl
      · rfl
      · exact parameterComplaint?_root hroot
    | gather tag hroot =>
      rcases List.mem_pair.mp hp with rfl | rfl
      · rfl
      · exact parameterComplaint?_root hroot
    | exportBlock hfile hline hn =>
      rcases List.mem_pair.mp hp with rfl | rfl
      · exact parameterComplaint?_file hfile
      · exact parameterComplaint?_line hline hn
    | renameTag old new hroot =>
      rcases List.mem_cons.mp hp with rfl | hp
      · rfl
      rcases List.mem_pair.mp hp with rfl | rfl
      · rfl
      · exact parameterComplaint?_root hroot
  · cases h with
    | outline hfile => exact Nat.le_refl 1
    | exportBlock hfile hline hn => exact Nat.le_refl 2
    | tags hroot => exact length_of_givesRoot hroot
    | watch hroot => exact length_of_givesRoot hroot
    | blocks tag hroot => exact Nat.succ_le_succ (length_of_givesRoot hroot)
    | gather tag hroot => exact Nat.succ_le_succ (length_of_givesRoot hroot)
    | renameTag old new hroot =>
      exact Nat.succ_le_succ (Nat.succ_le_succ (length_of_givesRoot hroot))

/-- The words that make up a call are made this call. -/
theorem callOf_of_means (h : Means d words call) :
    callOf d call.command { words := words } = call := by
  cases h with
  | outline hfile => rfl
  | exportBlock hfile hline hn =>
    show Call.exportBlock _ ((Text.toInt? _).getD 1) none none false = _
    exact congrArg (fun n => Call.exportBlock _ (n.getD 1) none none false) hline
  | tags hroot => exact congrArg (fun p => Call.tags p.text) (rootPath_of_givesRoot hroot)
  | watch hroot => exact congrArg (fun p => Call.watch p.text) (rootPath_of_givesRoot hroot)
  | blocks tag hroot => exact congrArg (fun p => Call.blocks tag p.text) (rootPath_of_givesRoot hroot)
  | gather tag hroot =>
    exact congrArg (fun p => Call.gather tag p.text none none) (rootPath_of_givesRoot hroot)
  | renameTag old new hroot =>
    exact congrArg (fun p => Call.renameTag old new p.text) (rootPath_of_givesRoot hroot)

/-! ## Answers -/

/-- What is made of a command line ends the program with a code of at most two, or is a fault only
because of a null character. -/
def Answer.IsPlain (args : List Text) : Answer → Prop
  | .call _ _ => True
  | .ended e => e.exitCode ≤ 2
  | .raised e => e = .nullInPath ∧ ∃ arg ∈ args, '\x00' ∈ arg

theorem isPlain_unread (c : Option Command) (e : LineError) :
    Answer.IsPlain args (.ended (unread c e)) := by
  unfold unread
  split <;> exact Nat.le_refl 2

theorem isPlain_answerTo (hread : ¬l.Lacks '\x00' → ∃ arg ∈ args, '\x00' ∈ arg) :
    Answer.IsPlain args (answerTo d verbose c l) := by
  unfold answerTo
  split
  · exact Nat.zero_le 2
  · split
    · exact Nat.le_refl 2
    · next e h =>
      obtain ⟨he, hnull⟩ := Line.eq_nullInPath_of_complaint? h
      exact ⟨he, hread hnull⟩
    · trivial

theorem isPlain_question? {common : Line} {answer : Answer} (h : question? common = some answer) :
    Answer.IsPlain args answer := by
  unfold question? at h
  split at h
  · exact Option.some.inj h ▸ Nat.zero_le 2
  · exact Option.some.inj h ▸ Nat.zero_le 2
  · cases h

theorem isPlain_getD {common : Line} {answer : Answer} (h : Answer.IsPlain args answer) :
    Answer.IsPlain args ((question? common).getD answer) := by
  cases hquestion : question? common with
  | none => exact h
  | some asked => exact isPlain_question? hquestion

theorem isPlain_read (d : Disk) (args : List Text) : Answer.IsPlain args (standard.read d args) := by
  show Answer.IsPlain args (answerOf d args)
  unfold answerOf
  split
  · exact isPlain_unread none _
  · next common hcommon =>
    split
    · exact Nat.le_refl 2
    · refine isPlain_getD ?_
      unfold dispatch
      split
      · exact Nat.le_refl 2
      · next name rest hwords =>
        split
        · next c hname =>
          split
          · next l hline =>
            refine isPlain_answerTo fun hnull => ?_
            by_contra hargs
            push Not at hargs
            have hlacks := Line.lacks_of_read hargs hcommon
            rw [Line.Lacks, hwords, List.forall_mem_cons] at hlacks
            exact hnull (Line.lacks_of_read hlacks.1.2 hline)
          · exact isPlain_unread _ _
        · split
          · exact isPlain_getD (Nat.le_refl 2)
          · exact isPlain_unread none _

/-- The standard frontend is one that the program can be behind. -/
theorem isDocumented_standard (d : Disk) : standard.IsDocumented d where
  gives hargs h := by
    rw [read_of_line (read_of_gives _ hargs), answerTo, complaint?_of_means h]
    exact congrArg (Answer.call false) (callOf_of_means h)
  ended {args e} h := by
    have hplain := isPlain_read d args
    rwa [h] at hplain
  raised {args e} h := by
    have hplain := isPlain_read d args
    rwa [h] at hplain
  misuse c message := rfl
  failure c message := rfl
  refused c r := by cases r <;> rfl
  shown h := plain_of_notMem h

end TaggedOutline.Frontend
