import TaggedOutline.Proofs.Command.Fault
import TaggedOutline.Proofs.Disk.Fault

/-!
# Faults of commands that read one file

The document at a path is not read if the settings for it cannot be looked for or there is no name for
it (`ReadFault`). Otherwise showing its outline has no fault, and exporting a block has one if a
preamble cannot be read or the file beside the document cannot have the name that the title makes up
(`ExportFault`).
-/

namespace TaggedOutline.Command

open Command.Run (fault? fault?_bind_of_none fault?_disk_bind fault?_orStop_bind fault?_orStop
  fault?_forM)

variable {env : Environment} {d : Disk} {con : Console} {preamble output : Option Text} {save : Bool}
  {e : FileError}

/-! ## Paths that are given -/

theorem ofText_not_contains_null {t : Text} (h : '\x00' ∉ t) :
    (Path.ofText t).text.contains '\x00' = false :=
  Path.ofText_not_contains_null (by simpa using h)

theorem pathGiven_not_contains_null {given : Option Text} (h : ∀ t ∈ given, '\x00' ∉ t) {q : Path}
    (hq : pathGiven given = some q) : q.text.contains '\x00' = false := by
  obtain ⟨t, ht, rfl⟩ := Option.map_eq_some_iff.mp hq
  exact ofText_not_contains_null (h t (Option.filter_eq_some_iff.mp ht).1)

/-! ## Documents -/

/-- A fault that concerns the file itself is told to the user. -/
theorem fault?_ite_isReadFailure {reason : FileError} {message : String} :
    (if reason.isReadFailure then failure message else .fault reason).fault? = some e ↔
      reason = e ∧ e.isReadFailure = false := by
  split
  · next h =>
    refine ⟨fun hnone => (by cases hnone), ?_⟩
    rintro ⟨heq, hfault⟩
    rw [heq, hfault] at h
    cases h
  · next h =>
    rw [Bool.not_eq_true] at h
    simp only [Stop.fault?, Option.some.injEq]
    exact ⟨fun heq => ⟨heq, heq ▸ h⟩, And.left⟩

theorem fault?_fileStop {reason : FileError} :
    (fileStop reason).fault? = some e ↔ reason = e ∧ e.isReadFailure = false :=
  fault?_ite_isReadFailure

/-- A document that is there cannot be read, since there is no name for it. -/
def NameFault (d : Disk) (config : Config) (p : Path) (e : FileError) : Prop :=
  (∃ r, d.regularFile p (some config.maxFileSize) = .ok r) ∧ d.uriOf p = .error e

/-- The document at a path is not read for a reason that is not told to the user. -/
inductive ReadFault (env : Environment) (d : Disk) (p : Path) : FileError → Prop
  | settings {e : FileError} (h : Settings.Fault env.nesting d p.parent e) : ReadFault env d p e
  | name {e : FileError} {config : Config} (hconfig : GoesBy env d p.parent config)
    (h : NameFault d config p e) : ReadFault env d p e

theorem readFault_iff {p : Path} : ReadFault env d p e ↔
    Settings.Fault env.nesting d p.parent e ∨
      ∃ config, GoesBy env d p.parent config ∧ NameFault d config p e := by
  constructor
  · rintro (h | ⟨hconfig, h⟩)
    · exact .inl h
    · exact .inr ⟨_, hconfig, h⟩
  · rintro (h | ⟨config, hconfig, h⟩)
    · exact .settings h
    · exact .name hconfig h

/-- What starts with the document at a path has a fault if there is no name for the document, and
else those of what is done with it. -/
theorem fault?_load_bind {α : Type} {config : Config} {p : Path} {stop : FileError → Stop}
    {f : Document → Command.Run α} (hnull : p.text.contains '\x00' = false)
    (hstop : ∀ reason, (stop reason).fault? = some e ↔ reason = e ∧ e.isReadFailure = false) :
    fault? (Run.orStop stop (d.load p (some config.maxFileSize)) >>= f) con = some e ↔
      NameFault d config p e ∨ ∃ document, d.load p (some config.maxFileSize) = .ok document ∧
        fault? (f document) con = some e := by
  rw [fault?_orStop_bind, NameFault, ← Disk.load_fault_iff hnull]
  refine or_congr_left ?_
  constructor
  · rintro ⟨reason, hload, hreason⟩
    obtain ⟨rfl, hfault⟩ := (hstop reason).mp hreason
    exact ⟨hload, hfault⟩
  · exact fun ⟨hload, hfault⟩ => ⟨e, hload, (hstop e).mpr ⟨rfl, hfault⟩⟩

/-- A command that reads the document at a path has the faults of reading it, and with the document
those of what follows. -/
theorem fault?_readDocument_bind {α : Type} {p : Path} {stop : FileError → Stop}
    {f : Document → Command.Run α} (hnull : p.text.contains '\x00' = false)
    (hstop : ∀ reason, (stop reason).fault? = some e ↔ reason = e ∧ e.isReadFailure = false) :
    fault? (loadConfig env p.parent >>= fun config => Run.disk >>= fun d =>
      Run.orStop stop (d.load p (some config.maxFileSize)) >>= f) con = some e ↔
      ReadFault env con.disk p e ∨ ∃ config document, GoesBy env con.disk p.parent config ∧
        con.disk.load p (some config.maxFileSize) = .ok document ∧
          fault? (f document) con = some e := by
  rw [fault?_loadConfig_bind, readFault_iff]
  simp only [fault?_disk_bind, fault?_load_bind hnull hstop, and_or_left, exists_or, or_assoc,
    exists_and_left]

/-! ## Outlines -/

theorem fault?_showOutline {file : Text} (hnull : '\x00' ∉ file) :
    fault? (showOutline env file) con = some e ↔ ReadFault env con.disk (.ofText file) e := by
  unfold showOutline
  refine (fault?_readDocument_bind (ofText_not_contains_null hnull)
    fun _ => fault?_ite_isReadFailure).trans (or_iff_left ?_)
  rintro ⟨config, document, -, -, hfault⟩
  rw [fault?_forM fun _ _ _ => rfl] at hfault
  cases hfault

/-! ## Blocks -/

/-- A text can be written but to a path with a null character, or the user is told why it cannot. -/
theorem fault?_emit {t : Text} {p : Path} :
    fault? (emit t (some p)) con = some e ↔ p.text.contains '\x00' = true ∧ e = .nullInPath := by
  have hstop : fault? (emit t (some p)) con =
      fault? (Run.orStop fileStop (con.disk.write p t) >>= Run.setDisk) con := fault?_disk_bind _ con
  rw [hstop, fault?_bind_of_none fun _ _ _ => rfl, fault?_orStop, ← Disk.write_fault_iff]
  constructor
  · rintro ⟨reason, hwrite, hreason⟩
    obtain ⟨heq, hfault⟩ := fault?_fileStop.mp hreason
    exact ⟨heq ▸ hwrite, hfault⟩
  · exact fun ⟨hwrite, hfault⟩ => ⟨e, hwrite, fault?_fileStop.mpr ⟨rfl, hfault⟩⟩

/-- The faults of exporting the block of a node that was found: a preamble cannot be read, or the
name made from the title has a null character. -/
inductive ExportFault (d : Disk) (preamble output : Option Text) (save : Bool) (p : Path)
    (n : Node) : FileError → Prop
  | preamble {q : Path} {e : FileError} (hgiven : pathGiven preamble = some q)
    (hread : d.readLines q = .error e) : ExportFault d preamble output save p n e
  | beside (hpreamble : ∀ q, pathGiven preamble = some q → ∃ t, d.readLines q = .ok t)
    (houtput : pathGiven output = none) (hsave : save = true)
    (hnull : (exportPath p n).text.contains '\x00' = true) :
    ExportFault d preamble output save p n .nullInPath

/-- What starts with reading the preamble has the faults of exporting, if what is done with its text
has a fault only beside the document. -/
theorem fault?_preambleText_bind {p : Path} {n : Node} {f : Text → Command.Run Unit}
    (hf : ∀ t, fault? (f t) con = some e ↔ pathGiven output = none ∧ save = true ∧
      (exportPath p n).text.contains '\x00' = true ∧ e = .nullInPath) :
    fault? (preambleText preamble >>= f) con = some e ↔
      ExportFault con.disk preamble output save p n e := by
  unfold preambleText
  cases hgiven : pathGiven preamble with
  | none =>
    simp only [pure_bind, hf]
    constructor
    · rintro ⟨hout, hsave, hbeside, rfl⟩
      exact .beside (fun q hq => by cases hgiven.symm.trans hq) hout hsave hbeside
    · rintro (⟨hq, -⟩ | ⟨-, hout, hsave, hbeside⟩)
      · cases hgiven.symm.trans hq
      · exact ⟨hout, hsave, hbeside, rfl⟩
  | some q =>
    simp only [bind_assoc, fault?_disk_bind, fault?_orStop_bind, hf]
    constructor
    · rintro (⟨reason, hread, hreason⟩ | ⟨t, hread, hout, hsave, hbeside, rfl⟩)
      · exact .preamble hgiven (Option.some.inj hreason ▸ hread)
      · refine .beside (fun q' hq => ⟨t, ?_⟩) hout hsave hbeside
        rw [← Option.some.inj (hgiven.symm.trans hq), hread]
    · rintro (⟨hq, hread⟩ | ⟨hpreamble, hout, hsave, hbeside⟩)
      · obtain rfl := Option.some.inj (hgiven.symm.trans hq)
        exact .inl ⟨e, hread, rfl⟩
      · obtain ⟨t, hread⟩ := hpreamble q hgiven
        exact .inr ⟨t, hread, hout, hsave, hbeside, rfl⟩

/-- A text that is exported goes to the path that is given, which has no null character, or beside the
document, or is shown. -/
theorem fault?_deliver {p : Path} {n : Node} (houtput : ∀ t ∈ output, '\x00' ∉ t)
    (t line : Text) :
    fault? (match pathGiven output with
      | some q => emit t (some q)
      | none =>
        if save then emit t (some (exportPath p n)) >>= fun _ => Run.echoLine line
        else emit t none) con = some e ↔
      pathGiven output = none ∧ save = true ∧
        (exportPath p n).text.contains '\x00' = true ∧ e = .nullInPath := by
  cases hout : pathGiven output with
  | some q =>
    simp only [fault?_emit, pathGiven_not_contains_null houtput hout]
    simp
  | none =>
    cases save with
    | true =>
      simp only [if_true, true_and]
      rw [fault?_bind_of_none fun _ _ _ => rfl, fault?_emit]
    | false => exact iff_of_false (fun h => by cases h) fun h => by cases h.2.1

/-- The heading on a line of the document at a path. -/
def Finds (env : Environment) (d : Disk) (p : Path) (line : Int) (n : Node) : Prop :=
  ∃ config document, GoesBy env d p.parent config ∧
    d.load p (some config.maxFileSize) = .ok document ∧
    (Outline.ofHeadings (Heading.ofDocument document)).findByLine? (line - 1) = some n

theorem fault?_exportHeading {file : Text} {line : Int} (hnull : '\x00' ∉ file)
    (houtput : ∀ t ∈ output, '\x00' ∉ t) :
    fault? (exportHeading env file line preamble output save) con = some e ↔
      ReadFault env con.disk (.ofText file) e ∨ ∃ n, Finds env con.disk (.ofText file) line n ∧
        ExportFault con.disk preamble output save (.ofText file) n e := by
  unfold exportHeading
  simp only [loadDocument, bind_assoc]
  rw [fault?_readDocument_bind (ofText_not_contains_null hnull) fun _ => fault?_fileStop]
  refine or_congr_right ⟨?_, ?_⟩
  · rintro ⟨config, document, hconfig, hload, hfault⟩
    split at hfault
    · cases hfault
    · next n hfind =>
      exact ⟨n, ⟨config, document, hconfig, hload, hfind⟩,
        (fault?_preambleText_bind fun t => fault?_deliver houtput _ _).mp hfault⟩
  · rintro ⟨n, ⟨config, document, hconfig, hload, hfind⟩, hexport⟩
    refine ⟨config, document, hconfig, hload, ?_⟩
    simp only [hfind]
    exact (fault?_preambleText_bind fun t => fault?_deliver houtput _ _).mpr hexport

end TaggedOutline.Command
