import TaggedOutline.Config.Load

/-!
# Faults in looking for settings

Files that cannot be read and texts that are no TOML are passed over. Only two things make a file
halt the search (`Settings.Halts`): a name that is too long on the way to it, so that it cannot even
be told whether it is there, and values that are nested too deep. So there is no configuration because
of a path if the path itself runs into a loop of links, or if such a file comes before all that hold
settings (`Config.load_fault_iff`).
-/

namespace TaggedOutline

namespace Disk

variable {d : Disk} {p : Path} {kind : Entry → Bool} {e : FileError} {t : Text}

theorem leadsTo_eq_error_iff :
    d.leadsTo p kind = .error e ↔ p.text.contains '\x00' = false ∧
      d.lookup true p.text = .error .nameTooLong ∧ e = .unusable p.text .nameTooLong := by
  unfold leadsTo
  cases hnull : p.text.contains '\x00' with
  | true => simp
  | false =>
    rw [if_neg Bool.false_ne_true]
    split
    · next h => simp [h]
    · next h => simp [h, eq_comm]
    · next c hc h => simpa [h] using fun heq => absurd heq hc

/-- A path cannot be resolved because of a null character or a loop of links. -/
theorem eq_of_resolve (h : d.resolve p = .error e) :
    e = .nullInPath ∨ ∃ real, e = .linkLoop real := by
  unfold resolve at h
  split at h
  · exact .inl (Except.error.inj h).symm
  · dsimp only at h
    split at h
    · exact .inr ⟨_, (Except.error.inj h).symm⟩
    · cases h

/-- What can be read is there. -/
theorem leadsTo_of_readLines (h : d.readLines p = .ok t) :
    d.leadsTo p Entry.isFile = .ok true := by
  have hbytes : ∃ bytes, d.readBytes p = .ok bytes := by
    unfold readLines readText at h
    cases hread : d.readBytes p with
    | ok bytes => exact ⟨bytes, rfl⟩
    | error e => rw [hread] at h; cases h
  obtain ⟨bytes, hbytes⟩ := hbytes
  unfold readBytes at hbytes
  unfold leadsTo
  split at hbytes
  · cases hbytes
  · next hnull =>
    rw [if_neg hnull]
    split at hbytes
    · next hlookup => rw [hlookup]; rfl
    · cases hbytes
    · cases hbytes

end Disk

namespace Settings

variable {nesting : Nat} {d : Disk} {file p q : Path} {tables : List (List Text)} {e : FileError}
  {files : List (Path × List (List Text))}

/-- A file of settings is not passed over: it cannot even be told whether it is there, or what it
holds is nested too deep. -/
inductive Halts (nesting : Nat) (d : Disk) (file : Path) : FileError → Prop
  | unusable (hnull : file.text.contains '\x00' = false)
    (h : d.lookup true file.text = .error .nameTooLong) :
    Halts nesting d file (.unusable file.text .nameTooLong)
  | tooDeep (t : Text) (h : d.readLines file = .ok t)
    (hdeep : Toml.read nesting t = .error .tooDeep) : Halts nesting d file .tooDeep

theorem Halts.ne_nullInPath (h : Halts nesting d file e) : e ≠ .nullInPath := by
  cases h <;> exact fun heq => by cases heq

theorem tableOfFile_fault_iff :
    tableOfFile nesting d file = .error (.path e) ↔ Halts nesting d file e := by
  unfold tableOfFile
  constructor
  · intro h
    cases hleads : d.leadsTo file Entry.isFile with
    | error e' =>
      rw [hleads] at h
      obtain ⟨hnull, hlookup, rfl⟩ := Disk.leadsTo_eq_error_iff.mp hleads
      rw [← LoadError.path.inj (Except.error.inj h)]
      exact .unusable hnull hlookup
    | ok there =>
      rw [hleads] at h
      cases there with
      | false => cases h
      | true =>
        cases hread : d.readLines file with
        | error e' => rw [hread] at h; cases h
        | ok t =>
          rw [hread] at h
          cases htoml : Toml.read nesting t with
          | ok entries => simp only [htoml] at h; cases h
          | error fault =>
            simp only [htoml] at h
            cases fault with
            | invalid => cases h
            | tooManyDigits count => cases h
            | tooDeep =>
              rw [← LoadError.path.inj (Except.error.inj h)]
              exact .tooDeep t hread htoml
  · intro h
    cases h with
    | unusable hnull hlookup =>
      rw [Disk.leadsTo_eq_error_iff.mpr ⟨hnull, hlookup, rfl⟩]
      rfl
    | tooDeep t hread hdeep =>
      rw [Disk.leadsTo_of_readLines hread, hread]
      simp only [hdeep]
      rfl

theorem ofFile?_fault_iff :
    ofFile? nesting d file tables = .error (.path e) ↔ Halts nesting d file e := by
  rw [← tableOfFile_fault_iff]
  unfold ofFile?
  cases tableOfFile nesting d file with
  | error e' => simp [bind, Except.bind]
  | ok v =>
    simp only [bind, Except.bind]
    refine iff_of_false (fun h => ?_) fun h => by cases h
    split at h
    · next keys found _ =>
      cases hfound : ofFound file keys found with
      | error e' => rw [hfound] at h; cases h
      | ok s => rw [hfound] at h; cases h
    · cases h

/-- A search fails because of a path if a file halts it before any file that holds settings. -/
theorem ofFiles_fault_iff :
    ofFiles nesting d files = .error (.path e) ↔ ∃ before file after,
      files = before ++ file :: after ∧
        (∀ f ∈ before, ofFile? nesting d f.1 f.2 = .ok none) ∧ Halts nesting d file.1 e := by
  induction files with
  | nil =>
    refine iff_of_false (fun h => by cases h) ?_
    rintro ⟨before, file, after, hfiles, -⟩
    exact absurd hfiles (by simp)
  | cons first files ih =>
    unfold ofFiles
    cases hfirst : ofFile? nesting d first.1 first.2 with
    | error e' =>
      constructor
      · intro h
        rw [Except.error.inj h] at hfirst
        exact ⟨[], first, files, rfl, by simp, ofFile?_fault_iff.mp hfirst⟩
      · rintro ⟨before, file, after, hfiles, hbefore, hhalts⟩
        rcases List.cons_eq_append_iff.mp hfiles with ⟨rfl, heq⟩ | ⟨before, rfl, rfl⟩
        · obtain ⟨rfl, rfl⟩ := List.cons.inj heq
          rw [ofFile?_fault_iff.mpr hhalts] at hfirst
          rw [← Except.error.inj hfirst]
          rfl
        · rw [hbefore first List.mem_cons_self] at hfirst
          cases hfirst
    | ok found =>
      have hnot : ¬ Halts nesting d first.1 e := fun hhalts => by
        rw [ofFile?_fault_iff.mpr hhalts] at hfirst
        cases hfirst
      have hsplit : (∃ before file after, first :: files = before ++ file :: after ∧
          (∀ f ∈ before, ofFile? nesting d f.1 f.2 = .ok none) ∧ Halts nesting d file.1 e) ↔
          found = none ∧ ofFiles nesting d files = .error (.path e) := by
        rw [ih]
        constructor
        · rintro ⟨before, file, after, hfiles, hbefore, hhalts⟩
          rcases List.cons_eq_append_iff.mp hfiles with ⟨rfl, heq⟩ | ⟨before, rfl, rfl⟩
          · obtain ⟨rfl, rfl⟩ := List.cons.inj heq
            exact absurd hhalts hnot
          · obtain ⟨hnone, hbefore⟩ := List.forall_mem_cons.mp hbefore
            exact ⟨Except.ok.inj (hfirst.symm.trans hnone), before, file, after, rfl, hbefore,
              hhalts⟩
        · rintro ⟨rfl, before, file, after, rfl, hbefore, hhalts⟩
          exact ⟨first :: before, file, after, rfl, List.forall_mem_cons.mpr ⟨hfirst, hbefore⟩,
            hhalts⟩
      rw [hsplit]
      cases found with
      | none => exact (and_iff_right rfl).symm
      | some s => exact iff_of_false (fun h => by cases h) fun h => by cases h.1

theorem ofFile?_of_absent (h : d.leadsTo file Entry.isFile = .ok false) :
    ofFile? nesting d file tables = .ok none := by
  have htable : tableOfFile nesting d file = .ok none := by
    unfold tableOfFile
    rw [h]
    rfl
  have hfound : tables.findSome? (fun keys =>
      ((none : Option Value).bind (·.lookup? keys)).map fun found => (keys, found)) = none :=
    List.findSome?_eq_none_iff.mpr fun keys _ => rfl
  unfold ofFile?
  rw [htable]
  simp only [bind, Except.bind]
  rw [hfound]
  rfl

theorem ofFiles_of_absent (h : ∀ f ∈ files, d.leadsTo f.1 Entry.isFile = .ok false) :
    ofFiles nesting d files = .ok {} := by
  induction files with
  | nil => rfl
  | cons f files ih =>
    obtain ⟨hfile, hfiles⟩ := List.forall_mem_cons.mp h
    unfold ofFiles
    rw [ofFile?_of_absent hfile]
    exact ih hfiles

/-- The project file of a directory comes first. -/
theorem exists_candidates (q : Path) :
    ∃ tables files, candidates q = (q.join ["pyproject.toml".toList], tables) :: files := by
  unfold candidates sources
  rw [List.range_succ, List.reverse_append, List.reverse_singleton, List.singleton_append,
    List.flatMap_cons]
  simp only
  rw [List.take_length, List.map_cons, List.cons_append]
  exact ⟨_, _, rfl⟩

theorem load_of_resolve (h : d.resolve p = .ok q) :
    load nesting d p = ofFiles nesting d (candidates q) := by
  unfold load
  rw [h]
  rfl

/-- The settings for a path cannot be looked for: the path runs into a loop of links, or a file that
may hold the settings halts the search and none of those before it holds any. -/
inductive Fault (nesting : Nat) (d : Disk) (p : Path) : FileError → Prop
  | loop {real : Path} (h : d.resolve p = .error (.linkLoop real)) : Fault nesting d p (.linkLoop real)
  | file {q : Path} {e : FileError} {before after : List (Path × List (List Text))}
    {file : Path × List (List Text)} (hresolve : d.resolve p = .ok q)
    (hfiles : candidates q = before ++ file :: after)
    (hbefore : ∀ f ∈ before, ofFile? nesting d f.1 f.2 = .ok none)
    (h : Halts nesting d file.1 e) : Fault nesting d p e

end Settings

namespace Config

variable {nesting : Nat} {d : Disk} {p q : Path} {e : FileError}

/-- There is no configuration because of a path, other than for a null character in it, if the
settings cannot be looked for. -/
theorem load_fault_iff :
    Config.load nesting d p [] = .error (.path e) ∧ e ≠ .nullInPath ↔
      Settings.Fault nesting d p e := by
  cases hresolve : d.resolve p with
  | error e' =>
    have hload : Config.load nesting d p [] = .error (.path e') := by
      unfold Config.load Settings.load
      rw [hresolve]
      rfl
    rw [hload]
    constructor
    · rintro ⟨heq, hnull⟩
      obtain rfl := LoadError.path.inj (Except.error.inj heq)
      rcases Disk.eq_of_resolve hresolve with rfl | ⟨real, rfl⟩
      · exact absurd rfl hnull
      · exact .loop hresolve
    · intro h
      cases h with
      | loop h =>
        rw [hresolve] at h
        rw [Except.error.inj h]
        exact ⟨rfl, fun heq => by cases heq⟩
      | file h => rw [hresolve] at h; cases h
  | ok q =>
    have hload : Config.load nesting d p [] = .error (.path e) ↔
        Settings.ofFiles nesting d (Settings.candidates q) = .error (.path e) := by
      unfold Config.load
      rw [Settings.load_of_resolve hresolve]
      cases Settings.ofFiles nesting d (Settings.candidates q) with
      | error e' => simp [bind, Except.bind]
      | ok found =>
        refine iff_of_false (fun h => ?_) fun h => by cases h
        replace h : found.check.mapError LoadError.settings = .error (.path e) := h
        cases hcheck : found.check with
        | error e' => rw [hcheck] at h; cases h
        | ok c => rw [hcheck] at h; cases h
    rw [hload, Settings.ofFiles_fault_iff]
    constructor
    · rintro ⟨⟨before, file, after, hfiles, hbefore, hhalts⟩, -⟩
      exact .file hresolve hfiles hbefore hhalts
    · intro h
      cases h with
      | loop h => rw [hresolve] at h; cases h
      | file h hfiles hbefore hhalts =>
        obtain rfl := Except.ok.inj (hresolve.symm.trans h)
        exact ⟨⟨_, _, _, hfiles, hbefore, hhalts⟩, hhalts.ne_nullInPath⟩

/-- The configuration that the defaults of all settings make up. -/
def byDefault : Config where
  extensions := [".md".toList, ".markdown".toList, ".typ".toList]
  excludeDirs := [".git".toList, "node_modules".toList, ".venv".toList, "__pycache__".toList]
  remarkTag := "remark".toList
  maxPinned := 6
  defaultIcon := "tag".toList
  defaultColor := "charts.blue".toList
  tags := []
  maxFileSize := Setting.defaultMaxFileSize

/-- Where no file holds settings, the defaults make up the configuration. -/
theorem load_of_absent (hresolve : d.resolve p = .ok q)
    (h : ∀ f ∈ Settings.candidates q, d.leadsTo f.1 Entry.isFile = .ok false) :
    Config.load nesting d p [] = .ok byDefault := by
  unfold Config.load
  rw [Settings.load_of_resolve hresolve, Settings.ofFiles_of_absent h]
  rfl

end Config

end TaggedOutline
