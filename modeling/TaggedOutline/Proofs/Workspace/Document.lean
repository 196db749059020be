import TaggedOutline.Proofs.Config.Suffixes
import TaggedOutline.Proofs.Disk.Walk
import TaggedOutline.Proofs.Text.Basic
import TaggedOutline.Workspace.Event

/-!
# Documents of events and of scans

An event concerns a document if no part of its path is an excluded directory, be it a part of the
root or the name of the file. A scan looks at the directories below the root only. So both agree on
a file just if the parts of the root and its own name are no excluded ones (`isDocument_iff`), as long
as all documents below the root are within reach of the scan.
-/

namespace TaggedOutline

namespace Path

variable {root : Path} {names : List Text}

theorem name_join (root : Path) (h : names ≠ []) : (root.join names).name = names.getLast h := by
  unfold name join
  rw [List.getLast?_append_of_ne_nil _ h, List.getLast?_eq_some_getLast h, Option.getD_some]

theorem parts_join (root : Path) (names : List Text) :
    (root.join names).parts = root.parts ++ names := by
  unfold parts join
  simp only
  split
  · rfl
  · rfl

theorem join_injective (root : Path) : Function.Injective root.join := by
  intro names names' h
  exact List.append_cancel_left (congrArg Path.names h)

/-- Only its last name decides about the suffix of a path. -/
theorem hasSuffix_join (suffixes : List Text) (root : Path) (h : names ≠ []) :
    (root.join names).hasSuffix suffixes = Path.hasSuffix suffixes ⟨[], names⟩ := by
  have hname : (root.join names).name = Path.name ⟨[], names⟩ := by
    rw [name_join root h]
    exact (name_join ⟨[], []⟩ h).symm
  unfold hasSuffix suffix
  rw [hname]

end Path

/-! ## Events -/

section Events

variable {given : Settings} {c : Config} {root : Path} {names : List Text}

/-- Beside the directories below the root, an event is judged by the parts of the root and by the
name of the file. -/
theorem Config.isDocument_join (hlower : ∀ suffix ∈ c.extensions, Text.lower suffix = suffix)
    (root : Path) (hnames : names ≠ []) :
    c.isDocument (root.join names) = true ↔
      isDocumentBelow (c.extensions.map Text.lower) c.excludeDirs names = true ∧
        (∀ part ∈ root.parts, part ∉ c.excludeDirs) ∧
          (root.join names).name ∉ c.excludeDirs := by
  have hsuffixes : c.extensions.map Text.lower = c.extensions := by
    conv_rhs => rw [← List.map_id c.extensions]
    exact List.map_congr_left hlower
  have hnone (parts : List Text) : (parts.all fun part => ¬Text.isIn part c.excludeDirs) = true ↔
      ∀ part ∈ parts, part ∉ c.excludeDirs := by
    simp [List.all_eq_true, Text.isIn_iff]
  have hsplit : names.dropLast ++ [names.getLast hnames] = names :=
    List.dropLast_append_getLast hnames
  have hparts : (∀ part ∈ names, part ∉ c.excludeDirs) ↔
      (∀ part ∈ names.dropLast, part ∉ c.excludeDirs) ∧ names.getLast hnames ∉ c.excludeDirs := by
    conv_lhs => rw [← hsplit]
    rw [List.forall_mem_append, List.forall_mem_singleton]
  unfold Config.isDocument isDocumentBelow
  rw [hsuffixes, Path.hasSuffix_join _ root hnames, Path.parts_join, Path.name_join root hnames,
    Bool.and_eq_true, Bool.and_eq_true, hnone, hnone, List.forall_mem_append, hparts]
  constructor
  · rintro ⟨hsuffix, hroot, hdirectories, hname⟩
    exact ⟨⟨hsuffix, hdirectories⟩, hroot, hname⟩
  · rintro ⟨⟨hsuffix, hdirectories⟩, hroot, hname⟩
    exact ⟨hsuffix, hroot, hdirectories, hname⟩

/-- An event for a file below the root of a workspace concerns a document just if a scan takes the
file for one, no part of the root is the name of an excluded directory, and the name of the file is
none. If no path of a document is too long, what a scan takes for a document is listed. -/
theorem isDocument_iff (hc : given.check = .ok c) {d : Disk} {place : Place}
    (hnull : root.text.contains '\x00' = false)
    (hroot : d.lookup true root.text = .ok (place, .directory))
    (hfile : names ∈ d.filesBelow place) :
    (c.isDocument (root.join names) = true ↔
      isDocumentBelow (c.extensions.map Text.lower) c.excludeDirs names = true ∧
        (∀ part ∈ root.parts, part ∉ c.excludeDirs) ∧ (root.join names).name ∉ c.excludeDirs) ∧
    (d.AllWithinReach root place c.extensions c.excludeDirs →
      ∃ paths, d.documents root c.extensions c.excludeDirs = .ok paths ∧
        (root.join names ∈ paths ↔
          isDocumentBelow (c.extensions.map Text.lower) c.excludeDirs names = true)) := by
  constructor
  · exact Config.isDocument_join (fun _ h => lower_of_mem_extensions hc h) root
      (Disk.mem_filesBelow.mp hfile).1
  · intro hreach
    obtain ⟨paths, hpaths, hmem⟩ := Disk.exists_documents hnull hroot hreach
    refine ⟨paths, hpaths, (hmem _).trans ⟨?_, fun hdocument => ⟨names, hfile, hdocument, rfl⟩⟩⟩
    rintro ⟨names', -, hdocument, hjoin⟩
    rwa [root.join_injective hjoin] at hdocument

/-- A file in a directory that is not excluded, beside one that is. -/
theorem isDocument_iff_beside :
    let given : Settings := ({} : Settings).set .excludeDirs (.list [.text "build".toList])
    let c : Config := ⟨[".md".toList, ".markdown".toList, ".typ".toList], ["build".toList],
      "remark".toList, 6, "tag".toList, "charts.blue".toList, [], Setting.defaultMaxFileSize⟩
    let d : Disk := ⟨[], [([['w']], .directory), ([['w'], ['b']], .directory),
      ([['w'], "build".toList], .directory), ([['w'], ['b'], "a.MD".toList], .file 0 [])], []⟩
    let root : Path := .absolute [['w']]
    given.check = .ok c ∧ root.text.contains '\x00' = false ∧
      d.lookup true root.text = .ok ([['w']], .directory) ∧
      d.AllWithinReach root [['w']] c.extensions c.excludeDirs ∧
      [['b'], "a.MD".toList] ∈ d.filesBelow [['w']] ∧
      ∃ paths, d.documents root c.extensions c.excludeDirs = .ok paths ∧
        root.join [['b'], "a.MD".toList] ∈ paths := by
  intro given c d root
  have hc : given.check = .ok c := rfl
  have hnull : root.text.contains '\x00' = false := by decide
  have hroot : d.lookup true root.text = .ok ([['w']], .directory) := rfl
  have hreach : d.AllWithinReach root [['w']] c.extensions c.excludeDirs := by decide +kernel
  have hfile : [['b'], "a.MD".toList] ∈ d.filesBelow [['w']] := by decide
  obtain ⟨hiff, hlisted⟩ := isDocument_iff hc hnull hroot hfile
  obtain ⟨paths, hpaths, hmem⟩ := hlisted hreach
  exact ⟨hc, hnull, hroot, hreach, hfile, paths, hpaths, hmem.mpr (hiff.mp (by decide)).1⟩

/-- A scan finds files of which events are passed over: one below a root with the name of an
excluded directory, and one that itself has such a name. -/
theorem isDocument_excluded :
    let c : Config := ⟨[".md".toList], ["build".toList, "a.md".toList], "remark".toList, 6,
      "tag".toList, "charts.blue".toList, [], Setting.defaultMaxFileSize⟩
    let d : Disk := ⟨[], [([['w']], .directory), ([['w'], "a.md".toList], .file 0 []),
      ([['w'], "build".toList], .directory), ([['w'], "build".toList, "b.md".toList], .file 0 [])],
      []⟩
    let build : Path := .absolute [['w'], "build".toList]
    let root : Path := .absolute [['w']]
    c.toSettings.check = .ok c ∧
      (d.documents build c.extensions c.excludeDirs = .ok [build.join ["b.md".toList]] ∧
        c.isDocument (build.join ["b.md".toList]) = false) ∧
      d.documents root c.extensions c.excludeDirs = .ok [root.join ["a.md".toList]] ∧
        c.isDocument (root.join ["a.md".toList]) = false := by
  intro c d build root
  have hbuild : d.lookup true build.text = .ok ([['w'], "build".toList], .directory) := by
    decide +kernel
  have hroot : d.lookup true root.text = .ok ([['w']], .directory) := by decide +kernel
  have hbelow : d.listed build [['w'], "build".toList] c.extensions c.excludeDirs =
      [(["b.md".toList], false)] := by
    decide +kernel
  have hfound : d.listed root [['w']] c.extensions c.excludeDirs = [(["a.md".toList], false)] := by
    decide +kernel
  exact ⟨rfl, ⟨Disk.documents_of_pairwise rfl hbuild hbelow (by decide +kernel)
    (List.pairwise_singleton _ _), by decide⟩, Disk.documents_of_pairwise rfl hroot hfound
    (by decide +kernel) (List.pairwise_singleton _ _), by decide⟩

end Events

end TaggedOutline
