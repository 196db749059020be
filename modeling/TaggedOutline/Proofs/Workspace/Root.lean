import TaggedOutline.Proofs.Workspace.Tree

/-!
# Scanning below any root

The root of a workspace may be absolute or relative and go up, as long as there is no link on its
way. If no path of a document starts with a tilde, a scan is carried through, whatever there is below
the root, and indexes each file that can be read under a name of its own, which is its absolute path
(`Workspace.indexed_of_unlinked`). A tilde is taken for the home directory of a user. Then two
documents may have the same name, and a scan ends if the user is unknown (`Workspace.scan_tilde`).
-/

namespace TaggedOutline

open Index (Agrees)

/-- The document at a path is that of a regular file whose size is within a limit and whose bytes
encode a text, and is known by the absolute path of the file. -/
def Disk.Holds (d : Disk) (limit : Int) (p : Path) (document : Document) : Prop :=
  ∃ place mode bytes, d.lookup false p.text = .ok (place, .file mode bytes) ∧
    (bytes.length : Int) ≤ limit ∧ Text.Utf8.decode bytes = .ok document.text ∧
      document.uri = (Path.absolute place).text ∧ document.markup = p.markup

/-- The document at a path that leads to a file through directories is read just if it is that of the
file. -/
theorem Disk.IsTree.load_eq_ok_iff_holds {d : Disk} {p : Path} {place : Place} {mode : Nat}
    {bytes : List UInt8} {limit : Int} {document : Document} (hd : d.IsTree)
    (h : d.Reaches p place (.file mode bytes)) (hshort : p.IsShort) (htilde : ¬p.HasTilde) :
    d.load p (some limit) = .ok document ↔ d.Holds limit p document := by
  have hlookup := h.lookup false
  rw [if_pos hshort] at hlookup
  rw [h.load_eq_ok_iff (hd.uriOf_of_reaches h htilde)]
  constructor
  · rintro ⟨-, hsize, hdecode, hname, hmarkup⟩
    exact ⟨place, mode, bytes, hlookup, hsize limit rfl, hdecode, hname, hmarkup⟩
  · rintro ⟨q, mode', bytes', hlookup', hsize, hdecode, hname, hmarkup⟩
    obtain ⟨rfl, hfile⟩ := Prod.mk.inj (Except.ok.inj (hlookup.symm.trans hlookup'))
    obtain ⟨rfl, rfl⟩ := Entry.file.inj hfile
    exact ⟨hshort, fun n hn => Option.some.inj hn ▸ hsize, hdecode, hname, hmarkup⟩

namespace Workspace

/-- A scan is carried through and indexes those documents at some paths that can be read. Each of
the paths leads to a file, and the absolute path of the file is the name for this path only. -/
structure Indexed (w : Workspace) (d : Disk) (paths : List Path) : Prop where
  answer : (w.scan d {}).1 = .ok true
  loads : (w.scan d {}).2.loads = paths
  named : ∀ p ∈ paths, ∃ place mode bytes, d.lookup false p.text = .ok (place, .file mode bytes) ∧
    d.uriOf p = .ok (Path.absolute place).text
  distinct : paths.Nodup ∧ ∀ p ∈ paths, ∀ p' ∈ paths, d.uriOf p = d.uriOf p' → p = p'
  index : ∃ documents, Agrees (w.scan d {}).2.workspace.index documents ∧
    ∀ document, document ∈ documents ↔ ∃ p ∈ paths, d.Holds w.config.maxFileSize p document

variable {w : Workspace} {d : Disk} {t : Text}

/-- A scan below a root without links on its way is carried through and indexes the documents that
can be read, if no path of a document is too long or starts with a tilde. -/
theorem indexed_of_documents (hd : d.IsTree) (hidle : w.Idle) (hproper : w.root.IsProper)
    (hunlinked : d.UnlinkedTo w.root) {paths : List Path}
    (hpaths : d.documents w.root w.config.extensions w.config.excludeDirs = .ok paths)
    (hplain : ∀ p ∈ paths, p.IsShort ∧ ¬p.HasTilde) : w.Indexed d paths := by
  obtain ⟨place, hfiles⟩ := hd.reaches_of_documents hproper hunlinked hpaths
  have hdistinct : ∀ p ∈ paths, ∀ p' ∈ paths, d.uriOf p = d.uriOf p' → p = p' := by
    intro p hp p' hp' heq
    obtain ⟨names, mode, bytes, hjoin, hreaches⟩ := hfiles p hp
    obtain ⟨names', mode', bytes', hjoin', hreaches'⟩ := hfiles p' hp'
    rw [hd.uriOf_of_reaches hreaches (hplain p hp).2,
      hd.uriOf_of_reaches hreaches' (hplain p' hp').2] at heq
    have hplaces := Path.absolute_text_injective (hd.names_of_found hreaches.entry)
      (hd.names_of_found hreaches'.entry) (Except.ok.inj heq)
    rw [hjoin, hjoin', List.append_cancel_left hplaces]
  have hnodup := hd.nodup_of_documents hpaths
  have hcompleted : Completed w d {} paths := by
    refine completed_of_isReadFailure hidle hpaths fun p hp e hload => ?_
    obtain ⟨names, mode, bytes, -, hreaches⟩ := hfiles p hp
    exact Disk.isReadFailure_of_uriOf hreaches.proper.not_contains_null
      (hd.uriOf_of_reaches hreaches (hplain p hp).2) hload
  refine
    { answer := hcompleted.answer
      loads := hcompleted.loads
      named := fun p hp => ?_
      distinct := ⟨hnodup, hdistinct⟩
      index := ⟨w.readable d, agrees_of_scan hcompleted.answer
        (nodup_uris_of_injective hpaths hnodup hdistinct), fun document => ?_⟩ }
  · obtain ⟨names, mode, bytes, -, hreaches⟩ := hfiles p hp
    have hlookup := hreaches.lookup false
    rw [if_pos (hplain p hp).1] at hlookup
    exact ⟨_, mode, bytes, hlookup, hd.uriOf_of_reaches hreaches (hplain p hp).2⟩
  · rw [mem_readable_of_documents hpaths]
    refine exists_congr fun p => and_congr_right fun hp => ?_
    obtain ⟨names, mode, bytes, -, hreaches⟩ := hfiles p hp
    exact hd.load_eq_ok_iff_holds hreaches (hplain p hp).1 (hplain p hp).2

/-- Below a root without links on its way all documents are found if they are within reach of the
walk. A scan is then carried through and indexes those that can be read, if no path of a document is
too long or starts with a tilde. -/
theorem indexed_of_unlinked (hd : d.IsTree) (hidle : w.Idle) (hroot : w.root = .ofText t)
    (hnull : '\x00' ∉ t) (hunlinked : d.UnlinkedTo w.root) :
    ((∀ place, d.lookup true w.root.text = .ok (place, .directory) →
        d.AllWithinReach w.root place w.config.extensions w.config.excludeDirs) →
      ∃ paths, d.documents w.root w.config.extensions w.config.excludeDirs = .ok paths) ∧
    ∀ paths, d.documents w.root w.config.extensions w.config.excludeDirs = .ok paths →
      (∀ p ∈ paths, p.IsShort ∧ ¬p.HasTilde) → w.Indexed d paths := by
  have hproper : w.root.IsProper := hroot ▸ Path.isProper_ofText hnull
  refine ⟨fun hreach => ?_, fun paths hpaths hplain =>
    indexed_of_documents hd hidle hproper hunlinked hpaths hplain⟩
  by_cases hdirectory : ∃ place, d.lookup true w.root.text = .ok (place, .directory)
  · obtain ⟨place, hdirectory⟩ := hdirectory
    obtain ⟨paths, hpaths, -⟩ :=
      Disk.exists_documents hproper.not_contains_null hdirectory (hreach place hdirectory)
    exact ⟨paths, hpaths⟩
  · exact ⟨[], Disk.documents_of_not_directory hproper.not_contains_null
      fun place hfound => hdirectory ⟨place, hfound⟩⟩

/-- A relative root that goes up. Beside a file that can be read there are one that is no text, one
that is too large, links, and one below a directory that starts with a tilde itself. -/
theorem indexed_of_unlinked_up :
    let d : Disk := ⟨[['w']], [([['w']], .directory), ([['r']], .directory),
      ([['r'], "a.md".toList], .file 0 [35, 32, 97]), ([['r'], "b.md".toList], .file 0 [255]),
      ([['r'], "c.md".toList], .file 0 [35, 32, 35, 32]),
      ([['r'], "m.md".toList], .link "a.md".toList), ([['r'], ['d']], .directory),
      ([['r'], ['d'], "~.md".toList], .file 0 []), ([['r'], ['l']], .link "../w".toList)], []⟩
    let t : Text := "../r".toList
    let w : Workspace := fresh (.ofText t) ⟨[".md".toList], [], [], 0, [], [], [], 3⟩ ⟨[]⟩
    let paths : List Path := [["a.md".toList], ["b.md".toList], ["c.md".toList],
      [['d'], "~.md".toList]].map w.root.join
    d.IsTree ∧ w.Idle ∧ '\x00' ∉ t ∧ d.UnlinkedTo w.root ∧
      d.AllWithinReach w.root [['r']] w.config.extensions w.config.excludeDirs ∧
      (∀ p ∈ paths, p.IsShort ∧ ¬p.HasTilde) ∧ w.Indexed d paths := by
  intro d t w paths
  have hd : d.IsTree := by decide +kernel
  have hunlinked : d.UnlinkedTo w.root := by decide +kernel
  have hplain : ∀ p ∈ paths, p.IsShort ∧ ¬p.HasTilde := by decide +kernel
  have hroot : d.lookup true w.root.text = .ok ([['r']], .directory) := by decide +kernel
  have hreach : d.AllWithinReach w.root [['r']] w.config.extensions w.config.excludeDirs := by
    decide +kernel
  have hfound : d.listed w.root [['r']] w.config.extensions w.config.excludeDirs =
      [(["a.md".toList], false), (["b.md".toList], false), (["c.md".toList], false),
        (["m.md".toList], true), ([['d'], "~.md".toList], false)] := by
    decide +kernel
  have hdocuments : d.documents w.root w.config.extensions w.config.excludeDirs = .ok paths :=
    Disk.documents_of_pairwise rfl hroot hfound (by decide +kernel) (by decide +kernel)
  obtain ⟨hfinds, hindexed⟩ :=
    indexed_of_unlinked hd ⟨rfl, rfl⟩ rfl (by decide : '\x00' ∉ t) hunlinked
  obtain ⟨found, hpaths⟩ := hfinds fun place hplace => by
    rw [(Prod.mk.inj (Except.ok.inj (hroot.symm.trans hplace))).1.symm]
    exact hreach
  obtain rfl := Except.ok.inj (hpaths.symm.trans hdocuments)
  exact ⟨hd, ⟨rfl, rfl⟩, by decide, hunlinked, hreach, hplain, hindexed _ hpaths hplain⟩

/-- A file whose name starts with a tilde ends the scan below a relative root, and files in a
directory that is named by a tilde share the names of others. -/
theorem scan_tilde :
    let w : Workspace := fresh (.ofText ['.']) ⟨[".md".toList], [], [], 0, [], [], [], 9⟩ ⟨[]⟩
    let user : Disk := ⟨[['w']], [([['w']], .directory), ([['w'], "~u.md".toList], .file 0 [])], []⟩
    let shared : Disk := ⟨[['w']], [([['w']], .directory), ([['w'], "a.md".toList], .file 0 []),
      ([['w'], ['~']], .directory), ([['w'], ['~'], "a.md".toList], .file 0 [])],
      [([], "/w".toList)]⟩
    (user.IsTree ∧ user.UnlinkedTo w.root ∧ (w.scan user {}).1 = .error (.file .noHome)) ∧
      shared.IsTree ∧ shared.UnlinkedTo w.root ∧
        shared.documents w.root w.config.extensions w.config.excludeDirs =
          .ok [w.root.join ["a.md".toList], w.root.join [['~'], "a.md".toList]] ∧
        shared.uriOf (w.root.join ["a.md".toList]) = .ok "/w/a.md".toList ∧
        shared.uriOf (w.root.join [['~'], "a.md".toList]) = .ok "/w/a.md".toList := by
  intro w user shared
  have huser : user.lookup true w.root.text = .ok ([['w']], .directory) := by decide +kernel
  have hshared : shared.lookup true w.root.text = .ok ([['w']], .directory) := by decide +kernel
  have huserFound : user.listed w.root [['w']] w.config.extensions w.config.excludeDirs =
      [(["~u.md".toList], false)] := by
    decide +kernel
  have hsharedFound : shared.listed w.root [['w']] w.config.extensions w.config.excludeDirs =
      [(["a.md".toList], false), ([['~'], "a.md".toList], false)] := by
    decide +kernel
  have hpaths : user.documents w.root w.config.extensions w.config.excludeDirs =
      .ok ([] ++ w.root.join ["~u.md".toList] :: []) :=
    Disk.documents_of_pairwise rfl huser huserFound (by decide +kernel) (List.pairwise_singleton _ _)
  have hload : w.loadFile user (w.root.join ["~u.md".toList]) = .error .noHome := by
    decide +kernel
  have hfault : w.faultAt user {} 1 (w.root.join ["~u.md".toList]) = some (.file .noHome) := by
    unfold faultAt
    rw [hload]
    rfl
  have hbroken := brokenOff_of_fault ⟨rfl, rfl⟩ hpaths
    (ScanPlan.isLeast_one (ScanPlan.quiet_empty _ _)) (List.append_nil _)
    (fun i p hp => by simp at hp) hfault
  refine ⟨⟨by decide +kernel, by decide +kernel, hbroken.answer⟩, by decide +kernel,
    by decide +kernel, ?_, by decide +kernel, by decide +kernel⟩
  exact Disk.documents_of_pairwise rfl hshared hsharedFound (by decide +kernel) (by decide +kernel)

end Workspace

end TaggedOutline
