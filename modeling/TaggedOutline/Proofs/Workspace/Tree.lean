import Mathlib.Data.List.Pairwise
import TaggedOutline.Proofs.Disk.Tree
import TaggedOutline.Proofs.Index.Queries
import TaggedOutline.Proofs.Workspace.Passes

/-!
# Scanning a tree

The root of a workspace is a directory of a disk that is a tree (`Workspace.Planted`). Then each
document that can be read is the file at a place of its own (`Planted.exists_place`), a scan that
finds the documents is carried through whatever cannot be read (`Planted.scan_eq`), and under a tag
the index has the headings of the documents that carry it (`Index.Agrees.sort_uris_under`).
-/

namespace TaggedOutline

open Index (Agrees mem_occurrences)

/-- A heading of the document has the tag. -/
def Document.Carries (document : Document) (tag : Text) : Prop :=
  ∃ h ∈ Heading.ofDocument document, tag ∈ h.tags

instance (document : Document) (tag : Text) : Decidable (document.Carries tag) :=
  inferInstanceAs (Decidable (∃ h ∈ Heading.ofDocument document, tag ∈ h.tags))

/-- The names of the documents under a tag are those of the documents that carry it. -/
theorem Index.Agrees.sort_uris_under {i : Index} {ds : List Document} (h : Agrees i ds)
    (tag : Text) :
    Text.sort (Text.distinct ((i.under tag).map (·.uri))) =
      Text.sort ((ds.filter (·.Carries tag)).map Document.uri) := by
  refine Text.sort_eq_of_mem_iff (Text.nodup_distinct _) ?_ fun uri => ?_
  · exact h.uris.sublist (List.filter_sublist.map Document.uri)
  · rw [Text.mem_distinct, h.under_eq]
    simp only [List.mem_map, List.mem_filter, decide_eq_true_eq]
    constructor
    · rintro ⟨e, he, rfl⟩
      obtain ⟨d, hd, g, hg, htag, rfl⟩ := mem_occurrences.mp he
      exact ⟨d, ⟨hd, g, hg, htag⟩, rfl⟩
    · rintro ⟨d, ⟨hd, g, hg, htag⟩, rfl⟩
      exact ⟨Index.entry d g, mem_occurrences.mpr ⟨d, hd, g, hg, htag, rfl⟩, rfl⟩

namespace Workspace

/-- The documents that can be read have distinct names if no name is that of two paths. -/
theorem nodup_uris_of_injective {w : Workspace} {d : Disk} {paths : List Path}
    (hpaths : d.documents w.root w.config.extensions w.config.excludeDirs = .ok paths)
    (hnodup : paths.Nodup) (hinj : ∀ p ∈ paths, ∀ p' ∈ paths, d.uriOf p = d.uriOf p' → p = p') :
    ((w.readable d).map Document.uri).Nodup := by
  unfold readable
  rw [hpaths]
  refine List.pairwise_map.mpr (List.Pairwise.filterMap _ ?_ (hnodup.imp_of_mem
    (S := fun p p' => p ∈ paths ∧ p' ∈ paths ∧ p ≠ p') fun hp hp' hne => ⟨hp, hp', hne⟩))
  rintro p p' ⟨hp, hp', hne⟩ document hload document' hload' heq
  refine hne (hinj p hp p' hp' ?_)
  rw [Disk.uriOf_of_load (toOption_eq_some_iff.mp hload),
    Disk.uriOf_of_load (toOption_eq_some_iff.mp hload'), heq]

theorem readable_of_documents_error {w : Workspace} {d : Disk} {e : FileError}
    (h : d.documents w.root w.config.extensions w.config.excludeDirs = .error e) :
    w.readable d = [] := by
  unfold readable
  rw [h]

theorem exists_documents_of_mem_readable {w : Workspace} {d : Disk} {document : Document}
    (h : document ∈ w.readable d) :
    ∃ paths, d.documents w.root w.config.extensions w.config.excludeDirs = .ok paths := by
  cases hpaths : d.documents w.root w.config.extensions w.config.excludeDirs with
  | ok paths => exact ⟨paths, rfl⟩
  | error e =>
    rw [readable_of_documents_error hpaths] at h
    exact absurd h List.not_mem_nil

/-- The root of the workspace is the path of a directory of a disk that is a tree. -/
structure Planted (w : Workspace) (d : Disk) (place : Place) : Prop where
  tree : d.IsTree
  root : w.root = .absolute place
  directory : d.lookup true (Path.absolute place).text = .ok (place, .directory)

namespace Planted

variable {w : Workspace} {d : Disk} {place : Place} {document : Document}

/-- The documents are at distinct paths, each that of a file. -/
theorem place_of_documents (h : w.Planted d place) {paths : List Path}
    (hpaths : d.documents w.root w.config.extensions w.config.excludeDirs = .ok paths) :
    paths.Nodup ∧ ∀ p ∈ paths, ∃ q mode bytes, p = Path.absolute q ∧
      d.entry? q = some (.file mode bytes) := by
  rw [h.root] at hpaths
  exact ⟨h.tree.nodup_of_documents hpaths, fun p hp => h.tree.place_of_documents h.directory hpaths hp⟩

/-- Each document that can be read is that of the file at a place. -/
theorem exists_place (h : w.Planted d place) (hdocument : document ∈ w.readable d) :
    ∃ q mode bytes, d.entry? q = some (.file mode bytes) ∧
      d.load (.absolute q) (some w.config.maxFileSize) = .ok document := by
  obtain ⟨paths, hpaths⟩ := exists_documents_of_mem_readable hdocument
  obtain ⟨p, hp, hload⟩ := (mem_readable_of_documents hpaths).mp hdocument
  obtain ⟨q, mode, bytes, rfl, hentry⟩ := (h.place_of_documents hpaths).2 p hp
  exact ⟨q, mode, bytes, hentry, hload⟩

/-- The documents that can be read have distinct names. -/
theorem nodup_uris (h : w.Planted d place) : ((w.readable d).map Document.uri).Nodup := by
  cases hpaths : d.documents w.root w.config.extensions w.config.excludeDirs with
  | error e =>
    rw [readable_of_documents_error hpaths]
    exact List.nodup_nil
  | ok paths =>
    obtain ⟨hnodup, hfiles⟩ := h.place_of_documents hpaths
    refine nodup_uris_of_injective hpaths hnodup fun p hp p' hp' heq => ?_
    obtain ⟨q, mode, bytes, rfl, hentry⟩ := hfiles p hp
    obtain ⟨q', mode', bytes', rfl, hentry'⟩ := hfiles p' hp'
    rw [h.tree.uriOf_absolute hentry rfl, h.tree.uriOf_absolute hentry' rfl] at heq
    exact congrArg Path.absolute (Path.absolute_text_injective (h.tree.names_of_found hentry)
      (h.tree.names_of_found hentry') (Except.ok.inj heq))

/-- A scan that finds the documents is carried through, and the index agrees with those that can be
read. -/
theorem scan_eq (h : w.Planted d place) (hidle : w.Idle) {paths : List Path}
    (hpaths : d.documents w.root w.config.extensions w.config.excludeDirs = .ok paths) :
    (w.scan d {}).1 = .ok true ∧ Agrees (w.scan d {}).2.workspace.index (w.readable d) := by
  have hcompleted := completed_of_isReadFailure hidle hpaths fun p hp e hload => by
    obtain ⟨q, mode, bytes, rfl, hentry⟩ := (h.place_of_documents hpaths).2 p hp
    exact h.tree.isReadFailure_of_load hentry hload
  exact ⟨hcompleted.answer, agrees_of_scan hcompleted.answer h.nodup_uris⟩

end Planted

end Workspace

end TaggedOutline
