import Mathlib.Data.List.Basic
import TaggedOutline.Disk.Walk
import TaggedOutline.Proofs.Disk.Way
import TaggedOutline.Proofs.Except
import TaggedOutline.Proofs.Table

/-!
# Files and documents below a root

The files below a place are the regular files at places that start with it. The documents of a root
are those of them that are documents by their names, in the order of the walk
(`mem_of_documents`). Of a file with the name of a document it must be possible to tell whether it is
a link: where a path is too long for this there is no list of documents
(`documents_eq_error_iff`).
-/

namespace TaggedOutline

namespace Disk

variable {d : Disk} {root : Path} {place : Place} {suffixes excluded names : List Text}
  {link : Bool} {paths : List Path} {e : FileError}

/-! ## Files and links -/

theorem leaf?_eq_some_iff {p : Place} : d.leaf? place p = some (names, link) ↔
    p = place ++ names ∧ names ≠ [] ∧ ∃ e, d.entry? p = some e ∧ e.isDirectory = false ∧
      e.isLink = link := by
  unfold leaf?
  constructor
  · intro h
    split at h
    · next e name rest hentry hbelow =>
      split at h
      · cases h
      · next hleaf =>
        obtain ⟨rfl, rfl⟩ := Prod.mk.inj (Option.some.inj h)
        exact ⟨(List.isPrefixOf?_eq_some_iff_append_eq.mp hbelow).symm, List.cons_ne_nil _ _, e, hentry,
          Bool.eq_false_iff.mpr hleaf, rfl⟩
    · cases h
  · rintro ⟨rfl, hne, e, hentry, hleaf, rfl⟩
    obtain ⟨name, rest, rfl⟩ := List.exists_cons_of_ne_nil hne
    simp only [hentry, List.isPrefixOf?_eq_some_iff_append_eq.mpr (rfl : place ++ name :: rest = _),
      hleaf, Bool.false_eq_true, if_false]

theorem mem_leavesBelow : (names, link) ∈ d.leavesBelow place ↔
    names ≠ [] ∧ ∃ e, d.entry? (place ++ names) = some e ∧ e.isDirectory = false ∧
      e.isLink = link := by
  unfold leavesBelow
  rw [List.mem_filterMap]
  constructor
  · rintro ⟨⟨p, e⟩, -, hleaf⟩
    obtain ⟨rfl, hleaf⟩ := leaf?_eq_some_iff.mp hleaf
    exact hleaf
  · rintro ⟨hne, e, hentry, hleaf⟩
    have hmem : (place ++ names, e) ∈ d.entries := by
      have hget := hentry
      rw [ entry?, if_neg (by simp [hne])] at hget
      exact Table.mem_of_get? hget
    exact ⟨_, hmem, leaf?_eq_some_iff.mpr ⟨rfl, hne, e, hentry, hleaf⟩⟩

theorem mem_filesBelow : names ∈ d.filesBelow place ↔
    names ≠ [] ∧ ∃ mode bytes, d.entry? (place ++ names) = some (.file mode bytes) := by
  have hleaf : names ∈ d.filesBelow place ↔ (names, false) ∈ d.leavesBelow place := by
    simp [filesBelow]
  rw [hleaf, mem_leavesBelow]
  refine and_congr_right fun _ => ⟨?_, fun ⟨mode, bytes, h⟩ => ⟨_, h, rfl, rfl⟩⟩
  rintro ⟨e, hentry, hdirectory, hlink⟩
  cases e with
  | directory => cases hdirectory
  | file mode bytes => exact ⟨mode, bytes, hentry⟩
  | link target => cases hlink

/-! ## Documents -/

/-- Neither the path of a file below a root nor the one of its directory in the walk is too long. -/
def IsWithinReach (root : Path) (names : List Text) : Prop :=
  isTooLong (walked root names.dropLast) = false ∧ isTooLong (root.join names).text = false

instance (root : Path) (names : List Text) : Decidable (IsWithinReach root names) :=
  inferInstanceAs (Decidable (_ ∧ _))

/-- All files and links below a place with names of documents are within reach. -/
def AllWithinReach (d : Disk) (root : Path) (place : Place) (suffixes excluded : List Text) : Prop :=
  ∀ leaf ∈ d.leavesBelow place, isDocumentBelow (suffixes.map Text.lower) excluded leaf.1 = true →
    IsWithinReach root leaf.1

instance (d : Disk) (root : Path) (place : Place) (suffixes excluded : List Text) :
    Decidable (d.AllWithinReach root place suffixes excluded) :=
  inferInstanceAs (Decidable (∀ _ ∈ _, _))

/-- The files and links with the names of documents in the directories that can be listed, before
they are put in order. -/
def listed (d : Disk) (root : Path) (place : Place) (suffixes excluded : List Text) :
    List (List Text × Bool) :=
  (d.leavesBelow place).filter fun leaf =>
    isDocumentBelow (suffixes.map Text.lower) excluded leaf.1 &&
      ¬ isTooLong (walked root leaf.1.dropLast)

theorem joinWritten_absolute (hplace : ∀ name ∈ place, IsFileName name) {name : Text}
    (hname : IsFileName name) :
    joinWritten (Path.absolute place).text name = (Path.absolute (place ++ [name])).text := by
  have hhead : name.head? ≠ some '/' := fun h => hname.no_slash (List.mem_of_mem_head? h)
  unfold joinWritten
  rw [if_neg (not_or.mpr ⟨hhead, (Path.isProper_absolute hplace).text_ne_nil⟩)]
  by_cases htop : place = []
  · rw [htop, if_pos (by decide)]
    rfl
  · have hends : Text.endsWith ['/'] (Path.absolute place).text = false := by
      refine Bool.eq_false_iff.mpr fun h => ?_
      obtain ⟨front, hfront⟩ := Option.isSome_iff_exists.mp h
      -- The text would end with an empty name.
      have hsplit : written (Path.absolute place).text = [] :: place := by
        rw [Path.text_absolute, written_cons,
          written_joinWith (fun name hname => (hplace name hname).no_slash) htop]
      rw [Text.before?_eq_some_iff.mp hfront, written,
        Text.splitWhere_append_cons (by decide)] at hsplit
      have hlast := congrArg List.getLast? hsplit
      rw [show Text.splitWhere (· == '/') [] = [[]] from rfl, List.getLast?_concat,
        List.getLast?_cons_of_ne_nil htop] at hlast
      exact (hplace [] (List.mem_of_getLast? hlast.symm)).ne_nil rfl
    rw [hends, if_neg Bool.false_ne_true, Path.text_absolute, Path.text_absolute,
      Text.joinWith_concat _ _ htop]
    simp

/-- Below an absolute root the walk writes paths as they are. -/
theorem walked_absolute (hplace : ∀ name ∈ place, IsFileName name)
    (hnames : ∀ name ∈ names, IsFileName name) :
    walked (.absolute place) names = (Path.absolute (place ++ names)).text := by
  induction names using List.reverseRecOn with
  | nil => rw [List.append_nil]; rfl
  | append_singleton names name ih =>
    obtain ⟨hnames, hname⟩ := List.forall_mem_append.mp hnames
    rw [walked, List.foldl_concat, ← walked, ih hnames, ← List.append_assoc]
    exact joinWritten_absolute (List.forall_mem_append.mpr ⟨hplace, hnames⟩)
      (List.forall_mem_singleton.mp hname)

theorem text_below_absolute (place : Place) (name : Text) :
    (Path.absolute place).text <+: (Path.absolute (place ++ [name])).text := by
  rw [Path.text_absolute, Path.text_absolute]
  refine List.cons_prefix_cons.mpr ⟨rfl, ?_⟩
  by_cases htop : place = []
  · rw [htop]
    exact List.nil_prefix
  · rw [Text.joinWith_concat _ _ htop, List.append_assoc]
    exact List.prefix_append _ _

theorem isTooLong_mono {t t' : Text} (h : t <+: t') (ht : isTooLong t = true) :
    isTooLong t' = true := by
  obtain ⟨rest, rfl⟩ := h
  unfold isTooLong Text.Utf8.encode at ht ⊢
  rw [decide_eq_true_eq] at ht ⊢
  rw [List.flatMap_append, List.length_append]
  omega

/-- A file whose absolute path is not too long is within reach. -/
theorem isWithinReach_absolute (hplace : ∀ name ∈ place, IsFileName name)
    (hnames : ∀ name ∈ names, IsFileName name)
    (h : isTooLong (Path.absolute (place ++ names)).text = false) :
    IsWithinReach (.absolute place) names := by
  refine ⟨Bool.eq_false_iff.mpr fun hlong => Bool.eq_false_iff.mp h ?_, h⟩
  rw [walked_absolute hplace fun name hname => hnames name (List.dropLast_subset _ hname)] at hlong
  rcases List.eq_nil_or_concat names with rfl | ⟨front, name, rfl⟩
  · exact hlong
  · rw [List.concat_eq_append, List.dropLast_concat] at hlong
    rw [List.concat_eq_append, ← List.append_assoc]
    exact isTooLong_mono (text_below_absolute _ name) hlong

theorem not_isTooLong_of_load {p : Path} {limit : Option Int} {document : Document}
    (h : d.load p limit = .ok document) : isTooLong p.text = false := by
  refine Bool.eq_false_iff.mpr fun hlong => ?_
  have hlookup : d.lookup false p.text = .error .nameTooLong := by
    unfold lookup target
    rw [if_neg, if_pos (of_decide_eq_true hlong)]
    · rfl
    · intro hnil
      rw [hnil] at hlong
      cases hlong
  have hfile : ∃ r, d.regularFile p limit = .ok r := by
    unfold load at h
    obtain ⟨r, hr, -⟩ := exists_of_bind_eq_ok h
    exact ⟨r, hr⟩
  obtain ⟨r, hr⟩ := hfile
  unfold regularFile at hr
  rw [hlookup] at hr
  split at hr <;> cases hr

theorem mem_candidates : (names, link) ∈ d.candidates root place suffixes excluded ↔
    (names, link) ∈ d.leavesBelow place ∧
      isDocumentBelow (suffixes.map Text.lower) excluded names = true ∧
        isTooLong (walked root names.dropLast) = false := by
  simp [candidates]

theorem documents_of_not_directory (hnull : root.text.contains '\x00' = false)
    (h : ∀ place, d.lookup true root.text ≠ .ok (place, .directory)) :
    d.documents root suffixes excluded = .ok [] := by
  unfold documents
  rw [hnull, if_neg Bool.false_ne_true]
  split
  · next place hfound => exact absurd hfound (h place)
  · rfl

section Listed

variable (hnull : root.text.contains '\x00' = false)
  (hroot : d.lookup true root.text = .ok (place, .directory))

include hnull hroot

/-- There is no list of documents if there is a file or link with the name of a document in a
directory that is listed, whose own path is too long. -/
theorem documents_eq_error_iff :
    d.documents root suffixes excluded = .error e ↔
      ∃ found, (d.candidates root place suffixes excluded).find?
          (fun leaf => isTooLong (root.join leaf.1).text) = some found ∧
        e = .unusable (root.join found.1).text .nameTooLong := by
  unfold documents
  rw [hnull, hroot]
  simp only [Bool.false_eq_true, if_false]
  cases (d.candidates root place suffixes excluded).find?
      (fun leaf => isTooLong (root.join leaf.1).text) with
  | none => simp
  | some found => simp [eq_comm]

theorem mem_of_documents (h : d.documents root suffixes excluded = .ok paths) {p : Path} :
    p ∈ paths ↔ ∃ names ∈ d.filesBelow place,
      isDocumentBelow (suffixes.map Text.lower) excluded names = true ∧
        isTooLong (walked root names.dropLast) = false ∧ root.join names = p := by
  unfold documents at h
  rw [hnull, hroot] at h
  simp only [Bool.false_eq_true, if_false] at h
  split at h
  · cases h
  · rw [← Except.ok.inj h]
    simp only [List.mem_map, List.mem_filter, Prod.exists, mem_candidates, mem_leavesBelow,
      mem_filesBelow]
    constructor
    · rintro ⟨names, link, ⟨⟨⟨hne, e, hentry, hdirectory, hlink⟩, hdocument, hshort⟩, hfile⟩, hp⟩
      cases e with
      | directory => cases hdirectory
      | file mode bytes => exact ⟨names, ⟨hne, mode, bytes, hentry⟩, hdocument, hshort, hp⟩
      | link target => subst hlink; cases hfile
    · rintro ⟨names, ⟨hne, mode, bytes, hentry⟩, hdocument, hshort, hp⟩
      exact ⟨names, false, ⟨⟨⟨hne, _, hentry, rfl, rfl⟩, hdocument, hshort⟩, rfl⟩, hp⟩

/-- The documents below a root that is a directory are those files below its place that are
documents by their names, if all of them are within reach. -/
theorem exists_documents (h : d.AllWithinReach root place suffixes excluded) :
    ∃ paths, d.documents root suffixes excluded = .ok paths ∧ ∀ p, p ∈ paths ↔
      ∃ names ∈ d.filesBelow place,
        isDocumentBelow (suffixes.map Text.lower) excluded names = true ∧ root.join names = p := by
  cases hdocuments : d.documents root suffixes excluded with
  | error e =>
    obtain ⟨⟨names, link⟩, hfound, -⟩ := (documents_eq_error_iff hnull hroot).mp hdocuments
    obtain ⟨hleaf, hdocument, -⟩ := mem_candidates.mp (List.mem_of_find?_eq_some hfound)
    have hlong := List.find?_some hfound
    simp only [(h _ hleaf hdocument).2, Bool.false_eq_true] at hlong
  | ok paths =>
    refine ⟨paths, rfl, fun p => (mem_of_documents hnull hroot hdocuments).trans ?_⟩
    refine exists_congr fun names => and_congr_right fun hfile => and_congr_right fun hdocument => ?_
    obtain ⟨hne, mode, bytes, hentry⟩ := mem_filesBelow.mp hfile
    exact and_iff_right (h _ (mem_leavesBelow.mpr ⟨hne, _, hentry, rfl, rfl⟩) hdocument).1

/-- Documents that are already in the order of the walk are not rearranged. -/
theorem documents_of_pairwise {found : List (List Text × Bool)}
    (hfound : d.listed root place suffixes excluded = found)
    (hshort : ∀ leaf ∈ found, isTooLong (root.join leaf.1).text = false)
    (hsorted : found.Pairwise fun leaf leaf' => visitedBefore leaf.1 leaf'.1 = true) :
    d.documents root suffixes excluded =
      .ok ((found.filter (¬ ·.2)).map fun leaf => root.join leaf.1) := by
  have hcandidates : d.candidates root place suffixes excluded = found := by
    show (d.listed root place suffixes excluded).mergeSort _ = found
    rw [hfound]
    exact List.mergeSort_of_pairwise hsorted
  unfold documents
  rw [hnull, hroot]
  simp only [Bool.false_eq_true, if_false]
  rw [hcandidates, List.find?_eq_none.mpr fun leaf hleaf => by rw [hshort leaf hleaf]; simp]

end Listed

end Disk

end TaggedOutline
