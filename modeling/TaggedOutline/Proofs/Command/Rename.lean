import TaggedOutline.Proofs.Command.Frontend
import TaggedOutline.Proofs.Command.Workspace
import TaggedOutline.Proofs.Edit.Run
import TaggedOutline.Proofs.Frontend.Standard
import TaggedOutline.Proofs.Text.Utf8

/-!
# Renaming a tag everywhere

The documents that carry the tag are rewritten in turn, in the order of their names. Each is read
from the disk as it was, since the ones before it are at other places, and replaced if a file with a
longer name can be staged beside it (`exec_renameIn`). What is done so far stands in `Renamed`, and
one document more keeps it (`Renamed.exec_renameIn`). So as long as there is room, the renaming goes
through all of them and leaves the rest of the disk alone (`exec_foldlM_renameIn`), and else it stops
at the first without room. `run_renameTag` says so of the whole program.

That a document is read and rewritten rests on a disk that keeps nobody out: permissions are kept and
never asked for.
-/

namespace TaggedOutline.Command

open Command.Run (exec exec_pure exec_bind exec_bind_of_ok exec_bind_of_error exec_disk
  exec_setDisk exec_orStop_ok)
open Disk (hasRoom)
open Frontend (Gives GivesRoot)

variable {s : Frontend} {env : Environment} {d d' : Disk} {con : Console} {w : Workspace}
  {place : Place} {mode : Nat} {bytes : List UInt8} {document : Document} {old new name t : Text}
  {config : Config}

/-! ## One document -/

theorem exec_loadDocument {config : Config} {p : Path}
    (h : con.disk.load p (some config.maxFileSize) = .ok document) :
    exec (loadDocument config p) con = (.ok document, con) := by
  unfold loadDocument
  rw [exec_bind_of_ok (exec_disk con), h, exec_orStop_ok]

/-- The document of a file is indexed as it is now, or that it cannot be read is logged. -/
theorem exists_updateFile (hd : d.IsTree) (hentry : d.entry? place = some (.file mode bytes))
    (w : Workspace) :
    ∃ read w', w.updateFile d (.absolute place) = .ok (read, w') ∧ w'.config = w.config := by
  unfold Workspace.updateFile
  split
  · next document _ => exact ⟨true, w.update document, rfl, (reindexed_update w document).config⟩
  · next e hload =>
    rw [if_pos (hd.isReadFailure_of_load hentry hload)]
    exact ⟨false, _, rfl, (w.alike_note _ _ _).config⟩

/-- A document is rewritten if there is room beside it, and otherwise the command fails. -/
theorem exec_renameIn (hd : con.disk.IsTree)
    (hentry : con.disk.entry? place = some (.file mode bytes))
    (hload : con.disk.load (.absolute place) (some w.config.maxFileSize) = .ok document)
    (hrenamed : TaggedOutline.renameTag document old new = .ok t) (hne : t ≠ document.text) :
    (hasRoom (.absolute place) = true → ∃ w' log,
      exec (renameIn old new w (Path.absolute place).text) con = (.ok w', { con with
        disk := con.disk.put place (.file mode (Text.Utf8.encode t)), log := log }) ∧
      w'.config = w.config) ∧
    (hasRoom (.absolute place) = false → ∃ message,
      exec (renameIn old new w (Path.absolute place).text) con =
        (.error (failure message), con)) := by
  have hfits := ((hd.load_eq_ok_iff hentry).mp hload).1
  have hsave := hd.save_absolute hentry hfits t
  unfold renameIn
  rw [Path.ofText_absolute (hd.names_of_found hentry)]
  simp only
  rw [exec_bind_of_ok (exec_loadDocument hload), hrenamed]
  simp only [exec_bind, exec_orStop_ok]
  rw [if_pos hne]
  simp only [exec_bind, exec_disk]
  constructor
  · intro hroom
    rw [if_pos hroom] at hsave
    have hd' := hd.put_file hentry mode (Text.Utf8.encode t)
    have hentry' : Disk.entry? (con.disk.put place (.file mode (Text.Utf8.encode t))) place =
        some (.file mode (Text.Utf8.encode t)) := by
      rw [Disk.entry?_put (Disk.IsTree.ne_nil_of_file hentry), if_pos rfl]
    obtain ⟨read, w', hupdate, hconfig⟩ := exists_updateFile hd' hentry' w
    rw [hsave]
    simp only [exec_orStop_ok, exec_setDisk]
    rw [hupdate]
    simp only [exec_orStop_ok, exec_takeLog]
    exact ⟨_, _, rfl, hconfig⟩
  · intro hroom
    rw [if_neg (by rw [hroom]; exact Bool.false_ne_true)] at hsave
    rw [hsave]
    exact ⟨_, rfl⟩

/-- A document that the renaming leaves alone is only indexed again. -/
theorem exec_renameIn_of_eq (hd : con.disk.IsTree)
    (hentry : con.disk.entry? place = some (.file mode bytes))
    (hload : con.disk.load (.absolute place) (some w.config.maxFileSize) = .ok document)
    (hrenamed : TaggedOutline.renameTag document old new = .ok document.text) :
    ∃ w' log, exec (renameIn old new w (Path.absolute place).text) con =
      (.ok w', { con with log := log }) := by
  obtain ⟨read, w', hupdate, -⟩ := exists_updateFile hd hentry w
  refine ⟨{ w' with log := [] }, con.log ++ w'.log, ?_⟩
  unfold renameIn
  rw [Path.ofText_absolute (hd.names_of_found hentry)]
  simp only
  rw [exec_bind_of_ok (exec_loadDocument hload), hrenamed,
    exec_bind_of_ok (exec_orStop_ok _ document.text con)]
  simp only [ne_eq, not_true_eq_false, if_false]
  rw [exec_bind_of_ok (exec_disk con), hupdate, exec_bind_of_ok (exec_orStop_ok _ _ con)]
  exact exec_takeLog w' con

/-! ## All documents -/

/-- In the documents with some names a tag is renamed, and the rest of the disk is as it was. -/
structure Renamed (old new : Text) (d : Disk) (ds : List Document) (done : List Text)
    (d' : Disk) : Prop where
  tree : d'.IsTree
  base : d'.base = d.base
  keys : Table.keys d'.entries = Table.keys d.entries
  others : ∀ q, (Path.absolute q).text ∉ done → d'.entry? q = d.entry? q
  documents : ∀ document ∈ ds, document.uri ∈ done → ∃ q mode bytes t,
    document.uri = (Path.absolute q).text ∧ d.entry? q = some (.file mode bytes) ∧
      Text.Utf8.decode bytes = .ok document.text ∧
      TaggedOutline.renameTag document old new = .ok t ∧
      d'.entry? q = some (.file mode (Text.Utf8.encode t))

/-- Documents that carry a tag, each read from a file at the place that it is known by. -/
def AreCarriers (d : Disk) (limit : Int) (old : Text) (ds : List Document) : Prop :=
  ∀ document ∈ ds, document.Carries old ∧ ∃ q mode bytes, d.entry? q = some (.file mode bytes) ∧
    d.load (.absolute q) (some limit) = .ok document

/-- The documents of a workspace that carry a tag are read from files at the places that they are
known by. -/
theorem areCarriers_of_planted (h : (unscanned (.absolute place) config).Planted d place)
    (old : Text) : AreCarriers d config.maxFileSize old
      (((unscanned (.absolute place) config).readable d).filter (·.Carries old)) := by
  intro document hmem
  obtain ⟨hmem, hcarries⟩ := List.mem_filter.mp hmem
  exact ⟨of_decide_eq_true hcarries, h.exists_place hmem⟩

theorem Renamed.nothing (hd : d.IsTree) (old new : Text) (ds : List Document) :
    Renamed old new d ds [] d :=
  ⟨hd, rfl, rfl, fun _ _ => rfl, fun _ _ hdone => absurd hdone List.not_mem_nil⟩

/-- After it was renamed, no heading has the tag. -/
theorem not_mem_tags_of_renamed (hnew : tagName new = .ok new) (hne : new ≠ old)
    (h : TaggedOutline.renameTag document old new = .ok t) :
    ∀ g ∈ Heading.ofText t, old ∉ g.tags := by
  obtain ⟨t', ht', hrevises⟩ := revises_renameTag document old hnew
  obtain rfl := Except.ok.inj (ht'.symm.trans h)
  rw [hrevises.headings]
  intro g hg
  obtain ⟨g, -, rfl⟩ := List.mem_map.mp hg
  show old ∉ (LineEdit.revise (.renameTag old new) g).tags
  rw [LineEdit.revise]
  split
  · intro hmem
    obtain ⟨tag, -, heq⟩ := List.mem_map.mp (List.mem_eraseDups.mp hmem)
    split at heq
    · exact hne heq
    · next htag => exact htag heq
  · next hnone => exact fun hmem => hnone (Text.isIn_iff.mpr hmem)

/-- One more document that was read from a file has the tag renamed. -/
theorem Renamed.put {limit : Int} {ds : List Document} {done : List Text} {d' : Disk}
    (h : Renamed old new d ds done d') (hds : AreCarriers d limit old ds) (hd : d.IsTree)
    (hentry : d.entry? place = some (.file mode bytes))
    (hload : d.load (.absolute place) (some limit) = .ok document)
    (hrenamed : TaggedOutline.renameTag document old new = .ok t)
    (hnew : (Path.absolute place).text ∉ done) :
    Renamed old new d ds (done ++ [(Path.absolute place).text])
      (d'.put place (.file mode (Text.Utf8.encode t))) := by
  have hplace := Disk.IsTree.ne_nil_of_file hentry
  have hentry' : d'.entry? place = some (.file mode bytes) := by
    rw [h.others place hnew, hentry]
  refine ⟨h.tree.put_file hentry' _ _, h.base, ?_, fun q hq => ?_, fun g hg hdone => ?_⟩
  · rw [Disk.IsTree.keys_put_file hentry', h.keys]
  · rw [List.mem_append, List.mem_singleton, not_or] at hq
    rw [Disk.entry?_put hplace, if_neg (fun heq => hq.2 (by rw [heq])), h.others q hq.1]
  · obtain ⟨hcarries, q, mode', bytes', hq, hloadq⟩ := hds g hg
    have huri := ((hd.load_eq_ok_iff hq).mp hloadq).2.2.2.1
    by_cases hsame : q = place
    · subst hsame
      obtain rfl := Except.ok.inj (hloadq.symm.trans hload)
      refine ⟨q, mode, bytes, t, huri, hentry, ((hd.load_eq_ok_iff hentry).mp hload).2.2.1,
        hrenamed, ?_⟩
      rw [Disk.entry?_put hplace, if_pos rfl]
    · have hother : (Path.absolute q).text ≠ (Path.absolute place).text := fun heq =>
        hsame (Path.absolute_text_injective (hd.names_of_found hq) (hd.names_of_found hentry) heq)
      rw [List.mem_append, List.mem_singleton, huri] at hdone
      obtain ⟨q', mode'', bytes'', t', huri', hq', hdecode, hrenamed', hput⟩ :=
        h.documents g hg (by rw [huri]; exact hdone.resolve_right hother)
      have heq : q' = q := Path.absolute_text_injective (hd.names_of_found hq')
        (hd.names_of_found hq) (huri'.symm.trans huri)
      refine ⟨q', mode'', bytes'', t', huri', hq', hdecode, hrenamed', ?_⟩
      rw [Disk.entry?_put hplace, if_neg (fun hp => hsame (heq ▸ hp)), hput]

/-- One step of the renaming: a document that carries the tag is the same after those before it were
rewritten, so it is rewritten too, or there is no room beside it. -/
theorem Renamed.exec_renameIn {limit : Int} {ds : List Document} {done : List Text}
    (h : Renamed old new d ds done con.disk) (hds : AreCarriers d limit old ds) (hd : d.IsTree)
    (hnew : tagName new = .ok new) (hne : new ≠ old) (hdocument : document ∈ ds)
    (huri : document.uri ∉ done) (hw : w.config.maxFileSize = limit) :
    (hasRoom (.ofText document.uri) = true ∧ ∃ w' log d', w'.config = w.config ∧
      exec (renameIn old new w document.uri) con =
        (.ok w', { con with disk := d', log := log }) ∧
      Renamed old new d ds (done ++ [document.uri]) d') ∨
    (hasRoom (.ofText document.uri) = false ∧ ∃ message,
      exec (renameIn old new w document.uri) con = (.error (failure message), con)) := by
  obtain ⟨hcarries, q, mode, bytes, hq, hload⟩ := hds document hdocument
  obtain ⟨hfits, hsize, hdecode, hname, hmarkup⟩ := (hd.load_eq_ok_iff hq).mp hload
  obtain ⟨t, hrenamed, -⟩ := revises_renameTag document old hnew
  have htext : t ≠ document.text := by
    rintro rfl
    obtain ⟨g, hg, hold⟩ := hcarries
    exact not_mem_tags_of_renamed hnew hne hrenamed g hg hold
  rw [hname] at huri ⊢
  rw [Path.ofText_absolute (hd.names_of_found hq)]
  have hq' : con.disk.entry? q = some (.file mode bytes) := by rw [h.others q huri, hq]
  have hload' : con.disk.load (.absolute q) (some w.config.maxFileSize) = .ok document := by
    rw [hw]
    exact (h.tree.load_eq_ok_iff hq').mpr ⟨hfits, hsize, hdecode, hname, hmarkup⟩
  obtain ⟨hroomy, hfull⟩ := Command.exec_renameIn h.tree hq' hload' hrenamed htext
  by_cases hroom : hasRoom (.absolute q) = true
  · obtain ⟨w', log, hexec, hconfig⟩ := hroomy hroom
    exact .inl ⟨hroom, w', log, _, hconfig, hexec, h.put hds hd hq hload hrenamed huri⟩
  · rw [Bool.not_eq_true] at hroom
    exact .inr ⟨hroom, hfull hroom⟩

/-- The renaming goes through all documents that carry the tag, or stops at the first one without
room beside it. -/
theorem exec_foldlM_renameIn (w : Workspace) (con : Console) {limit : Int} {ds : List Document}
    {us done : List Text} (hd : d.IsTree) (hds : AreCarriers d limit old ds)
    (hnew : tagName new = .ok new) (hne : new ≠ old) (hnodup : us.Nodup)
    (hus : ∀ uri ∈ us, uri ∉ done ∧ ∃ document ∈ ds, document.uri = uri)
    (hw : w.config.maxFileSize = limit) (h : Renamed old new d ds done con.disk) :
    (∃ w' log d', (∀ uri ∈ us, hasRoom (.ofText uri) = true) ∧
      exec (us.foldlM (renameIn old new) w) con =
        (.ok w', { con with disk := d', log := log }) ∧ Renamed old new d ds (done ++ us) d') ∨
    ∃ message con', (∃ uri ∈ us, hasRoom (.ofText uri) = false) ∧
      exec (us.foldlM (renameIn old new) w) con = (.error (failure message), con') := by
  induction us generalizing con w done with
  | nil =>
    refine .inl ⟨w, con.log, con.disk, by simp, ?_, by rwa [List.append_nil]⟩
    rw [List.foldlM_nil, exec_pure]
  | cons uri us ih =>
    obtain ⟨⟨huri, document, hdocument, rfl⟩, hrest⟩ := List.forall_mem_cons.mp hus
    obtain ⟨hfirst, hnodup⟩ := List.nodup_cons.mp hnodup
    rw [List.foldlM_cons]
    rcases h.exec_renameIn hds hd hnew hne hdocument huri hw with
      ⟨hroom, w', log, d', hconfig, hexec, hput⟩ | ⟨hroom, message, hexec⟩
    · rw [exec_bind_of_ok hexec]
      have hrest' : ∀ uri ∈ us, uri ∉ done ++ [document.uri] ∧
          ∃ document ∈ ds, document.uri = uri := fun uri hmem => by
        refine ⟨?_, (hrest uri hmem).2⟩
        rw [List.mem_append, List.mem_singleton, not_or]
        exact ⟨(hrest uri hmem).1, fun heq => hfirst (heq ▸ hmem)⟩
      rcases ih w' { con with disk := d', log := log } hnodup hrest' (hconfig ▸ hw) hput with
        ⟨w'', log', d'', hall, hexec', hrenamed⟩ | ⟨message, con', ⟨uri, hmem, hno⟩, hexec'⟩
      · refine .inl ⟨w'', log', d'', List.forall_mem_cons.mpr ⟨hroom, hall⟩, hexec', ?_⟩
        rwa [List.append_assoc] at hrenamed
      · exact .inr ⟨message, con', ⟨uri, List.mem_cons_of_mem _ hmem, hno⟩, hexec'⟩
    · exact .inr ⟨message, con, ⟨_, List.mem_cons_self, hroom⟩, exec_bind_of_error hexec⟩

/-! ## The command -/

theorem mem_sort_uris {ds : List Document} {uri : Text} :
    uri ∈ Text.sort (ds.map Document.uri) ↔ ∃ document ∈ ds, document.uri = uri := by
  rw [Text.sort, (List.mergeSort_perm _ _).mem_iff, List.mem_map]

/-- In the documents that carry a tag it is renamed, and the rest of the disk is as it was. -/
structure RenamedIn (old new : Text) (d : Disk) (ds : List Document) (d' : Disk) : Prop where
  keys : Table.keys d'.entries = Table.keys d.entries
  others : ∀ q, (∀ document ∈ ds, document.Carries old → document.uri ≠ (Path.absolute q).text) →
    d'.entry? q = d.entry? q
  documents : ∀ document ∈ ds, ∃ q mode bytes bytes' t,
    document.uri = (Path.absolute q).text ∧
      d.entry? q = some (.file mode bytes) ∧ Text.Utf8.decode bytes = .ok document.text ∧
      d'.entry? q = some (.file mode bytes') ∧ Text.Utf8.decode bytes' = .ok t ∧
      (¬ document.Carries old → bytes' = bytes) ∧
      Heading.ofText t = ((Heading.ofDocument document).map fun h =>
        ((LineEdit.renameTag old new).revise h).onLineOf t) ∧
      ∀ h ∈ Heading.ofText t, old ∉ h.tags

section Renamed

variable {uris : List Text} {carriers : List Document}
  (hplanted : (unscanned (.absolute place) config).Planted d place)
  (hnew : tagName new = .ok new) (hne : new ≠ old)
  (hcarriers : carriers =
    ((unscanned (.absolute place) config).readable d).filter (·.Carries old))
  (huris : ∀ uri, uri ∈ uris ↔ ∃ document ∈ carriers, document.uri = uri)
  (h : Renamed old new d carriers uris d')

include hplanted hnew hne hcarriers huris h

/-- Documents with the tag renamed, among documents of which the others are left as they were. -/
theorem Renamed.renamedIn :
    RenamedIn old new d ((unscanned (.absolute place) config).readable d) d' := by
  have hmem {document : Document} : document ∈ carriers ↔
      document ∈ (unscanned (.absolute place) config).readable d ∧ document.Carries old := by
    rw [hcarriers, List.mem_filter, decide_eq_true_eq]
  refine ⟨h.keys, fun q hq => h.others q fun hdone => ?_, fun document hdocument => ?_⟩
  · obtain ⟨document, hdocument, huri⟩ := (huris _).mp hdone
    exact hq document (hmem.mp hdocument).1 (hmem.mp hdocument).2 huri
  · by_cases hcarries : document.Carries old
    · have hcarrier := hmem.mpr ⟨hdocument, hcarries⟩
      obtain ⟨q, mode, bytes, t, huri, hentry, hdecode, hrenamed, hentry'⟩ :=
        h.documents document hcarrier ((huris _).mpr ⟨document, hcarrier, rfl⟩)
      obtain ⟨t', ht', hrevises⟩ := revises_renameTag document old hnew
      obtain rfl := Except.ok.inj (ht'.symm.trans hrenamed)
      exact ⟨q, mode, bytes, _, t', huri, hentry, hdecode, hentry',
        Text.Utf8.decode_encode_text t', fun hnone => absurd hcarries hnone, hrevises.headings,
        not_mem_tags_of_renamed hnew hne hrenamed⟩
    · obtain ⟨q, mode, bytes, hentry, hload⟩ := hplanted.exists_place hdocument
      obtain ⟨-, -, hdecode, huri, -⟩ := (hplanted.tree.load_eq_ok_iff hentry).mp hload
      have hkept : d'.entry? q = some (.file mode bytes) := by
        rw [h.others q, hentry]
        intro hdone
        obtain ⟨other, hother, hsame⟩ := (huris _).mp hdone
        obtain ⟨hother, hold⟩ := hmem.mp hother
        obtain rfl := List.inj_on_of_nodup_map hplanted.nodup_uris hother hdocument
          (hsame.trans huri.symm)
        exact hcarries hold
      refine ⟨q, mode, bytes, bytes, document.text, huri, hentry, hdecode, hkept, hdecode,
        fun _ => rfl, ?_, fun g hg hold => hcarries ⟨g, hg, hold⟩⟩
      conv_lhs => rw [← List.map_id (Heading.ofText document.text)]
      refine List.map_congr_left fun g hg => ?_
      have hnone : ¬ Text.isIn old g.tags = true := fun hin =>
        hcarries ⟨g, hg, Text.isIn_iff.mp hin⟩
      rw [LineEdit.revise, if_neg hnone, Heading.onLineOf_self hg]
      rfl

/-- No document that can be read afterwards carries the tag: it was rewritten, or it is one that did
not carry the tag before. -/
theorem Renamed.not_carries {paths : List Path}
    (hpaths : d.documents (.absolute place) config.extensions config.excludeDirs = .ok paths) :
    ∀ document ∈ (unscanned (.absolute place) config).readable d', ¬ document.Carries old := by
  have hhere := Disk.entry?_of_lookup hplanted.directory
  have hnull := Path.not_contains_null (hplanted.tree.names_of_found hhere)
  have hroot : (Path.absolute place).text ∉ uris := fun hdone => by
    obtain ⟨other, hother, hsame⟩ := (huris _).mp hdone
    obtain ⟨q, mode, bytes, t, hq, hentry, -⟩ := h.documents other hother (hsame ▸ hdone)
    obtain rfl : q = place := Path.absolute_text_injective (hplanted.tree.names_of_found hentry)
      (hplanted.tree.names_of_found hhere) (hq.symm.trans hsame)
    rw [hhere] at hentry
    cases hentry
  have hdirectory : d'.lookup true (Path.absolute place).text = .ok (place, .directory) := by
    rw [h.tree.lookup_absolute true ((h.others place hroot).trans hhere) rfl,
      ← hplanted.tree.lookup_absolute true hhere rfl]
    exact hplanted.directory
  rintro document hdocument ⟨g, hg, hold⟩
  obtain ⟨paths', hpaths'⟩ := Workspace.exists_documents_of_mem_readable hdocument
  obtain ⟨p, hp, hload⟩ := (Workspace.mem_readable_of_documents hpaths').mp hdocument
  obtain ⟨names, hfile, hname, hshort, rfl⟩ :=
    (Disk.mem_of_documents hnull hdirectory hpaths').mp hp
  obtain ⟨hbelow, mode, bytes, hentry⟩ := Disk.mem_filesBelow.mp hfile
  obtain ⟨hfits, hsize, hdecode, huri, hmarkup⟩ := (h.tree.load_eq_ok_iff hentry).mp hload
  by_cases hdone : (Path.absolute (place ++ names)).text ∈ uris
  · obtain ⟨other, hother, hsame⟩ := (huris _).mp hdone
    obtain ⟨q, mode', bytes', t, hq, hentry', -, hrenamed, hput⟩ := h.documents other hother
      ((huris _).mpr ⟨other, hother, rfl⟩)
    obtain rfl : q = place ++ names := Path.absolute_text_injective
      (hplanted.tree.names_of_found hentry') (h.tree.names_of_found hentry) (hq.symm.trans hsame)
    rw [hentry, Option.some.injEq, Entry.file.injEq] at hput
    rw [hput.2, Text.Utf8.decode_encode_text, Except.ok.injEq] at hdecode
    exact not_mem_tags_of_renamed hnew hne hrenamed g (hdecode ▸ hg) hold
  · have hkept : d.entry? (place ++ names) = some (.file mode bytes) :=
      (h.others _ hdone).symm.trans hentry
    have hmem : document ∈ (unscanned (.absolute place) config).readable d := by
      refine (Workspace.mem_readable_of_documents hpaths).mpr ⟨_, ?_,
        (hplanted.tree.load_eq_ok_iff hkept).mpr ⟨hfits, hsize, hdecode, huri, hmarkup⟩⟩
      exact (Disk.mem_of_documents hnull hplanted.directory hpaths).mpr
        ⟨names, Disk.mem_filesBelow.mpr ⟨hbelow, mode, bytes, hkept⟩, hname, hshort, rfl⟩
    refine hdone ((huris _).mpr ⟨document, ?_, huri⟩)
    rw [hcarriers, List.mem_filter, decide_eq_true_eq]
    exact ⟨hmem, g, hg, hold⟩

end Renamed

theorem exec_renameEverywhere (con : Console) {root : Text} {paths : List Path}
    (hread : Path.ofText root = .absolute place) (h : GoesBy env con.disk (.absolute place) config)
    (hplanted : (unscanned (.absolute place) config).Planted con.disk place)
    (hpaths : con.disk.documents (.absolute place) config.extensions config.excludeDirs = .ok paths)
    (hname : tagName new = .ok name) (hne : name ≠ old) {carriers : List Document}
    (hcarriers : carriers =
      ((unscanned (.absolute place) config).readable con.disk).filter (·.Carries old)) :
    (∃ log d', (∀ document ∈ carriers, hasRoom (.ofText document.uri) = true) ∧
      exec (renameEverywhere env old new root) con = (.ok (), { con with
        disk := d'
        echoed := con.echoed ++ ["Renamed #".toList ++ old ++ " to #".toList ++ name ++
          " in ".toList ++ Text.ofNat carriers.length ++ " file(s)".toList ++ ['\n']]
        log := log }) ∧
      Renamed old name con.disk carriers (Text.sort (carriers.map Document.uri)) d') ∨
    ∃ message con', (∃ document ∈ carriers, hasRoom (.ofText document.uri) = false) ∧
      exec (renameEverywhere env old new root) con = (.error (failure message), con') := by
  obtain ⟨w, log, hopen, hconfig, hagrees⟩ := exec_openWorkspace h hplanted hpaths
  have huris := hagrees.sort_uris_under old
  rw [← hcarriers] at huris
  have hcarry : AreCarriers con.disk config.maxFileSize old carriers :=
    hcarriers ▸ areCarriers_of_planted hplanted old
  have hnodup : (carriers.map Document.uri).Nodup := by
    rw [hcarriers]
    exact hplanted.nodup_uris.sublist (List.filter_sublist.map _)
  have hperm : (Text.sort (carriers.map Document.uri)).Perm (carriers.map Document.uri) :=
    List.mergeSort_perm _ _
  have hlength : (Text.sort (carriers.map Document.uri)).length = carriers.length := by
    rw [hperm.length_eq, List.length_map]
  have hself : tagName name = .ok name :=
    tagName_eq_ok_self_iff.mpr (tagName_eq_ok_iff.mp hname).2
  have hrun := exec_foldlM_renameIn w { con with log := log } hplanted.tree hcarry hself hne
    (hperm.nodup_iff.mpr hnodup) (fun uri huri => ⟨List.not_mem_nil, mem_sort_uris.mp huri⟩)
    (congrArg Config.maxFileSize hconfig) (.nothing hplanted.tree old name carriers)
  have hstart : exec (renameEverywhere env old new root) con =
      exec ((Text.sort (carriers.map Document.uri)).foldlM (renameIn old name) w >>= fun _ =>
        Run.echoLine ("Renamed #".toList ++ old ++ " to #".toList ++ name ++ " in ".toList ++
          Text.ofNat carriers.length ++ " file(s)".toList)) { con with log := log } := by
    unfold renameEverywhere
    rw [hname, exec_bind_of_ok (exec_orStop_ok _ name con), hread, exec_bind_of_ok hopen]
    simp only
    rw [huris, hlength]
  rw [hstart]
  rcases hrun with ⟨w', log', d', hroom, hexec, hrenamed⟩ | ⟨message, con', hfull, hexec⟩
  · refine .inl ⟨log', d', fun document hdocument => ?_, ?_, hrenamed⟩
    · exact hroom _ (mem_sort_uris.mpr ⟨document, hdocument, rfl⟩)
    · rw [exec_bind_of_ok hexec]
      rfl
  · obtain ⟨uri, huri, hno⟩ := hfull
    obtain ⟨document, hdocument, rfl⟩ := mem_sort_uris.mp huri
    exact .inr ⟨message, con', ⟨document, hdocument, hno⟩, exec_bind_of_error hexec⟩

/-- A workspace that cannot be opened because of a fault ends the program with it. -/
theorem run_renameTag_of_fault {given args : List Text} {e : FileError} {log : List LogEntry}
    (hs : s.IsDocumented d) (hd : d.IsTree) (hargs : Gives (old :: new :: given) args)
    (hroot : GivesRoot d given place) (hname : tagName new = .ok name)
    (hopen : exec (openWorkspace env (.absolute place)) { disk := d } =
      (.error (.fault e), { disk := d, log := log })) :
    let o := s.run env d ("rename-tag".toList :: args)
    o.exitCode = 1 ∧ o.fault = some e := by
  have hread := ofText_root hd hroot.directory
  have hrun : s.run env d ("rename-tag".toList :: args) =
      s.carryOut env d false (.renameTag old new (Path.absolute place).text) :=
    Frontend.run_of_means hs hargs (.renameTag old new hroot)
  have hexec : exec (perform env (.renameTag old new (Path.absolute place).text)) { disk := d } =
      (.error (.fault e), { disk := d, log := log }) := by
    show exec (renameEverywhere env old new (Path.absolute place).text) { disk := d } = _
    unfold renameEverywhere
    rw [hname, exec_bind_of_ok (exec_orStop_ok _ name { disk := d }), hread]
    exact exec_bind_of_error hopen
  obtain ⟨hcode, -, -, hfault⟩ := Frontend.carryOut_of_error (s := s) false hexec
  rw [hrun]
  exact ⟨hcode, hfault⟩

/-- Renaming a tag below a directory, behind any library for command lines that does what is
documented: if the documents are found, and a file can be staged beside each one that carries the
tag, the command succeeds. Then it tells how many there are, they have the tag renamed, and the rest
of the disk is as it was. -/
theorem run_renameTag {given args : List Text} (hs : s.IsDocumented d) (hd : d.IsTree)
    (hargs : Gives (old :: new :: given) args) (hroot : GivesRoot d given place)
    (hname : tagName new = .ok name) (hne : name ≠ old)
    (hconfig : GoesBy env d (.absolute place) config) :
    let w := unscanned (.absolute place) config
    let carriers := (w.readable d).filter (·.Carries old)
    let o := s.run env d ("rename-tag".toList :: args)
    (∀ paths, d.documents (.absolute place) config.extensions config.excludeDirs = .ok paths →
      ((∀ document ∈ carriers, hasRoom (.ofText document.uri) = true) →
        o.exitCode = 0 ∧ o.fault = none ∧
          o.output = s.shown ("Renamed #".toList ++ old ++ " to #".toList ++ name ++
            " in ".toList ++ Text.ofNat carriers.length ++ " file(s)".toList ++ ['\n']) ∧
          RenamedIn old name d (w.readable d) o.disk ∧
          ∀ document ∈ w.readable o.disk, ¬ document.Carries old) ∧
      ((∃ document ∈ carriers, hasRoom (.ofText document.uri) = false) →
        o.exitCode = 1 ∧ o.fault = none)) ∧
    ∀ e, d.documents (.absolute place) config.extensions config.excludeDirs = .error e →
      o.exitCode = 1 ∧ o.fault = some e := by
  intro w carriers o
  have hread := ofText_root hd hroot.directory
  have hplanted : w.Planted d place := ⟨hd, rfl, hroot.directory⟩
  have hrun : o = s.carryOut env d false (.renameTag old new (Path.absolute place).text) :=
    Frontend.run_of_means hs hargs (.renameTag old new hroot)
  have hperform : perform env (.renameTag old new (Path.absolute place).text) =
      renameEverywhere env old new (Path.absolute place).text := rfl
  constructor
  · intro paths hpaths
    rw [hrun]
    rcases exec_renameEverywhere { disk := d } hread hconfig hplanted hpaths hname hne rfl with
      ⟨log, d', hroom, hdone, hrenamed⟩ | ⟨message, con', hfull, hdone⟩ <;> rw [← hperform] at hdone
    · rw [Frontend.carryOut_of_ok false hdone]
      have hself : tagName name = .ok name :=
        tagName_eq_ok_self_iff.mpr (tagName_eq_ok_iff.mp hname).2
      refine ⟨fun _ => ⟨rfl, rfl, List.append_nil _, ?_, ?_⟩, fun ⟨document, hdocument, hno⟩ => ?_⟩
      · exact hrenamed.renamedIn hplanted hself hne rfl fun _ => mem_sort_uris
      · exact hrenamed.not_carries hplanted hself hne rfl (fun _ => mem_sort_uris) hpaths
      · rw [hroom document hdocument] at hno
        cases hno
    · obtain ⟨hcode, -, -, hfault⟩ := Frontend.carryOut_of_error (s := s) false hdone
      refine ⟨fun hroom => ?_, fun _ => ⟨hcode.trans (hs.failure _ message), hfault⟩⟩
      obtain ⟨document, hdocument, hno⟩ := hfull
      rw [hroom document hdocument] at hno
      cases hno
  · intro e hdocuments
    have hopen : ∃ log, exec (openWorkspace env (.absolute place)) { disk := d } =
        (.error (.fault e), { disk := d, log := log }) :=
      exec_openWorkspace_of_documents_error hconfig hdocuments
    obtain ⟨log, hopen⟩ := hopen
    exact run_renameTag_of_fault hs hd hargs hroot hname hopen

/-- A directory with one file that carries the tag, and one that does not. -/
theorem run_renameTag_file :
    let ws : Place := ["ws".toList]
    let d : Disk := ⟨ws, [(ws, .directory),
      (ws ++ ["a.md".toList], .file 0o644 (Text.Utf8.encode "# A <!-- #x -->\n".toList)),
      (ws ++ ["b.md".toList], .file 0o644 (Text.Utf8.encode "# B\n".toList))], []⟩
    let env : Environment := { nesting := 100 }
    let w := unscanned (.absolute ws) .byDefault
    let o := Frontend.standard.run env d ["rename-tag".toList, ['x'], [' ', 'y'], ['.']]
    d.IsTree ∧ GoesBy env d (.absolute ws) .byDefault ∧
      ((w.readable d).filter (·.Carries ['x'])).length = 1 ∧ o.exitCode = 0 ∧ o.fault = none ∧
      RenamedIn ['x'] ['y'] d (w.readable d) o.disk ∧
      ∀ document ∈ w.readable o.disk, ¬ document.Carries ['x'] := by
  intro ws d env w o
  have hd : d.IsTree := by decide +kernel
  have hdirectory : d.lookup true (Path.absolute ws).text = .ok (ws, .directory) := by
    decide +kernel
  have hroot : GivesRoot d [['.']] ws := .given ⟨by decide, by decide +kernel, hdirectory⟩
  have hresolve : d.resolve (.absolute ws) = .ok (.absolute ws) := by decide +kernel
  have habsent : ∀ f ∈ Settings.candidates (.absolute ws),
      d.leadsTo f.1 Entry.isFile = .ok false := by decide +kernel
  have hconfig : GoesBy env d (.absolute ws) .byDefault :=
    ⟨_, _, Config.load_of_absent hresolve habsent, rfl, rfl⟩
  have hname : tagName [' ', 'y'] = .ok ['y'] := by decide +kernel
  have hfound : d.listed (.absolute ws) ws Config.byDefault.extensions
      Config.byDefault.excludeDirs =
      [(["a.md".toList], false), (["b.md".toList], false)] := by decide +kernel
  have hpaths := Disk.documents_of_pairwise rfl hdirectory hfound (by decide +kernel)
    (by decide +kernel)
  have hcarriers : (w.readable d).filter (·.Carries ['x']) =
      [⟨"/ws/a.md".toList, "# A <!-- #x -->\n".toList, .markdown⟩] := by
    show (Workspace.readable _ d).filter (·.Carries ['x']) = _
    unfold Workspace.readable w unscanned Workspace.fresh
    rw [hpaths]
    decide +kernel
  have hroom : ∀ document ∈ (w.readable d).filter (·.Carries ['x']),
      hasRoom (.ofText document.uri) = true := by
    rw [hcarriers]
    decide +kernel
  obtain ⟨hcode, hfault, -, hrenamed, hafter⟩ :=
    ((run_renameTag (Frontend.isDocumented_standard d) hd (.plain (by decide)) hroot hname
      (by decide) hconfig).1 _ hpaths).1 hroom
  exact ⟨hd, hconfig, congrArg List.length hcarriers, hcode, hfault, hrenamed, hafter⟩

/-- A project file that is a link to a name that is too long, before the file with the settings. -/
theorem run_renameTag_link :
    let ws : Place := ["ws".toList]
    let project : Place := ws ++ ["pyproject.toml".toList]
    let d : Disk := ⟨ws, [(ws, .directory),
      (ws ++ [".heading-tags.toml".toList],
        .file 0o644 (Text.Utf8.encode "[heading-tags]\nmax_pinned = 3\n".toList)),
      (ws ++ ["a.md".toList], .file 0o644 (Text.Utf8.encode "# A <!-- #x -->\n".toList)),
      (project, .link (List.replicate 256 'n'))], []⟩
    let env : Environment := { nesting := 100 }
    let o := Frontend.standard.run env d ["rename-tag".toList, ['x'], ['y'], ['.']]
    (Config.load env.nesting (d.erase project) (.absolute ws) []).toOption.map (·.maxPinned) =
        some 3 ∧
      o.exitCode = 1 ∧ o.fault = some (.unusable "/ws/pyproject.toml".toList .nameTooLong) := by
  intro ws project d env o
  have hd : d.IsTree := by decide +kernel
  have hroot : GivesRoot d [['.']] ws := .given ⟨by decide, by decide +kernel, by decide +kernel⟩
  have hresolve : d.resolve (.absolute ws) = .ok (.absolute ws) := by decide +kernel
  have hhalts : Settings.Halts env.nesting d (.join (.absolute ws) ["pyproject.toml".toList])
      (.unusable "/ws/pyproject.toml".toList .nameTooLong) :=
    .unusable (by decide +kernel) (by decide +kernel)
  obtain ⟨tables, files, hfiles⟩ := Settings.exists_candidates (.absolute ws)
  have hfirst : Settings.candidates (.absolute ws) =
      [] ++ ((Path.absolute ws).join ["pyproject.toml".toList], tables) :: files := hfiles
  have hfault : Settings.Fault env.nesting d (.absolute ws)
      (.unusable "/ws/pyproject.toml".toList .nameTooLong) :=
    .file hresolve hfirst (fun f hf => absurd hf List.not_mem_nil) hhalts
  have hopen {con : Console} (hcon : con.disk = d) : exec (openWorkspace env (.absolute ws)) con =
      (.error (.fault (.unusable "/ws/pyproject.toml".toList .nameTooLong)), con) :=
    exec_bind_of_error (exec_loadConfig_of_fault (hcon ▸ hfault))
  refine ⟨by decide +kernel, ?_⟩
  exact run_renameTag_of_fault (Frontend.isDocumented_standard d) hd (.plain (by decide)) hroot
    (by decide : tagName ['y'] = .ok ['y']) (hopen rfl)

end TaggedOutline.Command
