import TaggedOutline.Proofs.Index.Queries
import TaggedOutline.Proofs.Workspace.Scan

/-!
# Runs of a workspace

A workspace is updated, saved to, scanned and queried in any order. Beside it goes the list of the
documents that were indexed last (`Operation.onList`). Each operation changes the index as it changes
the list (`agrees_perform`), so after every run the answers of the workspace are those of the list
(`Run.answers`).
-/

namespace TaggedOutline

open Index (Agrees reindex without entry Wanted)

/-! ## Operations -/

/-- What is asked of a workspace. -/
inductive Operation
  | update (document : Document)
  | save (document : Document)
  | updateFile (disk : Disk) (path : Path)
  | remove (uri : Text)
  | removeFile (disk : Disk) (path : Path)
  | scan (disk : Disk) (plan : ScanPlan)
  | register (tags : List Text)
  | subscribe (listener : Listener)
  | unsubscribe (handle : Workspace.Handle)

namespace Workspace

/-- A workspace that has indexed nothing yet. -/
def fresh (root : Path) (config : Config) (registry : Registry) : Workspace where
  root := root
  config := config
  registry := registry

/-- The workspace after an operation; one that fails leaves it as it was. -/
def perform (w : Workspace) : Operation → Workspace
  | .update document => w.update document
  | .save document => (w.save document).2
  | .updateFile disk p =>
    match w.updateFile disk p with
    | .ok (_, w) => w
    | .error _ => w
  | .remove uri => w.remove uri
  | .removeFile disk p =>
    match w.removeFile disk p with
    | .ok w => w
    | .error _ => w
  | .scan disk plan => (w.scan disk plan).2.workspace
  | .register tags => (w.registerAll tags).2
  | .subscribe l => (w.subscribe l).2
  | .unsubscribe h => h.call w

/-- A scan is carried through. -/
def Completes (w : Workspace) : Operation → Prop
  | .scan disk plan => (w.scan disk plan).1 = .ok true
  | _ => True

end Workspace

/-- The list of indexed documents after an operation on a workspace with the root and the
configuration of `w`. -/
def Operation.onList (w : Workspace) (ds : List Document) : Operation → List Document
  | .update document | .save document => reindex ds document
  | .updateFile disk p =>
    match w.loadFile disk p with
    | .ok document => reindex ds document
    | .error _ => ds
  | .remove uri => without ds uri
  | .removeFile disk p =>
    match disk.uriOf p with
    | .ok uri => without ds uri
    | .error _ => ds
  | .scan disk _ => (w.readable disk).foldl reindex []
  | .register _ | .subscribe _ | .unsubscribe _ => ds

theorem foldl_reindex_append {ds ds' : List Document}
    (h : ((ds ++ ds').map Document.uri).Nodup) : ds'.foldl reindex ds = ds ++ ds' := by
  induction ds' generalizing ds with
  | nil => exact (List.append_nil ds).symm
  | cons d ds' ih =>
    rw [List.append_cons] at h
    have hnew : reindex ds d = ds ++ [d] := by
      rw [reindex, List.filter_eq_self.mpr]
      intro e he
      rw [List.map_append, List.map_append] at h
      have hne := (List.nodup_append.mp (List.nodup_append.mp h).1).2.2 e.uri
        (List.mem_map_of_mem he) d.uri (by simp)
      exact decide_eq_true hne
    rw [List.foldl_cons, hnew, ih h, ← List.append_cons]

/-- Documents with distinct names are indexed as they come. -/
theorem foldl_reindex_of_nodup {ds : List Document} (h : (ds.map Document.uri).Nodup) :
    ds.foldl reindex [] = ds :=
  foldl_reindex_append h

/-- The workspaces that a fresh one becomes by operations, and the documents that are indexed in
them. -/
inductive Run (start : Workspace) : List Document → Workspace → Prop
  | start : Run start [] start
  | step {ds : List Document} {w : Workspace} (op : Operation) :
    Run start ds w → w.Completes op → Run start (op.onList start ds) (w.perform op)

/-! ## Each operation -/

section Steps

variable {start w : Workspace} {ds : List Document}

theorem agrees_foldl_add {i : Index} (h : Agrees i ds) (documents : List Document) :
    Agrees (documents.foldl Index.add i) (documents.foldl reindex ds) := by
  induction documents generalizing i ds with
  | nil => exact h
  | cons d documents ih => exact ih (h.add d)

/-- After a scan the index agrees with the documents that can be read, if their names are distinct. -/
theorem agrees_of_scan {disk : Disk} {plan : ScanPlan} (h : (w.scan disk plan).1 = .ok true)
    (hnodup : ((w.readable disk).map Document.uri).Nodup) :
    Agrees (w.scan disk plan).2.workspace.index (w.readable disk) := by
  have hagrees := agrees_foldl_add Index.agrees_empty (w.readable disk)
  rw [foldl_reindex_of_nodup hnodup] at hagrees
  rw [(Workspace.scan_spec h).index]
  exact hagrees

theorem reindexed_update (w : Workspace) (d : Document) :
    Reindexed w (w.index.add d) (w.update d) := by
  have h : Reindexed w (w.index.add d) { w with index := w.index.add d } := ⟨rfl, rfl, rfl⟩
  exact h.alike (Workspace.alike_notify _)

theorem reindexed_remove (w : Workspace) (uri : Text) :
    Reindexed w (w.index.remove uri) (w.remove uri) := by
  have h : Reindexed w (w.index.remove uri) { w with index := w.index.remove uri } :=
    ⟨rfl, rfl, rfl⟩
  exact h.alike (Workspace.alike_notify _)

theorem loadFile_of_reindexed {i : Index} (h : Reindexed start i w) (disk : Disk) (p : Path) :
    w.loadFile disk p = start.loadFile disk p := by
  rw [Workspace.loadFile, Workspace.loadFile, h.config]

/-- An operation changes the index as it changes the list. -/
theorem agrees_perform (hs : Reindexed start w.index w) (h : Agrees w.index ds) {op : Operation}
    (hc : w.Completes op) :
    ∃ i, Reindexed w i (w.perform op) ∧ Agrees i (op.onList start ds) := by
  cases op with
  | update d => exact ⟨_, reindexed_update w d, h.add d⟩
  | save d => exact ⟨_, (reindexed_update w d).alike (Workspace.alike_registerAll _ _), h.add d⟩
  | updateFile disk p =>
    unfold Workspace.perform Workspace.updateFile Operation.onList
    simp only
    rw [loadFile_of_reindexed hs]
    cases start.loadFile disk p with
    | ok d => exact ⟨_, reindexed_update w d, h.add d⟩
    | error e =>
      simp only
      split
      · next hread =>
        split at hread
        · obtain ⟨-, rfl⟩ := Prod.mk.inj (Except.ok.inj hread)
          exact ⟨_, w.alike_note _ _ _, h⟩
        · exact absurd hread (by simp)
      · exact ⟨_, Alike.refl w, h⟩
  | remove uri => exact ⟨_, reindexed_remove w uri, h.remove uri⟩
  | removeFile disk p =>
    unfold Workspace.perform Workspace.removeFile Operation.onList
    simp only
    cases disk.uriOf p with
    | ok uri => exact ⟨_, reindexed_remove w uri, h.remove uri⟩
    | error e => exact ⟨_, Alike.refl w, h⟩
  | scan disk plan =>
    refine ⟨_, Workspace.scan_spec hc, ?_⟩
    rw [Workspace.readable_of_reindexed hs]
    exact agrees_foldl_add Index.agrees_empty _
  | register tags => exact ⟨_, w.alike_registerAll tags, h⟩
  | subscribe l => exact ⟨_, ⟨rfl, rfl, rfl⟩, h⟩
  | unsubscribe handle =>
    rw [Workspace.perform, Workspace.Handle.call_eq]
    exact ⟨_, ⟨rfl, rfl, rfl⟩, h⟩

/-- After every run the index agrees with the list. -/
theorem agrees_of_run (hstart : start.index = {}) (h : Run start ds w) :
    Reindexed start w.index w ∧ Agrees w.index ds := by
  induction h with
  | start =>
    refine ⟨Alike.refl start, ?_⟩
    rw [hstart]
    exact Index.agrees_empty
  | step op _ hc ih =>
    obtain ⟨hs, h⟩ := ih
    obtain ⟨i, hperformed, hagrees⟩ := agrees_perform hs h hc
    refine ⟨hs.trans ⟨hperformed.root, hperformed.config, rfl⟩, ?_⟩
    rw [hperformed.index]
    exact hagrees

end Steps

/-! ## Answers -/

/-- What a workspace holds and answers is what the documents of a list say. -/
structure Answers (w : Workspace) (ds : List Document) : Prop extends Agrees w.index ds where
  lineOrder : ∀ d ∈ ds, (Heading.ofDocument d).Pairwise (·.line < ·.line)
  /-- The entry of a heading has the name of its document and its line for an id. -/
  entries : ∀ d ∈ ds, ∀ h ∈ Heading.ofDocument d,
    (entry d h).id = d.uri ++ ':' :: Text.ofInt h.line ∧
      (breadcrumbs (Heading.ofDocument d)).get? h.line = some (entry d h).breadcrumb
  /-- Under a tag is one entry for each heading that carries it, by document and line. -/
  under : ∀ tag, w.index.under tag =
    ds.flatMap fun d => ((Heading.ofDocument d).filter fun h => tag ∈ h.tags).map (entry d)
  /-- A tag is kept as long as a heading carries it. -/
  used : ∀ tag, tag ∈ w.index.tags ↔ ∃ d ∈ ds, ∃ h ∈ Heading.ofDocument d, tag ∈ h.tags
  headingsIn : ∀ uri tag, w.index.headingsIn uri tag =
    (ds.filter (·.uri = uri)).flatMap fun d =>
      ((Heading.ofDocument d).filter (Wanted tag)).map (entry d)
  tagsOf : ∀ uri, w.index.tagsOf uri =
    Text.sort ((ds.filter (·.uri = uri)).flatMap fun d =>
      (Heading.ofDocument d).flatMap Heading.tags).eraseDups
  breadcrumb : ∀ uri line, w.index.breadcrumb? uri line =
    (ds.find? (·.uri = uri)).bind fun d => (breadcrumbs (Heading.ofDocument d)).get? line
  names : w.index.uris = Text.sort (ds.map Document.uri)
  tags : w.tags =
    Text.sort ((ds.flatMap fun d => (Heading.ofDocument d).flatMap Heading.tags) ++
      w.registry.names).eraseDups

/-- The tags of a workspace are those that are used or defined. -/
theorem Index.Agrees.allTags_eq {w : Workspace} {ds : List Document} (h : Agrees w.index ds) :
    w.tags = Text.sort ((ds.flatMap fun d => (Heading.ofDocument d).flatMap Heading.tags) ++
      w.registry.names).eraseDups := by
  rw [← Text.distinct_eq_eraseDups]
  refine Text.sort_eq_of_mem_iff (Text.nodup_distinct _) (Text.nodup_distinct _) fun tag => ?_
  rw [Text.mem_distinct, Text.mem_distinct, List.mem_append, List.mem_append, h.mem_tags_iff,
    List.mem_flatMap]
  simp only [List.mem_flatMap]

/-- After every run of a fresh workspace, it answers what the documents say that were indexed
last. -/
theorem Run.answers {root : Path} {config : Config} {registry : Registry} {ds : List Document}
    {w : Workspace} (h : Run (Workspace.fresh root config registry) ds w) : Answers w ds := by
  obtain ⟨-, hagrees⟩ := agrees_of_run rfl h
  exact
    { hagrees with
      lineOrder := fun d _ => Heading.ofText_pairwise_line d.text
      entries := fun _ _ _ hh => ⟨Index.id_entry _ _, Index.get?_breadcrumbs hh⟩
      under := hagrees.under_eq
      used := fun _ => hagrees.mem_tags_iff
      headingsIn := hagrees.headingsIn_eq
      tagsOf := hagrees.tagsOf_eq
      breadcrumb := hagrees.breadcrumb?_eq
      names := hagrees.uris_eq
      tags := hagrees.allTags_eq }

/-- A document that is indexed again moves behind the others, and a tag it had alone is gone. -/
theorem Run.answers_moved :
    let start := Workspace.fresh ⟨['/'], [['r']]⟩ ⟨[".md".toList], [], [], 0, [], [], [], 1⟩ ⟨[]⟩
    let a : Document := ⟨['a'], "# T <!-- #x #x -->\n## U <!-- #y -->".toList, .markdown⟩
    let a' : Document := ⟨['a'], "# T <!-- #x #x -->".toList, .markdown⟩
    let b : Document := ⟨['b'], "= V // #x".toList, .typst⟩
    let w := (((start.perform (.scan {} {})).perform (.update a)).perform (.save b)).perform
      (.update a')
    Run start [b, a'] w ∧
      (w.index.under ['x']).map TaggedHeading.id = ["b:0".toList, "a:0".toList] ∧
      w.index.under ['y'] = [] := by
  intro start a a' b w
  have hscan : (start.scan {} {}).1 = .ok true := rfl
  have hscanned : Run start [] (start.perform (.scan {} {})) := .step (.scan {} {}) .start hscan
  have hrun : Run start [b, a'] w :=
    .step (.update a') (.step (.save b) (.step (.update a) hscanned trivial) trivial) trivial
  refine ⟨hrun, ?_, ?_⟩
  · rw [(Run.answers hrun).under]
    decide
  · rw [(Run.answers hrun).under]
    decide

end TaggedOutline
