import TaggedOutline.Proofs.Tag.Name
import TaggedOutline.Proofs.Workspace.Run

/-!
# Tags that get a definition

1. A tag gets a definition iff what stands between the blanks around it is a word that is not
   defined yet (`register_of_trimmed`), and then its definition goes to the end of the registry.
2. So a list of tags brings in its new names, each once, and of their definitions those are pinned
   for which there is room (`registerAll_eq`).
3. Whatever is asked of a workspace, its configuration stays and no definition is pinned beyond the
   room there is (`grows_foldl_perform`).
-/

namespace TaggedOutline

open Text (IsWord)

variable {w w' w'' : Workspace} {tag name : Text}

namespace Workspace

/-! ## One tag -/

/-- The name can be given a definition: it is a word and has none. -/
def IsNew (w : Workspace) (name : Text) : Prop := IsWord name ∧ name ∉ w.registry.names

instance (w : Workspace) (name : Text) : Decidable (w.IsNew name) :=
  inferInstanceAs (Decidable (_ ∧ _))

/-- A tag leaves the registry as it is, or puts a definition at its end. -/
theorem register_cases (w : Workspace) (tag : Text) :
    ((w.register tag).1 = none ∧ (w.register tag).2.registry = w.registry ∧
      (tag ∈ w.registry.names ∨ ¬ w.IsNew (Text.trim tag))) ∨
    (w.IsNew (Text.trim tag) ∧
      (w.register tag).1 = some (w.newDefinition (Text.trim tag)) ∧
      (w.register tag).2.registry =
        ⟨w.registry.table ++ [(Text.trim tag, w.newDefinition (Text.trim tag))]⟩) := by
  have hhas {t : Text} : w.registry.has t = true ↔ t ∈ w.registry.names := Table.has_iff
  by_cases htag : w.registry.has tag = true
  · have hsame : w.register tag = (none, w) := by rw [register, if_pos htag]
    rw [hsame]
    exact .inl ⟨rfl, rfl, .inl (hhas.mp htag)⟩
  · cases hname : tagName tag with
    | error e =>
      have hnoted : w.register tag = (none, w.note .warning .index
          ("Skipping tag registration: " ++ e.message)) := by
        simp only [register, if_neg htag, hname]
      rw [hnoted]
      refine .inl ⟨rfl, rfl, .inr fun hnew => ?_⟩
      rw [tagName_eq_ok_iff.mpr ⟨rfl, hnew.1⟩] at hname
      cases hname
    | ok name =>
      obtain ⟨rfl, hword⟩ := tagName_eq_ok_iff.mp hname
      by_cases hdefined : w.registry.has (Text.trim tag) = true
      · have hsame : w.register tag = (none, w) := by
          simp only [register, if_neg htag, hname, if_pos hdefined]
        rw [hsame]
        exact .inl ⟨rfl, rfl, .inr fun hnew => hnew.2 (hhas.mp hdefined)⟩
      · have hadd : w.registry.add (w.newDefinition (Text.trim tag)) =
            .ok (w.newDefinition (Text.trim tag),
              ⟨w.registry.table.put (Text.trim tag) (w.newDefinition (Text.trim tag))⟩) := by
          have hself : tagName (w.newDefinition (Text.trim tag)).name = .ok (Text.trim tag) :=
            tagName_eq_ok_self_iff.mpr hword
          rw [Registry.add, hself]
          rfl
        have hnew : Text.trim tag ∉ w.registry.names := mt hhas.mpr hdefined
        rw [Table.put_of_notMem hnew] at hadd
        have hput : w.register tag = (some (w.newDefinition (Text.trim tag)),
            { w with registry :=
                ⟨w.registry.table ++ [(Text.trim tag, w.newDefinition (Text.trim tag))]⟩ }.note
              .info .index ("Registered new tag " ++ String.ofList (Text.trim tag))) := by
          simp only [register, if_neg htag, hname, if_neg hdefined, hadd]
        rw [hput]
        exact .inr ⟨⟨hword, hnew⟩, rfl, rfl⟩

/-- Where all names are trimmed, a tag gets a definition iff its name is new. -/
theorem register_of_trimmed (h : ∀ name ∈ w.registry.names, Text.trim name = name) (tag : Text) :
    (¬ w.IsNew (Text.trim tag) ∧ (w.register tag).1 = none ∧
      (w.register tag).2.registry = w.registry) ∨
    (w.IsNew (Text.trim tag) ∧
      (w.register tag).1 = some (w.newDefinition (Text.trim tag)) ∧
      (w.register tag).2.registry =
        ⟨w.registry.table ++ [(Text.trim tag, w.newDefinition (Text.trim tag))]⟩) := by
  refine (w.register_cases tag).imp_left fun ⟨hnone, hsame, hold⟩ => ⟨fun hnew => ?_, hnone, hsame⟩
  refine hold.elim (fun htag => hnew.2 ?_) fun hnot => hnot hnew
  rwa [h tag htag]

/-! ## Several tags -/

/-- The definition that a new name is given after `k` others. -/
def definitionAfter (w : Workspace) (name : Text) (k : Nat) : Definition where
  name := name
  color := some w.config.defaultColor
  icon := some w.config.defaultIcon
  pinned := (w.registry.pinnedCount + k : Int) < w.config.maxPinned

theorem pinnedCount_append (r : Registry) (name : Text) (d : Definition) :
    (⟨r.table ++ [(name, d)]⟩ : Registry).pinnedCount =
      r.pinnedCount + if d.pinned then 1 else 0 := by
  rw [Registry.pinnedCount, Registry.toList, Table.values, List.map_append, List.countP_append,
    List.map_singleton, List.countP_singleton]
  rfl

/-- A definition that is pinned takes away room, and one that is not finds none. -/
theorem definitionAfter_succ (hconfig : w'.config = w.config)
    (hregistry : w'.registry = ⟨w.registry.table ++ [(name, w.newDefinition name)]⟩) (k : Nat) :
    w'.definitionAfter tag k = w.definitionAfter tag (k + 1) := by
  have hpinned : ((w'.registry.pinnedCount : Int) + k < w'.config.maxPinned) ↔
      ((w.registry.pinnedCount : Int) + (k + 1 : Nat) < w.config.maxPinned) := by
    have hroom : (w.newDefinition name).pinned = true ↔
        (w.registry.pinnedCount : Int) < w.config.maxPinned := decide_eq_true_iff
    rw [hregistry, pinnedCount_append, hconfig]
    split
    · next h =>
      have := hroom.mp h
      omega
    · next h =>
      rw [hroom] at h
      omega
  unfold definitionAfter
  rw [decide_eq_decide.mpr hpinned, hconfig]

theorem names_of_put (hregistry :
    w'.registry = ⟨w.registry.table ++ [(name, w.newDefinition name)]⟩) :
    w'.registry.names = w.registry.names ++ [name] := by
  rw [hregistry, Registry.names, Table.keys, List.map_append]
  rfl

/-- Once a name has a definition it is not new any more. -/
theorem filter_isNew_of_put (hregistry :
    w'.registry = ⟨w.registry.table ++ [(name, w.newDefinition name)]⟩) (names : List Text) :
    names.filter (w'.IsNew ·) = (names.filter (w.IsNew ·)).filter (!· == name) := by
  rw [List.filter_filter]
  refine List.filter_congr fun other _ => ?_
  have hmem : w'.IsNew other ↔ other ≠ name ∧ w.IsNew other := by
    rw [IsNew, IsNew, names_of_put hregistry, List.mem_append, List.mem_singleton, not_or,
      ← and_assoc, and_comm]
  rw [decide_eq_decide.mpr hmem, Bool.decide_and, decide_not, beq_eq_decide]

/-- A list of tags brings in its new names, each once and where it comes first. -/
theorem registerAll_eq (h : ∀ name ∈ w.registry.names, Text.trim name = name) (tags : List Text) :
    (w.registerAll tags).1 = (((tags.map Text.trim).filter (w.IsNew ·)).eraseDups.zipIdx.map
        fun e => w.definitionAfter e.1 e.2) ∧
      (w.registerAll tags).2.registry.table =
        w.registry.table ++ (w.registerAll tags).1.map fun d => (d.name, d) := by
  induction tags generalizing w with
  | nil => exact ⟨rfl, (List.append_nil _).symm⟩
  | cons tag tags ih =>
    have hconfig : (w.register tag).2.config = w.config := (w.alike_register tag).config
    have hstep : w.registerAll (tag :: tags) =
        ((w.register tag).1.toList ++ ((w.register tag).2.registerAll tags).1,
          ((w.register tag).2.registerAll tags).2) := rfl
    rw [hstep, List.map_cons]
    rcases register_of_trimmed h tag with ⟨hold, hnone, hsame⟩ | ⟨hnew, hsome, hput⟩
    · obtain ⟨hdefinitions, htable⟩ := ih (by rwa [hsame])
      have hnames : (tags.map Text.trim).filter ((w.register tag).2.IsNew ·) =
          (tags.map Text.trim).filter (w.IsNew ·) :=
        List.filter_congr fun name _ => decide_eq_decide.mpr (by rw [IsNew, IsNew, hsame])
      have hafter : (w.register tag).2.definitionAfter = w.definitionAfter := by
        unfold definitionAfter
        rw [hsame, hconfig]
      rw [hnone, List.filter_cons_of_neg (by simpa using hold)]
      rw [hsame] at htable
      rw [hnames, hafter] at hdefinitions
      exact ⟨hdefinitions, htable⟩
    · have htrimmed : ∀ name ∈ (w.register tag).2.registry.names, Text.trim name = name := by
        intro name hname
        rw [names_of_put hput, List.mem_append, List.mem_singleton] at hname
        rcases hname with hname | rfl
        · exact h name hname
        · exact Text.trim_of_isTrimmed hnew.1.isTrimmed
      obtain ⟨hdefinitions, htable⟩ := ih htrimmed
      rw [hput] at htable
      refine ⟨?_, ?_⟩
      · rw [hsome, hdefinitions, filter_isNew_of_put hput,
          List.filter_cons_of_pos (by simpa using hnew), List.eraseDups_cons, List.zipIdx_cons',
          List.map_cons, List.map_map]
        refine congrArg₂ _ ?_ (List.map_congr_left fun e _ => definitionAfter_succ hconfig hput e.2)
        unfold definitionAfter newDefinition
        rw [Int.natCast_zero, Int.add_zero]
      · rw [hsome, htable]
        exact List.append_assoc _ _ _

/-! ## Runs -/

/-- The configuration and the definitions are as they were. -/
structure SameDefinitions (w w' : Workspace) : Prop where
  config : w'.config = w.config
  registry : w'.registry = w.registry

/-- The definitions there were are kept as they are, others come after them, and none of these is
pinned beyond the room that the configuration gives. -/
structure Grows (w w' : Workspace) : Prop where
  config : w'.config = w.config
  table : w.registry.table <+: w'.registry.table
  pinned : (w'.registry.pinnedCount : Int) ≤ max (w.registry.pinnedCount : Int) w.config.maxPinned

theorem SameDefinitions.trans (h : w.SameDefinitions w') (h' : w'.SameDefinitions w'') :
    w.SameDefinitions w'' :=
  ⟨h'.config.trans h.config, h'.registry.trans h.registry⟩

theorem SameDefinitions.grows (h : w.SameDefinitions w') : w.Grows w' := by
  refine ⟨h.config, ?_, ?_⟩
  · simp only [h.registry, List.prefix_refl]
  · rw [h.registry]
    exact le_max_left _ _

theorem Grows.trans (h : w.Grows w') (h' : w'.Grows w'') : w.Grows w'' := by
  refine ⟨h'.config.trans h.config, h.table.trans h'.table, h'.pinned.trans ?_⟩
  rw [h.config]
  exact max_le h.pinned (le_max_right _ _)

theorem sameDefinitions_notify (w : Workspace) : w.SameDefinitions w.notify := by
  have htell (w : Workspace) (l : Listener) : w.SameDefinitions (w.tell l) := by
    unfold tell
    simp only
    split <;> exact ⟨rfl, rfl⟩
  have hfold (ls : List Listener) (w : Workspace) : w.SameDefinitions (ls.foldl tell w) := by
    induction ls generalizing w with
    | nil => exact ⟨rfl, rfl⟩
    | cons l ls ih => exact (htell w l).trans (ih (w.tell l))
  exact hfold w.listeners w

theorem sameDefinitions_update (w : Workspace) (d : Document) : w.SameDefinitions (w.update d) :=
  have hnotified := sameDefinitions_notify { w with index := w.index.add d }
  ⟨hnotified.config, hnotified.registry⟩

theorem sameDefinitions_remove (w : Workspace) (uri : Text) : w.SameDefinitions (w.remove uri) :=
  have hnotified := sameDefinitions_notify { w with index := w.index.remove uri }
  ⟨hnotified.config, hnotified.registry⟩

theorem sameDefinitions_askScan (w : Workspace) : w.SameDefinitions w.askScan.2 := by
  unfold askScan
  split <;> exact ⟨rfl, rfl⟩

end Workspace

namespace ScanRun

theorem sameDefinitions_approach (r : ScanRun) (plan : ScanPlan) (p : Path) :
    r.workspace.SameDefinitions (r.approach plan p).workspace := by
  unfold approach
  simp only
  split
  · exact r.workspace.sameDefinitions_askScan
  · exact ⟨rfl, rfl⟩

theorem sameDefinitions_visit (r : ScanRun) (plan : ScanPlan) (d : Disk) (paths : List Path) :
    r.workspace.SameDefinitions (visit plan d r paths).1.workspace := by
  induction paths generalizing r with
  | nil => exact ⟨rfl, rfl⟩
  | cons p paths ih =>
    have happroach := r.sameDefinitions_approach plan p
    unfold visit
    simp only
    split
    · exact happroach
    · split
      · exact happroach.trans ⟨(ih _).config, (ih _).registry⟩
      · split
        · exact happroach.trans ⟨(ih _).config, (ih _).registry⟩
        · exact happroach

theorem sameDefinitions_pass (r : ScanRun) (plan : ScanPlan) (d : Disk) :
    r.workspace.SameDefinitions (r.pass plan d).1.workspace := by
  unfold pass
  simp only
  split
  · exact ⟨rfl, rfl⟩
  · next paths _ =>
    have hvisit := sameDefinitions_visit
      { r with workspace := { r.workspace with index := {} } } plan d paths
    split
    · next hv => rw [hv] at hvisit; exact ⟨hvisit.config, hvisit.registry⟩
    · next hv => rw [hv] at hvisit; exact ⟨hvisit.config, hvisit.registry⟩

theorem sameDefinitions_passes (r : ScanRun) (plan : ScanPlan) (d : Disk) (fuel : Nat) :
    r.workspace.SameDefinitions (passes plan d fuel r).1.workspace := by
  induction fuel generalizing r with
  | zero => exact ⟨rfl, rfl⟩
  | succ fuel ih =>
    have hpass := r.sameDefinitions_pass plan d
    unfold passes
    split
    · next hp => rw [hp] at hpass; exact hpass
    · next hp =>
      rw [hp] at hpass
      split
      · exact hpass.trans ⟨(ih _).config, (ih _).registry⟩
      · exact hpass

end ScanRun

namespace Workspace

theorem sameDefinitions_scan (w : Workspace) (d : Disk) (plan : ScanPlan) :
    w.SameDefinitions (w.scan d plan).2.workspace := by
  have hask := w.sameDefinitions_askScan
  unfold scan
  split
  · next ha => rw [ha] at hask; exact hask
  · next w₁ ha =>
    rw [ha] at hask
    have hpasses := ScanRun.sameDefinitions_passes ⟨w₁, [], []⟩ plan d (lastRequest plan + 1)
    split
    · next r hp =>
      rw [hp] at hpasses
      have hnotified := sameDefinitions_notify { r.workspace with scanning := false }
      exact (hask.trans hpasses).trans ⟨hnotified.config, hnotified.registry⟩
    · next hp =>
      rw [hp] at hpasses
      exact (hask.trans hpasses).trans ⟨rfl, rfl⟩

theorem grows_register (w : Workspace) (tag : Text) : w.Grows (w.register tag).2 := by
  have hconfig := (w.alike_register tag).config
  rcases w.register_cases tag with ⟨-, hsame, -⟩ | ⟨-, -, hput⟩
  · exact SameDefinitions.grows ⟨hconfig, hsame⟩
  · refine ⟨hconfig, ?_, ?_⟩
    · rw [hput]
      exact List.prefix_append _ _
    · rw [hput, pinnedCount_append]
      split
      · next hpinned =>
        have : (w.registry.pinnedCount : Int) < w.config.maxPinned := of_decide_eq_true hpinned
        omega
      · omega

theorem grows_registerAll (w : Workspace) (tags : List Text) : w.Grows (w.registerAll tags).2 := by
  induction tags generalizing w with
  | nil => exact SameDefinitions.grows ⟨rfl, rfl⟩
  | cons tag tags ih => exact (w.grows_register tag).trans (ih (w.register tag).2)

/-- Only tags that are registered, be it in saving a document, change the definitions. -/
theorem grows_perform (w : Workspace) (op : Operation) : w.Grows (w.perform op) := by
  cases op with
  | update d => exact (w.sameDefinitions_update d).grows
  | save d => exact (w.sameDefinitions_update d).grows.trans (grows_registerAll _ _)
  | updateFile disk p =>
    unfold perform updateFile
    simp only
    cases w.loadFile disk p with
    | ok d => exact (w.sameDefinitions_update d).grows
    | error e =>
      simp only
      cases e.isReadFailure <;> exact SameDefinitions.grows ⟨rfl, rfl⟩
  | remove uri => exact (w.sameDefinitions_remove uri).grows
  | removeFile disk p =>
    unfold perform removeFile
    simp only
    cases disk.uriOf p with
    | ok uri => exact (w.sameDefinitions_remove uri).grows
    | error e => exact SameDefinitions.grows ⟨rfl, rfl⟩
  | scan disk plan => exact (w.sameDefinitions_scan disk plan).grows
  | register tags => exact w.grows_registerAll tags
  | subscribe l => exact SameDefinitions.grows ⟨rfl, rfl⟩
  | unsubscribe handle =>
    rw [perform, Handle.call_eq]
    exact SameDefinitions.grows ⟨rfl, rfl⟩

theorem grows_foldl_perform (w : Workspace) (ops : List Operation) :
    w.Grows (ops.foldl perform w) := by
  induction ops generalizing w with
  | nil => exact SameDefinitions.grows ⟨rfl, rfl⟩
  | cons op ops ih => exact (w.grows_perform op).trans (ih (w.perform op))

/-! ## Saved documents -/

/-- A tag that is a word is defined once it was registered. -/
theorem mem_names_registerAll {tags : List Text} (hword : IsWord tag) (h : tag ∈ tags) :
    tag ∈ (w.registerAll tags).2.registry.names := by
  induction tags generalizing w with
  | nil => exact absurd h (by simp)
  | cons first tags ih =>
    rcases List.mem_cons.mp h with rfl | h
    · have hgrows := (w.register tag).2.grows_registerAll tags
      refine (hgrows.table.map Prod.fst).subset ?_
      show tag ∈ (w.register tag).2.registry.names
      have htrim : Text.trim tag = tag := Text.trim_of_isTrimmed hword.isTrimmed
      rcases w.register_cases tag with ⟨-, hsame, hdefined⟩ | ⟨-, -, hput⟩
      · rw [hsame]
        refine hdefined.elim id fun hold => ?_
        by_contra hnew
        exact hold (by rw [htrim]; exact ⟨hword, hnew⟩)
      · rw [htrim] at hput
        rw [names_of_put hput]
        exact List.mem_append_right _ (List.mem_singleton_self tag)
    · exact ih h

end Workspace

/-- A list of tags leaves all definitions there were as they are and puts those of its new names
after them, each once and in the order in which the names come first. The first of them are pinned
as long as there is room, and the same list brings in nothing more. In no run of a workspace are
more definitions pinned than at its start or than the configuration allows. Once a document is saved
all its tags are defined. -/
theorem Workspace.definitions_registerAll (w : Workspace)
    (h : ∀ name ∈ w.registry.names, Text.trim name = name) (tags : List Text) :
    let new := (w.registerAll tags).1
    let after := (w.registerAll tags).2
    after.registry.table = w.registry.table ++ new.map (fun d => (d.name, d)) ∧
    new.map Definition.name = ((tags.map Text.trim).filter fun name =>
      IsWord name ∧ name ∉ w.registry.names).eraseDups ∧
    (∀ (k : Nat) (d : Definition), new[k]? = some d →
      d.color = some w.config.defaultColor ∧ d.icon = some w.config.defaultIcon ∧
      (d.pinned = true ↔ (k : Int) < max 0 (w.config.maxPinned - w.registry.pinnedCount))) ∧
    (after.registerAll tags).1 = [] ∧
    (∀ ops : List Operation, ((ops.foldl perform w).registry.pinnedCount : Int) ≤
      max (w.registry.pinnedCount : Int) w.config.maxPinned) ∧
    ∀ d : Document, ∀ g ∈ Heading.ofDocument d, ∀ tag ∈ g.tags,
      tag ∈ (w.save d).2.registry.names := by
  intro new after
  obtain ⟨hnew, htable⟩ := registerAll_eq h tags
  have hnames : new.map Definition.name =
      ((tags.map Text.trim).filter (w.IsNew ·)).eraseDups := by
    rw [show new = _ from hnew, List.map_map]
    exact List.zipIdx_map_fst 0 _
  refine ⟨htable, hnames, fun k d hk => ?_, ?_, fun ops => (w.grows_foldl_perform ops).pinned,
    fun d g hg tag htag => ?_⟩
  · rw [show new = _ from hnew, List.getElem?_map, List.getElem?_zipIdx, Option.map_map,
      Option.map_eq_some_iff] at hk
    obtain ⟨name, -, rfl⟩ := hk
    refine ⟨rfl, rfl, decide_eq_true_iff.trans ?_⟩
    simp only
    omega
  · have hall : after.registry.names = w.registry.names ++ new.map Definition.name := by
      rw [Registry.names, Table.keys, htable, List.map_append, List.map_map]
      rfl
    have hafter : ∀ name ∈ after.registry.names, Text.trim name = name := by
      intro name hname
      rw [hall, hnames, List.mem_append, List.mem_eraseDups, List.mem_filter] at hname
      rcases hname with hname | hname
      · exact h name hname
      · exact Text.trim_of_isTrimmed (of_decide_eq_true hname.2).1.isTrimmed
    have hnone : (tags.map Text.trim).filter (after.IsNew ·) = [] := by
      refine List.filter_eq_nil_iff.mpr fun name hname hagain => ?_
      obtain ⟨hword, hundefined⟩ : after.IsNew name := of_decide_eq_true hagain
      rw [hall, hnames, List.mem_append, List.mem_eraseDups, List.mem_filter] at hundefined
      have hundefined := not_or.mp hundefined
      exact hundefined.2 ⟨hname, decide_eq_true ⟨hword, hundefined.1⟩⟩
    rw [(registerAll_eq hafter tags).1, hnone]
    rfl
  · obtain ⟨line, -, hread⟩ := Heading.exists_line_of_mem_ofText hg
    have hword := (Heading.clean_of_ofLine? hread).tags tag htag
    refine mem_names_registerAll hword ?_
    rw [(reindexed_update w d).index]
    exact w.index.mem_tagsOf_add hg htag

/-- Blanks around a tag are dropped, a name with a blank in it is none, and where one of two pins is
taken there is one left. -/
theorem Workspace.definitions_registerAll_padded :
    let config : Config := ⟨[".md".toList], [], [], 2, [], [], [], 1⟩
    let w := Workspace.fresh ⟨['/'], [['r']]⟩ config ⟨[(['o'], ⟨['o'], none, none, true⟩)]⟩
    let tags : List Text := ["c d".toList, " b ".toList, "a".toList, "b".toList, "o".toList]
    let after := (w.registerAll tags).2
    (∀ name ∈ w.registry.names, Text.trim name = name) ∧
    after.registry.names = ["o".toList, "b".toList, "a".toList] ∧
    (w.registerAll tags).1.map Definition.pinned = [true, false] ∧
    (after.registerAll tags).1 = [] := by
  intro config w tags after
  have htrimmed : ∀ name ∈ w.registry.names, Text.trim name = name := by decide
  obtain ⟨htable, hnames, -, hagain, -⟩ := w.definitions_registerAll htrimmed tags
  have hnew : (w.registerAll tags).1.map Definition.name = ["b".toList, "a".toList] :=
    hnames.trans (by decide)
  refine ⟨htrimmed, ?_, by decide, hagain⟩
  calc after.registry.names
      = w.registry.names ++ (w.registerAll tags).1.map Definition.name := by
        rw [Registry.names, Table.keys, htable, List.map_append, List.map_map]
        rfl
    _ = _ := by
        rw [hnew]
        rfl

end TaggedOutline
