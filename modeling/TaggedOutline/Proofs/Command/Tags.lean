import TaggedOutline.Proofs.Command.Frontend
import TaggedOutline.Proofs.Command.Workspace
import TaggedOutline.Proofs.Disk.Walk
import TaggedOutline.Proofs.Frontend.Standard
import TaggedOutline.Proofs.Text.Basic

/-!
# From the list of tags to the headings of a tag

1. Both lists are made from the same workspace (`Opens`).
2. The list of tags has a row for each tag with the number of its headings (`run_tags_of_opens`), and
   the list of headings a row for each heading under a tag (`run_blocks_of_opens`).
3. A tag is given back as it was printed. Unless there are escapes in it, that is its name
   (`printedAs_iff`). Number signs before a name do not count, so it is looked for under its own name
   iff it has none (`bareTag_eq_self_iff`).
-/

namespace TaggedOutline.Command

open Command.Run (exec exec_bind_of_ok exec_bind_of_error exec_forM_echoLine)
open Frontend (Gives GivesRoot)
open Index (Agrees)

variable {s : Frontend} {env : Environment} {d : Disk} {con con' : Console} {root tag printed : Text}
  {w w' : Workspace} {given args : List Text} {config : Config} {place : Place} {stop : Stop}

/-! ## Rows -/

/-- A star marks a tag that is pinned. -/
def tagMark (w : Workspace) (tag : Text) : Char :=
  if (w.registry.get? tag).any (·.pinned) then '*' else ' '

/-- How many headings a tag has, in digits. -/
def tagCount (w : Workspace) (tag : Text) : Text := Text.ofNat (w.index.under tag).length

/-- The row of a tag, with some name for it between its mark and the number of its headings. -/
def tagRow (w : Workspace) (tag name : Text) : Text :=
  tagMark w tag :: ' ' :: name ++ '\t' :: (tagCount w tag ++ ['\n'])

/-- The row of a heading. -/
def headingRow (root : Path) (h : TaggedHeading) : Text := headingLine root h ++ ['\n']

/-- The row of a tag is printed with some name in the place of its own. -/
def PrintedAs (s : Frontend) (w : Workspace) (tag printed : Text) : Prop :=
  s.shown (tagRow w tag tag) = tagRow w tag printed

theorem tagLine_append (w : Workspace) (tag : Text) :
    tagLine w tag ++ ['\n'] = tagRow w tag tag := by
  rw [tagLine, List.append_assoc]
  rfl

theorem tagRow_injective (h : tagRow w tag printed = tagRow w tag root) : printed = root := by
  have hnames := (List.cons.inj (List.cons.inj h).2).2
  exact List.append_cancel_right hnames

theorem notMem_tagRow (h : '\x1b' ∉ tag) : '\x1b' ∉ tagRow w tag tag := by
  have hmark : '\x1b' ≠ tagMark w tag := by
    unfold tagMark
    split <;> decide
  have hcount : '\x1b' ∉ tagCount w tag := fun hmem =>
    absurd (Text.isDigit_of_mem_ofNat hmem) (by decide)
  simp [tagRow, hmark, h, hcount]

/-- A tag without escapes is printed with its own name. -/
theorem printedAs_iff (hs : s.IsDocumented d) (h : '\x1b' ∉ tag) :
    PrintedAs s w tag printed ↔ printed = tag := by
  rw [PrintedAs, hs.shown (notMem_tagRow h)]
  exact ⟨fun heq => (tagRow_injective heq).symm, fun heq => heq ▸ rfl⟩

theorem bareTag_eq_self_iff : bareTag tag = tag ↔ tag.head? ≠ some '#' := by
  cases tag with
  | nil => simp [bareTag]
  | cons c tag => simp [bareTag, List.dropWhile_eq_self_iff]

/-! ## The workspace of both lists -/

/-- A command gets the workspace at the root. -/
def Opens (env : Environment) (d : Disk) (root : Path) (w : Workspace) : Prop :=
  ∃ log, exec (openWorkspace env root) { disk := d } = (.ok w, { disk := d, log := log })

theorem Opens.unique {root : Path} (h : Opens env d root w) (h' : Opens env d root w') : w' = w := by
  obtain ⟨log, hw⟩ := h
  obtain ⟨log', hw'⟩ := h'
  exact (Except.ok.inj (congrArg Prod.fst (hw.symm.trans hw'))).symm

/-- A directory without settings in which there is one document. -/
theorem exists_opens_single (env : Environment) {names : List Text} {document : Document}
    (hd : d.IsTree) (hsize : env.sizeLimit = none)
    (hdirectory : d.lookup true (Path.absolute place).text = .ok (place, .directory))
    (hnull : (Path.absolute place).text.contains '\x00' = false)
    (hresolve : d.resolve (.absolute place) = .ok (.absolute place))
    (habsent : ∀ f ∈ Settings.candidates (.absolute place), d.leadsTo f.1 Entry.isFile = .ok false)
    (hfound : d.listed (.absolute place) place Config.byDefault.extensions
      Config.byDefault.excludeDirs = [(names, false)])
    (hshort : Disk.isTooLong ((Path.absolute place).join names).text = false)
    (hload : d.load ((Path.absolute place).join names) (some Config.byDefault.maxFileSize) =
      .ok document) :
    ∃ w, Opens env d (.absolute place) w ∧
      ∀ tag, w.index.under tag = Index.carrying document tag := by
  have hlimit : SizeLimit.read env.sizeLimit Config.byDefault.maxFileSize =
      .ok Config.byDefault.maxFileSize := by rw [hsize]; rfl
  have hconfig : GoesBy env d (.absolute place) .byDefault :=
    ⟨_, _, Config.load_of_absent hresolve habsent, hlimit, rfl⟩
  have hpaths : d.documents (.absolute place) Config.byDefault.extensions
      Config.byDefault.excludeDirs = .ok [(Path.absolute place).join names] :=
    Disk.documents_of_pairwise hnull hdirectory hfound (List.forall_mem_singleton.mpr hshort)
      (List.pairwise_singleton _ _)
  have hreadable : (unscanned (.absolute place) .byDefault).readable d = [document] := by
    unfold Workspace.readable unscanned Workspace.fresh
    rw [hpaths]
    simp only [ScanRun.loaded, Workspace.loadFile]
    rw [List.filterMap_cons, hload]
    rfl
  have hopened : ∃ w log, exec (openWorkspace env (.absolute place)) { disk := d } =
      (.ok w, { disk := d, log := log }) ∧ w.config = .byDefault ∧
        Agrees w.index ((unscanned (.absolute place) .byDefault).readable d) :=
    exec_openWorkspace hconfig ⟨hd, rfl, hdirectory⟩ hpaths
  obtain ⟨w, log, hopen, -, hagrees⟩ := hopened
  refine ⟨w, ⟨log, hopen⟩, fun tag => ?_⟩
  rw [hagrees.under_eq, hreadable, Index.occurrences, List.flatMap_singleton]

/-- A tag with headings is listed. -/
theorem mem_tags_of_under (h : w.index.under tag ≠ []) : tag ∈ w.tags := by
  have hkey : tag ∈ w.index.tags := by
    refine Table.isSome_get?_iff.mp (Option.isSome_iff_ne_none.mpr fun hnone => h ?_)
    rw [Index.under, hnone]
    rfl
  exact List.mem_mergeSort.mpr (Text.mem_distinct.mpr (List.mem_append_left _ hkey))

/-! ## The lists -/

theorem exec_listTags {root : Path} {text : Text} (hread : Path.ofText text = root)
    (h : exec (openWorkspace env root) con = (.ok w, con')) :
    exec (perform env (.tags text)) con =
      (.ok (), { con' with echoed := con'.echoed ++ w.tags.map fun tag => tagRow w tag tag }) := by
  have hrows := exec_forM_echoLine w.tags (tagLine w) con'
  simp only [tagLine_append] at hrows
  rw [← hread] at h
  exact (exec_bind_of_ok h).trans hrows

theorem exec_listHeadings {root : Path} {text : Text} (hread : Path.ofText text = root)
    (h : exec (openWorkspace env root) con = (.ok w, con')) :
    exec (perform env (.blocks tag text)) con = (.ok (), { con' with
      echoed := con'.echoed ++ (w.index.under (bareTag tag)).map (headingRow root) }) := by
  rw [← hread] at h ⊢
  exact (exec_bind_of_ok h).trans (exec_forM_echoLine _ _ con')

section Lists

variable (hs : s.IsDocumented d) (hd : d.IsTree) (hroot : GivesRoot d given place)

include hs hd hroot

theorem run_tags_of_opens (hargs : Gives given args) (h : Opens env d (.absolute place) w) :
    let o := s.run env d ("tags".toList :: args)
    o.exitCode = 0 ∧ o.disk = d ∧ o.output = w.tags.flatMap fun tag => s.shown (tagRow w tag tag) := by
  obtain ⟨log, hopen⟩ := h
  have hrun : s.run env d ("tags".toList :: args) = s.carryOut env d false (.tags _) :=
    Frontend.run_of_means hs hargs (.tags hroot)
  have hexec := exec_listTags (ofText_root hd hroot.directory) hopen
  dsimp only
  rw [hrun, Frontend.carryOut_of_ok false hexec, List.nil_append, List.flatMap_map]
  exact ⟨rfl, rfl, rfl⟩

theorem run_blocks_of_opens (hargs : Gives (tag :: given) args)
    (h : Opens env d (.absolute place) w) :
    let o := s.run env d ("blocks".toList :: args)
    o.exitCode = 0 ∧ o.disk = d ∧ o.output = (w.index.under (bareTag tag)).flatMap fun heading =>
      s.shown (headingRow (.absolute place) heading) := by
  obtain ⟨log, hopen⟩ := h
  have hrun : s.run env d ("blocks".toList :: args) = s.carryOut env d false (.blocks tag _) :=
    Frontend.run_of_means hs hargs (.blocks tag hroot)
  have hexec : exec (perform env (.blocks tag (Path.absolute place).text)) { disk := d } = _ :=
    exec_listHeadings (ofText_root hd hroot.directory) hopen
  dsimp only
  rw [hrun, Frontend.carryOut_of_ok false hexec, List.nil_append, List.flatMap_map]
  exact ⟨rfl, rfl, rfl⟩

/-- Where there is no workspace no tags are listed. -/
theorem run_tags_cases (env : Environment) (hargs : Gives given args) :
    (∃ w, Opens env d (.absolute place) w) ∨
      let o := s.run env d ("tags".toList :: args)
      o.exitCode ≠ 0 ∧ o.disk = d ∧ o.output = [] := by
  rcases exec_openWorkspace_cases env (.absolute place) { disk := d } with
    ⟨w, log, hopen⟩ | ⟨stop, log, hopen⟩
  · exact .inl ⟨w, log, hopen⟩
  · have hrun : s.run env d ("tags".toList :: args) = s.carryOut env d false (.tags _) :=
      Frontend.run_of_means hs hargs (.tags hroot)
    have hexec : exec (perform env (.tags (Path.absolute place).text)) { disk := d } =
        (.error stop, { disk := d, log := log }) := by
      rw [← ofText_root hd hroot.directory] at hopen
      exact exec_bind_of_error hopen
    obtain ⟨hcode, hdisk, houtput, -⟩ := Frontend.carryOut_of_error (s := s) false hexec
    obtain ⟨hstop, -, hnothing⟩ := hs.ending_of_error .tags stop
    refine .inr ?_
    dsimp only
    rw [hrun, houtput, hcode]
    exact ⟨hstop, hdisk, hnothing⟩

/-- The list of tags has a row for each tag, with the number of its headings. Given back as it is
printed, a tag has the headings listed that are under what is left of it without number signs, one row
for each. A tag without escapes is printed with its own name, and this is what is left of it iff it
does not start with a number sign. -/
theorem run_tags_blocks (env : Environment) (hargs : Gives given args) :
    let o := s.run env d ("tags".toList :: args)
    o.disk = d ∧ (o.exitCode ≠ 0 ∧ o.output = [] ∨
      ∃ w, Opens env d (.absolute place) w ∧ o.exitCode = 0 ∧
        (o.output = w.tags.flatMap fun tag => s.shown (tagRow w tag tag)) ∧
        ∀ tag ∈ w.tags,
          ('\x1b' ∉ tag → ∀ printed, PrintedAs s w tag printed ↔ printed = tag) ∧
          (bareTag tag = tag ↔ tag.head? ≠ some '#') ∧
          ∀ printed, PrintedAs s w tag printed → ∀ args', Gives (printed :: given) args' →
            let o' := s.run env o.disk ("blocks".toList :: args')
            o'.exitCode = 0 ∧ o'.disk = d ∧
              o'.output = (w.index.under (bareTag printed)).flatMap fun heading =>
                s.shown (headingRow (.absolute place) heading)) := by
  intro o
  rcases run_tags_cases hs hd hroot env hargs with ⟨w, hopens⟩ | ⟨hcode, hdisk, houtput⟩
  · obtain ⟨hcode, hdisk, houtput⟩ := run_tags_of_opens hs hd hroot hargs hopens
    refine ⟨hdisk, .inr ⟨w, hopens, hcode, houtput, fun tag _ => ⟨?_, bareTag_eq_self_iff, ?_⟩⟩⟩
    · exact fun hplain printed => printedAs_iff hs hplain
    · intro printed _ args' hargs'
      rw [show o.disk = d from hdisk]
      exact run_blocks_of_opens hs hd hroot hargs' hopens
  · exact ⟨hdisk, .inl ⟨hcode, houtput⟩⟩

end Lists

/-- A tag of two headings. -/
theorem run_tags_blocks_two :
    let ws : Place := ["ws".toList]
    let d : Disk := ⟨ws, [(ws, .directory), (ws ++ ["a.md".toList],
      .file 0o644 (Text.Utf8.encode "# A <!-- #x -->\n## B <!-- #x -->\n".toList))], []⟩
    let env : Environment := { nesting := 100 }
    let s := Frontend.standard
    let o := s.run env d ["tags".toList, ['.']]
    let o' := s.run env o.disk ["blocks".toList, ['x'], ['.']]
    ∃ w, Opens env d (.absolute ws) w ∧ ['x'] ∈ w.tags ∧ (w.index.under ['x']).length = 2 ∧
      (o.output = w.tags.flatMap fun tag => s.shown (tagRow w tag tag)) ∧
      o'.output = (w.index.under ['x']).flatMap fun heading =>
        s.shown (headingRow (.absolute ws) heading) := by
  intro ws d env s o o'
  have hs := Frontend.isDocumented_standard d
  have hd : d.IsTree := by decide +kernel
  have hdirectory : d.lookup true (Path.absolute ws).text = .ok (ws, .directory) := by
    decide +kernel
  have hroot : GivesRoot d [['.']] ws := .given ⟨by decide, by decide +kernel, hdirectory⟩
  let document : Document :=
    ⟨"/ws/a.md".toList, "# A <!-- #x -->\n## B <!-- #x -->\n".toList, .markdown⟩
  have hload : d.load ((Path.absolute ws).join ["a.md".toList]) (some Config.byDefault.maxFileSize) =
      .ok document := by decide +kernel
  obtain ⟨w, hopens, hunder⟩ := exists_opens_single env hd rfl hdirectory
    (by decide +kernel) (by decide +kernel) (by decide +kernel) (by decide +kernel)
    (by decide +kernel) hload
  have hcount : (w.index.under ['x']).length = 2 := by
    rw [hunder]
    decide +kernel
  have hmem : ['x'] ∈ w.tags := mem_tags_of_under fun hnil => by
    rw [hnil] at hcount
    cases hcount
  have hargs : Gives [['.']] [['.']] := .plain (by decide)
  have hcode := (run_tags_of_opens hs hd hroot hargs hopens).1
  obtain ⟨-, ⟨hfailed, -⟩ | ⟨w', hopens', -, houtput, htags⟩⟩ :=
    run_tags_blocks hs hd hroot env hargs
  · exact absurd hcode hfailed
  · obtain rfl := hopens.unique hopens'
    obtain ⟨hprinted, -, hblocks⟩ := htags ['x'] hmem
    have hprinted : PrintedAs s w' ['x'] ['x'] := (hprinted (by decide) _).mpr rfl
    obtain ⟨-, -, hlist⟩ := hblocks _ hprinted _ (.plain (by decide))
    exact ⟨w', hopens, hmem, hcount, houtput, hlist⟩

/-- A tag with a number sign before its name has a heading, but none of it is listed. -/
theorem run_tags_blocks_sign :
    let ws : Place := ["ws".toList]
    let d : Disk := ⟨ws, [(ws, .directory), (ws ++ ["a.md".toList],
      .file 0o644 (Text.Utf8.encode "# A <!-- ##x -->\n".toList))], []⟩
    let env : Environment := { nesting := 100 }
    let s := Frontend.standard
    let o := s.run env d ["tags".toList, ['.']]
    let o' := s.run env o.disk ["blocks".toList, "#x".toList, ['.']]
    o.exitCode = 0 ∧ " #x\t1\n".toList <:+: o.output ∧ o'.exitCode = 0 ∧ o'.output = [] := by
  intro ws d env s o o'
  have hs := Frontend.isDocumented_standard d
  have hd : d.IsTree := by decide +kernel
  have hdirectory : d.lookup true (Path.absolute ws).text = .ok (ws, .directory) := by
    decide +kernel
  have hroot : GivesRoot d [['.']] ws := .given ⟨by decide, by decide +kernel, hdirectory⟩
  let document : Document := ⟨"/ws/a.md".toList, "# A <!-- ##x -->\n".toList, .markdown⟩
  have hload : d.load ((Path.absolute ws).join ["a.md".toList]) (some Config.byDefault.maxFileSize) =
      .ok document := by decide +kernel
  obtain ⟨w, hopens, hunder⟩ := exists_opens_single env hd rfl hdirectory
    (by decide +kernel) (by decide +kernel) (by decide +kernel) (by decide +kernel)
    (by decide +kernel) hload
  have hcount : (w.index.under "#x".toList).length = 1 := by
    rw [hunder]
    decide +kernel
  have hnone : w.index.under ['x'] = [] := by
    rw [hunder]
    decide +kernel
  have hmem : "#x".toList ∈ w.tags := mem_tags_of_under fun hnil => by
    rw [hnil] at hcount
    cases hcount
  obtain ⟨hcode, hdisk, houtput⟩ := run_tags_of_opens hs hd hroot (.plain (by decide)) hopens
  have hrow : tagRow w "#x".toList "#x".toList = tagMark w "#x".toList :: " #x\t1\n".toList := by
    rw [tagRow, tagCount, hcount]
    rfl
  have hrowIn : s.shown (tagRow w "#x".toList "#x".toList) <:+: o.output := by
    rw [show o.output = _ from houtput]
    exact List.infix_of_mem_flatten (List.mem_map_of_mem hmem)
  have hargs : Gives ["#x".toList, ['.']] ["#x".toList, ['.']] := .plain (by decide)
  obtain ⟨hcode', -, houtput'⟩ := run_blocks_of_opens hs hd hroot hargs hopens
  refine ⟨hcode, ?_, ?_⟩
  · rw [hs.shown (notMem_tagRow (by decide)), hrow] at hrowIn
    exact (List.suffix_cons _ _).isInfix.trans hrowIn
  · have hrun : o' = s.run env d ["blocks".toList, "#x".toList, ['.']] :=
      congrArg (s.run env · ["blocks".toList, "#x".toList, ['.']]) hdisk
    have hempty : w.index.under (bareTag "#x".toList) = [] := hnone
    rw [hempty, List.flatMap_nil] at houtput'
    rw [hrun]
    exact ⟨hcode', houtput'⟩

end TaggedOutline.Command
