import TaggedOutline.Proofs.Comment.RoundTrip
import TaggedOutline.Proofs.Config.Check
import TaggedOutline.Proofs.Tag.Registry
import TaggedOutline.Workspace.Basic

/-!
# Names of defined tags

1. A tag table that passes its check holds a definition, and its name without the blanks around it
   is a tag name (`exists_definition_of_checkTagEntry`). The registry keeps the name as it is written
   in the table.
2. Under a name there is the last configured definition that is written so, and else the built-in one
   (`Registry.get?_ofTables`).
3. Defining tags that are used adds definitions (`exists_after_registerAll`), and whatever is added
   later has a tag name (`mem_names_after`). So all names are tag names iff the configured ones are
   written without blanks around them (`tagNames_iff_trimmed`).
-/

namespace TaggedOutline

/-! ## Configured definitions -/

section Configured

variable {given : Settings} {c : Config} {v : Value} {entries : List (Text × Value)}
  {name key : Text}

theorem exists_textUnder_of_checkTagText (h : checkTagText entries name key = .ok ()) :
    ∃ t, Definition.textUnder entries key = .ok t := by
  unfold checkTagText at h
  unfold Definition.textUnder
  split at h
  · next hget => exact ⟨none, by rw [hget]⟩
  · next t hget => exact ⟨some t, by rw [hget]⟩
  · exact absurd h (by simp)

/-- A checked tag table holds a definition of a tag. -/
theorem exists_definition_of_checkTagEntry (h : checkTagEntry v = .ok ()) :
    ∃ d, Definition.ofValue v = .ok d ∧ tagName d.name = .ok (Text.trim d.name) := by
  unfold checkTagEntry at h
  split at h
  · next entries =>
    split at h
    · next name hname =>
      have hkeys : (Table.keys entries).filter (¬ Text.isIn · tagKeys) = [] := by
        by_contra hne
        rw [if_pos hne] at h
        cases h
      replace h := of_guard_eq_ok h
      obtain ⟨trimmed, htrimmed, h⟩ := exists_of_bind_eq_ok h
      obtain ⟨⟨⟩, hcolor, h⟩ := exists_of_bind_eq_ok h
      obtain ⟨⟨⟩, hicon, h⟩ := exists_of_bind_eq_ok h
      obtain ⟨color, hcolor⟩ := exists_textUnder_of_checkTagText hcolor
      obtain ⟨icon, hicon⟩ := exists_textUnder_of_checkTagText hicon
      have hfind : (Table.keys entries).find? (¬ Text.isIn · Definition.keys) = none :=
        List.find?_eq_none.mpr (List.filter_eq_nil_iff.mp hkeys)
      have htag := eq_ok_of_mapError htrimmed
      rw [(tagName_eq_ok_iff.mp htag).1] at htag
      show ∃ d, Definition.ofTable entries = .ok d ∧ _
      unfold Definition.ofTable
      simp only [hfind, hname, hcolor, hicon]
      split at h
      · next hpinned => exact ⟨_, by rw [hpinned]; rfl, htag⟩
      · next pinned hpinned => exact ⟨_, by rw [hpinned]; rfl, htag⟩
      · exact absurd h (by simp)
    · exact absurd h (by simp)
  · exact absurd h (by simp)

/-- The tables of a checked configuration hold definitions of tags. -/
theorem exists_definitions_of_check (h : given.check = .ok c) :
    ∃ ds, c.tags.mapM Definition.ofValue = .ok ds ∧
      ∀ d ∈ ds, tagName d.name = .ok (Text.trim d.name) := by
  have hentries := forM_eq_ok_iff.mp (Settings.makes_of_check h).entries
  exact exists_mapM_ok fun v hv => exists_definition_of_checkTagEntry (hentries v hv)

end Configured

namespace Registry

variable {tables : List Value} {ds : List Definition} {r : Registry} {name : Text}

theorem get?_ofList (ds : List Definition) (name : Text) :
    (ofList ds).get? name = ds.reverse.find? (·.name = name) := by
  show (Table.ofList (ds.map fun d => (d.name, d))).get? name = _
  rw [Table.get?_ofList, ← List.map_reverse, List.find?_map, Option.map_map]
  exact Option.map_id' ..

/-- Distinct names are looked up from either end. -/
theorem find?_reverse_of_nodup (h : (ds.map Definition.name).Nodup) (name : Text) :
    ds.reverse.find? (·.name = name) = ds.find? (·.name = name) := by
  have hkeys : ((ds.map fun d => (d.name, d)).map Prod.fst).Nodup := by
    rwa [List.map_map]
  rw [← get?_ofList, ofList, Table.ofList_of_nodup hkeys]
  exact (Table.get?_map ds Definition.name id name).trans (Option.map_id' ..)

/-- Under a name there is the last definition that is configured under it, and else the built-in
one. -/
theorem get?_ofTables (h : tables.mapM Definition.ofValue = .ok ds) :
    ∃ r, ofTables tables = .ok r ∧ ∀ name, r.get? name =
      (ds.reverse.find? (·.name = name)).or (builtins.find? (·.name = name)) := by
  let others := builtins.filter fun b => ¬ ds.any (·.name = b.name)
  have hothers : (others.map Definition.name).Nodup :=
    nodup_names_builtins.sublist (List.filter_sublist.map _)
  refine ⟨ofList (ds ++ others), by rw [ofTables, h]; rfl, fun name => ?_⟩
  rw [get?_ofList, List.reverse_append, List.find?_append, find?_reverse_of_nodup hothers]
  cases hfind : ds.reverse.find? (·.name = name) with
  | some d =>
    have hd : d ∈ ds := List.mem_reverse.mp (List.mem_of_find?_eq_some hfind)
    have hname : d.name = name := by simpa using List.find?_some hfind
    have hnone : others.find? (·.name = name) = none := by
      refine List.find?_eq_none.mpr fun b hb hbname => ?_
      have hnot := (List.mem_filter.mp hb).2
      simp only [decide_eq_true_eq, List.any_eq_true] at hnot hbname
      exact hnot ⟨d, hd, hname.trans hbname.symm⟩
    rw [hnone]
    rfl
  | none =>
    rw [Option.or_none, Option.none_or, List.find?_filter]
    congr 1
    funext b
    by_cases hb : b.name = name
    · have hnot : ∀ d ∈ ds, d.name ≠ b.name := fun d hd => by
        simpa [hb] using List.find?_eq_none.mp hfind d (List.mem_reverse.mpr hd)
      simpa [hb] using hb ▸ hnot
    · simp [hb]

theorem mem_names_ofTables (h : tables.mapM Definition.ofValue = .ok ds)
    (hr : ofTables tables = .ok r) :
    name ∈ r.names ↔ (∃ d ∈ ds, d.name = name) ∨ ∃ b ∈ builtins, b.name = name := by
  obtain ⟨r', hr', hget⟩ := get?_ofTables h
  obtain rfl := Except.ok.inj (hr.symm.trans hr')
  rw [← exists_get?_iff, ← Option.isSome_iff_exists, hget,
    Option.isSome_or, Bool.or_eq_true, List.find?_isSome, List.find?_isSome]
  simp

theorem tagName_of_mem_builtins : ∀ b ∈ builtins, tagName b.name = .ok b.name := by
  simp only [tagName_eq_ok_self_iff]
  decide

/-- After a change there is no new name but a tag name. -/
theorem mem_names_perform (c : Change) (h : name ∈ (r.perform c).2.names) :
    name ∈ r.names ∨ tagName name = .ok name := by
  have hput {t : Table Text Definition} {d : Definition} (hd : tagName d.name = .ok d.name)
      (h : name ∈ (t.put d.name d).keys) : name ∈ t.keys ∨ tagName name = .ok name := by
    rcases Table.mem_keys_put.mp h with rfl | h
    · exact .inr hd
    · exact .inl h
  have herase {t : Table Text Definition} {old : Text} (h : name ∈ (t.erase old).keys) :
      name ∈ t.keys := by
    rw [Table.keys_erase] at h
    exact (List.mem_filter.mp h).1
  rcases perform_cases r c with ⟨e, hp⟩ | ⟨old, hp⟩ | ⟨d, rest, rfl | ⟨old, rfl⟩, hd, hp⟩ <;>
    rw [hp] at h
  · exact .inl h
  · exact .inl (herase h)
  · exact hput hd h
  · exact (hput hd h).imp_left herase

theorem mem_names_after (changes : List Change) (h : name ∈ (r.after changes).names) :
    name ∈ r.names ∨ tagName name = .ok name := by
  induction changes generalizing r with
  | nil => exact .inl h
  | cons c changes ih => exact (ih h).elim (mem_names_perform c) .inr

end Registry

/-! ## Definitions of a workspace -/

/-- What is asked of the definitions of a workspace. -/
inductive DefinitionRequest
  | change (c : Registry.Change)
  | register (tags : List Text)

namespace Workspace

/-- The workspace after a request about its definitions. -/
def define (w : Workspace) : DefinitionRequest → Workspace
  | .change c => { w with registry := (w.registry.perform c).2 }
  | .register tags => (w.registerAll tags).2

/-- The workspace after some requests about its definitions. -/
def defineAll (w : Workspace) (requests : List DefinitionRequest) : Workspace :=
  requests.foldl define w

theorem exists_after_register (w : Workspace) (tag : Text) :
    ∃ changes, (w.register tag).2.registry = w.registry.after changes := by
  unfold register
  split
  · exact ⟨[], rfl⟩
  · split
    · exact ⟨[], rfl⟩
    · next name _ =>
      split
      · exact ⟨[], rfl⟩
      · split
        · exact ⟨[], rfl⟩
        · next d r hadd =>
          refine ⟨[.add (w.newDefinition name)], ?_⟩
          show r = (w.registry.perform (.add (w.newDefinition name))).2
          rw [Registry.perform, hadd]

/-- Tags are defined by adding definitions. -/
theorem exists_after_registerAll (w : Workspace) (tags : List Text) :
    ∃ changes, (w.registerAll tags).2.registry = w.registry.after changes := by
  induction tags generalizing w with
  | nil => exact ⟨[], rfl⟩
  | cons tag tags ih =>
    obtain ⟨first, hfirst⟩ := w.exists_after_register tag
    obtain ⟨later, hlater⟩ := ih (w.register tag).2
    refine ⟨first ++ later, ?_⟩
    rw [Registry.after_append, ← hfirst]
    exact hlater

/-- Whatever is asked of its definitions, the registry of a workspace goes through some changes. -/
theorem exists_after_defineAll (w : Workspace) (requests : List DefinitionRequest) :
    ∃ changes, (w.defineAll requests).registry = w.registry.after changes := by
  induction requests generalizing w with
  | nil => exact ⟨[], rfl⟩
  | cons request requests ih =>
    obtain ⟨first, hfirst⟩ : ∃ changes, (w.define request).registry = w.registry.after changes := by
      cases request with
      | change c => exact ⟨[c], rfl⟩
      | register tags => exact w.exists_after_registerAll tags
    obtain ⟨later, hlater⟩ := ih (w.define request)
    refine ⟨first ++ later, ?_⟩
    rw [Registry.after_append, ← hfirst]
    exact hlater

end Workspace

/-! ## All names -/

/-- A name can be written as a tag iff it is a tag name. -/
theorem tags_decode_encode_singleton_iff {name : Text} :
    (Marks.decode (Marks.encode { tags := [name] })).tags = [name] ↔ tagName name = .ok name := by
  rw [tagName_eq_ok_self_iff]
  constructor
  · intro h
    exact (Marks.clean_decode _).tags name (by rw [h]; exact List.mem_cons_self)
  · intro h
    have hclean : Marks.Clean { tags := [name] } := ⟨by simpa using h, by simp⟩
    rw [Marks.decode_encode_of_clean hclean]

section Names

variable {given : Settings} {c : Config}

/-- The tables of a checked configuration make up a registry. Under a name it has the last
definition that is configured under just this name, and else the built-in one. However definitions
are added, renamed, dropped and made of tags from there on, a name that is no tag name is one that
is configured with blanks around it. So all names are tag names, and only then can all of them be
written as tags, iff none is configured so. -/
theorem tagNames_iff_trimmed (h : given.check = .ok c) :
    ∃ ds r, c.tags.mapM Definition.ofValue = .ok ds ∧ Registry.ofTables c.tags = .ok r ∧
      (∀ d ∈ ds, tagName d.name = .ok (Text.trim d.name)) ∧
      (∀ name, r.get? name =
        (ds.reverse.find? (·.name = name)).or (Registry.builtins.find? (·.name = name))) ∧
      (∀ w : Workspace, w.registry = r → ∀ requests,
        ∀ name ∈ (w.defineAll requests).registry.names,
          tagName name = .ok name ∨ ∃ d ∈ ds, d.name = name ∧ Text.trim name ≠ name) ∧
      ((∀ w : Workspace, w.registry = r → ∀ requests,
        ∀ name ∈ (w.defineAll requests).registry.names, tagName name = .ok name) ↔
          ∀ d ∈ ds, Text.trim d.name = d.name) ∧
      ∀ name, (Marks.decode (Marks.encode { tags := [name] })).tags = [name] ↔
        tagName name = .ok name := by
  obtain ⟨ds, hds, htags⟩ := exists_definitions_of_check h
  obtain ⟨r, hr, hget⟩ := Registry.get?_ofTables hds
  have hreached {w : Workspace} (hw : w.registry = r) {requests : List DefinitionRequest}
      {name : Text} (hname : name ∈ (w.defineAll requests).registry.names) :
      tagName name = .ok name ∨ ∃ d ∈ ds, d.name = name ∧ Text.trim name ≠ name := by
    obtain ⟨changes, hafter⟩ := w.exists_after_defineAll requests
    rw [hafter, hw] at hname
    rcases Registry.mem_names_after changes hname with hname | htag
    · rcases (Registry.mem_names_ofTables hds hr).mp hname with ⟨d, hd, rfl⟩ | ⟨b, hb, rfl⟩
      · by_cases htrim : Text.trim d.name = d.name
        · exact .inl ((htags d hd).trans (congrArg Except.ok htrim))
        · exact .inr ⟨d, hd, rfl, htrim⟩
      · exact .inl (Registry.tagName_of_mem_builtins b hb)
    · exact .inl htag
  refine ⟨ds, r, hds, hr, htags, hget, fun w hw requests name => hreached hw, ⟨?_, ?_⟩,
    fun _ => tags_decode_encode_singleton_iff⟩
  · intro hall d hd
    let w : Workspace := { root := .absolute [], config := c, registry := r }
    have hname : d.name ∈ r.names := (Registry.mem_names_ofTables hds hr).mpr (.inl ⟨d, hd, rfl⟩)
    exact (tagName_eq_ok_iff.mp (hall w rfl [] d.name hname)).1.symm
  · intro htrimmed w hw requests name hname
    refine (hreached hw hname).resolve_right ?_
    rintro ⟨d, hd, rfl, hne⟩
    exact hne (htrimmed d hd)

/-- A configured definition stands in for the built-in one of its name. -/
theorem tagNames_iff_trimmed_pinned :
    let todo : Definition := { name := "todo".toList, pinned := true }
    let given : Settings := ({} : Settings).set .tags
      (.list [.table todo.toTable, .table [("name".toList, .text ['x'])]])
    ∃ c r, given.check = .ok c ∧ Registry.ofTables c.tags = .ok r ∧
      r.get? "todo".toList = some todo ∧
      ∀ w : Workspace, w.registry = r → ∀ requests,
        ∀ name ∈ (w.defineAll requests).registry.names, tagName name = .ok name := by
  intro todo given
  obtain ⟨c, hc, htags⟩ : ∃ c, given.check = .ok c ∧
      c.tags = [.table todo.toTable, .table [("name".toList, .text ['x'])]] := ⟨_, rfl, rfl⟩
  obtain ⟨ds, r, hds, hr, -, hget, -, hiff, -⟩ := tagNames_iff_trimmed hc
  obtain rfl : [todo, { name := ['x'] }] = ds := by
    rw [htags] at hds
    exact Except.ok.inj hds
  exact ⟨c, r, hc, hr, (hget _).trans (by decide), hiff.mpr (by decide)⟩

/-- The blanks around a configured name are kept, so the name is no tag name, cannot be written, and
leaves the built-in definition as it is. -/
theorem not_tagName_of_configured :
    let given : Settings := ({} : Settings).set .tags
      (.list [.table [("name".toList, .text " todo ".toList), ("pinned".toList, .boolean true)]])
    ∃ c r, given.check = .ok c ∧ Registry.ofTables c.tags = .ok r ∧
      r.names = [" todo ".toList, "todo".toList, "review".toList, "highlight".toList] ∧
      tagName " todo ".toList = .ok "todo".toList ∧
      (Marks.decode (Marks.encode { tags := [" todo ".toList] })).tags = ["todo".toList] ∧
      r.get? "todo".toList = Registry.builtins.head? :=
  ⟨_, _, rfl, rfl, by decide, rfl, by decide, by decide⟩

end Names

end TaggedOutline
