import TaggedOutline.Proofs.Table
import TaggedOutline.Proofs.Tag.Name
import TaggedOutline.Tag.Registry

/-!
# Changes of a registry

1. A registry is filed if each definition stands under its own name and no name occurs twice. So it
   is built (`isFiled_ofList`), and so every change leaves it (`IsFiled.perform`, `IsFiled.after`).
2. The steps of a change check everything before they write anything, so a change that fails has
   changed nothing (`exec_steps`).
3. Renaming touches the definitions of the two names only (`filter_rename`).
4. A definition is read again from its table (`ofValue_toTable`), so the tables of a registry hold
   all of it (`ofList_toTables`).
-/

namespace TaggedOutline

/-! ## Tables of definitions -/

/-- A definition is read again from its table. -/
theorem Definition.ofValue_toTable (d : Definition) : ofValue (.table d.toTable) = .ok d := by
  obtain ⟨name, color, icon, pinned⟩ := d
  cases color <;> cases icon <;> cases pinned <;> rfl

namespace Registry

/-! ## Changes -/

/-- What is asked of a registry. -/
inductive Change
  | add (definition : Definition)
  | rename (old new : Text)
  | remove (name : Text)

/-- What a change answers. -/
inductive Answer
  | stored (definition : Definition)
  | removed (found : Bool)

/-- The answer to a change, and the registry after it. -/
def perform (r : Registry) : Change → Except RegistryError Answer × Registry
  | .add d =>
    match r.add d with
    | .ok (stored, r') => (.ok (.stored stored), r')
    | .error e => (.error (.badName e), r)
  | .rename old new =>
    match r.rename old new with
    | .ok (renamed, r') => (.ok (.stored renamed), r')
    | .error e => (.error e, r)
  | .remove name => (.ok (.removed (r.remove name).1), (r.remove name).2)

/-- The registry after some changes, of which any may fail. -/
def after (r : Registry) (changes : List Change) : Registry :=
  changes.foldl (fun r c => (r.perform c).2) r

theorem after_append (r : Registry) (first later : List Change) :
    r.after (first ++ later) = (r.after first).after later := List.foldl_append ..

/-! ## Steps -/

/-- Steps on a registry. What a step has changed stays changed if a later one fails. -/
abbrev Steps := ExceptT RegistryError (StateM Registry)

/-- What some steps answer, and the registry after them. -/
def Steps.exec {α : Type} (m : Steps α) (r : Registry) : Except RegistryError α × Registry :=
  m.run.run r

/-- The tag name in a text. -/
def Steps.name (t : Text) : Steps Text :=
  match tagName t with
  | .ok name => pure name
  | .error e => throw (.badName e)

/-- Takes the definition of a name out of the registry. -/
def Steps.takeOut (name : Text) : Steps Definition := do
  match (← get).get? name with
  | some d =>
    modify fun r => ⟨r.table.erase name⟩
    return d
  | none => throw (.undefined name)

/-- Puts a definition under its name. -/
def Steps.store (d : Definition) : Steps Answer := do
  modify fun r => ⟨r.table.put d.name d⟩
  return .stored d

/-- The steps of a change. -/
def Change.steps : Change → Steps Answer
  | .add d => do
    let name ← Steps.name d.name
    Steps.store { d with name := name }
  | .rename old new => do
    let name ← Steps.name new
    let d ← Steps.takeOut old
    Steps.store { d with name := name }
  | .remove name => do
    let found := (← get).has name
    modify fun r => ⟨r.table.erase name⟩
    return .removed found

theorem exec_bind {α β : Type} (m : Steps α) (f : α → Steps β) (r : Registry) :
    (m >>= f).exec r =
      match m.exec r with
      | (.ok a, r') => (f a).exec r'
      | (.error e, r') => (.error e, r') := by
  have hbind : (m >>= f).exec r = (ExceptT.bindCont f (m.exec r).1).run (m.exec r).2 := rfl
  rw [hbind]
  rcases m.exec r with ⟨answer, r'⟩
  cases answer <;> rfl

theorem exec_name (t : Text) (r : Registry) :
    (Steps.name t).exec r = ((tagName t).mapError .badName, r) := by
  rw [Steps.name]
  cases tagName t <;> rfl

theorem exec_takeOut (name : Text) (r : Registry) :
    (Steps.takeOut name).exec r =
      match r.get? name with
      | some d => (.ok d, ⟨r.table.erase name⟩)
      | none => (.error (.undefined name), r) := by
  rw [Steps.takeOut, exec_bind, show (get : Steps Registry).exec r = (.ok r, r) from rfl]
  simp only
  cases r.get? name <;> rfl

/-- The steps of a change do what the change does: they write nothing before a step that fails. -/
theorem exec_steps (r : Registry) (c : Change) : c.steps.exec r = r.perform c := by
  cases c with
  | add d =>
    rw [Change.steps, exec_bind, exec_name, perform, add]
    cases tagName d.name <;> rfl
  | rename old new =>
    rw [Change.steps, exec_bind, exec_name, perform, rename]
    cases tagName new with
    | error e => rfl
    | ok name =>
      show (Steps.takeOut old >>= _ : Steps Answer).exec r = _
      rw [exec_bind, exec_takeOut]
      cases r.get? old <;> rfl
  | remove name => rfl

/-! ## Filed definitions -/

/-- Each definition stands under its own name, and no name occurs twice. -/
structure IsFiled (r : Registry) : Prop where
  own : ∀ e ∈ r.table, e.2.name = e.1
  names : r.names.Nodup

section Filed

variable {r r' : Registry} {d : Definition} {old new name : Text}

theorem IsFiled.put (h : r.IsFiled) (d : Definition) : IsFiled ⟨r.table.put d.name d⟩ := by
  refine ⟨fun e he => ?_, Table.nodup_keys_put h.names d.name d⟩
  rcases Table.mem_of_mem_put he with rfl | he
  · rfl
  · exact h.own e he

theorem IsFiled.erase (h : r.IsFiled) (name : Text) : IsFiled ⟨r.table.erase name⟩ := by
  refine ⟨fun e he => h.own e (List.mem_filter.mp he).1, ?_⟩
  show (Table.erase r.table name).keys.Nodup
  rw [Table.keys_erase]
  exact List.Nodup.filter _ h.names

theorem isFiled_ofList (ds : List Definition) : (ofList ds).IsFiled := by
  have hfold (r : Registry) (h : r.IsFiled) : IsFiled
      ⟨(ds.map fun d => (d.name, d)).foldl (fun t (k, a) => Table.put t k a) r.table⟩ := by
    induction ds generalizing r with
    | nil => exact h
    | cons d ds ih => exact ih _ (h.put d)
  exact hfold ⟨[]⟩ ⟨by simp, List.nodup_nil⟩

theorem rename_eq_ok_iff :
    r.rename old new = .ok (d, r') ↔ ∃ name before, tagName new = .ok name ∧
      r.get? old = some before ∧ d = { before with name := name } ∧
      r' = ⟨(r.table.erase old).put d.name d⟩ := by
  constructor
  · intro h
    obtain ⟨name, hname, h⟩ := exists_of_bind_eq_ok h
    cases hget : r.get? old with
    | none =>
      rw [hget] at h
      cases h
    | some before =>
      rw [hget] at h
      obtain ⟨rfl, rfl⟩ := Prod.mk.inj (Except.ok.inj h)
      exact ⟨name, before, eq_ok_of_mapError hname, rfl, rfl, rfl⟩
  · rintro ⟨name, before, hname, hget, rfl, rfl⟩
    simp only [rename, hname, hget]
    rfl

/-- A change fails and leaves all as it was, drops a name, or stores a definition under a tag name,
in renaming after the old name was dropped. -/
theorem perform_cases (r : Registry) (c : Change) :
    (∃ e, r.perform c = (.error e, r)) ∨
    (∃ name, r.perform c = (.ok (.removed (r.has name)), ⟨r.table.erase name⟩)) ∨
    ∃ d rest, (rest = r.table ∨ ∃ old, rest = r.table.erase old) ∧ tagName d.name = .ok d.name ∧
      r.perform c = (.ok (.stored d), ⟨rest.put d.name d⟩) := by
  have hself {t name : Text} (h : tagName t = .ok name) : tagName name = .ok name :=
    tagName_eq_ok_self_iff.mpr (tagName_eq_ok_iff.mp h).2
  cases c with
  | add d =>
    rw [perform, add]
    cases hname : tagName d.name with
    | error e => exact .inl ⟨_, rfl⟩
    | ok name =>
      exact .inr (.inr ⟨{ d with name := name }, r.table, .inl rfl, hself hname, rfl⟩)
  | rename old new =>
    rw [perform]
    cases hrename : r.rename old new with
    | error e => exact .inl ⟨_, rfl⟩
    | ok result =>
      obtain ⟨d, r'⟩ := result
      obtain ⟨name, before, hname, -, hd, rfl⟩ := rename_eq_ok_iff.mp hrename
      exact .inr (.inr ⟨d, _, .inr ⟨old, rfl⟩, by rw [hd]; exact hself hname, rfl⟩)
  | remove name => exact .inr (.inl ⟨name, rfl⟩)

theorem IsFiled.perform (h : r.IsFiled) (c : Change) : (r.perform c).2.IsFiled := by
  rcases perform_cases r c with ⟨e, hp⟩ | ⟨name, hp⟩ | ⟨d, rest, rfl | ⟨old, rfl⟩, -, hp⟩ <;> rw [hp]
  · exact h
  · exact h.erase name
  · exact h.put d
  · exact (h.erase old).put d

theorem IsFiled.after (h : r.IsFiled) (changes : List Change) : (r.after changes).IsFiled := by
  induction changes generalizing r with
  | nil => exact h
  | cons c changes ih => exact ih (h.perform c)

/-- A change that fails leaves the registry as it was. -/
theorem perform_eq_self {c : Change} {e : RegistryError} (h : (r.perform c).1 = .error e) :
    (r.perform c).2 = r := by
  rcases perform_cases r c with ⟨e', hp⟩ | ⟨name, hp⟩ | ⟨d, rest, -, -, hp⟩ <;> rw [hp] at h ⊢
  · cases h
  · cases h

/-! ## Renaming -/

theorem exists_get?_iff : (∃ d, r.get? name = some d) ↔ name ∈ r.names :=
  Option.isSome_iff_exists.symm.trans Table.isSome_get?_iff

theorem exists_rename_iff :
    (∃ d r', r.rename old new = .ok (d, r')) ↔
      (∃ name, tagName new = .ok name) ∧ old ∈ r.names := by
  simp only [rename_eq_ok_iff]
  constructor
  · rintro ⟨d, r', name, before, hname, hget, -⟩
    exact ⟨⟨name, hname⟩, exists_get?_iff.mp ⟨before, hget⟩⟩
  · rintro ⟨⟨name, hname⟩, hold⟩
    obtain ⟨before, hget⟩ := exists_get?_iff.mpr hold
    exact ⟨_, _, name, before, hname, hget, rfl, rfl⟩

theorem IsFiled.filter_toList (h : r.IsFiled) (old name : Text) :
    (r.toList.filter fun x => x.name ≠ old ∧ x.name ≠ name) =
      ((r.table.erase name).erase old).values := by
  rw [toList, Table.values, List.filter_map, Table.erase, Table.erase, List.filter_filter]
  refine congrArg _ (List.filter_congr fun e he => ?_)
  rw [Function.comp_apply, h.own e he, ← Bool.decide_and]

/-- Renaming touches the definitions of the two names only. -/
theorem IsFiled.filter_rename (h : r.IsFiled) (hr : r.rename old new = .ok (d, r')) :
    (r'.toList.filter fun x => x.name ≠ old ∧ x.name ≠ d.name) =
      r.toList.filter fun x => x.name ≠ old ∧ x.name ≠ d.name := by
  obtain ⟨-, -, -, -, -, rfl⟩ := rename_eq_ok_iff.mp hr
  rw [((h.erase old).put d).filter_toList, h.filter_toList, Table.erase_put]
  simp only [Table.erase, List.filter_filter, Bool.and_comm, Bool.and_self_left]

theorem old_notMem_rename (hr : r.rename old new = .ok (d, r')) (hne : old ≠ d.name) :
    old ∉ r'.names := by
  obtain ⟨-, -, -, -, -, rfl⟩ := rename_eq_ok_iff.mp hr
  show old ∉ (Table.put (r.table.erase old) d.name d).keys
  rw [Table.mem_keys_put, Table.keys_erase]
  simpa using hne

/-! ## Tables of a registry -/

theorem IsFiled.map_toList (h : r.IsFiled) : (r.toList.map fun d => (d.name, d)) = r.table := by
  rw [toList, Table.values, List.map_map]
  conv_rhs => rw [← List.map_id r.table]
  exact List.map_congr_left fun e he => by rw [Function.comp_apply, h.own e he, id]

theorem mapM_toTables (r : Registry) : r.toTables.mapM Definition.ofValue = .ok r.toList := by
  rw [toTables, List.mapM_map]
  exact (mapM_ok fun d _ => Definition.ofValue_toTable d).trans (by rw [List.map_id'])

/-- The tables of a registry hold all of it. -/
theorem IsFiled.ofList_toList (h : r.IsFiled) : ofList r.toList = r := by
  rw [ofList, h.map_toList, Table.ofList_of_nodup h.names]

theorem toList_ofList {ds : List Definition} (h : (ds.map Definition.name).Nodup) :
    (ofList ds).toList = ds := by
  have hkeys : ((ds.map fun d => (d.name, d)).map Prod.fst).Nodup := by
    rwa [List.map_map]
  rw [ofList, Table.ofList_of_nodup hkeys, toList, Table.values, List.map_map]
  exact List.map_id' ds

theorem nodup_names_builtins : (builtins.map Definition.name).Nodup := by decide

/-- Where the tables are configured, the built-in definitions of other names come after them. -/
theorem IsFiled.exists_ofTables (h : r.IsFiled) : ∃ r', ofTables r.toTables = .ok r' ∧
    r'.toList = r.toList ++ builtins.filter fun b => b.name ∉ r.names := by
  have hnames : r.toList.map Definition.name = r.names := by
    rw [toList, Table.values, List.map_map]
    exact List.map_congr_left fun e he => h.own e he
  have hany (b : Definition) :
      (¬ r.toList.any (·.name = b.name) = true) ↔ b.name ∉ r.names := by
    rw [← hnames, List.mem_map, List.any_eq_true]
    simp
  rw [ofTables, mapM_toTables]
  refine ⟨_, rfl, ?_⟩
  simp only [hany]
  refine toList_ofList ?_
  rw [List.map_append, hnames]
  refine List.nodup_append.mpr ⟨h.names, ?_, fun a ha b hb hab => ?_⟩
  · exact nodup_names_builtins.sublist (List.filter_sublist.map _)
  · obtain ⟨d, hd, rfl⟩ := List.mem_map.mp hb
    exact of_decide_eq_true (List.mem_filter.mp hd).2 (hab ▸ ha)

/-! ## Registries after changes -/

/-- A registry of some definitions, or of the tables of a configuration. -/
inductive Built : Registry → Prop
  | ofList (ds : List Definition) : Built (ofList ds)
  | ofTables {tables : List Value} {r : Registry} : ofTables tables = .ok r → Built r

theorem Built.isFiled (h : r.Built) : r.IsFiled := by
  cases h with
  | ofList ds => exact isFiled_ofList ds
  | ofTables htables =>
    obtain ⟨ds, -, hr⟩ := exists_of_bind_eq_ok htables
    rw [← Except.ok.inj hr]
    exact isFiled_ofList _

/-- After any changes each definition stands under its own name and no name occurs twice. A change
that fails leaves all as it was. Renaming goes through for a defined name and a tag name, moves the
definition, and touches the definitions of the two names only. The tables of the registry hold all
of it. -/
theorem filed_after_changes {start : Registry} (h : start.Built) (changes : List Change) :
    let r := start.after changes
    (∀ e ∈ r.table, e.2.name = e.1) ∧ r.names.Nodup ∧
    (∀ c : Change, c.steps.exec r = r.perform c ∧
      ∀ e, (r.perform c).1 = .error e → (r.perform c).2 = r) ∧
    (∀ old new, (∃ d r', r.rename old new = .ok (d, r')) ↔
      (∃ name, tagName new = .ok name) ∧ old ∈ r.names) ∧
    (∀ old new d r', r.rename old new = .ok (d, r') →
      (∃ before, r.get? old = some before ∧ tagName new = .ok d.name ∧
        d = { before with name := d.name }) ∧
      r'.get? d.name = some d ∧ (old ≠ d.name → old ∉ r'.names) ∧
      (r'.toList.filter fun x => x.name ≠ old ∧ x.name ≠ d.name) =
        r.toList.filter fun x => x.name ≠ old ∧ x.name ≠ d.name) ∧
    (∃ ds, r.toTables.mapM Definition.ofValue = .ok ds ∧ ds = r.toList ∧ ofList ds = r) ∧
    ∃ r', ofTables r.toTables = .ok r' ∧
      r'.toList = r.toList ++ builtins.filter fun b => b.name ∉ r.names := by
  intro r
  have hr : r.IsFiled := h.isFiled.after changes
  refine ⟨hr.own, hr.names, fun c => ⟨exec_steps r c, fun e he => perform_eq_self he⟩,
    fun old new => exists_rename_iff, fun old new d r' hrename => ⟨?_, ?_, ?_, ?_⟩,
    ⟨r.toList, mapM_toTables r, rfl, hr.ofList_toList⟩, hr.exists_ofTables⟩
  · obtain ⟨name, before, hname, hget, hd, -⟩ := rename_eq_ok_iff.mp hrename
    obtain rfl : d.name = name := congrArg Definition.name hd
    exact ⟨before, hget, hname, hd⟩
  · obtain ⟨-, -, -, -, -, rfl⟩ := rename_eq_ok_iff.mp hrename
    exact (Table.get?_put _ _ _ _).trans (if_pos rfl)
  · exact old_notMem_rename hrename
  · exact hr.filter_rename hrename

/-- A definition takes the place of another, two changes fail, and a built-in one is dropped. -/
theorem filed_after_changes_mixed :
    let tables := [Definition.toTable { name := ['a'], icon := some ['i'], pinned := true },
      Definition.toTable { name := ['b'] }].map Value.table
    let changes := [Change.rename ['a'] " b ".toList, .add { name := "c d".toList },
      .rename ['a'] ['c'], .remove "review".toList]
    ∃ start r, ofTables tables = .ok start ∧ start.after changes = r ∧
      r.names = [['b'], "todo".toList, "highlight".toList] ∧
      r.get? ['b'] = some { name := ['b'], icon := some ['i'], pinned := true } ∧
      (r.perform (.add { name := [' '] })).2 = r ∧
      (∃ d r', r.rename "todo".toList ['b'] = .ok (d, r')) ∧
      (∃ ds, r.toTables.mapM Definition.ofValue = .ok ds ∧ ofList ds = r) := by
  intro tables changes
  have hstart : ofTables tables = .ok (ofList
      ([{ name := ['a'], icon := some ['i'], pinned := true }, { name := ['b'] }] ++ builtins)) :=
    rfl
  obtain ⟨-, -, hfails, hrename, -, ⟨ds, hds, -, hall⟩, -⟩ :=
    filed_after_changes (.ofTables hstart) changes
  exact ⟨_, _, hstart, rfl, by decide, by decide, (hfails _).2 _ rfl,
    (hrename _ _).mpr ⟨⟨['b'], rfl⟩, by decide⟩, ds, hds, hall⟩

end Filed

end Registry

end TaggedOutline
