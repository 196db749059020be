import TaggedOutline.Proofs.Command.Workspace

/-!
# Faults of runs

A run may end with a fault that no command accounts for (`Run.fault?`). A run of two parts ends with
the fault of the first, or else with that of the second, which starts where the first has left off.
The parts that read something have a fault only for the reasons for which the file or the
configuration is not there (`fault?_loadConfig_bind`, `fault?_orStop_bind`).
-/

namespace TaggedOutline.Command

/-- The fault that a stop tells of. -/
def Stop.fault? : Stop → Option FileError
  | refused _ => none
  | fault e => some e

@[simp] theorem fault?_misuse (message : String) : (misuse message).fault? = none := rfl

@[simp] theorem fault?_failure (message : String) : (failure message).fault? = none := rfl

namespace Run

variable {α β γ ε : Type} {m : Run α} {f : α → Run β} {con con' : Console} {a : α} {stop : Stop}
  {e : FileError}

/-- The fault that a run ends with, if there is one. -/
def fault? (m : Run α) (con : Console) : Option FileError :=
  match exec m con with
  | (.ok _, _) => none
  | (.error stop, _) => stop.fault?

/-! ## Parts of a run -/

theorem fault?_of_ok (h : exec m con = (.ok a, con')) : fault? m con = none := by
  unfold fault?
  rw [h]

theorem fault?_of_error (h : exec m con = (.error stop, con')) : fault? m con = stop.fault? := by
  unfold fault?
  rw [h]

@[simp] theorem fault?_pure (a : α) (con : Console) : fault? (pure a) con = none := rfl

@[simp] theorem fault?_throw (stop : Stop) (con : Console) :
    fault? (throw stop : Run α) con = stop.fault? := rfl

theorem fault?_bind_of_ok (h : exec m con = (.ok a, con')) :
    fault? (m >>= f) con = fault? (f a) con' := by
  unfold fault?
  rw [exec_bind_of_ok h]

theorem fault?_bind_of_error (h : exec m con = (.error stop, con')) :
    fault? (m >>= f) con = stop.fault? :=
  fault?_of_error (exec_bind_of_error h)

/-- Where the second part never has a fault, only the first part can. -/
theorem fault?_bind_of_none (h : ∀ a con', exec m con = (.ok a, con') → fault? (f a) con' = none) :
    fault? (m >>= f) con = fault? m con := by
  rcases hm : exec m con with ⟨a | stop, con'⟩
  · rw [fault?_bind_of_error hm, fault?_of_error hm]
  · rw [fault?_bind_of_ok hm, fault?_of_ok hm]
    exact h _ _ hm

@[simp] theorem fault?_disk_bind (f : Disk → Run β) (con : Console) :
    fault? (disk >>= f) con = fault? (f con.disk) con :=
  fault?_bind_of_ok (exec_disk con)

/-- What is there is gone on with, and that it is not there may be a fault. -/
theorem fault?_orStop_bind {stop : ε → Stop} {x : Except ε α} :
    fault? (orStop stop x >>= f) con = some e ↔
      (∃ reason, x = .error reason ∧ (stop reason).fault? = some e) ∨
        ∃ a, x = .ok a ∧ fault? (f a) con = some e := by
  cases x with
  | ok a => simp [fault?_bind_of_ok (exec_orStop_ok stop a con)]
  | error reason => simp [fault?_bind_of_error (exec_orStop_error stop reason con)]

theorem fault?_orStop {stop : ε → Stop} {x : Except ε α} :
    fault? (orStop stop x) con = some e ↔
      ∃ reason, x = .error reason ∧ (stop reason).fault? = some e := by
  cases x with
  | ok a => simp [fault?_of_ok (exec_orStop_ok stop a con)]
  | error reason => simp [fault?_of_error (exec_orStop_error stop reason con)]

theorem fault?_forM {xs : List α} {g : α → Run PUnit}
    (h : ∀ x ∈ xs, ∀ con, fault? (g x) con = none) (con : Console) :
    fault? (xs.forM g) con = none := by
  induction xs generalizing con with
  | nil => rfl
  | cons x xs ih =>
    obtain ⟨hx, hxs⟩ := List.forall_mem_cons.mp h
    show fault? (g x >>= fun _ => xs.forM g) con = none
    rw [fault?_bind_of_none fun _ con' _ => ih hxs con', hx con]

end Run

/-! ## Settings -/

section Settings

open Command.Run

variable {env : Environment} {p : Path} {con : Console} {config : Config} {e : FileError}
  {α : Type} {f : Config → Command.Run α}

theorem fault?_loadStop {reason : LoadError} :
    (loadStop reason).fault? = some e ↔ reason = .path e ∧ e ≠ .nullInPath := by
  cases reason with
  | settings reason => simp [loadStop]
  | tooManyDigits count => simp [loadStop]
  | path reason =>
    rw [LoadError.path.injEq]
    by_cases hnull : reason = .nullInPath
    · subst hnull
      exact iff_of_false (fun h => by cases h) fun ⟨heq, hne⟩ => hne heq.symm
    · rw [loadStop_path hnull]
      simp only [Stop.fault?, Option.some.injEq]
      exact ⟨fun heq => ⟨heq, heq ▸ hnull⟩, And.left⟩

/-- Looking for the configuration has a fault if the settings cannot be looked for. -/
theorem fault?_loadConfig :
    fault? (loadConfig env p) con = some e ↔ Settings.Fault env.nesting con.disk p e := by
  rw [← Config.load_fault_iff]
  cases hload : Config.load env.nesting con.disk p [] with
  | error reason =>
    rw [fault?_of_error (exec_loadConfig_of_error hload), fault?_loadStop, Except.error.injEq]
  | ok found =>
    refine iff_of_false (fun h => ?_) fun h => by cases h.1
    unfold loadConfig at h
    rw [fault?_disk_bind, hload, fault?_bind_of_ok (exec_orStop_ok _ found con),
      fault?_orStop_bind] at h
    rcases h with ⟨reason, -, hreason⟩ | ⟨limit, -, hlimit⟩
    · cases hreason
    · cases hlimit

/-- A command that starts with its configuration has the faults of looking for it, and with the
configuration that it finds those of what follows. -/
theorem fault?_loadConfig_bind :
    fault? (loadConfig env p >>= f) con = some e ↔
      Settings.Fault env.nesting con.disk p e ∨
        ∃ config, GoesBy env con.disk p config ∧ fault? (f config) con = some e := by
  rcases exec_loadConfig_cases env p con with ⟨config, hgoes⟩ | ⟨stop, hstop⟩
  · have hsettings : ¬Settings.Fault env.nesting con.disk p e := fun h => by
      cases congrArg Prod.fst ((exec_loadConfig_of_fault h).symm.trans (exec_loadConfig hgoes))
    rw [fault?_bind_of_ok (exec_loadConfig hgoes), or_iff_right hsettings]
    constructor
    · exact fun h => ⟨config, hgoes, h⟩
    · rintro ⟨config', hgoes', h⟩
      rwa [← hgoes.unique hgoes']
  · rw [fault?_bind_of_error hstop, ← fault?_of_error hstop, fault?_loadConfig]
    refine (or_iff_left ?_).symm
    rintro ⟨config, hgoes, -⟩
    cases congrArg Prod.fst ((exec_loadConfig hgoes).symm.trans hstop)

end Settings

end TaggedOutline.Command
