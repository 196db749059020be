import Mathlib.Data.Nat.Find
import Mathlib.Order.Bounds.Basic
import TaggedOutline.Proofs.Disk.Walk
import TaggedOutline.Proofs.Workspace.Run

/-!
# Passes of a scan

A scan goes over the documents again as long as another scan was asked for during the last pass. So
it is through after the first pass without a request, which comes before the fuel runs out
(`le_of_isLeast_quiet`). What it loads is the list of the documents once for each pass, up to the
first load that is faulty (`untilFault`). Each load moves the state of the scan in the same way
(`ScanRun.visit_cons`), hence so do a pass (`ScanRun.exists_pass`) and the whole
(`ScanRun.exists_passes`), which either completes or breaks off (`scan_outcome`).
-/

namespace TaggedOutline

/-! ## Requests -/

namespace ScanPlan

/-- A scan is asked for before a load whose number is above `a` and at most `b`. -/
def AskedBetween (plan : ScanPlan) (a b : Nat) : Prop := ∃ n ∈ plan.requests, a < n ∧ n ≤ b

instance (plan : ScanPlan) (a b : Nat) : Decidable (plan.AskedBetween a b) :=
  inferInstanceAs (Decidable (∃ n ∈ plan.requests, a < n ∧ n ≤ b))

/-- No scan is asked for during a pass, counted from one, over a number of documents. -/
def Quiet (plan : ScanPlan) (count pass : Nat) : Prop :=
  ¬plan.AskedBetween ((pass - 1) * count) (pass * count)

instance (plan : ScanPlan) (count pass : Nat) : Decidable (plan.Quiet count pass) :=
  inferInstanceAs (Decidable ¬plan.AskedBetween ((pass - 1) * count) (pass * count))

/-- The answers to the scans that are asked for during some loads, after others that came before. -/
def refusals (plan : ScanPlan) (before loads : Nat) : List Bool :=
  ((List.range' (before + 1) loads).filter (· ∈ plan.requests)).map fun _ => false

theorem refusals_add (plan : ScanPlan) (before m n : Nat) :
    plan.refusals before m ++ plan.refusals (before + m) n = plan.refusals before (m + n) := by
  unfold refusals
  rw [← List.map_append, ← List.filter_append, Nat.add_right_comm, List.range'_append_1]

theorem le_lastRequest {plan : ScanPlan} {n : Nat} (hn : n ∈ plan.requests) :
    n ≤ Workspace.lastRequest plan := by
  have hfold (ns : List Nat) (m : Nat) : m ≤ ns.foldl max m ∧ ∀ n ∈ ns, n ≤ ns.foldl max m := by
    induction ns generalizing m with
    | nil => exact ⟨le_rfl, by simp⟩
    | cons a ns ih =>
      obtain ⟨hfirst, hrest⟩ := ih (max m a)
      refine ⟨(le_max_left m a).trans hfirst, fun n hn => ?_⟩
      rcases List.mem_cons.mp hn with rfl | hn
      · exact (le_max_right m n).trans hfirst
      · exact hrest n hn
  exact (hfold plan.requests 0).2 n hn

/-- After the last load before which a scan is asked for, there is a pass without such a load. -/
theorem quiet_lastRequest (plan : ScanPlan) (count : Nat) :
    plan.Quiet count (Workspace.lastRequest plan + 1) := by
  intro ⟨n, hn, hlow, hhigh⟩
  have hle := le_lastRequest hn
  rw [Nat.add_sub_cancel] at hlow
  rcases Nat.eq_zero_or_pos count with rfl | hpos
  · omega
  · exact absurd (hlow.trans_le hle) (Nat.not_lt.mpr (Nat.le_mul_of_pos_right _ hpos))

theorem quiet_empty (count pass : Nat) : ScanPlan.Quiet {} count pass := by
  rintro ⟨n, hn, -⟩
  exact absurd hn (by simp)

theorem isLeast_one {plan : ScanPlan} {count : Nat} (h : plan.Quiet count 1) :
    IsLeast {k | 1 ≤ k ∧ plan.Quiet count k} 1 :=
  ⟨⟨le_rfl, h⟩, fun _ hk => hk.1⟩

theorem exists_isLeast_quiet (plan : ScanPlan) (count : Nat) :
    ∃ k, IsLeast {k | 1 ≤ k ∧ plan.Quiet count k} k := by
  classical
  have hex : ∃ k, 1 ≤ k ∧ plan.Quiet count k :=
    ⟨_, Nat.le_add_left 1 _, plan.quiet_lastRequest count⟩
  exact ⟨Nat.find hex, Nat.find_spec hex, fun k hk => Nat.find_min' hex hk⟩

/-- The fuel of a scan suffices for the first pass without requests. -/
theorem le_of_isLeast_quiet {plan : ScanPlan} {count k : Nat}
    (hk : IsLeast {k | 1 ≤ k ∧ plan.Quiet count k} k) : k ≤ Workspace.lastRequest plan + 1 :=
  hk.2 ⟨Nat.le_add_left 1 _, plan.quiet_lastRequest count⟩

end ScanPlan

/-! ## Faults -/

namespace Workspace

/-- The fault that a load, counted from one, ends a scan with, if it does. -/
def faultAt (w : Workspace) (d : Disk) (plan : ScanPlan) (n : Nat) (p : Path) : Option ScanFault :=
  if plan.failure = some n then some .loadFailed
  else match w.loadFile d p with
    | .ok _ => none
    | .error e => if e.isReadFailure then none else some (.file e)

/-- None of some loads, which come after others, ends a scan. -/
def Clear (w : Workspace) (d : Disk) (plan : ScanPlan) (before : Nat) (ps : List Path) : Prop :=
  ∀ i p, ps[i]? = some p → w.faultAt d plan (before + i + 1) p = none

/-- The loads up to the first one that ends a scan, and the fault it ends with. -/
def untilFault (w : Workspace) (d : Disk) (plan : ScanPlan) (before : Nat) :
    List Path → List Path × Option ScanFault
  | [] => ([], none)
  | p :: ps =>
    match w.faultAt d plan (before + 1) p with
    | some e => ([p], some e)
    | none =>
      (p :: (w.untilFault d plan (before + 1) ps).1, (w.untilFault d plan (before + 1) ps).2)

section Faults

variable {w w' : Workspace} {d : Disk} {plan : ScanPlan} {before : Nat} {p : Path}
  {ps qs : List Path} {e : ScanFault}

theorem faultAt_of_config_eq (h : w'.config = w.config) (d : Disk) (plan : ScanPlan) (n : Nat)
    (p : Path) : w'.faultAt d plan n p = w.faultAt d plan n p := by
  unfold faultAt loadFile
  rw [h]

theorem Clear.of_config_eq (h : w.Clear d plan before ps) (hconfig : w'.config = w.config) :
    w'.Clear d plan before ps := by
  intro i p hp
  rw [faultAt_of_config_eq hconfig]
  exact h i p hp

theorem untilFault_of_config_eq (h : w'.config = w.config) (d : Disk) (plan : ScanPlan)
    (before : Nat) (ps : List Path) :
    w'.untilFault d plan before ps = w.untilFault d plan before ps := by
  induction ps generalizing before with
  | nil => rfl
  | cons p ps ih => rw [untilFault, untilFault, faultAt_of_config_eq h, ih]

theorem Clear.left (h : w.Clear d plan before (ps ++ qs)) : w.Clear d plan before ps :=
  fun i p hp => h i p (List.getElem?_append_left (List.getElem?_eq_some_iff.mp hp).1 ▸ hp)

/-- Loads that no plan disturbs are clear if they are clear under a plan. -/
theorem Clear.undisturbed (h : w.Clear d plan before ps) : w.Clear d {} 0 ps := by
  intro i p hp
  have hclear := h i p hp
  unfold faultAt at hclear ⊢
  rw [if_neg (by simp)]
  split at hclear
  · exact absurd hclear (by simp)
  · exact hclear

theorem untilFault_append_of_clear (h : w.Clear d plan before ps) (qs : List Path) :
    w.untilFault d plan before (ps ++ qs) =
      (ps ++ (w.untilFault d plan (before + ps.length) qs).1,
        (w.untilFault d plan (before + ps.length) qs).2) := by
  induction ps generalizing before with
  | nil => rfl
  | cons p ps ih =>
    have hrest : w.Clear d plan (before + 1) ps := by
      intro i q hq
      rw [Nat.add_right_comm before 1 i]
      exact h (i + 1) q hq
    rw [List.cons_append, untilFault, h 0 p rfl, ih hrest, List.length_cons,
      Nat.add_right_comm before 1, ← Nat.add_assoc]
    rfl

theorem untilFault_of_clear (h : w.Clear d plan before ps) :
    w.untilFault d plan before ps = (ps, none) := by
  have happend := untilFault_append_of_clear h []
  rwa [untilFault, List.append_nil] at happend

theorem untilFault_of_fault (h : w.Clear d plan before ps)
    (hfault : w.faultAt d plan (before + ps.length + 1) p = some e) (qs : List Path) :
    w.untilFault d plan before (ps ++ p :: qs) = (ps ++ [p], some e) := by
  rw [untilFault_append_of_clear h, untilFault, hfault]

/-- Either no load ends a scan, or there is a first one that does. -/
theorem clear_or_exists_fault (w : Workspace) (d : Disk) (plan : ScanPlan) (before : Nat)
    (ps : List Path) :
    w.Clear d plan before ps ∨ ∃ done p rest e, ps = done ++ p :: rest ∧
      w.Clear d plan before done ∧ w.faultAt d plan (before + done.length + 1) p = some e := by
  induction ps using List.reverseRecOn with
  | nil => exact .inl fun i p hp => absurd hp (by simp)
  | append_singleton ps p ih =>
    rcases ih with hclear | ⟨done, q, rest, e, rfl, hclear, hfault⟩
    · cases hlast : w.faultAt d plan (before + ps.length + 1) p with
      | some e => exact .inr ⟨ps, p, [], e, rfl, hclear, hlast⟩
      | none =>
        refine .inl fun i q hq => ?_
        rcases lt_trichotomy i ps.length with hi | rfl | hi
        · exact hclear i q (by rwa [List.getElem?_append_left hi] at hq)
        · rw [List.getElem?_concat_length] at hq
          exact Option.some.inj hq ▸ hlast
        · rw [List.getElem?_eq_none (by simpa using Nat.succ_le_of_lt hi)] at hq
          exact absurd hq (by simp)
    · exact .inr ⟨done, q, rest ++ [p], e, by simp, hclear, hfault⟩

end Faults

end Workspace

/-! ## The state of a scan -/

namespace ScanRun

open Workspace

/-- The state that a scan begins in. -/
def begin (w : Workspace) : ScanRun where
  workspace := { w with scanning := true }

/-- A scan has loaded some more paths, and all scans that were asked for meanwhile were put off. -/
structure Advances (plan : ScanPlan) (ps : List Path) (r r' : ScanRun) : Prop where
  root : r'.workspace.root = r.workspace.root
  config : r'.workspace.config = r.workspace.config
  listeners : r'.workspace.listeners = r.workspace.listeners
  called : r'.workspace.called = r.workspace.called
  scanning : r'.workspace.scanning = true
  loads : r'.loads = r.loads ++ ps
  answers : r'.answers = r.answers ++ plan.refusals r.loads.length ps.length

/-- What was asked for meanwhile is still to be done. -/
structure Visits (plan : ScanPlan) (ps : List Path) (r r' : ScanRun) : Prop
    extends Advances plan ps r r' where
  requested : r'.workspace.requested = true ↔ r.workspace.requested = true ∨
    plan.AskedBetween r.loads.length (r.loads.length + ps.length)

section State

variable {plan : ScanPlan} {d : Disk} {r r' r'' : ScanRun} {p : Path} {ps qs : List Path}

theorem Advances.trans (h : Advances plan ps r r') (h' : Advances plan qs r' r'') :
    Advances plan (ps ++ qs) r r'' where
  root := h'.root.trans h.root
  config := h'.config.trans h.config
  listeners := h'.listeners.trans h.listeners
  called := h'.called.trans h.called
  scanning := h'.scanning
  loads := by rw [h'.loads, h.loads, List.append_assoc]
  answers := by
    rw [h'.answers, h.answers, h.loads, List.length_append, List.append_assoc,
      ScanPlan.refusals_add, List.length_append]

theorem Visits.refl (plan : ScanPlan) (h : r.workspace.scanning = true) : Visits plan [] r r where
  root := rfl
  config := rfl
  listeners := rfl
  called := rfl
  scanning := h
  loads := (List.append_nil _).symm
  answers := (List.append_nil _).symm
  requested := by
    refine ⟨.inl, fun h => h.resolve_right ?_⟩
    intro ⟨n, _, hlow, hhigh⟩
    exact absurd hlow (Nat.not_lt.mpr hhigh)

theorem Visits.trans (h : Visits plan ps r r') (h' : Visits plan qs r' r'') :
    Visits plan (ps ++ qs) r r'' where
  toAdvances := h.toAdvances.trans h'.toAdvances
  requested := by
    rw [h'.requested, h.requested, h.loads, List.length_append, List.length_append, or_assoc]
    refine or_congr_right ⟨?_, ?_⟩
    · rintro (⟨n, hn, hlow, hhigh⟩ | ⟨n, hn, hlow, hhigh⟩)
      · exact ⟨n, hn, hlow, by omega⟩
      · exact ⟨n, hn, by omega, by omega⟩
    · intro ⟨n, hn, hlow, hhigh⟩
      rcases Nat.lt_or_ge (r.loads.length + ps.length) n with h | h
      · exact .inr ⟨n, hn, h, by omega⟩
      · exact .inl ⟨n, hn, hlow, h⟩

/-- What is indexed and logged meanwhile makes no difference. -/
theorem Visits.withIndex (h : Visits plan ps r r') (i : Index) (log : List LogEntry) :
    Visits plan ps r
      { r' with workspace := { r'.workspace with index := i, log := log } } where
  root := h.root
  config := h.config
  listeners := h.listeners
  called := h.called
  scanning := h.scanning
  loads := h.loads
  answers := h.answers
  requested := h.requested

/-- Right before a load, a running scan is asked for another one or is not. -/
theorem visits_approach (plan : ScanPlan) (h : r.workspace.scanning = true) (p : Path) :
    Visits plan [p] r (r.approach plan p) := by
  have honly (n : Nat) : r.loads.length < n ∧ n ≤ r.loads.length + 1 ↔ n = r.loads.length + 1 := by
    omega
  unfold approach
  by_cases hasked : r.loads.length + 1 ∈ plan.requests
  · have hask : r.workspace.askScan = (false, { r.workspace with requested := true }) := by
      rw [askScan, if_pos h]
    rw [if_pos hasked, ask, hask]
    exact
      { root := rfl
        config := rfl
        listeners := rfl
        called := rfl
        scanning := h
        loads := rfl
        answers := by simp [ScanPlan.refusals, hasked]
        requested := iff_of_true rfl (.inr ⟨_, hasked, (honly _).mpr rfl⟩) }
  · rw [if_neg hasked]
    exact
      { root := rfl
        config := rfl
        listeners := rfl
        called := rfl
        scanning := h
        loads := rfl
        answers := by simp [ScanPlan.refusals, hasked]
        requested := by
          refine ⟨.inl, fun h => h.resolve_right ?_⟩
          intro ⟨n, hn, hbetween⟩
          exact hasked ((honly n).mp hbetween ▸ hn) }

/-- A load ends the scan, or the scan goes on after it. -/
theorem visit_cons (plan : ScanPlan) (d : Disk) (h : r.workspace.scanning = true) (p : Path)
    (ps : List Path) :
    match r.workspace.faultAt d plan (r.loads.length + 1) p with
    | some e => visit plan d r (p :: ps) = (r.approach plan p, some e)
    | none => ∃ r', Visits plan [p] r r' ∧ visit plan d r (p :: ps) = visit plan d r' ps := by
  have happroach := visits_approach plan h p
  have hlength : (r.approach plan p).loads.length = r.loads.length + 1 := by
    rw [happroach.loads, List.length_append, List.length_singleton]
  have hload : (r.approach plan p).workspace.loadFile d p = r.workspace.loadFile d p := by
    rw [loadFile, loadFile, happroach.config]
  rw [visit, faultAt, hlength, hload]
  by_cases hfailure : plan.failure = some (r.loads.length + 1)
  · rw [if_pos hfailure, if_pos hfailure]
  · rw [if_neg hfailure, if_neg hfailure]
    cases r.workspace.loadFile d p with
    | ok document => exact ⟨_, happroach.withIndex _ (r.approach plan p).workspace.log, rfl⟩
    | error e =>
      simp only
      by_cases hread : e.isReadFailure = true
      · rw [if_pos hread, if_pos hread]
        exact ⟨_, happroach.withIndex (r.approach plan p).workspace.index _, rfl⟩
      · rw [if_neg hread, if_neg hread]

/-- Paths are loaded up to the first fault. -/
theorem exists_visit (plan : ScanPlan) (d : Disk) (h : r.workspace.scanning = true)
    (ps : List Path) :
    ∃ r', visit plan d r ps = (r', (r.workspace.untilFault d plan r.loads.length ps).2) ∧
      Visits plan (r.workspace.untilFault d plan r.loads.length ps).1 r r' := by
  induction ps generalizing r with
  | nil => exact ⟨r, rfl, Visits.refl plan h⟩
  | cons p ps ih =>
    have hstep := visit_cons plan d h p ps
    rw [untilFault]
    cases hfault : r.workspace.faultAt d plan (r.loads.length + 1) p with
    | some e =>
      rw [hfault] at hstep
      exact ⟨_, hstep, visits_approach plan h p⟩
    | none =>
      rw [hfault] at hstep
      obtain ⟨r₁, hvisits, hvisit⟩ := hstep
      obtain ⟨r', hrest, hvisits'⟩ := ih hvisits.scanning
      rw [untilFault_of_config_eq hvisits.config, hvisits.loads, List.length_append]
        at hrest hvisits'
      exact ⟨r', hvisit.trans hrest, hvisits.trans hvisits'⟩

/-- A pass loads the documents up to the first fault. -/
theorem exists_pass (plan : ScanPlan) (h : r.workspace.scanning = true)
    (hpaths : d.documents r.workspace.root r.workspace.config.extensions
      r.workspace.config.excludeDirs = .ok ps) :
    ∃ r', r.pass plan d = (r', (r.workspace.untilFault d plan r.loads.length ps).2) ∧
      Visits plan (r.workspace.untilFault d plan r.loads.length ps).1 r r' := by
  let emptied : ScanRun := { r with workspace := { r.workspace with index := {} } }
  have hemptied : Visits plan [] r emptied := (Visits.refl plan h).withIndex {} r.workspace.log
  have huntil : emptied.workspace.untilFault d plan emptied.loads.length ps =
      r.workspace.untilFault d plan r.loads.length ps :=
    untilFault_of_config_eq hemptied.config d plan _ ps
  have hvisited := exists_visit plan d hemptied.scanning ps
  rw [huntil] at hvisited
  obtain ⟨r', hvisit, hvisits⟩ := hvisited
  unfold pass
  simp only
  rw [hpaths]
  simp only
  rw [hvisit]
  cases (r.workspace.untilFault d plan r.loads.length ps).2 with
  | none => exact ⟨_, rfl, (hemptied.trans hvisits).withIndex r'.workspace.index _⟩
  | some e => exact ⟨_, rfl, hemptied.trans hvisits⟩

/-- A pass ends with the first fault, or it is followed by another one if a scan was asked for. -/
theorem passes_cases (plan : ScanPlan) (h : r.workspace.scanning = true)
    (hpaths : d.documents r.workspace.root r.workspace.config.extensions
      r.workspace.config.excludeDirs = .ok ps) :
    (∃ r' loads e, Advances plan loads r r' ∧
      (∀ qs, r.workspace.untilFault d plan r.loads.length (ps ++ qs) = (loads, some e)) ∧
      ∀ fuel, passes plan d (fuel + 1) r = (r', some e)) ∨
    ∃ r', Visits plan ps r r' ∧ r.workspace.Clear d plan r.loads.length ps ∧
      ∀ fuel, passes plan d (fuel + 1) r =
        if r'.workspace.requested then
          passes plan d fuel { r' with workspace := { r'.workspace with requested := false } }
        else (r', none) := by
  obtain ⟨r', hpass, hvisits⟩ := exists_pass plan h hpaths
  rcases clear_or_exists_fault r.workspace d plan r.loads.length ps with
    hclear | ⟨done, p, rest, e, rfl, hclear, hfault⟩
  · rw [untilFault_of_clear hclear] at hpass hvisits
    exact .inr ⟨r', hvisits, hclear, fun fuel => by rw [passes, hpass]⟩
  · rw [untilFault_of_fault hclear hfault] at hpass hvisits
    refine .inl ⟨r', _, e, hvisits.toAdvances, fun qs => ?_, fun fuel => by rw [passes, hpass]⟩
    rw [List.append_assoc, List.cons_append]
    exact untilFault_of_fault hclear hfault _

/-- Passes are made up to the first one without requests. -/
theorem exists_passes (h : r.workspace.scanning = true) (hrequested : r.workspace.requested = false)
    (hpaths : d.documents r.workspace.root r.workspace.config.extensions
      r.workspace.config.excludeDirs = .ok ps) {n fuel : Nat} (hfuel : n ≤ fuel)
    (hbusy : ∀ j < n, plan.AskedBetween (r.loads.length + j * ps.length)
      (r.loads.length + (j + 1) * ps.length))
    (hquiet : ¬plan.AskedBetween (r.loads.length + n * ps.length)
      (r.loads.length + (n + 1) * ps.length)) :
    let made := r.workspace.untilFault d plan r.loads.length (List.replicate (n + 1) ps).flatten
    ∃ r', passes plan d (fuel + 1) r = (r', made.2) ∧ Advances plan made.1 r r' := by
  induction n generalizing r fuel with
  | zero =>
    intro made
    rw [show made = r.workspace.untilFault d plan r.loads.length (ps ++ []) by simp [made]]
    rcases passes_cases plan h hpaths with
      ⟨r', loads, e, hadvances, hmade, hpasses⟩ | ⟨r', hvisits, hclear, hpasses⟩
    · rw [hmade]
      exact ⟨r', hpasses fuel, hadvances⟩
    · have hdone : r'.workspace.requested = false := by
        rw [Bool.eq_false_iff, Ne, hvisits.requested, hrequested]
        rw [Nat.zero_mul, Nat.zero_add, Nat.one_mul] at hquiet
        simpa using hquiet
      rw [List.append_nil, untilFault_of_clear hclear]
      refine ⟨r', ?_, hvisits.toAdvances⟩
      rw [hpasses, if_neg (Bool.eq_false_iff.mp hdone)]
  | succ n ih =>
    intro made
    rw [show made = r.workspace.untilFault d plan r.loads.length
      (ps ++ (List.replicate (n + 1) ps).flatten) from rfl]
    rcases passes_cases plan h hpaths with
      ⟨r', loads, e, hadvances, hmade, hpasses⟩ | ⟨r₁, hvisits, hclear, hpasses⟩
    · rw [hmade]
      exact ⟨r', hpasses fuel, hadvances⟩
    · cases fuel with
      | zero => exact absurd hfuel (Nat.not_succ_le_zero n)
      | succ fuel =>
        have hagain : r₁.workspace.requested = true := by
          refine hvisits.requested.mpr (.inr ?_)
          have hfirst := hbusy 0 n.succ_pos
          rwa [Nat.zero_mul, Nat.zero_add, Nat.one_mul] at hfirst
        let next : ScanRun := { r₁ with workspace := { r₁.workspace with requested := false } }
        have hmade : Advances plan ps r next := { hvisits.toAdvances with }
        have hlength : next.loads.length = r.loads.length + ps.length := by
          rw [hvisits.loads, List.length_append]
        have hshift (j : Nat) :
            next.loads.length + j * ps.length = r.loads.length + (j + 1) * ps.length := by
          rw [hlength, Nat.succ_mul]
          omega
        obtain ⟨r', hrest, hadvances⟩ := ih (r := next) hvisits.scanning rfl
          (by rw [← hpaths, ← hvisits.root, ← hvisits.config]) (Nat.le_of_succ_le_succ hfuel)
          (fun j hj => by
            rw [hshift, hshift]
            exact hbusy (j + 1) (Nat.succ_lt_succ hj))
          (by rwa [hshift, hshift])
        rw [untilFault_of_config_eq hmade.config, hlength] at hrest hadvances
        rw [untilFault_append_of_clear hclear, hpasses, if_pos hagain]
        exact ⟨r', hrest, hmade.trans hadvances⟩

end State

end ScanRun

/-! ## Notifications -/

namespace Workspace

/-- The listeners are called in turn, each as often as it is subscribed. -/
theorem called_notify (w : Workspace) : w.notify.called = w.called ++ w.listeners := by
  have htell (w : Workspace) (l : Listener) : (w.tell l).called = w.called ++ [l] := by
    unfold tell
    simp only
    split <;> rfl
  have hfold (ls : List Listener) (w : Workspace) : (ls.foldl tell w).called = w.called ++ ls := by
    induction ls generalizing w with
    | nil => exact (List.append_nil _).symm
    | cons l ls ih => rw [List.foldl_cons, ih, htell, List.append_assoc, List.singleton_append]
  exact hfold w.listeners w

/-- No scan is running, and none was put off. -/
structure Idle (w : Workspace) : Prop where
  scanning : w.scanning = false
  requested : w.requested = false

theorem Idle.note {w : Workspace} (h : w.Idle) (level : Level) (source : Source)
    (message : String) : (w.note level source message).Idle :=
  ⟨h.scanning, h.requested⟩

theorem Idle.notify {w : Workspace} (h : w.Idle) : w.notify.Idle := by
  have htell {w : Workspace} (h : w.Idle) (l : Listener) : (w.tell l).Idle := by
    unfold tell
    simp only
    split <;> exact ⟨h.scanning, h.requested⟩
  have hfold (ls : List Listener) {w : Workspace} (h : w.Idle) : (ls.foldl tell w).Idle := by
    induction ls generalizing w with
    | nil => exact h
    | cons l ls ih => exact ih (htell h l)
  exact hfold w.listeners h

theorem Idle.fresh (root : Path) (config : Config) (registry : Registry) :
    (fresh root config registry).Idle :=
  ⟨rfl, rfl⟩

theorem Idle.update {w : Workspace} (h : w.Idle) (d : Document) : (w.update d).Idle :=
  Idle.notify ⟨h.scanning, h.requested⟩

theorem Idle.remove {w : Workspace} (h : w.Idle) (uri : Text) : (w.remove uri).Idle :=
  Idle.notify ⟨h.scanning, h.requested⟩

theorem Idle.registerAll {w : Workspace} (h : w.Idle) (tags : List Text) :
    (w.registerAll tags).2.Idle := by
  have hregister {w : Workspace} (h : w.Idle) (tag : Text) : (w.register tag).2.Idle := by
    unfold register
    split
    · exact h
    · split
      · exact ⟨h.scanning, h.requested⟩
      · split
        · exact h
        · split <;> exact ⟨h.scanning, h.requested⟩
  induction tags generalizing w with
  | nil => exact h
  | cons tag tags ih => exact ih (hregister h tag)

/-- Passes that are through leave no request behind. -/
theorem requested_of_passes {plan : ScanPlan} {d : Disk} {fuel : Nat} {r r' : ScanRun}
    (hr : r.workspace.requested = false) (h : ScanRun.passes plan d fuel r = (r', none)) :
    r'.workspace.requested = false := by
  induction fuel generalizing r with
  | zero =>
    obtain ⟨rfl, -⟩ := Prod.mk.inj h
    exact hr
  | succ fuel ih =>
    unfold ScanRun.passes at h
    split at h
    · exact absurd (Prod.mk.inj h).2 (by simp)
    · split at h
      · exact ih rfl h
      · next hdone =>
        obtain ⟨rfl, -⟩ := Prod.mk.inj h
        exact Bool.eq_false_iff.mpr hdone

/-- However a scan ends, none is running afterwards. -/
theorem Idle.scan {w : Workspace} (h : w.Idle) (d : Disk) (plan : ScanPlan) :
    (w.scan d plan).2.workspace.Idle := by
  unfold Workspace.scan askScan
  rw [if_neg (Bool.eq_false_iff.mp h.scanning)]
  simp only
  split
  · next r hpasses => exact Idle.notify ⟨rfl, requested_of_passes h.requested hpasses⟩
  · exact ⟨rfl, rfl⟩

/-- Between operations no scan is running. -/
theorem Idle.perform {w : Workspace} (h : w.Idle) (op : Operation) : (w.perform op).Idle := by
  cases op with
  | update d => exact h.update d
  | save d => exact (h.update d).registerAll _
  | updateFile disk p =>
    unfold Workspace.perform updateFile
    simp only
    cases w.loadFile disk p with
    | ok d => exact h.update d
    | error e =>
      simp only
      cases e.isReadFailure with
      | false => exact h
      | true => exact h.note _ _ _
  | remove uri => exact h.remove uri
  | removeFile disk p =>
    unfold Workspace.perform removeFile
    simp only
    cases disk.uriOf p with
    | ok uri => exact h.remove uri
    | error e => exact h
  | scan disk plan => exact h.scan disk plan
  | register tags => exact h.registerAll tags
  | subscribe l => exact ⟨h.scanning, h.requested⟩
  | unsubscribe handle =>
    rw [Workspace.perform, Handle.call_eq]
    exact ⟨h.scanning, h.requested⟩

/-! ## The whole scan -/

section Scan

variable {w : Workspace} {d : Disk} {plan : ScanPlan} {ps : List Path} {k : Nat}

/-- A scan makes the passes up to the first one without requests, unless a load ends it. -/
theorem exists_scan (hw : w.Idle)
    (hpaths : d.documents w.root w.config.extensions w.config.excludeDirs = .ok ps)
    (hk : IsLeast {k | 1 ≤ k ∧ plan.Quiet ps.length k} k) :
    let made := w.untilFault d plan 0 (List.replicate k ps).flatten
    ∃ r, ScanRun.Advances plan made.1 (.begin w) r ∧ w.scan d plan =
      match made.2 with
      | none => (.ok true, { r with workspace := { r.workspace with scanning := false }.notify })
      | some e => (.error e,
          { r with workspace := { r.workspace with scanning := false, requested := false } }) := by
  intro made
  have hfuel := ScanPlan.le_of_isLeast_quiet hk
  obtain ⟨⟨hpos, hquiet⟩, hleast⟩ := hk
  obtain ⟨n, rfl⟩ := Nat.exists_eq_add_of_le' hpos
  have hbusy (j : Nat) (hj : j < n) :
      plan.AskedBetween (0 + j * ps.length) (0 + (j + 1) * ps.length) := by
    by_contra hnone
    rw [Nat.zero_add, Nat.zero_add] at hnone
    have hle := hleast ⟨Nat.le_add_left 1 j, by rwa [ScanPlan.Quiet, Nat.add_sub_cancel]⟩
    omega
  rw [ScanPlan.Quiet, Nat.add_sub_cancel] at hquiet
  obtain ⟨r, hpasses, hadvances⟩ := ScanRun.exists_passes (r := .begin w) rfl hw.requested
    hpaths (Nat.le_of_succ_le_succ hfuel) hbusy (by
      rwa [← Nat.zero_add (n * _), ← Nat.zero_add ((n + 1) * _)] at hquiet)
  have hmade : (ScanRun.begin w).workspace.untilFault d plan (ScanRun.begin w).loads.length
      (List.replicate (n + 1) ps).flatten = made :=
    untilFault_of_config_eq (show (ScanRun.begin w).workspace.config = w.config from rfl) d plan _ _
  rw [hmade] at hpasses hadvances
  have hask : w.askScan = (true, (ScanRun.begin w).workspace) := by
    rw [askScan, if_neg (Bool.eq_false_iff.mp hw.scanning)]
    rfl
  refine ⟨r, hadvances, ?_⟩
  unfold scan
  rw [hask]
  simp only
  rw [show (⟨(ScanRun.begin w).workspace, [], []⟩ : ScanRun) = .begin w from rfl, hpasses]
  cases made.2 with
  | none => rfl
  | some e => rfl

/-- A scan loads some paths, refuses the scans that are asked for meanwhile, indexes the documents
and tells everybody once, when all is loaded. -/
structure Completed (w : Workspace) (d : Disk) (plan : ScanPlan) (ps : List Path) : Prop where
  answer : (w.scan d plan).1 = .ok true
  loads : (w.scan d plan).2.loads = ps
  answers : (w.scan d plan).2.answers = plan.refusals 0 ps.length
  /-- The index is that of a scan during which no other is asked for. -/
  undisturbed : (w.scan d {}).1 = .ok true ∧
    (w.scan d plan).2.workspace.index = (w.scan d {}).2.workspace.index
  /-- The index that everybody is told about is the one that stays. -/
  notified : ∃ v : Workspace, (w.scan d plan).2.workspace = v.notify ∧ v.listeners = w.listeners ∧
    v.called = w.called ∧ v.index = (w.scan d plan).2.workspace.index
  called : (w.scan d plan).2.workspace.called = w.called ++ w.listeners
  idle : (w.scan d plan).2.workspace.Idle

/-- A scan ends with a fault after it has loaded some paths, and tells nobody. The next one goes
through in one pass if nothing disturbs it, and gives the index that a fresh workspace gets. -/
structure BrokenOff (w : Workspace) (d : Disk) (plan : ScanPlan) (ps : List Path)
    (e : ScanFault) : Prop where
  answer : (w.scan d plan).1 = .error e
  loads : (w.scan d plan).2.loads = ps
  answers : (w.scan d plan).2.answers = plan.refusals 0 ps.length
  called : (w.scan d plan).2.workspace.called = w.called
  idle : (w.scan d plan).2.workspace.Idle
  next : ∀ (d' : Disk) (plan' : ScanPlan) (qs : List Path) (registry : Registry),
    d'.documents w.root w.config.extensions w.config.excludeDirs = .ok qs →
    plan'.Quiet qs.length 1 → w.Clear d' plan' 0 qs →
    Completed (w.scan d plan).2.workspace d' plan' qs ∧
      ((w.scan d plan).2.workspace.scan d' plan').2.workspace.index =
        ((fresh w.root w.config registry).scan d' {}).2.workspace.index

/-- A scan none of whose loads is faulty is carried through. -/
theorem completed_of_clear (hw : w.Idle)
    (hpaths : d.documents w.root w.config.extensions w.config.excludeDirs = .ok ps)
    (hk : IsLeast {k | 1 ≤ k ∧ plan.Quiet ps.length k} k)
    (hclear : w.Clear d plan 0 (List.replicate k ps).flatten) :
    Completed w d plan (List.replicate k ps).flatten := by
  have hundisturbed : (w.scan d {}).1 = .ok true := by
    obtain ⟨r, -, hscan⟩ :=
      exists_scan hw hpaths (ScanPlan.isLeast_one (ScanPlan.quiet_empty ps.length 1))
    have hfirst : w.Clear d {} 0 (List.replicate 1 ps).flatten := by
      obtain ⟨n, rfl⟩ := Nat.exists_eq_add_of_le' hk.1.1
      rw [List.replicate_succ, List.flatten_cons] at hclear
      simpa using hclear.left.undisturbed
    rw [hscan, untilFault_of_clear hfirst]
  obtain ⟨r, hadvances, hscan⟩ := exists_scan hw hpaths hk
  rw [untilFault_of_clear hclear] at hadvances hscan
  have hanswer : (w.scan d plan).1 = .ok true := by rw [hscan]
  have hindex : (w.scan d plan).2.workspace.index = (w.scan d {}).2.workspace.index := by
    rw [(scan_spec hanswer).index, (scan_spec hundisturbed).index]
  let through : Workspace := { r.workspace with scanning := false }
  have hworkspace : (w.scan d plan).2.workspace = through.notify := by rw [hscan]
  exact
    { answer := hanswer
      loads := by rw [hscan]; exact hadvances.loads
      answers := by rw [hscan]; exact hadvances.answers
      undisturbed := ⟨hundisturbed, hindex⟩
      notified := ⟨through, hworkspace, hadvances.listeners, hadvances.called, by
        rw [hworkspace, (alike_notify through).index]⟩
      called := by
        rw [hworkspace, called_notify, show through.called = w.called from hadvances.called,
          show through.listeners = w.listeners from hadvances.listeners]
      idle := hw.scan d plan }

theorem completed_of_quiet (hw : w.Idle)
    (hpaths : d.documents w.root w.config.extensions w.config.excludeDirs = .ok ps)
    (hquiet : plan.Quiet ps.length 1) (hclear : w.Clear d plan 0 ps) : Completed w d plan ps := by
  have honce : (List.replicate 1 ps).flatten = ps := by simp
  have hcompleted := completed_of_clear hw hpaths (ScanPlan.isLeast_one hquiet)
  rw [honce] at hcompleted
  exact hcompleted hclear

/-- A scan that nothing disturbs is carried through if all that keeps documents from being read
concerns their files. -/
theorem completed_of_isReadFailure (hw : w.Idle)
    (hpaths : d.documents w.root w.config.extensions w.config.excludeDirs = .ok ps)
    (hfailure : ∀ p ∈ ps, ∀ e, w.loadFile d p = .error e → e.isReadFailure = true) :
    Completed w d {} ps := by
  refine completed_of_quiet hw hpaths (ScanPlan.quiet_empty _ _) fun n p hp => ?_
  unfold faultAt
  rw [if_neg (by simp)]
  split
  · rfl
  · next e hload => rw [if_pos (hfailure p (List.mem_of_getElem? hp) e hload)]

/-- A scan ends with its first faulty load. -/
theorem brokenOff_of_fault (hw : w.Idle)
    (hpaths : d.documents w.root w.config.extensions w.config.excludeDirs = .ok ps)
    (hk : IsLeast {k | 1 ≤ k ∧ plan.Quiet ps.length k} k) {done rest : List Path} {p : Path}
    {e : ScanFault} (hloads : (List.replicate k ps).flatten = done ++ p :: rest)
    (hclear : w.Clear d plan 0 done) (hfault : w.faultAt d plan (done.length + 1) p = some e) :
    BrokenOff w d plan (done ++ [p]) e := by
  obtain ⟨r, hadvances, hscan⟩ := exists_scan hw hpaths hk
  rw [hloads, untilFault_of_fault hclear (by rwa [Nat.zero_add])] at hadvances hscan
  have hidle := hw.scan d plan
  have hroot : (w.scan d plan).2.workspace.root = w.root := by rw [hscan]; exact hadvances.root
  have hconfig : (w.scan d plan).2.workspace.config = w.config := by
    rw [hscan]
    exact hadvances.config
  refine
    { answer := by rw [hscan]
      loads := by rw [hscan]; exact hadvances.loads
      answers := by rw [hscan]; exact hadvances.answers
      called := by rw [hscan]; exact hadvances.called
      idle := hidle
      next := ?_ }
  intro d' plan' qs registry hqs hquiet hclear'
  have hnext : Completed (w.scan d plan).2.workspace d' plan' qs :=
    completed_of_quiet hidle (by rwa [hroot, hconfig]) hquiet (hclear'.of_config_eq hconfig)
  have hfresh : Completed (fresh w.root w.config registry) d' {} qs :=
    completed_of_quiet (Idle.fresh _ _ _) hqs (ScanPlan.quiet_empty _ _)
      (hclear'.undisturbed.of_config_eq rfl)
  have hlike : Reindexed w _ (w.scan d plan).2.workspace := ⟨hroot, hconfig, rfl⟩
  have hlikeFresh : Reindexed w {} (fresh w.root w.config registry) := ⟨rfl, rfl, rfl⟩
  refine ⟨hnext, ?_⟩
  rw [(scan_spec hnext.answer).index, (scan_spec hfresh.answer).index,
    readable_of_reindexed hlike, readable_of_reindexed hlikeFresh]

/-- A scan that finds no list of documents ends with the fault, before anything is loaded. -/
theorem scan_of_documents_error {e : FileError} (hw : w.Idle)
    (h : d.documents w.root w.config.extensions w.config.excludeDirs = .error e) :
    (w.scan d plan).1 = .error (.file e) := by
  have hask : w.askScan = (true, (ScanRun.begin w).workspace) := by
    rw [askScan, if_neg (Bool.eq_false_iff.mp hw.scanning)]
    rfl
  have hpass : (ScanRun.begin w).pass plan d = (ScanRun.begin w, some (.file e)) := by
    unfold ScanRun.pass ScanRun.begin
    simp only [h]
  unfold scan
  rw [hask]
  simp only
  rw [show (⟨(ScanRun.begin w).workspace, [], []⟩ : ScanRun) = .begin w from rfl, ScanRun.passes,
    hpass]

/-- A scan of an idle workspace makes passes up to the first one during which no scan is asked for,
and completes or, if one of its loads is faulty, breaks off with the first such load. -/
theorem scan_outcome (hw : w.Idle)
    (hpaths : d.documents w.root w.config.extensions w.config.excludeDirs = .ok ps)
    (plan : ScanPlan) :
    ∃ k, IsLeast {k | 1 ≤ k ∧ plan.Quiet ps.length k} k ∧
      (w.Clear d plan 0 (List.replicate k ps).flatten →
        Completed w d plan (List.replicate k ps).flatten) ∧
      ∀ done p rest e, (List.replicate k ps).flatten = done ++ p :: rest → w.Clear d plan 0 done →
        w.faultAt d plan (done.length + 1) p = some e → BrokenOff w d plan (done ++ [p]) e := by
  obtain ⟨k, hk⟩ := plan.exists_isLeast_quiet ps.length
  refine ⟨k, hk, completed_of_clear hw hpaths hk, ?_⟩
  intro done p rest e hloads hclear hfault
  exact brokenOff_of_fault hw hpaths hk hloads hclear hfault

/-- Two documents. Requests before the second and the third load make three passes of a scan; if the
third load fails instead, nobody is told. -/
theorem scan_outcome_requests :
    let d : Disk := ⟨[], [([['r']], .directory), ([['r'], "a.md".toList], .file 0 []),
      ([['r'], "b.md".toList], .file 0 [35, 32, 97])], []⟩
    let w : Workspace :=
      { fresh (.absolute [['r']]) ⟨[".md".toList], [], [], 0, [], [], [], 9⟩ ⟨[]⟩ with
        listeners := [⟨0, false⟩] }
    let a : Path := .absolute [['r'], "a.md".toList]
    let b : Path := .absolute [['r'], "b.md".toList]
    w.Idle ∧ d.documents w.root w.config.extensions w.config.excludeDirs = .ok [a, b] ∧
      (w.scan d ⟨[2, 3], none⟩).1 = .ok true ∧
      (w.scan d ⟨[2, 3], none⟩).2.loads = [a, b, a, b, a, b] ∧
      (w.scan d ⟨[2, 3], none⟩).2.answers = [false, false] ∧
      (w.scan d ⟨[2, 3], none⟩).2.workspace.called = w.listeners ∧
      (w.scan d ⟨[2], some 3⟩).1 = .error .loadFailed ∧
      (w.scan d ⟨[2], some 3⟩).2.loads = [a, b, a] ∧
      (w.scan d ⟨[2], some 3⟩).2.workspace.called = [] := by
  intro d w a b
  have hw : w.Idle := ⟨rfl, rfl⟩
  have hroot : d.lookup true w.root.text = .ok ([['r']], .directory) := by decide +kernel
  have hfound : d.listed w.root [['r']] w.config.extensions w.config.excludeDirs =
      [(["a.md".toList], false), (["b.md".toList], false)] := by
    decide +kernel
  have hpaths : d.documents w.root w.config.extensions w.config.excludeDirs = .ok [a, b] :=
    Disk.documents_of_pairwise rfl hroot hfound (by decide +kernel) (by decide)
  have hload : ∀ p ∈ [a, b], (w.loadFile d p).isOk = true := by decide +kernel
  have hfault (plan : ScanPlan) (n : Nat) (p : Path) (hp : p ∈ [a, b])
      (hn : plan.failure ≠ some n) : w.faultAt d plan n p = none := by
    have hok := hload p hp
    unfold faultAt
    rw [if_neg hn]
    split
    · rfl
    · next e he =>
      rw [he] at hok
      exact absurd hok (by simp [Except.isOk, Except.toBool])
  obtain ⟨k, hk, hcompleted, -⟩ := scan_outcome hw hpaths ⟨[2, 3], none⟩
  obtain ⟨k', hk', -, hbroken⟩ := scan_outcome hw hpaths ⟨[2], some 3⟩
  obtain rfl : k = 3 := by
    refine hk.unique ⟨by decide, fun j hj => ?_⟩
    by_contra hlt
    obtain ⟨hpos, hquiet⟩ := hj
    obtain rfl | rfl : j = 1 ∨ j = 2 := by omega
    · exact absurd hquiet (by decide)
    · exact absurd hquiet (by decide)
  obtain rfl : k' = 2 := by
    refine hk'.unique ⟨by decide, fun j hj => ?_⟩
    by_contra hlt
    obtain ⟨hpos, hquiet⟩ := hj
    obtain rfl : j = 1 := by omega
    exact absurd hquiet (by decide)
  have hcompleted := hcompleted fun i p hp => by
    obtain ⟨ps, hps, hp⟩ := List.mem_flatten.mp (List.mem_of_getElem? hp)
    exact hfault _ _ _ (List.eq_of_mem_replicate hps ▸ hp) (by simp)
  have hbroken := hbroken [a, b] a [b] .loadFailed rfl
    (fun i p hp => hfault _ _ _ (List.mem_of_getElem? hp) (by
      have := (List.getElem?_eq_some_iff.mp hp).1
      simp only [List.length_cons, List.length_nil] at this
      simp
      omega)) rfl
  refine ⟨hw, hpaths, hcompleted.answer, hcompleted.loads, hcompleted.answers, ?_, hbroken.answer,
    hbroken.loads, ?_⟩
  · exact hcompleted.called
  · exact hbroken.called

end Scan

end Workspace

end TaggedOutline
