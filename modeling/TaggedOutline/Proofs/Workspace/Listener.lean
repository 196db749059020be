import Mathlib.Data.List.Basic
import Mathlib.Logic.Function.Basic
import TaggedOutline.Proofs.Workspace.Passes

/-!
# Subscriptions and how they are cancelled

A subscription returns a handle of its own, by which it is cancelled. A call of the handle takes the
first listener that is the same as the subscribed one off the list, whichever subscription has put it
there.

1. So the next notification calls, of each listener, its latest subscriptions, as many as are left if
   each call of a handle takes one away as long as there is one (`IsLatest.run`, `count_latest`).
2. A call is fair if it takes off its own listener, or the same one in its place, and nothing the next
   time. The notification calls those whose subscriptions are not cancelled iff the calls are fair
   (`isFaithful_run_iff`), which they are if no listener is subscribed twice
   (`isFaithful_run_of_nodup`).
-/

namespace TaggedOutline

/-! ## Lists -/

section Lists

variable {α : Type}

/-- An item can be moved to the front iff all that it passes are equal to it. -/
theorem append_cons_eq_cons_iff {a b : α} {as bs : List α} :
    as ++ b :: bs = a :: as ++ bs ↔ ∀ x ∈ a :: as, x = b := by
  induction as generalizing a with
  | nil => simp [eq_comm]
  | cons c as ih =>
    rw [List.forall_mem_cons, ← ih, List.cons_append, List.cons_append, List.cons.injEq]
    refine and_congr_left fun hrest => ?_
    rw [ih.mp hrest c List.mem_cons_self, eq_comm]

/-- An item is taken off the list where it stands iff the items from the first one that equals it up
to it are all equal to it. -/
theorem erase_append_cons_eq_iff [DecidableEq α] {a : α} {as bs : List α} :
    (as ++ a :: bs).erase a = as ++ bs ↔ ∀ x ∈ as.dropWhile (· ≠ a), x = a := by
  induction as with
  | nil => simp
  | cons b as ih =>
    by_cases hb : b = a
    · subst hb
      rw [List.cons_append, List.erase_cons_head, List.dropWhile_cons_of_neg (by simp)]
      exact append_cons_eq_cons_iff
    · rw [List.cons_append, List.erase_cons_tail (by simpa using hb),
        List.dropWhile_cons_of_pos (by simpa using hb), List.cons_append, List.cons.injEq,
        and_iff_right rfl, ih]

end Lists

/-! ## Subscriptions -/

/-- A subscription has returned a handle; whether that was called. -/
structure Subscription where
  handle : Workspace.Handle
  cancelled : Bool := false

/-- The listener that was subscribed. -/
def Subscription.listener (s : Subscription) : Listener := s.handle.listener

/-- A workspace and the subscriptions that were made in it. -/
structure Ledger where
  workspace : Workspace
  subscriptions : List Subscription := []
  /-- How often a listener is left if each call of one of its handles takes one away, as long as
  there is one. -/
  left : Listener → Nat := fun _ => 0

/-- A new subscription, or a call of the handle that one of them has returned. -/
inductive Request
  | subscribe (listener : Listener)
  | cancel (i : Nat)

/-- The listener of a new subscription. -/
def Request.listener? : Request → Option Listener
  | .subscribe l => some l
  | .cancel _ => none

namespace Ledger

/-- The listeners whose subscriptions are not cancelled. -/
def live (ss : List Subscription) : List Listener :=
  (ss.filter fun s => !s.cancelled).map Subscription.listener

/-- Of each listener the last occurrences, as many as are left of it. -/
def latest (left : Listener → Nat) : List Listener → List Listener
  | [] => []
  | l :: ls => if ls.count l < left l then l :: latest left ls else latest left ls

def perform (s : Ledger) : Request → Ledger
  | .subscribe l =>
    let (handle, w) := s.workspace.subscribe l
    { workspace := w
      subscriptions := s.subscriptions ++ [⟨handle, false⟩]
      left := Function.update s.left l (s.left l + 1) }
  | .cancel i =>
    match s.subscriptions[i]? with
    | some own =>
      { workspace := own.handle.call s.workspace
        subscriptions := s.subscriptions.set i { own with cancelled := true }
        left := Function.update s.left own.listener (s.left own.listener - 1) }
    | none => s

def run (s : Ledger) (rs : List Request) : Ledger := rs.foldl perform s

/-- All listeners that were subscribed, in their order. -/
def subscribers (s : Ledger) : List Listener := s.subscriptions.map Subscription.listener

/-- A notification calls the listeners whose subscriptions are not cancelled, in their order. -/
def IsFaithful (s : Ledger) : Prop :=
  s.workspace.notify.called = s.workspace.called ++ live s.subscriptions

/-- The handle of a subscription takes off what is its own: if the subscription is cancelled, its
listener is not live, and otherwise the live ones before it, from the first that is the same on, are
all the same. -/
def IsFair (s : Ledger) (i : Nat) : Prop :=
  ∀ own, s.subscriptions[i]? = some own →
    if own.cancelled then own.listener ∉ live s.subscriptions
    else ∀ l ∈ (live (s.subscriptions.take i)).dropWhile (· ≠ own.listener), l = own.listener

variable {s : Ledger} {ss : List Subscription} {own : Subscription} {l : Listener}
  {ls : List Listener} {left left' : Listener → Nat} {i : Nat} {rs : List Request}

/-- A notification calls the listeners that are on the list. -/
theorem isFaithful_iff : s.IsFaithful ↔ s.workspace.listeners = live s.subscriptions := by
  rw [IsFaithful, Workspace.called_notify, List.append_cancel_left_eq]

theorem mem_live : l ∈ live ss ↔ ∃ own ∈ ss, own.cancelled = false ∧ own.listener = l := by
  simp [live, and_assoc]

theorem live_append (ss ss' : List Subscription) : live (ss ++ ss') = live ss ++ live ss' := by
  rw [live, List.filter_append, List.map_append]
  rfl

theorem live_cons_of_cancelled (h : own.cancelled = true) : live (own :: ss) = live ss := by
  rw [live, List.filter_cons_of_neg (by simp [h])]
  rfl

theorem live_cons_of_not_cancelled (h : own.cancelled = false) :
    live (own :: ss) = own.listener :: live ss := by
  rw [live, List.filter_cons_of_pos (by simp [h])]
  rfl

/-- The subscriptions before and after one of them stay as they are when it changes. -/
theorem eq_append_of_getElem? (h : ss[i]? = some own) :
    ss = ss.take i ++ own :: ss.drop (i + 1) ∧
      ∀ own', ss.set i own' = ss.take i ++ own' :: ss.drop (i + 1) := by
  obtain ⟨hi, rfl⟩ := List.getElem?_eq_some_iff.mp h
  refine ⟨?_, fun own' => by rw [List.set_eq_take_append_cons_drop, if_pos hi]⟩
  rw [← List.drop_eq_getElem_cons hi, List.take_append_drop]

/-! ## The latest listeners -/

theorem count_latest (left : Listener → Nat) (ls : List Listener) (l : Listener) :
    (latest left ls).count l = min (left l) (ls.count l) := by
  induction ls with
  | nil => simp [latest]
  | cons x ls ih =>
    rw [latest]
    by_cases hsame : x = l
    · subst hsame
      split
      · rw [List.count_cons_self, List.count_cons_self, ih]
        omega
      · rw [List.count_cons_self, ih]
        omega
    · split
      · rw [List.count_cons_of_ne hsame, List.count_cons_of_ne hsame, ih]
      · rw [List.count_cons_of_ne hsame, ih]

/-- Where a listener is left as often as it occurs, it does not matter how much more often it could
be. -/
theorem latest_congr (h : ∀ l, left l = left' l ∨ ls.count l ≤ left l ∧ ls.count l ≤ left' l) :
    latest left ls = latest left' ls := by
  induction ls with
  | nil => rfl
  | cons x ls ih =>
    have hrest := ih fun l => (h l).imp_right fun hboth =>
      ⟨List.count_le_count_cons.trans hboth.1, List.count_le_count_cons.trans hboth.2⟩
    have hcount : (x :: ls).count x = ls.count x + 1 := List.count_cons_self
    have hiff : ls.count x < left x ↔ ls.count x < left' x := by
      have := h x
      omega
    rw [latest, latest, hrest]
    simp only [hiff]

theorem latest_subscribe (left : Listener → Nat) (ls : List Listener) (l : Listener) :
    latest (Function.update left l (left l + 1)) (ls ++ [l]) = latest left ls ++ [l] := by
  induction ls with
  | nil => simp [latest]
  | cons x ls ih =>
    have hiff : (ls ++ [l]).count x < Function.update left l (left l + 1) x ↔
        ls.count x < left x := by
      rw [List.count_append, List.count_singleton]
      by_cases hsame : x = l
      · simp [hsame]
      · simp [Ne.symm hsame, Function.update_of_ne hsame]
    rw [List.cons_append, latest, latest, ih]
    simp only [hiff]
    split <;> rfl

/-- If a listener is left once less, it is its first occurrence that goes. -/
theorem latest_cancel (h : left l ≤ ls.count l) :
    latest (Function.update left l (left l - 1)) ls = (latest left ls).erase l := by
  induction ls with
  | nil => rfl
  | cons x ls ih =>
    rw [latest, latest]
    by_cases hsame : x = l
    · subst hsame
      rw [List.count_cons_self] at h
      rw [Function.update_self, if_neg (by omega)]
      split
      · next hlt =>
        -- All the later occurrences are left, with this one or without it.
        rw [List.erase_cons_head]
        refine latest_congr fun l => ?_
        by_cases hother : l = x
        · subst hother
          rw [Function.update_self]
          exact .inr ⟨by omega, hlt.le⟩
        · exact .inl (Function.update_of_ne hother _ _)
      · exact ih (by omega)
    · rw [List.count_cons_of_ne hsame] at h
      rw [Function.update_of_ne hsame, ih h]
      split
      · rw [List.erase_cons_tail (by simpa using hsame)]
      · rfl

/-! ## Runs -/

theorem perform_cancel (h : s.subscriptions[i]? = some own) :
    s.perform (.cancel i) =
      { workspace := { s.workspace with listeners := s.workspace.listeners.erase own.listener }
        subscriptions := s.subscriptions.set i { own with cancelled := true }
        left := Function.update s.left own.listener (s.left own.listener - 1) } := by
  simp only [perform, h, Workspace.Handle.call_eq, Subscription.listener]

theorem perform_cancel_of_none (h : s.subscriptions[i]? = none) : s.perform (.cancel i) = s := by
  simp only [perform, h]

theorem run_concat (s : Ledger) (rs : List Request) (r : Request) :
    s.run (rs ++ [r]) = (s.run rs).perform r :=
  List.foldl_concat perform s r rs

theorem subscribers_perform (s : Ledger) (r : Request) :
    (s.perform r).subscribers = s.subscribers ++ r.listener?.toList := by
  cases r with
  | subscribe l => exact List.map_append
  | cancel i =>
    refine Eq.trans ?_ (List.append_nil _).symm
    cases hown : s.subscriptions[i]? with
    | none => rw [perform_cancel_of_none hown]
    | some own =>
      obtain ⟨hsplit, hset⟩ := eq_append_of_getElem? hown
      rw [perform_cancel hown, subscribers, hset, subscribers]
      conv_rhs => rw [hsplit]
      rw [List.map_append, List.map_append]
      rfl

theorem subscribers_run (s : Ledger) (rs : List Request) :
    (s.run rs).subscribers = s.subscribers ++ rs.filterMap Request.listener? := by
  induction rs using List.reverseRecOn with
  | nil => exact (List.append_nil _).symm
  | append_singleton rs r ih =>
    rw [run_concat, List.filterMap_append, ← List.append_assoc, ← ih, subscribers_perform]
    cases r <;> rfl

/-- On the list are the latest subscriptions of each listener. -/
structure IsLatest (s : Ledger) : Prop where
  le : ∀ l, s.left l ≤ s.subscribers.count l
  listeners : s.workspace.listeners = latest s.left s.subscribers

theorem IsLatest.perform (h : s.IsLatest) (r : Request) : (s.perform r).IsLatest := by
  have hsubscribers := subscribers_perform s r
  cases r with
  | subscribe l =>
    have hleft : (s.perform (.subscribe l)).left = Function.update s.left l (s.left l + 1) := rfl
    refine ⟨fun l' => ?_, ?_⟩
    · have hle := h.le l'
      rw [hsubscribers, hleft, Request.listener?, Option.toList_some, List.count_append,
        List.count_singleton]
      by_cases hsame : l' = l
      · subst hsame
        simpa using hle
      · rw [Function.update_of_ne hsame]
        omega
    · rw [hsubscribers, hleft]
      exact (congrArg (· ++ [l]) h.listeners).trans (latest_subscribe s.left s.subscribers l).symm
  | cancel i =>
    rw [Request.listener?, Option.toList_none, List.append_nil] at hsubscribers
    cases hown : s.subscriptions[i]? with
    | none => rwa [perform_cancel_of_none hown]
    | some own =>
      have hleft : (s.perform (.cancel i)).left =
          Function.update s.left own.listener (s.left own.listener - 1) := by
        rw [perform_cancel hown]
      have hlisteners : (s.perform (.cancel i)).workspace.listeners =
          s.workspace.listeners.erase own.listener := by
        rw [perform_cancel hown]
      refine ⟨fun l => ?_, ?_⟩
      · have hle := h.le l
        rw [hsubscribers, hleft]
        by_cases hsame : l = own.listener
        · subst hsame
          rw [Function.update_self]
          omega
        · rwa [Function.update_of_ne hsame]
      · rw [hsubscribers, hlisteners, hleft, h.listeners, latest_cancel (h.le _)]

theorem IsLatest.run (h : s.IsLatest) (rs : List Request) : (s.run rs).IsLatest := by
  induction rs generalizing s with
  | nil => exact h
  | cons r rs ih => exact ih (h.perform r)

/-! ## Faithful runs -/

theorem isFair_iff (h : s.subscriptions[i]? = some own) :
    s.IsFair i ↔
      if own.cancelled then own.listener ∉ live s.subscriptions
      else ∀ l ∈ (live (s.subscriptions.take i)).dropWhile (· ≠ own.listener), l = own.listener := by
  simp only [IsFair, h, Option.some.injEq, forall_eq']

theorem isFaithful_subscribe (h : s.IsFaithful) (l : Listener) :
    (s.perform (.subscribe l)).IsFaithful :=
  isFaithful_iff.mpr ((congrArg (· ++ [l]) (isFaithful_iff.mp h)).trans
    (live_append s.subscriptions [⟨⟨l⟩, false⟩]).symm)

/-- A call of a handle keeps the listeners those that are live iff it is fair. -/
theorem isFaithful_cancel_iff (h : s.IsFaithful) (i : Nat) :
    (s.perform (.cancel i)).IsFaithful ↔ s.IsFair i := by
  cases hown : s.subscriptions[i]? with
  | none =>
    rw [perform_cancel_of_none hown]
    exact iff_of_true h fun own hsome => absurd (hown.symm.trans hsome) (by simp)
  | some own =>
    obtain ⟨hsplit, hset⟩ := eq_append_of_getElem? hown
    have hlisteners : (s.perform (.cancel i)).workspace.listeners =
        (live s.subscriptions).erase own.listener := by
      rw [perform_cancel hown, ← isFaithful_iff.mp h]
    have hlive : live (s.perform (.cancel i)).subscriptions =
        live (s.subscriptions.take i) ++ live (s.subscriptions.drop (i + 1)) := by
      rw [perform_cancel hown, hset, live_append, live_cons_of_cancelled rfl]
    rw [isFaithful_iff, hlisteners, hlive, isFair_iff hown]
    cases hcancelled : own.cancelled with
    | true =>
      have hsame : live (s.subscriptions.take i) ++ live (s.subscriptions.drop (i + 1)) =
          live s.subscriptions := by
        conv_rhs => rw [hsplit, live_append, live_cons_of_cancelled hcancelled]
      rw [hsame, List.erase_eq_self_iff, if_pos rfl]
    | false =>
      have hbefore : live s.subscriptions = live (s.subscriptions.take i) ++
          own.listener :: live (s.subscriptions.drop (i + 1)) := by
        conv_lhs => rw [hsplit, live_append, live_cons_of_not_cancelled hcancelled]
      rw [hbefore, erase_append_cons_eq_iff, if_neg Bool.false_ne_true]

/-- The listeners stay those that are live throughout a run iff each of its calls is fair. -/
theorem isFaithful_run_iff (h : s.IsFaithful) (rs : List Request) :
    (∀ qs, qs <+: rs → (s.run qs).IsFaithful) ↔
      ∀ qs i, qs ++ [.cancel i] <+: rs → (s.run qs).IsFair i := by
  constructor
  · intro hfaithful qs i hprefix
    have hbefore := hfaithful qs ((List.prefix_append _ _).trans hprefix)
    have hafter := hfaithful _ hprefix
    rw [run_concat] at hafter
    exact (isFaithful_cancel_iff hbefore i).mp hafter
  · intro hfair qs hprefix
    induction qs using List.reverseRecOn with
    | nil => exact h
    | append_singleton qs r ih =>
      have hbefore := ih ((List.prefix_append _ _).trans hprefix)
      rw [run_concat]
      cases r with
      | subscribe l => exact isFaithful_subscribe hbefore l
      | cancel i => exact (isFaithful_cancel_iff hbefore i).mpr (hfair qs i hprefix)

/-- Where no listener is subscribed twice, all calls are fair. -/
theorem isFair_of_nodup (h : s.subscribers.Nodup) (i : Nat) : s.IsFair i := by
  intro own hown
  split
  · next hcancelled =>
    intro hmem
    obtain ⟨other, hother, hlive, hsame⟩ := mem_live.mp hmem
    have heq : other = own :=
      List.inj_on_of_nodup_map h hother (List.mem_of_getElem? hown) hsame
    rw [heq, hcancelled] at hlive
    exact absurd hlive (by simp)
  · have hnone : (live (s.subscriptions.take i)).dropWhile (· ≠ own.listener) = [] := by
      refine List.dropWhile_eq_nil_iff.mpr fun l hl => decide_eq_true fun hsame => ?_
      obtain ⟨other, hother, -, rfl⟩ := mem_live.mp hl
      rw [subscribers, (eq_append_of_getElem? hown).1, List.map_append, List.nodup_append] at h
      exact h.2.2 _ (List.mem_map_of_mem hother) _ (by simp) hsame
    rw [hnone]
    exact fun l hl => absurd hl List.not_mem_nil

/-- A run in which no listener is subscribed twice leaves those that are live. -/
theorem isFaithful_run_of_nodup (hs : s.IsFaithful) (h : (s.run rs).subscribers.Nodup) :
    (s.run rs).IsFaithful := by
  refine (isFaithful_run_iff hs rs).mpr (fun qs i hprefix => isFair_of_nodup ?_ i) rs
    (List.prefix_refl rs)
  obtain ⟨rest, rfl⟩ := (List.prefix_append qs [.cancel i]).trans hprefix
  rw [run, List.foldl_append, ← run, ← run, subscribers_run] at h
  exact (List.nodup_append.mp h).1

/-- After every run of subscriptions and calls of the handles that they return, the next notification
calls, in the order of the subscriptions, the latest of each listener, as many as are left of it.
Throughout the run the notification would call those whose subscriptions are not cancelled iff each
call of a handle is fair. -/
theorem listeners_run (root : Path) (config : Config) (registry : Registry) (rs : List Request) :
    let start : Ledger := { workspace := .fresh root config registry }
    let s := start.run rs
    s.workspace.notify.called = s.workspace.called ++ latest s.left s.subscribers ∧
      s.subscribers = rs.filterMap Request.listener? ∧
      ((∀ qs, qs <+: rs → (start.run qs).IsFaithful) ↔
        ∀ qs i, qs ++ [.cancel i] <+: rs → (start.run qs).IsFair i) := by
  intro start s
  have hstart : start.IsLatest := ⟨fun _ => Nat.le_refl 0, rfl⟩
  refine ⟨?_, subscribers_run start rs, isFaithful_run_iff (isFaithful_iff.mpr rfl) rs⟩
  rw [Workspace.called_notify, (hstart.run rs).listeners]

/-- A second call of a handle takes off the listener of another subscription, and the call for the
later of two subscriptions takes off the listener of the earlier one. -/
theorem listeners_run_twice :
    let start : Ledger := { workspace := .fresh (.absolute []) ⟨[], [], [], 0, [], [], [], 9⟩ ⟨[]⟩ }
    let a : Listener := ⟨0, false⟩
    let b : Listener := ⟨1, false⟩
    let twice := start.run [.subscribe a, .subscribe a, .cancel 1, .cancel 1]
    let between := start.run [.subscribe a, .subscribe b, .subscribe a, .cancel 2]
    live twice.subscriptions = [a] ∧ twice.workspace.notify.called = [] ∧
      live between.subscriptions = [a, b] ∧ between.workspace.notify.called = [b, a] := by
  intro start a b twice between
  exact ⟨rfl, rfl, rfl, rfl⟩

end Ledger

end TaggedOutline
