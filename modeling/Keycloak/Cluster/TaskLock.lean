import Keycloak.Lib.Machine
import Mathlib.Logic.Function.Basic

/-!
# The lock of a cluster task

Calls of `executeIfNotExecuted` with one task key and one timeout, on any number of nodes.
Every access to the work cache is one step, so the accesses of several calls interleave
freely, and time passes between any two of them.

An access is atomic: one that throws has changed nothing, and `Retry.executeWithBackoff`
tries it again.
-/

namespace Keycloak.Cluster.TaskLock

open Machine

structure LockEntry where
  node : String
  timestamp : Nat
  deriving DecidableEq, Repr

/-- A lock entry in the cache, with the time of its insertion in milliseconds and its
lifespan in seconds, if it was given one.  `call` is ghost state: the call that inserted
it. -/
structure CacheEntry where
  lock : LockEntry
  call : Nat
  insertedAt : Nat
  lifespan : Option Int
  deriving DecidableEq, Repr

/-- How far a call of `executeIfNotExecuted` is. -/
inductive Call where
  | idle
  /-- In `tryLock`, with the attempts that are left. -/
  | locking (myLock : LockEntry) (attempts : Nat)
  | locked
  | running (startedAt : Nat)
  /-- In `removeFromCache`, with the attempts that are left. -/
  | releasing (attempts : Nat)
  | finished
  deriving DecidableEq, Repr

structure State where
  now : Nat
  cache : Option CacheEntry
  calls : Nat → Call

inductive Label where
  | tick (milliseconds : Nat)
  | invoke (call : Nat)
  | putIfAbsent (call : Nat)
  | putIfAbsentThrows (call : Nat)
  | start (call : Nat)
  /-- The task returns or throws. -/
  | finish (call : Nat)
  | remove (call : Nat)
  | removeThrows (call : Nat)
  deriving DecidableEq, Repr

def attemptsCount : Nat := 10

/-- An entry without lifespan, or with a negative one, does not expire. -/
def CacheEntry.present (now : Nat) (e : CacheEntry) : Bool :=
  match e.lifespan with
  | none => true
  | some seconds => seconds < 0 || (now : Int) < e.insertedAt + 1000 * seconds

def State.lookup (s : State) : Option CacheEntry := s.cache.filter (CacheEntry.present s.now)

def State.setCall (s : State) (call : Nat) (c : Call) : State :=
  { s with calls := Function.update s.calls call c }

/-- The lifespan that `putIfAbsentWithRetries` passes on: none for a positive timeout. -/
def lifespanOf (taskTimeoutInSeconds : Int) : Option Int :=
  if taskTimeoutInSeconds > 0 then none else some taskTimeoutInSeconds

def step (node : Nat → String) (taskTimeoutInSeconds : Int) (s : State) : Label → Option State
  | .tick milliseconds => some { s with now := s.now + milliseconds }
  | .invoke call =>
      match s.calls call with
      | .idle => some (s.setCall call (.locking ⟨node call, s.now / 1000⟩ attemptsCount))
      | _ => none
  | .putIfAbsent call =>
      match s.calls call with
      | .locking myLock _ =>
          match s.lookup with
          | some _ => some (s.setCall call .finished)
          | none =>
              some { s.setCall call .locked with
                cache := some ⟨myLock, call, s.now, lifespanOf taskTimeoutInSeconds⟩ }
      | _ => none
  | .putIfAbsentThrows call =>
      match s.calls call with
      | .locking myLock attempts =>
          if attempts ≤ 1 then some (s.setCall call .finished)
          else some (s.setCall call (.locking myLock (attempts - 1)))
      | _ => none
  | .start call =>
      match s.calls call with
      | .locked => some (s.setCall call (.running s.now))
      | _ => none
  | .finish call =>
      match s.calls call with
      | .running _ => some (s.setCall call (.releasing attemptsCount))
      | _ => none
  | .remove call =>
      match s.calls call with
      | .releasing _ => some { s.setCall call .finished with cache := none }
      | _ => none
  | .removeThrows call =>
      match s.calls call with
      | .releasing attempts =>
          if attempts ≤ 1 then some (s.setCall call .finished)
          else some (s.setCall call (.releasing (attempts - 1)))
      | _ => none

def initial : State := ⟨0, none, fun _ => .idle⟩

/-! ## Who owns the entry -/

/-- A call between a successful `putIfAbsent` and the end of `removeFromCache`. -/
def Call.Holds : Call → Prop
  | .locked | .running _ | .releasing _ => True
  | .idle | .locking _ _ | .finished => False

/-- The entry has the lifespan of the calls, and a call that holds the lock has its own entry
in the cache, unless entries expire at once. -/
structure Owned (taskTimeoutInSeconds : Int) (s : State) : Prop where
  entry : ∀ e, s.cache = some e →
    e.lifespan = lifespanOf taskTimeoutInSeconds ∧ e.insertedAt ≤ s.now
  owner : taskTimeoutInSeconds ≠ 0 → ∀ call, (s.calls call).Holds →
    ∃ e, s.cache = some e ∧ e.call = call
  started : ∀ call startedAt, s.calls call = .running startedAt → startedAt ≤ s.now

variable {node : Nat → String} {taskTimeoutInSeconds : Int} {s t : State}

theorem initial_owned (taskTimeoutInSeconds : Int) : Owned taskTimeoutInSeconds initial := by
  constructor
  · intro e h
    cases h
  · intro _ call h
    exact absurd h id
  · intro call startedAt h
    cases h

theorem present_iff {now : Nat} {e : CacheEntry}
    (hlifespan : e.lifespan = lifespanOf taskTimeoutInSeconds) (hnow : e.insertedAt ≤ now) :
    e.present now = true ↔ taskTimeoutInSeconds ≠ 0 := by
  unfold CacheEntry.present
  rw [hlifespan, lifespanOf]
  split_ifs with hpos
  · simp only [true_iff]
    omega
  · simp only [Bool.or_eq_true, decide_eq_true_eq]
    omega

theorem Owned.lookup_eq (h : Owned taskTimeoutInSeconds s) :
    s.lookup = if taskTimeoutInSeconds = 0 then none else s.cache := by
  unfold State.lookup
  cases hcache : s.cache with
  | none => simp
  | some e =>
      obtain ⟨hlifespan, hnow⟩ := h.entry e hcache
      have hpresent := present_iff hlifespan hnow
      split_ifs with hzero
      · simp [Option.filter, hpresent, hzero]
      · simp [Option.filter, hpresent, hzero]

theorem Owned.holds_unique (h : Owned taskTimeoutInSeconds s) (hzero : taskTimeoutInSeconds ≠ 0)
    {call other : Nat} (hcall : (s.calls call).Holds) (hother : (s.calls other).Holds) :
    call = other := by
  obtain ⟨e, he, rfl⟩ := h.owner hzero call hcall
  obtain ⟨e', he', rfl⟩ := h.owner hzero other hother
  rw [he, Option.some.injEq] at he'
  rw [he']

theorem setCall_calls (s : State) (call : Nat) (c : Call) (other : Nat) :
    (s.setCall call c).calls other = if other = call then c else s.calls other :=
  Function.update_apply s.calls call c other

theorem Owned.started_setCall (h : Owned taskTimeoutInSeconds s) {call : Nat} {c : Call}
    (hc : ∀ startedAt, c = .running startedAt → startedAt ≤ s.now) {other startedAt : Nat}
    (hother : (s.setCall call c).calls other = .running startedAt) : startedAt ≤ s.now := by
  rw [setCall_calls] at hother
  split_ifs at hother with heq
  · exact hc startedAt hother
  · exact h.started other startedAt hother

theorem Owned.setCall (h : Owned taskTimeoutInSeconds s) {call : Nat} {c : Call}
    (hholds : c.Holds → (s.calls call).Holds) (hstarted : ∀ startedAt, c = .running startedAt →
      startedAt ≤ s.now) : Owned taskTimeoutInSeconds (s.setCall call c) := by
  refine ⟨h.entry, ?_, fun other startedAt => h.started_setCall hstarted⟩
  intro hzero other hother
  rw [setCall_calls] at hother
  split_ifs at hother with heq
  · exact heq ▸ h.owner hzero call (hholds hother)
  · exact h.owner hzero other hother

theorem Owned.tick (h : Owned taskTimeoutInSeconds s) (milliseconds : Nat) :
    Owned taskTimeoutInSeconds { s with now := s.now + milliseconds } where
  entry e he := ⟨(h.entry e he).1, Nat.le_trans (h.entry e he).2 (Nat.le_add_right _ _)⟩
  owner := h.owner
  started call startedAt hcall :=
    Nat.le_trans (h.started call startedAt hcall) (Nat.le_add_right _ _)

theorem Owned.insert (h : Owned taskTimeoutInSeconds s) (hlookup : s.lookup = none)
    (call : Nat) (myLock : LockEntry) :
    Owned taskTimeoutInSeconds { s.setCall call .locked with
      cache := some ⟨myLock, call, s.now, lifespanOf taskTimeoutInSeconds⟩ } := by
  refine ⟨?_, ?_, ?_⟩
  · intro e he
    cases he
    exact ⟨rfl, Nat.le_refl _⟩
  · intro hzero other hother
    rw [h.lookup_eq, if_neg hzero] at hlookup
    change ((s.setCall call .locked).calls other).Holds at hother
    rw [setCall_calls] at hother
    split_ifs at hother with heq
    · exact ⟨_, rfl, heq.symm⟩
    · obtain ⟨e, he, _⟩ := h.owner hzero other hother
      rw [hlookup] at he
      cases he
  · exact fun other startedAt => h.started_setCall (fun _ heq => Call.noConfusion heq)

theorem Owned.remove (h : Owned taskTimeoutInSeconds s) {call attempts : Nat}
    (hcall : s.calls call = .releasing attempts) :
    Owned taskTimeoutInSeconds { s.setCall call .finished with cache := none } := by
  refine ⟨fun e he => ?_, ?_, ?_⟩
  · cases he
  · intro hzero other hother
    change ((s.setCall call .finished).calls other).Holds at hother
    rw [setCall_calls] at hother
    split_ifs at hother with heq
    · exact absurd hother id
    · have hholds : (s.calls call).Holds := by
        rw [hcall]
        trivial
      exact absurd (h.holds_unique hzero hother hholds) heq
  · exact fun other startedAt => h.started_setCall (fun _ heq => Call.noConfusion heq)

theorem step_owned {label : Label} (h : Owned taskTimeoutInSeconds s)
    (hstep : step node taskTimeoutInSeconds s label = some t) : Owned taskTimeoutInSeconds t := by
  cases label with
  | tick milliseconds =>
      cases hstep
      exact h.tick milliseconds
  | invoke call =>
      simp only [step] at hstep
      split at hstep <;> cases hstep
      exact h.setCall (fun hholds => absurd hholds id) (fun _ heq => Call.noConfusion heq)
  | putIfAbsent call =>
      simp only [step] at hstep
      split at hstep
      · split at hstep
        · cases hstep
          exact h.setCall (fun hholds => absurd hholds id) (fun _ heq => Call.noConfusion heq)
        · rename_i hlookup
          cases hstep
          exact h.insert hlookup call _
      · cases hstep
  | putIfAbsentThrows call =>
      simp only [step] at hstep
      split at hstep
      · split at hstep <;> cases hstep <;>
          exact h.setCall (fun hholds => absurd hholds id) (fun _ heq => Call.noConfusion heq)
      · cases hstep
  | start call =>
      simp only [step] at hstep
      split at hstep
      · rename_i hcall
        cases hstep
        refine h.setCall (fun _ => ?_) (fun startedAt heq => ?_)
        · rw [hcall]
          trivial
        · cases heq
          exact Nat.le_refl _
      · cases hstep
  | finish call =>
      simp only [step] at hstep
      split at hstep
      · rename_i hcall
        cases hstep
        refine h.setCall (fun _ => ?_) (fun _ heq => Call.noConfusion heq)
        rw [hcall]
        trivial
      · cases hstep
  | remove call =>
      simp only [step] at hstep
      split at hstep
      · rename_i hcall
        cases hstep
        exact h.remove hcall
      · cases hstep
  | removeThrows call =>
      simp only [step] at hstep
      split at hstep
      · rename_i hcall
        split at hstep <;> cases hstep
        · exact h.setCall (fun hholds => absurd hholds id) (fun _ heq => Call.noConfusion heq)
        · refine h.setCall (fun _ => ?_) (fun _ heq => Call.noConfusion heq)
          rw [hcall]
          trivial
      · cases hstep

theorem run_owned {labels : List Label}
    (hrun : run (step node taskTimeoutInSeconds) initial labels = some s) :
    Owned taskTimeoutInSeconds s :=
  run_invariant_all (fun _ _ _ => step_owned) (initial_owned taskTimeoutInSeconds) hrun

def Recent (taskTimeoutInSeconds : Int) (s : State) (startedAt : Nat) : Prop :=
  (s.now : Int) - startedAt < 1000 * taskTimeoutInSeconds

/-- In every run no two tasks run that were started less than the timeout ago, and what a
call removes it has inserted. -/
theorem task_lock_excludes {labels : List Label}
    (hrun : run (step node taskTimeoutInSeconds) initial labels = some s) :
    (∀ call other startedAt startedAt', call ≠ other → s.calls call = .running startedAt →
      s.calls other = .running startedAt' →
      ¬ (Recent taskTimeoutInSeconds s startedAt ∧ Recent taskTimeoutInSeconds s startedAt')) ∧
    ∀ call e t, step node taskTimeoutInSeconds s (.remove call) = some t → s.lookup = some e →
      e.call = call := by
  have howned := run_owned hrun
  constructor
  · rintro call other startedAt startedAt' hne hcall hother ⟨hrecent, _⟩
    have hholds : (s.calls call).Holds := by
      rw [hcall]
      trivial
    have hholds' : (s.calls other).Holds := by
      rw [hother]
      trivial
    by_cases hzero : taskTimeoutInSeconds = 0
    · have hstarted := howned.started call startedAt hcall
      rw [Recent, hzero] at hrecent
      omega
    · exact hne (howned.holds_unique hzero hholds hholds')
  · intro call e t hremove hlookup
    rw [howned.lookup_eq] at hlookup
    split_ifs at hlookup with hzero
    simp only [step] at hremove
    split at hremove
    · rename_i hcall
      have hholds : (s.calls call).Holds := by
        rw [hcall]
        trivial
      obtain ⟨e', he', heq⟩ := howned.owner hzero call hholds
      rw [hlookup, Option.some.injEq] at he'
      rw [he', heq]
    · cases hremove

/-- The second call comes 40 seconds after the first, whose task is still running, and is
refused; the third comes after the removal. -/
def threeCalls : List Label :=
  [.invoke 0, .putIfAbsentThrows 0, .putIfAbsent 0, .start 0, .tick 40000, .invoke 1,
    .putIfAbsent 1, .finish 0, .removeThrows 0, .remove 0, .invoke 2, .putIfAbsent 2, .start 2]

theorem task_lock_excludes_threeCalls :
    ∃ s, run (step (fun _ => "node") 30) initial threeCalls = some s ∧
      (∀ call other startedAt startedAt', call ≠ other → s.calls call = .running startedAt →
        s.calls other = .running startedAt' → ¬ (Recent 30 s startedAt ∧ Recent 30 s startedAt')) ∧
      ∀ call e t, step (fun _ => "node") 30 s (.remove call) = some t → s.lookup = some e →
        e.call = call := by
  obtain ⟨s, hs⟩ : ∃ s, run (step (fun _ => "node") 30) initial threeCalls = some s := ⟨_, rfl⟩
  exact ⟨s, hs, task_lock_excludes hs⟩

end Keycloak.Cluster.TaskLock
