import Keycloak.Lib.JavaInt
import Keycloak.Lib.Machine
import Mathlib.Logic.Function.Basic

/-!
# Loading public keys once

`InfinispanPublicKeyStorageProvider.getPublicKey` on one node, for any number of threads and
model keys.  Every label is one access of one thread to the cache, to `tasksInProgress`, to the
clock or to a `FutureTask`, or a call of the loader that ends, so the calls interleave freely.
The cache loses entries by invalidations, from this node or another one, and by `clearCache`.

The keys of an entry are listed in the order in which their map is iterated.
-/

namespace Keycloak.Tokens.PublicKeyStorage

open Machine JavaInt

structure PublicKeysEntry (Key : Type) where
  lastRequestTime : Int
  currentKeys : List (String × Key)
  deriving DecidableEq, Repr

structure Request where
  modelKey : String
  kid : Option String
  deriving DecidableEq, Repr

/-- How a call ends.  A loader that throws makes it throw; a task without an entry would make
it dereference `null`. -/
inductive Answer (Key : Type) where
  | key (publicKey : Option Key)
  | loadingFailed
  | nullPointer
  deriving DecidableEq, Repr

inductive Call (Key : Type) where
  | started
  /-- Before it reads the clock, with the entry of the cache. -/
  | read (entry : Option (PublicKeysEntry Key))
  | loading (currentTime : Int)
  /-- Before it puts the new entry. -/
  | loaded (entry : PublicKeysEntry Key)
  | returning (entry : Option (PublicKeysEntry Key))
  | throwing
  deriving DecidableEq, Repr

inductive Phase (Key : Type) where
  | idle
  /-- Before `keys.get`. -/
  | looking (request : Request)
  /-- Before it reads the clock, with the entry of the cache. -/
  | deciding (request : Request) (entry : Option (PublicKeysEntry Key))
  /-- Before `tasksInProgress.putIfAbsent`. -/
  | registering (request : Request)
  /-- It runs the task that it put. -/
  | running (request : Request) (task : Nat) (call : Call Key)
  /-- In `task.get`, of its own task or of another thread's. -/
  | waiting (request : Request) (task : Nat) (own : Bool)
  /-- Before `tasksInProgress.remove`. -/
  | cleaning (request : Request) (task : Nat) (answer : Answer Key)
  | done (request : Request) (answer : Answer Key)
  deriving DecidableEq, Repr

inductive FutureTask (Key : Type) where
  | pending
  | finished (entry : Option (PublicKeysEntry Key))
  | failed
  deriving DecidableEq, Repr

/-- What happens to the keys of a model key: the loader is called, it returns keys, a new entry
is put, the entry is removed. -/
inductive Event (Key : Type) where
  | load (modelKey : String) (currentTime : Int)
  | returned (modelKey : String) (publicKeys : List (String × Key))
  | put (modelKey : String) (entry : PublicKeysEntry Key)
  | remove (modelKey : String)
  | clear
  deriving DecidableEq, Repr

/-- A task is named by the number of tasks before it, and `modelKeys` has the model key of its
`WrapperCallable`.  `events` is the history, with the last event first; nothing reads it. -/
structure State (Key : Type) where
  now : Int
  keys : String → Option (PublicKeysEntry Key)
  tasksInProgress : String → Option Nat
  tasks : Nat → FutureTask Key
  modelKeys : Nat → String
  nextTask : Nat
  phase : Nat → Phase Key
  events : List (Event Key)

inductive Label (Key : Type) where
  | tick (seconds : Nat)
  | getPublicKey (thread : Nat) (request : Request)
  | getEntry (thread : Nat)
  | readClock (thread : Nat)
  | putIfAbsent (thread : Nat)
  | getEntryAgain (thread : Nat)
  | readClockAgain (thread : Nat)
  /-- The loader returns keys or throws. -/
  | loadKeys (thread : Nat) (publicKeys : Option (List (String × Key)))
  | putEntry (thread : Nat)
  | finishTask (thread : Nat)
  | getTask (thread : Nat)
  | removeTask (thread : Nat)
  | invalidate (modelKey : String)
  | clearCache
  deriving DecidableEq, Repr

section

variable {Key : Type}

def State.setPhase (s : State Key) (thread : Nat) (phase : Phase Key) : State Key :=
  { s with phase := Function.update s.phase thread phase }

/-- `getPublicKey(publicKeys, kid)`; without a `kid` it is the first key. -/
def publicKeyOf (publicKeys : List (String × Key)) : Option String → Option Key
  | none => publicKeys.head?.map Prod.snd
  | some kid => publicKeys.lookup kid

def lastRequestTime : Option (PublicKeysEntry Key) → Int
  | none => 0
  | some entry => entry.lastRequestTime

/-- What `task.get` and the lookup after it give, `none` while the task is not finished. -/
def answerOf (request : Request) : FutureTask Key → Option (Answer Key)
  | .pending => none
  | .failed => some .loadingFailed
  | .finished none => some .nullPointer
  | .finished (some entry) => some (.key (publicKeyOf entry.currentKeys request.kid))

def step (minTimeBetweenRequests : Int) (s : State Key) : Label Key → Option (State Key)
  | .tick seconds => some { s with now := s.now + seconds }
  | .getPublicKey thread request =>
      match s.phase thread with
      | .idle | .done _ _ => some (s.setPhase thread (.looking request))
      | _ => none
  | .getEntry thread =>
      match s.phase thread with
      | .looking request =>
          match s.keys request.modelKey with
          | none => some (s.setPhase thread (.deciding request none))
          | some entry =>
              match publicKeyOf entry.currentKeys request.kid with
              | some publicKey => some (s.setPhase thread (.done request (.key (some publicKey))))
              | none => some (s.setPhase thread (.deciding request (some entry)))
      | _ => none
  | .readClock thread =>
      match s.phase thread with
      | .deciding request entry =>
          if s.now > wrap (lastRequestTime entry + minTimeBetweenRequests) then
            some (s.setPhase thread (.registering request))
          else some (s.setPhase thread (.done request (.key none)))
      | _ => none
  | .putIfAbsent thread =>
      match s.phase thread with
      | .registering request =>
          match s.tasksInProgress request.modelKey with
          | none =>
              some { s.setPhase thread (.running request s.nextTask .started) with
                tasksInProgress :=
                  Function.update s.tasksInProgress request.modelKey (some s.nextTask)
                modelKeys := Function.update s.modelKeys s.nextTask request.modelKey
                nextTask := s.nextTask + 1 }
          | some existing => some (s.setPhase thread (.waiting request existing false))
      | _ => none
  | .getEntryAgain thread =>
      match s.phase thread with
      | .running request task .started =>
          some (s.setPhase thread (.running request task (.read (s.keys request.modelKey))))
      | _ => none
  | .readClockAgain thread =>
      match s.phase thread with
      | .running request task (.read entry) =>
          if s.now > wrap (lastRequestTime entry + minTimeBetweenRequests) then
            some { s.setPhase thread (.running request task (.loading s.now)) with
              events := .load request.modelKey s.now :: s.events }
          else some (s.setPhase thread (.running request task (.returning entry)))
      | _ => none
  | .loadKeys thread publicKeys =>
      match s.phase thread with
      | .running request task (.loading currentTime) =>
          match publicKeys with
          | none => some (s.setPhase thread (.running request task .throwing))
          | some publicKeys =>
              some { s.setPhase thread (.running request task (.loaded ⟨currentTime, publicKeys⟩)) with
                events := .returned request.modelKey publicKeys :: s.events }
      | _ => none
  | .putEntry thread =>
      match s.phase thread with
      | .running request task (.loaded entry) =>
          some { s.setPhase thread (.running request task (.returning (some entry))) with
            keys := Function.update s.keys request.modelKey (some entry)
            events := .put request.modelKey entry :: s.events }
      | _ => none
  | .finishTask thread =>
      match s.phase thread with
      | .running request task (.returning entry) =>
          some { s.setPhase thread (.waiting request task true) with
            tasks := Function.update s.tasks task (.finished entry) }
      | .running request task .throwing =>
          some { s.setPhase thread (.waiting request task true) with
            tasks := Function.update s.tasks task .failed }
      | _ => none
  | .getTask thread =>
      match s.phase thread with
      | .waiting request task own =>
          (answerOf request (s.tasks task)).map fun answer =>
            if own then s.setPhase thread (.cleaning request task answer)
            else s.setPhase thread (.done request answer)
      | _ => none
  | .removeTask thread =>
      match s.phase thread with
      | .cleaning request _ answer =>
          some { s.setPhase thread (.done request answer) with
            tasksInProgress := Function.update s.tasksInProgress request.modelKey none }
      | _ => none
  | .invalidate modelKey =>
      some { s with
        keys := Function.update s.keys modelKey none
        events := .remove modelKey :: s.events }
  | .clearCache => some { s with keys := fun _ => none, events := .clear :: s.events }

def initial (now : Int) : State Key :=
  ⟨now, fun _ => none, fun _ => none, fun _ => .pending, fun _ => "", 0, fun _ => .idle, []⟩

/-! ## One task for a model key -/

/-- The model key whose task a thread has put, with the task, until it has removed it. -/
def Phase.owns : Phase Key → Option (String × Nat)
  | .running request task _ | .waiting request task true | .cleaning request task _ =>
      some (request.modelKey, task)
  | _ => none

def State.owner (s : State Key) (thread : Nat) : Option (String × Nat) := (s.phase thread).owns

variable {minTime : Int} {s t : State Key} {label : Label Key}

theorem setPhase_phase (s : State Key) (thread : Nat) (phase : Phase Key) (other : Nat) :
    (s.setPhase thread phase).phase other = if other = thread then phase else s.phase other :=
  Function.update_apply s.phase thread phase other

theorem setPhase_owner (s : State Key) (thread : Nat) (phase : Phase Key) :
    (s.setPhase thread phase).owner = Function.update s.owner thread phase.owns := by
  funext other
  rw [State.owner, setPhase_phase, Function.update_apply]
  split_ifs
  · rfl
  · rfl

theorem setPhase_owner_of_eq {thread : Nat} {old phase : Phase Key} (hphase : s.phase thread = old)
    (hsame : phase.owns = old.owns) : (s.setPhase thread phase).owner = s.owner := by
  rw [setPhase_owner, hsame, ← hphase]
  exact Function.update_eq_self thread s.owner

theorem step_owners (hstep : step minTime s label = some t) :
    (t.owner = s.owner ∧ t.tasksInProgress = s.tasksInProgress ∧ t.nextTask = s.nextTask) ∨
    (∃ thread request, s.phase thread = .registering request ∧
      s.tasksInProgress request.modelKey = none ∧
      t.owner = Function.update s.owner thread (some (request.modelKey, s.nextTask)) ∧
      t.tasksInProgress =
        Function.update s.tasksInProgress request.modelKey (some s.nextTask) ∧
      t.nextTask = s.nextTask + 1) ∨
    (∃ thread request task answer, s.phase thread = .cleaning request task answer ∧
      t.owner = Function.update s.owner thread none ∧
      t.tasksInProgress = Function.update s.tasksInProgress request.modelKey none ∧
      t.nextTask = s.nextTask) := by
  cases label with
  | tick seconds =>
      cases hstep
      exact .inl ⟨rfl, rfl, rfl⟩
  | getPublicKey thread request =>
      simp only [step] at hstep
      split at hstep <;> cases hstep
      · rename_i hphase
        exact .inl ⟨setPhase_owner_of_eq hphase rfl, rfl, rfl⟩
      · rename_i hphase
        exact .inl ⟨setPhase_owner_of_eq hphase rfl, rfl, rfl⟩
  | getEntry thread =>
      simp only [step] at hstep
      split at hstep
      · rename_i hphase
        split at hstep
        · cases hstep
          exact .inl ⟨setPhase_owner_of_eq hphase rfl, rfl, rfl⟩
        · split at hstep <;> cases hstep
          · exact .inl ⟨setPhase_owner_of_eq hphase rfl, rfl, rfl⟩
          · exact .inl ⟨setPhase_owner_of_eq hphase rfl, rfl, rfl⟩
      · cases hstep
  | readClock thread =>
      simp only [step] at hstep
      split at hstep
      · rename_i hphase
        split at hstep <;> cases hstep
        · exact .inl ⟨setPhase_owner_of_eq hphase rfl, rfl, rfl⟩
        · exact .inl ⟨setPhase_owner_of_eq hphase rfl, rfl, rfl⟩
      · cases hstep
  | putIfAbsent thread =>
      simp only [step] at hstep
      split at hstep
      · rename_i request hphase
        split at hstep <;> cases hstep
        · exact .inr (.inl ⟨thread, request, hphase, ‹_›, setPhase_owner .., rfl, rfl⟩)
        · exact .inl ⟨setPhase_owner_of_eq hphase rfl, rfl, rfl⟩
      · cases hstep
  | getEntryAgain thread =>
      simp only [step] at hstep
      split at hstep <;> cases hstep
      rename_i hphase
      exact .inl ⟨setPhase_owner_of_eq hphase rfl, rfl, rfl⟩
  | readClockAgain thread =>
      simp only [step] at hstep
      split at hstep
      · rename_i hphase
        split at hstep <;> cases hstep
        · exact .inl ⟨setPhase_owner_of_eq hphase rfl, rfl, rfl⟩
        · exact .inl ⟨setPhase_owner_of_eq hphase rfl, rfl, rfl⟩
      · cases hstep
  | loadKeys thread publicKeys =>
      simp only [step] at hstep
      split at hstep
      · rename_i hphase
        split at hstep <;> cases hstep
        · exact .inl ⟨setPhase_owner_of_eq hphase rfl, rfl, rfl⟩
        · exact .inl ⟨setPhase_owner_of_eq hphase rfl, rfl, rfl⟩
      · cases hstep
  | putEntry thread =>
      simp only [step] at hstep
      split at hstep <;> cases hstep
      rename_i hphase
      exact .inl ⟨setPhase_owner_of_eq hphase rfl, rfl, rfl⟩
  | finishTask thread =>
      simp only [step] at hstep
      split at hstep <;> cases hstep
      · rename_i hphase
        exact .inl ⟨setPhase_owner_of_eq hphase rfl, rfl, rfl⟩
      · rename_i hphase
        exact .inl ⟨setPhase_owner_of_eq hphase rfl, rfl, rfl⟩
  | getTask thread =>
      simp only [step] at hstep
      split at hstep
      · rename_i request task own hphase
        obtain ⟨answer, -, rfl⟩ := Option.map_eq_some_iff.mp hstep
        cases own with
        | true => exact .inl ⟨setPhase_owner_of_eq hphase rfl, rfl, rfl⟩
        | false => exact .inl ⟨setPhase_owner_of_eq hphase rfl, rfl, rfl⟩
      · cases hstep
  | removeTask thread =>
      simp only [step] at hstep
      split at hstep <;> cases hstep
      exact .inr (.inr ⟨thread, _, _, _, ‹_›, setPhase_owner .., rfl, rfl⟩)
  | invalidate modelKey =>
      cases hstep
      exact .inl ⟨rfl, rfl, rfl⟩
  | clearCache =>
      cases hstep
      exact .inl ⟨rfl, rfl, rfl⟩

/-- A task in progress belongs to one thread, which has still to remove it. -/
structure Exclusive (s : State Key) : Prop where
  owner : ∀ thread modelKey task, s.owner thread = some (modelKey, task) →
    s.tasksInProgress modelKey = some task ∧ task < s.nextTask
  ownerOnce : ∀ thread other modelKey modelKey' task, s.owner thread = some (modelKey, task) →
    s.owner other = some (modelKey', task) → thread = other
  owned : ∀ modelKey task, s.tasksInProgress modelKey = some task →
    ∃ thread, s.owner thread = some (modelKey, task)

theorem initial_exclusive (now : Int) : Exclusive (initial now : State Key) where
  owner _ _ _ h := by cases h
  ownerOnce _ _ _ _ _ h := by cases h
  owned _ _ h := by cases h

theorem Exclusive.unique (h : Exclusive s) {thread other : Nat} {modelKey : String}
    {task task' : Nat} (hthread : s.owner thread = some (modelKey, task))
    (hother : s.owner other = some (modelKey, task')) : thread = other := by
  have heq := (h.owner thread modelKey task hthread).1.symm.trans
    (h.owner other modelKey task' hother).1
  cases heq
  exact h.ownerOnce thread other modelKey modelKey task hthread hother

theorem step_exclusive (h : Exclusive s) (hstep : step minTime s label = some t) :
    Exclusive t := by
  rcases step_owners hstep with ⟨howner, htasks, hnext⟩ |
    ⟨thread, request, hphase, hfree, howner, htasks, hnext⟩ |
    ⟨thread, request, task, answer, hphase, howner, htasks, hnext⟩
  · exact ⟨by rw [howner, htasks, hnext]; exact h.owner, by rw [howner]; exact h.ownerOnce,
      by rw [howner, htasks]; exact h.owned⟩
  · have hold : s.owner thread = none := by rw [State.owner, hphase]; rfl
    have hcases : ∀ other modelKey task, t.owner other = some (modelKey, task) →
        (other = thread ∧ modelKey = request.modelKey ∧ task = s.nextTask) ∨
          s.owner other = some (modelKey, task) := by
      intro other modelKey task hother
      rw [howner, Function.update_apply] at hother
      split_ifs at hother with heq
      · cases hother
        exact .inl ⟨heq, rfl, rfl⟩
      · exact .inr hother
    refine ⟨fun other modelKey task hother => ?_, fun first second modelKey modelKey' task h₁ h₂ => ?_,
      fun modelKey task htask => ?_⟩
    · rw [htasks, hnext]
      rcases hcases other modelKey task hother with ⟨-, rfl, rfl⟩ | hother
      · exact ⟨Function.update_self .., Nat.lt_succ_self _⟩
      · obtain ⟨htask, hlt⟩ := h.owner other modelKey task hother
        refine ⟨(Function.update_of_ne ?_ _ _).trans htask, Nat.lt_succ_of_lt hlt⟩
        rintro rfl
        rw [hfree] at htask
        cases htask
    · rcases hcases first modelKey task h₁ with ⟨rfl, rfl, rfl⟩ | h₁
      · rcases hcases second modelKey' _ h₂ with ⟨rfl, -, -⟩ | h₂
        · rfl
        · exact absurd (h.owner second modelKey' _ h₂).2 (Nat.lt_irrefl _)
      · rcases hcases second modelKey' task h₂ with ⟨rfl, rfl, rfl⟩ | h₂
        · exact absurd (h.owner first modelKey _ h₁).2 (Nat.lt_irrefl _)
        · exact h.ownerOnce first second modelKey modelKey' task h₁ h₂
    · rw [htasks, Function.update_apply] at htask
      rw [howner]
      split_ifs at htask with heq
      · cases htask
        exact ⟨thread, by rw [Function.update_self, heq]⟩
      · obtain ⟨other, hother⟩ := h.owned modelKey task htask
        refine ⟨other, (Function.update_of_ne ?_ _ _).trans hother⟩
        rintro rfl
        rw [hold] at hother
        cases hother
  · have hmine : s.owner thread = some (request.modelKey, task) := by rw [State.owner, hphase]; rfl
    have hcases : ∀ other modelKey task', t.owner other = some (modelKey, task') →
        other ≠ thread ∧ s.owner other = some (modelKey, task') := by
      intro other modelKey task' hother
      rw [howner, Function.update_apply] at hother
      split_ifs at hother with heq
      exact ⟨heq, hother⟩
    refine ⟨fun other modelKey task' hother => ?_,
      fun first second modelKey modelKey' task' h₁ h₂ => h.ownerOnce first second modelKey modelKey'
        task' (hcases first modelKey task' h₁).2 (hcases second modelKey' task' h₂).2,
      fun modelKey task' htask => ?_⟩
    · obtain ⟨hne, hother⟩ := hcases other modelKey task' hother
      obtain ⟨htask, hlt⟩ := h.owner other modelKey task' hother
      rw [htasks, hnext]
      refine ⟨(Function.update_of_ne ?_ _ _).trans htask, hlt⟩
      rintro rfl
      exact hne (h.unique hother hmine)
    · rw [htasks, Function.update_apply] at htask
      split_ifs at htask with heq
      obtain ⟨other, hother⟩ := h.owned modelKey task' htask
      refine ⟨other, ?_⟩
      rw [howner, Function.update_of_ne]
      · exact hother
      · rintro rfl
        rw [hmine] at hother
        cases hother
        exact heq rfl

/-! ## The time between two loads -/

def lastPut : List (Event Key) → String → Option (PublicKeysEntry Key)
  | [], _ => none
  | .load _ _ :: events, modelKey | .returned _ _ :: events, modelKey => lastPut events modelKey
  | .put modelKey' entry :: events, modelKey =>
      if modelKey' = modelKey then some entry else lastPut events modelKey
  | .remove modelKey' :: events, modelKey =>
      if modelKey' = modelKey then none else lastPut events modelKey
  | .clear :: _, _ => none

def lastLoad : List (Event Key) → String → Option Int
  | [], _ => none
  | .load modelKey' currentTime :: events, modelKey =>
      if modelKey' = modelKey then some currentTime else lastLoad events modelKey
  | _ :: events, modelKey => lastLoad events modelKey

/-- The time of the last load with the keys that it returned, if it has returned. -/
def lastLoaded : List (Event Key) → String → Option (PublicKeysEntry Key)
  | [], _ => none
  | .load modelKey' _ :: events, modelKey =>
      if modelKey' = modelKey then none else lastLoaded events modelKey
  | .returned modelKey' publicKeys :: events, modelKey =>
      if modelKey' = modelKey then (lastLoad events modelKey).map (⟨·, publicKeys⟩)
      else lastLoaded events modelKey
  | _ :: events, modelKey => lastLoaded events modelKey

/-- Of every event with the events before it: a load comes more than `minTime` after the
request time of the present entry, and what is put is what the last load returned. -/
def Spaced (minTime : Int) : List (Event Key) → Prop
  | [] => True
  | event :: events =>
      (match event with
        | .load modelKey currentTime =>
            ∀ entry, lastPut events modelKey = some entry →
              wrap (entry.lastRequestTime + minTime) < currentTime
        | .put modelKey entry => lastLoaded events modelKey = some entry
        | .returned _ _ | .remove _ | .clear => True) ∧ Spaced minTime events

/-- What a thread that runs a task has read is still so, unless the entry was removed. -/
def Backed (events : List (Event Key)) : Phase Key → Prop
  | .running request _ (.read entry) =>
      ∀ present, lastPut events request.modelKey = some present → entry = some present
  | .running request _ (.loading currentTime) =>
      lastLoad events request.modelKey = some currentTime
  | .running request _ (.loaded entry) => lastLoaded events request.modelKey = some entry
  | _ => True

theorem Backed.congr {events events' : List (Event Key)} {phase : Phase Key}
    (h : Backed events phase)
    (hput : ∀ modelKey task, phase.owns = some (modelKey, task) → ∀ present,
      lastPut events' modelKey = some present → lastPut events modelKey = some present)
    (hload : ∀ modelKey task, phase.owns = some (modelKey, task) →
      lastLoad events' modelKey = lastLoad events modelKey ∧
        lastLoaded events' modelKey = lastLoaded events modelKey) : Backed events' phase := by
  cases phase with
  | running request task call =>
      cases call with
      | read entry => exact fun present hpresent => h present (hput _ task rfl present hpresent)
      | loading currentTime => exact (hload _ task rfl).1.trans h
      | loaded entry => exact (hload _ task rfl).2.trans h
      | started => trivial
      | returning entry => trivial
      | throwing => trivial
  | idle => trivial
  | looking request => trivial
  | deciding request entry => trivial
  | registering request => trivial
  | waiting request task own => trivial
  | cleaning request task answer => trivial
  | done request answer => trivial

structure Spacing (minTime : Int) (s : State Key) : Prop where
  keys : ∀ modelKey, s.keys modelKey = lastPut s.events modelKey
  backed : ∀ thread, Backed s.events (s.phase thread)
  spaced : Spaced minTime s.events

theorem initial_spacing (now : Int) : Spacing minTime (initial now : State Key) where
  keys _ := rfl
  backed _ := trivial
  spaced := trivial

theorem Spacing.move {thread : Nat} {phase : Phase Key} (h : Spacing minTime s)
    (hphase : t.phase = Function.update s.phase thread phase) (hkeys : t.keys = s.keys)
    (hevents : t.events = s.events) (hbacked : Backed s.events phase) : Spacing minTime t := by
  refine ⟨by rw [hkeys, hevents]; exact h.keys, fun other => ?_, by rw [hevents]; exact h.spaced⟩
  rw [hphase, hevents, Function.update_apply]
  split_ifs
  · exact hbacked
  · exact h.backed other

theorem Spacing.load {thread task : Nat} {request : Request}
    {entry : Option (PublicKeysEntry Key)} (h : Spacing minTime s) (hexclusive : Exclusive s)
    (hphase : s.phase thread = .running request task (.read entry))
    (htime : s.now > wrap (lastRequestTime entry + minTime)) :
    Spacing minTime { s.setPhase thread (.running request task (.loading s.now)) with
      events := .load request.modelKey s.now :: s.events } := by
  have hmine : s.owner thread = some (request.modelKey, task) := by rw [State.owner, hphase]; rfl
  have hread := h.backed thread
  rw [hphase] at hread
  refine ⟨h.keys, fun other => ?_, fun present hpresent => ?_, h.spaced⟩
  · change Backed _ ((s.setPhase thread _).phase other)
    rw [setPhase_phase]
    split_ifs with heq
    · exact if_pos rfl
    · refine (h.backed other).congr (fun _ _ _ _ hpresent => hpresent) fun modelKey task' howns => ?_
      have hne : request.modelKey ≠ modelKey := by
        rintro rfl
        exact heq (hexclusive.unique howns hmine)
      exact ⟨if_neg hne, if_neg hne⟩
  · rw [hread present hpresent] at htime
    exact htime

theorem Spacing.returned {thread task : Nat} {request : Request} {currentTime : Int}
    {publicKeys : List (String × Key)} (h : Spacing minTime s) (hexclusive : Exclusive s)
    (hphase : s.phase thread = .running request task (.loading currentTime)) :
    Spacing minTime
      { s.setPhase thread (.running request task (.loaded ⟨currentTime, publicKeys⟩)) with
        events := .returned request.modelKey publicKeys :: s.events } := by
  have hmine : s.owner thread = some (request.modelKey, task) := by rw [State.owner, hphase]; rfl
  have hloading : lastLoad s.events request.modelKey = some currentTime := by
    have hbacked := h.backed thread
    rwa [hphase] at hbacked
  refine ⟨h.keys, fun other => ?_, trivial, h.spaced⟩
  change Backed _ ((s.setPhase thread _).phase other)
  rw [setPhase_phase]
  split_ifs with heq
  · change lastLoaded _ _ = _
    rw [lastLoaded, if_pos rfl, hloading, Option.map_some]
  · refine (h.backed other).congr (fun _ _ _ _ hpresent => hpresent) fun modelKey task' howns => ?_
    refine ⟨rfl, if_neg ?_⟩
    rintro rfl
    exact heq (hexclusive.unique howns hmine)

theorem Spacing.put {thread task : Nat} {request : Request} {entry : PublicKeysEntry Key}
    (h : Spacing minTime s) (hexclusive : Exclusive s)
    (hphase : s.phase thread = .running request task (.loaded entry)) :
    Spacing minTime { s.setPhase thread (.running request task (.returning (some entry))) with
      keys := Function.update s.keys request.modelKey (some entry)
      events := .put request.modelKey entry :: s.events } := by
  have hmine : s.owner thread = some (request.modelKey, task) := by rw [State.owner, hphase]; rfl
  have hloaded := h.backed thread
  rw [hphase] at hloaded
  refine ⟨fun modelKey => ?_, fun other => ?_, hloaded, h.spaced⟩
  · change Function.update s.keys request.modelKey _ modelKey = _
    rw [Function.update_apply, lastPut]
    by_cases heq : modelKey = request.modelKey
    · rw [if_pos heq, if_pos heq.symm]
    · rw [if_neg heq, if_neg (Ne.symm heq)]
      exact h.keys modelKey
  · change Backed _ ((s.setPhase thread _).phase other)
    rw [setPhase_phase]
    split_ifs with heq
    · trivial
    · refine (h.backed other).congr (fun modelKey task' howns present hpresent => ?_)
        fun _ _ _ => ⟨rfl, rfl⟩
      rw [lastPut, if_neg] at hpresent
      · exact hpresent
      · rintro rfl
        exact heq (hexclusive.unique howns hmine)

theorem Spacing.remove {event : Event Key} {keys : String → Option (PublicKeysEntry Key)}
    (h : Spacing minTime s) (hkeys : ∀ modelKey, keys modelKey = lastPut (event :: s.events) modelKey)
    (hput : ∀ modelKey present, lastPut (event :: s.events) modelKey = some present →
      lastPut s.events modelKey = some present)
    (hload : ∀ modelKey, lastLoad (event :: s.events) modelKey = lastLoad s.events modelKey ∧
      lastLoaded (event :: s.events) modelKey = lastLoaded s.events modelKey)
    (hspaced : Spaced minTime s.events → Spaced minTime (event :: s.events)) :
    Spacing minTime { s with keys, events := event :: s.events } :=
  ⟨hkeys, fun thread => (h.backed thread).congr (fun modelKey _ _ => hput modelKey)
    fun modelKey _ _ => hload modelKey, hspaced h.spaced⟩

theorem step_spacing (h : Spacing minTime s) (hexclusive : Exclusive s)
    (hstep : step minTime s label = some t) : Spacing minTime t := by
  cases label with
  | tick seconds =>
      cases hstep
      exact ⟨h.keys, h.backed, h.spaced⟩
  | getPublicKey thread request =>
      simp only [step] at hstep
      split at hstep <;> cases hstep
      · exact h.move rfl rfl rfl trivial
      · exact h.move rfl rfl rfl trivial
  | getEntry thread =>
      simp only [step] at hstep
      split at hstep
      · split at hstep
        · cases hstep
          exact h.move rfl rfl rfl trivial
        · split at hstep <;> cases hstep
          · exact h.move rfl rfl rfl trivial
          · exact h.move rfl rfl rfl trivial
      · cases hstep
  | readClock thread =>
      simp only [step] at hstep
      split at hstep
      · split at hstep <;> cases hstep
        · exact h.move rfl rfl rfl trivial
        · exact h.move rfl rfl rfl trivial
      · cases hstep
  | putIfAbsent thread =>
      simp only [step] at hstep
      split at hstep
      · split at hstep <;> cases hstep
        · exact h.move rfl rfl rfl trivial
        · exact h.move rfl rfl rfl trivial
      · cases hstep
  | getEntryAgain thread =>
      simp only [step] at hstep
      split at hstep <;> cases hstep
      exact h.move rfl rfl rfl fun present hpresent => (h.keys _).trans hpresent
  | readClockAgain thread =>
      simp only [step] at hstep
      split at hstep
      · rename_i hphase
        split at hstep <;> cases hstep
        · exact h.load hexclusive hphase ‹_›
        · exact h.move rfl rfl rfl trivial
      · cases hstep
  | loadKeys thread publicKeys =>
      simp only [step] at hstep
      split at hstep
      · rename_i hphase
        split at hstep <;> cases hstep
        · exact h.move rfl rfl rfl trivial
        · exact h.returned hexclusive hphase
      · cases hstep
  | putEntry thread =>
      simp only [step] at hstep
      split at hstep <;> cases hstep
      exact h.put hexclusive ‹_›
  | finishTask thread =>
      simp only [step] at hstep
      split at hstep <;> cases hstep
      · exact h.move rfl rfl rfl trivial
      · exact h.move rfl rfl rfl trivial
  | getTask thread =>
      simp only [step] at hstep
      split at hstep
      · rename_i request task own hphase
        obtain ⟨answer, -, rfl⟩ := Option.map_eq_some_iff.mp hstep
        cases own with
        | true => exact h.move rfl rfl rfl trivial
        | false => exact h.move rfl rfl rfl trivial
      · cases hstep
  | removeTask thread =>
      simp only [step] at hstep
      split at hstep <;> cases hstep
      exact h.move rfl rfl rfl trivial
  | invalidate modelKey =>
      cases hstep
      refine h.remove (fun modelKey' => ?_) (fun modelKey' present hpresent => ?_)
        (fun _ => ⟨rfl, rfl⟩) fun hspaced => ⟨trivial, hspaced⟩
      · rw [Function.update_apply, lastPut]
        by_cases heq : modelKey' = modelKey
        · rw [if_pos heq, if_pos heq.symm]
        · rw [if_neg heq, if_neg (Ne.symm heq)]
          exact h.keys modelKey'
      · rw [lastPut] at hpresent
        split_ifs at hpresent
        exact hpresent
  | clearCache =>
      cases hstep
      exact h.remove (fun _ => rfl) (fun _ _ hpresent => by cases hpresent)
        (fun _ => ⟨rfl, rfl⟩) fun hspaced => ⟨trivial, hspaced⟩

theorem run_spacing {now : Int} {labels : List (Label Key)}
    (hrun : run (step minTime) (initial now) labels = some s) :
    Exclusive s ∧ Spacing minTime s := by
  have hkeep : ∀ (u : State Key) label u', Exclusive u ∧ Spacing minTime u →
      step minTime u label = some u' → Exclusive u' ∧ Spacing minTime u' :=
    fun _ _ _ hinv hstep => ⟨step_exclusive hinv.1 hstep, step_spacing hinv.2 hinv.1 hstep⟩
  exact run_invariant_all hkeep ⟨initial_exclusive now, initial_spacing now⟩ hrun

theorem Spaced.of_append {newer older : List (Event Key)} (h : Spaced minTime (newer ++ older)) :
    Spaced minTime older := by
  induction newer with
  | nil => exact h
  | cons event newer ih => exact ih h.2

/-- In every interleaving: the keys of a model key are loaded by one thread at a time; a load
comes more than `minTime` seconds after the last one whose keys are still in the cache; what is
put is what the last load returned, with its time; and every task in progress has a thread that
will remove it. -/
theorem loads_spaced {now : Int} {labels : List (Label Key)}
    (hrun : run (step minTime) (initial now) labels = some s) :
    (∀ newer older modelKey currentTime, s.events = newer ++ .load modelKey currentTime :: older →
      ∀ entry, lastPut older modelKey = some entry →
        wrap (entry.lastRequestTime + minTime) < currentTime) ∧
    (∀ newer older modelKey entry, s.events = newer ++ .put modelKey entry :: older →
      lastLoaded older modelKey = some entry) ∧
    (∀ first second request request' task task' call call',
      s.phase first = .running request task call → s.phase second = .running request' task' call' →
      request.modelKey = request'.modelKey → first = second) ∧
    ∀ modelKey task, s.tasksInProgress modelKey = some task →
      ∃ thread, s.owner thread = some (modelKey, task) := by
  obtain ⟨hexclusive, hspacing⟩ := run_spacing hrun
  refine ⟨fun newer older modelKey currentTime heq => ?_, fun newer older modelKey entry heq => ?_,
    fun first second request request' task task' call call' h₁ h₂ hsame => ?_, hexclusive.owned⟩
  · exact (heq ▸ hspacing.spaced).of_append.1
  · exact (heq ▸ hspacing.spaced).of_append.1
  · have hfirst : s.owner first = some (request.modelKey, task) := by rw [State.owner, h₁]; rfl
    have hsecond : s.owner second = some (request.modelKey, task') := by
      rw [State.owner, h₂, hsame]
      rfl
    exact hexclusive.unique hfirst hsecond

/-- Thread 1 gets the keys from the task of thread 0; ten seconds later thread 1 asks for a key
that is not there, and the loader is called again for it at the second attempt only. -/
def twoLoads : List (Label Nat) :=
  [.getPublicKey 0 ⟨"m", some "a"⟩, .getPublicKey 1 ⟨"m", some "a"⟩, .getEntry 0, .getEntry 1,
    .readClock 0, .readClock 1, .putIfAbsent 0, .putIfAbsent 1, .getEntryAgain 0, .readClockAgain 0,
    .loadKeys 0 (some [("a", 7)]), .putEntry 0, .finishTask 0, .getTask 1, .getTask 0,
    .removeTask 0, .tick 10, .getPublicKey 1 ⟨"m", some "b"⟩, .getEntry 1, .readClock 1, .tick 1,
    .getPublicKey 1 ⟨"m", some "b"⟩, .getEntry 1, .readClock 1, .putIfAbsent 1, .getEntryAgain 1,
    .readClockAgain 1]

theorem loads_spaced_twoLoads : ∃ s, run (step 10) (initial 100) twoLoads = some s ∧
    s.events = [.load "m" 111, .put "m" ⟨100, [("a", 7)]⟩, .returned "m" [("a", 7)],
      .load "m" 100] ∧
    wrap (100 + 10) < 111 ∧
    lastLoaded [.returned "m" [("a", 7)], .load "m" 100] "m" = some ⟨100, [("a", 7)]⟩ := by
  obtain ⟨s, hs⟩ : ∃ s, run (step 10) (initial 100) twoLoads = some s := ⟨_, rfl⟩
  have hevents : s.events = [.load "m" 111, .put "m" ⟨100, [("a", 7)]⟩, .returned "m" [("a", 7)],
      .load "m" 100] := by
    cases hs
    rfl
  obtain ⟨hloads, hputs, -⟩ := loads_spaced hs
  exact ⟨s, hs, hevents, hloads [] _ "m" 111 hevents ⟨100, [("a", 7)]⟩ rfl,
    hputs [.load "m" 111] _ "m" ⟨100, [("a", 7)]⟩ hevents⟩

end

end Keycloak.Tokens.PublicKeyStorage
