import Keycloak.Lib.LinkedMap
import Keycloak.Lib.Machine
import Mathlib.Data.List.Induction
import Mathlib.Logic.Function.Basic

/-!
# The recording cache transaction

`InfinispanKeycloakTransaction` keeps what is asked of it in one map of tasks, under
keys derived from the cache and the key, and executes the tasks when it commits.  A
later call may change the value of a task in place or put another task under its key.

A cache is named by `getName()` and has `String` keys.  The caches are one map from
pairs of cache name and key, since nothing else changes them while the transaction is
open.
-/

namespace Keycloak.Sessions.KeycloakTransaction

abbrev Caches (V : Type) := String × String → Option V

/-- The tasks, which are also the calls that ask for them.  The first three are a
`CacheTaskWithValue`. -/
inductive CacheTask (V E : Type) where
  | put (cache key : String) (value : V) (lifespan : Option Int)
  | putIfAbsent (cache key : String) (value : V)
  | replace (cache key : String) (value : V)
  | remove (cache key : String)
  | notify (taskKey : String) (event : E) (ignoreSender : Bool)
  deriving DecidableEq, Repr

structure Notification (E : Type) where
  taskKey : String
  event : E
  ignoreSender : Bool
  deriving DecidableEq, Repr

def getTaskKey (cache key : String) : String := cache ++ "::" ++ key

section Code

variable {V E : Type}

namespace CacheTask

def taskKey : CacheTask V E → String
  | .put cache key _ _ => getTaskKey cache key
  | .putIfAbsent cache key _ => getTaskKey cache key
  | .replace cache key _ => getTaskKey cache key
  | .remove cache key => getTaskKey cache key
  | .notify taskKey _ _ => taskKey

def getValue : CacheTask V E → Option V
  | .put _ _ value _ => some value
  | .putIfAbsent _ _ value => some value
  | .replace _ _ value => some value
  | .remove _ _ => none
  | .notify _ _ _ => none

/-- `setValue` where the task is a `CacheTaskWithValue`. -/
def setValue (value : V) : CacheTask V E → CacheTask V E
  | .put cache key _ lifespan => .put cache key value lifespan
  | .putIfAbsent cache key _ => .putIfAbsent cache key value
  | .replace cache key _ => .replace cache key value
  | .remove cache key => .remove cache key
  | .notify taskKey event ignoreSender => .notify taskKey event ignoreSender

def target : CacheTask V E → Option (String × String)
  | .put cache key _ _ => some (cache, key)
  | .putIfAbsent cache key _ => some (cache, key)
  | .replace cache key _ => some (cache, key)
  | .remove cache key => some (cache, key)
  | .notify _ _ _ => none

def notification : CacheTask V E → Option (Notification E)
  | .notify taskKey event ignoreSender => some ⟨taskKey, event, ignoreSender⟩
  | _ => none

/-- Execute a task on the caches and the notifications sent so far.  `none` is the
exception of `putIfAbsent` for a key that is in the cache. -/
def execute : CacheTask V E → Caches V × List (Notification E) →
    Option (Caches V × List (Notification E))
  | .put cache key value _, (caches, sent) =>
      some (Function.update caches (cache, key) (some value), sent)
  | .putIfAbsent cache key value, (caches, sent) =>
      match caches (cache, key) with
      | none => some (Function.update caches (cache, key) (some value), sent)
      | some _ => none
  | .replace cache key value, (caches, sent) =>
      match caches (cache, key) with
      | none => some (caches, sent)
      | some _ => some (Function.update caches (cache, key) (some value), sent)
  | .remove cache key, (caches, sent) =>
      some (Function.update caches (cache, key) none, sent)
  | .notify taskKey event ignoreSender, (caches, sent) =>
      some (caches, sent ++ [⟨taskKey, event, ignoreSender⟩])

end CacheTask

structure Transaction (V E : Type) where
  rollback : Bool
  tasks : List (String × CacheTask V E)
  deriving DecidableEq, Repr

namespace Transaction

def initial : Transaction V E := ⟨false, []⟩

/-- `tasks.put`: an old key keeps its place in the linked map. -/
def putTask (tx : Transaction V E) (taskKey : String) (task : CacheTask V E) :
    Transaction V E :=
  { tx with tasks := LinkedMap.alter taskKey (fun _ => task) tx.tasks }

/-- The three calls that refuse a task key in use. -/
def addTask (tx : Transaction V E) (task : CacheTask V E) : Option (Transaction V E) :=
  match tx.tasks.lookup task.taskKey with
  | some _ => none
  | none => some (tx.putTask task.taskKey task)

/-- One call.  `none` is its `IllegalStateException`.  `notify` looks for a task key that
is not in use, `theTaskKey`, and then puts its task under the one it was given. -/
def call (tx : Transaction V E) : CacheTask V E → Option (Transaction V E)
  | .put cache key value lifespan => tx.addTask (.put cache key value lifespan)
  | .putIfAbsent cache key value => tx.addTask (.putIfAbsent cache key value)
  | .replace cache key value =>
      let taskKey := getTaskKey cache key
      match tx.tasks.lookup taskKey with
      | some current => some (tx.putTask taskKey (current.setValue value))
      | none => some (tx.putTask taskKey (.replace cache key value))
  | .remove cache key => some (tx.putTask (getTaskKey cache key) (.remove cache key))
  | .notify taskKey event ignoreSender =>
      some (tx.putTask taskKey (.notify taskKey event ignoreSender))

def get (tx : Transaction V E) (caches : Caches V) (cache key : String) : Option V :=
  match tx.tasks.lookup (getTaskKey cache key) with
  | some current => current.getValue
  | none => caches (cache, key)

def executeAll : List (String × CacheTask V E) → Caches V × List (Notification E) →
    Option (Caches V × List (Notification E))
  | [], state => some state
  | (_, task) :: rest, state => (task.execute state).bind fun state' => executeAll rest state'

def commit (tx : Transaction V E) (caches : Caches V) :
    Option (Caches V × List (Notification E)) :=
  if tx.rollback then none else executeAll tx.tasks (caches, [])

end Transaction

end Code

/-! ## What the calls leave under a task key -/

section Standing

variable {V E : Type}

/-- `remove` and `notify` put their task whatever stands under the task key. -/
def CacheTask.overwrites : CacheTask V E → Bool
  | .remove _ _ => true
  | .notify _ _ _ => true
  | _ => false

def under (calls : List (CacheTask V E)) (taskKey : String) : List (CacheTask V E) :=
  calls.filter (·.taskKey = taskKey)

/-- The call whose task is executed, among the calls made under one task key: the last
`remove` or `notify`, or else the first call. -/
def owner (calls : List (CacheTask V E)) : Option (CacheTask V E) :=
  (calls.reverse.find? (·.overwrites)).or calls.head?

/-- The value that `get` shows after the calls made under one task key: none after a
`remove` or `notify`, or else the value of the last call. -/
def shown (calls : List (CacheTask V E)) : Option V :=
  if calls.any (·.overwrites) then none else calls.getLast?.bind (·.getValue)

def standing (calls : List (CacheTask V E)) : Option (CacheTask V E) :=
  (owner calls).map fun task =>
    match shown calls with
    | some value => task.setValue value
    | none => task

theorem owner_snoc (calls : List (CacheTask V E)) (call : CacheTask V E) :
    owner (calls ++ [call]) =
      if call.overwrites then some call else (owner calls).or (some call) := by
  cases hcall : call.overwrites with
  | true => simp [owner, hcall]
  | false =>
      cases calls with
      | nil => simp [owner, hcall]
      | cons first rest => simp [owner, hcall]

theorem shown_snoc (calls : List (CacheTask V E)) (call : CacheTask V E) :
    shown (calls ++ [call]) =
      if calls.any (·.overwrites) || call.overwrites then none else call.getValue := by
  simp [shown]

theorem under_snoc (calls : List (CacheTask V E)) (call : CacheTask V E) (taskKey : String) :
    under (calls ++ [call]) taskKey =
      under calls taskKey ++ if call.taskKey = taskKey then [call] else [] := by
  by_cases h : call.taskKey = taskKey <;> simp [under, h]

namespace CacheTask

@[simp] theorem taskKey_setValue (task : CacheTask V E) (value : V) :
    (task.setValue value).taskKey = task.taskKey := by
  cases task <;> rfl

@[simp] theorem target_setValue (task : CacheTask V E) (value : V) :
    (task.setValue value).target = task.target := by
  cases task <;> rfl

@[simp] theorem notification_setValue (task : CacheTask V E) (value : V) :
    (task.setValue value).notification = task.notification := by
  cases task <;> rfl

@[simp] theorem setValue_setValue (task : CacheTask V E) (value value' : V) :
    (task.setValue value).setValue value' = task.setValue value' := by
  cases task <;> rfl

theorem setValue_of_overwrites {task : CacheTask V E} (h : task.overwrites = true) (value : V) :
    task.setValue value = task := by
  cases task <;> first | rfl | cases h

theorem setValue_of_getValue {task : CacheTask V E} {value : V}
    (h : task.getValue = some value) : task.setValue value = task := by
  cases task <;> cases h <;> rfl

theorem getValue_of_overwrites {task : CacheTask V E} (h : task.overwrites = true) :
    task.getValue = none := by
  cases task <;> first | rfl | cases h

theorem getValue_setValue {task : CacheTask V E} (h : task.overwrites = false) (value : V) :
    (task.setValue value).getValue = some value := by
  cases task <;> first | rfl | cases h

theorem exists_getValue {task : CacheTask V E} (h : task.overwrites = false) :
    ∃ value, task.getValue = some value := by
  cases task <;> first | exact ⟨_, rfl⟩ | cases h

theorem notification_of_not_overwrites {task : CacheTask V E} (h : task.overwrites = false) :
    task.notification = none := by
  cases task <;> first | rfl | cases h

end CacheTask

/-- The owner is one of the calls, and it is a `remove` or `notify` if there is one. -/
theorem owner_spec {calls : List (CacheTask V E)} (hne : calls ≠ []) :
    ∃ task ∈ calls, owner calls = some task ∧ task.overwrites = calls.any (·.overwrites) := by
  induction calls using List.reverseRecOn with
  | nil => exact absurd rfl hne
  | append_singleton calls call ih =>
      rw [owner_snoc]
      cases hcall : call.overwrites with
      | true => exact ⟨call, by simp, by simp, by simp [hcall]⟩
      | false =>
          by_cases hnil : calls = []
          · subst hnil
            exact ⟨call, by simp, by simp [owner], by simp [hcall]⟩
          · obtain ⟨task, hmem, howner, hover⟩ := ih hnil
            exact ⟨task, List.mem_append_left _ hmem, by simp [howner], by simp [hover, hcall]⟩

theorem standing_eq_none_iff {calls : List (CacheTask V E)} :
    standing calls = none ↔ calls = [] := by
  constructor
  · intro h
    by_contra hne
    obtain ⟨task, -, howner, -⟩ := owner_spec hne
    simp [standing, howner] at h
  · rintro rfl
    rfl

theorem standing_singleton (call : CacheTask V E) : standing [call] = some call := by
  have howner : owner [call] = some call := by simpa [owner] using owner_snoc [] call
  cases hcall : call.overwrites with
  | true => simp [standing, howner, shown, hcall]
  | false =>
      obtain ⟨value, hvalue⟩ := call.exists_getValue hcall
      simp [standing, howner, shown, hcall, hvalue, CacheTask.setValue_of_getValue hvalue]

theorem standing_snoc_of_overwrites (calls : List (CacheTask V E)) {call : CacheTask V E}
    (hcall : call.overwrites = true) : standing (calls ++ [call]) = some call := by
  simp [standing, owner_snoc, shown_snoc, hcall]

theorem standing_snoc_of_getValue {calls : List (CacheTask V E)} {current call : CacheTask V E}
    {value : V} (hcurrent : standing calls = some current) (hcall : call.overwrites = false)
    (hvalue : call.getValue = some value) :
    standing (calls ++ [call]) = some (current.setValue value) := by
  have hne : calls ≠ [] := by
    rintro rfl
    cases hcurrent
  obtain ⟨task, -, howner, hover⟩ := owner_spec hne
  cases hany : calls.any (·.overwrites) with
  | true =>
      rw [hany] at hover
      have htask : current = task := by simpa [standing, howner, shown, hany] using hcurrent.symm
      subst htask
      simp [standing, owner_snoc, shown_snoc, howner, hany, hcall,
        CacheTask.setValue_of_overwrites hover]
  | false =>
      have htask : current.setValue value = task.setValue value := by
        simp only [standing, howner, Option.map_some, Option.some.injEq] at hcurrent
        rw [← hcurrent]
        cases shown calls <;> simp
      simp [standing, owner_snoc, shown_snoc, howner, hany, hcall, hvalue, htask]

theorem getValue_standing (calls : List (CacheTask V E)) :
    (standing calls).bind (·.getValue) = shown calls := by
  by_cases hne : calls = []
  · subst hne
    rfl
  · obtain ⟨task, -, howner, hover⟩ := owner_spec hne
    cases hany : calls.any (·.overwrites) with
    | true =>
        rw [hany] at hover
        simp [standing, howner, shown, hany, CacheTask.getValue_of_overwrites hover]
    | false =>
        rw [hany] at hover
        have hlast : (calls.getLast hne).overwrites = false := by
          have := List.any_eq_false.mp hany _ (List.getLast_mem hne)
          simpa using this
        obtain ⟨value, hvalue⟩ := CacheTask.exists_getValue hlast
        have hshown : shown calls = some value := by
          simp [shown, hany, List.getLast?_eq_getLast_of_ne_nil hne, hvalue]
        simp [standing, howner, hshown, CacheTask.getValue_setValue hover]

end Standing

/-! ## The record of the calls -/

section Record

variable {V E : Type}

/-- A `replace` call is made only for a key that `get` shows. -/
def ReplacesPresent (caches : Caches V) (tx : Transaction V E) (call : CacheTask V E) : Prop :=
  ∀ cache key value, call = .replace cache key value → tx.get caches cache key ≠ none

structure Records (caches : Caches V) (calls : List (CacheTask V E)) (tx : Transaction V E) :
    Prop where
  rollback : tx.rollback = false
  nodup : (LinkedMap.keys tx.tasks).Nodup
  taskKey : ∀ entry ∈ tx.tasks, entry.2.taskKey = entry.1
  lookup : ∀ taskKey, tx.tasks.lookup taskKey = standing (under calls taskKey)
  replaced : ∀ taskKey cache key value,
    owner (under calls taskKey) = some (.replace cache key value) → caches (cache, key) ≠ none

/-- A call puts its task over whatever stands under the task key, or under a task key
that is free, or it changes the value of the task that stands there. -/
theorem call_cases {tx tx' : Transaction V E} {call : CacheTask V E}
    (hcall : tx.call call = some tx') :
    (call.overwrites = true ∧ tx' = tx.putTask call.taskKey call) ∨
    (call.overwrites = false ∧ tx.tasks.lookup call.taskKey = none ∧
      tx' = tx.putTask call.taskKey call) ∨
    ∃ cache key value current, call = .replace cache key value ∧
      tx.tasks.lookup call.taskKey = some current ∧
      tx' = tx.putTask call.taskKey (current.setValue value) := by
  have hadd : ∀ task : CacheTask V E, tx.addTask task = some tx' →
      tx.tasks.lookup task.taskKey = none ∧ tx' = tx.putTask task.taskKey task := by
    intro task hadd
    unfold Transaction.addTask at hadd
    cases hlookup : tx.tasks.lookup task.taskKey with
    | some current => simp [hlookup] at hadd
    | none => exact ⟨rfl, by simpa [hlookup] using hadd.symm⟩
  cases call with
  | put cache key value lifespan => exact .inr (.inl ⟨rfl, hadd _ hcall⟩)
  | putIfAbsent cache key value => exact .inr (.inl ⟨rfl, hadd _ hcall⟩)
  | replace cache key value =>
      unfold Transaction.call at hcall
      cases hlookup : tx.tasks.lookup (getTaskKey cache key) with
      | none =>
          simp only [hlookup, Option.some.injEq] at hcall
          exact .inr (.inl ⟨rfl, hlookup, hcall.symm⟩)
      | some current =>
          simp only [hlookup, Option.some.injEq] at hcall
          exact .inr (.inr ⟨cache, key, value, current, rfl, hlookup, hcall.symm⟩)
  | remove cache key => exact .inl ⟨rfl, (Option.some.inj hcall).symm⟩
  | notify taskKey event ignoreSender => exact .inl ⟨rfl, (Option.some.inj hcall).symm⟩

theorem initial_records (caches : Caches V) :
    Records caches [] (Transaction.initial : Transaction V E) := by
  constructor <;> simp [Transaction.initial, under, owner, standing]

variable {caches : Caches V} {calls : List (CacheTask V E)} {tx : Transaction V E}

theorem Records.putTask (h : Records caches calls tx) (call : CacheTask V E)
    {task : CacheTask V E} (htask : task.taskKey = call.taskKey)
    (hstanding : standing (under calls call.taskKey ++ [call]) = some task)
    (hreplaced : ∀ cache key value,
      owner (under calls call.taskKey ++ [call]) = some (.replace cache key value) →
      caches (cache, key) ≠ none) :
    Records caches (calls ++ [call]) (tx.putTask call.taskKey task) where
  rollback := h.rollback
  nodup := LinkedMap.nodup_keys_alter h.nodup _
  taskKey := by
    intro entry hentry
    rcases LinkedMap.mem_alter hentry with hold | rfl
    · exact h.taskKey entry hold
    · exact htask
  lookup := by
    intro taskKey
    rw [under_snoc]
    by_cases hkey : call.taskKey = taskKey
    · subst hkey
      simp [Transaction.putTask, hstanding]
    · have hne : taskKey ≠ call.taskKey := fun heq => hkey heq.symm
      simp [Transaction.putTask, LinkedMap.lookup_alter_of_ne hne, hkey, h.lookup]
  replaced := by
    intro taskKey cache key value
    rw [under_snoc]
    by_cases hkey : call.taskKey = taskKey
    · subst hkey
      simpa using hreplaced cache key value
    · simpa [hkey] using h.replaced taskKey cache key value

theorem Records.putFree (h : Records caches calls tx) {call : CacheTask V E}
    (hcall : call.overwrites = false) (hpresent : ReplacesPresent caches tx call)
    (hlookup : tx.tasks.lookup call.taskKey = none) :
    Records caches (calls ++ [call]) (tx.putTask call.taskKey call) := by
  have hunder : under calls call.taskKey = [] := by
    rwa [h.lookup, standing_eq_none_iff] at hlookup
  refine h.putTask call rfl (by rw [hunder]; exact standing_singleton call) ?_
  intro cache key value howner
  rw [hunder, owner_snoc, hcall] at howner
  have hreplace : call = .replace cache key value := Option.some.inj howner
  have hget := hpresent cache key value hreplace
  rw [hreplace, CacheTask.taskKey] at hlookup
  rwa [Transaction.get, hlookup] at hget

theorem Records.overwrite (h : Records caches calls tx) {call : CacheTask V E}
    (hcall : call.overwrites = true) :
    Records caches (calls ++ [call]) (tx.putTask call.taskKey call) := by
  refine h.putTask call rfl (standing_snoc_of_overwrites _ hcall) ?_
  intro cache key value howner
  rw [owner_snoc, if_pos hcall, Option.some.injEq] at howner
  rw [howner] at hcall
  cases hcall

theorem Records.setValue (h : Records caches calls tx) {cache key : String} {value : V}
    {current : CacheTask V E} (hlookup : tx.tasks.lookup (getTaskKey cache key) = some current) :
    Records caches (calls ++ [.replace cache key value])
      (tx.putTask (getTaskKey cache key) (current.setValue value)) := by
  have hkey : current.taskKey = getTaskKey cache key :=
    h.taskKey (getTaskKey cache key, current) (LinkedMap.mem_of_lookup hlookup)
  rw [h.lookup] at hlookup
  refine h.putTask (.replace cache key value) ((current.taskKey_setValue value).trans hkey)
    (standing_snoc_of_getValue hlookup rfl rfl) ?_
  intro cache' key' value' howner
  refine h.replaced (getTaskKey cache key) cache' key' value' ?_
  simp only [CacheTask.taskKey, owner_snoc] at howner
  have hne : under calls (getTaskKey cache key) ≠ [] := by
    intro hnil
    rw [hnil] at hlookup
    cases hlookup
  obtain ⟨task, -, htask, -⟩ := owner_spec hne
  rw [htask] at howner ⊢
  exact howner

theorem call_records {call : CacheTask V E} {tx' : Transaction V E}
    (h : Records caches calls tx) (hpresent : ReplacesPresent caches tx call)
    (hcall : tx.call call = some tx') : Records caches (calls ++ [call]) tx' := by
  rcases call_cases hcall with
    ⟨hover, rfl⟩ | ⟨hover, hlookup, rfl⟩ | ⟨cache, key, value, current, rfl, hlookup, rfl⟩
  · exact h.overwrite hover
  · exact h.putFree hover hpresent hlookup
  · exact h.setValue hlookup

theorem run_records {rest : List (CacheTask V E)} {tx' : Transaction V E}
    (h : Records caches calls tx)
    (hpresent : Machine.Meets Transaction.call (ReplacesPresent caches) tx rest)
    (hrun : Machine.run Transaction.call tx rest = some tx') :
    Records caches (calls ++ rest) tx' := by
  induction rest generalizing calls tx with
  | nil =>
      cases hrun
      rwa [List.append_nil]
  | cons call rest ih =>
      obtain ⟨m, hm, hrest⟩ := Machine.run_cons_eq_some.mp hrun
      have hnext := ih (call_records h hpresent.1 hm) (hpresent.2 m hm) hrest
      rwa [List.append_assoc] at hnext

end Record

/-! ## Executing the tasks -/

section Commit

variable {V E : Type}

def CacheTask.effect (task : CacheTask V E) (old : Option V) : Option V :=
  match task with
  | .replace _ _ value => old.map fun _ => value
  | task => task.getValue

def CacheTask.Refused (task : CacheTask V E) (caches : Caches V) : Prop :=
  ∃ cache key value, task = .putIfAbsent cache key value ∧ caches (cache, key) ≠ none

theorem execute_of_refused {task : CacheTask V E} {caches : Caches V}
    (h : task.Refused caches) (sent : List (Notification E)) :
    task.execute (caches, sent) = none := by
  obtain ⟨cache, key, value, rfl, hpresent⟩ := h
  obtain ⟨old, hold⟩ := Option.ne_none_iff_exists'.mp hpresent
  simp [CacheTask.execute, hold]

/-- A task that is not refused changes its own entry only. -/
theorem execute_of_not_refused {task : CacheTask V E} {caches : Caches V}
    (h : ¬ task.Refused caches) (sent : List (Notification E)) :
    task.execute (caches, sent) = some
      (match task.target with
        | some entry => Function.update caches entry (task.effect (caches entry))
        | none => caches,
      sent ++ task.notification.toList) := by
  cases task with
  | put cache key value lifespan =>
      simp [CacheTask.execute, CacheTask.target, CacheTask.effect, CacheTask.getValue,
        CacheTask.notification]
  | putIfAbsent cache key value =>
      have habsent : caches (cache, key) = none := by
        by_contra hpresent
        exact h ⟨cache, key, value, rfl, hpresent⟩
      simp [CacheTask.execute, habsent, CacheTask.target, CacheTask.effect, CacheTask.getValue,
        CacheTask.notification]
  | replace cache key value =>
      cases hcache : caches (cache, key) with
      | none =>
          have hself : Function.update caches (cache, key) none = caches := by
            rw [← hcache, Function.update_eq_self]
          simp [CacheTask.execute, hcache, CacheTask.target, CacheTask.effect,
            CacheTask.notification, hself]
      | some old =>
          simp [CacheTask.execute, hcache, CacheTask.target, CacheTask.effect,
            CacheTask.notification]
  | remove cache key =>
      simp [CacheTask.execute, CacheTask.target, CacheTask.effect, CacheTask.getValue,
        CacheTask.notification]
  | notify taskKey event ignoreSender =>
      simp [CacheTask.execute, CacheTask.target, CacheTask.notification]

/-- After a task that is not refused, its own entry has the effect of the task, and every
other entry is as it was. -/
theorem execute_frame {task : CacheTask V E} {caches : Caches V} (h : ¬ task.Refused caches)
    (sent : List (Notification E)) :
    ∃ caches', task.execute (caches, sent) = some (caches', sent ++ task.notification.toList) ∧
      (∀ entry, task.target = some entry → caches' entry = task.effect (caches entry)) ∧
      ∀ entry, task.target ≠ some entry → caches' entry = caches entry := by
  refine ⟨_, execute_of_not_refused h sent, ?_, ?_⟩
  · intro entry htarget
    simp [htarget]
  · intro entry hne
    cases htarget : task.target with
    | none => rfl
    | some entry' =>
        have hne' : entry ≠ entry' := fun heq => hne (by rw [htarget, heq])
        exact Function.update_of_ne hne' ..

/-- A task stands under the task key of its entry. -/
theorem taskKey_of_target {task : CacheTask V E} {cache key : String}
    (h : task.target = some (cache, key)) : task.taskKey = getTaskKey cache key := by
  cases task <;> cases h <;> rfl

/-- The entry of a cache key after all tasks, when one task at most works on it. -/
def published (task : Option (CacheTask V E)) (entry : String × String) (old : Option V) :
    Option V :=
  match task with
  | some task => if task.target = some entry then task.effect old else old
  | none => old

theorem refused_congr {task : CacheTask V E} {caches caches' : Caches V}
    (h : ∀ entry, task.target = some entry → caches' entry = caches entry) :
    task.Refused caches' ↔ task.Refused caches := by
  unfold CacheTask.Refused
  constructor
  · rintro ⟨cache, key, value, rfl, hpresent⟩
    exact ⟨cache, key, value, rfl, h (cache, key) rfl ▸ hpresent⟩
  · rintro ⟨cache, key, value, rfl, hpresent⟩
    exact ⟨cache, key, value, rfl, (h (cache, key) rfl).symm ▸ hpresent⟩

theorem published_cons {task : CacheTask V E} {taskKey : String}
    {rest : List (String × CacheTask V E)} {caches caches₁ : Caches V}
    (htaskKey : task.taskKey = taskKey) (hnotMem : ∀ entry ∈ rest, entry.1 ≠ taskKey)
    (hown : ∀ entry, task.target = some entry → caches₁ entry = task.effect (caches entry))
    (hother : ∀ entry, task.target ≠ some entry → caches₁ entry = caches entry)
    (cache key : String) :
    published (rest.lookup (getTaskKey cache key)) (cache, key) (caches₁ (cache, key)) =
      published (((taskKey, task) :: rest).lookup (getTaskKey cache key)) (cache, key)
        (caches (cache, key)) := by
  by_cases hsame : getTaskKey cache key = taskKey
  · have hlookup : rest.lookup (getTaskKey cache key) = none := by
      rw [hsame, List.lookup_eq_none_iff]
      intro entry hentry
      simpa using fun heq => hnotMem entry hentry heq.symm
    rw [hlookup, List.lookup_cons, hsame]
    simp only [beq_self_eq_true, published]
    split
    · rename_i htarget
      exact hown (cache, key) htarget
    · rename_i htarget
      exact hother (cache, key) htarget
  · have hbeq : (getTaskKey cache key == taskKey) = false := by simpa using hsame
    rw [List.lookup_cons, hbeq, hother (cache, key)]
    intro htarget
    rw [taskKey_of_target htarget] at htaskKey
    exact hsame htaskKey

/-- Executing a map of tasks: it fails exactly if a task is refused, every entry gets the
effect of the task under its task key, and the notifications go out in the order of the
map. -/
theorem executeAll_spec (tasks : List (String × CacheTask V E))
    (hnodup : (LinkedMap.keys tasks).Nodup) (hkey : ∀ entry ∈ tasks, entry.2.taskKey = entry.1)
    (caches : Caches V) (sent : List (Notification E)) :
    (Transaction.executeAll tasks (caches, sent) = none ↔
      ∃ entry ∈ tasks, entry.2.Refused caches) ∧
    ∀ caches' sent', Transaction.executeAll tasks (caches, sent) = some (caches', sent') →
      sent' = sent ++ tasks.filterMap (·.2.notification) ∧
      ∀ cache key, caches' (cache, key) =
        published (tasks.lookup (getTaskKey cache key)) (cache, key) (caches (cache, key)) := by
  induction tasks generalizing caches sent with
  | nil =>
      refine ⟨by simp [Transaction.executeAll], ?_⟩
      rintro caches' sent' ⟨⟩
      exact ⟨by simp, fun _ _ => rfl⟩
  | cons entry rest ih =>
      obtain ⟨taskKey, task⟩ := entry
      rw [LinkedMap.keys_cons, List.nodup_cons] at hnodup
      have htaskKey : task.taskKey = taskKey := hkey (taskKey, task) List.mem_cons_self
      have hrestKey : ∀ entry ∈ rest, entry.2.taskKey = entry.1 :=
        fun entry hentry => hkey entry (List.mem_cons_of_mem _ hentry)
      by_cases hrefused : task.Refused caches
      · have hnone : Transaction.executeAll ((taskKey, task) :: rest) (caches, sent) = none := by
          simp [Transaction.executeAll, execute_of_refused hrefused]
        refine ⟨⟨fun _ => ⟨_, List.mem_cons_self, hrefused⟩, fun _ => hnone⟩, ?_⟩
        intro caches' sent' hsome
        rw [hnone] at hsome
        cases hsome
      · -- the state after the first task differs at its own entry only
        obtain ⟨caches₁, hexecute, hown, hother⟩ := execute_frame hrefused sent
        have hstep : Transaction.executeAll ((taskKey, task) :: rest) (caches, sent) =
            Transaction.executeAll rest (caches₁, sent ++ task.notification.toList) := by
          rw [Transaction.executeAll, hexecute, Option.bind_some]
        obtain ⟨ihNone, ihSome⟩ := ih hnodup.2 hrestKey caches₁ (sent ++ task.notification.toList)
        have hnotMem : ∀ entry ∈ rest, entry.1 ≠ taskKey := by
          rintro entry hentry rfl
          exact hnodup.1 (List.mem_map.mpr ⟨entry, hentry, rfl⟩)
        have hcongr : ∀ entry ∈ rest, (entry.2.Refused caches₁ ↔ entry.2.Refused caches) := by
          intro entry hentry
          refine refused_congr fun target htarget => hother target ?_
          intro htask
          have hsame : entry.1 = taskKey := by
            rw [← hrestKey entry hentry, ← htaskKey, taskKey_of_target htarget,
              taskKey_of_target htask]
          exact hnotMem entry hentry hsame
        rw [hstep]
        refine ⟨ihNone.trans ?_, ?_⟩
        · constructor
          · rintro ⟨entry, hentry, href⟩
            exact ⟨entry, List.mem_cons_of_mem _ hentry, (hcongr entry hentry).mp href⟩
          · rintro ⟨entry, hentry, href⟩
            rcases List.mem_cons.mp hentry with rfl | hrest
            · exact absurd href hrefused
            · exact ⟨entry, hrest, (hcongr entry hrest).mpr href⟩
        · intro caches' sent' hsome
          obtain ⟨hsent, hpublished⟩ := ihSome caches' sent' hsome
          refine ⟨?_, ?_⟩
          · rw [hsent]
            cases hnotif : task.notification <;> simp [hnotif]
          · intro cache key
            rw [hpublished cache key]
            exact published_cons htaskKey hnotMem hown hother cache key

end Commit

/-! ## The notifications -/

section Notifications

variable {V E : Type}

/-- A later call puts its task where the notification of an earlier one stood. -/
def Swallows (later earlier : CacheTask V E) : Prop :=
  earlier.notification ≠ none ∧ later.overwrites = true ∧ later.taskKey = earlier.taskKey

/-- A `notify` call that is not swallowed owns its task key. -/
theorem owner_of_notify {calls : List (CacheTask V E)} {call : CacheTask V E}
    (hmem : call ∈ calls) (hnotify : call.notification ≠ none)
    (hsame : ∀ other ∈ calls, other.taskKey = call.taskKey)
    (hpair : calls.Pairwise fun earlier later => ¬ Swallows later earlier) :
    owner calls = some call := by
  induction calls using List.reverseRecOn with
  | nil => cases hmem
  | append_singleton calls last ih =>
      rw [List.pairwise_append] at hpair
      have hover : call.overwrites = true := by
        by_contra hfalse
        exact hnotify (CacheTask.notification_of_not_overwrites (by simpa using hfalse))
      rw [owner_snoc]
      rcases List.mem_append.mp hmem with hcalls | hlast
      · have hnot : last.overwrites = false := by
          by_contra htrue
          refine hpair.2.2 call hcalls last (List.mem_singleton_self last) ⟨hnotify, ?_, ?_⟩
          · simpa using htrue
          · exact hsame last (by simp)
        have hown := ih hcalls (fun other hother => hsame other (List.mem_append_left _ hother))
          hpair.1
        simp [hnot, hown]
      · rw [List.mem_singleton.mp hlast] at hover ⊢
        simp [hover]

/-- The notifications recorded after the calls: all of them as long as none is swallowed,
and fewer ever after. -/
structure Announces (calls : List (CacheTask V E)) (tx : Transaction V E) : Prop where
  kept : calls.Pairwise (fun earlier later => ¬ Swallows later earlier) →
    (tx.tasks.filterMap (·.2.notification)).Perm (calls.filterMap (·.notification))
  lost : ¬ calls.Pairwise (fun earlier later => ¬ Swallows later earlier) →
    (tx.tasks.filterMap (·.2.notification)).length < (calls.filterMap (·.notification)).length

theorem Announces.length_le {calls : List (CacheTask V E)} {tx : Transaction V E}
    (h : Announces calls tx) :
    (tx.tasks.filterMap (·.2.notification)).length ≤
      (calls.filterMap (·.notification)).length := by
  by_cases hpair : calls.Pairwise (fun earlier later => ¬ Swallows later earlier)
  · exact Nat.le_of_eq (h.kept hpair).length_eq
  · exact Nat.le_of_lt (h.lost hpair)

variable {calls : List (CacheTask V E)} {tx : Transaction V E} {caches : Caches V}

theorem pairwise_snoc {call : CacheTask V E} :
    (calls ++ [call]).Pairwise (fun earlier later => ¬ Swallows later earlier) ↔
      calls.Pairwise (fun earlier later => ¬ Swallows later earlier) ∧
      ∀ earlier ∈ calls, ¬ Swallows call earlier := by
  simp [List.pairwise_append]

/-- A call that swallows nothing and whose own notification is added to the record. -/
theorem Announces.append {call : CacheTask V E} {tx' : Transaction V E} (h : Announces calls tx)
    (hnone : calls.Pairwise (fun earlier later => ¬ Swallows later earlier) →
      ∀ earlier ∈ calls, ¬ Swallows call earlier)
    (hperm : (tx'.tasks.filterMap (·.2.notification)).Perm
      (tx.tasks.filterMap (·.2.notification) ++ call.notification.toList)) :
    Announces (calls ++ [call]) tx' := by
  have hcalls : (calls ++ [call]).filterMap (·.notification) =
      calls.filterMap (·.notification) ++ call.notification.toList := by
    cases hnotif : call.notification <;> simp [hnotif]
  refine ⟨?_, ?_⟩
  · intro hpair
    rw [hcalls]
    exact hperm.trans ((h.kept (pairwise_snoc.mp hpair).1).append_right _)
  · intro hpair
    have hlost := h.lost fun hbefore => hpair (pairwise_snoc.mpr ⟨hbefore, hnone hbefore⟩)
    rw [hcalls, hperm.length_eq, List.length_append, List.length_append]
    omega

/-- A task put under a free key, or over a task that is not a notification. -/
theorem perm_putTask {taskKey : String} {task : CacheTask V E}
    (h : ∀ current, tx.tasks.lookup taskKey = some current → current.notification = none) :
    ((tx.putTask taskKey task).tasks.filterMap (·.2.notification)).Perm
      (tx.tasks.filterMap (·.2.notification) ++ task.notification.toList) := by
  unfold Transaction.putTask
  cases hlookup : tx.tasks.lookup taskKey with
  | none =>
      rw [LinkedMap.alter_of_not_mem (LinkedMap.not_mem_keys_of_lookup hlookup)]
      cases hnotif : task.notification <;> simp [hnotif]
  | some current =>
      obtain ⟨before, after, htasks, halter⟩ := LinkedMap.alter_of_lookup hlookup
      rw [halter, htasks]
      cases hnotif : task.notification with
      | none => simp [h current hlookup, hnotif]
      | some notification =>
          simp only [List.filterMap_append, List.filterMap_cons, h current hlookup, hnotif,
            Option.toList_some, List.append_assoc]
          exact (List.perm_append_singleton notification _).symm.append_left _

/-- The task that stands is the one its owner asked for, perhaps with another value. -/
theorem standing_owner {calls : List (CacheTask V E)} {current : CacheTask V E}
    (h : standing calls = some current) :
    ∃ task ∈ calls, owner calls = some task ∧
      (current = task ∨ ∃ value, current = task.setValue value) := by
  have hne : calls ≠ [] := by
    rintro rfl
    cases h
  obtain ⟨task, hmem, howner, -⟩ := owner_spec hne
  refine ⟨task, hmem, howner, ?_⟩
  simp only [standing, howner, Option.map_some, Option.some.injEq] at h
  cases hshown : shown calls with
  | none => exact .inl (by simpa [hshown] using h.symm)
  | some value => exact .inr ⟨value, by simpa [hshown] using h.symm⟩

theorem notification_eq {current task : CacheTask V E}
    (h : current = task ∨ ∃ value, current = task.setValue value) :
    current.notification = task.notification := by
  rcases h with rfl | ⟨value, rfl⟩ <;> simp

theorem target_eq {current task : CacheTask V E}
    (h : current = task ∨ ∃ value, current = task.setValue value) :
    current.target = task.target := by
  rcases h with rfl | ⟨value, rfl⟩ <;> simp

theorem mem_under {calls : List (CacheTask V E)} {taskKey : String} {call : CacheTask V E} :
    call ∈ under calls taskKey ↔ call ∈ calls ∧ call.taskKey = taskKey := by
  simp [under]

/-- Over a task that is no notification, a call swallows only what was swallowed before. -/
theorem Records.not_swallows (h : Records caches calls tx) {call : CacheTask V E}
    (hfree : ∀ current, tx.tasks.lookup call.taskKey = some current →
      current.notification = none)
    (hpair : calls.Pairwise fun earlier later => ¬ Swallows later earlier) :
    ∀ earlier ∈ calls, ¬ Swallows call earlier := by
  rintro earlier hmem ⟨hnotify, -, hkey⟩
  have hunder : earlier ∈ under calls call.taskKey := mem_under.mpr ⟨hmem, hkey.symm⟩
  have howner : owner (under calls call.taskKey) = some earlier := by
    refine owner_of_notify hunder hnotify ?_ (hpair.filter _)
    intro other hother
    exact (mem_under.mp hother).2.trans hkey
  cases hstanding : standing (under calls call.taskKey) with
  | none =>
      rw [standing_eq_none_iff] at hstanding
      rw [hstanding] at hunder
      cases hunder
  | some current =>
      obtain ⟨task, -, htask, hsame⟩ := standing_owner hstanding
      rw [howner, Option.some.injEq] at htask
      subst htask
      exact hnotify ((notification_eq hsame).symm.trans
        (hfree current ((h.lookup _).trans hstanding)))

theorem Announces.overwrite {call : CacheTask V E} (h : Announces calls tx)
    (hrec : Records caches calls tx) (hcall : call.overwrites = true) :
    Announces (calls ++ [call]) (tx.putTask call.taskKey call) := by
  by_cases hfree : ∀ current, tx.tasks.lookup call.taskKey = some current →
      current.notification = none
  · exact h.append (hrec.not_swallows hfree) (perm_putTask hfree)
  · push Not at hfree
    obtain ⟨current, hlookup, hnotify⟩ := hfree
    obtain ⟨task, hmem, -, hsame⟩ :=
      standing_owner ((hrec.lookup call.taskKey).symm.trans hlookup)
    have hswallows : Swallows call task :=
      ⟨notification_eq hsame ▸ hnotify, hcall, (mem_under.mp hmem).2.symm⟩
    refine ⟨fun hpair => ?_, fun _ => ?_⟩
    · exact absurd hswallows ((pairwise_snoc.mp hpair).2 task (mem_under.mp hmem).1)
    · -- the place of the old notification is taken
      obtain ⟨before, after, htasks, halter⟩ := LinkedMap.alter_of_lookup hlookup
      have hle := h.length_le
      obtain ⟨notification, hnotification⟩ := Option.ne_none_iff_exists'.mp hnotify
      rw [htasks] at hle
      unfold Transaction.putTask
      rw [halter]
      cases hnotif : call.notification <;>
        simp [hnotification, hnotif] at hle ⊢ <;> omega

/-- A call that does not overwrite swallows nothing. -/
theorem Announces.putFree (h : Announces calls tx) {call : CacheTask V E}
    (hcall : call.overwrites = false) (hlookup : tx.tasks.lookup call.taskKey = none) :
    Announces (calls ++ [call]) (tx.putTask call.taskKey call) := by
  refine h.append ?_ (perm_putTask fun current hcurrent => ?_)
  · rintro - earlier - ⟨-, htrue, -⟩
    rw [hcall] at htrue
    cases htrue
  · rw [hlookup] at hcurrent
    cases hcurrent

theorem Announces.setValue (h : Announces calls tx) {cache key : String} {value : V}
    {current : CacheTask V E} (hlookup : tx.tasks.lookup (getTaskKey cache key) = some current) :
    Announces (calls ++ [.replace cache key value])
      (tx.putTask (getTaskKey cache key) (current.setValue value)) := by
  refine h.append (fun _ earlier _ hswallows => by cases hswallows.2.1) ?_
  by_cases hnotify : current.notification = none
  · have hperm : ((tx.putTask (getTaskKey cache key)
        (current.setValue value)).tasks.filterMap (·.2.notification)).Perm
        (tx.tasks.filterMap (·.2.notification) ++
          (current.setValue value).notification.toList) :=
      perm_putTask (by simp [hlookup, hnotify])
    rw [CacheTask.notification_setValue, hnotify] at hperm
    exact hperm
  · have hover : current.overwrites = true := by
      by_contra hfalse
      exact hnotify (CacheTask.notification_of_not_overwrites (by simpa using hfalse))
    have hself : LinkedMap.alter (getTaskKey cache key)
        (fun _ => current.setValue value) tx.tasks = tx.tasks :=
      LinkedMap.alter_eq_self hlookup (CacheTask.setValue_of_overwrites hover value)
    simp only [Transaction.putTask, hself]
    exact .of_eq (List.append_nil _).symm

theorem call_announces {call : CacheTask V E} {tx' : Transaction V E} (h : Announces calls tx)
    (hrec : Records caches calls tx) (hcall : tx.call call = some tx') :
    Announces (calls ++ [call]) tx' := by
  rcases call_cases hcall with
    ⟨hover, rfl⟩ | ⟨hover, hlookup, rfl⟩ | ⟨cache, key, value, current, rfl, hlookup, rfl⟩
  · exact h.overwrite hrec hover
  · exact h.putFree hover hlookup
  · exact h.setValue hlookup

theorem run_announces {rest : List (CacheTask V E)} {tx' : Transaction V E}
    (h : Announces calls tx) (hrec : Records caches calls tx)
    (hpresent : Machine.Meets Transaction.call (ReplacesPresent caches) tx rest)
    (hrun : Machine.run Transaction.call tx rest = some tx') :
    Announces (calls ++ rest) tx' := by
  induction rest generalizing calls tx with
  | nil =>
      cases hrun
      rwa [List.append_nil]
  | cons call rest ih =>
      obtain ⟨m, hm, hrest⟩ := Machine.run_cons_eq_some.mp hrun
      have hnext := ih (call_announces h hrec hm) (call_records hrec hpresent.1 hm)
        (hpresent.2 m hm) hrest
      rwa [List.append_assoc] at hnext

end Notifications

/-! ## Committing -/

section Publish

variable {V E : Type} {caches : Caches V} {calls : List (CacheTask V E)} {tx : Transaction V E}

theorem get_eq_shown (h : Records caches calls tx) {cache key : String}
    (hne : under calls (getTaskKey cache key) ≠ []) :
    tx.get caches cache key = shown (under calls (getTaskKey cache key)) := by
  rw [← getValue_standing]
  unfold Transaction.get
  cases hstanding : standing (under calls (getTaskKey cache key)) with
  | none => exact absurd (standing_eq_none_iff.mp hstanding) hne
  | some current => rw [h.lookup, hstanding, Option.bind_some]

/-- The effect of the task that stands under an entry of its own is the value shown. -/
theorem effect_standing (h : Records caches calls tx) {entry : String × String}
    {taskKey : String} {current : CacheTask V E}
    (hstanding : standing (under calls taskKey) = some current)
    (htarget : current.target = some entry) :
    current.effect (caches entry) = current.getValue := by
  cases current with
  | replace cache key value =>
      cases htarget
      obtain ⟨task, -, howner, hsame⟩ := standing_owner hstanding
      have htask : ∃ value', task = .replace cache key value' := by
        rcases hsame with rfl | ⟨value', hvalue'⟩
        · exact ⟨value, rfl⟩
        · cases task <;> cases hvalue'
          exact ⟨_, rfl⟩
      obtain ⟨value', rfl⟩ := htask
      obtain ⟨old, hold⟩ := Option.ne_none_iff_exists'.mp
        (h.replaced taskKey cache key value' howner)
      simp [CacheTask.effect, CacheTask.getValue, hold]
  | _ => rfl

/-- An entry is published as `get` shows it exactly if the owner of its task key is a call
for the entry, or the value shown is the one the cache holds anyway. -/
theorem published_iff (h : Records caches calls tx) (cache key : String) :
    published (tx.tasks.lookup (getTaskKey cache key)) (cache, key) (caches (cache, key)) =
        tx.get caches cache key ↔
      ∀ call, owner (under calls (getTaskKey cache key)) = some call →
        call.target = some (cache, key) ∨
          shown (under calls (getTaskKey cache key)) = caches (cache, key) := by
  cases hstanding : standing (under calls (getTaskKey cache key)) with
  | none =>
      have howner : owner (under calls (getTaskKey cache key)) = none := by
        rw [standing_eq_none_iff.mp hstanding]
        rfl
      simp [Transaction.get, h.lookup, hstanding, published, howner]
  | some current =>
      have hne : under calls (getTaskKey cache key) ≠ [] := by
        intro hnil
        rw [hnil] at hstanding
        cases hstanding
      obtain ⟨task, -, howner, hsame⟩ := standing_owner hstanding
      rw [get_eq_shown h hne, h.lookup, hstanding]
      simp only [published, howner, Option.some.injEq, forall_eq', ← target_eq hsame]
      by_cases hown : current.target = some (cache, key)
      · have hvalue := getValue_standing (under calls (getTaskKey cache key))
        rw [hstanding, Option.bind_some] at hvalue
        simp [hown, effect_standing h hstanding hown, hvalue]
      · simp [hown, eq_comm]

theorem refused_iff (h : Records caches calls tx) :
    (∃ entry ∈ tx.tasks, entry.2.Refused caches) ↔
      ∃ cache key value, owner (under calls (getTaskKey cache key)) =
        some (.putIfAbsent cache key value) ∧ caches (cache, key) ≠ none := by
  constructor
  · rintro ⟨⟨taskKey, task⟩, hentry, cache, key, value, rfl, hpresent⟩
    have hkey : getTaskKey cache key = taskKey := h.taskKey _ hentry
    subst hkey
    have hstanding := (h.lookup _).symm.trans (LinkedMap.lookup_of_mem h.nodup hentry)
    obtain ⟨task, -, howner, hsame⟩ := standing_owner hstanding
    have htask : ∃ value', task = .putIfAbsent cache key value' := by
      rcases hsame with rfl | ⟨value', hvalue'⟩
      · exact ⟨value, rfl⟩
      · cases task <;> cases hvalue'
        exact ⟨_, rfl⟩
    obtain ⟨value', rfl⟩ := htask
    exact ⟨cache, key, value', howner, hpresent⟩
  · rintro ⟨cache, key, value, howner, hpresent⟩
    cases hstanding : standing (under calls (getTaskKey cache key)) with
    | none =>
        rw [standing_eq_none_iff.mp hstanding] at howner
        cases howner
    | some current =>
        obtain ⟨task, -, htask, hsame⟩ := standing_owner hstanding
        rw [howner, Option.some.injEq] at htask
        subst htask
        have hmem := LinkedMap.mem_of_lookup ((h.lookup _).trans hstanding)
        rcases hsame with rfl | ⟨value', rfl⟩
        · exact ⟨_, hmem, cache, key, value, rfl, hpresent⟩
        · exact ⟨_, hmem, cache, key, value', rfl, hpresent⟩

/-- For every sequence of calls that raises no exception, with `replace` only for keys that
`get` shows.  The commit throws exactly if the task of a `putIfAbsent` call stands for a
key that is in the cache.  Otherwise it publishes every entry as `get` showed it, and sends
every notification once for each call, exactly if no notification is swallowed by a later
`notify` or `remove` under its task key, and every entry under whose task key a call was
made has a call for itself as owner of the task key, or is shown as it was. -/
theorem commit_publishes_iff (caches : Caches V) (calls : List (CacheTask V E))
    (tx : Transaction V E)
    (hpresent : Machine.Meets Transaction.call (ReplacesPresent caches) .initial calls)
    (hrun : Machine.run Transaction.call .initial calls = some tx) :
    (tx.commit caches = none ↔
      ∃ cache key value, owner (under calls (getTaskKey cache key)) =
        some (.putIfAbsent cache key value) ∧ caches (cache, key) ≠ none) ∧
    ∀ caches' sent, tx.commit caches = some (caches', sent) →
      ((∀ cache key, caches' (cache, key) = tx.get caches cache key) ∧
          sent.Perm (calls.filterMap (·.notification)) ↔
        (calls.Pairwise fun earlier later => ¬ Swallows later earlier) ∧
        ∀ cache key call, owner (under calls (getTaskKey cache key)) = some call →
          call.target = some (cache, key) ∨
            shown (under calls (getTaskKey cache key)) = caches (cache, key)) := by
  have hrec : Records caches calls tx := by
    simpa using run_records (initial_records caches) hpresent hrun
  have hstart : Announces [] (Transaction.initial : Transaction V E) :=
    ⟨fun _ => .refl _, fun h => absurd .nil h⟩
  have hann : Announces calls tx := by
    simpa using run_announces hstart (initial_records caches) hpresent hrun
  have hcommit : tx.commit caches = Transaction.executeAll tx.tasks (caches, []) := by
    simp [Transaction.commit, hrec.rollback]
  obtain ⟨hnone, hsome⟩ := executeAll_spec tx.tasks hrec.nodup hrec.taskKey caches []
  rw [hcommit]
  refine ⟨hnone.trans (refused_iff hrec), ?_⟩
  intro caches' sent hresult
  obtain ⟨hsent, hentries⟩ := hsome caches' sent hresult
  have hnotified : sent.Perm (calls.filterMap (·.notification)) ↔
      calls.Pairwise fun earlier later => ¬ Swallows later earlier := by
    rw [hsent, List.nil_append]
    refine ⟨fun hperm => ?_, hann.kept⟩
    by_contra hpair
    have hlost := hann.lost hpair
    rw [hperm.length_eq] at hlost
    omega
  have hshown : (∀ cache key, caches' (cache, key) = tx.get caches cache key) ↔
      ∀ cache key call, owner (under calls (getTaskKey cache key)) = some call →
        call.target = some (cache, key) ∨
          shown (under calls (getTaskKey cache key)) = caches (cache, key) := by
    refine forall_congr' fun cache => forall_congr' fun key => ?_
    rw [hentries]
    exact published_iff hrec cache key
  rw [hnotified, hshown, and_comm]

end Publish

/-- An entry created and changed, and one notification. -/
def createdAndAnnounced : List (CacheTask Nat Nat) :=
  [.put "a" "b" 2 none, .replace "a" "b" 3, .notify "realm" 7 false]

theorem getTaskKey_eq_a_b {cache key : String} (h : getTaskKey cache key = "a::b") :
    (cache, key) = ("a", "b") := by
  have hlist : cache.toList ++ ':' :: ':' :: key.toList = ['a', ':', ':', 'b'] := by
    have := congrArg String.toList h
    simpa [getTaskKey] using this
  obtain ⟨hcache, hkey⟩ : cache.toList = ['a'] ∧ key.toList = ['b'] := by
    rcases hc : cache.toList with _ | ⟨x, _ | ⟨y, _ | ⟨z, rest⟩⟩⟩
    · simp [hc] at hlist
    · simpa [hc] using hlist
    · simp [hc] at hlist
    · have := congrArg List.length hlist
      simp [hc] at this
      omega
  rw [Prod.mk.injEq, ← String.toList_inj, ← String.toList_inj, hcache, hkey]
  exact ⟨rfl, rfl⟩

theorem createdAndAnnounced_published :
    ∃ tx caches' sent,
      Machine.run Transaction.call .initial createdAndAnnounced = some tx ∧
      tx.commit (fun _ => none) = some (caches', sent) ∧
      (∀ cache key, caches' (cache, key) = tx.get (fun _ => none) cache key) ∧
      sent.Perm (createdAndAnnounced.filterMap (·.notification)) := by
  have hrun : Machine.run Transaction.call .initial createdAndAnnounced =
      some ⟨false, [("a::b", .put "a" "b" 3 none), ("realm", .notify "realm" 7 false)]⟩ := by
    decide
  have hpresent : Machine.Meets Transaction.call (ReplacesPresent fun _ => none) .initial
      createdAndAnnounced := by
    refine .cons ?_ rfl (.cons ?_ rfl (.cons ?_ rfl trivial))
    · intro cache key value h
      cases h
    · intro cache key value h
      cases h
      decide
    · intro cache key value h
      cases h
  obtain ⟨-, hiff⟩ := commit_publishes_iff (fun _ => none) createdAndAnnounced _ hpresent hrun
  refine ⟨_, _, _, hrun, rfl, (hiff _ _ rfl).mpr ⟨?_, ?_⟩⟩
  · simp [createdAndAnnounced, Swallows, CacheTask.notification]
  · intro cache key call howner
    by_cases hkey : getTaskKey cache key = "a::b"
    · obtain ⟨rfl, rfl⟩ := Prod.mk.inj (getTaskKey_eq_a_b hkey)
      have hput : owner (under createdAndAnnounced (getTaskKey "a" "b")) =
          some (.put "a" "b" 2 none) := by decide
      rw [hput, Option.some.injEq] at howner
      exact .inl (howner ▸ rfl)
    · right
      have hnot : ¬ getTaskKey "a" "b" = getTaskKey cache key := fun h => hkey h.symm
      by_cases hrealm : "realm" = getTaskKey cache key <;>
        simp [createdAndAnnounced, under, CacheTask.taskKey, hnot, hrealm, shown,
          CacheTask.overwrites]

def notifiedTwice : List (CacheTask Nat Nat) :=
  [.notify "realm" 1 false, .notify "realm" 2 false]

def collidingKeys : List (CacheTask Nat Nat) := [.put "a" "b::c" 1 none]

/-- Two notifications of one task key, and two entries with one task key. -/
theorem notifiedTwice_lost :
    (∃ tx caches' sent,
      Machine.run Transaction.call .initial notifiedTwice = some tx ∧
      tx.commit (fun _ => none) = some (caches', sent) ∧
      ¬ sent.Perm (notifiedTwice.filterMap (·.notification))) ∧
    ∃ tx caches' sent,
      Machine.run Transaction.call .initial collidingKeys = some tx ∧
      tx.commit (fun _ => none) = some (caches', sent) ∧
      caches' ("a::b", "c") ≠ tx.get (fun _ => none) "a::b" "c" := by
  refine ⟨⟨_, _, _, rfl, rfl, ?_⟩, _, _, _, rfl, rfl, ?_⟩
  · decide
  · decide

end Keycloak.Sessions.KeycloakTransaction
