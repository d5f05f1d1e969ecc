import Mathlib.Data.List.AList

/-!
# Session changelog transactions

`InfinispanChangelogBasedTransaction` queues update tasks per cache key, runs them on
the transaction's own copy of the entity at once, and at commit folds each queue into
one `MergedUpdate` that is applied to the cache.

The cache is a map from keys to versioned entities.  The UUID that
`SessionEntityWrapper` draws for a new version is modelled by a counter, so that a
drawn version is never drawn again.  Entry lifespans and the message to the other
data center are not part of the local cache's contents and are left out.
-/

namespace Keycloak.Sessions

/-- What the session cache needs of an entity class: its `equals`, which the entity
classes define on their ids, and its `toString`. -/
class SessionEntity (S : Type) where
  equals : S → S → Bool
  toText : S → String

/-! ## Update tasks -/

inductive CacheOperation where
  | add
  | addIfAbsent
  | remove
  | replace
  deriving DecidableEq, Repr

inductive CrossDCMessageStatus where
  | sync
  | notNeeded
  deriving DecidableEq, Repr

/-- `CacheOperation.merge`; the error is the text of its `IllegalStateException`. -/
def CacheOperation.merge {S : Type} [SessionEntity S] (this other : CacheOperation)
    (entity : S) : Except String CacheOperation :=
  if this = .remove ∨ other = .remove then .ok .remove
  else if this = .add ∨ this = .addIfAbsent then
    if other = .add ∨ other = .addIfAbsent then
      .error ("Illegal state. Task already in progress for session " ++
        SessionEntity.toText entity)
    else .ok this
  else .ok .replace

def CrossDCMessageStatus.merge (this other : CrossDCMessageStatus) : CrossDCMessageStatus :=
  if this = .sync ∨ other = .sync then .sync else .notNeeded

/-- `SessionEntityWrapper`, without the local metadata that no operation below reads. -/
structure SessionEntityWrapper (S : Type) where
  version : Nat
  entity : S
  deriving DecidableEq

def SessionEntityWrapper.equals {S : Type} [SessionEntity S]
    (this that : SessionEntityWrapper S) : Bool :=
  this.version == that.version && SessionEntity.equals this.entity that.entity

structure SessionUpdateTask (S : Type) where
  runUpdate : S → S
  getOperation : S → CacheOperation
  getCrossDCMessageStatus : SessionEntityWrapper S → CrossDCMessageStatus

structure MergedUpdate (S : Type) where
  childUpdates : List (SessionUpdateTask S)
  operation : CacheOperation
  crossDCMessageStatus : CrossDCMessageStatus

section

variable {S : Type}

def runTasks (tasks : List (SessionUpdateTask S)) (session : S) : S :=
  tasks.foldl (fun s child => child.runUpdate s) session

@[simp] theorem runTasks_nil (session : S) : runTasks [] session = session := rfl

def MergedUpdate.runUpdate (merged : MergedUpdate S) (session : S) : S :=
  runTasks merged.childUpdates session

def MergedUpdate.ofChild (child : SessionUpdateTask S)
    (sessionWrapper : SessionEntityWrapper S) : MergedUpdate S :=
  ⟨[child], child.getOperation sessionWrapper.entity,
    child.getCrossDCMessageStatus sessionWrapper⟩

variable [SessionEntity S]

/-- The loop of `MergedUpdate.computeUpdate` after its first child.  A merge that
gives `REMOVE` rebuilds the result from the current child and leaves the loop. -/
def MergedUpdate.computeLoop (sessionWrapper : SessionEntityWrapper S) :
    MergedUpdate S → List (SessionUpdateTask S) → Except String (MergedUpdate S)
  | result, [] => .ok result
  | result, child :: rest =>
      match result.operation.merge (child.getOperation sessionWrapper.entity)
          sessionWrapper.entity with
      | .error e => .error e
      | .ok mergedOp =>
          if mergedOp = .remove then .ok (MergedUpdate.ofChild child sessionWrapper)
          else
            computeLoop sessionWrapper
              { childUpdates := result.childUpdates ++ [child]
                operation := mergedOp
                crossDCMessageStatus :=
                  if result.crossDCMessageStatus ≠ .sync then
                    result.crossDCMessageStatus.merge
                      (child.getCrossDCMessageStatus sessionWrapper)
                  else result.crossDCMessageStatus } rest

/-- `MergedUpdate.computeUpdate`; an empty queue has no merged update. -/
def MergedUpdate.computeUpdate (childUpdates : List (SessionUpdateTask S))
    (sessionWrapper : SessionEntityWrapper S) : Except String (Option (MergedUpdate S)) :=
  match childUpdates with
  | [] => .ok none
  | child :: rest =>
      match MergedUpdate.computeLoop sessionWrapper
          (MergedUpdate.ofChild child sessionWrapper) rest with
      | .error e => .error e
      | .ok merged => .ok (some merged)

/-! ### The operation of a merged update -/

@[simp] theorem merge_remove_left (other : CacheOperation) (entity : S) :
    CacheOperation.merge .remove other entity = .ok .remove := by
  simp [CacheOperation.merge]

@[simp] theorem merge_remove_right (this : CacheOperation) (entity : S) :
    this.merge .remove entity = .ok .remove := by
  simp [CacheOperation.merge]

/-- Without a `REMOVE` on either side the merge is not `REMOVE`. -/
theorem merge_ne_remove {this other mergedOp : CacheOperation} {entity : S}
    (hthis : this ≠ .remove) (hother : other ≠ .remove)
    (h : this.merge other entity = .ok mergedOp) : mergedOp ≠ .remove := by
  revert h
  cases this <;> cases other <;> simp_all [CacheOperation.merge] <;> rintro rfl <;> simp

/-- A result that is not `REMOVE` keeps a later removal: the loop ends with `REMOVE`
exactly when one of the remaining tasks is a removal. -/
theorem computeLoop_operation {w : SessionEntityWrapper S} {result merged : MergedUpdate S}
    {rest : List (SessionUpdateTask S)} (hresult : result.operation ≠ .remove)
    (h : MergedUpdate.computeLoop w result rest = .ok merged) :
    merged.operation = .remove ↔ ∃ t ∈ rest, t.getOperation w.entity = .remove := by
  induction rest generalizing result with
  | nil =>
      cases h
      simpa using hresult
  | cons child rest ih =>
      by_cases hchild : child.getOperation w.entity = .remove
      · have hm : merged = MergedUpdate.ofChild child w := by
          simpa [MergedUpdate.computeLoop, hchild] using h.symm
        subst hm
        simp [MergedUpdate.ofChild, hchild]
      · cases hop : result.operation.merge (child.getOperation w.entity) w.entity with
        | error e => simp [MergedUpdate.computeLoop, hop] at h
        | ok mergedOp =>
            have hne := merge_ne_remove hresult hchild hop
            simp only [MergedUpdate.computeLoop, hop, hne, if_false] at h
            rw [ih hne h]
            simp [hchild]

/-- The queues in which the loop replaces a leading removal by the task that follows
it: the first task is a removal and the second is not. -/
def removalOverridden (tasks : List (SessionUpdateTask S)) (session : S) : Bool :=
  match tasks with
  | first :: second :: _ =>
      first.getOperation session == .remove && second.getOperation session != .remove
  | _ => false

theorem computeUpdate_cons {w : SessionEntityWrapper S} {first : SessionUpdateTask S}
    {rest : List (SessionUpdateTask S)} {merged : MergedUpdate S}
    (h : MergedUpdate.computeUpdate (first :: rest) w = .ok (some merged)) :
    MergedUpdate.computeLoop w (MergedUpdate.ofChild first w) rest = .ok merged := by
  cases hloop : MergedUpdate.computeLoop w (MergedUpdate.ofChild first w) rest with
  | error e => simp [MergedUpdate.computeUpdate, hloop] at h
  | ok result => simpa [MergedUpdate.computeUpdate, hloop] using h

/-- A queued removal is the merged operation unless it leads the queue and the next
task is not a removal. -/
theorem computeUpdate_operation {w : SessionEntityWrapper S}
    {tasks : List (SessionUpdateTask S)} {merged : MergedUpdate S}
    (h : MergedUpdate.computeUpdate tasks w = .ok (some merged))
    (hremove : ∃ t ∈ tasks, t.getOperation w.entity = .remove) :
    merged.operation = .remove ↔ removalOverridden tasks w.entity = false := by
  cases tasks with
  | nil => simp at hremove
  | cons first rest =>
      have hloop := computeUpdate_cons h
      by_cases hfirst : first.getOperation w.entity = .remove
      · -- the leading removal meets the second task at once
        cases rest with
        | nil =>
            cases hloop
            simp [MergedUpdate.ofChild, removalOverridden, hfirst]
        | cons second rest =>
            have hm : merged = MergedUpdate.ofChild second w := by
              simpa [MergedUpdate.computeLoop, MergedUpdate.ofChild, hfirst]
                using hloop.symm
            subst hm
            simp [MergedUpdate.ofChild, removalOverridden, hfirst]
      · have hop : (MergedUpdate.ofChild first w).operation ≠ .remove := hfirst
        rw [computeLoop_operation hop hloop]
        have hnot : removalOverridden (first :: rest) w.entity = false := by
          cases rest <;> simp [removalOverridden, hfirst]
        simpa [hfirst, hnot] using hremove

/-- Without removals the merged update keeps every task of the queue, in order. -/
theorem computeLoop_childUpdates {w : SessionEntityWrapper S}
    {result merged : MergedUpdate S} {rest : List (SessionUpdateTask S)}
    (hresult : result.operation ≠ .remove)
    (hrest : ∀ t ∈ rest, t.getOperation w.entity ≠ .remove)
    (h : MergedUpdate.computeLoop w result rest = .ok merged) :
    merged.childUpdates = result.childUpdates ++ rest := by
  induction rest generalizing result with
  | nil =>
      cases h
      simp
  | cons child rest ih =>
      have hchild := hrest child List.mem_cons_self
      cases hop : result.operation.merge (child.getOperation w.entity) w.entity with
      | error e => simp [MergedUpdate.computeLoop, hop] at h
      | ok mergedOp =>
          have hne := merge_ne_remove hresult hchild hop
          simp only [MergedUpdate.computeLoop, hop, hne, if_false] at h
          rw [ih hne (fun t ht => hrest t (List.mem_cons_of_mem child ht)) h]
          simp

theorem computeUpdate_childUpdates {w : SessionEntityWrapper S}
    {tasks : List (SessionUpdateTask S)} {merged : MergedUpdate S}
    (htasks : ∀ t ∈ tasks, t.getOperation w.entity ≠ .remove)
    (h : MergedUpdate.computeUpdate tasks w = .ok (some merged)) :
    merged.childUpdates = tasks := by
  cases tasks with
  | nil => simp [MergedUpdate.computeUpdate] at h
  | cons first rest =>
      have hloop := computeUpdate_cons h
      have hfirst : (MergedUpdate.ofChild first w).operation ≠ .remove :=
        htasks first List.mem_cons_self
      have hrest : ∀ t ∈ rest, t.getOperation w.entity ≠ .remove :=
        fun t ht => htasks t (List.mem_cons_of_mem first ht)
      simpa [MergedUpdate.ofChild] using computeLoop_childUpdates hfirst hrest hloop

end

/-! ## The cache and the transaction -/

/-- The local cache, with the counter that stands for `UUID.randomUUID`. -/
structure SessionCache (K S : Type) where
  entries : K → Option (SessionEntityWrapper S)
  nextVersion : Nat

/-- `SessionUpdatesList`: the transaction's copy of the entity and its queue. -/
structure SessionUpdatesList (S : Type) where
  entityWrapper : SessionEntityWrapper S
  updateTasks : List (SessionUpdateTask S)

structure Transaction (K S : Type) where
  cache : SessionCache K S
  updates : AList fun _ : K => SessionUpdatesList S

inductive AddTask (K S : Type) where
  | onCached (key : K) (task : SessionUpdateTask S)
  | onEntity (key : K) (task : SessionUpdateTask S) (entity : S)

section

variable {K S : Type} [DecidableEq K]

namespace SessionCache

def put (cache : SessionCache K S) (key : K) (w : SessionEntityWrapper S) :
    SessionCache K S :=
  { cache with entries := Function.update cache.entries key (some w) }

def remove (cache : SessionCache K S) (key : K) : SessionCache K S :=
  { cache with entries := Function.update cache.entries key none }

def randomUUID (cache : SessionCache K S) : Nat × SessionCache K S :=
  (cache.nextVersion, { cache with nextVersion := cache.nextVersion + 1 })

@[simp] theorem remove_entries_self (cache : SessionCache K S) (key : K) :
    (cache.remove key).entries key = none := by
  simp [remove]

end SessionCache

def SessionUpdatesList.add (updates : SessionUpdatesList S) (task : SessionUpdateTask S) :
    SessionUpdatesList S :=
  ⟨⟨updates.entityWrapper.version, task.runUpdate updates.entityWrapper.entity⟩,
    updates.updateTasks ++ [task]⟩

namespace Transaction

def start (cache : SessionCache K S) : Transaction K S :=
  ⟨cache, ∅⟩

/-- `addTask`.  The first overload does nothing when the key is neither in the
transaction nor in the cache. -/
def addTask (tx : Transaction K S) : AddTask K S → Transaction K S
  | .onCached key task =>
      match tx.updates.lookup key with
      | some myUpdates => { tx with updates := tx.updates.insert key (myUpdates.add task) }
      | none =>
          match tx.cache.entries key with
          | none => tx
          | some wrappedEntity =>
              let myUpdates : SessionUpdatesList S := ⟨wrappedEntity, []⟩
              { tx with updates := tx.updates.insert key (myUpdates.add task) }
  | .onEntity key task entity =>
      let (version, cache) := tx.cache.randomUUID
      let myUpdates : SessionUpdatesList S := ⟨⟨version, entity⟩, []⟩
      ⟨cache, tx.updates.insert key (myUpdates.add task)⟩

/-- `get`: what the transaction itself reads under a key. -/
def get (tx : Transaction K S) (key : K) :
    Option (SessionEntityWrapper S) × Transaction K S :=
  match tx.updates.lookup key with
  | none =>
      match tx.cache.entries key with
      | none => (none, tx)
      | some wrappedEntity =>
          (some wrappedEntity,
            { tx with updates := tx.updates.insert key ⟨wrappedEntity, []⟩ })
  | some myUpdates =>
      let scheduledForRemove := myUpdates.updateTasks.any fun task =>
        task.getOperation myUpdates.entityWrapper.entity == .remove
      (if scheduledForRemove then none else some myUpdates.entityWrapper, tx)

/-- Inside the transaction a key with a queued removal reads as absent. -/
theorem get_eq_none_of_remove {tx : Transaction K S} {key : K} {u : SessionUpdatesList S}
    (hu : tx.updates.lookup key = some u)
    (hremove : ∃ t ∈ u.updateTasks, t.getOperation u.entityWrapper.entity = .remove) :
    (tx.get key).1 = none := by
  obtain ⟨t, ht, hop⟩ := hremove
  have hany : (u.updateTasks.any fun task =>
      task.getOperation u.entityWrapper.entity == .remove) = true :=
    List.any_eq_true.mpr ⟨t, ht, by simp [hop]⟩
  simp [Transaction.get, hu, hany]

end Transaction

variable [SessionEntity S]

def maximumReplaceRetries : Nat := 25

/-- The loop of `replace`, over the remaining attempts.  A failed attempt reads the
entry again, runs the update on it and tries once more. -/
def replaceLoop (key : K) (task : MergedUpdate S) :
    Nat → SessionEntityWrapper S → SessionCache K S → SessionCache K S
  | 0, _, cache => cache
  | attempts + 1, oldVersionEntity, cache =>
      let (version, cache) := cache.randomUUID
      match cache.entries key with
      | none => cache
      | some stored =>
          if stored.equals oldVersionEntity then
            cache.put key ⟨version, oldVersionEntity.entity⟩
          else
            replaceLoop key task attempts
              ⟨stored.version, task.runUpdate stored.entity⟩ cache

def replace (key : K) (task : MergedUpdate S) (oldVersionEntity : SessionEntityWrapper S)
    (cache : SessionCache K S) : SessionCache K S :=
  replaceLoop key task maximumReplaceRetries oldVersionEntity cache

def runOperationInCluster (key : K) (task : MergedUpdate S)
    (sessionWrapper : SessionEntityWrapper S) (cache : SessionCache K S) :
    SessionCache K S :=
  match task.operation with
  | .remove => cache.remove key
  | .add => cache.put key sessionWrapper
  | .addIfAbsent =>
      match cache.entries key with
      | none => cache.put key sessionWrapper
      | some existing =>
          replace key task ⟨existing.version, task.runUpdate existing.entity⟩ cache
  | .replace => replace key task sessionWrapper cache

/-- The loop of `commitImpl`; an exception ends it and keeps what was done so far. -/
def commitEntries : List (Sigma fun _ : K => SessionUpdatesList S) → SessionCache K S →
    SessionCache K S × Except String Unit
  | [], cache => (cache, .ok ())
  | ⟨key, sessionUpdates⟩ :: rest, cache =>
      match MergedUpdate.computeUpdate sessionUpdates.updateTasks
          sessionUpdates.entityWrapper with
      | .error e => (cache, .error e)
      | .ok none => commitEntries rest cache
      | .ok (some merged) =>
          commitEntries rest
            (runOperationInCluster key merged sessionUpdates.entityWrapper cache)

def Transaction.commitImpl (tx : Transaction K S) : SessionCache K S × Except String Unit :=
  commitEntries tx.updates.entries tx.cache

/-! ### What a commit does to one key -/

theorem replaceLoop_frame {key other : K} (hne : other ≠ key) (task : MergedUpdate S)
    (attempts : Nat) (old : SessionEntityWrapper S) (cache : SessionCache K S) :
    (replaceLoop key task attempts old cache).entries other = cache.entries other := by
  induction attempts generalizing old cache with
  | zero => rfl
  | succ attempts ih =>
      simp only [replaceLoop, SessionCache.randomUUID]
      split
      · rfl
      · split
        · simp [SessionCache.put, Function.update_of_ne hne]
        · rw [ih]

theorem runOperationInCluster_frame {key other : K} (hne : other ≠ key)
    (task : MergedUpdate S) (w : SessionEntityWrapper S) (cache : SessionCache K S) :
    (runOperationInCluster key task w cache).entries other = cache.entries other := by
  unfold runOperationInCluster
  split
  · simp [SessionCache.remove, Function.update_of_ne hne]
  · simp [SessionCache.put, Function.update_of_ne hne]
  · split
    · simp [SessionCache.put, Function.update_of_ne hne]
    · exact replaceLoop_frame hne task _ _ cache
  · exact replaceLoop_frame hne task _ _ cache

theorem commitEntries_frame {key : K}
    {entries : List (Sigma fun _ : K => SessionUpdatesList S)}
    (hkey : key ∉ entries.keys) (cache : SessionCache K S) :
    (commitEntries entries cache).1.entries key = cache.entries key := by
  induction entries generalizing cache with
  | nil => rfl
  | cons entry rest ih =>
      obtain ⟨other, u⟩ := entry
      simp only [List.keys_cons, List.mem_cons, not_or] at hkey
      simp only [commitEntries]
      split
      · rfl
      · exact ih hkey.2 cache
      · rw [ih hkey.2, runOperationInCluster_frame hkey.1]

/-- A commit that ends without an exception merges the queue of every key and runs the merged
operation of that key, if there is one, exactly once. -/
theorem commitEntries_key {key : K} {u : SessionUpdatesList S}
    {entries : List (Sigma fun _ : K => SessionUpdatesList S)}
    {cache final : SessionCache K S} (hnodup : entries.NodupKeys)
    (hmem : (⟨key, u⟩ : Sigma fun _ : K => SessionUpdatesList S) ∈ entries)
    (hcommit : commitEntries entries cache = (final, .ok ())) :
    ∃ merged, MergedUpdate.computeUpdate u.updateTasks u.entityWrapper = .ok merged ∧
      ∃ before : SessionCache K S, before.entries key = cache.entries key ∧
        final.entries key =
          (merged.elim before fun m =>
            runOperationInCluster key m u.entityWrapper before).entries key := by
  induction entries generalizing cache with
  | nil => simp at hmem
  | cons entry rest ih =>
      obtain ⟨other, v⟩ := entry
      rw [List.nodupKeys_cons] at hnodup
      simp only [commitEntries] at hcommit
      rcases List.mem_cons.mp hmem with heq | hrest
      · -- this key's turn: nothing after it touches the key again
        cases heq
        split at hcommit
        · cases hcommit
        · refine ⟨none, by assumption, cache, rfl, ?_⟩
          have hframe := commitEntries_frame hnodup.1 cache
          rwa [hcommit] at hframe
        · rename_i merged hmerged
          refine ⟨some merged, hmerged, cache, rfl, ?_⟩
          have hframe := commitEntries_frame hnodup.1
            (runOperationInCluster key merged u.entityWrapper cache)
          rwa [hcommit] at hframe
      · have hne : key ≠ other := by
          have hkey := List.mem_keys_of_mem hrest
          rintro rfl
          exact hnodup.1 hkey
        split at hcommit
        · cases hcommit
        · exact ih hnodup.2 hrest hcommit
        · obtain ⟨merged, hmerged, before, hbefore, hfinal⟩ := ih hnodup.2 hrest hcommit
          exact ⟨merged, hmerged, before,
            hbefore.trans (runOperationInCluster_frame hne _ _ _), hfinal⟩

/-- The queue and the copy of the entity that a transaction holds for a key after a
sequence of `addTask` calls, started on a cache. -/
def queuedAfter (cache : SessionCache K S) (calls : List (AddTask K S)) (key : K) :
    Option (SessionUpdatesList S) :=
  (calls.foldl Transaction.addTask (Transaction.start cache)).updates.lookup key

/-- A removal queued for a key by any sequence of `addTask` calls is what the commit
does to that key, and the key is absent afterwards, exactly when the queue does not
start with a removal followed by another operation. -/
theorem removal_survives_commit_iff (cache final : SessionCache K S)
    (calls : List (AddTask K S)) (key : K) (u : SessionUpdatesList S)
    (hqueued : queuedAfter cache calls key = some u)
    (hremove : ∃ t ∈ u.updateTasks, t.getOperation u.entityWrapper.entity = .remove)
    (hcommit : (calls.foldl Transaction.addTask (Transaction.start cache)).commitImpl =
      (final, .ok ())) :
    ((calls.foldl Transaction.addTask (Transaction.start cache)).get key).1 = none ∧
      (((∃ merged, MergedUpdate.computeUpdate u.updateTasks u.entityWrapper =
            .ok (some merged) ∧ merged.operation = .remove) ∧
          final.entries key = none) ↔
        removalOverridden u.updateTasks u.entityWrapper.entity = false) := by
  set tx := calls.foldl Transaction.addTask (Transaction.start cache) with htx
  have hlookup : tx.updates.lookup key = some u := hqueued
  refine ⟨Transaction.get_eq_none_of_remove hlookup hremove, ?_⟩
  obtain ⟨merged, hmerged, before, -, hfinal⟩ := commitEntries_key tx.updates.nodupKeys
    (AList.mem_lookup_iff.mp hlookup) hcommit
  constructor
  · rintro ⟨⟨m, hm, hop⟩, -⟩
    exact (computeUpdate_operation hm hremove).mp hop
  · intro hkept
    cases merged with
    | none =>
        obtain ⟨t, ht, -⟩ := hremove
        cases htasks : u.updateTasks with
        | nil => simp [htasks] at ht
        | cons first rest =>
            rw [htasks] at hmerged
            unfold MergedUpdate.computeUpdate at hmerged
            simp only at hmerged
            split at hmerged <;> cases hmerged
    | some m =>
        have hop := (computeUpdate_operation hmerged hremove).mpr hkept
        exact ⟨⟨m, hmerged, hop⟩, by simp [hfinal, runOperationInCluster, hop]⟩

end

/-! ### Removals of user sessions -/

/-- `UserSessionEntity`, with the fields that its `equals`, its `toString` and the
update below use.  `authenticatedClientSessions` holds the sorted client ids. -/
structure UserSessionEntity where
  id : String
  realmId : String
  lastSessionRefresh : Nat
  authenticatedClientSessions : List String
  deriving DecidableEq

instance : SessionEntity UserSessionEntity where
  equals this that := this.id == that.id
  toText entity :=
    "UserSessionEntity [id=" ++ entity.id ++ ", realm=" ++ entity.realmId ++
      ", lastSessionRefresh=" ++ toString entity.lastSessionRefresh ++ ", clients=" ++
      toString entity.authenticatedClientSessions ++ "]"

def addIfAbsentSync {S : Type} : SessionUpdateTask S :=
  ⟨id, fun _ => .addIfAbsent, fun _ => .sync⟩

def removeSync {S : Type} : SessionUpdateTask S :=
  ⟨id, fun _ => .remove, fun _ => .sync⟩

/-- The `UserSessionUpdateTask` that `UserSessionAdapter.setLastSessionRefresh` queues;
its data-center status is left at the superclass's `SYNC`. -/
def setLastSessionRefresh (lastSessionRefresh : Nat) : SessionUpdateTask UserSessionEntity :=
  ⟨fun entity => { entity with lastSessionRefresh }, fun _ => .replace, fun _ => .sync⟩

def sessionAt (lastSessionRefresh : Nat) : UserSessionEntity :=
  ⟨"s", "master", lastSessionRefresh, ["app"]⟩

def oneSession : SessionCache String UserSessionEntity :=
  ⟨Function.update (fun _ => none) "s" (some ⟨0, sessionAt 10⟩), 1⟩

theorem removal_survives_commit_after_refresh :
    ((∃ merged, MergedUpdate.computeUpdate [setLastSessionRefresh 20, removeSync]
          (⟨0, sessionAt 20⟩ : SessionEntityWrapper UserSessionEntity) = .ok (some merged) ∧
        merged.operation = .remove) ∧
      (oneSession.remove "s").entries "s" = none) :=
  (removal_survives_commit_iff oneSession (oneSession.remove "s")
    [.onCached "s" (setLastSessionRefresh 20), .onCached "s" removeSync] "s"
    ⟨⟨0, sessionAt 20⟩, [setLastSessionRefresh 20, removeSync]⟩ rfl
    ⟨removeSync, by simp, rfl⟩ rfl).2.mpr (by decide)

/-- A session is removed and then refreshed in one transaction: the transaction reads
it as absent, the commit replaces it and the session stays in the cache. -/
theorem removal_lost_to_later_refresh :
    let calls : List (AddTask String UserSessionEntity) :=
      [.onCached "s" removeSync, .onCached "s" (setLastSessionRefresh 20)]
    let tx := calls.foldl Transaction.addTask (Transaction.start oneSession)
    (tx.get "s").1 = none ∧
      (∃ merged, MergedUpdate.computeUpdate [removeSync, setLastSessionRefresh 20]
          (⟨0, sessionAt 20⟩ : SessionEntityWrapper UserSessionEntity) = .ok (some merged) ∧
        merged.operation = .replace) ∧
      tx.commitImpl.2 = .ok () ∧
      tx.commitImpl.1.entries "s" = some ⟨1, sessionAt 20⟩ := by
  refine ⟨rfl, ⟨_, rfl, rfl⟩, rfl, ?_⟩
  decide

end Keycloak.Sessions
