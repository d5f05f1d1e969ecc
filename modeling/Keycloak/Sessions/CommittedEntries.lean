import Keycloak.Sessions.Changelog

/-!
# What a commit leaves under a key

The merged operation decides whether a key is in the cache after a commit
(`commitImpl_eq_none_iff`).  A removal that is queued last takes effect unless the queue starts
with a removal that is overridden, and a replacement that is queued last changes the committed
entity in the way its task does, and in no other.
-/

namespace Keycloak.Sessions

section

variable {K S : Type} [DecidableEq K]

namespace Transaction

def pending (tx : Transaction K S) (key : K) : Option (SessionUpdatesList S) :=
  match tx.updates.lookup key with
  | some u => some u
  | none => (tx.cache.entries key).map fun w => ⟨w, []⟩

theorem addTask_onCached (tx : Transaction K S) (key : K) (task : SessionUpdateTask S) :
    tx.addTask (.onCached key task) = (tx.pending key).elim tx fun u =>
      { tx with updates := tx.updates.insert key (u.add task) } := by
  unfold addTask pending
  cases hu : tx.updates.lookup key with
  | some u => simp only [hu, Option.elim_some]
  | none =>
      cases hw : tx.cache.entries key with
      | none => simp only [hu, hw, Option.map_none, Option.elim_none]
      | some w => simp only [hu, hw, Option.map_some, Option.elim_some]

theorem addTask_onCached_cache (tx : Transaction K S) (key : K) (task : SessionUpdateTask S) :
    (tx.addTask (.onCached key task)).cache = tx.cache := by
  rw [addTask_onCached]
  cases tx.pending key <;> rfl

theorem pending_addTask_self (tx : Transaction K S) (key : K) (task : SessionUpdateTask S) :
    (tx.addTask (.onCached key task)).pending key = (tx.pending key).map (·.add task) := by
  rw [addTask_onCached]
  cases hu : tx.pending key with
  | none => exact hu
  | some u => simp [pending]

theorem pending_addTask_of_ne {tx : Transaction K S} {key other : K} (hne : other ≠ key)
    (task : SessionUpdateTask S) :
    (tx.addTask (.onCached key task)).pending other = tx.pending other := by
  rw [addTask_onCached]
  cases tx.pending key with
  | none => rfl
  | some u => simp [pending, AList.lookup_insert_ne hne]

end Transaction

def queueRemovals (tx : Transaction K S) (keys : List K) : Transaction K S :=
  keys.foldl (fun tx key => tx.addTask (.onCached key removeSync)) tx

theorem queueRemovals_cache (tx : Transaction K S) (keys : List K) :
    (queueRemovals tx keys).cache = tx.cache := by
  induction keys generalizing tx with
  | nil => rfl
  | cons first rest ih => exact (ih _).trans (tx.addTask_onCached_cache first removeSync)

theorem pending_queueRemovals (tx : Transaction K S) (keys : List K) (key : K) :
    (queueRemovals tx keys).pending key = (tx.pending key).map fun u =>
      ⟨u.entityWrapper, u.updateTasks ++ List.replicate (keys.count key) removeSync⟩ := by
  induction keys generalizing tx with
  | nil => simp [queueRemovals]
  | cons first rest ih =>
      rw [show queueRemovals tx (first :: rest) =
        queueRemovals (tx.addTask (.onCached first removeSync)) rest from rfl, ih]
      by_cases hkey : key = first
      · subst hkey
        rw [Transaction.pending_addTask_self, Option.map_map, List.count_cons_self]
        congr 1
        funext u
        simp [SessionUpdatesList.add, removeSync, List.replicate_succ]
      · rw [Transaction.pending_addTask_of_ne hkey,
          List.count_cons_of_ne (Ne.symm hkey)]

theorem removalOverridden_append_removals (tasks : List (SessionUpdateTask S)) (n : Nat)
    (session : S) :
    removalOverridden (tasks ++ List.replicate n removeSync) session =
      removalOverridden tasks session := by
  match tasks with
  | [] =>
      match n with
      | 0 => rfl
      | 1 => rfl
      | n + 2 => rfl
  | [first] =>
      match n with
      | 0 => rfl
      | n + 1 => simp [removalOverridden, List.replicate_succ, removeSync]
  | first :: second :: rest => rfl

/-! ## Transactions that are reached -/

def Steady (task : SessionUpdateTask S) : Prop :=
  ∀ session session', task.getOperation session = task.getOperation session'

structure Transaction.Consistent (tx : Transaction K S) : Prop where
  steady : ∀ key u, tx.updates.lookup key = some u → ∀ t ∈ u.updateTasks, Steady t
  unchanged : ∀ key u, tx.updates.lookup key = some u → u.updateTasks = [] →
    ∀ stored, tx.cache.entries key = some stored → stored.version = u.entityWrapper.version →
      u.entityWrapper = stored

theorem Transaction.Consistent.pending {tx : Transaction K S} (htx : tx.Consistent)
    {key : K} {u : SessionUpdatesList S} (hu : tx.pending key = some u) :
    (∀ t ∈ u.updateTasks, Steady t) ∧
      (u.updateTasks = [] → ∀ stored, tx.cache.entries key = some stored →
        stored.version = u.entityWrapper.version → u.entityWrapper = stored) := by
  unfold Transaction.pending at hu
  split at hu
  · rename_i hlookup
    cases hu
    exact ⟨htx.steady key u hlookup, htx.unchanged key u hlookup⟩
  · obtain ⟨w, hw, rfl⟩ := Option.map_eq_some_iff.mp hu
    exact ⟨fun t ht => (nomatch ht), fun _ stored hstored _ =>
      Option.some.inj (hw.symm.trans hstored)⟩

def AddTask.task : AddTask K S → SessionUpdateTask S
  | .onCached _ task => task
  | .onEntity _ task _ => task

namespace Transaction

def reloadEntityInCurrentTransaction (tx : Transaction K S) (key : K) : Transaction K S :=
  match tx.cache.entries key with
  | none => tx
  | some latestEntity =>
      let newUpdates : SessionUpdatesList S :=
        ⟨latestEntity, ((tx.updates.lookup key).map (·.updateTasks)).getD []⟩
      { tx with updates := tx.updates.insert key newUpdates }

/-- Some run leads to the transaction.  Others may write the cache meanwhile, with versions of
their own. -/
inductive Reached : Transaction K S → Prop
  | start (cache : SessionCache K S) : Reached (start cache)
  | addTask {tx : Transaction K S} (call : AddTask K S) :
      Reached tx → Steady call.task → Reached (tx.addTask call)
  | get {tx : Transaction K S} (key : K) : Reached tx → Reached (tx.get key).2
  | reloadEntity {tx : Transaction K S} (key : K) :
      Reached tx → Reached (tx.reloadEntityInCurrentTransaction key)
  | written {tx : Transaction K S} (cache : SessionCache K S) : Reached tx →
      (∀ key stored, cache.entries key = some stored →
        tx.cache.entries key = some stored ∨ ∀ u, tx.updates.lookup key = some u →
          stored.version ≠ u.entityWrapper.version) → Reached { tx with cache }

theorem Consistent.insert {tx : Transaction K S} (htx : tx.Consistent)
    {cache : SessionCache K S} (hcache : cache.entries = tx.cache.entries) {key : K}
    {u : SessionUpdatesList S} (hsteady : ∀ t ∈ u.updateTasks, Steady t)
    (hunchanged : u.updateTasks = [] → cache.entries key = some u.entityWrapper) :
    Consistent (⟨cache, tx.updates.insert key u⟩ : Transaction K S) := by
  refine ⟨fun other v hv => ?_, fun other v hv hempty stored hstored hversion => ?_⟩
  · by_cases hother : other = key
    · subst hother
      rw [AList.lookup_insert] at hv
      cases hv
      exact hsteady
    · rw [AList.lookup_insert_ne hother] at hv
      exact htx.steady other v hv
  · by_cases hother : other = key
    · subst hother
      rw [AList.lookup_insert] at hv
      cases hv
      exact Option.some.inj ((hunchanged hempty).symm.trans hstored)
    · rw [AList.lookup_insert_ne hother] at hv
      dsimp only at hstored
      rw [hcache] at hstored
      exact htx.unchanged other v hv hempty stored hstored hversion

theorem Reached.consistent {tx : Transaction K S} (h : tx.Reached) : tx.Consistent := by
  induction h with
  | start cache => exact ⟨fun key u hu => (nomatch hu), fun key u hu => (nomatch hu)⟩
  | @addTask tx call _ hsteady ih =>
      have hadd : ∀ {u : SessionUpdatesList S}, (∀ t ∈ u.updateTasks, Steady t) →
          ∀ t ∈ (u.add call.task).updateTasks, Steady t := by
        intro u hu t ht
        rcases List.mem_append.mp ht with ht | ht
        · exact hu t ht
        · exact List.mem_singleton.mp ht ▸ hsteady
      cases call with
      | onCached key task =>
          rw [addTask_onCached]
          cases hu : tx.pending key with
          | none => exact ih
          | some u =>
              exact ih.insert rfl (hadd (ih.pending hu).1)
                fun hempty => absurd hempty (by simp [SessionUpdatesList.add])
      | onEntity key task entity =>
          let u : SessionUpdatesList S := ⟨⟨tx.cache.nextVersion, entity⟩, []⟩
          have hu : ∀ t ∈ u.updateTasks, Steady t := fun t ht => (nomatch ht)
          have hcache : tx.cache.randomUUID.2.entries = tx.cache.entries := rfl
          exact ih.insert hcache (hadd hu)
            fun hempty => absurd hempty (by simp [SessionUpdatesList.add])
  | @get tx key _ ih =>
      unfold Transaction.get
      split
      · split
        · exact ih
        · rename_i w hw
          exact ih.insert rfl (fun t ht => (nomatch ht)) fun _ => hw
      · exact ih
  | @reloadEntity tx key _ ih =>
      unfold reloadEntityInCurrentTransaction
      split
      · exact ih
      · rename_i latest hlatest
        have hsteady : ∀ t ∈ ((tx.updates.lookup key).map (·.updateTasks)).getD [], Steady t := by
          intro t ht
          cases hu : tx.updates.lookup key with
          | none => simp [hu] at ht
          | some u => exact ih.steady key u hu t (by simpa [hu] using ht)
        exact ih.insert rfl hsteady fun _ => hlatest
  | @written tx cache _ hwritten ih =>
      refine ⟨ih.steady, fun key u hu hempty stored hstored hversion => ?_⟩
      rcases hwritten key stored hstored with hsame | hfresh
      · exact ih.unchanged key u hu hempty stored hsame hversion
      · exact absurd hversion (hfresh u hu)

end Transaction

structure ReplacesBy (R : S → S → Prop) (task : SessionUpdateTask S) : Prop where
  operation : ∀ session, task.getOperation session = .replace
  related : ∀ session, R session (task.runUpdate session)

variable [SessionEntity S]

namespace Transaction

def pendingOperation (tx : Transaction K S) (key : K) : Option CacheOperation :=
  match tx.pending key with
  | none => none
  | some u =>
      match MergedUpdate.computeUpdate u.updateTasks u.entityWrapper with
      | .ok (some merged) => some merged.operation
      | _ => none

/-- The commit removes the key, or does not put it into a cache that has no entry for it. -/
def GoneAtCommit (tx : Transaction K S) (key : K) : Prop :=
  tx.pendingOperation key = some .remove ∨
    tx.cache.entries key = none ∧ tx.pendingOperation key ≠ some .add ∧
      tx.pendingOperation key ≠ some .addIfAbsent

/-- The queue of the key starts with a removal that the next task overrides. -/
def OverridesRemoval (tx : Transaction K S) (key : K) : Prop :=
  ∃ u, tx.pending key = some u ∧
    removalOverridden u.updateTasks u.entityWrapper.entity = true

end Transaction

/-! ## Keys without an entry -/

theorem replaceLoop_eq_none_iff {key : K} {task : MergedUpdate S} (attempts : Nat)
    (old : SessionEntityWrapper S) (cache : SessionCache K S) :
    (replaceLoop key task attempts old cache).entries key = none ↔
      cache.entries key = none := by
  induction attempts generalizing old cache with
  | zero => exact Iff.rfl
  | succ attempts ih =>
      simp only [replaceLoop, SessionCache.randomUUID]
      split
      · rename_i hnone
        simp [hnone]
      · rename_i stored hstored
        split
        · simp [SessionCache.put, hstored]
        · exact ih _ _

theorem runOperationInCluster_eq_none_iff {key : K} {task : MergedUpdate S}
    {w : SessionEntityWrapper S} {cache : SessionCache K S} :
    (runOperationInCluster key task w cache).entries key = none ↔
      task.operation = .remove ∨
        cache.entries key = none ∧ task.operation ≠ .add ∧ task.operation ≠ .addIfAbsent := by
  unfold runOperationInCluster
  cases hop : task.operation with
  | remove => simp
  | add => simp [SessionCache.put]
  | addIfAbsent =>
      cases hstored : cache.entries key with
      | none => simp [SessionCache.put]
      | some existing => simp [replace, replaceLoop_eq_none_iff, hstored]
  | replace => simp [replace, replaceLoop_eq_none_iff]

variable {tx : Transaction K S} {final : SessionCache K S} {key : K}

/-- What is in the cache under a key after a commit without an exception. -/
theorem commitImpl_key {u : SessionUpdatesList S} (hu : tx.pending key = some u)
    (hcommit : tx.commitImpl = (final, .ok ())) :
    ∃ merged, MergedUpdate.computeUpdate u.updateTasks u.entityWrapper = .ok merged ∧
      ∃ before : SessionCache K S, before.entries key = tx.cache.entries key ∧
        final.entries key =
          (merged.elim before fun m =>
            runOperationInCluster key m u.entityWrapper before).entries key := by
  unfold Transaction.pending at hu
  split at hu
  · rename_i hlookup
    cases hu
    exact commitEntries_key tx.updates.nodupKeys (AList.mem_lookup_iff.mp hlookup) hcommit
  · rename_i hlookup
    obtain ⟨w, -, rfl⟩ := Option.map_eq_some_iff.mp hu
    have hframe := commitEntries_frame (AList.lookup_eq_none.mp hlookup) tx.cache
    rw [show commitEntries tx.updates.entries tx.cache = _ from hcommit] at hframe
    exact ⟨none, rfl, tx.cache, rfl, hframe⟩

theorem commitImpl_of_pending_none (hu : tx.pending key = none)
    (hcommit : tx.commitImpl = (final, .ok ())) :
    final.entries key = none ∧ tx.cache.entries key = none := by
  unfold Transaction.pending at hu
  split at hu
  · cases hu
  · rename_i hlookup
    have hframe := commitEntries_frame (AList.lookup_eq_none.mp hlookup) tx.cache
    rw [show commitEntries tx.updates.entries tx.cache = _ from hcommit] at hframe
    have hnone := Option.map_eq_none_iff.mp hu
    exact ⟨hframe.trans hnone, hnone⟩

/-- The operation of a key decides whether it has an entry after the commit. -/
theorem commitImpl_eq_none_iff (hcommit : tx.commitImpl = (final, .ok ())) :
    final.entries key = none ↔ tx.GoneAtCommit key := by
  unfold Transaction.GoneAtCommit Transaction.pendingOperation
  cases hu : tx.pending key with
  | none => simp [commitImpl_of_pending_none hu hcommit]
  | some u =>
      obtain ⟨merged, hmerged, before, hbefore, hfinal⟩ := commitImpl_key hu hcommit
      rw [hfinal]
      dsimp only
      rw [hmerged]
      cases merged with
      | none => simp [hbefore]
      | some m =>
          rw [Option.elim_some, runOperationInCluster_eq_none_iff, hbefore]
          simp

/-! ## Removals queued last -/

theorem computeUpdate_ne_none {w : SessionEntityWrapper S} {tasks : List (SessionUpdateTask S)}
    (hne : tasks ≠ []) : MergedUpdate.computeUpdate tasks w ≠ .ok none := by
  obtain ⟨first, rest, rfl⟩ := List.exists_cons_of_ne_nil hne
  unfold MergedUpdate.computeUpdate
  dsimp only
  split <;> simp

theorem computeUpdate_of_removalOverridden {w : SessionEntityWrapper S}
    {tasks : List (SessionUpdateTask S)} (h : removalOverridden tasks w.entity = true)
    (later : List (SessionUpdateTask S)) :
    MergedUpdate.computeUpdate (tasks ++ later) w = MergedUpdate.computeUpdate tasks w := by
  match tasks with
  | [] => cases h
  | [first] => cases h
  | first :: second :: rest =>
      rw [removalOverridden, Bool.and_eq_true, beq_iff_eq] at h
      simp [MergedUpdate.computeUpdate, MergedUpdate.computeLoop, MergedUpdate.ofChild, h.1]

/-- A removal queued last takes effect unless one that leads the queue is overridden, and then
the commit does what it does without it. -/
theorem goneAtCommit_queueRemovals {keys : List K} (hkey : key ∈ keys)
    (hcommit : (queueRemovals tx keys).commitImpl = (final, .ok ())) :
    (queueRemovals tx keys).GoneAtCommit key ↔
      ¬ tx.OverridesRemoval key ∨ tx.GoneAtCommit key := by
  have hpending := pending_queueRemovals tx keys key
  cases hu : tx.pending key with
  | none =>
      rw [hu] at hpending
      have hnone := (commitImpl_of_pending_none hpending hcommit).1
      refine ⟨fun _ => .inl ?_, fun _ => (commitImpl_eq_none_iff hcommit).mp hnone⟩
      rintro ⟨u, hu', -⟩
      cases hu.symm.trans hu'
  | some u =>
      rw [hu] at hpending
      obtain ⟨merged, hmerged, -⟩ := commitImpl_key hpending hcommit
      dsimp only at hmerged
      have hoverrides : tx.OverridesRemoval key ↔
          removalOverridden u.updateTasks u.entityWrapper.entity = true :=
        ⟨fun ⟨u', hu', h⟩ => Option.some.inj (hu.symm.trans hu') ▸ h, fun h => ⟨u, hu, h⟩⟩
      by_cases hover : removalOverridden u.updateTasks u.entityWrapper.entity = true
      · have hsame : (queueRemovals tx keys).pendingOperation key = tx.pendingOperation key := by
          unfold Transaction.pendingOperation
          rw [hpending, hu]
          dsimp only [Option.map_some]
          rw [computeUpdate_of_removalOverridden hover]
        rw [hoverrides, Transaction.GoneAtCommit, hsame, queueRemovals_cache]
        simp [hover, Transaction.GoneAtCommit]
      · refine ⟨fun _ => .inl (hoverrides.not.mpr hover), fun _ => .inl ?_⟩
        have hmem : removeSync ∈
            u.updateTasks ++ List.replicate (keys.count key) (removeSync : SessionUpdateTask S) :=
          List.mem_append_right _ (List.mem_replicate.mpr
            ⟨Nat.ne_of_gt (List.count_pos_iff.mpr hkey), rfl⟩)
        have hremoval : ∃ t ∈ u.updateTasks ++ List.replicate (keys.count key) removeSync,
            t.getOperation u.entityWrapper.entity = .remove := ⟨removeSync, hmem, rfl⟩
        cases merged with
        | none => exact absurd hmerged (computeUpdate_ne_none (List.ne_nil_of_mem hmem))
        | some m =>
            have hnot : removalOverridden
                (u.updateTasks ++ List.replicate (keys.count key) removeSync)
                u.entityWrapper.entity = false := by
              rw [removalOverridden_append_removals]
              exact Bool.not_eq_true _ ▸ hover
            have hop := (computeUpdate_operation hmerged hremoval).mpr hnot
            unfold Transaction.pendingOperation
            rw [hpending]
            dsimp only [Option.map_some]
            rw [hmerged]
            exact congrArg some hop

theorem goneAtCommit_queueRemovals_of_not_mem {keys : List K} (hkey : key ∉ keys) :
    (queueRemovals tx keys).GoneAtCommit key ↔ tx.GoneAtCommit key := by
  have hpending : (queueRemovals tx keys).pending key = tx.pending key := by
    rw [pending_queueRemovals, List.count_eq_zero.mpr hkey]
    simp
  unfold Transaction.GoneAtCommit Transaction.pendingOperation
  rw [hpending, queueRemovals_cache]

/-! ## Replacements queued last -/

structure Indifferent (R : S → S → Prop) : Prop where
  refl : ∀ session, R session session
  self : ∀ session : S, SessionEntity.equals session session = true
  equals : ∀ {session session' : S}, R session session' → ∀ stored,
    SessionEntity.equals stored session' = SessionEntity.equals stored session

variable {R : S → S → Prop} {last : SessionUpdateTask S}

theorem merge_ok_iff (this other mergedOp : CacheOperation) (entity entity' : S) :
    this.merge other entity = .ok mergedOp ↔ this.merge other entity' = .ok mergedOp := by
  cases this <;> cases other <;> simp [CacheOperation.merge]

theorem merge_replace {this : CacheOperation} (hthis : this ≠ .remove) (entity : S) :
    this.merge .replace entity = .ok this := by
  cases this with
  | remove => exact absurd rfl hthis
  | add => simp [CacheOperation.merge]
  | addIfAbsent => simp [CacheOperation.merge]
  | replace => simp [CacheOperation.merge]

/-- A replacement at the end keeps the merged operation, and its update runs last unless the
queue has been cut at a removal. -/
theorem computeLoop_concat {w w' : SessionEntityWrapper S} {result result' m m' : MergedUpdate S}
    {rest : List (SessionUpdateTask S)} (hlast : ReplacesBy R last)
    (hsteady : ∀ t ∈ rest, Steady t) (hop : result'.operation = result.operation)
    (hchildren : result'.childUpdates = result.childUpdates)
    (h : MergedUpdate.computeLoop w result rest = .ok m) (hm : m.operation ≠ .remove)
    (h' : MergedUpdate.computeLoop w' result' (rest ++ [last]) = .ok m') :
    m'.operation = m.operation ∧
      (m'.childUpdates = m.childUpdates ∨ m'.childUpdates = m.childUpdates ++ [last]) := by
  induction rest generalizing result result' with
  | nil =>
      cases h
      have hmerge : result'.operation.merge .replace w'.entity = .ok m.operation := by
        rw [hop, merge_replace hm]
      simp only [List.nil_append, MergedUpdate.computeLoop, hlast.operation, hmerge,
        if_neg hm] at h'
      cases h'
      exact ⟨rfl, .inr (by rw [hchildren])⟩
  | cons child rest ih =>
      have hchild := hsteady child List.mem_cons_self w'.entity w.entity
      cases hmerge : result.operation.merge (child.getOperation w.entity) w.entity with
      | error e => simp [MergedUpdate.computeLoop, hmerge] at h
      | ok mergedOp =>
          have hmerge' : result'.operation.merge (child.getOperation w'.entity) w'.entity =
              .ok mergedOp := by
            rw [hop, hchild]
            exact (merge_ok_iff _ _ _ _ _).mp hmerge
          simp only [List.cons_append, MergedUpdate.computeLoop, hmerge, hmerge'] at h h'
          by_cases hremove : mergedOp = .remove
          · rw [if_pos hremove] at h h'
            cases h
            cases h'
            exact ⟨hchild, .inl rfl⟩
          · rw [if_neg hremove] at h h'
            refine ih (fun t ht => hsteady t (List.mem_cons_of_mem _ ht)) ?_ ?_ h h'
            · rfl
            · dsimp only
              rw [hchildren]

theorem computeUpdate_concat {w w' : SessionEntityWrapper S} {m m' : MergedUpdate S}
    {tasks : List (SessionUpdateTask S)} (hlast : ReplacesBy R last)
    (hsteady : ∀ t ∈ tasks, Steady t)
    (h : MergedUpdate.computeUpdate tasks w = .ok (some m)) (hm : m.operation ≠ .remove)
    (h' : MergedUpdate.computeUpdate (tasks ++ [last]) w' = .ok (some m')) :
    m'.operation = m.operation ∧
      (m'.childUpdates = m.childUpdates ∨ m'.childUpdates = m.childUpdates ++ [last]) := by
  cases tasks with
  | nil => cases h
  | cons first rest =>
      rw [List.cons_append] at h'
      have hfirst : (MergedUpdate.ofChild first w').operation =
          (MergedUpdate.ofChild first w).operation := hsteady first List.mem_cons_self _ _
      exact computeLoop_concat hlast (fun t ht => hsteady t (List.mem_cons_of_mem _ ht)) hfirst
        rfl (computeUpdate_cons h) hm (computeUpdate_cons h')

theorem replaceLoop_related (hR : Indifferent R) {m m' : MergedUpdate S}
    (hm : ∀ session, R (m.runUpdate session) (m'.runUpdate session)) (attempts : Nat)
    {old old' stored : SessionEntityWrapper S} {cache cache' : SessionCache K S}
    (hstored : cache.entries key = some stored) (hstored' : cache'.entries key = some stored)
    (hversion : old'.version = old.version) (hentity : R old.entity old'.entity) :
    ∃ w w', (replaceLoop key m attempts old cache).entries key = some w ∧
      (replaceLoop key m' attempts old' cache').entries key = some w' ∧ R w.entity w'.entity := by
  induction attempts generalizing old old' cache cache' with
  | zero => exact ⟨stored, stored, hstored, hstored', hR.refl _⟩
  | succ attempts ih =>
      have hequals : stored.equals old' = stored.equals old := by
        rw [SessionEntityWrapper.equals, SessionEntityWrapper.equals, hversion,
          hR.equals hentity]
      simp only [replaceLoop, SessionCache.randomUUID, hstored, hstored', hequals]
      split
      · exact ⟨_, _, Function.update_self .., Function.update_self .., hentity⟩
      · exact ih hstored hstored' rfl (hm stored.entity)

theorem runOperationInCluster_related (hR : Indifferent R) {m m' : MergedUpdate S}
    (hm : ∀ session, R (m.runUpdate session) (m'.runUpdate session))
    (hop : m'.operation = m.operation) {old old' w : SessionEntityWrapper S}
    {cache cache' : SessionCache K S} (hcache : cache'.entries key = cache.entries key)
    (hversion : old'.version = old.version) (hentity : R old.entity old'.entity)
    (h : (runOperationInCluster key m old cache).entries key = some w) :
    ∃ w', (runOperationInCluster key m' old' cache').entries key = some w' ∧
      R w.entity w'.entity := by
  unfold runOperationInCluster at h ⊢
  rw [hop]
  cases hoperation : m.operation with
  | remove => simp [hoperation] at h
  | add =>
      simp only [hoperation, SessionCache.put, Function.update_self, Option.some.injEq] at h
      subst h
      exact ⟨old', Function.update_self .., hentity⟩
  | addIfAbsent =>
      cases hstored : cache.entries key with
      | none =>
          simp only [hoperation, hstored, SessionCache.put, Function.update_self,
            Option.some.injEq] at h
          subst h
          simp only [hcache, hstored]
          exact ⟨old', Function.update_self .., hentity⟩
      | some existing =>
          simp only [hoperation, hstored] at h
          simp only [hcache, hstored]
          obtain ⟨v, v', hv, hv', hrelated⟩ :
              ∃ v v', (replaceLoop key m maximumReplaceRetries
                  ⟨existing.version, m.runUpdate existing.entity⟩ cache).entries key = some v ∧
                (replaceLoop key m' maximumReplaceRetries
                  ⟨existing.version, m'.runUpdate existing.entity⟩ cache').entries key = some v' ∧
                R v.entity v'.entity :=
            replaceLoop_related hR hm _ hstored (hcache.trans hstored) rfl (hm existing.entity)
          cases h.symm.trans hv
          exact ⟨v', hv', hrelated⟩
  | replace =>
      simp only [hoperation, replace] at h ⊢
      cases hstored : cache.entries key with
      | none =>
          rw [(replaceLoop_eq_none_iff _ _ _).mpr hstored] at h
          cases h
      | some stored =>
          obtain ⟨v, v', hv, hv', hrelated⟩ := replaceLoop_related hR hm maximumReplaceRetries
            hstored (hcache.trans hstored) hversion hentity
          cases h.symm.trans hv
          exact ⟨v', hv', hrelated⟩

theorem replace_related (hR : Indifferent R) {m : MergedUpdate S}
    (hm : ∀ session, R session (m.runUpdate session)) {old stored : SessionEntityWrapper S}
    {cache : SessionCache K S} (hstored : cache.entries key = some stored)
    (hentity : stored.version = old.version → R stored.entity old.entity) :
    ∃ w, (replace key m old cache).entries key = some w ∧ R stored.entity w.entity := by
  have hattempt : ∀ (attempts : Nat) {old' : SessionEntityWrapper S} {cache : SessionCache K S},
      cache.entries key = some stored → stored.version = old'.version →
        R stored.entity old'.entity → ∃ w,
          (replaceLoop key m (attempts + 1) old' cache).entries key = some w ∧
            R stored.entity w.entity := by
    intro attempts old' cache hstored hversion hentity
    have hequals : stored.equals old' = true := by
      rw [SessionEntityWrapper.equals, hR.equals hentity, hR.self, hversion, beq_self_eq_true,
        Bool.and_self]
    simp only [replaceLoop, SessionCache.randomUUID, hstored, hequals, if_pos]
    exact ⟨_, Function.update_self .., hentity⟩
  unfold replace maximumReplaceRetries
  by_cases hversion : stored.version = old.version
  · exact hattempt 24 hstored hversion (hentity hversion)
  · -- the first attempt fails, and the second is made with what it has read
    have hequals : stored.equals old = false := by
      rw [SessionEntityWrapper.equals, beq_false_of_ne hversion, Bool.false_and]
    rw [replaceLoop]
    simp only [SessionCache.randomUUID, hstored, hequals]
    exact hattempt 23 hstored rfl (hm stored.entity)

/-- With a replacement queued last, a commit changes the entity it leaves under the key in the
way the task does and in no other. -/
theorem commitImpl_addTask_related (hR : Indifferent R) (hlast : ReplacesBy R last)
    (htx : tx.Consistent) (hcommit : tx.commitImpl = (final, .ok ()))
    {final' : SessionCache K S}
    (hcommit' : (tx.addTask (.onCached key last)).commitImpl = (final', .ok ()))
    {w : SessionEntityWrapper S} (hw : final.entries key = some w) :
    ∃ w', final'.entries key = some w' ∧ R w.entity w'.entity := by
  cases hu : tx.pending key with
  | none =>
      have hnone := (commitImpl_of_pending_none hu hcommit).1
      cases hw.symm.trans hnone
  | some u =>
      obtain ⟨hsteady, hunchanged⟩ := htx.pending hu
      have hu' := tx.pending_addTask_self key last
      rw [hu, Option.map_some] at hu'
      obtain ⟨merged, hmerged, before, hbefore, hfinal⟩ := commitImpl_key hu hcommit
      obtain ⟨merged', hmerged', before', hbefore', hfinal'⟩ := commitImpl_key hu' hcommit'
      rw [Transaction.addTask_onCached_cache] at hbefore'
      cases merged' with
      | none => exact absurd hmerged' (computeUpdate_ne_none (by simp [SessionUpdatesList.add]))
      | some m' =>
          cases merged with
          | none =>
              -- nothing else is queued, and the entry is the one the copy was made of
              have hempty : u.updateTasks = [] := by
                by_contra hne
                exact computeUpdate_ne_none hne hmerged
              have hstored : tx.cache.entries key = some w := hbefore.symm.trans
                (hfinal.symm.trans hw)
              rw [show (u.add last).updateTasks = [last] by simp [SessionUpdatesList.add, hempty]]
                at hmerged'
              cases hmerged'
              have hop : (MergedUpdate.ofChild last (u.add last).entityWrapper).operation =
                  .replace := hlast.operation _
              have hrun : ∀ session, R session ((MergedUpdate.ofChild last
                  (u.add last).entityWrapper).runUpdate session) := hlast.related
              rw [hfinal', Option.elim_some, runOperationInCluster, hop]
              refine replace_related hR hrun (hbefore'.trans hstored) fun hversion => ?_
              have hcopy := hunchanged hempty w hstored hversion
              rw [← hcopy]
              exact hlast.related _
          | some m =>
              have hm : m.operation ≠ .remove := by
                intro hremove
                rw [hfinal, Option.elim_some] at hw
                rw [runOperationInCluster_eq_none_iff.mpr (.inl hremove)] at hw
                cases hw
              obtain ⟨hop, hchildren⟩ := computeUpdate_concat hlast hsteady hmerged hm hmerged'
              have hrelated : ∀ session, R (m.runUpdate session) (m'.runUpdate session) := by
                intro session
                rcases hchildren with hchildren | hchildren
                · rw [MergedUpdate.runUpdate, MergedUpdate.runUpdate, hchildren]
                  exact hR.refl _
                · rw [MergedUpdate.runUpdate, MergedUpdate.runUpdate, hchildren, runTasks, runTasks,
                    List.foldl_append]
                  exact hlast.related _
              have hcopy : R u.entityWrapper.entity (u.add last).entityWrapper.entity :=
                hlast.related _
              have hversion : (u.add last).entityWrapper.version = u.entityWrapper.version := rfl
              rw [hfinal, Option.elim_some] at hw
              rw [hfinal', Option.elim_some]
              exact runOperationInCluster_related hR hrelated hop (hbefore'.trans hbefore.symm)
                hversion hcopy hw

end

end Keycloak.Sessions
