import Keycloak.Lib.Machine
import Keycloak.Sessions.Changelog

/-!
# The last refresh of a user session

The three writers of `lastSessionRefresh` in the local cache: transactions that set it
to the current time, the listener for refreshes of other data centers, and the listener
that merges the entity of the remote cache into the local one.

Every label is one cache operation of one party, or a local step between two of them;
a list of labels is an interleaving.  What a party reads from the cache is its own
copy.  The version of a new wrapper is drawn with the operation that writes it.
-/

namespace Keycloak.Sessions.LastSessionRefresh

/-- `RemoteCacheSessionListener.MAXIMUM_REPLACE_RETRIES`. -/
def maximumMergeRetries : Nat := 10

/-- `UserSessionEntity.mergeRemoteEntityWithLocalEntity`, for a session that is in the
local cache. -/
def mergeRemoteEntityWithLocalEntity (this localUserSession : UserSessionEntity) :
    UserSessionEntity :=
  if this.lastSessionRefresh < localUserSession.lastSessionRefresh then
    { this with lastSessionRefresh := localUserSession.lastSessionRefresh }
  else this

/-- Where a party stands.  `lastSet` is the argument of its last call of
`setLastSessionRefresh`. -/
inductive Phase where
  | idle
  /-- A transaction with its copy of the session and its queue. -/
  | running (updates : SessionUpdatesList UserSessionEntity) (lastSet : Nat)
  /-- Before a `replace` attempt; `iteration` attempts were made. -/
  | replacing (merged : MergedUpdate UserSessionEntity)
      (oldVersionEntity : SessionEntityWrapper UserSessionEntity) (iteration lastSet : Nat)
  /-- After a failed attempt, before the `get`. -/
  | rereading (merged : MergedUpdate UserSessionEntity) (iteration lastSet : Nat)
  /-- `replaceRemoteEntityInCache` before its `cache.get`. -/
  | merging (eventVersion replaceRetries : Nat)
  /-- Before `remoteCache.getWithMetadata`. -/
  | mergeRead (eventVersion replaceRetries : Nat)
      (localEntityWrapper : SessionEntityWrapper UserSessionEntity)
  /-- Before the `replace` with the merged entity. -/
  | mergeReplace (eventVersion replaceRetries : Nat)
      (localEntityWrapper : SessionEntityWrapper UserSessionEntity)
      (sessionEntity : UserSessionEntity)
  | ended

structure State (ι : Type) where
  stored : SessionEntityWrapper UserSessionEntity
  nextVersion : Nat
  now : Nat
  phase : ι → Phase

inductive Label (ι : Type) where
  | tick
  /-- A transaction reads the session. -/
  | get (i : ι)
  /-- It calls `setLastSessionRefresh` with the current time. -/
  | setLastSessionRefresh (i : ι)
  | commit (i : ι)
  /-- `LastSessionRefreshListener` handles a refresh at an earlier time. -/
  | eventReceived (i : ι) (lastSessionRefresh : Nat)
  | replace (i : ι)
  | reread (i : ι)
  /-- The remote cache tells of a modification. -/
  | updated (i : ι) (eventVersion : Nat)
  | getLocal (i : ι)
  /-- The version and the entity that the remote cache has, if there is one. -/
  | getWithMetadata (i : ι) (remote : Option (Nat × UserSessionEntity))
  | mergeReplace (i : ι)
  deriving DecidableEq

/-- `commitImpl`, up to the first `replace` attempt.  The tasks queued here are
replacements, and so is what they are merged into. -/
def commitImpl (updates : SessionUpdatesList UserSessionEntity) (lastSet : Nat) : Phase :=
  match MergedUpdate.computeUpdate updates.updateTasks updates.entityWrapper with
  | .ok (some merged) =>
      if merged.operation = .replace then .replacing merged updates.entityWrapper 0 lastSet
      else .ended
  | .ok none => .ended
  | .error _ => .ended

/-- The condition of the loop of `replaceRemoteEntityInCache` after a failed round. -/
def mergeAgain (eventVersion replaceRetries : Nat) : Phase :=
  if replaceRetries < maximumMergeRetries then .merging eventVersion replaceRetries
  else .ended

section

variable {ι : Type} [DecidableEq ι]

def State.setPhase (s : State ι) (i : ι) (phase : Phase) : State ι :=
  { s with phase := Function.update s.phase i phase }

/-- The atomic `replace` of the wrapper `old` by `entity` in a wrapper with a fresh
version. -/
def State.compareAndReplace (s : State ι) (i : ι) (old : SessionEntityWrapper UserSessionEntity)
    (entity : UserSessionEntity) (failed : Phase) : State ι :=
  if s.stored.equals old then
    { s with
      stored := ⟨s.nextVersion, entity⟩
      nextVersion := s.nextVersion + 1
      phase := Function.update s.phase i .ended }
  else
    { s with
      nextVersion := s.nextVersion + 1
      phase := Function.update s.phase i failed }

def step (s : State ι) : Label ι → Option (State ι)
  | .tick => some { s with now := s.now + 1 }
  | .get i =>
      match s.phase i with
      | .idle => some (s.setPhase i (.running ⟨s.stored, []⟩ s.stored.entity.lastSessionRefresh))
      | _ => none
  | .setLastSessionRefresh i =>
      match s.phase i with
      | .running updates _ =>
          let task := Sessions.setLastSessionRefresh s.now
          some (s.setPhase i (.running (updates.add task) s.now))
      | _ => none
  | .commit i =>
      match s.phase i with
      | .running updates lastSet => some (s.setPhase i (commitImpl updates lastSet))
      | _ => none
  | .eventReceived i lastSessionRefresh =>
      match s.phase i with
      | .idle =>
          if lastSessionRefresh ≤ s.now then
            if lastSessionRefresh > s.stored.entity.lastSessionRefresh then
              let updates : SessionUpdatesList UserSessionEntity := ⟨s.stored, []⟩
              let task := Sessions.setLastSessionRefresh lastSessionRefresh
              some (s.setPhase i (commitImpl (updates.add task) lastSessionRefresh))
            else some (s.setPhase i .ended)
          else none
      | _ => none
  | .replace i =>
      match s.phase i with
      | .replacing merged old iteration lastSet =>
          some (s.compareAndReplace i old old.entity (.rereading merged (iteration + 1) lastSet))
      | _ => none
  | .reread i =>
      match s.phase i with
      | .rereading merged iteration lastSet =>
          if iteration < maximumReplaceRetries then
            let session := merged.runUpdate s.stored.entity
            some (s.setPhase i
              (.replacing merged ⟨s.stored.version, session⟩ iteration lastSet))
          else some (s.setPhase i .ended)
      | _ => none
  | .updated i eventVersion =>
      match s.phase i with
      | .idle => some (s.setPhase i (.merging eventVersion 0))
      | _ => none
  | .getLocal i =>
      match s.phase i with
      | .merging eventVersion replaceRetries =>
          some (s.setPhase i (.mergeRead eventVersion (replaceRetries + 1) s.stored))
      | _ => none
  | .getWithMetadata i remote =>
      match s.phase i with
      | .mergeRead eventVersion replaceRetries localEntityWrapper =>
          match remote with
          | none => some (s.setPhase i .ended)
          | some (version, remoteSession) =>
              if remoteSession.lastSessionRefresh ≤ s.now then
                if version < eventVersion then
                  some (s.setPhase i (mergeAgain eventVersion replaceRetries))
                else
                  some (s.setPhase i (.mergeReplace eventVersion replaceRetries
                    localEntityWrapper
                    (mergeRemoteEntityWithLocalEntity remoteSession localEntityWrapper.entity)))
              else none
      | _ => none
  | .mergeReplace i =>
      match s.phase i with
      | .mergeReplace eventVersion replaceRetries localEntityWrapper sessionEntity =>
          some (s.compareAndReplace i localEntityWrapper sessionEntity
            (mergeAgain eventVersion replaceRetries))
      | _ => none

def initial (entity : UserSessionEntity) : State ι where
  stored := ⟨0, entity⟩
  nextVersion := 1
  now := entity.lastSessionRefresh
  phase _ := .idle

/-- What a transaction reads again after a failed attempt, with an attempt left, was not
refreshed later than at the time that it sets. -/
def RereadsNotLater (s : State ι) : Label ι → Prop
  | .reread i =>
      match s.phase i with
      | .rereading _ iteration lastSet =>
          iteration < maximumReplaceRetries → s.stored.entity.lastSessionRefresh ≤ lastSet
      | _ => True
  | _ => True

end

/-! ## Queued refreshes -/

def refreshes (times : List Nat) : List (SessionUpdateTask UserSessionEntity) :=
  times.map Sessions.setLastSessionRefresh

/-- A queue of refreshes leaves the last of their times, and nothing else changed. -/
theorem runTasks_refreshes_append (times : List Nat) (time : Nat) (e : UserSessionEntity) :
    runTasks (refreshes (times ++ [time])) e = { e with lastSessionRefresh := time } := by
  induction times generalizing e with
  | nil => rfl
  | cons first times ih => exact ih { e with lastSessionRefresh := first }

theorem computeLoop_refreshes (w : SessionEntityWrapper UserSessionEntity) (times : List Nat)
    (result : MergedUpdate UserSessionEntity) (hop : result.operation = .replace) :
    ∃ merged, MergedUpdate.computeLoop w result (refreshes times) = .ok merged ∧
      merged.operation = .replace ∧
      merged.childUpdates = result.childUpdates ++ refreshes times := by
  induction times generalizing result with
  | nil => exact ⟨result, rfl, hop, by simp [refreshes]⟩
  | cons time times ih =>
      simp only [refreshes, List.map_cons, MergedUpdate.computeLoop, hop]
      obtain ⟨merged, hmerged, hreplace, hchildren⟩ := ih
        { childUpdates := result.childUpdates ++ [Sessions.setLastSessionRefresh time]
          operation := .replace
          crossDCMessageStatus :=
            if result.crossDCMessageStatus ≠ .sync then
              result.crossDCMessageStatus.merge
                ((Sessions.setLastSessionRefresh time).getCrossDCMessageStatus w)
            else result.crossDCMessageStatus } rfl
      refine ⟨merged, hmerged, hreplace, ?_⟩
      rw [hchildren, List.append_assoc]
      rfl

theorem computeUpdate_refreshes (w : SessionEntityWrapper UserSessionEntity) (time : Nat)
    (times : List Nat) :
    ∃ merged, MergedUpdate.computeUpdate (refreshes (time :: times)) w = .ok (some merged) ∧
      merged.operation = .replace ∧ merged.childUpdates = refreshes (time :: times) := by
  obtain ⟨merged, hmerged, hreplace, hchildren⟩ :=
    computeLoop_refreshes w times (.ofChild (Sessions.setLastSessionRefresh time) w) rfl
  refine ⟨merged, ?_, hreplace, hchildren⟩
  simp only [refreshes, List.map_cons, MergedUpdate.computeUpdate]
  simp only [refreshes] at hmerged
  rw [hmerged]

/-! ## The invariant -/

section

variable {ι : Type}

/-- A copy that could still be exchanged for the stored entity is not behind it, and no
copy is ahead of the time. -/
structure UpToDate (s : State ι) (w : SessionEntityWrapper UserSessionEntity) : Prop where
  version : w.version < s.nextVersion
  le_now : w.entity.lastSessionRefresh ≤ s.now
  notBehind : w.version = s.stored.version →
    s.stored.entity.lastSessionRefresh ≤ w.entity.lastSessionRefresh

/-- The update sets the time `lastSet` and nothing else, whatever it is run on. -/
def Sets (merged : MergedUpdate UserSessionEntity) (lastSet : Nat) : Prop :=
  ∀ e, merged.runUpdate e = { e with lastSessionRefresh := lastSet }

def Queued (tasks : List (SessionUpdateTask UserSessionEntity)) (lastSet : Nat) : Prop :=
  tasks = [] ∨ ∃ times, tasks = refreshes (times ++ [lastSet])

def PhaseInv (s : State ι) : Phase → Prop
  | .running updates lastSet =>
      UpToDate s updates.entityWrapper ∧ Queued updates.updateTasks lastSet ∧ lastSet ≤ s.now
  | .replacing merged old _ lastSet => UpToDate s old ∧ Sets merged lastSet ∧ lastSet ≤ s.now
  | .rereading merged _ lastSet => Sets merged lastSet ∧ lastSet ≤ s.now
  | .mergeRead _ _ localEntityWrapper => UpToDate s localEntityWrapper
  | .mergeReplace _ _ localEntityWrapper sessionEntity =>
      UpToDate s ⟨localEntityWrapper.version, sessionEntity⟩
  | _ => True

structure Inv (s : State ι) : Prop where
  stored : UpToDate s s.stored
  phases : ∀ i, PhaseInv s (s.phase i)

theorem Inv.phaseInv {s : State ι} (h : Inv s) {i : ι} {phase : Phase}
    (hphase : s.phase i = phase) : PhaseInv s phase :=
  hphase ▸ h.phases i

theorem initial_inv (entity : UserSessionEntity) : Inv (initial entity : State ι) where
  stored := ⟨Nat.zero_lt_one, Nat.le_refl _, fun _ => Nat.le_refl _⟩
  phases _ := trivial

/-- What the steps of the other parties may do: time passes, versions are drawn, and the
entity is replaced under a version that nobody has read. -/
structure Later (s s' : State ι) : Prop where
  now : s.now ≤ s'.now
  nextVersion : s.nextVersion ≤ s'.nextVersion
  stored : s'.stored = s.stored ∨ s.nextVersion ≤ s'.stored.version

theorem UpToDate.later {s s' : State ι} {w : SessionEntityWrapper UserSessionEntity}
    (h : UpToDate s w) (hlater : Later s s') : UpToDate s' w where
  version := Nat.lt_of_lt_of_le h.version hlater.nextVersion
  le_now := Nat.le_trans h.le_now hlater.now
  notBehind heq := by
    rcases hlater.stored with hsame | hfresh
    · rw [hsame] at heq ⊢
      exact h.notBehind heq
    · have hlt := h.version
      omega

theorem PhaseInv.later {s s' : State ι} {phase : Phase} (h : PhaseInv s phase)
    (hlater : Later s s') : PhaseInv s' phase := by
  cases phase with
  | running updates lastSet =>
      exact ⟨h.1.later hlater, h.2.1, Nat.le_trans h.2.2 hlater.now⟩
  | replacing merged old iteration lastSet =>
      exact ⟨h.1.later hlater, h.2.1, Nat.le_trans h.2.2 hlater.now⟩
  | rereading merged iteration lastSet => exact ⟨h.1, Nat.le_trans h.2 hlater.now⟩
  | mergeRead eventVersion replaceRetries w => exact UpToDate.later h hlater
  | mergeReplace eventVersion replaceRetries w e => exact UpToDate.later h hlater
  | idle => trivial
  | merging eventVersion replaceRetries => trivial
  | ended => trivial

theorem Inv.upToDate {s : State ι} (h : Inv s) {e : UserSessionEntity}
    (hle : e.lastSessionRefresh ≤ s.now)
    (hge : s.stored.entity.lastSessionRefresh ≤ e.lastSessionRefresh) :
    UpToDate s ⟨s.stored.version, e⟩ :=
  ⟨h.stored.version, hle, fun _ => hge⟩

theorem commitImpl_phaseInv {s : State ι} {updates : SessionUpdatesList UserSessionEntity}
    {lastSet : Nat} (hcopy : UpToDate s updates.entityWrapper)
    (hqueued : Queued updates.updateTasks lastSet) (hle : lastSet ≤ s.now) :
    PhaseInv s (commitImpl updates lastSet) := by
  rw [commitImpl]
  rcases hqueued with hnone | ⟨times, htasks⟩
  · rw [hnone]
    trivial
  · obtain ⟨first, rest, hcons⟩ : ∃ first rest, times ++ [lastSet] = first :: rest :=
      List.exists_cons_of_ne_nil (by simp)
    rw [htasks, hcons]
    obtain ⟨merged, hmerged, hreplace, hchildren⟩ :=
      computeUpdate_refreshes updates.entityWrapper first rest
    rw [hmerged]
    simp only [hreplace, if_true]
    refine ⟨hcopy, fun e => ?_, hle⟩
    rw [MergedUpdate.runUpdate, hchildren, ← hcons]
    exact runTasks_refreshes_append times lastSet e

theorem mergeAgain_phaseInv (s : State ι) (eventVersion replaceRetries : Nat) :
    PhaseInv s (mergeAgain eventVersion replaceRetries) := by
  rw [mergeAgain]
  split <;> trivial

theorem UpToDate.merge {s : State ι} {w : SessionEntityWrapper UserSessionEntity}
    {remoteSession : UserSessionEntity} (h : UpToDate s w)
    (hremote : remoteSession.lastSessionRefresh ≤ s.now) :
    UpToDate s ⟨w.version, mergeRemoteEntityWithLocalEntity remoteSession w.entity⟩ := by
  rw [mergeRemoteEntityWithLocalEntity]
  split
  · exact ⟨h.version, h.le_now, h.notBehind⟩
  · rename_i hge
    exact ⟨h.version, hremote, fun heq => Nat.le_trans (h.notBehind heq) (Nat.le_of_not_lt hge)⟩

variable [DecidableEq ι]

theorem Inv.phases_update {s s' : State ι} (h : Inv s) (hlater : Later s s') {i : ι}
    {phase : Phase} (hupdate : s'.phase = Function.update s.phase i phase)
    (hphase : PhaseInv s' phase) (j : ι) : PhaseInv s' (s'.phase j) := by
  rw [hupdate]
  rcases eq_or_ne j i with rfl | hne
  · rwa [Function.update_self]
  · rw [Function.update_of_ne hne]
    exact (h.phases j).later hlater

theorem Inv.setPhase {s : State ι} (h : Inv s) (i : ι) {phase : Phase}
    (hphase : PhaseInv s phase) : Inv (s.setPhase i phase) := by
  have hlater : Later s (s.setPhase i phase) := ⟨Nat.le_refl _, Nat.le_refl _, .inl rfl⟩
  exact ⟨h.stored.later hlater, h.phases_update hlater rfl (hphase.later hlater)⟩

/-- A compare-and-replace by a copy that is up to date does not go back. -/
theorem Inv.compareAndReplace {s : State ι} (h : Inv s) (i : ι)
    {old : SessionEntityWrapper UserSessionEntity} {entity : UserSessionEntity} {failed : Phase}
    (hcopy : UpToDate s ⟨old.version, entity⟩) (hfailed : PhaseInv s failed) :
    Inv (s.compareAndReplace i old entity failed) ∧
      s.stored.entity.lastSessionRefresh ≤
        (s.compareAndReplace i old entity failed).stored.entity.lastSessionRefresh := by
  rw [State.compareAndReplace]
  split
  · rename_i hequals
    have hversion : old.version = s.stored.version := by
      rw [SessionEntityWrapper.equals, Bool.and_eq_true, beq_iff_eq] at hequals
      exact hequals.1.symm
    refine ⟨⟨⟨Nat.lt_succ_self _, hcopy.le_now, fun _ => Nat.le_refl _⟩, ?_⟩,
      hcopy.notBehind hversion⟩
    exact h.phases_update ⟨Nat.le_refl _, Nat.le_succ _, .inr (Nat.le_refl _)⟩ rfl trivial
  · have hlater : Later s
        { s with
          nextVersion := s.nextVersion + 1
          phase := Function.update s.phase i failed } :=
      ⟨Nat.le_refl _, Nat.le_succ _, .inl rfl⟩
    exact ⟨⟨h.stored.later hlater, h.phases_update hlater rfl (hfailed.later hlater)⟩,
      Nat.le_refl _⟩

/-! ## Steps -/

/-- A step keeps the invariant and does not take the stored refresh back, provided that a
re-read entity was not refreshed later than the queued task sets it. -/
theorem step_inv {s s' : State ι} {label : Label ι} (h : Inv s)
    (hok : RereadsNotLater s label) (hstep : step s label = some s') :
    Inv s' ∧ s.stored.entity.lastSessionRefresh ≤ s'.stored.entity.lastSessionRefresh := by
  cases label with
  | tick =>
      cases hstep
      have hlater : Later s { s with now := s.now + 1 } :=
        ⟨Nat.le_succ _, Nat.le_refl _, .inl rfl⟩
      exact ⟨⟨h.stored.later hlater, fun i => (h.phases i).later hlater⟩, Nat.le_refl _⟩
  | get i =>
      simp only [step] at hstep
      split at hstep
      · cases hstep
        refine ⟨h.setPhase i ⟨h.stored, .inl rfl, h.stored.le_now⟩, Nat.le_refl _⟩
      · cases hstep
  | setLastSessionRefresh i =>
      simp only [step] at hstep
      split at hstep
      · rename_i updates lastSet hphase
        cases hstep
        obtain ⟨hcopy, hqueued, -⟩ := h.phaseInv hphase
        refine ⟨h.setPhase i ⟨⟨hcopy.version, Nat.le_refl _, fun _ => h.stored.le_now⟩, ?_,
          Nat.le_refl _⟩, Nat.le_refl _⟩
        rcases hqueued with hnone | ⟨times, htasks⟩
        · exact .inr ⟨[], by simp [SessionUpdatesList.add, hnone, refreshes]⟩
        · exact .inr ⟨times ++ [lastSet], by simp [SessionUpdatesList.add, htasks, refreshes]⟩
      · cases hstep
  | commit i =>
      simp only [step] at hstep
      split at hstep
      · rename_i updates lastSet hphase
        cases hstep
        obtain ⟨hcopy, hqueued, hle⟩ := h.phaseInv hphase
        exact ⟨h.setPhase i (commitImpl_phaseInv hcopy hqueued hle), Nat.le_refl _⟩
      · cases hstep
  | eventReceived i lastSessionRefresh =>
      simp only [step] at hstep
      split at hstep
      · split at hstep
        · rename_i hle
          split at hstep
          · rename_i hgt
            cases hstep
            refine ⟨h.setPhase i (commitImpl_phaseInv ?_ (.inr ⟨[], rfl⟩) hle), Nat.le_refl _⟩
            exact h.upToDate hle (Nat.le_of_lt hgt)
          · cases hstep
            exact ⟨h.setPhase i trivial, Nat.le_refl _⟩
        · cases hstep
      · cases hstep
  | replace i =>
      simp only [step] at hstep
      split at hstep
      · rename_i merged old iteration lastSet hphase
        cases hstep
        obtain ⟨hcopy, hsets, hle⟩ := h.phaseInv hphase
        exact h.compareAndReplace i hcopy ⟨hsets, hle⟩
      · cases hstep
  | reread i =>
      simp only [step] at hstep
      split at hstep
      · rename_i merged iteration lastSet hphase
        obtain ⟨hsets, hle⟩ := h.phaseInv hphase
        split at hstep
        · rename_i hattempts
          cases hstep
          rw [RereadsNotLater, hphase] at hok
          refine ⟨h.setPhase i ⟨h.upToDate ?_ ?_, hsets, hle⟩, Nat.le_refl _⟩
          · rw [hsets]
            exact hle
          · rw [hsets]
            exact hok hattempts
        · cases hstep
          exact ⟨h.setPhase i trivial, Nat.le_refl _⟩
      · cases hstep
  | updated i eventVersion =>
      simp only [step] at hstep
      split at hstep
      · cases hstep
        exact ⟨h.setPhase i trivial, Nat.le_refl _⟩
      · cases hstep
  | getLocal i =>
      simp only [step] at hstep
      split at hstep
      · cases hstep
        exact ⟨h.setPhase i h.stored, Nat.le_refl _⟩
      · cases hstep
  | getWithMetadata i remote =>
      simp only [step] at hstep
      split at hstep
      · rename_i eventVersion replaceRetries w hphase
        have hread := h.phaseInv hphase
        split at hstep
        · cases hstep
          exact ⟨h.setPhase i trivial, Nat.le_refl _⟩
        · split at hstep
          · rename_i hremote
            split at hstep
            · cases hstep
              exact ⟨h.setPhase i (mergeAgain_phaseInv s _ _), Nat.le_refl _⟩
            · cases hstep
              exact ⟨h.setPhase i (UpToDate.merge hread hremote), Nat.le_refl _⟩
          · cases hstep
      · cases hstep
  | mergeReplace i =>
      simp only [step] at hstep
      split at hstep
      · rename_i eventVersion replaceRetries w sessionEntity hphase
        cases hstep
        have hmerged := h.phaseInv hphase
        exact h.compareAndReplace i hmerged (mergeAgain_phaseInv s _ _)
      · cases hstep

/-! ## Runs -/

/-- The refresh stored for the session does not go back between two points of a run, as
long as no transaction re-reads a session refreshed later than the time it sets. -/
theorem lastSessionRefresh_monotone (entity : UserSessionEntity) {pre post : List (Label ι)}
    {s t : State ι} (hok : Machine.Meets step RereadsNotLater (initial entity) (pre ++ post))
    (hpre : Machine.run step (initial entity) pre = some s)
    (hrun : Machine.run step (initial entity) (pre ++ post) = some t) :
    s.stored.entity.lastSessionRefresh ≤ t.stored.entity.lastSessionRefresh := by
  have hstep : ∀ (s : State ι) label s', Inv s → RereadsNotLater s label →
      step s label = some s' →
      Inv s' ∧ s.stored.entity.lastSessionRefresh ≤ s'.stored.entity.lastSessionRefresh :=
    fun _ _ _ h hok hstep => step_inv h hok hstep
  have hinv : Inv s :=
    Machine.run_invariant (fun s label s' h hok hs => (hstep s label s' h hok hs).1)
      (initial_inv entity) (hok.of_prefix (List.prefix_append pre post)) hpre
  obtain ⟨m, hm, hpost⟩ := Machine.run_append_eq_some.mp hrun
  rw [hpre, Option.some.injEq] at hm
  subst hm
  exact Machine.run_monotone hstep hinv (hok.of_append hpre) hpost

/-- Otherwise the next attempt of that transaction, made at once, takes it back. -/
theorem Inv.reread_later_goes_back {s : State ι} (h : Inv s) {i : ι}
    {merged : MergedUpdate UserSessionEntity} {iteration lastSet : Nat}
    (hphase : s.phase i = .rereading merged iteration lastSet)
    (hattempts : iteration < maximumReplaceRetries)
    (hlater : lastSet < s.stored.entity.lastSessionRefresh) :
    ∃ t, Machine.run step s [.reread i, .replace i] = some t ∧
      t.stored.entity.lastSessionRefresh < s.stored.entity.lastSessionRefresh := by
  obtain ⟨hsets, -⟩ := h.phaseInv hphase
  let old : SessionEntityWrapper UserSessionEntity :=
    ⟨s.stored.version, merged.runUpdate s.stored.entity⟩
  let m := s.setPhase i (.replacing merged old iteration lastSet)
  have hreread : step s (.reread i) = some m := by
    simp only [step, hphase, if_pos hattempts]
    rfl
  have hreplace : step m (.replace i) =
      some (m.compareAndReplace i old old.entity (.rereading merged (iteration + 1) lastSet)) := by
    have hreplacing : m.phase i = .replacing merged old iteration lastSet :=
      Function.update_self ..
    simp only [step, hreplacing]
  refine ⟨_, Machine.run_cons_eq_some.mpr ⟨m, hreread,
    Machine.run_cons_eq_some.mpr ⟨_, hreplace, rfl⟩⟩, ?_⟩
  have hequals : m.stored.equals old := by
    change s.stored.equals old
    simp [old, SessionEntityWrapper.equals, SessionEntity.equals, hsets s.stored.entity]
  rw [State.compareAndReplace, if_pos hequals]
  change (merged.runUpdate s.stored.entity).lastSessionRefresh < _
  rw [hsets]
  exact hlater

end

/-- Two transactions read the session; the second one sets a later time and commits first,
then the first one tries, reads again and replaces. -/
def secondCommitsFirst : List (Label Bool) :=
  [.get false, .get true, .tick, .setLastSessionRefresh false, .tick,
    .setLastSessionRefresh true, .commit true, .replace true]

def firstRetries : List (Label Bool) :=
  [.commit false, .replace false, .reread false, .replace false]

/-- The retry writes the earlier time over the later one. -/
theorem firstRetries_goes_back :
    ∃ s t, Machine.run step (initial (sessionAt 10)) secondCommitsFirst = some s ∧
      Machine.run step (initial (sessionAt 10)) (secondCommitsFirst ++ firstRetries) = some t ∧
      s.stored.entity.lastSessionRefresh = 12 ∧ t.stored.entity.lastSessionRefresh = 11 :=
  ⟨_, _, rfl, rfl, rfl, rfl⟩

/-- The same with the times the other way round: the retry writes the later time. -/
def firstSetsEarlier : List (Label Bool) :=
  [.get false, .get true, .tick, .setLastSessionRefresh true, .commit true, .tick,
    .setLastSessionRefresh false, .replace true]

theorem firstSetsEarlier_monotone :
    ∃ s t, Machine.run step (initial (sessionAt 10)) firstSetsEarlier = some s ∧
      Machine.run step (initial (sessionAt 10)) (firstSetsEarlier ++ firstRetries) = some t ∧
      s.stored.entity.lastSessionRefresh ≤ t.stored.entity.lastSessionRefresh := by
  have hok : Machine.Meets step RereadsNotLater (initial (sessionAt 10))
      (firstSetsEarlier ++ firstRetries) :=
    .cons trivial rfl (.cons trivial rfl (.cons trivial rfl (.cons trivial rfl
      (.cons trivial rfl (.cons trivial rfl (.cons trivial rfl (.cons trivial rfl
      (.cons trivial rfl (.cons trivial rfl (.cons (fun _ => by decide) rfl
      (.cons trivial rfl trivial)))))))))))
  exact ⟨_, _, rfl, rfl, lastSessionRefresh_monotone (sessionAt 10) hok rfl rfl⟩

end Keycloak.Sessions.LastSessionRefresh
