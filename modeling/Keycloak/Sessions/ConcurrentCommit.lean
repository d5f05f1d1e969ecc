import Keycloak.Lib.Machine
import Keycloak.Sessions.Changelog

/-!
# Concurrent commits to one session

Any number of changelog transactions work on one cache key.  Each transaction is a
little program whose steps are its single cache operations: the `get` of its first
`addTask`, the `putIfAbsent` of an `ADD_IF_ABSENT` commit, the `replace` of one
attempt and the `get` after a failed one.  A schedule is a list of transaction ids;
every occurrence lets that transaction do its next cache operation, so every list is
one interleaving.

A read gives the transaction a copy of its own: what it does to the copy is not seen
in the cache.  `applied` and `base` are ghost state.  They record the order of the
successful writes and the entity the first of them was computed from.
-/

namespace Keycloak.Sessions.ConcurrentCommit

/-- A transaction: the entity it creates, or none if it works on the cached one, and
its tasks.  No task removes the session. -/
structure Program (S : Type) where
  created : Option S
  tasks : List (SessionUpdateTask S)
  noRemove : ∀ t ∈ tasks, ∀ s, t.getOperation s ≠ .remove

inductive Phase (S : Type) where
  /-- Before its first `addTask`. -/
  | idle
  /-- All tasks queued; `read` is the entity before the tasks ran on it. -/
  | holding (read : S) (updates : SessionUpdatesList S)
  /-- Before a `replace` attempt; `iteration` attempts were made. -/
  | replacing (merged : MergedUpdate S) (oldVersionEntity : SessionEntityWrapper S)
      (iteration : Nat)
  /-- After a failed attempt, before the `get`. -/
  | rereading (merged : MergedUpdate S) (iteration : Nat)
  /-- The update is in the cache. -/
  | done
  /-- The key was absent at the first `addTask`: nothing was queued. -/
  | nothing
  /-- The entity was gone when read again; the update is ignored. -/
  | ignored
  /-- `MAXIMUM_REPLACE_RETRIES` attempts failed. -/
  | gaveUp

structure State (ι S : Type) where
  stored : Option (SessionEntityWrapper S)
  nextVersion : Nat
  phase : ι → Phase S
  applied : List ι
  base : Option S

section

variable {ι S : Type} [DecidableEq ι] [SessionEntity S]

def queueAll (tasks : List (SessionUpdateTask S)) (w : SessionEntityWrapper S) :
    SessionUpdatesList S :=
  tasks.foldl SessionUpdatesList.add ⟨w, []⟩

def State.setPhase (s : State ι S) (i : ι) (phase : Phase S) : State ι S :=
  { s with phase := Function.update s.phase i phase }

def State.write (s : State ι S) (i : ι) (w : SessionEntityWrapper S) : State ι S :=
  { s with
    stored := some w
    phase := Function.update s.phase i .done
    applied := s.applied ++ [i] }

/-- One `replace` attempt of `replace`: a fresh version, then the atomic comparison of
the stored wrapper with the old one. -/
def attempt (s : State ι S) (i : ι) (merged : MergedUpdate S)
    (old : SessionEntityWrapper S) (iteration : Nat) : State ι S :=
  let version := s.nextVersion
  let s := { s with nextVersion := version + 1 }
  match s.stored with
  | none => s.setPhase i (.rereading merged (iteration + 1))
  | some w =>
      if w.equals old then s.write i ⟨version, old.entity⟩
      else s.setPhase i (.rereading merged (iteration + 1))

/-- The next cache operation of transaction `i`.  There is none once it has ended, and
none for the operations `ADD` and `REMOVE`. -/
def step (prog : ι → Program S) (s : State ι S) (i : ι) : Option (State ι S) :=
  match s.phase i with
  | .idle =>
      match (prog i).created with
      | some entity =>
          let s' := { s with nextVersion := s.nextVersion + 1 }
          some (s'.setPhase i
            (.holding entity (queueAll (prog i).tasks ⟨s.nextVersion, entity⟩)))
      | none =>
          match s.stored with
          | none => some (s.setPhase i .nothing)
          | some w => some (s.setPhase i (.holding w.entity (queueAll (prog i).tasks w)))
  | .holding read updates =>
      match MergedUpdate.computeUpdate updates.updateTasks updates.entityWrapper with
      | .error _ => none
      | .ok none => none
      | .ok (some merged) =>
          match merged.operation with
          | .replace => some (s.setPhase i (.replacing merged updates.entityWrapper 0))
          | .addIfAbsent =>
              match s.stored with
              | none => some { s.write i updates.entityWrapper with base := some read }
              | some existing =>
                  some (s.setPhase i (.replacing merged
                    ⟨existing.version, merged.runUpdate existing.entity⟩ 0))
          | .add => none
          | .remove => none
  | .replacing merged old iteration => some (attempt s i merged old iteration)
  | .rereading merged iteration =>
      match s.stored with
      | none => some (s.setPhase i .ignored)
      | some w =>
          if iteration < maximumReplaceRetries then
            some (s.setPhase i
              (.replacing merged ⟨w.version, merged.runUpdate w.entity⟩ iteration))
          else some (s.setPhase i .gaveUp)
  | .done => none
  | .nothing => none
  | .ignored => none
  | .gaveUp => none

def initial (stored : Option (SessionEntityWrapper S)) (nextVersion : Nat) : State ι S :=
  ⟨stored, nextVersion, fun _ => .idle, [], stored.map (·.entity)⟩

end

/-! ## The invariant -/

section

variable {ι S : Type}

def applyAll (prog : ι → Program S) (order : List ι) (entity : S) : S :=
  order.foldl (fun e i => runTasks (prog i).tasks e) entity

def Phase.hand : Phase S → Option (SessionEntityWrapper S)
  | .holding _ updates => some updates.entityWrapper
  | .replacing _ old _ => some old
  | _ => none

/-- A copy in hand is up to date whenever its version is the stored one: it is then
the stored entity with the transaction's own tasks applied. -/
def InHand (prog : ι → Program S) (s : State ι S) (i : ι)
    (w : SessionEntityWrapper S) : Prop :=
  w.version < s.nextVersion ∧
    ∀ stored, s.stored = some stored → stored.version = w.version →
      w.entity = runTasks (prog i).tasks stored.entity

def PhaseInv (prog : ι → Program S) (stored : Option (SessionEntityWrapper S)) (i : ι) :
    Phase S → Prop
  | .holding read updates =>
      updates.updateTasks = (prog i).tasks ∧
        updates.entityWrapper.entity = runTasks (prog i).tasks read ∧
        (stored = none → (prog i).created = some read)
  | .replacing merged _ _ => merged.childUpdates = (prog i).tasks
  | .rereading merged _ => merged.childUpdates = (prog i).tasks
  | _ => True

/-- The cache holds the base entity with the updates of the applied transactions, each
once, in the order of their writes. -/
structure Inv (prog : ι → Program S) (start : Option (SessionEntityWrapper S))
    (s : State ι S) : Prop where
  fresh : ∀ w, s.stored = some w → w.version < s.nextVersion
  content : ∀ w, s.stored = some w →
    ∃ e, s.base = some e ∧ w.entity = applyAll prog s.applied e
  absent : s.stored = none → s.applied = []
  nodup : s.applied.Nodup
  applied : ∀ i, i ∈ s.applied ↔ s.phase i = .done
  baseStart : ∀ w, start = some w → s.base = some w.entity
  baseCreated : start = none → s.stored ≠ none →
    ∃ i rest, s.applied = i :: rest ∧ s.base = (prog i).created
  startStored : start ≠ none → s.stored ≠ none
  phases : ∀ i, PhaseInv prog s.stored i (s.phase i)
  inHand : ∀ i w, (s.phase i).hand = some w → InHand prog s i w
  distinct : s.stored = none → ∀ i j v w, (s.phase i).hand = some v →
    (s.phase j).hand = some w → v.version = w.version → i = j

theorem queueAll_eq (tasks : List (SessionUpdateTask S)) (w : SessionEntityWrapper S) :
    queueAll tasks w = ⟨⟨w.version, runTasks tasks w.entity⟩, tasks⟩ := by
  have hgen : ∀ (ts : List (SessionUpdateTask S)) (u : SessionUpdatesList S),
      ts.foldl SessionUpdatesList.add u =
        ⟨⟨u.entityWrapper.version, runTasks ts u.entityWrapper.entity⟩,
          u.updateTasks ++ ts⟩ := by
    intro ts
    induction ts with
    | nil => simp
    | cons t ts ih => simp [ih, SessionUpdatesList.add, runTasks]
  simpa [queueAll] using hgen tasks ⟨w, []⟩

theorem inv_initial (prog : ι → Program S) (start : Option (SessionEntityWrapper S))
    (nextVersion : Nat) (hfresh : ∀ w, start = some w → w.version < nextVersion) :
    Inv prog start (initial start nextVersion) where
  fresh := hfresh
  content w hw := ⟨w.entity, by simp_all [initial], rfl⟩
  absent _ := rfl
  nodup := List.nodup_nil
  applied i := by simp [initial]
  baseStart w hw := by simp [initial, hw]
  baseCreated hnone hstored := (hstored hnone).elim
  startStored h := h
  phases i := trivial
  inHand i w hw := by simp [initial, Phase.hand] at hw
  distinct _ i j v w hv := by simp [initial, Phase.hand] at hv

variable {prog : ι → Program S} {start : Option (SessionEntityWrapper S)} {s : State ι S}

theorem Inv.drawVersion (h : Inv prog start s) :
    Inv prog start { s with nextVersion := s.nextVersion + 1 } where
  fresh w hw := Nat.lt_succ_of_lt (h.fresh w hw)
  content := h.content
  absent := h.absent
  nodup := h.nodup
  applied := h.applied
  baseStart := h.baseStart
  baseCreated := h.baseCreated
  startStored := h.startStored
  phases := h.phases
  inHand i w hw := ⟨Nat.lt_succ_of_lt (h.inHand i w hw).1, (h.inHand i w hw).2⟩
  distinct := h.distinct

/-- A copy just read, with the transaction's tasks applied, is up to date. -/
theorem Inv.inHand_of_stored (h : Inv prog start s) {i : ι} {w : SessionEntityWrapper S}
    (hstored : s.stored = some w) :
    InHand prog s i ⟨w.version, runTasks (prog i).tasks w.entity⟩ := by
  refine ⟨h.fresh w hstored, fun stored hs _ => ?_⟩
  rw [hstored] at hs
  cases hs
  rfl

variable [DecidableEq ι]

theorem Inv.setPhase (h : Inv prog start s) {i : ι} {phase : Phase S}
    (hbefore : s.phase i ≠ .done) (hdone : phase ≠ .done)
    (hphase : PhaseInv prog s.stored i phase)
    (hhand : ∀ w, phase.hand = some w → InHand prog s i w)
    (hdistinct : s.stored = none → ∀ w, phase.hand = some w → ∀ j ≠ i, ∀ v,
      (s.phase j).hand = some v → v.version ≠ w.version) :
    Inv prog start (s.setPhase i phase) where
  fresh := h.fresh
  content := h.content
  absent := h.absent
  nodup := h.nodup
  applied j := by
    rw [State.setPhase]
    by_cases hj : j = i
    · subst hj
      simp [hdone, h.applied, hbefore]
    · simpa [Function.update_of_ne hj] using h.applied j
  baseStart := h.baseStart
  baseCreated := h.baseCreated
  startStored := h.startStored
  phases j := by
    by_cases hj : j = i
    · subst hj
      simpa [State.setPhase] using hphase
    · simpa [State.setPhase, Function.update_of_ne hj] using h.phases j
  inHand j w hw := by
    by_cases hj : j = i
    · subst hj
      exact hhand w (by simpa [State.setPhase] using hw)
    · exact h.inHand j w (by simpa [State.setPhase, Function.update_of_ne hj] using hw)
  distinct hnone j k v w hv hw heq := by
    by_cases hj : j = i
    · by_cases hk : k = i
      · rw [hj, hk]
      · subst hj
        simp only [State.setPhase, Function.update_self] at hv
        simp only [State.setPhase, Function.update_of_ne hk] at hw
        exact (hdistinct hnone v hv k hk w hw heq.symm).elim
    · simp only [State.setPhase, Function.update_of_ne hj] at hv
      by_cases hk : k = i
      · subst hk
        simp only [State.setPhase, Function.update_self] at hw
        exact (hdistinct hnone w hw j hj v hv heq).elim
      · simp only [State.setPhase, Function.update_of_ne hk] at hw
        exact h.distinct hnone j k v w hv hw heq

/-- Transaction `i` writes a wrapper whose version no other transaction has in hand. -/
theorem Inv.write (h : Inv prog start s) {i : ι} {w : SessionEntityWrapper S}
    (hbefore : s.phase i ≠ .done) (hversion : w.version < s.nextVersion)
    (hothers : ∀ j ≠ i, ∀ v, (s.phase j).hand = some v → v.version ≠ w.version)
    (hcontent : ∃ e, s.base = some e ∧
      w.entity = runTasks (prog i).tasks (applyAll prog s.applied e))
    (hcreated : s.stored = none → s.base = (prog i).created) :
    Inv prog start (s.write i w) where
  fresh v hv := by
    cases hv
    exact hversion
  content v hv := by
    cases hv
    obtain ⟨e, hbase, hentity⟩ := hcontent
    exact ⟨e, hbase, by simpa [State.write, applyAll] using hentity⟩
  absent hnone := by simp [State.write] at hnone
  nodup := by
    have hi : i ∉ s.applied := fun hmem => hbefore ((h.applied i).mp hmem)
    exact List.nodup_append.mpr ⟨h.nodup, List.nodup_singleton i, by
      rintro j hj k hk rfl
      exact hi (List.mem_singleton.mp hk ▸ hj)⟩
  applied j := by
    by_cases hj : j = i
    · subst hj
      simp [State.write]
    · simp [State.write, h.applied, hj]
  baseStart := h.baseStart
  baseCreated hnone _ := by
    by_cases hstored : s.stored = none
    · exact ⟨i, [], by simp [State.write, h.absent hstored], hcreated hstored⟩
    · obtain ⟨k, rest, happlied, hbase⟩ := h.baseCreated hnone hstored
      exact ⟨k, rest ++ [i], by simp [State.write, happlied], hbase⟩
  startStored _ := by simp [State.write]
  phases j := by
    by_cases hj : j = i
    · subst hj
      simp [State.write, PhaseInv]
    · have hphase := h.phases j
      simp only [State.write, Function.update_of_ne hj]
      cases hp : s.phase j with
      | holding read updates =>
          rw [hp] at hphase
          exact ⟨hphase.1, hphase.2.1, by simp⟩
      | replacing merged old iteration => rwa [hp] at hphase
      | rereading merged iteration => rwa [hp] at hphase
      | _ => trivial
  inHand j v hv := by
    by_cases hj : j = i
    · subst hj
      simp [State.write, Phase.hand] at hv
    · have hv' : (s.phase j).hand = some v := by
        simpa [State.write, Function.update_of_ne hj] using hv
      refine ⟨(h.inHand j v hv').1, fun stored hstored heq => ?_⟩
      cases hstored
      exact (hothers j hj v hv' heq.symm).elim
  distinct hnone := by simp [State.write] at hnone

/-- `putIfAbsent` finds no entry: the created entity is the base of what follows. -/
theorem Inv.putIfAbsent (h : Inv prog start s) {i : ι} {read : S}
    {updates : SessionUpdatesList S} (hi : s.phase i = .holding read updates)
    (hnone : s.stored = none) :
    Inv prog start { s.write i updates.entityWrapper with base := some read } := by
  have hbefore : s.phase i ≠ .done := by simp [hi]
  obtain ⟨_, hentity, hread⟩ : PhaseInv prog s.stored i (.holding read updates) :=
    hi ▸ h.phases i
  have hhand := h.inHand i updates.entityWrapper (by simp [hi, Phase.hand])
  have hbase : Inv prog start { s with base := some read } :=
    { h with
      content := fun w hw => by simp [hnone] at hw
      baseStart := fun w hw => (h.startStored (by simp [hw]) hnone).elim
      baseCreated := fun _ hs => (hs hnone).elim }
  refine hbase.write hbefore hhand.1 ?_ ⟨read, rfl, ?_⟩ ?_
  · intro j hj v hv heq
    exact hj (h.distinct hnone j i v _ hv (by simp [hi, Phase.hand]) heq)
  · simpa [h.absent hnone, applyAll] using hentity
  · intro _
    exact (hread hnone).symm

variable [SessionEntity S]

/-- A `replace` attempt either writes the transaction's update on top of the stored
entity or leaves the cache as it is. -/
theorem Inv.attempt (h : Inv prog start s) {i : ι} {merged : MergedUpdate S}
    {old : SessionEntityWrapper S} {iteration : Nat}
    (hi : s.phase i = .replacing merged old iteration) :
    Inv prog start (attempt s i merged old iteration) := by
  have hbefore : s.phase i ≠ .done := by simp [hi]
  have hmerged : merged.childUpdates = (prog i).tasks := by
    simpa [hi, PhaseInv] using h.phases i
  have hold := h.inHand i old (by simp [hi, Phase.hand])
  have hdraw := h.drawVersion
  unfold ConcurrentCommit.attempt
  simp only
  split
  · exact hdraw.setPhase hbefore (by simp) hmerged (by simp [Phase.hand]) (by simp [Phase.hand])
  · rename_i w hw
    split
    · -- the versions agree, so the copy in hand is the stored entity plus the tasks
      rename_i hequal
      have hversion : w.version = old.version := by
        simp only [SessionEntityWrapper.equals, Bool.and_eq_true, beq_iff_eq] at hequal
        exact hequal.1
      obtain ⟨e, hbase, hcontent⟩ := h.content w hw
      refine hdraw.write hbefore (Nat.lt_succ_self _) ?_ ⟨e, hbase, ?_⟩ ?_
      · intro j _ v hv
        exact Nat.ne_of_lt (h.inHand j v hv).1
      · rw [← hcontent]
        exact hold.2 w hw hversion
      · intro hnone
        simp [hw] at hnone
    · exact hdraw.setPhase hbefore (by simp) hmerged (by simp [Phase.hand])
        (by simp [Phase.hand])

theorem Inv.begin (h : Inv prog start s) {i : ι} {t : State ι S} (hi : s.phase i = .idle)
    (hstep : step prog s i = some t) : Inv prog start t := by
  have hbefore : s.phase i ≠ .done := by simp [hi]
  simp only [step, hi] at hstep
  cases hcreated : (prog i).created with
  | some entity =>
      simp only [hcreated, Option.some.injEq] at hstep
      subst hstep
      refine h.drawVersion.setPhase hbefore (by simp) ?_ ?_ ?_
      · simp [PhaseInv, queueAll_eq, hcreated]
      · intro w hw
        simp only [Phase.hand, queueAll_eq, Option.some.injEq] at hw
        subst hw
        refine ⟨Nat.lt_succ_self _, fun stored hstored heq => ?_⟩
        exact (Nat.ne_of_lt (h.fresh stored hstored) heq).elim
      · intro _ w hw j _ v hv
        simp only [Phase.hand, queueAll_eq, Option.some.injEq] at hw
        subst hw
        exact Nat.ne_of_lt (h.inHand j v hv).1
  | none =>
      simp only [hcreated] at hstep
      cases hstored : s.stored with
      | none =>
          simp only [hstored, Option.some.injEq] at hstep
          subst hstep
          exact h.setPhase hbefore (by simp) trivial (by simp [Phase.hand]) (by simp [Phase.hand])
      | some w =>
          simp only [hstored, Option.some.injEq] at hstep
          subst hstep
          refine h.setPhase hbefore (by simp) ?_ ?_ (by simp [hstored])
          · simp [PhaseInv, queueAll_eq, hstored]
          · intro v hv
            simp only [Phase.hand, queueAll_eq, Option.some.injEq] at hv
            subst hv
            exact h.inHand_of_stored hstored

/-- The start of the commit: the merged update is computed, and `putIfAbsent` is tried
for an `ADD_IF_ABSENT`. -/
theorem Inv.commit (h : Inv prog start s) {i : ι} {t : State ι S} {read : S}
    {updates : SessionUpdatesList S} (hi : s.phase i = .holding read updates)
    (hstep : step prog s i = some t) : Inv prog start t := by
  have hbefore : s.phase i ≠ .done := by simp [hi]
  obtain ⟨htasks, _, _⟩ : PhaseInv prog s.stored i (.holding read updates) := hi ▸ h.phases i
  simp only [step, hi] at hstep
  split at hstep
  · cases hstep
  · cases hstep
  · rename_i merged hmerge
    have hmerged : merged.childUpdates = (prog i).tasks := by
      rw [computeUpdate_childUpdates ?_ hmerge, htasks]
      intro t ht
      exact (prog i).noRemove t (htasks ▸ ht) _
    split at hstep
    · cases hstep
      refine h.setPhase hbefore (by simp) hmerged ?_ ?_
      · rintro w ⟨⟩
        exact h.inHand i updates.entityWrapper (by simp [hi, Phase.hand])
      · rintro hnone w ⟨⟩ j hj v hv heq
        exact hj (h.distinct hnone j i v _ hv (by simp [hi, Phase.hand]) heq)
    · split at hstep
      · rename_i hnone
        cases hstep
        exact h.putIfAbsent hi hnone
      · rename_i existing hstored
        cases hstep
        refine h.setPhase hbefore (by simp) hmerged ?_ (by simp [hstored])
        rintro w ⟨⟩
        simpa only [MergedUpdate.runUpdate, hmerged] using h.inHand_of_stored hstored
    · cases hstep
    · cases hstep

theorem Inv.reread (h : Inv prog start s) {i : ι} {t : State ι S} {merged : MergedUpdate S}
    {iteration : Nat} (hi : s.phase i = .rereading merged iteration)
    (hstep : step prog s i = some t) : Inv prog start t := by
  have hbefore : s.phase i ≠ .done := by simp [hi]
  have hmerged : merged.childUpdates = (prog i).tasks := by
    simpa [hi, PhaseInv] using h.phases i
  simp only [step, hi] at hstep
  split at hstep
  · cases hstep
    exact h.setPhase hbefore (by simp) trivial (by simp [Phase.hand]) (by simp [Phase.hand])
  · rename_i w hstored
    split at hstep
    · cases hstep
      refine h.setPhase hbefore (by simp) hmerged ?_ (by simp [hstored])
      rintro v ⟨⟩
      simpa only [MergedUpdate.runUpdate, hmerged] using h.inHand_of_stored hstored
    · cases hstep
      exact h.setPhase hbefore (by simp) trivial (by simp [Phase.hand]) (by simp [Phase.hand])

/-- Every cache operation keeps the invariant. -/
theorem inv_step {i : ι} {t : State ι S} (h : Inv prog start s)
    (hstep : step prog s i = some t) : Inv prog start t := by
  cases hi : s.phase i with
  | idle => exact h.begin hi hstep
  | holding read updates => exact h.commit hi hstep
  | replacing merged old iteration =>
      simp only [step, hi, Option.some.injEq] at hstep
      subst hstep
      exact h.attempt hi
  | rereading merged iteration => exact h.reread hi hstep
  | done => simp [step, hi] at hstep
  | nothing => simp [step, hi] at hstep
  | ignored => simp [step, hi] at hstep
  | gaveUp => simp [step, hi] at hstep

/-! ## Runs -/

/-- Whatever the interleaving, the cache holds the base entity with the updates of the
applied transactions, each applied once. -/
theorem inv_run {nextVersion : Nat} {schedule : List ι} {final : State ι S}
    (hfresh : ∀ w, start = some w → w.version < nextVersion)
    (hrun : Machine.run (step prog) (initial start nextVersion) schedule = some final) :
    Inv prog start final :=
  Machine.run_invariant_all (fun _ _ _ h hstep => inv_step h hstep)
    (inv_initial prog start nextVersion hfresh) hrun

def Present (s : State ι S) : Prop :=
  s.stored ≠ none ∧ ∀ i, s.phase i ≠ .nothing ∧ s.phase i ≠ .ignored

omit [SessionEntity S] in
theorem Present.setPhase {i : ι} {phase : Phase S} (h : Present s)
    (hnothing : phase ≠ .nothing) (hignored : phase ≠ .ignored) :
    Present (s.setPhase i phase) := by
  refine ⟨h.1, fun j => ?_⟩
  by_cases hj : j = i
  · subst hj
    simp [State.setPhase, hnothing, hignored]
  · simpa [State.setPhase, Function.update_of_ne hj] using h.2 j

omit [SessionEntity S] in
theorem Present.write {i : ι} {w : SessionEntityWrapper S} (h : Present s) :
    Present (s.write i w) := by
  refine ⟨by simp [State.write], fun j => ?_⟩
  by_cases hj : j = i
  · subst hj
    simp [State.write]
  · simpa [State.write, Function.update_of_ne hj] using h.2 j

theorem present_step {i : ι} {t : State ι S} (h : Present s)
    (hstep : step prog s i = some t) : Present t := by
  obtain ⟨w, hw⟩ := Option.ne_none_iff_exists'.mp h.1
  have hdraw : Present { s with nextVersion := s.nextVersion + 1 } := h
  unfold step at hstep
  cases hi : s.phase i with
  | idle =>
      simp only [hi] at hstep
      split at hstep
      · cases hstep
        exact hdraw.setPhase (by simp) (by simp)
      · simp only [hw, Option.some.injEq] at hstep
        subst hstep
        exact h.setPhase (by simp) (by simp)
  | holding read updates =>
      simp only [hi, hw] at hstep
      split at hstep
      · cases hstep
      · cases hstep
      · split at hstep
        · cases hstep
          exact h.setPhase (by simp) (by simp)
        · cases hstep
          exact h.setPhase (by simp) (by simp)
        · cases hstep
        · cases hstep
  | replacing merged old iteration =>
      simp only [hi, Option.some.injEq] at hstep
      subst hstep
      unfold attempt
      simp only
      split
      · exact hdraw.setPhase (by simp) (by simp)
      · split
        · exact hdraw.write
        · exact hdraw.setPhase (by simp) (by simp)
  | rereading merged iteration =>
      simp only [hi, hw] at hstep
      split at hstep
      · cases hstep
        exact h.setPhase (by simp) (by simp)
      · cases hstep
        exact h.setPhase (by simp) (by simp)
  | done => simp [hi] at hstep
  | nothing => simp [hi] at hstep
  | ignored => simp [hi] at hstep
  | gaveUp => simp [hi] at hstep

def Phase.Ended : Phase S → Prop
  | .done => True
  | .nothing => True
  | .ignored => True
  | .gaveUp => True
  | _ => False

/-- No lost session update: once every transaction that has started has ended, none of
them by running out of attempts, the cached entity is the initial one with the updates
of exactly these transactions, each applied once, in the order of their successful
writes.  If the key was absent, the initial entity is the one that the first writer
created, and the transactions that found no entity to work on have no part in it. -/
theorem no_lost_update (prog : ι → Program S) (start : Option (SessionEntityWrapper S))
    (nextVersion : Nat) (hfresh : ∀ w, start = some w → w.version < nextVersion)
    (schedule : List ι) (final : State ι S)
    (hrun : Machine.run (step prog) (initial start nextVersion) schedule = some final)
    (hended : ∀ i, final.phase i ≠ .idle → (final.phase i).Ended)
    (hretries : ∀ i, final.phase i ≠ .gaveUp) :
    final.applied.Nodup ∧
      (∀ w₀, start = some w₀ →
        (∃ w, final.stored = some w ∧ w.entity = applyAll prog final.applied w₀.entity) ∧
          ∀ i, i ∈ final.applied ↔ final.phase i ≠ .idle) ∧
      (start = none →
        (∀ w, final.stored = some w →
          ∃ i rest e, final.applied = i :: rest ∧ (prog i).created = some e ∧
            w.entity = applyAll prog final.applied e) ∧
          ∀ i, i ∈ final.applied ↔
            final.phase i ≠ .idle ∧ final.phase i ≠ .nothing ∧ final.phase i ≠ .ignored) := by
  have hinv : Inv prog start final := inv_run hfresh hrun
  have happlied : ∀ i, i ∈ final.applied ↔
      final.phase i ≠ .idle ∧ final.phase i ≠ .nothing ∧ final.phase i ≠ .ignored := by
    intro i
    rw [hinv.applied]
    constructor
    · intro hdone
      simp [hdone]
    · rintro ⟨hstarted, hnothing, hignored⟩
      have hend := hended i hstarted
      have hgave := hretries i
      cases hi : final.phase i with
      | done => rfl
      | _ => simp_all [Phase.Ended]
  refine ⟨hinv.nodup, fun w₀ hstart => ?_, fun hstart => ⟨fun w hw => ?_, happlied⟩⟩
  · subst hstart
    have hpresent : Present final :=
      Machine.run_invariant_all (fun _ _ _ h hstep => present_step h hstep)
        (show Present (initial (some w₀) nextVersion) by simp [Present, initial]) hrun
    refine ⟨?_, fun i => ?_⟩
    · obtain ⟨w, hw⟩ := Option.ne_none_iff_exists'.mp hpresent.1
      obtain ⟨e, hbase, hentity⟩ := hinv.content w hw
      rw [hinv.baseStart w₀ rfl, Option.some.injEq] at hbase
      exact ⟨w, hw, by rw [hentity, hbase]⟩
    · rw [happlied]
      exact ⟨fun h => h.1, fun h => ⟨h, hpresent.2 i⟩⟩
  · -- the base is the entity of the first writer
    obtain ⟨e, hbase, hentity⟩ := hinv.content w hw
    obtain ⟨i, rest, horder, hcreated⟩ := hinv.baseCreated hstart (by simp [hw])
    exact ⟨i, rest, e, horder, hcreated.symm.trans hbase, hentity⟩

end

def addClient (client : String) : SessionUpdateTask UserSessionEntity :=
  ⟨fun entity =>
      { entity with
        authenticatedClientSessions := entity.authenticatedClientSessions ++ [client] },
    fun _ => .replace, fun _ => .sync⟩

/-- Two transactions on one session: a refresh, and a creation that adds a client. -/
def refreshAndCreate : Bool → Program UserSessionEntity
  | false => ⟨none, [setLastSessionRefresh 20], by simp [setLastSessionRefresh]⟩
  | true => ⟨some (sessionAt 15), [addIfAbsentSync, addClient "shop"],
      by simp [addIfAbsentSync, addClient]⟩

/-- The refresh reads first, the creation finds the session and writes first, and the
refresh's first attempt fails. -/
theorem no_lost_update_of_failed_attempt :
    ∃ final : State Bool UserSessionEntity,
      Machine.run (step refreshAndCreate) (initial (some ⟨0, sessionAt 10⟩) 1)
        [false, true, true, false, true, false, false, false] = some final ∧
      final.applied = [true, false] ∧
      ∃ w, final.stored = some w ∧
        w.entity = applyAll refreshAndCreate final.applied (sessionAt 10) := by
  refine ⟨_, rfl, rfl, ?_⟩
  refine ((no_lost_update refreshAndCreate (some ⟨0, sessionAt 10⟩) 1 ?_
    [false, true, true, false, true, false, false, false] _ rfl ?_ ?_).2.1 _ rfl).1
  · rintro w ⟨⟩
    decide
  · intro i _
    cases i <;> trivial
  · intro i hi
    cases i <;> cases hi

end Keycloak.Sessions.ConcurrentCommit
