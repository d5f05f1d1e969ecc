import Keycloak.Cache.Revisions

/-!
# Freshness of the revisioned cache

What `CacheManager.get` returns has seen every commit whose invalidation the node had
completed when the call began, in every run in which revision numbers are written in
order.  `Ordered` says what that means for the three operations that can break it: the
unlocked put with which `addRevisioned` seeds a missing revision, the put of
`bumpVersion`, and the comparison of an object that carries a number newer than the
stored one.  The run at the end of the module shows that the first of them does break
it: nothing in `addRevisioned` ties the seeded number to the counter it was read from.
-/

namespace Keycloak.Cache

section Invariant

variable {Node Key Thread : Type}

/-- An object that has missed the commit of an invalidation has a lower revision than
the invalidation's number. -/
def Behind (o : Revisioned) (invalidations : List Invalidation) : Prop :=
  ∀ i ∈ invalidations, o.snapshot < i.commit → o.revision < i.number

structure NodeInv (commits : Key → Nat) (n : NodeState Key Thread) : Prop where
  drawn_le : ∀ id, ∀ i ∈ n.drawn id, i.number ≤ n.counter ∧ i.commit ≤ commits id
  completed_drawn : ∀ id, ∀ i ∈ n.completed id, i ∈ n.drawn id
  revision_le : ∀ id r, n.revisions id = some r → r ≤ n.counter
  revision_ge : ∀ id r, n.revisions id = some r → ∀ i ∈ n.completed id, i.number ≤ r
  cached : ∀ id o, n.cache id = some o → o.revision ≤ n.counter ∧ Behind o (n.drawn id)

/-- The revision that a batch will put is not below a completed invalidation. -/
def PendingInv (n : NodeState Key Thread) (id : Key) (pending : Option Nat) : Prop :=
  ∀ v, pending = some v → v ≤ n.counter ∧ ∀ i ∈ n.completed id, i.number ≤ v

def PcInv (n : NodeState Key Thread) (started : Key → Nat) : ReaderPc Key → Prop
  | .open => True
  | .checking id o since => (∀ i ∈ since, i ∈ n.completed id) ∧ Behind o since
  | .served _ o since => ∀ i ∈ since, i.commit ≤ o.snapshot
  | .missed _ => True
  | .unversioned _ => True
  | .versioned _ loaded => loaded ≤ n.counter
  | .adding id o => o.revision ≤ n.counter ∧ started id ≤ o.snapshot
  | .unseeded id o => o.revision ≤ n.counter ∧ started id ≤ o.snapshot
  | .seeding id o rev => o.revision ≤ n.counter ∧ started id ≤ o.snapshot ∧ rev ≤ n.counter
  | .locking id o => o.revision ≤ n.counter ∧ started id ≤ o.snapshot
  | .comparing id o => o.revision ≤ n.counter ∧ started id ≤ o.snapshot
  | .storing id o pending =>
      o.revision ≤ n.counter ∧ Behind o (n.drawn id) ∧ PendingInv n id pending
  | .ending id pending => PendingInv n id pending

/-- A transaction that started before a commit started below the number of every
invalidation for it. -/
def StartInv (n : NodeState Key Thread) (startup : Nat) (started : Key → Nat) : Prop :=
  startup ≤ n.counter ∧
    ∀ id, ∀ i ∈ n.drawn id, started id < i.commit → startup < i.number

def ThreadInv (commits : Key → Nat) (n : NodeState Key Thread) : ThreadState Key → Prop
  | .idle => True
  | .reader startup started pc => StartInv n startup started ∧ PcInv n started pc
  | .invalidating id commit _ => commit ≤ commits id
  | .removed id commit _ => commit ≤ commits id
  | .bumping id inv _ => inv ∈ n.drawn id
  | .notifying id commit => commit ≤ commits id

def ReaderPc.InBatch (id : Key) : ReaderPc Key → Prop
  | .comparing id' _ => id' = id
  | .storing id' _ _ => id' = id
  | .ending id' _ => id' = id
  | _ => False

def ThreadState.InBatch (id : Key) : ThreadState Key → Prop
  | .reader _ _ pc => pc.InBatch id
  | _ => False

structure Inv (home : Thread → Node) (s : State Node Key Thread) : Prop where
  nodes : ∀ n, NodeInv s.commits (s.nodes n)
  threads : ∀ t, ThreadInv s.commits (s.nodes (home t)) (s.threads t)
  locks : ∀ t id, (s.threads t).InBatch id → (s.nodes (home t)).lock id = some t
  events : ∀ n, ∀ e ∈ s.events n, e.2 ≤ s.commits e.1

/-- What an operation of one thread may do to a node, as far as the other threads are
concerned: numbers are drawn above the counter, and an invalidation of an id completes
only while the id is not locked. -/
structure Grows (n n' : NodeState Key Thread) : Prop where
  counter : n.counter ≤ n'.counter
  drawn : ∀ id, ∀ i ∈ n'.drawn id, i ∈ n.drawn id ∨ n.counter < i.number
  drawn_mono : ∀ id, ∀ i ∈ n.drawn id, i ∈ n'.drawn id
  completed : ∀ id, ∀ i ∈ n'.completed id, i ∈ n.completed id ∨ n.lock id = none
  completed_mono : ∀ id, ∀ i ∈ n.completed id, i ∈ n'.completed id

theorem Grows.of_eq {n n' : NodeState Key Thread} (hcounter : n'.counter = n.counter)
    (hdrawn : n'.drawn = n.drawn) (hcompleted : n'.completed = n.completed) :
    Grows n n' where
  counter := Nat.le_of_eq hcounter.symm
  drawn _ _ hi := .inl (hdrawn ▸ hi)
  drawn_mono _ _ hi := hdrawn ▸ hi
  completed _ _ hi := .inl (hcompleted ▸ hi)
  completed_mono _ _ hi := hcompleted ▸ hi

theorem Grows.refl (n : NodeState Key Thread) : Grows n n := .of_eq rfl rfl rfl

theorem Behind.grows {n n' : NodeState Key Thread} (hgrows : Grows n n') {id : Key}
    {o : Revisioned} (hle : o.revision ≤ n.counter) (h : Behind o (n.drawn id)) :
    Behind o (n'.drawn id) := by
  intro i hi hlt
  rcases hgrows.drawn id i hi with hold | hnew
  · exact h i hold hlt
  · exact Nat.lt_of_le_of_lt hle hnew

theorem PendingInv.grows {n n' : NodeState Key Thread} (hgrows : Grows n n') {id : Key}
    {pending : Option Nat} (hlock : n.lock id ≠ none) (h : PendingInv n id pending) :
    PendingInv n' id pending := by
  intro v hv
  obtain ⟨hle, hge⟩ := h v hv
  refine ⟨Nat.le_trans hle hgrows.counter, fun i hi => ?_⟩
  rcases hgrows.completed id i hi with hold | hnone
  · exact hge i hold
  · exact (hlock hnone).elim

theorem StartInv.grows {n n' : NodeState Key Thread} (hgrows : Grows n n') {startup : Nat}
    {started : Key → Nat} (h : StartInv n startup started) : StartInv n' startup started := by
  refine ⟨Nat.le_trans h.1 hgrows.counter, fun id i hi hlt => ?_⟩
  rcases hgrows.drawn id i hi with hold | hnew
  · exact h.2 id i hold hlt
  · exact Nat.lt_of_le_of_lt h.1 hnew

theorem PcInv.grows {n n' : NodeState Key Thread} (hgrows : Grows n n')
    {started : Key → Nat} {pc : ReaderPc Key} (hlock : ∀ id, pc.InBatch id → n.lock id ≠ none)
    (h : PcInv n started pc) : PcInv n' started pc := by
  have hcounter := hgrows.counter
  cases pc with
  | checking id o since => exact ⟨fun i hi => hgrows.completed_mono id i (h.1 i hi), h.2⟩
  | served id o since => exact h
  | versioned id loaded => exact Nat.le_trans h hcounter
  | adding id o => exact ⟨Nat.le_trans h.1 hcounter, h.2⟩
  | unseeded id o => exact ⟨Nat.le_trans h.1 hcounter, h.2⟩
  | seeding id o rev =>
      exact ⟨Nat.le_trans h.1 hcounter, h.2.1, Nat.le_trans h.2.2 hcounter⟩
  | locking id o => exact ⟨Nat.le_trans h.1 hcounter, h.2⟩
  | comparing id o => exact ⟨Nat.le_trans h.1 hcounter, h.2⟩
  | storing id o pending =>
      exact ⟨Nat.le_trans h.1 hcounter, h.2.1.grows hgrows h.1,
        h.2.2.grows hgrows (hlock id rfl)⟩
  | ending id pending => exact PendingInv.grows hgrows (hlock id rfl) h
  | «open» => trivial
  | missed id => trivial
  | unversioned id => trivial

theorem ThreadInv.grows {commits : Key → Nat} {n n' : NodeState Key Thread}
    (hgrows : Grows n n') {thread : ThreadState Key}
    (hlock : ∀ id, thread.InBatch id → n.lock id ≠ none) (h : ThreadInv commits n thread) :
    ThreadInv commits n' thread := by
  cases thread with
  | reader startup started pc => exact ⟨h.1.grows hgrows, h.2.grows hgrows hlock⟩
  | bumping id inv notifies => exact hgrows.drawn_mono id inv h
  | idle => trivial
  | invalidating id commit notifies => exact h
  | removed id commit notifies => exact h
  | notifying id commit => exact h

end Invariant

/-! ## Single operations -/

section Compare

variable {Key Thread : Type} {commits : Key → Nat} {n : NodeState Key Thread}

/-- The comparisons of `addRevisioned` pass only objects that are behind no drawn
invalidation, provided that the object's revision has not overtaken the stored one by
the number of such an invalidation. -/
theorem compareRevision_inv (h : NodeInv commits n) {startup : Nat} {started : Key → Nat}
    {id : Key} {o : Revisioned} (hstart : StartInv n startup started)
    (hle : o.revision ≤ n.counter) (hsnapshot : started id ≤ o.snapshot)
    (hordered : ∀ rev, n.revisions id = some rev →
      ∀ i ∈ n.drawn id, i.number ≤ o.revision → i.number ≤ rev) :
    PcInv n started (compareRevision (n.revisions id) startup id o) := by
  have hnone : PcInv n started (.ending id none) := fun v hv => by simp at hv
  cases hrev : n.revisions id with
  | none => exact hnone
  | some rev =>
      have hbehind : rev ≤ startup → Behind o (n.drawn id) := by
        intro hstartup i hi hlt
        have hnumber := hstart.2 id i hi (Nat.lt_of_le_of_lt hsnapshot hlt)
        by_contra hnot
        have hreached := hordered rev hrev i hi (by omega)
        omega
      simp only [compareRevision]
      split
      · exact hnone
      · split
        · exact ⟨hle, hbehind (by omega), fun v hv => by simp at hv⟩
        · split
          · exact hnone
          · refine ⟨hle, hbehind (by omega), fun v hv => ?_⟩
            cases hv
            refine ⟨hle, fun i hi => ?_⟩
            have hcompleted := h.revision_ge id rev hrev i hi
            omega

end Compare

section Steps

variable {Key Thread : Type} [DecidableEq Key]
variable {commits : Key → Nat} {n n' : NodeState Key Thread}

/-- Revision writes keep the node invariant when they are not below a completed
invalidation of their id. -/
theorem NodeInv.putRevision (h : NodeInv commits n) {id : Key} {rev : Nat}
    (hle : rev ≤ n.counter) (hge : ∀ i ∈ n.completed id, i.number ≤ rev) :
    NodeInv commits (n.putRevision id rev) where
  drawn_le := h.drawn_le
  completed_drawn := h.completed_drawn
  revision_le id' r hr := by
    by_cases hid : id' = id
    · subst hid
      simp only [NodeState.putRevision, Function.update_self, Option.some.injEq] at hr
      exact hr ▸ hle
    · exact h.revision_le id' r (by
        simpa [NodeState.putRevision, Function.update_of_ne hid] using hr)
  revision_ge id' r hr := by
    by_cases hid : id' = id
    · subst hid
      simp only [NodeState.putRevision, Function.update_self, Option.some.injEq] at hr
      exact hr ▸ hge
    · exact h.revision_ge id' r (by
        simpa [NodeState.putRevision, Function.update_of_ne hid] using hr)
  cached := h.cached

theorem NodeInv.setLock (h : NodeInv commits n) (id : Key) (holder : Option Thread) :
    NodeInv commits (n.setLock id holder) :=
  ⟨h.drawn_le, h.completed_drawn, h.revision_le, h.revision_ge, h.cached⟩

theorem NodeInv.putForExternalRead (h : NodeInv commits n) {id : Key} {o : Revisioned}
    (hle : o.revision ≤ n.counter) (hbehind : Behind o (n.drawn id)) :
    NodeInv commits (n.putForExternalRead id o) := by
  unfold NodeState.putForExternalRead
  split
  · exact h
  · refine ⟨h.drawn_le, h.completed_drawn, h.revision_le, h.revision_ge, ?_⟩
    intro id' o' ho'
    by_cases hid : id' = id
    · subst hid
      simp only [Function.update_self, Option.some.injEq] at ho'
      subst ho'
      exact ⟨hle, hbehind⟩
    · exact h.cached id' o' (by simpa [Function.update_of_ne hid] using ho')

theorem NodeInv.removeObject (h : NodeInv commits n) (id : Key) :
    NodeInv commits { n with cache := Function.update n.cache id none } := by
  refine ⟨h.drawn_le, h.completed_drawn, h.revision_le, h.revision_ge, ?_⟩
  intro id' o ho
  by_cases hid : id' = id
  · subst hid
    simp at ho
  · exact h.cached id' o (by simpa [Function.update_of_ne hid] using ho)

theorem NodeInv.removeRevision (h : NodeInv commits n) (id : Key) :
    NodeInv commits { n with revisions := Function.update n.revisions id none } := by
  refine ⟨h.drawn_le, h.completed_drawn, ?_, ?_, h.cached⟩
  · intro id' r hr
    by_cases hid : id' = id
    · subst hid
      simp at hr
    · exact h.revision_le id' r (by simpa [Function.update_of_ne hid] using hr)
  · intro id' r hr
    by_cases hid : id' = id
    · subst hid
      simp at hr
    · exact h.revision_ge id' r (by simpa [Function.update_of_ne hid] using hr)

/-- A drawn number is above everything the node has handed out before. -/
theorem grows_drawNumber (n : NodeState Key Thread) (id : Key) (commit : Nat) :
    Grows n (n.drawNumber id ⟨commit, n.counter + 1⟩) where
  counter := Nat.le_succ _
  drawn id' i hi := by
    by_cases hid : id' = id
    · subst hid
      simp only [NodeState.drawNumber, Function.update_self, List.mem_cons] at hi
      rcases hi with rfl | hi
      · exact .inr (Nat.lt_succ_self _)
      · exact .inl hi
    · exact .inl (by simpa [NodeState.drawNumber, Function.update_of_ne hid] using hi)
  drawn_mono id' i hi := by
    by_cases hid : id' = id
    · subst hid
      simp [NodeState.drawNumber, hi]
    · simpa [NodeState.drawNumber, Function.update_of_ne hid] using hi
  completed _ _ hi := .inl hi
  completed_mono _ _ hi := hi

theorem NodeInv.drawNumber (h : NodeInv commits n) {id : Key} {commit : Nat}
    (hcommit : commit ≤ commits id) :
    NodeInv commits (n.drawNumber id ⟨commit, n.counter + 1⟩) where
  drawn_le id' i hi := by
    by_cases hid : id' = id
    · subst hid
      simp only [NodeState.drawNumber, Function.update_self, List.mem_cons] at hi
      rcases hi with rfl | hi
      · exact ⟨Nat.le_refl _, hcommit⟩
      · exact ⟨Nat.le_succ_of_le (h.drawn_le id' i hi).1, (h.drawn_le id' i hi).2⟩
    · have hi' : i ∈ n.drawn id' := by
        simpa [NodeState.drawNumber, Function.update_of_ne hid] using hi
      exact ⟨Nat.le_succ_of_le (h.drawn_le id' i hi').1, (h.drawn_le id' i hi').2⟩
  completed_drawn id' i hi :=
    (grows_drawNumber n id commit).drawn_mono id' i (h.completed_drawn id' i hi)
  revision_le id' r hr := Nat.le_succ_of_le (h.revision_le id' r hr)
  revision_ge := h.revision_ge
  cached id' o ho :=
    ⟨Nat.le_succ_of_le (h.cached id' o ho).1,
      (h.cached id' o ho).2.grows (grows_drawNumber n id commit) (h.cached id' o ho).1⟩

theorem grows_complete {id : Key} {inv : Invalidation} (hlock : n.lock id = none) :
    Grows n (n.complete id inv) where
  counter := Nat.le_refl _
  drawn _ _ hi := .inl hi
  drawn_mono _ _ hi := hi
  completed id' i hi := by
    by_cases hid : id' = id
    · exact .inr (hid ▸ hlock)
    · exact .inl (by simpa [NodeState.complete, Function.update_of_ne hid] using hi)
  completed_mono id' i hi := by
    by_cases hid : id' = id
    · subst hid
      simp [NodeState.complete, hi]
    · simpa [NodeState.complete, Function.update_of_ne hid] using hi

theorem NodeInv.complete (h : NodeInv commits n) {id : Key} {inv : Invalidation}
    (hdrawn : inv ∈ n.drawn id) (hge : ∀ i ∈ n.completed id, i.number ≤ inv.number) :
    NodeInv commits (n.complete id inv) := by
  have hput := h.putRevision (h.drawn_le id inv hdrawn).1 hge
  refine ⟨h.drawn_le, ?_, hput.revision_le, ?_, h.cached⟩
  · intro id' i hi
    by_cases hid : id' = id
    · subst hid
      simp only [NodeState.complete, Function.update_self, List.mem_cons] at hi
      rcases hi with rfl | hi
      · exact hdrawn
      · exact h.completed_drawn id' i hi
    · exact h.completed_drawn id' i (by
        simpa [NodeState.complete, Function.update_of_ne hid] using hi)
  · intro id' r hr i hi
    by_cases hid : id' = id
    · subst hid
      simp only [NodeState.complete, Function.update_self, List.mem_cons] at hi
      rcases hi with rfl | hi
      · simp only [NodeState.complete, NodeState.putRevision, Function.update_self,
          Option.some.injEq] at hr
        exact Nat.le_of_eq hr
      · exact hput.revision_ge id' r hr i hi
    · exact hput.revision_ge id' r hr i (by
        simpa [NodeState.complete, NodeState.putRevision, Function.update_of_ne hid] using hi)

/-! ## Operations of a reader -/

/-- What an operation of reader `t` does to its node `n`, and where it leaves the reader,
is of no harm to the invariant. -/
structure ReaderKeeps (commits : Key → Nat) (t : Thread) (started : Key → Nat)
    (n n' : NodeState Key Thread) (pc' : ReaderPc Key) : Prop where
  node : NodeInv commits n'
  grows : Grows n n'
  locks : ∀ id t', n.lock id = some t' → t' ≠ t → n'.lock id = some t'
  pc : PcInv n' started pc'
  batch : ∀ id, pc'.InBatch id → n'.lock id = some t

section Reader

variable {t : Thread} {startup : Nat} {started : Key → Nat} {pc' : ReaderPc Key}
  {op : ReaderOp Key} {id : Key} {o : Revisioned}

omit [DecidableEq Key] in
theorem ReaderKeeps.same (h : NodeInv commits n) (hpc : PcInv n started pc')
    (hbatch : ∀ id, pc'.InBatch id → n.lock id = some t) :
    ReaderKeeps commits t started n n pc' :=
  ⟨h, .refl n, fun _ _ hlock _ => hlock, hpc, hbatch⟩

omit [DecidableEq Key] in
theorem ReaderKeeps.outside (h : NodeInv commits n) (hpc : PcInv n started pc')
    (hbatch : ∀ id, ¬ pc'.InBatch id) : ReaderKeeps commits t started n n pc' :=
  .same h hpc fun id hid => (hbatch id hid).elim

theorem lock_setLock_of_free (hfree : n.lock id = none) {holder : Option Thread} {id' : Key}
    {t' : Thread} (hlock : n.lock id' = some t') : (n.setLock id holder).lock id' = some t' := by
  by_cases hid : id' = id
  · subst hid
    simp [hfree] at hlock
  · simpa [NodeState.setLock, Function.update_of_ne hid] using hlock

theorem lock_setLock_of_held (hheld : n.lock id = some t) {holder : Option Thread} {id' : Key}
    {t' : Thread} (hlock : n.lock id' = some t') (hne : t' ≠ t) :
    (n.setLock id holder).lock id' = some t' := by
  by_cases hid : id' = id
  · subst hid
    rw [hheld, Option.some.injEq] at hlock
    exact (hne hlock.symm).elim
  · simpa [NodeState.setLock, Function.update_of_ne hid] using hlock

omit [DecidableEq Key] in
theorem compareRevision_inBatch {rev : Option Nat} {id' : Key}
    (h : (compareRevision rev startup id o).InBatch id') : id = id' := by
  revert h
  unfold compareRevision
  split
  · exact fun hid => hid
  · split
    · exact fun hid => hid
    · split
      · exact fun hid => hid
      · split <;> exact fun hid => hid

/-- The lookup of `get`. -/
theorem readerStep_open (h : NodeInv commits n)
    (hstep : readerStep n commits t startup started .open op = some (n', pc')) :
    ReaderKeeps commits t started n n' pc' := by
  cases op with
  | get id =>
      delta readerStep at hstep
      dsimp only at hstep
      split at hstep
      · cases hstep
        exact .outside h trivial (fun _ hid => hid)
      · rename_i o ho
        cases hstep
        refine .outside h ⟨fun i hi => hi, fun i hi hlt => ?_⟩ (fun _ hid => hid)
        exact (h.cached id o ho).2 i (h.completed_drawn id i hi) hlt
  | _ => cases hstep

/-- The comparison of `get`: a stale object has a lower revision than the stored one. -/
theorem readerStep_checking (h : NodeInv commits n) {since : List Invalidation}
    (hpc : PcInv n started (.checking id o since))
    (hstep : readerStep n commits t startup started (.checking id o since) op =
      some (n', pc')) : ReaderKeeps commits t started n n' pc' := by
  cases op with
  | check =>
      delta readerStep at hstep
      dsimp only at hstep
      split at hstep
      · cases hstep
        exact .outside h trivial (fun _ hid => hid)
      · rename_i rev hrev
        split at hstep
        · cases hstep
          exact .outside h trivial (fun _ hid => hid)
        · cases hstep
          refine .outside h (fun i hi => ?_) (fun _ hid => hid)
          have hge := h.revision_ge id rev hrev i (hpc.1 i hi)
          have hbehind := hpc.2 i hi
          omega
  | _ => cases hstep

/-- `getCurrentRevision`. -/
theorem readerStep_missed (h : NodeInv commits n)
    (hstep : readerStep n commits t startup started (.missed id) op = some (n', pc')) :
    ReaderKeeps commits t started n n' pc' := by
  cases op with
  | currentRevision =>
      delta readerStep at hstep
      dsimp only at hstep
      split at hstep
      · cases hstep
        exact .outside h trivial (fun _ hid => hid)
      · rename_i rev hrev
        cases hstep
        exact .outside h (h.revision_le id rev hrev) (fun _ hid => hid)
  | _ => cases hstep

/-- The first lookup of `addRevisioned`. -/
theorem readerStep_adding (h : NodeInv commits n) (hpc : PcInv n started (.adding id o))
    (hstep : readerStep n commits t startup started (.adding id o) op = some (n', pc')) :
    ReaderKeeps commits t started n n' pc' := by
  cases op with
  | readRevision =>
      delta readerStep at hstep
      dsimp only at hstep
      split at hstep
      · cases hstep
        exact .outside h hpc (fun _ hid => hid)
      · cases hstep
        exact .outside h hpc (fun _ hid => hid)
  | _ => cases hstep

/-- The put with which `addRevisioned` seeds a missing revision. -/
theorem readerStep_seeding (h : NodeInv commits n) {rev : Nat}
    (hpc : PcInv n started (.seeding id o rev))
    (hordered : op = .seedRevision → ∀ i ∈ n.completed id, i.number ≤ rev)
    (hstep : readerStep n commits t startup started (.seeding id o rev) op =
      some (n', pc')) : ReaderKeeps commits t started n n' pc' := by
  cases op with
  | seedRevision =>
      delta readerStep at hstep
      dsimp only at hstep
      split at hstep
      · cases hstep
        exact ⟨h.putRevision hpc.2.2 (hordered rfl), .of_eq rfl rfl rfl,
          fun _ _ hlock _ => hlock, ⟨hpc.1, hpc.2.1⟩, fun _ hid => hid.elim⟩
      · cases hstep
  | _ => cases hstep

theorem readerStep_locking (h : NodeInv commits n) (hpc : PcInv n started (.locking id o))
    (hstep : readerStep n commits t startup started (.locking id o) op = some (n', pc')) :
    ReaderKeeps commits t started n n' pc' := by
  cases op with
  | lockRevision =>
      delta readerStep at hstep
      dsimp only at hstep
      split at hstep
      · rename_i hfree
        cases hstep
        refine ⟨h.setLock id (some t), .of_eq rfl rfl rfl,
          fun _ _ hlock _ => lock_setLock_of_free hfree hlock, hpc, ?_⟩
        rintro id' rfl
        simp [NodeState.setLock]
      · cases hstep
  | lockFails =>
      cases hstep
      exact .outside h trivial (fun _ hid => hid)
  | _ => cases hstep

/-- The comparisons of `addRevisioned`. -/
theorem readerStep_comparing (h : NodeInv commits n) (hstart : StartInv n startup started)
    (hpc : PcInv n started (.comparing id o)) (hheld : n.lock id = some t)
    (hordered : op = .compare → ∀ rev, n.revisions id = some rev →
      ∀ i ∈ n.drawn id, i.number ≤ o.revision → i.number ≤ rev)
    (hstep : readerStep n commits t startup started (.comparing id o) op = some (n', pc')) :
    ReaderKeeps commits t started n n' pc' := by
  cases op with
  | compare =>
      cases hstep
      refine .same h (compareRevision_inv h hstart hpc.1 hpc.2 (hordered rfl)) fun id' hid => ?_
      have hid' : id = id' := compareRevision_inBatch hid
      exact hid' ▸ hheld
  | _ => cases hstep

theorem readerStep_storing (h : NodeInv commits n) {pending : Option Nat}
    (hpc : PcInv n started (.storing id o pending)) (hheld : n.lock id = some t)
    (hstep : readerStep n commits t startup started (.storing id o pending) op =
      some (n', pc')) : ReaderKeeps commits t started n n' pc' := by
  have hbatch : ∀ id', (ReaderPc.ending id pending).InBatch id' → n.lock id' = some t := by
    rintro id' rfl
    exact hheld
  cases op with
  | storeObject =>
      cases hstep
      have hput := h.putForExternalRead hpc.1 hpc.2.1
      unfold NodeState.putForExternalRead at hput ⊢
      split
      · exact .same h hpc.2.2 hbatch
      · rename_i hnone
        simp only [hnone] at hput
        exact ⟨hput, .of_eq rfl rfl rfl, fun _ _ hlock _ => hlock, hpc.2.2, hbatch⟩
  | _ => cases hstep

/-- The end of the batch, with the batch's own revision put. -/
theorem readerStep_ending (h : NodeInv commits n) {pending : Option Nat}
    (hpc : PcInv n started (.ending id pending)) (hheld : n.lock id = some t)
    (hstep : readerStep n commits t startup started (.ending id pending) op =
      some (n', pc')) : ReaderKeeps commits t started n n' pc' := by
  cases op with
  | endBatch =>
      cases pending with
      | none =>
          cases hstep
          exact ⟨h.setLock id none, .of_eq rfl rfl rfl,
            fun _ _ hlock hne => lock_setLock_of_held hheld hlock hne, trivial,
            fun _ hid => hid.elim⟩
      | some rev =>
          cases hstep
          obtain ⟨hle, hge⟩ := hpc rev rfl
          have hput : (n.putRevision id rev).lock id = some t := hheld
          exact ⟨(h.putRevision hle hge).setLock id none, .of_eq rfl rfl rfl,
            fun _ _ hlock hne => lock_setLock_of_held hput hlock hne, trivial,
            fun _ hid => hid.elim⟩
  | _ => cases hstep

end Reader

/-! ## Steps of the system -/

variable {Node : Type} [DecidableEq Node] [DecidableEq Thread]

/-- The three operations that write a revision number or compare with one respect the
order of the numbers: a number written for an id is not below that of an invalidation of
the id completed on the node, and an object offered to the cache has not reached the
number of an invalidation of its id that the stored revision has not reached. -/
def Ordered (home : Thread → Node) (s : State Node Key Thread) :
    Label Node Key Thread → Prop
  | .read t .seedRevision =>
      ∀ startup started id o rev, s.threads t = .reader startup started (.seeding id o rev) →
        ∀ i ∈ (s.nodes (home t)).completed id, i.number ≤ rev
  | .read t .compare =>
      ∀ startup started id o, s.threads t = .reader startup started (.comparing id o) →
        ∀ rev, (s.nodes (home t)).revisions id = some rev →
          ∀ i ∈ (s.nodes (home t)).drawn id, i.number ≤ o.revision → i.number ≤ rev
  | .invalidate t .putNumber =>
      ∀ id inv notifies, s.threads t = .bumping id inv notifies →
        ∀ i ∈ (s.nodes (home t)).completed id, i.number ≤ inv.number
  | _ => True

variable {home : Thread → Node} {s : State Node Key Thread}

omit [DecidableEq Key] in
theorem Inv.update (h : Inv home s) {t : Thread} {thread : ThreadState Key}
    (hnode : NodeInv s.commits n') (hgrows : Grows (s.nodes (home t)) n')
    (hlocks : ∀ id t', (s.nodes (home t)).lock id = some t' → t' ≠ t → n'.lock id = some t')
    (hthread : ThreadInv s.commits n' thread)
    (hbatch : ∀ id, thread.InBatch id → n'.lock id = some t) :
    Inv home (s.update (home t) n' t thread) where
  nodes m := by
    by_cases hm : m = home t
    · subst hm
      simpa [State.update] using hnode
    · simpa [State.update, Function.update_of_ne hm] using h.nodes m
  threads t' := by
    by_cases ht : t' = t
    · subst ht
      simpa [State.update] using hthread
    · have hold := h.threads t'
      by_cases hm : home t' = home t
      · rw [hm] at hold
        have hlock : ∀ id, (s.threads t').InBatch id → (s.nodes (home t)).lock id ≠ none := by
          intro id hid
          simp [← hm, h.locks t' id hid]
        simpa [State.update, Function.update_of_ne ht, hm] using hold.grows hgrows hlock
      · simpa [State.update, Function.update_of_ne ht, Function.update_of_ne hm] using hold
  locks t' id hid := by
    by_cases ht : t' = t
    · subst ht
      simp only [State.update, Function.update_self] at hid ⊢
      exact hbatch id hid
    · simp only [State.update, Function.update_of_ne ht] at hid ⊢
      have hold := h.locks t' id hid
      by_cases hm : home t' = home t
      · rw [hm] at hold ⊢
        simpa using hlocks id t' hold ht
      · simpa [Function.update_of_ne hm] using hold
  events := h.events

omit [DecidableEq Key] in
theorem Inv.move (h : Inv home s) {t : Thread} {thread : ThreadState Key}
    (hthread : ThreadInv s.commits (s.nodes (home t)) thread)
    (hbatch : ∀ id, ¬ thread.InBatch id) : Inv home (s.move t thread) := by
  have hupdate : Inv home (s.update (home t) (s.nodes (home t)) t thread) :=
    h.update (h.nodes (home t)) (.refl _) (fun _ _ hlock _ => hlock) hthread
      (fun id hid => (hbatch id hid).elim)
  simpa [State.update, State.move] using hupdate

omit [DecidableEq Key] [DecidableEq Thread] in
theorem Inv.evict (h : Inv home s) {m : Node} (hnode : NodeInv s.commits n')
    (hgrows : Grows (s.nodes m) n') (hlock : n'.lock = (s.nodes m).lock) :
    Inv home { s with nodes := Function.update s.nodes m n' } where
  nodes m' := by
    by_cases hm : m' = m
    · subst hm
      simpa using hnode
    · simpa [Function.update_of_ne hm] using h.nodes m'
  threads t := by
    by_cases hm : home t = m
    · subst hm
      have hheld : ∀ id, (s.threads t).InBatch id → (s.nodes (home t)).lock id ≠ none := by
        intro id hid
        simp [h.locks t id hid]
      simpa using (h.threads t).grows hgrows hheld
    · simpa [Function.update_of_ne hm] using h.threads t
  locks t id hid := by
    by_cases hm : home t = m
    · subst hm
      simpa [hlock] using h.locks t id hid
    · simpa [Function.update_of_ne hm] using h.locks t id hid
  events := h.events

theorem Inv.read (h : Inv home s) {t : Thread} {op : ReaderOp Key} {startup : Nat}
    {started : Key → Nat} {pc pc' : ReaderPc Key}
    (ht : s.threads t = .reader startup started pc) (hordered : Ordered home s (.read t op))
    (hstep : readerStep (s.nodes (home t)) s.commits t startup started pc op =
      some (n', pc')) :
    Inv home (s.update (home t) n' t (.reader startup started pc')) := by
  have hnode := h.nodes (home t)
  obtain ⟨hstart, hpc⟩ : StartInv (s.nodes (home t)) startup started ∧
      PcInv (s.nodes (home t)) started pc := by
    have hthread := h.threads t
    rwa [ht] at hthread
  have hlock : ∀ id, pc.InBatch id → (s.nodes (home t)).lock id = some t := by
    intro id hid
    exact h.locks t id (by rwa [ht])
  suffices hkeeps : ReaderKeeps s.commits t started (s.nodes (home t)) n' pc' from
    h.update hkeeps.node hkeeps.grows hkeeps.locks
      ⟨hstart.grows hkeeps.grows, hkeeps.pc⟩ hkeeps.batch
  cases pc with
  | «open» => exact readerStep_open hnode hstep
  | checking id o since => exact readerStep_checking hnode hpc hstep
  | served id o since =>
      cases op with
      | resume =>
          cases hstep
          exact .outside hnode trivial (fun _ hid => hid)
      | _ => cases hstep
  | missed id => exact readerStep_missed hnode hstep
  | unversioned id =>
      cases op with
      | currentCounter =>
          cases hstep
          exact .outside hnode (Nat.le_refl _) (fun _ hid => hid)
      | _ => cases hstep
  | versioned id loaded =>
      cases op with
      | readDatabase snapshot =>
          delta readerStep at hstep
          dsimp only at hstep
          split at hstep
          · rename_i hsnapshot
            cases hstep
            exact .outside hnode ⟨hpc, hsnapshot.1⟩ (fun _ hid => hid)
          · cases hstep
      | _ => cases hstep
  | adding id o => exact readerStep_adding hnode hpc hstep
  | unseeded id o =>
      cases op with
      | readCounter =>
          cases hstep
          exact .outside hnode ⟨hpc.1, hpc.2, Nat.le_refl _⟩ (fun _ hid => hid)
      | _ => cases hstep
  | seeding id o rev =>
      refine readerStep_seeding hnode hpc (fun hop => ?_) hstep
      subst hop
      exact hordered startup started id o rev ht
  | locking id o => exact readerStep_locking hnode hpc hstep
  | comparing id o =>
      refine readerStep_comparing hnode hstart hpc (hlock id rfl) (fun hop => ?_) hstep
      subst hop
      exact hordered startup started id o ht
  | storing id o pending => exact readerStep_storing hnode hpc (hlock id rfl) hstep
  | ending id pending => exact readerStep_ending hnode hpc (hlock id rfl) hstep

theorem Inv.invalidate (h : Inv home s) {t : Thread} {op : InvalidateOp}
    {thread' : ThreadState Key} (hordered : Ordered home s (.invalidate t op))
    (hstep : invalidateStep (s.nodes (home t)) (s.threads t) op = some (n', thread')) :
    Inv home (s.update (home t) n' t thread') := by
  have hnode := h.nodes (home t)
  have hthread := h.threads t
  cases hs : s.threads t with
  | invalidating id commit notifies =>
      rw [hs] at hstep hthread
      cases op with
      | removeObject =>
          cases hstep
          exact h.update (hnode.removeObject id) (.of_eq rfl rfl rfl) (fun _ _ hl _ => hl)
            hthread (fun _ hid => hid.elim)
      | _ => simp [invalidateStep] at hstep
  | removed id commit notifies =>
      rw [hs] at hstep hthread
      cases op with
      | nextNumber =>
          cases hstep
          exact h.update (hnode.drawNumber hthread) (grows_drawNumber _ id commit)
            (fun _ _ hl _ => hl) (by simp [ThreadInv, NodeState.drawNumber])
            (fun _ hid => hid.elim)
      | _ => simp [invalidateStep] at hstep
  | bumping id inv notifies =>
      rw [hs] at hstep hthread
      cases op with
      | putNumber =>
          simp only [invalidateStep] at hstep
          split at hstep
          · rename_i hfree
            cases hstep
            refine h.update (hnode.complete hthread (hordered id inv notifies hs))
              (grows_complete hfree) (fun _ _ hl _ => hl) ?_ ?_
            · cases notifies with
              | false => trivial
              | true => exact (hnode.drawn_le id inv hthread).2
            · intro id' hid
              cases notifies <;> exact hid.elim
          · cases hstep
      | _ => simp [invalidateStep] at hstep
  | idle => simp [hs, invalidateStep] at hstep
  | reader startup started pc => simp [hs, invalidateStep] at hstep
  | notifying id commit => simp [hs, invalidateStep] at hstep

theorem Inv.commit (h : Inv home s) {t : Thread} (id : Key) :
    Inv home { s.move t (.invalidating id (s.commits id + 1) true) with
      commits := Function.update s.commits id (s.commits id + 1) } := by
  have hmono : ∀ id', s.commits id' ≤ Function.update s.commits id (s.commits id + 1) id' := by
    intro id'
    by_cases hid : id' = id
    · subst hid
      simp
    · simp [Function.update_of_ne hid]
  have hthreads : ∀ t', ThreadInv (Function.update s.commits id (s.commits id + 1))
      (s.nodes (home t')) (s.threads t') := by
    intro t'
    have hold := h.threads t'
    cases hs : s.threads t' with
    | invalidating id' commit notifies =>
        rw [hs] at hold
        exact Nat.le_trans hold (hmono id')
    | removed id' commit notifies =>
        rw [hs] at hold
        exact Nat.le_trans hold (hmono id')
    | notifying id' commit =>
        rw [hs] at hold
        exact Nat.le_trans hold (hmono id')
    | reader startup started pc => rwa [hs] at hold
    | bumping id' inv notifies => rwa [hs] at hold
    | idle => trivial
  have hcommits : Inv home
      { s with commits := Function.update s.commits id (s.commits id + 1) } :=
    { nodes := fun m =>
        ⟨fun id' i hi => ⟨((h.nodes m).drawn_le id' i hi).1,
            Nat.le_trans ((h.nodes m).drawn_le id' i hi).2 (hmono id')⟩,
          (h.nodes m).completed_drawn, (h.nodes m).revision_le, (h.nodes m).revision_ge,
          (h.nodes m).cached⟩
      threads := hthreads
      locks := h.locks
      events := fun m e he => Nat.le_trans (h.events m e he) (hmono e.1) }
  exact hcommits.move (by simp [ThreadInv]) (fun _ hid => hid.elim)

/-- Every ordered step keeps the invariant. -/
theorem inv_step (h : Inv home s) {l : Label Node Key Thread} {s' : State Node Key Thread}
    (hordered : Ordered home s l) (hstep : step home s l = some s') : Inv home s' := by
  cases l with
  | beginReader t =>
      simp only [step] at hstep
      split at hstep
      · cases hstep
        refine h.move ⟨⟨Nat.le_refl _, fun id i hi hlt => ?_⟩, trivial⟩ (fun _ hid => hid.elim)
        have hle := ((h.nodes (home t)).drawn_le id i hi).2
        omega
      · cases hstep
  | read t op =>
      simp only [step] at hstep
      split at hstep
      · rename_i startup started pc ht
        cases hread : readerStep (s.nodes (home t)) s.commits t startup started pc op with
        | none => simp [hread] at hstep
        | some result =>
            simp only [hread, Option.map_some, Option.some.injEq] at hstep
            subst hstep
            exact h.read ht hordered hread
      · cases hstep
  | endReader t =>
      simp only [step] at hstep
      split at hstep
      · cases hstep
        exact h.move trivial (fun _ hid => hid.elim)
      · cases hstep
  | commit t id =>
      simp only [step] at hstep
      split at hstep
      · cases hstep
        exact h.commit id
      · cases hstep
  | rollback t id =>
      simp only [step] at hstep
      split at hstep
      · cases hstep
        exact h.move (Nat.zero_le _) (fun _ hid => hid.elim)
      · cases hstep
  | invalidate t op =>
      simp only [step] at hstep
      cases hinv : invalidateStep (s.nodes (home t)) (s.threads t) op with
      | none => simp [hinv] at hstep
      | some result =>
          simp only [hinv, Option.map_some, Option.some.injEq] at hstep
          subst hstep
          exact h.invalidate hordered hinv
  | notify t =>
      simp only [step] at hstep
      split at hstep
      · rename_i id commit ht
        cases hstep
        have hcommit : commit ≤ s.commits id := by
          have hthread := h.threads t
          rwa [ht] at hthread
        have hmove : Inv home (s.move t .idle) := h.move trivial (fun _ hid => hid.elim)
        refine ⟨hmove.nodes, hmove.threads, hmove.locks, fun m e he => ?_⟩
        simp only at he
        split at he
        · exact h.events m e he
        · rcases List.mem_append.mp he with he | he
          · exact h.events m e he
          · rw [List.mem_singleton.mp he]
            exact hcommit
      · cases hstep
  | deliver t index =>
      simp only [step] at hstep
      split at hstep
      · rename_i id commit _ hevent
        cases hstep
        have hmem : (id, commit) ∈ s.events (home t) := List.mem_of_getElem? hevent
        have hmove : Inv home (s.move t (.invalidating id commit false)) :=
          h.move (h.events (home t) _ hmem) (fun _ hid => hid.elim)
        refine ⟨hmove.nodes, hmove.threads, hmove.locks, fun m e he => ?_⟩
        by_cases hm : m = home t
        · subst hm
          simp only [Function.update_self] at he
          exact h.events _ e (List.mem_of_mem_eraseIdx he)
        · simp only [Function.update_of_ne hm] at he
          exact h.events m e he
      · cases hstep
  | evictRevision m id =>
      cases hstep
      exact h.evict ((h.nodes m).removeRevision id) (.of_eq rfl rfl rfl) rfl
  | evictObject m id =>
      cases hstep
      exact h.evict ((h.nodes m).removeObject id) (.of_eq rfl rfl rfl) rfl

omit [DecidableEq Key] [DecidableEq Node] [DecidableEq Thread] in
theorem inv_initial (home : Thread → Node) (commits : Key → Nat) :
    Inv home (initial commits : State Node Key Thread) where
  nodes m := ⟨by simp [initial], by simp [initial], by simp [initial], by simp [initial],
    by simp [initial]⟩
  threads t := trivial
  locks t id hid := hid.elim
  events m e he := by simp [initial] at he

/-- In every run in which revision numbers are written and compared in order, on any
number of nodes and under any interleaving, eviction and event order, an object that
`get` returns has seen the commit of every invalidation of its id that the node had
completed when the call began. -/
theorem served_has_seen_invalidations (home : Thread → Node) (commits : Key → Nat)
    (labels : List (Label Node Key Thread)) (final : State Node Key Thread)
    (hordered : Machine.Meets (step home) (Ordered home) (initial commits) labels)
    (hrun : Machine.run (step home) (initial commits) labels = some final)
    (t : Thread) (startup : Nat) (started : Key → Nat) (id : Key) (o : Revisioned)
    (since : List Invalidation)
    (hserved : final.threads t = .reader startup started (.served id o since)) :
    ∀ i ∈ since, i.commit ≤ o.snapshot := by
  have hinv : Inv home final :=
    Machine.run_invariant (fun _ _ _ h hok hstep => inv_step h hok hstep)
      (inv_initial home commits) hordered hrun
  have hthread := hinv.threads t
  rw [hserved] at hthread
  exact hthread.2

end Steps

/-! ## Two runs on one node -/

/-- A writer (`true`) commits and invalidates; a reader (`false`) that starts afterwards
loads the object, caches it and is served from the cache. -/
def loadAfterInvalidation : List (Label Unit Unit Bool) :=
  [.commit true (), .invalidate true .removeObject, .invalidate true .nextNumber,
    .invalidate true .putNumber, .beginReader false, .read false (.get ()),
    .read false .currentRevision, .read false (.readDatabase 1), .read false .readRevision,
    .read false .lockRevision, .read false .compare, .read false .storeObject,
    .read false .endBatch, .read false (.get ()), .read false .check]

theorem loadAfterInvalidation_served :
    ∃ final : State Unit Unit Bool,
      Machine.run (step fun _ => ()) (initial fun _ => 0) loadAfterInvalidation =
        some final ∧
      (∃ started, final.threads false =
        .reader 1 started (.served () ⟨1, 1⟩ [⟨1, 1⟩])) ∧
      ∀ i ∈ [(⟨1, 1⟩ : Invalidation)], i.commit ≤ 1 := by
  refine ⟨_, rfl, ⟨_, rfl⟩, ?_⟩
  refine served_has_seen_invalidations (fun _ => ()) (fun _ => 0) loadAfterInvalidation _ ?_
    rfl false 1 _ () ⟨1, 1⟩ [⟨1, 1⟩] rfl
  refine .cons trivial rfl (.cons trivial rfl (.cons trivial rfl (.cons ?put rfl
    (.cons trivial rfl (.cons trivial rfl (.cons trivial rfl (.cons trivial rfl
      (.cons trivial rfl (.cons trivial rfl (.cons ?compare rfl (.cons trivial rfl
        (.cons trivial rfl (.cons trivial rfl (.cons trivial rfl trivial))))))))))))))
  case put =>
    rintro id inv notifies ⟨⟩ i ⟨⟩
  case compare =>
    rintro startup started id o ⟨⟩ rev ⟨⟩ i hi hle
    exact hle

/-- A reader (`false`) loads an id that has no revision.  It has read the counter and is
about to seed the revision when a writer (`true`) commits and completes its
invalidation; the seed then overwrites the writer's number. -/
def loadAcrossInvalidation : List (Label Unit Unit Bool) :=
  [.beginReader false, .read false (.get ()), .read false .currentRevision,
    .read false .currentCounter, .read false (.readDatabase 0), .read false .readRevision,
    .read false .readCounter,
    .commit true (), .invalidate true .removeObject, .invalidate true .nextNumber,
    .invalidate true .putNumber,
    .read false .seedRevision, .read false .lockRevision, .read false .compare,
    .read false .storeObject, .read false .endBatch, .read false (.get ()),
    .read false .check]

/-- The object served at the end of that run was read before commit 1, whose
invalidation the node had completed before the call of `get`. -/
theorem loadAcrossInvalidation_stale :
    ∃ final : State Unit Unit Bool,
      Machine.run (step fun _ => ()) (initial fun _ => 0) loadAcrossInvalidation =
        some final ∧
      ∃ startup started o since,
        final.threads false = .reader startup started (.served () o since) ∧
        ∃ i ∈ since, o.snapshot < i.commit := by
  refine ⟨_, rfl, 0, _, ⟨0, 0⟩, [⟨1, 1⟩], rfl, ⟨1, 1⟩, by simp, by decide⟩

end Keycloak.Cache
