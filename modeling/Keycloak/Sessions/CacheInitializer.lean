import Keycloak.Lib.BitSet
import Keycloak.Lib.Machine

/-!
# Preloading of the offline sessions

`InfinispanCacheInitializer` loads the persisted sessions segment by segment.  The
segments of an iteration are handed to workers; the results are collected one after
the other, and `InitializerState` keeps which segments are finished.
-/

namespace Keycloak.Sessions.Initializer

/-! ## `InitializerState` -/

structure InitializerState where
  segmentsCount : Nat
  segments : Finset Nat
  lowestUnfinishedSegment : Int
  deriving DecidableEq

namespace InitializerState

def isFinished (state : InitializerState) : Bool :=
  state.segments.card = state.segmentsCount

def getNextUnfinishedSegmentFromIndex (state : InitializerState) (index : Nat) : Int :=
  let nextFreeSegment := BitSet.nextClearBit state.segments index
  if nextFreeSegment < state.segmentsCount then nextFreeSegment else -1

/-- `updateLowestUnfinishedSegment`; `nextClearBit` throws on a negative index. -/
def updateLowestUnfinishedSegment (state : InitializerState) : Option InitializerState :=
  if state.lowestUnfinishedSegment < 0 then none
  else
    let index := state.lowestUnfinishedSegment.toNat
    some { state with
      lowestUnfinishedSegment := state.getNextUnfinishedSegmentFromIndex index }

def new (segmentsCount : Nat) : InitializerState :=
  let state : InitializerState := ⟨segmentsCount, ∅, 0⟩
  { state with lowestUnfinishedSegment := state.getNextUnfinishedSegmentFromIndex 0 }

/-- The loop of `getUnfinishedSegments`, with the number of segments still to add. -/
def collectUnfinished (state : InitializerState) : Nat → Nat → List Nat
  | 0, _ => []
  | count + 1, next =>
      let next := state.getNextUnfinishedSegmentFromIndex next
      if next = -1 then []
      else next.toNat :: state.collectUnfinished count (next.toNat + 1)

def getUnfinishedSegments (state : InitializerState) (maxSegmentCount : Nat) : List Nat :=
  if state.lowestUnfinishedSegment = -1 then []
  else state.collectUnfinished maxSegmentCount state.lowestUnfinishedSegment.toNat

def markSegmentFinished (state : InitializerState) (index : Nat) : Option InitializerState :=
  { state with segments := insert index state.segments }.updateLowestUnfinishedSegment

structure IsFirstUnfinished (state : InitializerState) (segment : Nat) : Prop where
  lt_count : segment < state.segmentsCount
  notMem : segment ∉ state.segments
  below : ∀ j < segment, j ∈ state.segments

/-- `lowestUnfinishedSegment` is the first unfinished segment, or -1 when all are
finished. -/
def LowestUnfinished (state : InitializerState) : Prop :=
  state.isFinished ∧ state.lowestUnfinishedSegment = -1 ∨
    ∃ segment : Nat, state.lowestUnfinishedSegment = segment ∧ state.IsFirstUnfinished segment

structure Tracked (state : InitializerState) : Prop where
  mem_lt : ∀ j ∈ state.segments, j < state.segmentsCount
  lowest : state.LowestUnfinished

variable {state : InitializerState} {index : Nat}

theorem isFinished_iff (hlt : ∀ j ∈ state.segments, j < state.segmentsCount) :
    state.isFinished ↔ ∀ j < state.segmentsCount, j ∈ state.segments := by
  rw [isFinished, decide_eq_true_iff]
  exact BitSet.card_eq_iff hlt

/-- The next unfinished segment: there is none, or it is the first from the index on. -/
theorem getNextUnfinishedSegmentFromIndex_cases (state : InitializerState) (index : Nat) :
    (state.getNextUnfinishedSegmentFromIndex index = -1 ∧
      ∀ j, index ≤ j → j < state.segmentsCount → j ∈ state.segments) ∨
    ∃ segment : Nat, state.getNextUnfinishedSegmentFromIndex index = segment ∧
      index ≤ segment ∧ segment < state.segmentsCount ∧ segment ∉ state.segments ∧
      ∀ j, index ≤ j → j < segment → j ∈ state.segments := by
  have hbelow : ∀ j, index ≤ j → j < BitSet.nextClearBit state.segments index →
      j ∈ state.segments := fun j hle hlt => BitSet.mem_of_lt_nextClearBit hle hlt
  rw [getNextUnfinishedSegmentFromIndex]
  by_cases hlt : BitSet.nextClearBit state.segments index < state.segmentsCount
  · refine .inr ⟨BitSet.nextClearBit state.segments index, if_pos hlt,
      BitSet.le_nextClearBit _ _, hlt, BitSet.nextClearBit_notMem _ _, hbelow⟩
  · refine .inl ⟨if_neg hlt, fun j hle hj => hbelow j hle ?_⟩
    omega

/-- Looking on from an index with nothing unfinished below it finds the first unfinished
segment of all. -/
theorem lowestUnfinished_of_below (hlt : ∀ j ∈ state.segments, j < state.segmentsCount)
    (hbelow : ∀ j < index, j ∈ state.segments)
    (hlowest : state.lowestUnfinishedSegment = state.getNextUnfinishedSegmentFromIndex index) :
    state.LowestUnfinished := by
  rcases state.getNextUnfinishedSegmentFromIndex_cases index with
    ⟨hnone, hrest⟩ | ⟨segment, hsome, _, hcount, hnotMem, hbetween⟩
  · refine .inl ⟨(isFinished_iff hlt).mpr fun j hj => ?_, hlowest.trans hnone⟩
    rcases Nat.lt_or_ge j index with hj' | hj'
    · exact hbelow j hj'
    · exact hrest j hj' hj
  · refine .inr ⟨segment, hlowest.trans hsome, hcount, hnotMem, fun j hj => ?_⟩
    rcases Nat.lt_or_ge j index with hj' | hj'
    · exact hbelow j hj'
    · exact hbetween j hj' hj

theorem new_tracked (segmentsCount : Nat) : (new segmentsCount).Tracked where
  mem_lt j hj := by simp [new] at hj
  lowest := by
    have hbelow : ∀ j < 0, j ∈ (new segmentsCount).segments := by omega
    refine lowestUnfinished_of_below (fun j hj => ?_) hbelow rfl
    simp [new] at hj

theorem markSegmentFinished_spec (h : state.Tracked) (hlt : index < state.segmentsCount)
    (hunfinished : index ∉ state.segments) :
    ∃ state', state.markSegmentFinished index = some state' ∧ state'.Tracked ∧
      state'.segments = insert index state.segments ∧
      state'.segmentsCount = state.segmentsCount := by
  rcases h.lowest with ⟨hfinished, _⟩ | ⟨segment, hsegment, hfirst⟩
  · exact absurd ((isFinished_iff h.mem_lt).mp hfinished index hlt) hunfinished
  · have hnotNeg : ¬ state.lowestUnfinishedSegment < 0 := by omega
    have hindex : state.lowestUnfinishedSegment.toNat = segment := by omega
    have hmem_lt : ∀ j ∈ insert index state.segments, j < state.segmentsCount := by
      intro j hj
      rcases Finset.mem_insert.mp hj with rfl | hmem
      · exact hlt
      · exact h.mem_lt j hmem
    rw [markSegmentFinished, updateLowestUnfinishedSegment, if_neg hnotNeg, hindex]
    refine ⟨_, rfl, ⟨hmem_lt, ?_⟩, rfl, rfl⟩
    refine lowestUnfinished_of_below hmem_lt (fun j hj => ?_) rfl
    exact Finset.mem_insert_of_mem (hfirst.below j hj)

theorem collectUnfinished_spec (state : InitializerState) (count next : Nat) :
    (state.collectUnfinished count next).Nodup ∧
      ∀ segment ∈ state.collectUnfinished count next,
        next ≤ segment ∧ segment < state.segmentsCount ∧ segment ∉ state.segments := by
  induction count generalizing next with
  | zero => simp [collectUnfinished]
  | succ count ih =>
      rw [collectUnfinished]
      rcases state.getNextUnfinishedSegmentFromIndex_cases next with
        ⟨hnone, _⟩ | ⟨first, hfirst, hle, hcount, hnotMem, _⟩
      · simp [hnone]
      · obtain ⟨hnodup, hrest⟩ := ih (first + 1)
        have hnotNone : (first : Int) ≠ -1 := by omega
        simp only [hfirst, if_neg hnotNone, Int.toNat_natCast]
        refine ⟨List.nodup_cons.mpr ⟨fun hmem => ?_, hnodup⟩, fun segment hsegment => ?_⟩
        · have hlater := (hrest first hmem).1
          omega
        · rcases List.mem_cons.mp hsegment with rfl | hmem
          · exact ⟨hle, hcount, hnotMem⟩
          · obtain ⟨hlater, hcount', hnotMem'⟩ := hrest segment hmem
            exact ⟨by omega, hcount', hnotMem'⟩

theorem getUnfinishedSegments_spec (state : InitializerState) (maxSegmentCount : Nat) :
    (state.getUnfinishedSegments maxSegmentCount).Nodup ∧
      ∀ segment ∈ state.getUnfinishedSegments maxSegmentCount,
        segment < state.segmentsCount ∧ segment ∉ state.segments := by
  rw [getUnfinishedSegments]
  split
  · simp
  · obtain ⟨hnodup, hmem⟩ :=
      state.collectUnfinished_spec maxSegmentCount state.lowestUnfinishedSegment.toNat
    exact ⟨hnodup, fun segment hsegment => (hmem segment hsegment).2⟩

end InitializerState

/-! ## `OfflinePersistentUserSessionLoader` -/

structure LoaderContext where
  sessionsTotal : Nat
  segmentsCount : Nat
  sessionsPerSegment : Nat
  deriving DecidableEq, Repr

def LoaderContext.new (sessionsTotal sessionsPerSegment : Nat) : LoaderContext :=
  let segmentsCount := sessionsTotal / sessionsPerSegment
  { sessionsTotal
    segmentsCount := if sessionsTotal % sessionsPerSegment ≥ 1 then segmentsCount + 1
      else segmentsCount
    sessionsPerSegment }

structure Loader where
  sessionsPerSegment : Nat
  deriving DecidableEq, Repr

namespace Loader

/-- `computeLoaderContext`, with the number of sessions that the persister counts. -/
def computeLoaderContext (loader : Loader) (sessionsCount : Nat) : LoaderContext :=
  .new sessionsCount loader.sessionsPerSegment

/-- The arguments `first` and `max` with which `loadSessions` asks the persister. -/
def loadSessions (loader : Loader) (ctx : LoaderContext) (segment : Nat) : Nat × Nat :=
  let first := ctx.sessionsPerSegment * segment
  let max := loader.sessionsPerSegment
  (first, max)

end Loader

/-- The persister returns the session with this index for these arguments. -/
def Covers (index : Nat) (request : Nat × Nat) : Prop :=
  request.1 ≤ index ∧ index < request.1 + request.2

instance (index : Nat) (request : Nat × Nat) : Decidable (Covers index request) :=
  inferInstanceAs (Decidable (_ ∧ _))

variable {loader : Loader} {total : Nat}

theorem covers_loadSessions_iff (hpos : 0 < loader.sessionsPerSegment) {index segment : Nat} :
    Covers index (loader.loadSessions (loader.computeLoaderContext total) segment) ↔
      segment = index / loader.sessionsPerSegment := by
  change loader.sessionsPerSegment * segment ≤ index ∧
    index < loader.sessionsPerSegment * segment + loader.sessionsPerSegment ↔ _
  rw [eq_comm, Nat.div_eq_iff hpos, Nat.mul_comm segment]
  omega

/-- The segment of every session is one of the segments that are counted. -/
theorem div_lt_segmentsCount (hpos : 0 < loader.sessionsPerSegment) {index : Nat}
    (hindex : index < total) :
    index / loader.sessionsPerSegment < (loader.computeLoaderContext total).segmentsCount := by
  refine Nat.div_lt_of_lt_mul (Nat.lt_of_lt_of_le hindex ?_)
  have hsplit := Nat.div_add_mod total loader.sessionsPerSegment
  have hmod := Nat.mod_lt total hpos
  simp only [Loader.computeLoaderContext, LoaderContext.new]
  split
  · rw [Nat.mul_succ]
    omega
  · omega

/-! ## `startLoadingImpl` -/

/-- What `future.get()` gives: the result of the worker with its `success` flag, or one of
the two exceptions that the loop catches. -/
inductive FutureOutcome where
  | result (success : Bool)
  | exception
  deriving DecidableEq, Repr

inductive Event where
  | submitted (segment : Nat)
  | loaded (segment : Nat)
  deriving DecidableEq, Repr

/-- Where the loop stands: before the test of its condition, with some results of the
iteration still to be collected, or behind the loop. -/
inductive Phase where
  | looping
  | collecting (futures : List Nat)
  | returned
  | thrown
  deriving DecidableEq, Repr

/-- The local variables of `startLoadingImpl`.  `events` is what the workers were given
and what they loaded, in this order. -/
structure Loading where
  state : InitializerState
  errors : Nat
  phase : Phase
  events : List Event
  deriving DecidableEq

def startLoadingImpl (ctx : LoaderContext) : Loading where
  state := .new ctx.segmentsCount
  errors := 0
  phase := .looping
  events := []

inductive Label where
  /-- The head of an iteration, with the number of workers at this time. -/
  | submit (distributedWorkersCount : Nat)
  | get (outcome : FutureOutcome)
  /-- The end of an iteration, with the test of `maxErrors`. -/
  | endIteration
  /-- The loop condition does not hold any more. -/
  | finish
  deriving DecidableEq, Repr

def step (maxErrors : Nat) (s : Loading) : Label → Option Loading
  | .submit distributedWorkersCount =>
      if s.phase = .looping ∧ ¬ s.state.isFinished then
        let segments := s.state.getUnfinishedSegments distributedWorkersCount
        some { s with
          phase := .collecting segments
          events := s.events ++ segments.map .submitted }
      else none
  | .get outcome =>
      match s.phase with
      | .collecting (segment :: futures) =>
          match outcome with
          | .result true =>
              match s.state.markSegmentFinished segment with
              | some state => some { s with
                  state, phase := .collecting futures
                  events := s.events ++ [.loaded segment] }
              | none => some { s with phase := .thrown }
          | .result false => some { s with phase := .collecting futures }
          | .exception => some { s with
              errors := s.errors + 1, phase := .collecting futures }
      | _ => none
  | .endIteration =>
      if s.phase = .collecting [] then
        if s.errors ≥ maxErrors then some { s with phase := .thrown }
        else some { s with phase := .looping }
      else none
  | .finish =>
      if s.phase = .looping ∧ s.state.isFinished then some { s with phase := .returned }
      else none

/-! ## Invariant -/

/-- Nothing happens to a segment after it is loaded. -/
def Event.Settled (e e' : Event) : Prop :=
  ∀ segment, e = .loaded segment → e' ≠ .submitted segment ∧ e' ≠ .loaded segment

structure Inv (segmentsCount : Nat) (s : Loading) : Prop where
  count : s.state.segmentsCount = segmentsCount
  tracked : s.state.Tracked
  marked : ∀ segment, segment ∈ s.state.segments ↔ .loaded segment ∈ s.events
  settled : s.events.Pairwise Event.Settled
  futures : ∀ futures, s.phase = .collecting futures → futures.Nodup ∧
    ∀ segment ∈ futures, segment < s.state.segmentsCount ∧ segment ∉ s.state.segments
  returned : s.phase = .returned → s.state.isFinished

theorem startLoadingImpl_inv (ctx : LoaderContext) :
    Inv ctx.segmentsCount (startLoadingImpl ctx) where
  count := rfl
  tracked := InitializerState.new_tracked ctx.segmentsCount
  marked := by simp [startLoadingImpl, InitializerState.new]
  settled := List.Pairwise.nil
  futures := by simp [startLoadingImpl]
  returned := by simp [startLoadingImpl]

theorem Inv.setPhase {segmentsCount errors : Nat} {s : Loading} {phase : Phase}
    (h : Inv segmentsCount s)
    (hfutures : ∀ futures, phase = .collecting futures → futures.Nodup ∧
      ∀ segment ∈ futures, segment < s.state.segmentsCount ∧ segment ∉ s.state.segments)
    (hreturned : phase = .returned → s.state.isFinished) :
    Inv segmentsCount { s with errors, phase } :=
  ⟨h.count, h.tracked, h.marked, h.settled, hfutures, hreturned⟩

theorem submit_inv {segmentsCount workers : Nat} {s : Loading} (h : Inv segmentsCount s) :
    Inv segmentsCount { s with
      phase := .collecting (s.state.getUnfinishedSegments workers)
      events := s.events ++ (s.state.getUnfinishedSegments workers).map .submitted } := by
  obtain ⟨hnodup, hunfinished⟩ := s.state.getUnfinishedSegments_spec workers
  refine ⟨h.count, h.tracked, fun segment => ?_, ?_, fun futures heq => ?_, by simp⟩
  · simpa using h.marked segment
  · refine List.pairwise_append.mpr ⟨h.settled, ?_, ?_⟩
    · refine List.pairwise_map.mpr (List.pairwise_of_forall fun _ _ segment hloaded => ?_)
      cases hloaded
    · -- the segments handed out are unfinished, so none of them was loaded before
      intro e he e' he' segment hloaded
      obtain ⟨segment', hmem, rfl⟩ := List.mem_map.mp he'
      refine ⟨fun heq => ?_, by simp⟩
      cases heq
      exact (hunfinished segment hmem).2 ((h.marked segment).mpr (hloaded ▸ he))
  · cases heq
    exact ⟨hnodup, hunfinished⟩

theorem loaded_inv {segmentsCount segment : Nat} {futures : List Nat} {s : Loading}
    {state : InitializerState} (h : Inv segmentsCount s)
    (hphase : s.phase = .collecting (segment :: futures))
    (hmark : s.state.markSegmentFinished segment = some state) :
    Inv segmentsCount { s with
      state, phase := .collecting futures, events := s.events ++ [.loaded segment] } := by
  obtain ⟨hnodup, hunfinished⟩ := h.futures _ hphase
  obtain ⟨hlt, hnotMem⟩ := hunfinished segment List.mem_cons_self
  obtain ⟨state', hmark', htracked, hsegments, hcount⟩ :=
    InitializerState.markSegmentFinished_spec h.tracked hlt hnotMem
  rw [hmark, Option.some.injEq] at hmark'
  subst hmark'
  refine ⟨hcount.trans h.count, htracked, fun segment' => ?_, ?_, fun futures' heq => ?_, by simp⟩
  · simp [hsegments, h.marked segment', or_comm, eq_comm]
  · refine List.pairwise_append.mpr ⟨h.settled, List.pairwise_singleton _ _, ?_⟩
    intro e he e' he' segment' hloaded
    rw [List.mem_singleton] at he'
    subst he'
    refine ⟨by simp, fun heq => ?_⟩
    cases heq
    exact hnotMem ((h.marked segment).mpr (hloaded ▸ he))
  · cases heq
    obtain ⟨hfresh, hnodup'⟩ := List.nodup_cons.mp hnodup
    refine ⟨hnodup', fun segment' hmem => ?_⟩
    obtain ⟨hlt', hnotMem'⟩ := hunfinished segment' (List.mem_cons_of_mem segment hmem)
    refine ⟨hcount ▸ hlt', fun hinsert => ?_⟩
    change segment' ∈ state.segments at hinsert
    rw [hsegments] at hinsert
    rcases Finset.mem_insert.mp hinsert with rfl | hold
    · exact hfresh hmem
    · exact hnotMem' hold

theorem step_inv {maxErrors segmentsCount : Nat} {s s' : Loading} {label : Label}
    (h : Inv segmentsCount s) (hstep : step maxErrors s label = some s') :
    Inv segmentsCount s' := by
  cases label with
  | submit workers =>
      rw [step] at hstep
      split at hstep
      · cases hstep
        exact submit_inv h
      · cases hstep
  | get outcome =>
      rw [step] at hstep
      split at hstep
      · rename_i segment futures hphase
        obtain ⟨hnodup, hunfinished⟩ := h.futures _ hphase
        have hrest : ∀ futures', Phase.collecting futures = .collecting futures' →
            futures'.Nodup ∧ ∀ segment ∈ futures',
              segment < s.state.segmentsCount ∧ segment ∉ s.state.segments := by
          intro futures' heq
          cases heq
          exact ⟨hnodup.of_cons, fun segment' hmem =>
            hunfinished segment' (List.mem_cons_of_mem segment hmem)⟩
        split at hstep
        · split at hstep
          · rename_i state hmark
            cases hstep
            exact loaded_inv h hphase hmark
          · cases hstep
            exact h.setPhase (by simp) (by simp)
        · cases hstep
          exact h.setPhase hrest (by simp)
        · cases hstep
          exact h.setPhase hrest (by simp)
      · cases hstep
  | endIteration =>
      rw [step] at hstep
      split at hstep
      · split at hstep
        · cases hstep
          exact h.setPhase (by simp) (by simp)
        · cases hstep
          exact h.setPhase (by simp) (by simp)
      · cases hstep
  | finish =>
      rw [step] at hstep
      split at hstep
      · rename_i hfinished
        cases hstep
        exact h.setPhase (by simp) fun _ => hfinished.2
      · cases hstep

theorem run_inv {ctx : LoaderContext} {maxErrors : Nat} {labels : List Label} {s : Loading}
    (hrun : Machine.run (step maxErrors) (startLoadingImpl ctx) labels = some s) :
    Inv ctx.segmentsCount s :=
  Machine.run_invariant_all (fun _ _ _ h hstep => step_inv h hstep)
    (startLoadingImpl_inv ctx) hrun

/-! ## Complete preloading -/

def loadedSegments (events : List Event) : List Nat :=
  events.filterMap fun
    | .loaded segment => some segment
    | .submitted _ => none

theorem mem_loadedSegments {events : List Event} {segment : Nat} :
    segment ∈ loadedSegments events ↔ .loaded segment ∈ events := by
  rw [loadedSegments, List.mem_filterMap]
  constructor
  · rintro ⟨e, he, heq⟩
    cases e with
    | loaded segment' =>
        cases heq
        exact he
    | submitted segment' => cases heq
  · exact fun hmem => ⟨.loaded segment, hmem, rfl⟩

theorem loadedSegments_nodup {events : List Event} (h : events.Pairwise Event.Settled) :
    (loadedSegments events).Nodup := by
  refine List.pairwise_filterMap.mpr (h.imp fun {e e'} hsettled segment hseg segment' hseg' => ?_)
  cases e with
  | submitted _ => cases hseg
  | loaded _ =>
      cases hseg
      rintro rfl
      cases e' with
      | submitted _ => cases hseg'
      | loaded _ =>
          cases hseg'
          exact (hsettled _ rfl).2 rfl

/-- Behind the loop every segment is loaded, and the offsets with which the loaded ones
were requested cover every session once. -/
structure Complete (loader : Loader) (total : Nat) (s : Loading) : Prop where
  loaded : ∀ segment < (loader.computeLoaderContext total).segmentsCount,
    Event.loaded segment ∈ s.events
  covered : ∀ index < total,
    ((loadedSegments s.events).map
      (loader.loadSessions (loader.computeLoaderContext total))).countP (Covers index) = 1

theorem Inv.complete {s : Loading} (hpos : 0 < loader.sessionsPerSegment)
    (h : Inv (loader.computeLoaderContext total).segmentsCount s)
    (hreturned : s.phase = .returned) : Complete loader total s := by
  have hloaded : ∀ segment < (loader.computeLoaderContext total).segmentsCount,
      Event.loaded segment ∈ s.events := by
    intro segment hlt
    have hall := (InitializerState.isFinished_iff h.tracked.mem_lt).mp (h.returned hreturned)
    exact (h.marked segment).mp (hall segment (h.count ▸ hlt))
  refine ⟨hloaded, fun index hindex => ?_⟩
  have hmem : index / loader.sessionsPerSegment ∈ loadedSegments s.events :=
    mem_loadedSegments.mpr (hloaded _ (div_lt_segmentsCount hpos hindex))
  calc ((loadedSegments s.events).map
        (loader.loadSessions (loader.computeLoaderContext total))).countP (Covers index)
      = (loadedSegments s.events).countP (· == index / loader.sessionsPerSegment) := by
        rw [List.countP_map]
        refine List.countP_congr fun segment _ => ?_
        rw [Function.comp_apply, decide_eq_true_iff, beq_iff_eq]
        exact covers_loadSessions_iff hpos
    _ = (loadedSegments s.events).count (index / loader.sessionsPerSegment) := rfl
    _ = 1 := List.count_eq_one_of_mem (loadedSegments_nodup h.settled) hmem

/-- Whatever the workers give back: `lowestUnfinishedSegment` is the first unfinished
segment, or -1 when there is none; no segment is submitted after it was loaded; and when
the loop ends normally, the preloading is complete. -/
theorem startLoadingImpl_complete (hpos : 0 < loader.sessionsPerSegment) {maxErrors : Nat}
    {labels : List Label} {s : Loading}
    (hrun : Machine.run (step maxErrors)
      (startLoadingImpl (loader.computeLoaderContext total)) labels = some s) :
    s.state.LowestUnfinished ∧
      (∀ pre segment post, s.events = pre ++ Event.loaded segment :: post →
        Event.submitted segment ∉ post) ∧
      (s.phase = .returned → Complete loader total s) := by
  have hinv := run_inv hrun
  refine ⟨hinv.tracked.lowest, fun pre segment post heq hmem => ?_, hinv.complete hpos⟩
  have hpairwise := hinv.settled
  rw [heq] at hpairwise
  have hafter := (List.pairwise_append.mp hpairwise).2.1
  exact ((List.pairwise_cons.mp hafter).1 _ hmem segment rfl).1 rfl

/-- Five sessions, two in a segment; the worker of segment 1 fails once and throws once. -/
def retriedSegment : List Label :=
  [.submit 2, .get (.result true), .get (.result false), .endIteration,
    .submit 2, .get .exception, .get (.result true), .endIteration,
    .submit 2, .get (.result true), .endIteration, .finish]

theorem retriedSegment_complete :
    ∃ s, Machine.run (step 3) (startLoadingImpl ((Loader.mk 2).computeLoaderContext 5))
        retriedSegment = some s ∧ s.phase = .returned ∧ s.state.LowestUnfinished ∧
      Complete ⟨2⟩ 5 s := by
  obtain ⟨s, hrun, hphase⟩ : ∃ s,
      Machine.run (step 3) (startLoadingImpl ((Loader.mk 2).computeLoaderContext 5))
        retriedSegment = some s ∧ s.phase = .returned := ⟨_, rfl, rfl⟩
  have hpos : 0 < (Loader.mk 2).sessionsPerSegment := by decide
  obtain ⟨hlowest, -, hcomplete⟩ := startLoadingImpl_complete hpos hrun
  exact ⟨s, hrun, hphase, hlowest, hcomplete hphase⟩

/-- With all its segments finished, the state does not point behind the last one. -/
theorem oneSegment_lowest :
    ∃ s, Machine.run (step 3) (startLoadingImpl ((Loader.mk 1).computeLoaderContext 1))
        [.submit 1, .get (.result true)] = some s ∧ s.state.isFinished = true ∧
      s.state.lowestUnfinishedSegment ≠ s.state.segmentsCount :=
  ⟨_, rfl, rfl, by decide⟩

end Keycloak.Sessions.Initializer
