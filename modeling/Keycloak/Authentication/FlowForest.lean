import Keycloak.Authentication.FlowCopies
import Mathlib.Algebra.Order.BigOperators.Group.List
import Mathlib.Algebra.Order.Group.Nat

/-!
# The forest of authentication flows

In every run of requests the flows of a realm form a forest: every execution stands in a flow
that exists, every subflow exists and hangs in one place, no flow is below itself, and the
executions of a flow have different priorities.  So a flow can be listed, and moving an execution
up or down exchanges it with its neighbour.
-/

namespace Keycloak.Authentication.FlowManagement

open Machine JavaInt

variable {session : Session} {r r' r'' : Realm} {depth level id : Nat}
  {flow source target : AuthenticationFlow} {execution : AuthenticationExecution}
  {executions rest : List AuthenticationExecution} {newName : String}

/-- Flows and executions as a forest.  `rank` falls from a flow to its subflows. -/
structure Forest (r : Realm) : Prop extends Numbered r where
  executionIds : (r.executions.map (·.id)).Nodup
  placed : ∀ e ∈ r.executions, e.parentFlow ∈ r.flows.map (·.id)
  present : ∀ e ∈ r.executions, ∀ id ∈ e.flowId, id ∈ r.flows.map (·.id)
  branches : ∀ e ∈ r.executions, e.authenticatorFlow = true → e.flowId.isSome
  once : ∀ e ∈ r.executions, ∀ e' ∈ r.executions, ∀ id ∈ e.flowId, id ∈ e'.flowId → e = e'
  ranked : ∃ rank : Nat → Nat, ∀ e ∈ r.executions, ∀ id ∈ e.flowId, rank id < rank e.parentFlow
  priorities : ∀ e ∈ r.executions, ∀ e' ∈ r.executions, e.parentFlow = e'.parentFlow →
    e.priority = e'.priority → e = e'

/-! ## Operations on a forest -/

theorem Forest.of_ids (h : Forest r) (hexecutions : r'.executions = r.executions)
    (hids : r'.flows.map (·.id) = r.flows.map (·.id)) (hnext : r'.nextId = r.nextId) :
    Forest r' where
  flows f hf := by
    have hmem : f.id ∈ r.flows.map (·.id) := hids ▸ List.mem_map_of_mem hf
    obtain ⟨g, hg, heq⟩ := List.mem_map.mp hmem
    rw [hnext, ← heq]
    exact h.flows g hg
  flowIds := hids ▸ h.flowIds
  executions := hnext ▸ hexecutions ▸ h.executions
  parents := hnext ▸ hexecutions ▸ h.parents
  subflows := hnext ▸ hexecutions ▸ h.subflows
  leaves := hexecutions ▸ h.leaves
  ordinary := hexecutions ▸ h.ordinary
  executionIds := hexecutions ▸ h.executionIds
  placed := hids ▸ hexecutions ▸ h.placed
  present := hids ▸ hexecutions ▸ h.present
  branches := hexecutions ▸ h.branches
  once := hexecutions ▸ h.once
  ranked := hexecutions ▸ h.ranked
  priorities := hexecutions ▸ h.priorities

theorem Forest.addFlow (h : Forest r) (hexecutions : r'.executions = r.executions)
    (hflows : r'.flows = r.flows ++ [flow]) (hfree : flow.id ∉ r.flows.map (·.id))
    (hle : r.nextId ≤ r'.nextId) (hlt : flow.id < r'.nextId) : Forest r' where
  flows f hf := by
    rw [hflows] at hf
    rcases List.mem_append.mp hf with hf | hf
    · exact (h.flows f hf).trans_le hle
    · exact List.mem_singleton.mp hf ▸ hlt
  flowIds := by
    rw [hflows, List.map_append, List.nodup_append]
    refine ⟨h.flowIds, List.nodup_singleton _, fun a ha b hb heq => hfree ?_⟩
    rw [List.map_singleton, List.mem_singleton] at hb
    exact hb ▸ heq ▸ ha
  executions e he := (h.executions e (hexecutions ▸ he)).trans_le hle
  parents e he := (h.parents e (hexecutions ▸ he)).trans_le hle
  subflows e he id hid := (h.subflows e (hexecutions ▸ he) id hid).trans_le hle
  leaves := hexecutions ▸ h.leaves
  ordinary := hexecutions ▸ h.ordinary
  executionIds := hexecutions ▸ h.executionIds
  placed e he := by
    rw [hflows, List.map_append]
    exact List.mem_append_left _ (h.placed e (hexecutions ▸ he))
  present e he id hid := by
    rw [hflows, List.map_append]
    exact List.mem_append_left _ (h.present e (hexecutions ▸ he) id hid)
  branches := hexecutions ▸ h.branches
  once := hexecutions ▸ h.once
  ranked := hexecutions ▸ h.ranked
  priorities := hexecutions ▸ h.priorities

/-- A flow that an execution can be led to: it exists, nothing leads to it yet, and the flows
below it are among `below`, which the parent of the execution is not. -/
structure Free (r : Realm) (parent id : Nat) (below : Nat → Prop) : Prop where
  present : id ∈ r.flows.map (·.id)
  unused : ∀ e ∈ r.executions, e.flowId ≠ some id
  closed : Closed r below
  self : below id
  parent : ¬ below parent

open Classical in
theorem Free.ranked {parent : Nat} {below : Nat → Prop} (h : Free r parent id below)
    (hranked : ∃ rank : Nat → Nat, ∀ e ∈ r.executions, ∀ id ∈ e.flowId,
      rank id < rank e.parentFlow) :
    ∃ rank : Nat → Nat, rank id < rank parent ∧
      ∀ e ∈ r.executions, ∀ id ∈ e.flowId, rank id < rank e.parentFlow := by
  obtain ⟨rank, hrank⟩ := hranked
  -- what is not below the flow is lifted over it
  refine ⟨fun x => if below x then rank x else rank x + rank id + 1, ?_, fun e he x hx => ?_⟩
  · dsimp only
    rw [if_pos h.self, if_neg h.parent]
    omega
  · dsimp only
    have hlt := hrank e he x hx
    by_cases hparent : below e.parentFlow
    · rw [if_pos hparent, if_pos (h.closed e he hparent x hx)]
      exact hlt
    · rw [if_neg hparent]
      split <;> omega

theorem Forest.addExecution (h : Forest r) (hflows : r'.flows = r.flows)
    (hexecutions : r'.executions = r.executions ++ [execution])
    (hfree : execution.id ∉ r.executions.map (·.id)) (hle : r.nextId ≤ r'.nextId)
    (hlt : execution.id < r'.nextId) (hplaced : execution.parentFlow ∈ r.flows.map (·.id))
    (hlast : ∀ e ∈ r.executions, e.parentFlow = execution.parentFlow →
      e.priority < execution.priority)
    (hordinary : Ordinary execution)
    (hflow : execution.authenticatorFlow = execution.flowId.isSome)
    (hsub : ∀ id ∈ execution.flowId, ∃ below, Free r execution.parentFlow id below) :
    Forest r' := by
  have hmem : ∀ {e}, e ∈ r'.executions ↔ e ∈ r.executions ∨ e = execution := by
    intro e
    rw [hexecutions, List.mem_append, List.mem_singleton]
  have hbound : ∀ {n}, n ∈ r.flows.map (·.id) → n < r'.nextId := by
    intro n hn
    obtain ⟨f, hf, rfl⟩ := List.mem_map.mp hn
    exact (h.flows f hf).trans_le hle
  refine ⟨⟨fun f hf => ?_, hflows ▸ h.flowIds, fun e he => ?_, fun e he => ?_,
    fun e he id hid => ?_, fun e he => ?_, fun e he => ?_⟩, ?_, fun e he => ?_,
    fun e he id hid => ?_, fun e he => ?_, fun e he e' he' id hid hid' => ?_, ?_,
    fun e he e' he' hparent heq => ?_⟩
  · exact (h.flows f (hflows ▸ hf)).trans_le hle
  · rcases hmem.mp he with he | rfl
    · exact (h.executions e he).trans_le hle
    · exact hlt
  · rcases hmem.mp he with he | rfl
    · exact (h.parents e he).trans_le hle
    · exact hbound hplaced
  · rcases hmem.mp he with he | rfl
    · exact (h.subflows e he id hid).trans_le hle
    · obtain ⟨below, hbelow⟩ := hsub id hid
      exact hbound hbelow.present
  · rcases hmem.mp he with he | rfl
    · exact h.leaves e he
    · intro hleaf
      rw [hleaf] at hflow
      exact Option.not_isSome_iff_eq_none.mp (by rw [← hflow]; decide)
  · rcases hmem.mp he with he | rfl
    · exact h.ordinary e he
    · exact hordinary
  · rw [hexecutions, List.map_append, List.nodup_append]
    refine ⟨h.executionIds, List.nodup_singleton _, fun a ha b hb heq => hfree ?_⟩
    rw [List.map_singleton, List.mem_singleton] at hb
    exact hb ▸ heq ▸ ha
  · rw [hflows]
    rcases hmem.mp he with he | rfl
    · exact h.placed e he
    · exact hplaced
  · rw [hflows]
    rcases hmem.mp he with he | rfl
    · exact h.present e he id hid
    · obtain ⟨below, hbelow⟩ := hsub id hid
      exact hbelow.present
  · rcases hmem.mp he with he | rfl
    · exact h.branches e he
    · exact fun htrue => hflow ▸ htrue
  · rcases hmem.mp he with he | rfl <;> rcases hmem.mp he' with he' | rfl
    · exact h.once e he e' he' id hid hid'
    · obtain ⟨below, hbelow⟩ := hsub id hid'
      exact absurd hid (hbelow.unused e he)
    · obtain ⟨below, hbelow⟩ := hsub id hid
      exact absurd hid' (hbelow.unused e' he')
    · rfl
  · cases hid : execution.flowId with
    | none =>
        obtain ⟨rank, hrank⟩ := h.ranked
        refine ⟨rank, fun e he x hx => ?_⟩
        rcases hmem.mp he with he | rfl
        · exact hrank e he x hx
        · rw [hid] at hx
          cases hx
    | some sub =>
        obtain ⟨below, hbelow⟩ := hsub sub hid
        obtain ⟨rank, hedge, hrank⟩ := hbelow.ranked h.ranked
        refine ⟨rank, fun e he x hx => ?_⟩
        rcases hmem.mp he with he | rfl
        · exact hrank e he x hx
        · rw [hid] at hx
          cases hx
          exact hedge
  · rcases hmem.mp he with he | rfl <;> rcases hmem.mp he' with he' | rfl
    · exact h.priorities e he e' he' hparent heq
    · exact absurd heq (hlast e he hparent).ne
    · exact absurd heq (hlast e' he' hparent.symm).ne'
    · rfl

/-- Executions that keep their places, with priorities that differ like those before. -/
theorem Forest.mapExecutions (h : Forest r) (f : AuthenticationExecution → AuthenticationExecution)
    (hf : ∀ e, (f e).id = e.id ∧ (f e).parentFlow = e.parentFlow ∧ (f e).flowId = e.flowId ∧
      (f e).authenticatorFlow = e.authenticatorFlow)
    (hordinary : ∀ e ∈ r.executions, Ordinary (f e))
    (hpriority : ∀ e ∈ r.executions, ∀ e' ∈ r.executions, e.parentFlow = e'.parentFlow →
      (f e).priority = (f e').priority → e.priority = e'.priority) :
    Forest { r with executions := r.executions.map f } := by
  have hid : ∀ e, (f e).id = e.id := fun e => (hf e).1
  have hparent : ∀ e, (f e).parentFlow = e.parentFlow := fun e => (hf e).2.1
  have hflow : ∀ e, (f e).flowId = e.flowId := fun e => (hf e).2.2.1
  have hbranch : ∀ e, (f e).authenticatorFlow = e.authenticatorFlow := fun e => (hf e).2.2.2
  obtain ⟨rank, hrank⟩ := h.ranked
  refine ⟨⟨h.flows, h.flowIds, ?_, ?_, ?_, ?_, ?_⟩, ?_, ?_, ?_, ?_, ?_, ⟨rank, ?_⟩, ?_⟩
  · simpa only [List.forall_mem_map, hid] using h.executions
  · simpa only [List.forall_mem_map, hparent] using h.parents
  · simpa only [List.forall_mem_map, hflow] using h.subflows
  · simpa only [List.forall_mem_map, hflow, hbranch] using h.leaves
  · simpa only [List.forall_mem_map] using hordinary
  · simpa only [List.map_map, Function.comp_def, hid] using h.executionIds
  · simpa only [List.forall_mem_map, hparent] using h.placed
  · simpa only [List.forall_mem_map, hflow] using h.present
  · simpa only [List.forall_mem_map, hflow, hbranch] using h.branches
  · simp only [List.forall_mem_map, hflow]
    exact fun e he e' he' id hid hid' => congrArg f (h.once e he e' he' id hid hid')
  · simpa only [List.forall_mem_map, hflow, hparent] using hrank
  · simp only [List.forall_mem_map, hparent]
    exact fun e he e' he' heq hsame =>
      congrArg f (h.priorities e he e' he' heq (hpriority e he e' he' heq hsame))

theorem Forest.eq_of_id (h : Forest r) {e e' : AuthenticationExecution} (he : e ∈ r.executions)
    (he' : e' ∈ r.executions) (hid : e.id = e'.id) : e = e' :=
  List.inj_on_of_nodup_map h.executionIds he he' hid

def exchanged (first second e : AuthenticationExecution) : AuthenticationExecution :=
  if e.id = first.id then { e with priority := second.priority }
  else if e.id = second.id then { e with priority := first.priority }
  else e

theorem exchange_executions (h : Forest r) {first second : AuthenticationExecution}
    (hfirst : first ∈ r.executions) (hsecond : second ∈ r.executions)
    (hne : first.id ≠ second.id) : exchange r first second =
      { r with executions := r.executions.map (exchanged first second) } := by
  rw [exchange, Realm.updateAuthenticatorExecution, Realm.updateAuthenticatorExecution]
  dsimp only
  rw [List.map_map]
  congr 1
  refine List.map_congr_left fun e he => ?_
  rw [Function.comp_apply, exchanged]
  by_cases hid : e.id = first.id
  · have heq := h.eq_of_id he hfirst hid
    subst heq
    rw [if_pos rfl, if_pos rfl, if_neg hne]
  · rw [if_neg hid, if_neg hid]
    by_cases hid' : e.id = second.id
    · have heq := h.eq_of_id he hsecond hid'
      subst heq
      rw [if_pos rfl]
    · rw [if_neg hid', if_neg hid']

theorem exchanged_frame (first second e : AuthenticationExecution) :
    (exchanged first second e).id = e.id ∧
      (exchanged first second e).parentFlow = e.parentFlow ∧
      (exchanged first second e).flowId = e.flowId ∧
      (exchanged first second e).authenticatorFlow = e.authenticatorFlow := by
  rw [exchanged]
  split
  · exact ⟨rfl, rfl, rfl, rfl⟩
  · split <;> exact ⟨rfl, rfl, rfl, rfl⟩

theorem Forest.exchange (h : Forest r) {first second : AuthenticationExecution}
    (hfirst : first ∈ r.executions) (hsecond : second ∈ r.executions)
    (hparent : first.parentFlow = second.parentFlow) (hne : first.id ≠ second.id) :
    Forest (exchange r first second) := by
  rw [exchange_executions h hfirst hsecond hne]
  refine h.mapExecutions _ (exchanged_frame first second) (fun e he => ?_)
    fun e he e' he' heq hsame => ?_
  · rw [exchanged]
    split
    · exact h.ordinary second hsecond
    · split
      · exact h.ordinary first hfirst
      · exact h.ordinary e he
  -- the priorities of a flow are permuted
  have hother : ∀ e ∈ r.executions, e.parentFlow = first.parentFlow → e.id ≠ first.id →
      e.id ≠ second.id → e.priority ≠ first.priority ∧ e.priority ≠ second.priority := by
    intro e he hflow hfst hsnd
    exact ⟨fun hp => hfst (congrArg (·.id) (h.priorities e he first hfirst hflow hp)),
      fun hp => hsnd (congrArg (·.id) (h.priorities e he second hsecond
        (hflow.trans hparent) hp))⟩
  have hofFirst : ∀ e ∈ r.executions, e.id = first.id → e = first :=
    fun e he => h.eq_of_id he hfirst
  have hofSecond : ∀ e ∈ r.executions, e.id = second.id → e = second :=
    fun e he => h.eq_of_id he hsecond
  rw [exchanged, exchanged] at hsame
  split at hsame
  · rename_i hid
    cases hofFirst e he hid
    split at hsame
    · rename_i hid'
      cases hofFirst e' he' hid'
      rfl
    · rename_i hid'
      split at hsame
      · rename_i hid₂
        cases hofSecond e' he' hid₂
        exact hsame.symm
      · rename_i hid₂
        exact absurd hsame.symm (hother e' he' heq.symm hid' hid₂).2
  · rename_i hid
    split at hsame
    · rename_i hid₂
      cases hofSecond e he hid₂
      split at hsame
      · rename_i hid'
        cases hofFirst e' he' hid'
        exact hsame.symm
      · rename_i hid'
        split at hsame
        · rename_i hid₃
          cases hofSecond e' he' hid₃
          rfl
        · rename_i hid₃
          exact absurd hsame.symm (hother e' he' (heq.symm.trans hparent.symm) hid' hid₃).1
    · rename_i hid₂
      split at hsame
      · rename_i hid'
        cases hofFirst e' he' hid'
        exact absurd hsame (hother e he heq hid hid₂).2
      · split at hsame
        · rename_i hid₃
          cases hofSecond e' he' hid₃
          exact absurd hsame (hother e he (heq.trans hparent.symm) hid hid₂).1
        · exact hsame

theorem Forest.remove (h : Forest r) (gone : Nat → Bool)
    (dropped : AuthenticationExecution → Bool)
    (hflows : r'.flows = r.flows.filter fun f => ¬ gone f.id)
    (hexecutions : r'.executions = r.executions.filter fun e =>
      ¬ gone e.parentFlow ∧ ¬ dropped e)
    (hnext : r'.nextId = r.nextId)
    (hkeep : ∀ e ∈ r.executions, gone e.parentFlow = false → dropped e = false →
      ∀ id ∈ e.flowId, gone id = false) : Forest r' := by
  have hmem : ∀ {e}, e ∈ r'.executions →
      e ∈ r.executions ∧ gone e.parentFlow = false ∧ dropped e = false := by
    intro e he
    rw [hexecutions, List.mem_filter] at he
    simpa using he
  have hflow : ∀ {f}, f ∈ r'.flows → f ∈ r.flows := by
    intro f hf
    rw [hflows] at hf
    exact List.mem_of_mem_filter hf
  have hthere : ∀ {n}, n ∈ r.flows.map (·.id) → gone n = false → n ∈ r'.flows.map (·.id) := by
    intro n hn hgone
    obtain ⟨f, hf, rfl⟩ := List.mem_map.mp hn
    rw [hflows]
    exact List.mem_map_of_mem (List.mem_filter.mpr ⟨hf, by simpa using hgone⟩)
  obtain ⟨rank, hrank⟩ := h.ranked
  refine ⟨⟨fun f hf => hnext ▸ h.flows f (hflow hf), ?_, fun e he => ?_, fun e he => ?_,
    fun e he => ?_, fun e he => h.leaves e (hmem he).1, fun e he => h.ordinary e (hmem he).1⟩, ?_,
    fun e he => ?_, fun e he id hid => ?_,
    fun e he => h.branches e (hmem he).1, fun e he e' he' => h.once e (hmem he).1 e' (hmem he').1,
    ⟨rank, fun e he => hrank e (hmem he).1⟩,
    fun e he e' he' => h.priorities e (hmem he).1 e' (hmem he').1⟩
  · rw [hflows]
    exact h.flowIds.sublist (List.filter_sublist.map _)
  · rw [hnext]
    exact h.executions e (hmem he).1
  · rw [hnext]
    exact h.parents e (hmem he).1
  · rw [hnext]
    exact h.subflows e (hmem he).1
  · rw [hexecutions]
    exact h.executionIds.sublist (List.filter_sublist.map _)
  · exact hthere (h.placed e (hmem he).1) (hmem he).2.1
  · obtain ⟨hin, hgone, hdropped⟩ := hmem he
    exact hthere (h.present e hin id hid) (hkeep e hin hgone hdropped id hid)

/-! ## Deleting a flow -/

structure Deleted (r r' : Realm) (ids : List Nat) : Prop where
  flows : r'.flows = r.flows.filter fun f => f.id ∉ ids
  executions : r'.executions = r.executions.filter fun e => e.parentFlow ∉ ids
  nextId : r'.nextId = r.nextId
  closed : ∀ e ∈ r.executions, e.parentFlow ∈ ids → ∀ id ∈ e.flowId, id ∈ ids

theorem Deleted.trans {ids ids' : List Nat} (h : Deleted r r' ids) (h' : Deleted r' r'' ids') :
    Deleted r r'' (ids ++ ids') where
  flows := by
    rw [h'.flows, h.flows, List.filter_filter]
    refine List.filter_congr fun f _ => ?_
    simp [not_or, Bool.and_comm]
  executions := by
    rw [h'.executions, h.executions, List.filter_filter]
    refine List.filter_congr fun f _ => ?_
    simp [not_or, Bool.and_comm]
  nextId := h'.nextId.trans h.nextId
  closed e he hparent id hid := by
    rcases Decidable.em (e.parentFlow ∈ ids) with hin | hout
    · exact List.mem_append_left _ (h.closed e he hin id hid)
    · have hin' := (List.mem_append.mp hparent).resolve_left hout
      have he' : e ∈ r'.executions := by
        rw [h.executions, List.mem_filter]
        exact ⟨he, by simpa using hout⟩
      exact List.mem_append_right _ (h'.closed e he' hin' id hid)

def Hanging (r : Realm) (id : Nat) (ids : List Nat) : Prop :=
  ∀ x ∈ ids, x = id ∨ ∃ e ∈ r.executions, e.parentFlow ∈ ids ∧ x ∈ e.flowId

theorem deleteSubflows_deleted {delete : Realm → Nat → Except Failure Realm}
    (hdelete : ∀ {r r' id}, delete r id = .ok r' →
      ∃ ids, Deleted r r' ids ∧ id ∈ ids ∧ Hanging r id ids)
    (h : deleteSubflows delete r executions = .ok r') : ∃ ids, Deleted r r' ids ∧
      (∀ e ∈ executions, ∀ id ∈ e.flowId, id ∈ ids) ∧
      ∀ x ∈ ids, (∃ e ∈ executions, x ∈ e.flowId) ∨
        ∃ e ∈ r.executions, e.parentFlow ∈ ids ∧ x ∈ e.flowId := by
  induction executions generalizing r with
  | nil =>
      cases h
      exact ⟨[], ⟨by simp, by simp, rfl, fun _ _ hmem => absurd hmem List.not_mem_nil⟩,
        fun _ he => absurd he List.not_mem_nil, fun _ hx => absurd hx List.not_mem_nil⟩
  | cons execution rest ih =>
      rw [deleteSubflows] at h
      split at h
      · rename_i hnone
        obtain ⟨ids, hdeleted, hall, hhanging⟩ := ih h
        refine ⟨ids, hdeleted, List.forall_mem_cons.mpr ⟨?_, hall⟩, fun x hx => ?_⟩
        · rw [hnone]
          exact fun _ => nofun
        · rcases hhanging x hx with ⟨e, he, hid⟩ | hbelow
          · exact .inl ⟨e, List.mem_cons_of_mem _ he, hid⟩
          · exact .inr hbelow
      · rename_i flowId hsome
        obtain ⟨r₁, hr₁, hrest⟩ := Except.bind_eq_ok.mp h
        obtain ⟨ids, hdeleted, hin, hhanging⟩ := hdelete hr₁
        obtain ⟨ids', hdeleted', hall', hhanging'⟩ := ih hrest
        refine ⟨ids ++ ids', hdeleted.trans hdeleted', List.forall_mem_cons.mpr ⟨?_, ?_⟩,
          fun x hx => ?_⟩
        · intro id hid
          rw [hsome] at hid
          cases hid
          exact List.mem_append_left _ hin
        · exact fun e he id hid => List.mem_append_right _ (hall' e he id hid)
        · rcases List.mem_append.mp hx with hx | hx
          · rcases hhanging x hx with rfl | ⟨e, he, hparent, hid⟩
            · exact .inl ⟨execution, List.mem_cons_self .., hsome⟩
            · exact .inr ⟨e, he, List.mem_append_left _ hparent, hid⟩
          · rcases hhanging' x hx with ⟨e, he, hid⟩ | ⟨e, he, hparent, hid⟩
            · exact .inl ⟨e, List.mem_cons_of_mem _ he, hid⟩
            · rw [hdeleted.executions] at he
              exact .inr ⟨e, List.mem_of_mem_filter he, List.mem_append_right _ hparent, hid⟩

theorem deleteFlow_deleted (h : deleteFlow depth r id = .ok r') :
    ∃ ids, Deleted r r' ids ∧ id ∈ ids ∧ Hanging r id ids := by
  induction depth generalizing r r' id with
  | zero => cases h
  | succ depth ih =>
      rw [deleteFlow] at h
      split at h
      · cases h
      · split at h
        · cases h
        · obtain ⟨r₁, hr₁, hremove⟩ := Except.bind_eq_ok.mp h
          obtain ⟨ids, hdeleted, hall, hhanging⟩ := deleteSubflows_deleted ih hr₁
          rw [Realm.removeAuthenticationFlow] at hremove
          split at hremove
          · cases hremove
          · cases hremove
            have hmem : ∀ {x}, x ∈ ids ++ [id] ↔ x ∈ ids ∨ x = id := by
              intro x
              rw [List.mem_append, List.mem_singleton]
            refine ⟨ids ++ [id], ⟨?_, ?_, hdeleted.nextId, fun e he hparent x hx => ?_⟩,
              hmem.mpr (.inr rfl), fun x hx => ?_⟩
            · dsimp only
              rw [hdeleted.flows, List.filter_filter]
              refine List.filter_congr fun f _ => ?_
              simp [hmem, not_or, Bool.and_comm]
            · dsimp only
              rw [hdeleted.executions, List.filter_filter]
              refine List.filter_congr fun e _ => ?_
              simp [hmem, not_or, Bool.and_comm]
            · refine hmem.mpr (.inl ?_)
              rcases hmem.mp hparent with hin | heq
              · exact hdeleted.closed e he hin x hx
              · exact hall e (mem_getAuthenticationExecutions.mpr ⟨he, heq⟩) x hx
            · rcases hmem.mp hx with hin | rfl
              · refine .inr ?_
                rcases hhanging x hin with ⟨e, he, hid⟩ | ⟨e, he, hparent, hid⟩
                · obtain ⟨hthere, heq⟩ := mem_getAuthenticationExecutions.mp he
                  exact ⟨e, hthere, hmem.mpr (.inr heq), hid⟩
                · exact ⟨e, he, hmem.mpr (.inl hparent), hid⟩
              · exact .inl rfl

theorem Forest.deleteFlow (h : Forest r) (hroot : ∀ e ∈ r.executions, e.flowId ≠ some id)
    (hdelete : deleteFlow depth r id = .ok r') : Forest r' := by
  obtain ⟨ids, hdeleted, -, hhanging⟩ := deleteFlow_deleted hdelete
  refine h.remove (fun x => x ∈ ids) (fun _ => false) ?_ ?_ hdeleted.nextId
    fun e he hparent _ x hx => decide_eq_false fun hin => ?_
  · rw [hdeleted.flows]
    simp
  · rw [hdeleted.executions]
    simp
  · rcases hhanging x hin with rfl | ⟨e', he', hparent', hx'⟩
    · exact hroot e he hx
    · exact of_decide_eq_false hparent (h.once e he e' he' x hx hx' ▸ hparent')

/-! ## Copies keep a forest -/

def HasRoom (r : Realm) (flowId : Nat) : Prop :=
  ∀ e ∈ r.executions, e.parentFlow = flowId → e.priority ≠ maxValue

theorem Forest.getNextPriority (h : ∀ e ∈ r.executions, Ordinary e) {parentFlow : AuthenticationFlow}
    (hroom : HasRoom r parentFlow.id) :
    (0 ≤ getNextPriority r parentFlow ∧ getNextPriority r parentFlow ≤ maxValue) ∧
      ∀ e ∈ r.executions, e.parentFlow = parentFlow.id →
        e.priority < getNextPriority r parentFlow := by
  have hmem : ∀ e, e ∈ r.getAuthenticationExecutions parentFlow.id ↔
      e ∈ r.executions ∧ e.parentFlow = parentFlow.id := fun _ => mem_getAuthenticationExecutions
  have hsorted := getAuthenticationExecutions_sorted h parentFlow.id
  rw [FlowManagement.getNextPriority]
  cases hlast : (r.getAuthenticationExecutions parentFlow.id).getLast? with
  | none =>
      rw [List.getLast?_eq_none_iff] at hlast
      refine ⟨by decide, fun e he hparent => ?_⟩
      have hin := (hmem e).mpr ⟨he, hparent⟩
      rw [hlast] at hin
      cases hin
  | some last =>
      dsimp only
      obtain ⟨front, hfront⟩ := List.getLast?_eq_some_iff.mp hlast
      obtain ⟨hin, hparent⟩ := (hmem last).mp (by simp [hfront])
      obtain ⟨hlow, hhigh⟩ := h last hin
      have hlt : last.priority + 1 ≤ maxValue := by
        have := hroom last hin hparent
        omega
      rw [wrap_eq ⟨by unfold minValue; omega, hlt⟩]
      refine ⟨⟨by omega, hlt⟩, fun e he hparent => ?_⟩
      have hin := (hmem e).mpr ⟨he, hparent⟩
      rw [hfront] at hin hsorted
      rcases List.mem_append.mp hin with hin | hin
      · have hle : e.priority ≤ last.priority :=
          (List.pairwise_append.mp hsorted).2.2 e hin last (List.mem_singleton_self _)
        omega
      · rw [List.mem_singleton.mp hin]
        omega

theorem getAuthenticationFlowById_mem (h : r.getAuthenticationFlowById id = some flow) :
    id ∈ r.flows.map (·.id) :=
  getAuthenticationFlowById_id h ▸ List.mem_map_of_mem (List.mem_of_find?_eq_some h)

theorem fresh_not_mem {ids : List Nat} {n : Nat} (h : ∀ x ∈ ids, x < n) : n ∉ ids :=
  fun hmem => Nat.lt_irrefl n (h n hmem)

theorem Forest.addAuthenticationFlow (h : Forest r) (model : AuthenticationFlow) :
    Forest (r.addAuthenticationFlow model).2 := by
  have hfree : r.nextId ∉ r.flows.map (·.id) := by
    refine fresh_not_mem ?_
    rw [List.forall_mem_map]
    exact h.flows
  exact h.addFlow rfl rfl hfree (Nat.le_succ _) (Nat.lt_succ_self _)

theorem Forest.executionIds_fresh (h : Forest r) : r.nextId ∉ r.executions.map (·.id) := by
  refine fresh_not_mem ?_
  rw [List.forall_mem_map]
  exact h.executions

theorem Forest.addAuthenticatorExecution (h : Forest r)
    (hplaced : execution.parentFlow ∈ r.flows.map (·.id))
    (hlast : ∀ e ∈ r.executions, e.parentFlow = execution.parentFlow →
      e.priority < execution.priority)
    (hordinary : Ordinary execution)
    (hflow : execution.authenticatorFlow = execution.flowId.isSome)
    (hsub : ∀ id ∈ execution.flowId, ∃ below, Free r execution.parentFlow id below) :
    Forest (r.addAuthenticatorExecution execution) := by
  have hexecutions : (r.addAuthenticatorExecution execution).executions =
      r.executions ++ [{ execution with id := r.nextId }] := rfl
  exact h.addExecution rfl hexecutions h.executionIds_fresh (Nat.le_succ _) (Nat.lt_succ_self _)
    hplaced hlast hordinary hflow hsub

theorem Forest.sorted (h : Forest r) (id : Nat) : (r.getAuthenticationExecutions id).Pairwise
    fun o₁ o₂ => o₁.priority < o₂.priority := by
  have hnodup : (r.getAuthenticationExecutions id).Nodup :=
    (List.perm_insertionSort NotLater _).nodup_iff.mpr
      ((List.Nodup.of_map _ h.executionIds).sublist List.filter_sublist)
  refine ((getAuthenticationExecutions_sorted h.ordinary id).and hnodup).imp_of_mem
    fun ha hb hab => lt_of_le_of_ne hab.1 fun heq => hab.2 ?_
  obtain ⟨ha, hpa⟩ := mem_getAuthenticationExecutions.mp ha
  obtain ⟨hb, hpb⟩ := mem_getAuthenticationExecutions.mp hb
  exact h.priorities _ ha _ hb (hpa.trans hpb.symm) heq

def CopyKeeps (newName : String) (bound depth : Nat) : Prop :=
  ∀ r (source target : AuthenticationFlow) r', Forest r → Original r bound → source.id < bound →
    bound ≤ target.id → target.id ∈ r.flows.map (·.id) →
    (∀ e ∈ r.executions, e.parentFlow ≠ target.id) →
    copy newName depth r source target = .ok r' → Forest r' ∧ Grown r r' target.id

theorem copyExecutions_forest {bound : Nat} (hcopy : CopyKeeps newName bound depth)
    (hforest : Forest r) (horiginal : Original r bound) (hparent : bound ≤ target.id)
    (htarget : target.id ∈ r.flows.map (·.id))
    (hmem : ∀ e ∈ executions, e ∈ r.executions ∧ e.parentFlow < bound)
    (hsorted : executions.Pairwise fun o₁ o₂ => o₁.priority < o₂.priority)
    (hlast : ∀ e ∈ r.executions, e.parentFlow = target.id → ∀ e' ∈ executions,
      e.priority < e'.priority)
    (h : copyExecutions newName (copy newName depth) target r executions = .ok r') :
    Forest r' ∧ Grown r r' target.id := by
  induction executions generalizing r with
  | nil =>
      cases h
      exact ⟨hforest, .refl hforest.toNumbered⟩
  | cons execution rest ih =>
      obtain ⟨hin, hbound⟩ := hmem execution (List.mem_cons_self ..)
      obtain ⟨hfirst, hsorted⟩ := List.pairwise_cons.mp hsorted
      have hlt : target.id < r.nextId := by
        obtain ⟨f, hf, heq⟩ := List.mem_map.mp htarget
        exact heq ▸ hforest.flows f hf
      -- the loop goes on after an execution has been added to the target
      have hnext : ∀ {r₁ : Realm} {added : AuthenticationExecution},
          copyExecutions newName (copy newName depth) target
            (r₁.addAuthenticatorExecution added) rest = .ok r' →
          Forest (r₁.addAuthenticatorExecution added) →
          Grown r (r₁.addAuthenticatorExecution added) target.id →
          r₁.executions.filter (·.parentFlow = target.id) =
            r.executions.filter (·.parentFlow = target.id) →
          added.priority = execution.priority → target.id ∈ r₁.flows.map (·.id) →
          Forest r' ∧ Grown r r' target.id := by
        intro r₁ added hrest hadded hgrown hsame hpriority hthere
        obtain ⟨rows, hrows, -⟩ := hgrown.executions
        have hlast' : ∀ e ∈ (r₁.addAuthenticatorExecution added).executions,
            e.parentFlow = target.id → ∀ e' ∈ rest, e.priority < e'.priority := by
          intro e he heq e' he'
          rcases List.mem_append.mp he with he | he
          · have hold : e ∈ r₁.executions.filter (·.parentFlow = target.id) :=
              List.mem_filter.mpr ⟨he, decide_eq_true heq⟩
            rw [hsame] at hold
            exact hlast e (List.mem_of_mem_filter hold) heq e' (List.mem_cons_of_mem _ he')
          · rw [List.mem_singleton.mp he]
            exact hpriority ▸ hfirst e' he'
        have hmem' : ∀ e ∈ rest, e ∈ (r₁.addAuthenticatorExecution added).executions ∧
            e.parentFlow < bound := by
          intro e he
          rw [hrows]
          exact ⟨List.mem_append_left _ (hmem e (List.mem_cons_of_mem _ he)).1,
            (hmem e (List.mem_cons_of_mem _ he)).2⟩
        obtain ⟨hforest', hgrown'⟩ := ih hadded (horiginal.grown hgrown hparent) hthere hmem'
          hsorted hlast' hrest
        exact ⟨hforest', hgrown.trans hgrown' (.inl rfl)⟩
      rw [copyExecutions] at h
      split at h
      · rename_i hflow
        split at h
        · cases h
        · rename_i flowRef hflowRef
          obtain ⟨r₂, hr₂, hrest⟩ := Except.bind_eq_ok.mp h
          obtain ⟨flowId, hflowId, hget⟩ := Option.bind_eq_some_iff.mp hflowRef
          have hflowBound : flowRef.id < bound := by
            rw [getAuthenticationFlowById_id hget]
            exact horiginal.closed execution hin hbound flowId hflowId
          have hgrown₁ : Grown r (r.addAuthenticationFlow
              { flowRef with
                flowAlias := newName ++ " " ++ flowRef.flowAlias, builtIn := false,
                topLevel := false }).2 target.id := .addAuthenticationFlow horiginal.numbered _
          obtain ⟨hforest₂, hgrown⟩ := hcopy _ _ _ _ (hforest.addAuthenticationFlow _)
            (horiginal.grown hgrown₁ hparent) hflowBound horiginal.le
            (by simp [Realm.addAuthenticationFlow])
            (fun e he => (hforest.parents e he).ne) hr₂
          have hgrown₂ : Grown r r₂ target.id := hgrown₁.trans hgrown (.inr le_rfl)
          have hadded : r.nextId < r₂.nextId := (Nat.lt_succ_self _).trans_le hgrown.nextId
          have hsame := hgrown.filter_executions (Nat.lt_succ_of_lt hlt) hlt.ne
          have hthere : ∀ {x}, x ∈ (r.flows.map (·.id) ++ [r.nextId]) →
              x ∈ r₂.flows.map (·.id) := by
            intro x hx
            obtain ⟨rows, hrows, -⟩ := hgrown.flows
            rw [hrows, List.map_append, Realm.addAuthenticationFlow, List.map_append]
            exact List.mem_append_left _ hx
          have hfree : Free r₂ target.id r.nextId fun x => r.nextId ≤ x ∧ x < r₂.nextId := by
            refine ⟨hthere (List.mem_append_right _ (List.mem_singleton_self _)),
              fun e he hid => ?_, hgrown₂.closed horiginal.numbered, ⟨le_rfl, hadded⟩,
              fun h => absurd h.1 (Nat.not_le.mpr hlt)⟩
            obtain ⟨rows, hrows, hnew⟩ := hgrown.executions
            rw [hrows] at he
            rcases List.mem_append.mp he with he | he
            · exact absurd (hforest.subflows e he _ hid) (Nat.lt_irrefl _)
            · exact absurd ((hnew e he).2.2 _ hid) (Nat.not_succ_le_self _)
          have hthere' := hthere (List.mem_append_left _ htarget)
          have hordinary := hforest.ordinary execution hin
          refine hnext hrest (hforest₂.addAuthenticatorExecution hthere' (fun e he heq => ?_)
            hordinary hflow fun id hid => ?_)
            (hgrown₂.addAuthenticatorExecution rfl (hlt.trans_le hgrown₂.nextId)
              (fun id hid => ?_) (fun hleaf => ?_) hordinary) hsame rfl hthere'
          · have hold : e ∈ r₂.executions.filter (·.parentFlow = target.id) :=
              List.mem_filter.mpr ⟨he, decide_eq_true heq⟩
            rw [hsame] at hold
            exact hlast e (List.mem_of_mem_filter hold) heq execution (List.mem_cons_self ..)
          · cases hid
            exact ⟨_, hfree⟩
          · cases hid
            exact ⟨le_rfl, hadded⟩
          · rw [hflow] at hleaf
            cases hleaf
      · rename_i hflow
        have hleaf := hforest.leaves execution hin (Bool.eq_false_of_not_eq_true hflow)
        have hnone : ∀ id, execution.flowId ≠ some id := fun id hid => by
          rw [hleaf] at hid
          cases hid
        have hbranch : execution.authenticatorFlow = execution.flowId.isSome := by
          rw [Bool.eq_false_of_not_eq_true hflow, hleaf]
          rfl
        exact hnext h (hforest.addAuthenticatorExecution htarget
            (fun e he heq => hlast e he heq execution (List.mem_cons_self ..))
            (hforest.ordinary execution hin) hbranch fun id hid => (hnone id hid).elim)
          ((Grown.refl horiginal.numbered).addAuthenticatorExecution rfl hlt
            (fun id hid => (hnone id hid).elim) (fun _ => hleaf)
            (hforest.ordinary execution hin)) rfl rfl htarget

theorem copy_keeps (newName : String) (bound depth : Nat) : CopyKeeps newName bound depth := by
  induction depth with
  | zero =>
      intro r source target r' _ _ _ _ _ _ h
      cases h
  | succ depth ih =>
      intro r source target r' hforest horiginal hsource hparent htarget hempty h
      refine copyExecutions_forest ih hforest horiginal hparent htarget (fun e he => ?_)
        (hforest.sorted source.id) (fun e he heq => absurd heq (hempty e he)) h
      obtain ⟨hin, heq⟩ := mem_getAuthenticationExecutions.mp he
      exact ⟨hin, heq ▸ hsource⟩

theorem Forest.copyFlow (h : Forest r) (hflow : flow ∈ r.flows)
    (hcopy : copyFlow depth r flow newName = .ok (target, r')) : Forest r' := by
  have horiginal : Original r r.nextId := ⟨h.toNumbered, le_rfl, fun e he _ => h.subflows e he⟩
  obtain ⟨copied, hr', heq⟩ := Except.bind_eq_ok.mp hcopy
  cases heq
  have hgrown : Grown r (r.addAuthenticationFlow
      { flow with flowAlias := newName, builtIn := false }).2 r.nextId :=
    .addAuthenticationFlow h.toNumbered _
  exact (copy_keeps newName r.nextId depth _ _ _ _ (h.addAuthenticationFlow _)
    (horiginal.grown hgrown le_rfl) (h.flows flow hflow) le_rfl
    (by simp [Realm.addAuthenticationFlow]) (fun e he => (h.parents e he).ne) hr').1

/-! ## Requests keep a forest -/

theorem getFlowByAlias_mem {flowAlias : String} (h : r.getFlowByAlias flowAlias = some flow) :
    flow ∈ r.flows :=
  List.mem_of_find?_eq_some h

theorem Forest.createFlow (h : Forest r) {rep : FlowRepresentation}
    (hcreate : createFlow r rep = .ok r') : Forest r' := by
  rw [FlowManagement.createFlow] at hcreate
  split at hcreate
  · cases hcreate
  · split at hcreate
    · cases hcreate
    · split at hcreate
      · cases hcreate
      · unfold persistFlow at hcreate
        split at hcreate
        · cases hcreate
          exact h.addAuthenticationFlow _
        · split at hcreate
          · cases hcreate
          · rename_i hfree
            cases hcreate
            exact h.addFlow rfl rfl hfree (Nat.le_max_left _ _)
              ((Nat.lt_succ_self _).trans_le (Nat.le_max_right _ _))

theorem Forest.updateFlow (h : Forest r) {rep : FlowRepresentation}
    (hupdate : updateFlow r id rep = .ok r') : Forest r' := by
  rw [FlowManagement.updateFlow] at hupdate
  split at hupdate
  · cases hupdate
  · split at hupdate
    · cases hupdate
    · split at hupdate
      · cases hupdate
      · cases hupdate
        refine h.of_ids rfl ?_ rfl
        rw [Realm.updateAuthenticationFlow, List.map_map]
        refine List.map_congr_left fun f _ => ?_
        rw [Function.comp_apply]
        split
        · rename_i heq
          exact heq.symm
        · rfl

theorem Forest.addExecutionFlow (h : Forest r) {flowAlias newAlias : String}
    {type provider description : Option String}
    (hroom : ∀ flow, r.getFlowByAlias flowAlias = some flow → HasRoom r flow.id)
    (hadd : addExecutionFlow r flowAlias newAlias type provider description = .ok r') :
    Forest r' := by
  rw [FlowManagement.addExecutionFlow] at hadd
  split at hadd
  · cases hadd
  · rename_i parentFlow hparent
    have hin := getFlowByAlias_mem hparent
    split at hadd
    · cases hadd
    · cases hadd
      have hforest := h.addAuthenticationFlow ⟨0, newAlias, description, type, false, false⟩
      obtain ⟨hordinary, hlast⟩ := Forest.getNextPriority hforest.ordinary (hroom parentFlow hparent)
      refine hforest.addAuthenticatorExecution ?_ hlast hordinary rfl fun id hid => ?_
      · rw [Realm.addAuthenticationFlow, List.map_append]
        exact List.mem_append_left _ (List.mem_map_of_mem hin)
      · -- the new flow has no executions
        cases hid
        refine ⟨(· = r.nextId), ⟨by simp [Realm.addAuthenticationFlow], fun e he hid => ?_,
          fun e he heq => absurd heq (h.parents e he).ne, rfl, (h.flows parentFlow hin).ne⟩⟩
        exact absurd (h.subflows e he _ hid) (Nat.lt_irrefl _)

theorem Forest.addExecutionToFlow (h : Forest r) {flowAlias : String} {provider : Option String}
    (hroom : ∀ flow, r.getFlowByAlias flowAlias = some flow → HasRoom r flow.id)
    (hadd : addExecutionToFlow session r flowAlias provider = .ok r') : Forest r' := by
  rw [FlowManagement.addExecutionToFlow] at hadd
  split at hadd
  · cases hadd
  · rename_i parentFlow hparent
    split at hadd
    · cases hadd
    · split at hadd
      · cases hadd
      · split at hadd
        · cases hadd
          obtain ⟨hordinary, hlast⟩ := Forest.getNextPriority h.ordinary (hroom parentFlow hparent)
          exact h.addAuthenticatorExecution (List.mem_map_of_mem (getFlowByAlias_mem hparent))
            hlast hordinary rfl fun _ => nofun
        · cases hadd

theorem Forest.addExecutionRequest (h : Forest r) {given : Option Nat}
    {model : AuthenticationExecution} (hflowId : model.flowId = none)
    (hbranch : model.authenticatorFlow = false) (hroom : HasRoom r model.parentFlow)
    (hadd : FlowManagement.addExecution r given model = .ok r') : Forest r' := by
  unfold FlowManagement.addExecution at hadd
  split at hadd
  · cases hadd
  · rename_i parentFlow hparent
    have hplaced := getAuthenticationFlowById_mem hparent
    rw [← getAuthenticationFlowById_id hparent] at hroom
    obtain ⟨hordinary, hlast⟩ := Forest.getNextPriority h.ordinary hroom
    rw [getAuthenticationFlowById_id hparent] at hlast
    have hflow : model.authenticatorFlow = model.flowId.isSome := by
      rw [hbranch, hflowId]
      rfl
    have hsub : ∀ id, model.flowId ≠ some id := fun id hid => by
      rw [hflowId] at hid
      cases hid
    split at hadd
    · cases hadd
    · split at hadd
      · cases hadd
        exact h.addAuthenticatorExecution hplaced hlast hordinary hflow
          fun id hid => (hsub id hid).elim
      · rename_i id
        split at hadd
        · cases hadd
        · rename_i hfree
          cases hadd
          exact h.addExecution rfl rfl hfree (Nat.le_max_left _ _)
            ((Nat.lt_succ_self _).trans_le (Nat.le_max_right _ _)) hplaced hlast hordinary hflow
            fun id hid => (hsub id hid).elim

theorem getAuthenticationExecutionById_mem (h : r.getAuthenticationExecutionById id =
    some execution) : execution ∈ r.executions :=
  List.mem_of_find?_eq_some h

theorem Forest.updateExecutions (h : Forest r) {flowAlias : String} {requirement : Requirement}
    (hupdate : updateExecutions r flowAlias id requirement = .ok r') : Forest r' := by
  rw [FlowManagement.updateExecutions] at hupdate
  split at hupdate
  · cases hupdate
  · split at hupdate
    · cases hupdate
    · rename_i model hmodel
      have hin := getAuthenticationExecutionById_mem hmodel
      split at hupdate
      · cases hupdate
        exact h
      · cases hupdate
        -- the row is the one that was read, but for the requirement
        have heq : r.updateAuthenticatorExecution { model with requirement } =
            { r with executions := r.executions.map fun e =>
                if e.id = model.id then { e with requirement } else e } := by
          rw [Realm.updateAuthenticatorExecution]
          congr 1
          refine List.map_congr_left fun e he => ?_
          by_cases hid : e.id = model.id
          · rw [if_pos hid, if_pos hid, h.eq_of_id he hin hid]
          · rw [if_neg hid, if_neg hid]
        rw [heq]
        refine h.mapExecutions _ (fun e => ?_) (fun e he => ?_) fun e _ e' _ _ hsame => ?_
        · split <;> exact ⟨rfl, rfl, rfl, rfl⟩
        · split <;> exact h.ordinary e he
        · split at hsame <;> split at hsame <;> exact hsame

theorem withParent_ok {refusal : String} {act : AuthenticationExecution → AuthenticationFlow →
      Except Failure Realm} (h : withParent r id refusal act = .ok r') :
    ∃ model parentFlow, r.getAuthenticationExecutionById id = some model ∧
      r.getAuthenticationFlowById model.parentFlow = some parentFlow ∧
      parentFlow.builtIn = false ∧ act model parentFlow = .ok r' := by
  rw [withParent] at h
  split at h
  · cases h
  · rename_i model hmodel
    split at h
    · cases h
    · rename_i parentFlow hparent
      split at h
      · cases h
      · rename_i hbuiltIn
        exact ⟨model, parentFlow, hmodel, hparent, Bool.eq_false_of_not_eq_true hbuiltIn, h⟩

theorem previousOf_spec {previous : Option AuthenticationExecution}
    {found : AuthenticationExecution} (h : previousOf id previous executions = some found)
    (hmem : ∃ e ∈ executions, e.id = id) : previous = some found ∧
        (∃ e post, executions = e :: post ∧ e.id = id) ∨
      ∃ pre e post, executions = pre ++ found :: e :: post ∧ e.id = id ∧
        ∀ e ∈ pre ++ [found], e.id ≠ id := by
  induction executions generalizing previous with
  | nil =>
      obtain ⟨e, he, -⟩ := hmem
      cases he
  | cons exe rest ih =>
      rw [previousOf] at h
      split at h
      · rename_i hid
        exact .inl ⟨h, exe, rest, rfl, hid⟩
      · rename_i hid
        have hrest : ∃ e ∈ rest, e.id = id := by
          obtain ⟨e, he, heq⟩ := hmem
          rcases List.mem_cons.mp he with rfl | he
          · exact absurd heq hid
          · exact ⟨e, he, heq⟩
        rcases ih h hrest with ⟨hsome, e, post, rfl, heq⟩ | ⟨pre, e, post, rfl, heq, hne⟩
        · cases hsome
          refine .inr ⟨[], e, post, rfl, heq, ?_⟩
          simpa using hid
        · refine .inr ⟨exe :: pre, e, post, rfl, heq, ?_⟩
          simpa using ⟨hid, by simpa using hne⟩

theorem nextOf_spec {found : AuthenticationExecution} (h : nextOf id executions = some found) :
    ∃ pre e post, executions = pre ++ e :: found :: post ∧ e.id = id ∧ ∀ e ∈ pre, e.id ≠ id := by
  induction executions with
  | nil => cases h
  | cons exe rest ih =>
      rw [nextOf] at h
      split at h
      · rename_i hid
        obtain ⟨post, rfl⟩ := List.head?_eq_some_iff.mp h
        exact ⟨[], exe, post, rfl, hid, fun _ he => absurd he List.not_mem_nil⟩
      · rename_i hid
        obtain ⟨pre, e, post, rfl, heq, hne⟩ := ih h
        exact ⟨exe :: pre, e, post, rfl, heq, List.forall_mem_cons.mpr ⟨hid, hne⟩⟩

theorem Forest.getExecution (h : Forest r) (he : execution ∈ r.executions) :
    r.getAuthenticationExecutionById execution.id = some execution := by
  cases hfind : r.getAuthenticationExecutionById execution.id with
  | none =>
      have hne := List.find?_eq_none.mp hfind execution he
      simp at hne
  | some other =>
      have hid : other.id = execution.id := by
        rw [Realm.getAuthenticationExecutionById] at hfind
        simpa using List.find?_some hfind
      rw [h.eq_of_id (getAuthenticationExecutionById_mem hfind) he hid]

theorem getAuthenticationExecutionById_id (h : r.getAuthenticationExecutionById id =
    some execution) : execution.id = id := by
  rw [Realm.getAuthenticationExecutionById] at h
  simpa using List.find?_some h

def Neighbours (r : Realm) (flowId : Nat) (first second : AuthenticationExecution)
    (pre post : List AuthenticationExecution) : Prop :=
  r.getAuthenticationExecutions flowId = pre ++ first :: second :: post

variable {flowId : Nat} {first second : AuthenticationExecution}
  {pre post : List AuthenticationExecution}

theorem Neighbours.mem (h : Neighbours r flowId first second pre post) :
    (first ∈ r.executions ∧ first.parentFlow = flowId) ∧
      second ∈ r.executions ∧ second.parentFlow = flowId := by
  rw [Neighbours] at h
  exact ⟨mem_getAuthenticationExecutions.mp (by simp [h]),
    mem_getAuthenticationExecutions.mp (by simp [h])⟩

theorem Neighbours.ids_nodup (h : Neighbours r flowId first second pre post) (hforest : Forest r) :
    ((pre ++ first :: second :: post).map (·.id)).Nodup := by
  rw [Neighbours] at h
  rw [← h]
  have hperm := (List.perm_insertionSort NotLater
    (r.executions.filter (·.parentFlow = flowId))).map (·.id)
  exact hperm.nodup_iff.mpr (hforest.executionIds.sublist (List.filter_sublist.map _))

theorem Neighbours.ne (h : Neighbours r flowId first second pre post) (hforest : Forest r) :
    first.id ≠ second.id := by
  have hnodup := h.ids_nodup hforest
  simp only [List.map_append, List.map_cons, List.nodup_append, List.nodup_cons,
    List.mem_cons, not_or] at hnodup
  exact hnodup.2.1.1.1

/-- After the exchange the two stand the other way round, and all others where they were. -/
theorem Neighbours.exchange (h : Neighbours r flowId first second pre post)
    (hforest : Forest r) : Neighbours (exchange r first second) flowId
      { second with priority := first.priority } { first with priority := second.priority }
      pre post := by
  obtain ⟨⟨hfirst, hparent⟩, hsecond, hparent'⟩ := h.mem
  have hne := h.ne hforest
  have hforest' := hforest.exchange hfirst hsecond (hparent.trans hparent'.symm) hne
  have hsorted' := hforest'.sorted flowId
  have hfilter : (FlowManagement.exchange r first second).executions.filter
      (·.parentFlow = flowId) =
      (r.executions.filter (·.parentFlow = flowId)).map (exchanged first second) := by
    rw [exchange_executions hforest hfirst hsecond hne, List.filter_map]
    congr 1
    refine List.filter_congr fun e _ => ?_
    rw [Function.comp_apply, (exchanged_frame first second e).2.1]
  have hothers : ∀ e ∈ pre ++ post, exchanged first second e = e := by
    have hnodup := h.ids_nodup hforest
    simp only [List.map_append, List.map_cons, List.nodup_append, List.nodup_cons, List.mem_cons,
      not_or, List.mem_map] at hnodup
    intro e he
    have hids : e.id ≠ first.id ∧ e.id ≠ second.id := by
      rcases List.mem_append.mp he with he | he
      · exact ⟨hnodup.2.2 e.id ⟨e, he, rfl⟩ _ (.inl rfl),
          hnodup.2.2 e.id ⟨e, he, rfl⟩ _ (.inr (.inl rfl))⟩
      · exact ⟨fun heq => hnodup.2.1.1.2 ⟨e, he, heq⟩, fun heq => hnodup.2.1.2.1 ⟨e, he, heq⟩⟩
    rw [exchanged, if_neg hids.1, if_neg hids.2]
  have hmapped : (r.getAuthenticationExecutions flowId).map (exchanged first second) =
      pre ++ { first with priority := second.priority } ::
        { second with priority := first.priority } :: post := by
    rw [Neighbours] at h
    rw [h, List.map_append, List.map_cons, List.map_cons,
      List.map_congr_left fun e he => hothers e (List.mem_append_left _ he), List.map_id',
      List.map_congr_left fun e he => hothers e (List.mem_append_right _ he), List.map_id',
      exchanged, exchanged, if_pos rfl, if_neg hne.symm, if_pos rfl]
  have hperm : ((FlowManagement.exchange r first second).getAuthenticationExecutions flowId).Perm
      (pre ++ { second with priority := first.priority } ::
        { first with priority := second.priority } :: post) := by
    have hbefore : ((r.executions.filter (·.parentFlow = flowId)).map (exchanged first second)).Perm
        ((r.getAuthenticationExecutions flowId).map (exchanged first second)) :=
      (List.perm_insertionSort NotLater _).symm.map _
    rw [hmapped] at hbefore
    rw [Realm.getAuthenticationExecutions, hfilter]
    exact (List.perm_insertionSort NotLater _).trans
      (hbefore.trans ((List.Perm.swap _ _ _).append_left pre))
  have hpriorities : (pre ++ { second with priority := first.priority } ::
      { first with priority := second.priority } :: post).map (·.priority) =
      (pre ++ first :: second :: post).map (·.priority) := by
    rw [List.map_append, List.map_append]
    rfl
  refine List.Perm.eq_of_pairwise (fun a b ha hb hab hba => ?_)
    (hsorted'.imp fun hlt => hlt.le) ?_ hperm
  · obtain ⟨ha, hpa⟩ := mem_getAuthenticationExecutions.mp ha
    obtain ⟨hb, hpb⟩ := mem_getAuthenticationExecutions.mp (hperm.mem_iff.mpr hb)
    exact hforest'.priorities a ha b hb (hpa.trans hpb.symm) (le_antisymm hab hba)
  · have hstrict := (hforest.sorted flowId).imp fun hlt => hlt.le
    rw [Neighbours] at h
    rw [h, ← List.pairwise_map, ← hpriorities, List.pairwise_map] at hstrict
    exact hstrict

theorem exchange_exchange (h : Forest r) (hfirst : first ∈ r.executions)
    (hsecond : second ∈ r.executions) (hparent : first.parentFlow = second.parentFlow)
    (hne : first.id ≠ second.id) :
    exchange (exchange r first second) { second with priority := first.priority }
      { first with priority := second.priority } = r := by
  have hforest' := h.exchange hfirst hsecond hparent hne
  have hrows : (exchange r first second).executions =
      r.executions.map (exchanged first second) := by
    rw [exchange_executions h hfirst hsecond hne]
  have hfirst' : { first with priority := second.priority } ∈
      (exchange r first second).executions := by
    rw [hrows, List.mem_map]
    exact ⟨first, hfirst, if_pos rfl⟩
  have hsecond' : { second with priority := first.priority } ∈
      (exchange r first second).executions := by
    rw [hrows, List.mem_map]
    exact ⟨second, hsecond, (if_neg hne.symm).trans (if_pos rfl)⟩
  rw [exchange_executions hforest' hsecond' hfirst' hne.symm,
    exchange_executions h hfirst hsecond hne]
  dsimp only
  rw [List.map_map]
  have hsame : ∀ e ∈ r.executions, (exchanged { second with priority := first.priority }
      { first with priority := second.priority } ∘ exchanged first second) e = e := by
    intro e he
    rw [Function.comp_apply]
    by_cases hid : e.id = first.id
    · cases h.eq_of_id he hfirst hid
      rw [exchanged, exchanged, if_pos rfl, if_neg hne, if_pos rfl]
    · by_cases hid' : e.id = second.id
      · cases h.eq_of_id he hsecond hid'
        rw [exchanged, exchanged, if_neg hid, if_pos rfl, if_pos rfl]
      · rw [exchanged, exchanged, if_neg hid, if_neg hid', if_neg hid', if_neg hid]
  rw [List.map_congr_left hsame, List.map_id']

/-- Raising an execution does nothing, or exchanges it with the one before. -/
theorem raisePriority_cases (hforest : Forest r) (h : raisePriority r id = .ok r') : r' = r ∨
    ∃ flow previous model pre post, r.getAuthenticationFlowById flow.id = some flow ∧
      flow.builtIn = false ∧ model.id = id ∧ Neighbours r flow.id previous model pre post ∧
      r' = exchange r previous model := by
  obtain ⟨model, flow, hmodel, hflow, hbuiltIn, hact⟩ := withParent_ok h
  have hflowId := getAuthenticationFlowById_id hflow
  have hin := getAuthenticationExecutionById_mem hmodel
  split at hact
  · cases hact
    exact .inl rfl
  · rename_i previous hprevious
    cases hact
    have hmem : model ∈ r.getAuthenticationExecutions flow.id :=
      mem_getAuthenticationExecutions.mpr ⟨hin, hflowId.symm⟩
    rcases previousOf_spec hprevious ⟨model, hmem, rfl⟩ with
      ⟨hnone, -⟩ | ⟨pre, e, post, hsorted, heq, -⟩
    · cases hnone
    · have hmem : e ∈ r.getAuthenticationExecutions flow.id := by simp [hsorted]
      have he := (mem_getAuthenticationExecutions.mp hmem).1
      cases hforest.eq_of_id he hin heq
      exact .inr ⟨flow, previous, model, pre, post, hflowId ▸ hflow, hbuiltIn,
        getAuthenticationExecutionById_id hmodel, hsorted, rfl⟩

/-- Lowering an execution does nothing, or exchanges it with the one after. -/
theorem lowerPriority_cases (hforest : Forest r) (h : lowerPriority r id = .ok r') : r' = r ∨
    ∃ flow model next pre post, r.getAuthenticationFlowById flow.id = some flow ∧
      flow.builtIn = false ∧ model.id = id ∧ Neighbours r flow.id model next pre post ∧
      r' = exchange r model next := by
  obtain ⟨model, flow, hmodel, hflow, hbuiltIn, hact⟩ := withParent_ok h
  have hflowId := getAuthenticationFlowById_id hflow
  have hin := getAuthenticationExecutionById_mem hmodel
  split at hact
  · cases hact
    exact .inl rfl
  · rename_i next hnext
    cases hact
    obtain ⟨pre, e, post, hsorted, heq, -⟩ := nextOf_spec hnext
    have hmem : e ∈ r.getAuthenticationExecutions flow.id := by simp [hsorted]
    have he := (mem_getAuthenticationExecutions.mp hmem).1
    cases hforest.eq_of_id he hin heq
    exact .inr ⟨flow, model, next, pre, post, hflowId ▸ hflow, hbuiltIn,
      getAuthenticationExecutionById_id hmodel, hsorted, rfl⟩

theorem Neighbours.forest (h : Neighbours r flowId first second pre post) (hforest : Forest r) :
    Forest (FlowManagement.exchange r first second) := by
  obtain ⟨⟨hfirst, hparent⟩, hsecond, hparent'⟩ := h.mem
  exact hforest.exchange hfirst hsecond (hparent.trans hparent'.symm) (h.ne hforest)

theorem Forest.removeExecution (h : Forest r) (hremove : removeExecution r id = .ok r') :
    Forest r' := by
  obtain ⟨model, flow, hmodel, -, -, hact⟩ := withParent_ok hremove
  have hin := getAuthenticationExecutionById_mem hmodel
  split at hact
  · cases hact
    refine h.remove (fun _ => false) (fun e => e.id = model.id) ?_ ?_ rfl fun _ _ _ _ _ _ => rfl
    · simp [Realm.removeAuthenticatorExecution]
    · simp [Realm.removeAuthenticatorExecution]
  · rename_i flowId hflowId
    split at hact
    · cases hact
    · rename_i subFlow hsub
      obtain ⟨r₁, hr₁, hact⟩ := Except.bind_eq_ok.mp hact
      cases hact
      rw [Realm.removeAuthenticationFlow] at hr₁
      split at hr₁
      · cases hr₁
      · cases hr₁
        have hid := getAuthenticationFlowById_id hsub
        refine h.remove (fun x => x = flowId) (fun e => e.id = model.id) ?_ ?_ rfl
          fun e he _ hother x hx => decide_eq_false fun heq => ?_
        · simp [Realm.removeAuthenticatorExecution, hid]
        · simp [Realm.removeAuthenticatorExecution, hid, List.filter_filter, Bool.and_comm]
        · -- only the removed execution leads to the removed flow
          have hsame := h.once e he model hin x hx (heq ▸ hflowId)
          exact of_decide_eq_false hother (hsame ▸ rfl)

/-! ## Runs -/

/-- A flow is deleted that is nobody's subflow, an execution that a request gives with all its
data is an authenticator, and executions are added to flows whose priorities are not used up. -/
def Allowed (r : Realm) : Label → Prop
  | .deleteFlow id => ∀ e ∈ r.executions, e.flowId ≠ some id
  | .addExecution _ model =>
      model.flowId = none ∧ model.authenticatorFlow = false ∧ HasRoom r model.parentFlow
  | .addExecutionFlow flowAlias _ _ _ _ | .addExecutionToFlow flowAlias _ =>
      ∀ flow, r.getFlowByAlias flowAlias = some flow → HasRoom r flow.id
  | _ => True

theorem Forest.handle (h : Forest r) {label : Label} (hallowed : Allowed r label)
    (hhandle : handle session depth r label = .ok r') : Forest r' := by
  cases label with
  | createFlow rep => exact h.createFlow hhandle
  | updateFlow id rep => exact h.updateFlow hhandle
  | deleteFlow id => exact h.deleteFlow hallowed hhandle
  | copy flowAlias newName =>
      simp only [FlowManagement.handle, copyRequest] at hhandle
      split at hhandle
      · cases hhandle
      · split at hhandle
        · cases hhandle
        · rename_i flow hflow
          cases hcopy : FlowManagement.copyFlow depth r flow newName with
          | error failure =>
              rw [hcopy] at hhandle
              cases hhandle
          | ok copied =>
              rw [hcopy] at hhandle
              cases hhandle
              exact h.copyFlow (getFlowByAlias_mem hflow) hcopy
  | addExecutionFlow flowAlias newAlias type provider description =>
      exact h.addExecutionFlow hallowed hhandle
  | addExecutionToFlow flowAlias provider => exact h.addExecutionToFlow hallowed hhandle
  | addExecution given model =>
      exact h.addExecutionRequest hallowed.1 hallowed.2.1 hallowed.2.2 hhandle
  | updateExecutions flowAlias id requirement => exact h.updateExecutions hhandle
  | raisePriority id =>
      rcases raisePriority_cases h hhandle with rfl | ⟨flow, previous, model, pre, post, -, -, -,
        hneighbours, rfl⟩
      · exact h
      · exact hneighbours.forest h
  | lowerPriority id =>
      rcases lowerPriority_cases h hhandle with rfl | ⟨flow, model, next, pre, post, -, -, -,
        hneighbours, rfl⟩
      · exact h
      · exact hneighbours.forest h
  | removeExecution id => exact h.removeExecution hhandle
  | bind usedFlows =>
      cases hhandle
      exact h.of_ids rfl rfl rfl

theorem run_forest {labels : List Label} (h : Forest r)
    (hallowed : Meets (step session depth) Allowed r labels)
    (hrun : run (step session depth) r labels = some r') : Forest r' := by
  have hkeep : ∀ r label r', Forest r → Allowed r label → step session depth r label = some r' →
      Forest r' := by
    intro r label r' h hallowed hstep
    rw [step] at hstep
    split at hstep
    · rename_i hhandle
      cases hstep
      exact h.handle hallowed hhandle
    · cases hstep
      exact h
  exact run_invariant hkeep h hallowed hrun

theorem Forest.listed (h : Forest r) (hfactory : ∀ e ∈ r.executions,
    e.authenticatorFlow = false → (session.factory e.authenticator).isSome) :
    ∃ bound, ∀ depth, bound < depth → ∀ flow ∈ r.flows, ∀ level,
      ∃ infos, recurseExecutions session r depth flow level = .ok infos := by
  obtain ⟨rank, hrank⟩ := h.ranked
  have hdeep : ∀ depth (flow : AuthenticationFlow), rank flow.id < depth → ∀ level,
      ∃ infos, recurseExecutions session r depth flow level = .ok infos := by
    intro depth
    induction depth with
    | zero => exact fun _ hlt => absurd hlt (Nat.not_lt_zero _)
    | succ depth ih =>
        intro flow hlt level
        have hloop : ∀ (executions : List AuthenticationExecution) (index : Nat),
            (∀ e ∈ executions, e ∈ r.executions ∧ e.parentFlow = flow.id) →
            ∃ infos, listExecutions session r (recurseExecutions session r depth) level index
              executions = .ok infos := by
          intro executions
          induction executions with
          | nil => exact fun _ _ => ⟨[], rfl⟩
          | cons execution rest ihrest =>
              intro index hmem
              obtain ⟨hin, hparent⟩ := hmem execution (List.mem_cons_self ..)
              obtain ⟨result, hresult⟩ :=
                ihrest (index + 1) fun e he => hmem e (List.mem_cons_of_mem _ he)
              rw [listExecutions]
              split
              · rename_i hflow
                obtain ⟨id, hid⟩ := Option.isSome_iff_exists.mp (h.branches execution hin hflow)
                obtain ⟨sub, hsub, hsubId⟩ := List.mem_map.mp (h.present execution hin id hid)
                cases hget : r.getAuthenticationFlowById id with
                | none =>
                    have hne := List.find?_eq_none.mp hget sub hsub
                    simp [hsubId] at hne
                | some flowRef =>
                    have hlower : rank flowRef.id < depth := by
                      have := hrank execution hin id hid
                      rw [getAuthenticationFlowById_id hget]
                      rw [hparent] at this
                      omega
                    obtain ⟨below, hbelow⟩ := ih flowRef hlower (level + 1)
                    have hfound : execution.flowId.bind r.getAuthenticationFlowById =
                        some flowRef := by
                      rw [hid]
                      exact hget
                    rw [hfound]
                    exact ⟨_, Except.bind_eq_ok.mpr ⟨below, hbelow,
                      Except.bind_eq_ok.mpr ⟨result, hresult, rfl⟩⟩⟩
              · rename_i hflow
                have hsome := hfactory execution hin (Bool.eq_false_of_not_eq_true hflow)
                obtain ⟨factory, hfac⟩ := Option.isSome_iff_exists.mp hsome
                rw [hfac]
                exact ⟨_, Except.bind_eq_ok.mpr ⟨result, hresult, rfl⟩⟩
        rw [recurseExecutions]
        exact hloop _ 0 fun e he => mem_getAuthenticationExecutions.mp he
  refine ⟨(r.flows.map fun f => rank f.id).sum, fun depth hlt flow hflow level => ?_⟩
  have hle := List.le_sum_of_mem (List.mem_map_of_mem hflow : rank flow.id ∈
    r.flows.map fun f => rank f.id)
  exact hdeep depth flow (hle.trans_lt hlt) level

/-- In every run from a forest of flows: the flows remain a forest, and whatever was copied,
moved or deleted, every flow is listed once the stack is deep enough. -/
theorem flows_forest {labels : List Label} (h : Forest r)
    (hallowed : Meets (step session depth) Allowed r labels)
    (hrun : run (step session depth) r labels = some r') : Forest r' ∧
      ((∀ e ∈ r'.executions, e.authenticatorFlow = false →
        (session.factory e.authenticator).isSome) →
      ∃ bound, ∀ stack, bound < stack → ∀ flow ∈ r'.flows, ∀ level,
        ∃ infos, recurseExecutions session r' stack flow level = .ok infos) := by
  have hforest := run_forest h hallowed hrun
  exact ⟨hforest, hforest.listed⟩

def openSession : Session :=
  ⟨fun provider => some ⟨provider.getD "", true, [.required]⟩, some, fun _ _ => true⟩

theorem forest_empty (usedFlows : List Nat) : Forest ⟨[], [], usedFlows, 0⟩ where
  flows _ hf := absurd hf List.not_mem_nil
  flowIds := .nil
  executions _ he := absurd he List.not_mem_nil
  parents _ he := absurd he List.not_mem_nil
  subflows _ he := absurd he List.not_mem_nil
  leaves _ he := absurd he List.not_mem_nil
  ordinary _ he := absurd he List.not_mem_nil
  executionIds := .nil
  placed _ he := absurd he List.not_mem_nil
  present _ he := absurd he List.not_mem_nil
  branches _ he := absurd he List.not_mem_nil
  once _ he := absurd he List.not_mem_nil
  ranked := ⟨id, fun _ he => absurd he List.not_mem_nil⟩
  priorities _ he := absurd he List.not_mem_nil

def browserRequests : List Label :=
  [.createFlow ⟨none, some "browser", none, some "basic-flow", false, true⟩,
    .addExecutionToFlow "browser" (some "auth-cookie"),
    .addExecutionFlow "browser" "forms" (some "basic-flow") none none,
    .addExecutionToFlow "forms" (some "auth-username-password-form")]

theorem browserRequests_allowed :
    Meets (step openSession 3) Allowed ⟨[], [], [], 0⟩ browserRequests := by
  have hroom : ∀ {r : Realm} {flowAlias : String}, (∀ e ∈ r.executions, e.priority ≠ maxValue) →
      ∀ flow, r.getFlowByAlias flowAlias = some flow → HasRoom r flow.id :=
    fun h _ _ e he _ => h e he
  exact .cons trivial rfl (.cons (hroom (by decide +kernel)) rfl
    (.cons (hroom (by decide +kernel)) rfl (.cons (hroom (by decide +kernel)) rfl trivial)))

def browserFlow : AuthenticationFlow := ⟨0, "browser", none, some "basic-flow", false, true⟩

def browserRealm : Realm where
  flows := [browserFlow, ⟨2, "forms", none, some "basic-flow", false, false⟩]
  executions := [⟨1, 0, .disabled, 0, some "auth-cookie", none, none, false⟩,
    ⟨3, 0, .disabled, 1, none, none, some 2, true⟩,
    ⟨4, 2, .disabled, 0, some "auth-username-password-form", none, none, false⟩]
  usedFlows := []
  nextId := 5

theorem run_browserRequests :
    run (step openSession 3) ⟨[], [], [], 0⟩ browserRequests = some browserRealm := by
  decide +kernel

theorem flows_forest_browser : Forest browserRealm ∧
    ∃ bound, ∀ stack, bound < stack → ∀ flow ∈ browserRealm.flows, ∀ level,
      ∃ infos, recurseExecutions openSession browserRealm stack flow level = .ok infos := by
  obtain ⟨hforest, hlisted⟩ :=
    flows_forest (forest_empty []) browserRequests_allowed run_browserRequests
  exact ⟨hforest, hlisted fun _ _ _ => rfl⟩

theorem nextOf_append (hid : first.id = id) (hpre : ∀ e ∈ pre, e.id ≠ id) :
    nextOf id (pre ++ first :: second :: post) = some second := by
  induction pre with
  | nil =>
      rw [List.nil_append, nextOf, if_pos hid]
      rfl
  | cons e pre ih =>
      obtain ⟨hne, hrest⟩ := List.forall_mem_cons.mp hpre
      rw [List.cons_append, nextOf, if_neg hne]
      exact ih hrest

/-- In every run from a forest of flows: raising the priority of an execution that is not the
first of its flow exchanges it with the one before it, no other flow changes, and lowering it
again restores all rows. -/
theorem raise_exchanges {labels : List Label} (h : Forest r)
    (hallowed : Meets (step session depth) Allowed r labels)
    (hrun : run (step session depth) r labels = some r')
    (hraise : raisePriority r' id = .ok r'') : r'' = r' ∨
    ∃ flow previous model pre post, model.id = id ∧
      r'.getAuthenticationExecutions flow = pre ++ previous :: model :: post ∧
      r''.getAuthenticationExecutions flow = pre ++
        { model with priority := previous.priority } ::
        { previous with priority := model.priority } :: post ∧
      (∀ other, other ≠ flow →
        r''.getAuthenticationExecutions other = r'.getAuthenticationExecutions other) ∧
      lowerPriority r'' id = .ok r' := by
  have hforest := run_forest h hallowed hrun
  rcases raisePriority_cases hforest hraise with heq | ⟨flow, previous, model, pre, post, hflow,
    hbuiltIn, rfl, hneighbours, rfl⟩
  · exact .inl heq
  · have hafter := hneighbours.exchange hforest
    have hforest' := hneighbours.forest hforest
    have hne := hneighbours.ne hforest
    obtain ⟨⟨hprevious, hparent⟩, hmodel, hparent'⟩ := hneighbours.mem
    refine .inr ⟨flow.id, previous, model, pre, post, rfl, hneighbours, hafter,
      fun other hother => ?_, ?_⟩
    · -- the rows of another flow are not touched
      rw [Realm.getAuthenticationExecutions, Realm.getAuthenticationExecutions,
        exchange_executions hforest hprevious hmodel hne]
      dsimp only
      rw [List.filter_map]
      have hfilter : r'.executions.filter ((fun e : AuthenticationExecution =>
          decide (e.parentFlow = other)) ∘ exchanged previous model) =
          r'.executions.filter fun e => e.parentFlow = other := by
        refine List.filter_congr fun e _ => ?_
        rw [Function.comp_apply, (exchanged_frame previous model e).2.1]
      rw [hfilter]
      congr 1
      refine (List.map_congr_left fun e he => ?_).trans (List.map_id' _)
      obtain ⟨hin, hflowId⟩ := List.mem_filter.mp he
      have hflowId := of_decide_eq_true hflowId
      have hids : e.id ≠ previous.id ∧ e.id ≠ model.id := by
        constructor <;> intro hid
        · exact hother (hflowId.symm.trans
            ((congrArg (·.parentFlow) (hforest.eq_of_id hin hprevious hid)).trans hparent))
        · exact hother (hflowId.symm.trans
            ((congrArg (·.parentFlow) (hforest.eq_of_id hin hmodel hid)).trans hparent'))
      rw [exchanged, if_neg hids.1, if_neg hids.2]
    · have hin := (Neighbours.mem hafter).1
      have hread := hforest'.getExecution hin.1
      have hflow' : (FlowManagement.exchange r' previous model).getAuthenticationFlowById
          model.parentFlow = some flow := hparent' ▸ hflow
      have hpre : ∀ e ∈ pre, e.id ≠ model.id := by
        have hnodup := Neighbours.ids_nodup hafter hforest'
        rw [List.map_append, List.nodup_append] at hnodup
        intro e he
        exact hnodup.2.2 e.id (List.mem_map_of_mem he) _ (List.mem_cons_self ..)
      have hnext : nextOf model.id (pre ++ { model with priority := previous.priority } ::
          { previous with priority := model.priority } :: post) =
          some { previous with priority := model.priority } := nextOf_append rfl hpre
      rw [lowerPriority, withParent, hread]
      dsimp only
      rw [hflow']
      dsimp only
      rw [if_neg (by rw [hbuiltIn]; exact Bool.false_ne_true), hafter, hnext]
      exact congrArg _
        (exchange_exchange hforest hprevious hmodel (hparent.trans hparent'.symm) hne)

theorem raise_exchanges_browser : ∃ r, raisePriority browserRealm 3 = .ok r ∧
    (browserRealm.getAuthenticationExecutions 0).map (·.id) = [1, 3] ∧
    (r.getAuthenticationExecutions 0).map (·.id) = [3, 1] ∧
    lowerPriority r 3 = .ok browserRealm := by
  have hids : (raisePriority browserRealm 3).toOption.map
      (fun r => (r.getAuthenticationExecutions 0).map (·.id)) = some [3, 1] := by decide +kernel
  have hids' : (browserRealm.getAuthenticationExecutions 0).map (·.id) = [1, 3] := by
    decide +kernel
  cases hraise : raisePriority browserRealm 3 with
  | error failure =>
      rw [hraise] at hids
      cases hids
  | ok r =>
      rw [hraise] at hids
      have hmoved : (r.getAuthenticationExecutions 0).map (·.id) = [3, 1] := Option.some.inj hids
      rcases raise_exchanges (forest_empty []) browserRequests_allowed run_browserRequests
        hraise with rfl | ⟨flow, previous, model, pre, post, -, -, -, -, hlower⟩
      · rw [hids'] at hmoved
        cases hmoved
      · exact ⟨r, rfl, hids', hmoved, hlower⟩

end Keycloak.Authentication.FlowManagement
