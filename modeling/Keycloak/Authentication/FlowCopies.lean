import Keycloak.Authentication.FlowManagement
import Keycloak.Lib.Fallible
import Mathlib.Data.List.Nodup

/-!
# Copies of authentication flows

A copy of a flow lists the same executions under generated ids, its subflows under the new name,
and what was there before the copy is as it was.  The rows that a copy adds are told apart from
the others by their ids.
-/

namespace Keycloak.Authentication.FlowManagement

open JavaInt

variable {session : Session} {r r' r'' : Realm} {depth level index id : Nat}
  {flow source target : AuthenticationFlow} {execution : AuthenticationExecution}
  {executions rest : List AuthenticationExecution} {infos : List Info} {newName : String}

theorem mem_getAuthenticationExecutions : execution ∈ r.getAuthenticationExecutions id ↔
    execution ∈ r.executions ∧ execution.parentFlow = id := by
  rw [Realm.getAuthenticationExecutions, List.mem_insertionSort, List.mem_filter, decide_eq_true_eq]

theorem getAuthenticationFlowById_id (h : r.getAuthenticationFlowById id = some flow) :
    flow.id = id := by
  rw [Realm.getAuthenticationFlowById] at h
  simpa using List.find?_some h

/-! ## Priorities -/

/-- The order that the comparator gives while no difference overflows. -/
def InOrder (o₁ o₂ : AuthenticationExecution) : Prop := o₁.priority ≤ o₂.priority

instance : DecidableRel InOrder := fun _ _ => inferInstanceAs (Decidable (_ ≤ _))

instance : Std.Total InOrder := ⟨fun o₁ o₂ => Int.le_total o₁.priority o₂.priority⟩

instance : IsTrans AuthenticationExecution InOrder := ⟨fun _ _ _ h h' => Int.le_trans h h'⟩

/-- No difference of two such priorities overflows. -/
def Ordinary (e : AuthenticationExecution) : Prop := 0 ≤ e.priority ∧ e.priority ≤ maxValue

theorem notLater_iff {o₁ o₂ : AuthenticationExecution} (h₁ : Ordinary o₁) (h₂ : Ordinary o₂) :
    NotLater o₁ o₂ ↔ InOrder o₁ o₂ := by
  have hrange : InRange (o₁.priority - o₂.priority) := by
    rw [inRange_iff]
    unfold Ordinary maxValue at h₁ h₂
    omega
  rw [NotLater, InOrder, wrap_eq hrange]
  omega

theorem getAuthenticationExecutions_sorted (h : ∀ e ∈ r.executions, Ordinary e) (id : Nat) :
    (r.getAuthenticationExecutions id).Pairwise InOrder := by
  have hsame := List.map_insertionSort NotLater InOrder (fun e => e)
    (r.executions.filter (·.parentFlow = id)) fun a ha b hb =>
      notLater_iff (h a (List.mem_of_mem_filter ha)) (h b (List.mem_of_mem_filter hb))
  rw [List.map_id', List.map_id'] at hsame
  rw [Realm.getAuthenticationExecutions, hsame]
  exact List.pairwise_insertionSort InOrder _

/-! ## Realms that agree on some flows -/

/-- Executions of the flows lead to flows among them. -/
def Closed (r : Realm) (s : Nat → Prop) : Prop :=
  ∀ e ∈ r.executions, s e.parentFlow → ∀ id ∈ e.flowId, s id

structure Agree (r r' : Realm) (s : Nat → Prop) : Prop where
  executions : ∀ id, s id → r'.getAuthenticationExecutions id = r.getAuthenticationExecutions id
  flows : ∀ id, s id → r'.getAuthenticationFlowById id = r.getAuthenticationFlowById id

theorem listExecutions_congr {s : Nat → Prop} (h : Agree r r' s) (hclosed : Closed r s)
    {recurse recurse' : AuthenticationFlow → Nat → Except Failure (List Info)}
    (hrecurse : ∀ flow level, s flow.id → recurse' flow level = recurse flow level)
    (hmem : ∀ e ∈ executions, e ∈ r.executions ∧ s e.parentFlow) :
    listExecutions session r' recurse' level index executions =
      listExecutions session r recurse level index executions := by
  induction executions generalizing index with
  | nil => rfl
  | cons execution rest ih =>
      have hrest := fun index => @ih index fun e he => hmem e (List.mem_cons_of_mem _ he)
      obtain ⟨hin, hparent⟩ := hmem execution (List.mem_cons_self ..)
      rw [listExecutions, listExecutions]
      split
      · cases hid : execution.flowId with
        | none => rfl
        | some id =>
            have hs := hclosed execution hin hparent id hid
            rw [Option.bind_some, Option.bind_some, h.flows id hs]
            split
            · rfl
            · rename_i flowRef hflow
              have hsub : s flowRef.id := getAuthenticationFlowById_id hflow ▸ hs
              rw [hrecurse flowRef (level + 1) hsub]
              simp only [hrest]
      · split
        · rfl
        · simp only [hrest]

theorem recurseExecutions_congr {s : Nat → Prop} (h : Agree r r' s) (hclosed : Closed r s)
    (hflow : s flow.id) : recurseExecutions session r' depth flow level =
      recurseExecutions session r depth flow level := by
  induction depth generalizing flow level with
  | zero => rfl
  | succ depth ih =>
      rw [recurseExecutions, recurseExecutions, h.executions _ hflow]
      refine listExecutions_congr h hclosed (fun flow level hflow => ih hflow) fun e he => ?_
      obtain ⟨hin, hparent⟩ := mem_getAuthenticationExecutions.mp he
      exact ⟨hin, hparent ▸ hflow⟩

/-! ## Rows that are added -/

/-- All ids have been generated, no two flows have one, an authenticator has no subflow, and no
priority is negative. -/
structure Numbered (r : Realm) : Prop where
  flows : ∀ f ∈ r.flows, f.id < r.nextId
  flowIds : (r.flows.map (·.id)).Nodup
  executions : ∀ e ∈ r.executions, e.id < r.nextId
  parents : ∀ e ∈ r.executions, e.parentFlow < r.nextId
  subflows : ∀ e ∈ r.executions, ∀ id ∈ e.flowId, id < r.nextId
  leaves : ∀ e ∈ r.executions, e.authenticatorFlow = false → e.flowId = none
  ordinary : ∀ e ∈ r.executions, Ordinary e

/-- Rows have been added: flows and executions with generated ids, and the executions stand in
`target` or in an added flow and lead to added flows. -/
structure Grown (r r' : Realm) (target : Nat) : Prop where
  nextId : r.nextId ≤ r'.nextId
  usedFlows : r'.usedFlows = r.usedFlows
  flows : ∃ added, r'.flows = r.flows ++ added ∧ ∀ f ∈ added, r.nextId ≤ f.id
  executions : ∃ added, r'.executions = r.executions ++ added ∧ ∀ e ∈ added,
    r.nextId ≤ e.id ∧ (e.parentFlow = target ∨ r.nextId ≤ e.parentFlow) ∧
      ∀ id ∈ e.flowId, r.nextId ≤ id
  numbered : Numbered r'

variable {parent parent' : Nat}

theorem Grown.refl (h : Numbered r) : Grown r r parent where
  nextId := le_rfl
  usedFlows := rfl
  flows := ⟨[], (List.append_nil _).symm, fun _ hf => absurd hf List.not_mem_nil⟩
  executions := ⟨[], (List.append_nil _).symm, fun _ he => absurd he List.not_mem_nil⟩
  numbered := h

theorem Grown.trans (h : Grown r r' parent) (h' : Grown r' r'' parent')
    (hthere : parent' = parent ∨ r.nextId ≤ parent') : Grown r r'' parent := by
  obtain ⟨flows, hflows, hnewFlows⟩ := h.flows
  obtain ⟨flows', hflows', hnewFlows'⟩ := h'.flows
  obtain ⟨executions, hexecutions, hnewExecutions⟩ := h.executions
  obtain ⟨executions', hexecutions', hnewExecutions'⟩ := h'.executions
  refine ⟨h.nextId.trans h'.nextId, h'.usedFlows.trans h.usedFlows,
    ⟨flows ++ flows', ?_, fun f hf => ?_⟩, ⟨executions ++ executions', ?_, fun e he => ?_⟩,
    h'.numbered⟩
  · rw [hflows', hflows, List.append_assoc]
  · rcases List.mem_append.mp hf with hf | hf
    · exact hnewFlows f hf
    · exact h.nextId.trans (hnewFlows' f hf)
  · rw [hexecutions', hexecutions, List.append_assoc]
  · rcases List.mem_append.mp he with he | he
    · exact hnewExecutions e he
    · obtain ⟨hid, hparent, hsub⟩ := hnewExecutions' e he
      refine ⟨h.nextId.trans hid, ?_, fun id hflow => h.nextId.trans (hsub id hflow)⟩
      rcases hparent with hparent | hparent
      · rw [hparent]
        exact hthere
      · exact .inr (h.nextId.trans hparent)

theorem Grown.filter_executions (h : Grown r r' parent) (hlt : id < r.nextId) (hne : id ≠ parent) :
    r'.executions.filter (·.parentFlow = id) = r.executions.filter (·.parentFlow = id) := by
  obtain ⟨added, hadded, hnew⟩ := h.executions
  have hnone : added.filter (fun e => decide (e.parentFlow = id)) = [] := by
    rw [List.filter_eq_nil_iff]
    intro e he hparent
    have heq := of_decide_eq_true hparent
    rcases (hnew e he).2.1 with hthere | hge
    · exact hne (heq.symm.trans hthere)
    · omega
  rw [hadded, List.filter_append, hnone, List.append_nil]

theorem Grown.flowById (h : Grown r r' parent) (hlt : id < r.nextId) :
    r'.getAuthenticationFlowById id = r.getAuthenticationFlowById id := by
  obtain ⟨added, hadded, hnew⟩ := h.flows
  have hnone : added.find? (fun f => decide (f.id = id)) = none := by
    rw [List.find?_eq_none]
    intro f hf hid
    have := hnew f hf
    have := of_decide_eq_true hid
    omega
  rw [Realm.getAuthenticationFlowById, Realm.getAuthenticationFlowById, hadded,
    List.find?_append, hnone, Option.or_none]

theorem Grown.agree (h : Grown r r' parent) {s : Nat → Prop}
    (hs : ∀ id, s id → id < r.nextId ∧ id ≠ parent) : Agree r r' s where
  executions id hid := by
    rw [Realm.getAuthenticationExecutions, Realm.getAuthenticationExecutions,
      h.filter_executions (hs id hid).1 (hs id hid).2]
  flows id hid := h.flowById (hs id hid).1

theorem Agree.addAuthenticatorExecution {s : Nat → Prop} (h : Agree r r' s)
    (hparent : ¬ s execution.parentFlow) : Agree r (r'.addAuthenticatorExecution execution) s where
  executions id hid := by
    have hne : execution.parentFlow ≠ id := fun heq => hparent (heq ▸ hid)
    rw [← h.executions id hid, Realm.getAuthenticationExecutions,
      Realm.getAuthenticationExecutions, Realm.addAuthenticatorExecution, List.filter_append,
      List.filter_cons_of_neg (by simpa using hne), List.filter_nil, List.append_nil]
  flows := h.flows

theorem Agree.refl (r : Realm) (s : Nat → Prop) : Agree r r s := ⟨fun _ _ => rfl, fun _ _ => rfl⟩

theorem Agree.trans {s : Nat → Prop} (h : Agree r r' s) (h' : Agree r' r'' s) : Agree r r'' s where
  executions id hid := (h'.executions id hid).trans (h.executions id hid)
  flows id hid := (h'.flows id hid).trans (h.flows id hid)

theorem Grown.addAuthenticationFlow (h : Numbered r) (model : AuthenticationFlow) :
    Grown r (r.addAuthenticationFlow model).2 parent := by
  refine ⟨Nat.le_succ _, rfl, ⟨[_], rfl, fun f hf => ?_⟩,
    ⟨[], (List.append_nil _).symm, fun _ he => absurd he List.not_mem_nil⟩, ?_⟩
  · rw [List.mem_singleton.mp hf]
  · have hlt : ∀ {n}, n < r.nextId → n < r.nextId + 1 := Nat.lt_succ_of_lt
    refine ⟨fun f hf => ?_, ?_, fun e he => hlt (h.executions e he),
      fun e he => hlt (h.parents e he), fun e he id hid => hlt (h.subflows e he id hid),
      h.leaves, h.ordinary⟩
    · rcases List.mem_append.mp hf with hf | hf
      · exact hlt (h.flows f hf)
      · rw [List.mem_singleton.mp hf]
        exact Nat.lt_succ_self _
    · change ((r.flows ++ [_]).map _).Nodup
      rw [List.map_append, List.nodup_append]
      refine ⟨h.flowIds, List.nodup_singleton _, fun a ha b hb => ?_⟩
      obtain ⟨f, hf, rfl⟩ := List.mem_map.mp ha
      rw [List.map_singleton, List.mem_singleton] at hb
      rw [hb]
      exact (h.flows f hf).ne

theorem Grown.addAuthenticatorExecution (h : Grown r r' parent)
    (hparent : execution.parentFlow = parent) (hlt : parent < r'.nextId)
    (hsub : ∀ id ∈ execution.flowId, r.nextId ≤ id ∧ id < r'.nextId)
    (hleaf : execution.authenticatorFlow = false → execution.flowId = none)
    (hordinary : Ordinary execution) : Grown r (r'.addAuthenticatorExecution execution) parent := by
  obtain ⟨added, hadded, hnew⟩ := h.executions
  have hsucc : ∀ {n}, n < r'.nextId → n < r'.nextId + 1 := Nat.lt_succ_of_lt
  have hnumbered := h.numbered
  refine ⟨h.nextId.trans (Nat.le_succ _), h.usedFlows, h.flows,
    ⟨added ++ [{ execution with id := r'.nextId }], ?_, fun e he => ?_⟩,
    ⟨fun f hf => hsucc (hnumbered.flows f hf), hnumbered.flowIds, fun e he => ?_, fun e he => ?_,
      fun e he => ?_, fun e he => ?_, fun e he => ?_⟩⟩
  · rw [← List.append_assoc, ← hadded]
    rfl
  · rcases List.mem_append.mp he with he | he
    · exact hnew e he
    · rw [List.mem_singleton.mp he]
      exact ⟨h.nextId, .inl hparent, fun id hid => (hsub id hid).1⟩
  · rcases List.mem_append.mp he with he | he
    · exact hsucc (hnumbered.executions e he)
    · rw [List.mem_singleton.mp he]
      exact Nat.lt_succ_self _
  · rcases List.mem_append.mp he with he | he
    · exact hsucc (hnumbered.parents e he)
    · rw [List.mem_singleton.mp he]
      exact hparent ▸ hsucc hlt
  · rcases List.mem_append.mp he with he | he
    · exact fun id hid => hsucc (hnumbered.subflows e he id hid)
    · rw [List.mem_singleton.mp he]
      exact fun id hid => hsucc (hsub id hid).2
  · rcases List.mem_append.mp he with he | he
    · exact hnumbered.leaves e he
    · rw [List.mem_singleton.mp he]
      exact hleaf
  · rcases List.mem_append.mp he with he | he
    · exact hnumbered.ordinary e he
    · rw [List.mem_singleton.mp he]
      exact hordinary

theorem Grown.getAuthenticationFlowById (h : Numbered r) (model : AuthenticationFlow) :
    (r.addAuthenticationFlow model).2.getAuthenticationFlowById r.nextId =
      some (r.addAuthenticationFlow model).1 := by
  have hnone : r.flows.find? (fun f => decide (f.id = r.nextId)) = none := by
    rw [List.find?_eq_none]
    intro f hf hid
    exact (h.flows f hf).ne (of_decide_eq_true hid)
  simp [Realm.getAuthenticationFlowById, Realm.addAuthenticationFlow, List.find?_append, hnone]

/-! ## What a copy lists -/

def Info.shape (info : Info) : Info := { info with id := 0, flowId := info.flowId.map fun _ => 0 }

def Info.renamed (newName : String) (info : Info) : Info :=
  if info.authenticationFlow then
    { info with displayName := newName ++ " " ++ info.displayName }
  else info

/-- The flows that a copy starts from: those with ids under `bound`, which executions do not
lead out of. -/
structure Original (r : Realm) (bound : Nat) : Prop where
  numbered : Numbered r
  le : bound ≤ r.nextId
  closed : Closed r (· < bound)

theorem Original.grown {bound : Nat} (h : Original r bound) (hgrown : Grown r r' parent)
    (hparent : bound ≤ parent) : Original r' bound := by
  refine ⟨hgrown.numbered, h.le.trans hgrown.nextId, fun e he hlt => ?_⟩
  obtain ⟨added, hadded, hnew⟩ := hgrown.executions
  rw [hadded] at he
  rcases List.mem_append.mp he with he | he
  · exact h.closed e he hlt
  · have hle := h.le
    rcases (hnew e he).2.1 with heq | hge <;> omega

theorem Original.agree {bound : Nat} (h : Original r bound) (hgrown : Grown r r' parent)
    (hparent : bound ≤ parent) : Agree r r' (· < bound) :=
  hgrown.agree fun _ hid => ⟨hid.trans_le h.le, (hid.trans_le hparent).ne⟩

theorem Grown.closed (h : Grown r r' parent) (hnumbered : Numbered r) :
    Closed r' fun id => r.nextId ≤ id ∧ id < r'.nextId := by
  obtain ⟨added, hadded, hnew⟩ := h.executions
  intro e he hge id hid
  refine ⟨?_, h.numbered.subflows e he id hid⟩
  rw [hadded] at he
  rcases List.mem_append.mp he with he | he
  · exact absurd (hnumbered.parents e he) (Nat.not_lt.mpr hge.1)
  · exact (hnew e he).2.2 id hid

/-- What the loop over executions gives: the executions of the target are listed like those
that were copied. -/
structure Copied (session : Session) (depth level index : Nat) (newName : String)
    (r r' : Realm) (parent : Nat) (executions : List AuthenticationExecution)
    (infos : List Info) : Prop where
  grown : Grown r r' parent
  listed : ∃ copies infos', r'.executions.filter (·.parentFlow = parent) =
      r.executions.filter (·.parentFlow = parent) ++ copies ∧
    copies.map (·.priority) = executions.map (·.priority) ∧
    listExecutions session r' (recurseExecutions session r' depth) level index copies =
      .ok infos' ∧
    infos'.map Info.shape = infos.map fun info => (info.renamed newName).shape

def CopiesAt (session : Session) (newName : String) (bound depth : Nat) : Prop :=
  ∀ r (source target : AuthenticationFlow) level infos, Original r bound → source.id < bound →
    bound ≤ target.id → target.id < r.nextId → (∀ e ∈ r.executions, e.parentFlow ≠ target.id) →
    recurseExecutions session r depth source level = .ok infos →
    ∃ r' infos', copy newName depth r source target = .ok r' ∧ Grown r r' target.id ∧
      recurseExecutions session r' depth target level = .ok infos' ∧
      infos'.map Info.shape = infos.map fun info => (info.renamed newName).shape

theorem filter_addAuthenticatorExecution (r : Realm) (h : execution.parentFlow = parent) :
    (r.addAuthenticatorExecution execution).executions.filter (·.parentFlow = parent) =
      r.executions.filter (·.parentFlow = parent) ++ [{ execution with id := r.nextId }] := by
  rw [Realm.addAuthenticatorExecution, List.filter_append,
    List.filter_cons_of_pos (by simpa using h), List.filter_nil]

theorem copyExecutions_copied {bound : Nat} (hcopies : CopiesAt session newName bound depth)
    (horiginal : Original r bound) (hparent : bound ≤ target.id) (hlt : target.id < r.nextId)
    (hmem : ∀ e ∈ executions, e ∈ r.executions ∧ e.parentFlow < bound)
    (hlist : listExecutions session r (recurseExecutions session r depth) level index executions =
      .ok infos) :
    ∃ r', copyExecutions newName (copy newName depth) target r executions = .ok r' ∧
      Copied session depth level index newName r r' target.id executions infos := by
  induction executions generalizing r index infos with
  | nil =>
      cases hlist
      exact ⟨r, rfl, .refl horiginal.numbered, [], [], (List.append_nil _).symm, rfl, rfl, rfl⟩
  | cons execution rest ih =>
      obtain ⟨hin, hbound⟩ := hmem execution (List.mem_cons_self ..)
      have hrest := fun e he => hmem e (List.mem_cons_of_mem _ he)
      -- the remaining executions are listed in the same way after rows have been added
      have hnext : ∀ {r₃ : Realm} {infos}, Grown r r₃ target.id →
          listExecutions session r (recurseExecutions session r depth) level (index + 1) rest =
            .ok infos →
          ∃ r', copyExecutions newName (copy newName depth) target r₃ rest = .ok r' ∧
            Copied session depth level (index + 1) newName r₃ r' target.id rest infos := by
        intro r₃ infos hgrown hinfos
        have hagree := horiginal.agree hgrown hparent
        refine ih (horiginal.grown hgrown hparent) (hlt.trans_le hgrown.nextId)
          (fun e he => ⟨?_, (hrest e he).2⟩) ?_
        · obtain ⟨added, hadded, -⟩ := hgrown.executions
          rw [hadded]
          exact List.mem_append_left _ (hrest e he).1
        · rw [listExecutions_congr hagree horiginal.closed
            (fun flow level hflow => recurseExecutions_congr hagree horiginal.closed hflow) hrest]
          exact hinfos
      rw [listExecutions] at hlist
      rw [copyExecutions]
      split at hlist
      · -- a subflow, whose copy is complete before the execution is added
        rename_i hflow
        split at hlist
        · cases hlist
        · rename_i flowRef hflowRef
          obtain ⟨sub, hsub, hlist⟩ := Except.bind_eq_ok.mp hlist
          obtain ⟨result, hresult, heq⟩ := Except.bind_eq_ok.mp hlist
          cases heq
          obtain ⟨flowId, hflowId, hget⟩ := Option.bind_eq_some_iff.mp hflowRef
          have hflowBound : flowRef.id < bound := by
            rw [getAuthenticationFlowById_id hget]
            exact horiginal.closed execution hin hbound flowId hflowId
          rw [if_pos hflow]
          dsimp only
          let added := r.addAuthenticationFlow
            { flowRef with
              flowAlias := newName ++ " " ++ flowRef.flowAlias, builtIn := false,
              topLevel := false }
          have hgrown₁ : Grown r added.2 target.id := .addAuthenticationFlow horiginal.numbered _
          have hagree₁ := horiginal.agree hgrown₁ hparent
          obtain ⟨r₂, infosSub, hcopy, hgrown, hlistSub, hshapeSub⟩ :=
            hcopies added.2 flowRef added.1 (level + 1) sub (horiginal.grown hgrown₁ hparent)
              hflowBound horiginal.le (Nat.lt_succ_self _)
              (fun e he => (horiginal.numbered.parents e he).ne)
              ((recurseExecutions_congr hagree₁ horiginal.closed hflowBound).trans hsub)
          have hgrown₂ : Grown r r₂ target.id := hgrown₁.trans hgrown (.inr le_rfl)
          have hadded : r.nextId < r₂.nextId := (Nat.lt_succ_self _).trans_le hgrown.nextId
          have hgrown₃ : Grown r (r₂.addAuthenticatorExecution
              { execution with flowId := some added.1.id, parentFlow := target.id }) target.id :=
            hgrown₂.addAuthenticatorExecution rfl (hlt.trans_le hgrown₂.nextId)
              (fun id hid => by cases hid; exact ⟨le_rfl, hadded⟩)
              (fun hleaf => by rw [hflow] at hleaf; cases hleaf)
              (horiginal.numbered.ordinary execution hin)
          obtain ⟨r', hcopied, hgrown', copies, infos', hfilter, hpriority, hlisted, hshape⟩ :=
            hnext hgrown₃ hresult
          rw [hcopy]
          -- what was copied for the subflow is listed in the same way in the end
          have hagree₃ : Agree r₂ r' fun id => r.nextId ≤ id ∧ id < r₂.nextId := by
            refine .trans ((Agree.refl r₂ _).addAuthenticatorExecution fun h => ?_)
              (hgrown'.agree fun id hid => ⟨Nat.lt_succ_of_lt hid.2, fun heq => ?_⟩)
            · exact absurd h.1 (Nat.not_le.mpr hlt)
            · exact absurd (heq ▸ hid.1) (Nat.not_le.mpr hlt)
          have hget' : r'.getAuthenticationFlowById added.1.id = some added.1 := calc
            _ = r₂.getAuthenticationFlowById added.1.id := hagree₃.flows _ ⟨le_rfl, hadded⟩
            _ = added.2.getAuthenticationFlowById added.1.id :=
              hgrown.flowById (Nat.lt_succ_self _)
            _ = some added.1 := Grown.getAuthenticationFlowById horiginal.numbered _
          have hlistSub' : recurseExecutions session r' depth added.1 (level + 1) = .ok infosSub :=
            (recurseExecutions_congr hagree₃ (hgrown₂.closed horiginal.numbered)
              ⟨le_rfl, hadded⟩).trans hlistSub
          let copied : AuthenticationExecution := { execution with
            id := r₂.nextId, flowId := some added.1.id, parentFlow := target.id }
          refine ⟨r', hcopied, hgrown₃.trans hgrown' (.inl rfl), copied :: copies,
            flowInfo copied added.1 level index :: (infosSub ++ infos'), ?_, ?_, ?_, ?_⟩
          · have hlast := filter_addAuthenticatorExecution r₂ (rfl : copied.parentFlow = target.id)
            rw [hgrown.filter_executions (Nat.lt_succ_of_lt hlt) hlt.ne] at hlast
            rw [hfilter]
            exact (congrArg (· ++ copies) hlast).trans (List.append_assoc ..)
          · rw [List.map_cons, List.map_cons, hpriority]
          · rw [listExecutions, if_pos hflow]
            have hcopiedFlow :
                copied.flowId.bind r'.getAuthenticationFlowById = some added.1 := hget'
            rw [hcopiedFlow]
            exact Except.bind_eq_ok.mpr
              ⟨infosSub, hlistSub', Except.bind_eq_ok.mpr ⟨infos', hlisted, rfl⟩⟩
          · have hinfo : (flowInfo copied added.1 level index).shape =
                ((flowInfo execution flowRef level index).renamed newName).shape := by
              rw [flowInfo, flowInfo, hflowId]
              rfl
            rw [List.map_cons, List.map_cons, List.map_append, List.map_append, hshape, hshapeSub,
              hinfo]
      · -- an authenticator
        rename_i hflow
        split at hlist
        · cases hlist
        · rename_i factory hfactory
          obtain ⟨result, hresult, heq⟩ := Except.bind_eq_ok.mp hlist
          cases heq
          have hleaf := horiginal.numbered.leaves execution hin (Bool.eq_false_of_not_eq_true hflow)
          have hgrown₁ : Grown r (r.addAuthenticatorExecution
              { execution with parentFlow := target.id }) target.id :=
            (Grown.refl horiginal.numbered).addAuthenticatorExecution rfl hlt
              (fun id hid => by rw [hleaf] at hid; cases hid) (fun _ => hleaf)
              (horiginal.numbered.ordinary execution hin)
          obtain ⟨r', hcopied, hgrown', copies, infos', hfilter, hpriority, hlisted, hshape⟩ :=
            hnext hgrown₁ hresult
          rw [if_neg hflow]
          let copied : AuthenticationExecution :=
            { execution with id := r.nextId, parentFlow := target.id }
          refine ⟨r', hcopied, hgrown₁.trans hgrown' (.inl rfl), copied :: copies,
            authenticatorInfo session copied factory level index :: infos', ?_, ?_, ?_, ?_⟩
          · have hlast := filter_addAuthenticatorExecution r (rfl : copied.parentFlow = target.id)
            rw [hfilter]
            exact (congrArg (· ++ copies) hlast).trans (List.append_assoc ..)
          · rw [List.map_cons, List.map_cons, hpriority]
          · have hcopiedFactory : session.factory copied.authenticator = some factory := hfactory
            rw [listExecutions, if_neg hflow, hcopiedFactory]
            exact Except.bind_eq_ok.mpr ⟨infos', hlisted, rfl⟩
          · rw [List.map_cons, List.map_cons, hshape]
            rfl

theorem copy_copiesAt (session : Session) (newName : String) (bound depth : Nat) :
    CopiesAt session newName bound depth := by
  induction depth with
  | zero =>
      intro r source target level infos _ _ _ _ _ hlist
      cases hlist
  | succ depth ih =>
      intro r source target level infos horiginal hsource hparent hlt hempty hlist
      have hmem : ∀ e ∈ r.getAuthenticationExecutions source.id,
          e ∈ r.executions ∧ e.parentFlow < bound := by
        intro e he
        obtain ⟨hin, heq⟩ := mem_getAuthenticationExecutions.mp he
        exact ⟨hin, heq ▸ hsource⟩
      obtain ⟨r', hcopy, hgrown, copies, infos', hfilter, hpriority, hlisted, hshape⟩ :=
        copyExecutions_copied ih horiginal hparent hlt hmem hlist
      refine ⟨r', infos', hcopy, hgrown, ?_, hshape⟩
      -- the copies have been added in the order of their priorities
      have hnone : r.executions.filter (·.parentFlow = target.id) = [] :=
        List.filter_eq_nil_iff.mpr fun e he heq => hempty e he (of_decide_eq_true heq)
      have hsorted : copies.Pairwise NotLater := by
        have h : ((r.getAuthenticationExecutions source.id).map (·.priority)).Pairwise (· ≤ ·) :=
          List.pairwise_map.mpr
            (getAuthenticationExecutions_sorted horiginal.numbered.ordinary source.id)
        rw [← hpriority, List.pairwise_map] at h
        have hin : ∀ e ∈ copies, Ordinary e := by
          intro e he
          have hfiltered : e ∈ r'.executions.filter (·.parentFlow = target.id) := by
            rw [hfilter]
            exact List.mem_append_right _ he
          exact hgrown.numbered.ordinary e (List.mem_of_mem_filter hfiltered)
        exact h.imp_of_mem fun ha hb => (notLater_iff (hin _ ha) (hin _ hb)).mpr
      rw [recurseExecutions, Realm.getAuthenticationExecutions, hfilter, hnone, List.nil_append,
        hsorted.insertionSort_eq]
      exact hlisted

/-- A flow that can be listed can be copied; the copy is listed with the same executions, in the
same order and at the same levels, its subflows under the new name; every flow and execution of
the copy has a generated id; and the flows that were there are listed as before. -/
theorem copyFlow_listed (h : Numbered r) (hflow : flow ∈ r.flows)
    (hlist : recurseExecutions session r depth flow level = .ok infos) :
    ∃ copied r' infos', copyFlow depth r flow newName = .ok (copied, r') ∧
      r'.getAuthenticationFlowById copied.id = some copied ∧
      copied = { flow with id := r.nextId, flowAlias := newName, builtIn := false } ∧
      recurseExecutions session r' depth copied level = .ok infos' ∧
      infos'.map Info.shape = infos.map (fun info => (info.renamed newName).shape) ∧
      Grown r r' copied.id ∧
      ∀ other ∈ r.flows, ∀ depth level, recurseExecutions session r' depth other level =
        recurseExecutions session r depth other level := by
  have horiginal : Original r r.nextId := ⟨h, le_rfl, fun e he _ => h.subflows e he⟩
  let added := r.addAuthenticationFlow { flow with flowAlias := newName, builtIn := false }
  have hgrown₁ : Grown r added.2 added.1.id := .addAuthenticationFlow h _
  have hlist₁ : recurseExecutions session added.2 depth flow level = .ok infos :=
    (recurseExecutions_congr (horiginal.agree hgrown₁ le_rfl) horiginal.closed
      (h.flows flow hflow)).trans hlist
  obtain ⟨r', infos', hcopy, hgrown, hlisted, hshape⟩ :=
    copy_copiesAt session newName r.nextId depth added.2 flow added.1 level infos
      (horiginal.grown hgrown₁ le_rfl) (h.flows flow hflow) le_rfl (Nat.lt_succ_self _)
      (fun e he => (h.parents e he).ne) hlist₁
  have hgrown' : Grown r r' added.1.id := hgrown₁.trans hgrown (.inl rfl)
  refine ⟨added.1, r', infos', Except.bind_eq_ok.mpr ⟨r', hcopy, rfl⟩, ?_, rfl, hlisted, hshape,
    hgrown', fun other hother depth level => ?_⟩
  · exact (hgrown.flowById (Nat.lt_succ_self _)).trans (Grown.getAuthenticationFlowById h _)
  · exact recurseExecutions_congr (horiginal.agree hgrown' le_rfl) horiginal.closed
      (h.flows other hother)

end Keycloak.Authentication.FlowManagement
