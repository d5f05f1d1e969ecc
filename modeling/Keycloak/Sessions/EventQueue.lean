import Keycloak.Sessions.ClientListenerExecutor
import Mathlib.Order.Bounds.Basic

/-!
# What the queue of a key holds

`putEventToTheQueue` keeps a queue short: a `CREATED` event in front, the newest `MODIFIED`
event, or a `REMOVED` event alone.  The loop for a `MODIFIED` event appends it behind a
`CREATED` one before it looks at the `MODIFIED` event that is there, and then does not take it
back.

A run puts events and polls; the state also tells which versions were put since the last
`REMOVED` event or poll of a key.
-/

namespace Keycloak.Sessions.ClientListener

inductive QueueLabel (K : Type) where
  | put (event : MyClientEvent K) (r : Nat)
  | poll (key : K) (rejects : Bool)
  deriving DecidableEq, Repr

structure Traced (K : Type) where
  decorator : ClientListenerExecutorDecorator K
  since : K → List Int

section

variable {K : Type}

def Traced.queue (s : Traced K) (key : K) : List (MyClientEventContext K) :=
  (s.decorator.eventsQueue key).getD []

def versionsAfter (event : MyClientEvent K) (versions : List Int) : List Int :=
  match event.type with
  | .created => versions
  | .modified => event.version :: versions
  | .removed => []

def queueStep [DecidableEq K] (s : Traced K) : QueueLabel K → Option (Traced K)
  | .put event r => some
      { decorator := s.decorator.putEventToTheQueue event.key ⟨event, r⟩
        since := Function.update s.since event.key (versionsAfter event (s.since event.key)) }
  | .poll key rejects => some
      { decorator := s.decorator.pollQueue key rejects
        since := Function.update s.since key [] }

/-- At most one `CREATED` event, in front; at most one `MODIFIED` event, with the greatest
version; a `REMOVED` event only alone. -/
structure Normalised (queue : List (MyClientEventContext K)) (versions : List Int) : Prop where
  created_first : ∀ (i : Nat) (ctx : MyClientEventContext K), queue[i]? = some ctx →
    ctx.event.type = .created → i = 0
  one_modified : ∀ (i j : Nat) (ctx ctx' : MyClientEventContext K), queue[i]? = some ctx →
    queue[j]? = some ctx' → ctx.event.type = .modified → ctx'.event.type = .modified → i = j
  newest : ∀ ctx ∈ queue, ctx.event.type = .modified →
    IsGreatest {version | version ∈ versions} ctx.event.version
  removed_alone : ∀ ctx ∈ queue, ctx.event.type = .removed → queue = [ctx]

def HoldsBoth (queue : List (MyClientEventContext K)) : Prop :=
  (∃ ctx ∈ queue, ctx.event.type = .created) ∧ ∃ ctx ∈ queue, ctx.event.type = .modified

/-- No `MODIFIED` event is put behind a `CREATED` and a `MODIFIED` one, and no poll leaves a
`MODIFIED` event behind. -/
def Harmless (s : Traced K) : QueueLabel K → Prop
  | .put event _ => event.type = .modified → ¬ HoldsBoth (s.queue event.key)
  | .poll key _ => ¬ HoldsBoth (s.queue key)

/-! ## The five shapes of a queue -/

inductive Shape : Option (List (MyClientEventContext K)) → List Int → Prop
  | absent : Shape none []
  | created {c : MyClientEventContext K} (hc : c.event.type = .created) : Shape (some [c]) []
  | modified {m : MyClientEventContext K} {versions : List Int} (hm : m.event.type = .modified)
      (hnewest : IsGreatest {version | version ∈ versions} m.event.version) :
      Shape (some [m]) versions
  | both {c m : MyClientEventContext K} {versions : List Int} (hc : c.event.type = .created)
      (hm : m.event.type = .modified)
      (hnewest : IsGreatest {version | version ∈ versions} m.event.version) :
      Shape (some [c, m]) versions
  | removed {r : MyClientEventContext K} {versions : List Int} (hr : r.event.type = .removed) :
      Shape (some [r]) versions

variable {queue : Option (List (MyClientEventContext K))} {versions : List Int}
  {c m new : MyClientEventContext K}

theorem Normalised.nil : Normalised ([] : List (MyClientEventContext K)) versions where
  created_first i ctx h := by simp at h
  one_modified i j ctx ctx' h := by simp at h
  newest ctx h := absurd h List.not_mem_nil
  removed_alone ctx h := absurd h List.not_mem_nil

theorem Normalised.singleton
    (hnewest : c.event.type = .modified →
      IsGreatest {version | version ∈ versions} c.event.version) :
    Normalised [c] versions where
  created_first i ctx h _ := by
    have hlt := (List.getElem?_eq_some_iff.mp h).choose
    rw [List.length_singleton] at hlt
    omega
  one_modified i j ctx ctx' h h' _ _ := by
    have hi := (List.getElem?_eq_some_iff.mp h).choose
    have hj := (List.getElem?_eq_some_iff.mp h').choose
    rw [List.length_singleton] at hi hj
    omega
  newest ctx h htype := by
    obtain rfl := List.mem_singleton.mp h
    exact hnewest htype
  removed_alone ctx h _ := by rw [List.mem_singleton.mp h]

theorem Normalised.pair (hc : c.event.type = .created) (hm : m.event.type = .modified)
    (hnewest : IsGreatest {version | version ∈ versions} m.event.version) :
    Normalised [c, m] versions where
  created_first i ctx h htype := by
    match i with
    | 0 => rfl
    | 1 =>
        cases h
        rw [hm] at htype
        cases htype
    | i + 2 => cases h
  one_modified i j ctx ctx' h h' htype htype' := by
    have hone : ∀ (i : Nat) (ctx : MyClientEventContext K), [c, m][i]? = some ctx →
        ctx.event.type = .modified → i = 1 := by
      intro i ctx h htype
      match i with
      | 0 =>
          cases h
          rw [hc] at htype
          cases htype
      | 1 => rfl
      | i + 2 => cases h
    rw [hone i ctx h htype, hone j ctx' h' htype']
  newest ctx h htype := by
    rcases List.mem_cons.mp h with rfl | h
    · rw [hc] at htype
      cases htype
    · obtain rfl := List.mem_singleton.mp h
      exact hnewest
  removed_alone ctx h htype := by
    rcases List.mem_cons.mp h with rfl | h
    · rw [hc] at htype
      cases htype
    · obtain rfl := List.mem_singleton.mp h
      rw [hm] at htype
      cases htype

theorem Shape.normalised (h : Shape queue versions) : Normalised (queue.getD []) versions := by
  cases h with
  | absent => exact .nil
  | created hc => exact .singleton fun h => by simp [hc] at h
  | modified hm hnewest => exact .singleton fun _ => hnewest
  | both hc hm hnewest => exact .pair hc hm hnewest
  | removed hr => exact .singleton fun h => by simp [hr] at h

theorem Shape.eq_pair (h : Shape queue versions) (hboth : HoldsBoth (queue.getD [])) :
    ∃ c m, queue = some [c, m] ∧ c.event.type = .created ∧ m.event.type = .modified := by
  obtain ⟨⟨x, hx, hxtype⟩, y, hy, hytype⟩ := hboth
  cases h with
  | absent => exact absurd hx List.not_mem_nil
  | created hc =>
      rw [List.mem_singleton.mp hy, hc] at hytype
      cases hytype
  | modified hm _ =>
      rw [List.mem_singleton.mp hx, hm] at hxtype
      cases hxtype
  | both hc hm _ => exact ⟨_, _, rfl, hc, hm⟩
  | removed hr =>
      rw [List.mem_singleton.mp hx, hr] at hxtype
      cases hxtype

theorem HoldsBoth.pair (hc : c.event.type = .created) (hm : m.event.type = .modified) :
    HoldsBoth [c, m] :=
  ⟨⟨c, List.mem_cons_self, hc⟩, ⟨m, List.mem_cons_of_mem c (List.mem_singleton_self m), hm⟩⟩

theorem Shape.eq_singleton {events : List (MyClientEventContext K)}
    (h : Shape (some events) versions) (hnot : ¬ HoldsBoth events) : ∃ ctx, events = [ctx] := by
  cases h with
  | created _ => exact ⟨_, rfl⟩
  | modified _ _ => exact ⟨_, rfl⟩
  | both hc hm _ => exact absurd (HoldsBoth.pair hc hm) hnot
  | removed _ => exact ⟨_, rfl⟩

/-! ## Putting an event -/

def queued (queue : Option (List (MyClientEventContext K))) (new : MyClientEventContext K) :
    List (MyClientEventContext K) :=
  match queue with
  | none => [new]
  | some existingEvents => optimizeQueue existingEvents new

theorem queued_created (hnew : new.event.type = .created)
    {existingEvents : List (MyClientEventContext K)} :
    queued (some existingEvents) new =
      if existingEvents.any fun ctx => ctx.event.type = .removed ∨ ctx.event.type = .created then
        existingEvents
      else new :: existingEvents := by
  simp only [queued, optimizeQueue, hnew]

theorem queued_removed (hnew : new.event.type = .removed)
    (queue : Option (List (MyClientEventContext K))) : queued queue new = [new] := by
  cases queue with
  | none => rfl
  | some existingEvents => simp only [queued, optimizeQueue, hnew]

theorem queued_behind_created (hc : c.event.type = .created) (hnew : new.event.type = .modified) :
    queued (some [c]) new = [c, new] := by
  simp [queued, optimizeQueue, modifiedLoop, addIf, hc, hnew]

theorem queued_behind_modified (hm : m.event.type = .modified)
    (hnew : new.event.type = .modified) :
    queued (some [m]) new = if m.event.version < new.event.version then [new] else [m] := by
  by_cases hlt : m.event.version < new.event.version
  · simp [queued, optimizeQueue, modifiedLoop, addIf, hm, hnew, hlt]
  · simp [queued, optimizeQueue, modifiedLoop, hm, hnew, hlt]

theorem queued_behind_removed {r : MyClientEventContext K} (hr : r.event.type = .removed)
    (hnew : new.event.type ≠ .removed) : queued (some [r]) new = [r] := by
  cases htype : new.event.type with
  | created => simp [queued_created htype, hr]
  | modified => simp [queued, optimizeQueue, modifiedLoop, hr, htype]
  | removed => exact absurd htype hnew

/-- The event is appended in the first round; the rounds after it append it again or leave both
`MODIFIED` events. -/
theorem queued_behind_both (hc : c.event.type = .created) (hm : m.event.type = .modified)
    (hnew : new.event.type = .modified) :
    queued (some [c, m]) new =
      if m.event.version < new.event.version then [c, new, new] else [c, m, new] := by
  by_cases hlt : m.event.version < new.event.version
  · simp [queued, optimizeQueue, modifiedLoop, addIf, hc, hm, hnew, hlt]
  · simp [queued, optimizeQueue, modifiedLoop, addIf, hc, hm, hnew, hlt]

theorem isGreatest_cons_self {version : Int} (h : ∀ v ∈ versions, v ≤ version) :
    IsGreatest {v | v ∈ version :: versions} version := by
  refine ⟨List.mem_cons_self, fun v hv => ?_⟩
  rcases List.mem_cons.mp hv with rfl | hold
  · exact le_rfl
  · exact h v hold

theorem isGreatest_cons {version greatest : Int} (h : IsGreatest {v | v ∈ versions} greatest)
    (hle : version ≤ greatest) : IsGreatest {v | v ∈ version :: versions} greatest := by
  refine ⟨List.mem_cons_of_mem version h.1, fun v hv => ?_⟩
  rcases List.mem_cons.mp hv with rfl | hold
  · exact hle
  · exact h.2 hold

theorem Shape.put (h : Shape queue versions)
    (hharmless : new.event.type = .modified → ¬ HoldsBoth (queue.getD [])) :
    Shape (some (queued queue new)) (versionsAfter new.event versions) := by
  cases htype : new.event.type with
  | removed =>
      rw [queued_removed htype]
      exact .removed htype
  | created =>
      simp only [versionsAfter, htype]
      cases h with
      | absent => exact .created htype
      | created hc =>
          rw [queued_created htype, if_pos (by simp [hc])]
          exact .created hc
      | modified hm hnewest =>
          rw [queued_created htype, if_neg (by simp [hm])]
          exact .both htype hm hnewest
      | both hc hm hnewest =>
          rw [queued_created htype, if_pos (by simp [hc])]
          exact .both hc hm hnewest
      | removed hr =>
          rw [queued_behind_removed hr (by simp [htype])]
          exact .removed hr
  | modified =>
      simp only [versionsAfter, htype]
      have hfirst : IsGreatest {v | v ∈ [new.event.version]} new.event.version :=
        isGreatest_cons_self fun v hv => absurd hv List.not_mem_nil
      cases h with
      | absent => exact .modified htype hfirst
      | created hc =>
          rw [queued_behind_created hc htype]
          exact .both hc htype hfirst
      | modified hm hnewest =>
          rw [queued_behind_modified hm htype]
          split
          · rename_i hlt
            exact .modified htype (isGreatest_cons_self fun v hv => (hnewest.2 hv).trans hlt.le)
          · rename_i hle
            exact .modified hm (isGreatest_cons hnewest (not_lt.mp hle))
      | both hc hm _ => exact absurd (HoldsBoth.pair hc hm) (hharmless htype)
      | removed hr =>
          rw [queued_behind_removed hr (by simp [htype])]
          exact .removed hr

/-- A `MODIFIED` event put behind both others leaves two of its kind. -/
theorem not_normalised_behind_both (hc : c.event.type = .created) (hm : m.event.type = .modified)
    (hnew : new.event.type = .modified) :
    ¬ Normalised (queued (some [c, m]) new) versions := by
  intro h
  rw [queued_behind_both hc hm hnew] at h
  split at h
  · have heq := h.one_modified 1 2 new new rfl rfl hnew hnew
    omega
  · have heq := h.one_modified 1 2 m new rfl rfl hm hnew
    omega

/-! ## Runs -/

variable [DecidableEq K]

theorem eventsQueue_putEventToTheQueue (s : ClientListenerExecutorDecorator K) (key : K)
    (ctx : MyClientEventContext K) :
    (s.putEventToTheQueue key ctx).eventsQueue =
      Function.update s.eventsQueue key (some (queued (s.eventsQueue key) ctx)) := by
  rw [ClientListenerExecutorDecorator.putEventToTheQueue]
  cases s.eventsQueue key with
  | none => rfl
  | some existingEvents => rfl

theorem eventsQueue_submitImpl (s : ClientListenerExecutorDecorator K) (key : K)
    (ctx : MyClientEventContext K) (rejects : Bool) :
    (s.submitImpl key ctx rejects).eventsQueue = s.eventsQueue := by
  cases rejects <;> rfl

theorem eventsQueue_pollQueue {s : ClientListenerExecutorDecorator K} {key : K}
    {nextEvent : MyClientEventContext K} {events : List (MyClientEventContext K)}
    (h : s.eventsQueue key = some (nextEvent :: events)) (rejects : Bool) :
    (s.pollQueue key rejects).eventsQueue =
      Function.update s.eventsQueue key (if events.isEmpty then none else some events) := by
  rw [ClientListenerExecutorDecorator.pollQueue, h]
  exact eventsQueue_submitImpl _ _ _ _

theorem pollQueue_of_none {s : ClientListenerExecutorDecorator K} {key : K}
    (h : s.eventsQueue key = none) (rejects : Bool) : s.pollQueue key rejects = s := by
  rw [ClientListenerExecutorDecorator.pollQueue, h]

def Traced.Shaped (s : Traced K) : Prop :=
  ∀ key, Shape (s.decorator.eventsQueue key) (s.since key)

def Traced.Normal (s : Traced K) : Prop := ∀ key, Normalised (s.queue key) (s.since key)

variable {s t : Traced K} {label : QueueLabel K}

omit [DecidableEq K] in
theorem Traced.Shaped.normal (h : s.Shaped) : s.Normal := fun key => (h key).normalised

theorem Traced.Shaped.update (h : s.Shaped) {key : K} (hnew : Shape queue versions) :
    ∀ key', Shape (Function.update s.decorator.eventsQueue key queue key')
      (Function.update s.since key versions key') := by
  intro key'
  by_cases hk : key' = key
  · subst hk
    rw [Function.update_self, Function.update_self]
    exact hnew
  · rw [Function.update_of_ne hk, Function.update_of_ne hk]
    exact h key'

theorem Traced.Shaped.step (h : s.Shaped) (hlabel : Harmless s label)
    (hstep : queueStep s label = some t) : t.Shaped := by
  cases label with
  | put event r =>
      cases hstep
      intro key
      simp only [eventsQueue_putEventToTheQueue]
      have hput : Shape (some (queued (s.decorator.eventsQueue event.key) ⟨event, r⟩))
          (versionsAfter event (s.since event.key)) := (h event.key).put hlabel
      exact h.update hput key
  | poll key rejects =>
      cases hstep
      intro key'
      have hkey := h key
      cases hqueue : s.decorator.eventsQueue key with
      | none =>
          simp only [pollQueue_of_none hqueue]
          have hrest : Shape (Function.update s.decorator.eventsQueue key none key')
              (Function.update s.since key [] key') := h.update Shape.absent key'
          rwa [← hqueue, Function.update_eq_self] at hrest
      | some events =>
          rw [hqueue] at hkey
          rw [Harmless, Traced.queue, hqueue] at hlabel
          obtain ⟨ctx, rfl⟩ := hkey.eq_singleton hlabel
          simp only [eventsQueue_pollQueue hqueue]
          exact h.update Shape.absent key'

/-- After any other step two `MODIFIED` events are queued, or one that was put before the last
poll. -/
theorem Traced.Shaped.not_normal (h : s.Shaped) (hlabel : ¬ Harmless s label) :
    ∃ t, queueStep s label = some t ∧ ¬ t.Normal := by
  obtain ⟨t, hstep⟩ : ∃ t, queueStep s label = some t := by cases label <;> exact ⟨_, rfl⟩
  refine ⟨t, hstep, fun hnormal => ?_⟩
  cases label with
  | put event r =>
      cases hstep
      rw [Harmless, Classical.not_imp, not_not] at hlabel
      obtain ⟨hnew, hboth⟩ := hlabel
      obtain ⟨c, m, hqueue, hc, hm⟩ := (h event.key).eq_pair hboth
      have hkey := hnormal event.key
      simp only [Traced.queue, eventsQueue_putEventToTheQueue, Function.update_self,
        Option.getD_some, hqueue] at hkey
      exact not_normalised_behind_both hc hm hnew hkey
  | poll key rejects =>
      cases hstep
      rw [Harmless, not_not] at hlabel
      obtain ⟨c, m, hqueue, -, hm⟩ := (h key).eq_pair hlabel
      have hkey := hnormal key
      simp only [Traced.queue, eventsQueue_pollQueue hqueue, Function.update_self] at hkey
      have hnewest := hkey.newest m (List.mem_singleton_self m) hm
      exact absurd hnewest.1 List.not_mem_nil

/-- From empty queues, all queues of a run are normalised if and only if its steps are all
harmless. -/
theorem normalised_iff (start : ClientListenerExecutorDecorator K)
    (hempty : ∀ key, start.eventsQueue key = none) (labels : List (QueueLabel K)) :
    (∀ pre t, pre <+: labels → Machine.run queueStep ⟨start, fun _ => []⟩ pre = some t →
      ∀ key, Normalised (t.queue key) (t.since key)) ↔
    Machine.Meets queueStep Harmless ⟨start, fun _ => []⟩ labels := by
  have hshaped : (⟨start, fun _ => []⟩ : Traced K).Shaped := by
    intro key
    simp only [hempty]
    exact .absent
  have hgood : ∀ s : Traced K, s.Shaped → s.Normal := fun _ h => h.normal
  have hbreak : ∀ (s : Traced K) (label : QueueLabel K), s.Shaped → ¬ Harmless s label →
      ∃ t, queueStep s label = some t ∧ ¬ t.Normal := fun _ _ h => h.not_normal
  exact (Machine.meets_iff_forall_prefix Traced.Shaped hgood
    (fun _ _ _ h hlabel => h.step hlabel) hbreak hshaped labels).symm

end

/-- A `CREATED` event and two `MODIFIED` ones for a key that had none of them. -/
def sampleLabels : List (QueueLabel Nat) :=
  [.put ⟨0, 1, .created⟩ 0, .put ⟨0, 2, .modified⟩ 1, .put ⟨0, 3, .modified⟩ 2]

theorem normalised_of_two :
    Normalised ([⟨⟨0, 1, .created⟩, 0⟩, ⟨⟨0, 2, .modified⟩, 1⟩] : List (MyClientEventContext Nat))
      [2] :=
  (normalised_iff initial (fun _ => rfl) (sampleLabels.take 2)).mpr
    (by simp [sampleLabels, Machine.Meets, Harmless, HoldsBoth, queueStep, Traced.queue, initial,
      ClientListenerExecutorDecorator.putEventToTheQueue])
    (sampleLabels.take 2) _ (List.prefix_refl _) rfl 0

/-- The newer event is queued twice. -/
theorem not_normalised_of_three :
    ∃ t, Machine.run queueStep ⟨initial, fun _ => []⟩ sampleLabels = some t ∧
      t.queue 0 = [⟨⟨0, 1, .created⟩, 0⟩, ⟨⟨0, 3, .modified⟩, 2⟩, ⟨⟨0, 3, .modified⟩, 2⟩] ∧
      ¬ Normalised (t.queue 0) (t.since 0) := by
  refine ⟨_, rfl, rfl, fun h => ?_⟩
  have heq := h.one_modified 1 2 _ _ rfl rfl rfl rfl
  omega

end Keycloak.Sessions.ClientListener
