import Keycloak.Lib.Machine
import Mathlib.Data.List.Nodup
import Mathlib.Logic.Function.Basic

/-!
# Serialised client-listener events

The decorator that hands the events of the remote cache to an executor, one event
of a key at a time.  Both maps are guarded by one lock, so a call of `submit` and
the `finally` block of a finished task are single steps; a run is any order of
them.  The executor may finish its tasks in any order.

`submissions`, `finished` and `thrown` are ghost state.  A runnable is represented
by the number of the `submit` call that brought it.
-/

namespace Keycloak.Sessions.ClientListener

inductive EventType where
  | created
  | modified
  | removed
  deriving DecidableEq, Repr

/-- The events of the remote cache.  A removal has no version. -/
inductive ClientEvent (K : Type) where
  | cacheEntryCreated (key : K) (version : Int)
  | cacheEntryModified (key : K) (version : Int)
  | cacheEntryRemoved (key : K)
  deriving DecidableEq, Repr

structure MyClientEvent (K : Type) where
  key : K
  version : Int
  type : EventType
  deriving DecidableEq, Repr

def convertIspnClientEvent {K : Type} : ClientEvent K → MyClientEvent K
  | .cacheEntryCreated key version => ⟨key, version, .created⟩
  | .cacheEntryModified key version => ⟨key, version, .modified⟩
  | .cacheEntryRemoved key => ⟨key, -1, .removed⟩

structure MyClientEventContext (K : Type) where
  event : MyClientEvent K
  r : Nat
  deriving DecidableEq, Repr

structure DecoratedRunnable (K : Type) where
  key : K
  context : MyClientEventContext K
  deriving DecidableEq, Repr

inductive Failure (K : Type) where
  | rejectedExecution (event : MyClientEvent K)
  | illegalState (key : K)
  deriving DecidableEq, Repr

structure ClientListenerExecutorDecorator (K : Type) where
  /-- The tasks the executor has taken and not finished. -/
  decorated : List (DecoratedRunnable K)
  eventsInProgress : K → Option (MyClientEvent K)
  eventsQueue : K → Option (List (MyClientEventContext K))
  submissions : List (MyClientEvent K)
  finished : List (MyClientEventContext K)
  /-- Exceptions, which end in the caller of `submit` or in the future of a task. -/
  thrown : List (Failure K)

section Code

variable {K : Type}

/-- `existingEvents.add(myNewEvent)`, under `if (addd)`. -/
def addIf (addd : Bool) (myNewEvent : MyClientEventContext K)
    (existingEvents : List (MyClientEventContext K)) : List (MyClientEventContext K) :=
  if addd then existingEvents ++ [myNewEvent] else existingEvents

/-- The index loop for a `MODIFIED` event.  The list is changed while the index goes
through it: an older event is removed at `i` and the one behind it is passed over, and
the new event is appended in every round in which `addd` still holds.  `none` says
that the rounds given by the first argument were not enough. -/
def modifiedLoop (myNewEvent : MyClientEventContext K) :
    Nat → Nat → Bool → List (MyClientEventContext K) → Option (List (MyClientEventContext K))
  | 0, _, _, _ => none
  | rounds + 1, i, addd, existingEvents =>
      match existingEvents[i]? with
      | none => some existingEvents
      | some ctx =>
          match ctx.event.type with
          | .removed => some existingEvents
          | .created =>
              modifiedLoop myNewEvent rounds (i + 1) addd (addIf addd myNewEvent existingEvents)
          | .modified =>
              if ctx.event.version < myNewEvent.event.version then
                modifiedLoop myNewEvent rounds (i + 1) addd
                  (addIf addd myNewEvent (existingEvents.eraseIdx i))
              else modifiedLoop myNewEvent rounds (i + 1) false existingEvents

/-- The queue of a key after `putEventToTheQueue`, for a key that has one. -/
def optimizeQueue (existingEvents : List (MyClientEventContext K))
    (myNewEvent : MyClientEventContext K) : List (MyClientEventContext K) :=
  match myNewEvent.event.type with
  | .created =>
      if existingEvents.any fun ctx =>
          ctx.event.type = .removed ∨ ctx.event.type = .created then existingEvents
      else myNewEvent :: existingEvents
  | .modified =>
      -- by `modifiedLoop_terminates` the rounds are enough for every list
      (modifiedLoop myNewEvent (2 * existingEvents.length + 1) 0 true existingEvents).getD
        existingEvents
  | .removed => [myNewEvent]

namespace ClientListenerExecutorDecorator

variable [DecidableEq K]

/-- `rejects` tells whether the executor throws `RejectedExecutionException`. -/
def submitImpl (s : ClientListenerExecutorDecorator K) (key : K)
    (ctx : MyClientEventContext K) (rejects : Bool) : ClientListenerExecutorDecorator K :=
  if rejects then
    { s with
      eventsInProgress := Function.update s.eventsInProgress key none
      thrown := s.thrown ++ [.rejectedExecution ctx.event] }
  else
    { s with
      eventsInProgress := Function.update s.eventsInProgress key (some ctx.event)
      decorated := s.decorated ++ [⟨key, ctx⟩] }

def pollQueue (s : ClientListenerExecutorDecorator K) (key : K) (rejects : Bool) :
    ClientListenerExecutorDecorator K :=
  match s.eventsQueue key with
  | none => s
  | some [] => { s with thrown := s.thrown ++ [.illegalState key] }
  | some (nextEvent :: events) =>
      let eventsQueue :=
        Function.update s.eventsQueue key (if events.isEmpty then none else some events)
      submitImpl { s with eventsQueue := eventsQueue } key nextEvent rejects

def putEventToTheQueue (s : ClientListenerExecutorDecorator K) (key : K)
    (ctx : MyClientEventContext K) : ClientListenerExecutorDecorator K :=
  match s.eventsQueue key with
  | none => { s with eventsQueue := Function.update s.eventsQueue key (some [ctx]) }
  | some existingEvents =>
      { s with
        eventsQueue :=
          Function.update s.eventsQueue key (some (optimizeQueue existingEvents ctx)) }

def submit (s : ClientListenerExecutorDecorator K) (event : MyClientEvent K)
    (rejects : Bool) : ClientListenerExecutorDecorator K :=
  let ctx : MyClientEventContext K := ⟨event, s.submissions.length⟩
  let s := { s with submissions := s.submissions ++ [event] }
  match s.eventsInProgress event.key with
  | none => s.submitImpl event.key ctx rejects
  | some _ => s.putEventToTheQueue event.key ctx

/-- The end of a task, by return or by exception: the `finally` block. -/
def finish (s : ClientListenerExecutorDecorator K) (i : Nat) (task : DecoratedRunnable K)
    (rejects : Bool) : ClientListenerExecutorDecorator K :=
  pollQueue
    { s with
      decorated := s.decorated.eraseIdx i
      eventsInProgress := Function.update s.eventsInProgress task.key none
      finished := s.finished ++ [task.context] }
    task.key rejects

end ClientListenerExecutorDecorator

/-- A call of `submit`, or the end of the `i`-th task of the executor.  In both the
executor may reject the task it is given. -/
inductive Label (K : Type) where
  | submit (event : ClientEvent K) (rejects : Bool)
  | complete (i : Nat) (rejects : Bool)
  deriving DecidableEq, Repr

def Label.rejects : Label K → Bool
  | .submit _ rejects => rejects
  | .complete _ rejects => rejects

def step [DecidableEq K] (s : ClientListenerExecutorDecorator K) :
    Label K → Option (ClientListenerExecutorDecorator K)
  | .submit event rejects => some (s.submit (convertIspnClientEvent event) rejects)
  | .complete i rejects =>
      match s.decorated[i]? with
      | none => none
      | some task => some (s.finish i task rejects)

def initial : ClientListenerExecutorDecorator K :=
  ⟨[], fun _ => none, fun _ => none, [], [], []⟩

end Code

/-! ## The loop over the queued events -/

section Loop

variable {K : Type} {myNewEvent : MyClientEventContext K}

/-- With `addd` off a round only steps over an event or removes it. -/
theorem modifiedLoop_terminates_of_not_addd (rounds i : Nat)
    (l : List (MyClientEventContext K)) (h : l.length - i < rounds) :
    ∃ result, modifiedLoop myNewEvent rounds i false l = some result := by
  induction rounds generalizing i l with
  | zero => omega
  | succ rounds ih =>
      cases hctx : l[i]? with
      | none => exact ⟨l, by simp [modifiedLoop, hctx]⟩
      | some ctx =>
          have hi : i < l.length := (List.getElem?_eq_some_iff.mp hctx).choose
          have herase : (l.eraseIdx i).length = l.length - 1 := List.length_eraseIdx_of_lt hi
          cases htype : ctx.event.type with
          | removed => exact ⟨l, by simp [modifiedLoop, hctx, htype]⟩
          | created => simpa [modifiedLoop, hctx, htype, addIf] using ih (i + 1) l (by omega)
          | modified =>
              by_cases hlt : ctx.event.version < myNewEvent.event.version
              · simpa [modifiedLoop, hctx, htype, hlt, addIf] using
                  ih (i + 1) (l.eraseIdx i) (by omega)
              · simpa [modifiedLoop, hctx, htype, hlt] using ih (i + 1) l (by omega)

/-- While `addd` holds, every round appends one event and leaves one of the old ones
behind; once only new events are ahead, the first of them ends `addd`. -/
theorem modifiedLoop_terminates_of_addd (hnew : myNewEvent.event.type = .modified)
    (rounds i j : Nat) (l old : List (MyClientEventContext K))
    (hl : l.drop i = old ++ List.replicate j myNewEvent) (h : 2 * old.length + j < rounds) :
    ∃ result, modifiedLoop myNewEvent rounds i true l = some result := by
  induction rounds generalizing i j l old with
  | zero => omega
  | succ rounds ih =>
      cases hctx : l[i]? with
      | none => exact ⟨l, by simp [modifiedLoop, hctx]⟩
      | some ctx =>
          have hi : i < l.length := (List.getElem?_eq_some_iff.mp hctx).choose
          have hcons : l.drop i = ctx :: l.drop (i + 1) := by
            rw [List.drop_eq_getElem_cons hi]
            rw [List.getElem?_eq_getElem hi, Option.some.injEq] at hctx
            rw [hctx]
          have hlength : l.length - i = old.length + j := by
            have := congrArg List.length hl
            simpa using this
          rw [hcons] at hl
          have hoff : ∃ result, modifiedLoop myNewEvent rounds (i + 1) false l = some result :=
            modifiedLoop_terminates_of_not_addd rounds (i + 1) l (by omega)
          cases old with
          | nil =>
              cases j with
              | zero => simp at hl
              | succ j =>
                  have hself : ctx = myNewEvent := (List.cons.inj hl).1
                  subst hself
                  simpa [modifiedLoop, hctx, hnew] using hoff
          | cons x old =>
              rw [List.cons_append, List.cons.injEq] at hl
              obtain ⟨rfl, hrest⟩ := hl
              simp only [List.length_cons] at h
              cases htype : ctx.event.type with
              | removed => exact ⟨l, by simp [modifiedLoop, hctx, htype]⟩
              | created =>
                  have hdrop : (l ++ [myNewEvent]).drop (i + 1) =
                      old ++ List.replicate (j + 1) myNewEvent := by
                    rw [List.drop_append_of_le_length (by omega), hrest, List.replicate_succ',
                      List.append_assoc]
                  simpa [modifiedLoop, hctx, htype, addIf] using
                    ih (i + 1) (j + 1) _ old hdrop (by omega)
              | modified =>
                  by_cases hlt : ctx.event.version < myNewEvent.event.version
                  · have herase : ((l.eraseIdx i) ++ [myNewEvent]).drop i =
                        old ++ List.replicate (j + 1) myNewEvent := by
                      rw [List.eraseIdx_eq_take_drop_succ, List.append_assoc,
                        List.drop_append_of_le_length (by simp; omega), hrest,
                        List.drop_eq_nil_of_le (List.length_take_le i l), List.replicate_succ']
                      simp
                    have hdrop : ((l.eraseIdx i) ++ [myNewEvent]).drop (i + 1) =
                        (old ++ List.replicate (j + 1) myNewEvent).drop 1 := by
                      rw [← herase, List.drop_drop]
                    cases old with
                    | nil =>
                        simpa [modifiedLoop, hctx, htype, hlt, addIf] using
                          ih (i + 1) j _ [] (by simpa [List.replicate_succ] using hdrop)
                            (by simp; omega)
                    | cons y old =>
                        simp only [List.length_cons] at h
                        simpa [modifiedLoop, hctx, htype, hlt, addIf] using
                          ih (i + 1) (j + 1) _ old (by simpa using hdrop) (by omega)
                  · simpa [modifiedLoop, hctx, htype, hlt] using hoff

theorem modifiedLoop_terminates (hnew : myNewEvent.event.type = .modified)
    (l : List (MyClientEventContext K)) :
    ∃ result, modifiedLoop myNewEvent (2 * l.length + 1) 0 true l = some result :=
  modifiedLoop_terminates_of_addd hnew _ 0 0 l l (by simp) (by omega)

/-- How the loop changes a queue: what is in it comes from the old queue or is the new
event, what it has lost is an older `MODIFIED` event, and some `MODIFIED` event is at
least as new as the new one. -/
structure Absorbs (myNewEvent : MyClientEventContext K)
    (old result : List (MyClientEventContext K)) : Prop where
  origin : ∀ ctx ∈ result, ctx ∈ old ∨ ctx = myNewEvent
  dropped : ∀ ctx ∈ old, ctx ∈ result ∨
    ctx.event.type = .modified ∧ ctx.event.version < myNewEvent.event.version
  covered : ∃ ctx ∈ result,
    ctx.event.type = .modified ∧ myNewEvent.event.version ≤ ctx.event.version

/-- The invariant of the rounds: before the first one `addd` holds, and after it the
queue is already as `Absorbs` says. -/
structure LoopInv (myNewEvent : MyClientEventContext K)
    (old : List (MyClientEventContext K)) (i : Nat) (addd : Bool)
    (l : List (MyClientEventContext K)) : Prop where
  origin : ∀ ctx ∈ l, ctx ∈ old ∨ ctx = myNewEvent
  dropped : ∀ ctx ∈ old, ctx ∈ l ∨
    ctx.event.type = .modified ∧ ctx.event.version < myNewEvent.event.version
  covered : (i = 0 ∧ addd = true) ∨ ∃ ctx ∈ l,
    ctx.event.type = .modified ∧ myNewEvent.event.version ≤ ctx.event.version

theorem subset_addIf (addd : Bool) (l : List (MyClientEventContext K)) :
    l ⊆ addIf addd myNewEvent l := by
  cases addd with
  | false => exact List.Subset.refl l
  | true => exact List.subset_append_left l [myNewEvent]

theorem mem_addIf {addd : Bool} {l : List (MyClientEventContext K)}
    {ctx : MyClientEventContext K} (h : ctx ∈ addIf addd myNewEvent l) :
    ctx ∈ l ∨ ctx = myNewEvent := by
  cases addd with
  | false => exact .inl h
  | true => simpa [addIf] using h

/-- A round that removes nothing that counts and appends the event while `addd` holds. -/
theorem LoopInv.add {old l l' : List (MyClientEventContext K)} {i : Nat} {addd : Bool}
    (hnew : myNewEvent.event.type = .modified) (h : LoopInv myNewEvent old i addd l)
    (hsub : l' ⊆ l)
    (hlost : ∀ ctx ∈ l, ctx ∈ l' ∨
      ctx.event.type = .modified ∧ ctx.event.version < myNewEvent.event.version) :
    LoopInv myNewEvent old (i + 1) addd (addIf addd myNewEvent l') := by
  refine ⟨?_, ?_, .inr ?_⟩
  · intro ctx hctx
    rcases mem_addIf hctx with hl | rfl
    · exact h.origin ctx (hsub hl)
    · exact .inr rfl
  · intro ctx hctx
    rcases h.dropped ctx hctx with hl | hold
    · exact (hlost ctx hl).imp_left fun hmem => subset_addIf addd l' hmem
    · exact .inr hold
  · cases addd with
    | true => exact ⟨myNewEvent, by simp [addIf], hnew, Int.le_refl _⟩
    | false =>
        rcases h.covered with ⟨-, hfalse⟩ | ⟨ctx, hctx, htype, hle⟩
        · cases hfalse
        · rcases hlost ctx hctx with hmem | ⟨-, hlt⟩
          · exact ⟨ctx, hmem, htype, hle⟩
          · omega

theorem modifiedLoop_absorbs (hnew : myNewEvent.event.type = .modified)
    {old : List (MyClientEventContext K)} (hne : old ≠ [])
    (hold : ∀ ctx ∈ old, ctx.event.type ≠ .removed)
    (rounds i : Nat) (addd : Bool) (l result : List (MyClientEventContext K))
    (hinv : LoopInv myNewEvent old i addd l) (hl : i = 0 → l = old)
    (h : modifiedLoop myNewEvent rounds i addd l = some result) :
    Absorbs myNewEvent old result := by
  induction rounds generalizing i addd l with
  | zero => cases h
  | succ rounds ih =>
      have hi : i + 1 = 0 → ∀ l' : List (MyClientEventContext K), l' = old := by omega
      cases hctx : l[i]? with
      | none =>
          simp only [modifiedLoop, hctx, Option.some.injEq] at h
          subst h
          refine ⟨hinv.origin, hinv.dropped, hinv.covered.resolve_left ?_⟩
          rintro ⟨rfl, -⟩
          rw [hl rfl] at hctx
          cases old with
          | nil => exact hne rfl
          | cons x old => simp at hctx
      | some ctx =>
          have hmem : ctx ∈ l := List.mem_of_getElem? hctx
          cases htype : ctx.event.type with
          | removed =>
              rcases hinv.origin ctx hmem with hin | rfl
              · exact absurd htype (hold ctx hin)
              · rw [hnew] at htype
                cases htype
          | created =>
              simp only [modifiedLoop, hctx, htype] at h
              exact ih (i + 1) addd _
                (hinv.add hnew (List.Subset.refl l) fun _ hx => .inl hx)
                (fun h0 => hi h0 _) h
          | modified =>
              by_cases hlt : ctx.event.version < myNewEvent.event.version
              · simp only [modifiedLoop, hctx, htype, hlt, if_true] at h
                refine ih (i + 1) addd _ (hinv.add hnew
                  (fun x hx => List.mem_of_mem_eraseIdx hx) ?_) (fun h0 => hi h0 _) h
                intro x hx
                obtain ⟨j, hj⟩ := List.mem_iff_getElem?.mp hx
                by_cases hji : j = i
                · subst hji
                  rw [hctx, Option.some.injEq] at hj
                  subst hj
                  exact .inr ⟨htype, hlt⟩
                · exact .inl (List.mem_eraseIdx_iff_getElem?.mpr ⟨j, hji, hj⟩)
              · simp only [modifiedLoop, hctx, htype, hlt, if_false] at h
                exact ih (i + 1) false l ⟨hinv.origin, hinv.dropped,
                  .inr ⟨ctx, hmem, htype, by omega⟩⟩ (fun h0 => hi h0 _) h

theorem optimizeQueue_absorbs (hnew : myNewEvent.event.type = .modified)
    {old : List (MyClientEventContext K)} (hne : old ≠ [])
    (hold : ∀ ctx ∈ old, ctx.event.type ≠ .removed) :
    Absorbs myNewEvent old (optimizeQueue old myNewEvent) := by
  obtain ⟨result, hresult⟩ := modifiedLoop_terminates hnew old
  have heq : optimizeQueue old myNewEvent = result := by
    simp [optimizeQueue, hnew, hresult]
  rw [heq]
  exact modifiedLoop_absorbs hnew hne hold _ 0 true old result
    ⟨fun _ h => .inl h, fun _ h => .inl h, .inl ⟨rfl, rfl⟩⟩ (fun _ => rfl) hresult

end Loop

/-! ## One queue -/

section Queue

variable {K : Type}

/-- A queue of the map: not empty, of one key, and with nothing beside a `REMOVED`. -/
structure QueueOf (key : K) (events : List (MyClientEventContext K)) : Prop where
  ne_nil : events ≠ []
  keys : ∀ ctx ∈ events, ctx.event.key = key
  removed_alone : ∀ ctx ∈ events, ctx.event.type = .removed → events = [ctx]

theorem QueueOf.singleton {key : K} {ctx : MyClientEventContext K}
    (hkey : ctx.event.key = key) : QueueOf key [ctx] := by
  refine ⟨by simp, ?_, ?_⟩
  · intro x hx
    rw [List.mem_singleton.mp hx, hkey]
  · intro x hx _
    rw [List.mem_singleton.mp hx]

theorem QueueOf.of_no_removed {key : K} {events : List (MyClientEventContext K)}
    (hne : events ≠ []) (hkeys : ∀ ctx ∈ events, ctx.event.key = key)
    (h : ∀ ctx ∈ events, ctx.event.type ≠ .removed) : QueueOf key events :=
  ⟨hne, hkeys, fun ctx hctx htype => absurd htype (h ctx hctx)⟩

theorem QueueOf.tail {key : K} {ctx : MyClientEventContext K}
    {events : List (MyClientEventContext K)} (h : QueueOf key (ctx :: events))
    (hne : events ≠ []) : QueueOf key events := by
  refine .of_no_removed hne (fun x hx => h.keys x (List.mem_cons_of_mem ctx hx)) ?_
  intro x hx htype
  have halone := h.removed_alone x (List.mem_cons_of_mem ctx hx) htype
  exact hne (List.cons.inj halone).2

/-- `ctx'` makes `ctx` unnecessary: it belongs to another `submit` call for the key and
is a removal or a modification of at least the version. -/
structure Supersedes (ctx' ctx : MyClientEventContext K) : Prop where
  key : ctx'.event.key = ctx.event.key
  other : ctx'.r ≠ ctx.r
  newer : ctx'.event.type = .removed ∨
    ctx'.event.type = .modified ∧ ctx.event.version ≤ ctx'.event.version

/-- The contexts of a queue belong to `submit` calls made so far. -/
def Known (submissions : List (MyClientEvent K)) (ctx : MyClientEventContext K) : Prop :=
  submissions[ctx.r]? = some ctx.event

theorem Known.r_ne {submissions : List (MyClientEvent K)} {ctx ctx' : MyClientEventContext K}
    (h : Known submissions ctx) (h' : Known submissions ctx') (hne : ctx'.event ≠ ctx.event) :
    ctx'.r ≠ ctx.r := by
  intro hr
  unfold Known at h h'
  rw [hr, h, Option.some.injEq] at h'
  exact hne h'.symm

theorem Known.append {submissions : List (MyClientEvent K)} {ctx : MyClientEventContext K}
    (h : Known submissions ctx) (event : MyClientEvent K) :
    Known (submissions ++ [event]) ctx := by
  have hlt : ctx.r < submissions.length := (List.getElem?_eq_some_iff.mp h).choose
  unfold Known
  rw [List.getElem?_append_left hlt]
  exact h

theorem Known.r_lt {submissions : List (MyClientEvent K)} {ctx : MyClientEventContext K}
    (h : Known submissions ctx) : ctx.r < submissions.length :=
  (List.getElem?_eq_some_iff.mp h).choose

/-- Queueing an event behind others: the queue stays one, nothing comes from elsewhere,
and a `MODIFIED` event that is not in it is superseded by one that is. -/
structure Optimizes (key : K) (old result : List (MyClientEventContext K))
    (myNewEvent : MyClientEventContext K) : Prop where
  queueOf : QueueOf key result
  origin : ∀ ctx ∈ result, ctx ∈ old ∨ ctx = myNewEvent
  superseded : ∀ ctx, ctx ∈ old ∨ ctx = myNewEvent → ctx.event.type = .modified →
    ctx ∈ result ∨ ∃ ctx' ∈ result, Supersedes ctx' ctx

variable {key : K} {old : List (MyClientEventContext K)} {myNewEvent : MyClientEventContext K}

/-- A queued `REMOVED` swallows the events that follow it. -/
theorem Optimizes.of_removed_queued {removed : MyClientEventContext K}
    (hkey : removed.event.key = key) (hnewKey : myNewEvent.event.key = key)
    (hother : removed.r ≠ myNewEvent.r) (htype : removed.event.type = .removed) :
    Optimizes key [removed] [removed] myNewEvent := by
  refine ⟨.singleton hkey, fun _ h => .inl h, ?_⟩
  rintro ctx (hctx | rfl) -
  · exact .inl hctx
  · exact .inr ⟨removed, List.mem_singleton_self removed,
      hkey.trans hnewKey.symm, hother, .inl htype⟩

/-- A new `REMOVED` event is all that is kept. -/
theorem Optimizes.of_removed_new (hold : QueueOf key old) (hnewKey : myNewEvent.event.key = key)
    (hother : ∀ ctx ∈ old, ctx.r ≠ myNewEvent.r) (htype : myNewEvent.event.type = .removed) :
    Optimizes key old [myNewEvent] myNewEvent := by
  refine ⟨.singleton hnewKey, fun _ h => .inr (List.mem_singleton.mp h), ?_⟩
  rintro ctx (hctx | rfl) -
  · exact .inr ⟨myNewEvent, List.mem_singleton_self myNewEvent,
      hnewKey.trans (hold.keys ctx hctx).symm, fun h => hother ctx hctx h.symm, .inl htype⟩
  · exact .inl (List.mem_singleton_self ctx)

/-- A queue without a `REMOVED` absorbs a `MODIFIED` event. -/
theorem Optimizes.of_absorbs {result : List (MyClientEventContext K)} (hold : QueueOf key old)
    (hnewKey : myNewEvent.event.key = key) (hnew : myNewEvent.event.type = .modified)
    (hno : ∀ ctx ∈ old, ctx.event.type ≠ .removed)
    {submissions : List (MyClientEvent K)} (hknown : ∀ ctx ∈ old, Known submissions ctx)
    (hr : myNewEvent.r = submissions.length) (h : Absorbs myNewEvent old result) :
    Optimizes key old result myNewEvent := by
  have hother : ∀ ctx ∈ old, ctx.r ≠ myNewEvent.r := by
    intro ctx hctx
    have := (hknown ctx hctx).r_lt
    omega
  have hkeys : ∀ ctx ∈ result, ctx.event.key = key := by
    intro ctx hctx
    rcases h.origin ctx hctx with hin | rfl
    · exact hold.keys ctx hin
    · exact hnewKey
  have hnoResult : ∀ ctx ∈ result, ctx.event.type ≠ .removed := by
    intro ctx hctx
    rcases h.origin ctx hctx with hin | rfl
    · exact hno ctx hin
    · simp [hnew]
  obtain ⟨top, htop, htopType, hle⟩ := h.covered
  refine ⟨.of_no_removed (List.ne_nil_of_mem htop) hkeys hnoResult, h.origin, ?_⟩
  rintro ctx (hctx | rfl) -
  · rcases h.dropped ctx hctx with hmem | ⟨-, hlt⟩
    · exact .inl hmem
    · refine .inr ⟨top, htop, (hkeys top htop).trans (hold.keys ctx hctx).symm, ?_,
        .inr ⟨htopType, by omega⟩⟩
      rcases h.origin top htop with hin | rfl
      · refine (hknown ctx hctx).r_ne (hknown top hin) ?_
        intro heq
        rw [heq] at hle
        omega
      · exact fun hr => hother ctx hctx hr.symm
  · rcases h.origin top htop with hin | rfl
    · exact .inr ⟨top, htop, (hkeys top htop).trans hnewKey.symm, hother top hin,
        .inr ⟨htopType, hle⟩⟩
    · exact .inl htop

theorem optimizeQueue_optimizes (hold : QueueOf key old) (hnewKey : myNewEvent.event.key = key)
    {submissions : List (MyClientEvent K)} (hknown : ∀ ctx ∈ old, Known submissions ctx)
    (hr : myNewEvent.r = submissions.length) :
    Optimizes key old (optimizeQueue old myNewEvent) myNewEvent := by
  have hother : ∀ ctx ∈ old, ctx.r ≠ myNewEvent.r := by
    intro ctx hctx
    have := (hknown ctx hctx).r_lt
    omega
  cases hnew : myNewEvent.event.type with
  | removed =>
      have heq : optimizeQueue old myNewEvent = [myNewEvent] := by simp [optimizeQueue, hnew]
      rw [heq]
      exact .of_removed_new hold hnewKey hother hnew
  | created =>
      by_cases hany : ∃ ctx ∈ old, ctx.event.type = .removed ∨ ctx.event.type = .created
      · have heq : optimizeQueue old myNewEvent = old := by
          simp only [optimizeQueue, hnew, List.any_eq_true, decide_eq_true_eq]
          exact if_pos hany
        rw [heq]
        refine ⟨hold, fun _ h => .inl h, ?_⟩
        rintro ctx (hctx | rfl) htype
        · exact .inl hctx
        · rw [hnew] at htype
          cases htype
      · have heq : optimizeQueue old myNewEvent = myNewEvent :: old := by
          simp only [optimizeQueue, hnew, List.any_eq_true, decide_eq_true_eq]
          exact if_neg hany
        rw [heq]
        refine ⟨.of_no_removed (by simp) ?_ ?_, ?_, ?_⟩
        · intro ctx hctx
          rcases List.mem_cons.mp hctx with rfl | hin
          · exact hnewKey
          · exact hold.keys ctx hin
        · intro ctx hctx htype
          rcases List.mem_cons.mp hctx with rfl | hin
          · rw [hnew] at htype
            cases htype
          · exact hany ⟨ctx, hin, .inl htype⟩
        · intro ctx hctx
          exact (List.mem_cons.mp hctx).symm
        · rintro ctx hctx -
          exact .inl (List.mem_cons.mpr hctx.symm)
  | modified =>
      by_cases hremoved : ∃ ctx ∈ old, ctx.event.type = .removed
      · obtain ⟨ctx, hctx, htype⟩ := hremoved
        have halone := hold.removed_alone ctx hctx htype
        have heq : optimizeQueue old myNewEvent = old := by
          simp [halone, optimizeQueue, hnew, modifiedLoop, htype]
        rw [heq, halone]
        exact .of_removed_queued (hold.keys ctx hctx) hnewKey (hother ctx hctx) htype
      · have hno : ∀ ctx ∈ old, ctx.event.type ≠ .removed :=
          fun ctx hctx htype => hremoved ⟨ctx, hctx, htype⟩
        exact .of_absorbs hold hnewKey hnew hno hknown hr
          (optimizeQueue_absorbs hnew hold.ne_nil hno)

end Queue

/-! ## The invariant of the decorator -/

section Invariant

variable {K : Type} [DecidableEq K]

/-- The invariant.  `free` is a key whose task has just ended and whose queue has not
been polled yet; outside the lock there is none. -/
structure Serialised (free : Option K) (s : ClientListenerExecutorDecorator K) : Prop where
  nodup : (s.decorated.map (·.key)).Nodup
  inProgress : ∀ key event, s.eventsInProgress key = some event ↔
    ∃ task ∈ s.decorated, task.key = key ∧ task.context.event = event
  taskKey : ∀ task ∈ s.decorated, task.context.event.key = task.key
  taskKnown : ∀ task ∈ s.decorated, Known s.submissions task.context
  queueOf : ∀ key events, s.eventsQueue key = some events → QueueOf key events
  queueBusy : ∀ key events, s.eventsQueue key = some events → free ≠ some key →
    ∃ event, s.eventsInProgress key = some event
  queueKnown : ∀ key events, s.eventsQueue key = some events →
    ∀ ctx ∈ events, Known s.submissions ctx
  thrown : s.thrown = []

omit [DecidableEq K] in
theorem initial_serialised : Serialised none (initial : ClientListenerExecutorDecorator K) := by
  constructor <;> simp [initial]

variable {s : ClientListenerExecutorDecorator K} {free : Option K} {key : K}
  {ctx : MyClientEventContext K}

omit [DecidableEq K] in
theorem Serialised.mono (h : Serialised none s) (key : K) : Serialised (some key) s :=
  { h with queueBusy := fun key' events hqueue _ => h.queueBusy key' events hqueue (by simp) }

omit [DecidableEq K] in
/-- The number of submissions grows; what is known stays known. -/
theorem Serialised.submitted (h : Serialised free s) (event : MyClientEvent K) :
    Serialised free { s with submissions := s.submissions ++ [event] } :=
  { h with
    taskKnown := fun task htask => (h.taskKnown task htask).append event
    queueKnown := fun key events hqueue ctx hctx =>
      (h.queueKnown key events hqueue ctx hctx).append event }

omit [DecidableEq K] in
theorem Serialised.not_busy (h : Serialised free s) (hfree : s.eventsInProgress key = none)
    {task : DecoratedRunnable K} (htask : task ∈ s.decorated) : task.key ≠ key := by
  intro hkey
  have hsome := (h.inProgress key task.context.event).mpr ⟨task, htask, hkey, rfl⟩
  rw [hfree] at hsome
  cases hsome

theorem Serialised.submitImpl (h : Serialised (some key) s)
    (hfree : s.eventsInProgress key = none) (hkey : ctx.event.key = key)
    (hknown : Known s.submissions ctx) :
    Serialised none (s.submitImpl key ctx false) := by
  have hdecorated : (s.submitImpl key ctx false).decorated = s.decorated ++ [⟨key, ctx⟩] := rfl
  refine
    { nodup := ?_, inProgress := ?_, taskKey := ?_, taskKnown := ?_, queueOf := h.queueOf,
      queueBusy := ?_, queueKnown := h.queueKnown, thrown := h.thrown }
  · rw [hdecorated, List.map_append, List.nodup_append]
    refine ⟨h.nodup, by simp, ?_⟩
    intro k hk k' hk'
    obtain ⟨task, htask, rfl⟩ := List.mem_map.mp hk
    rw [List.map_singleton, List.mem_singleton] at hk'
    rw [hk']
    exact h.not_busy hfree htask
  · intro key' event
    rw [hdecorated]
    by_cases hk : key' = key
    · subst hk
      have hnone : ∀ task ∈ s.decorated, task.key ≠ key' :=
        fun task htask => h.not_busy hfree htask
      simp only [ClientListenerExecutorDecorator.submitImpl, Bool.false_eq_true, if_false,
        Function.update_self, List.mem_append, List.mem_singleton, Option.some.injEq]
      constructor
      · intro hevent
        exact ⟨⟨key', ctx⟩, .inr rfl, rfl, hevent⟩
      · rintro ⟨task, htask | rfl, hkey', hevent⟩
        · exact absurd hkey' (hnone task htask)
        · exact hevent
    · simp only [ClientListenerExecutorDecorator.submitImpl, Bool.false_eq_true, if_false,
        Function.update_of_ne hk, List.mem_append, List.mem_singleton, h.inProgress]
      constructor
      · rintro ⟨task, htask, hkey', hevent⟩
        exact ⟨task, .inl htask, hkey', hevent⟩
      · rintro ⟨task, htask | rfl, hkey', hevent⟩
        · exact ⟨task, htask, hkey', hevent⟩
        · exact absurd hkey'.symm hk
  · intro task htask
    rw [hdecorated, List.mem_append, List.mem_singleton] at htask
    rcases htask with htask | rfl
    · exact h.taskKey task htask
    · exact hkey
  · intro task htask
    rw [hdecorated, List.mem_append, List.mem_singleton] at htask
    rcases htask with htask | rfl
    · exact h.taskKnown task htask
    · exact hknown
  · intro key' events hqueue _
    by_cases hk : key' = key
    · exact ⟨ctx.event, by simp [ClientListenerExecutorDecorator.submitImpl, hk]⟩
    · obtain ⟨event, hevent⟩ := h.queueBusy key' events hqueue (by simpa using fun h => hk h.symm)
      exact ⟨event, by simp [ClientListenerExecutorDecorator.submitImpl, hk, hevent]⟩

theorem Serialised.setQueue (h : Serialised free s)
    {queue : Option (List (MyClientEventContext K))}
    (hqueueOf : ∀ events, queue = some events → QueueOf key events)
    (hbusy : free = some key ∨ ∃ event, s.eventsInProgress key = some event)
    (hknown : ∀ events, queue = some events → ∀ ctx ∈ events, Known s.submissions ctx) :
    Serialised free { s with eventsQueue := Function.update s.eventsQueue key queue } := by
  have hcases : ∀ key' events, Function.update s.eventsQueue key queue key' = some events →
      key' = key ∧ queue = some events ∨ s.eventsQueue key' = some events := by
    intro key' events hqueue
    by_cases hk : key' = key
    · subst hk
      rw [Function.update_self] at hqueue
      exact .inl ⟨rfl, hqueue⟩
    · rw [Function.update_of_ne hk] at hqueue
      exact .inr hqueue
  refine { h with queueOf := ?_, queueBusy := ?_, queueKnown := ?_ }
  · intro key' events hqueue
    rcases hcases key' events hqueue with ⟨rfl, hnew⟩ | hold
    · exact hqueueOf events hnew
    · exact h.queueOf key' events hold
  · intro key' events hqueue hfree
    rcases hcases key' events hqueue with ⟨rfl, -⟩ | hold
    · exact hbusy.resolve_left hfree
    · exact h.queueBusy key' events hold hfree
  · intro key' events hqueue
    rcases hcases key' events hqueue with ⟨rfl, hnew⟩ | hold
    · exact hknown events hnew
    · exact h.queueKnown key' events hold

theorem Serialised.pollQueue (h : Serialised (some key) s)
    (hfree : s.eventsInProgress key = none) : Serialised none (s.pollQueue key false) := by
  unfold ClientListenerExecutorDecorator.pollQueue
  cases hqueue : s.eventsQueue key with
  | none =>
      refine { h with queueBusy := ?_ }
      intro key' events hqueue' _
      refine h.queueBusy key' events hqueue' ?_
      rintro heq
      cases heq
      rw [hqueue] at hqueue'
      cases hqueue'
  | some events =>
      have hqueueOf := h.queueOf key events hqueue
      have hknown := h.queueKnown key events hqueue
      cases events with
      | nil => exact absurd rfl hqueueOf.ne_nil
      | cons nextEvent events =>
          refine Serialised.submitImpl (h.setQueue ?_ (.inl rfl) ?_) hfree
            (hqueueOf.keys nextEvent List.mem_cons_self) (hknown nextEvent List.mem_cons_self)
          · intro events' hevents'
            cases events with
            | nil => cases hevents'
            | cons x rest =>
                cases hevents'
                exact hqueueOf.tail (by simp)
          · intro events' hevents' ctx hctx
            cases events with
            | nil => cases hevents'
            | cons x rest =>
                cases hevents'
                exact hknown ctx (List.mem_cons_of_mem nextEvent hctx)

theorem Serialised.putEventToTheQueue (h : Serialised none s) {event : MyClientEvent K}
    (hbusy : s.eventsInProgress key = some event) (hkey : ctx.event.key = key)
    {submissions : List (MyClientEvent K)}
    (hsub : s.submissions = submissions ++ [ctx.event]) (hr : ctx.r = submissions.length)
    (hknown : ∀ events, s.eventsQueue key = some events → ∀ c ∈ events, Known submissions c) :
    Serialised none (s.putEventToTheQueue key ctx) := by
  have hctx : Known s.submissions ctx := by simp [Known, hsub, hr]
  unfold ClientListenerExecutorDecorator.putEventToTheQueue
  cases hqueue : s.eventsQueue key with
  | none =>
      refine h.setQueue ?_ (.inr ⟨event, hbusy⟩) ?_
      · rintro events ⟨⟩
        exact .singleton hkey
      · rintro events ⟨⟩ c hc
        exact (List.mem_singleton.mp hc) ▸ hctx
  | some existingEvents =>
      have hopt := optimizeQueue_optimizes (h.queueOf key existingEvents hqueue) hkey
        (hknown existingEvents hqueue) hr
      refine h.setQueue ?_ (.inr ⟨event, hbusy⟩) ?_
      · rintro events ⟨⟩
        exact hopt.queueOf
      · rintro events ⟨⟩ c hc
        rcases hopt.origin c hc with hold | rfl
        · exact h.queueKnown key existingEvents hqueue c hold
        · exact hctx

theorem Serialised.submit (h : Serialised none s) (event : MyClientEvent K) :
    Serialised none (s.submit event false) := by
  have hsub := h.submitted event
  unfold ClientListenerExecutorDecorator.submit
  cases hbusy : s.eventsInProgress event.key with
  | none =>
      simp only [hbusy]
      exact (hsub.mono event.key).submitImpl hbusy rfl (by simp [Known])
  | some other =>
      simp only [hbusy]
      exact hsub.putEventToTheQueue hbusy rfl rfl rfl (h.queueKnown event.key)

theorem Serialised.ended (h : Serialised none s) {i : Nat} {task : DecoratedRunnable K}
    (htask : s.decorated[i]? = some task) :
    Serialised (some task.key)
      { s with
        decorated := s.decorated.eraseIdx i
        eventsInProgress := Function.update s.eventsInProgress task.key none
        finished := s.finished ++ [task.context] } := by
  have hrest : ∀ t, t ∈ s.decorated.eraseIdx i ↔ t ∈ s.decorated ∧ t.key ≠ task.key := by
    intro t
    rw [List.mem_eraseIdx_iff_getElem?]
    constructor
    · rintro ⟨j, hji, hj⟩
      refine ⟨List.mem_of_getElem? hj, fun hkey => hji ?_⟩
      have hlt : j < (s.decorated.map (·.key)).length := by
        rw [List.length_map]
        exact (List.getElem?_eq_some_iff.mp hj).choose
      exact (List.getElem?_inj hlt h.nodup).mp (by simp [hj, htask, hkey])
    · rintro ⟨ht, hkey⟩
      obtain ⟨j, hj⟩ := List.mem_iff_getElem?.mp ht
      refine ⟨j, ?_, hj⟩
      rintro rfl
      rw [htask, Option.some.injEq] at hj
      exact hkey (by rw [hj])
  refine
    { nodup := ?_, inProgress := ?_, taskKey := ?_, taskKnown := ?_, queueOf := h.queueOf,
      queueBusy := ?_, queueKnown := h.queueKnown, thrown := h.thrown }
  · exact h.nodup.sublist ((List.eraseIdx_sublist s.decorated i).map _)
  · intro key' event
    by_cases hk : key' = task.key
    · subst hk
      simp only [Function.update_self, hrest, reduceCtorEq, false_iff]
      rintro ⟨t, ⟨-, hne⟩, hkey, -⟩
      exact hne hkey
    · simp only [Function.update_of_ne hk, h.inProgress, hrest]
      constructor
      · rintro ⟨t, ht, rfl, hevent⟩
        exact ⟨t, ⟨ht, hk⟩, rfl, hevent⟩
      · rintro ⟨t, ⟨ht, -⟩, hkey, hevent⟩
        exact ⟨t, ht, hkey, hevent⟩
  · intro t ht
    exact h.taskKey t ((hrest t).mp ht).1
  · intro t ht
    exact h.taskKnown t ((hrest t).mp ht).1
  · intro key' events hqueue hfree
    have hk : key' ≠ task.key := fun heq => hfree (by rw [heq])
    simpa [Function.update_of_ne hk] using h.queueBusy key' events hqueue (by simp)

theorem Serialised.finish (h : Serialised none s) {i : Nat} {task : DecoratedRunnable K}
    (htask : s.decorated[i]? = some task) : Serialised none (s.finish i task false) :=
  (h.ended htask).pollQueue (by simp)

theorem step_cases {s t : ClientListenerExecutorDecorator K} {label : Label K}
    (hlabel : label.rejects = false) (hstep : step s label = some t) :
    (∃ event, label = .submit event false ∧ t = s.submit (convertIspnClientEvent event) false) ∨
    ∃ i task, label = .complete i false ∧ s.decorated[i]? = some task ∧
      t = s.finish i task false := by
  cases label with
  | submit event rejects =>
      cases hlabel
      cases hstep
      exact .inl ⟨event, rfl, rfl⟩
  | complete i rejects =>
      cases hlabel
      cases htask : s.decorated[i]? with
      | none => simp [step, htask] at hstep
      | some task =>
          simp only [step, htask, Option.some.injEq] at hstep
          exact .inr ⟨i, task, rfl, htask, hstep.symm⟩

theorem step_serialised {s t : ClientListenerExecutorDecorator K} {label : Label K}
    (h : Serialised none s) (hlabel : label.rejects = false) (hstep : step s label = some t) :
    Serialised none t := by
  rcases step_cases hlabel hstep with ⟨event, -, rfl⟩ | ⟨i, task, -, htask, rfl⟩
  · exact h.submit _
  · exact h.finish htask

end Invariant

/-! ## No modification is lost -/

section Runs

variable {K : Type} [DecidableEq K]

namespace ClientListenerExecutorDecorator

def Running (s : ClientListenerExecutorDecorator K) (ctx : MyClientEventContext K) : Prop :=
  ∃ task ∈ s.decorated, task.context = ctx

def Queued (s : ClientListenerExecutorDecorator K) (ctx : MyClientEventContext K) : Prop :=
  ∃ events, s.eventsQueue ctx.event.key = some events ∧ ctx ∈ events

def Held (s : ClientListenerExecutorDecorator K) (ctx : MyClientEventContext K) : Prop :=
  s.Running ctx ∨ ctx ∈ s.finished ∨ s.Queued ctx

end ClientListenerExecutorDecorator

variable {s : ClientListenerExecutorDecorator K} {ctx ctx' : MyClientEventContext K} {key : K}

theorem held_submitImpl (h : s.Held ctx ∨ ctx = ctx') :
    (s.submitImpl key ctx' false).Held ctx := by
  rcases h with (⟨task, htask, hctx⟩ | hfinished | hqueued) | rfl
  · exact .inl ⟨task, List.mem_append_left _ htask, hctx⟩
  · exact .inr (.inl hfinished)
  · exact .inr (.inr hqueued)
  · exact .inl ⟨⟨key, ctx⟩, List.mem_append_right _ (List.mem_singleton_self _), rfl⟩

theorem held_pollQueue {free : Option K} (hs : Serialised free s) (h : s.Held ctx) :
    (s.pollQueue key false).Held ctx := by
  unfold ClientListenerExecutorDecorator.pollQueue
  cases hqueue : s.eventsQueue key with
  | none => exact h
  | some events =>
      have hqueueOf := hs.queueOf key events hqueue
      cases events with
      | nil => exact absurd rfl hqueueOf.ne_nil
      | cons nextEvent events =>
          refine held_submitImpl ?_
          rcases h with hrunning | hfinished | ⟨events', hevents', hctx⟩
          · exact .inl (.inl hrunning)
          · exact .inl (.inr (.inl hfinished))
          · by_cases hk : ctx.event.key = key
            · rw [hk, hqueue, Option.some.injEq] at hevents'
              subst hevents'
              rcases List.mem_cons.mp hctx with rfl | hrest
              · exact .inr rfl
              · refine .inl (.inr (.inr ⟨events, ?_, hrest⟩))
                have hne : events.isEmpty = false := by
                  simpa using List.ne_nil_of_mem hrest
                simp [hk, hne]
            · exact .inl (.inr (.inr ⟨events', by simp [Function.update_of_ne hk, hevents'],
                hctx⟩))

/-- When an event is queued, every `MODIFIED` event held before, and the new one, is
held afterwards or superseded by a queued event. -/
theorem held_putEventToTheQueue (hs : Serialised none s) (hkey : ctx'.event.key = key)
    {submissions : List (MyClientEvent K)} (hr : ctx'.r = submissions.length)
    (hknown : ∀ events, s.eventsQueue key = some events → ∀ c ∈ events, Known submissions c)
    (htype : ctx.event.type = .modified) (h : s.Held ctx ∨ ctx = ctx') :
    (s.putEventToTheQueue key ctx').Held ctx ∨
      ∃ c, (s.putEventToTheQueue key ctx').Queued c ∧ Supersedes c ctx := by
  unfold ClientListenerExecutorDecorator.putEventToTheQueue
  cases hqueue : s.eventsQueue key with
  | none =>
      left
      rcases h with (hrunning | hfinished | ⟨events, hevents, hctx⟩) | rfl
      · exact .inl hrunning
      · exact .inr (.inl hfinished)
      · have hk : ctx.event.key ≠ key := by
          intro hk
          rw [hk, hqueue] at hevents
          cases hevents
        exact .inr (.inr ⟨events, by simp [Function.update_of_ne hk, hevents], hctx⟩)
      · exact .inr (.inr ⟨[ctx], by simp [hkey], List.mem_singleton_self ctx⟩)
  | some existingEvents =>
      have hopt := optimizeQueue_optimizes (hs.queueOf key existingEvents hqueue) hkey
        (hknown existingEvents hqueue) hr
      -- an event of the queue that was rewritten
      have hrewritten : ctx.event.key = key → ctx ∈ existingEvents ∨ ctx = ctx' →
          (s.putEventToTheQueue key ctx').Held ctx ∨
            ∃ c, (s.putEventToTheQueue key ctx').Queued c ∧ Supersedes c ctx := by
        intro hk hctx
        unfold ClientListenerExecutorDecorator.putEventToTheQueue
        rw [hqueue]
        rcases hopt.superseded ctx hctx htype with hmem | ⟨c, hc, hsup⟩
        · exact .inl (.inr (.inr ⟨_, by simp only [hk, Function.update_self], hmem⟩))
        · exact .inr ⟨c, ⟨_, by simp only [hsup.key, hk, Function.update_self], hc⟩, hsup⟩
      unfold ClientListenerExecutorDecorator.putEventToTheQueue at hrewritten
      rw [hqueue] at hrewritten
      rcases h with (hrunning | hfinished | ⟨events, hevents, hctx⟩) | rfl
      · exact .inl (.inl hrunning)
      · exact .inl (.inr (.inl hfinished))
      · by_cases hk : ctx.event.key = key
        · rw [hk, hqueue, Option.some.injEq] at hevents
          subst hevents
          exact hrewritten hk (.inl hctx)
        · exact .inl (.inr (.inr
            ⟨events, by simp only [Function.update_of_ne hk, hevents], hctx⟩))
      · exact hrewritten hkey (.inr rfl)

/-- A `submit` call keeps the `MODIFIED` events held before and its own. -/
theorem held_submit (hs : Serialised none s) (event : MyClientEvent K)
    (htype : ctx.event.type = .modified)
    (h : s.Held ctx ∨ ctx = ⟨event, s.submissions.length⟩) :
    (s.submit event false).Held ctx ∨
      ∃ c, (s.submit event false).Queued c ∧ Supersedes c ctx := by
  have hsub := hs.submitted event
  unfold ClientListenerExecutorDecorator.submit
  cases hbusy : s.eventsInProgress event.key with
  | none =>
      simp only [hbusy]
      exact .inl (held_submitImpl h)
  | some other =>
      simp only [hbusy]
      exact held_putEventToTheQueue hsub rfl rfl (hs.queueKnown event.key) htype h

theorem held_finish (hs : Serialised none s) {i : Nat} {task : DecoratedRunnable K}
    (htask : s.decorated[i]? = some task) (h : s.Held ctx) :
    (s.finish i task false).Held ctx := by
  refine held_pollQueue (hs.ended htask) ?_
  rcases h with ⟨other, hother, rfl⟩ | hfinished | hqueued
  · obtain ⟨j, hj⟩ := List.mem_iff_getElem?.mp hother
    by_cases hji : j = i
    · subst hji
      rw [htask, Option.some.injEq] at hj
      subst hj
      exact .inr (.inl (List.mem_append_right _ (List.mem_singleton_self _)))
    · exact .inl ⟨other, List.mem_eraseIdx_iff_getElem?.mpr ⟨j, hji, hj⟩, rfl⟩
  · exact .inr (.inl (List.mem_append_left _ hfinished))
  · exact .inr (.inr hqueued)

theorem step_held {t : ClientListenerExecutorDecorator K} {label : Label K}
    (hs : Serialised none s) (hlabel : label.rejects = false) (hstep : step s label = some t)
    (htype : ctx.event.type = .modified) (h : s.Held ctx) :
    t.Held ctx ∨ ∃ c, t.Queued c ∧ Supersedes c ctx := by
  rcases step_cases hlabel hstep with ⟨event, -, rfl⟩ | ⟨i, task, -, htask, rfl⟩
  · exact held_submit hs _ htype (.inl h)
  · exact .inl (held_finish hs htask h)

theorem run_serialised {t : ClientListenerExecutorDecorator K} {labels : List (Label K)}
    (hs : Serialised none s) (haccepts : ∀ label ∈ labels, label.rejects = false)
    (hrun : Machine.run step s labels = some t) : Serialised none t :=
  Machine.run_invariant (fun _ _ _ h hlabel hstep => step_serialised h hlabel hstep) hs
    (Machine.Meets.of_forall haccepts s) hrun

/-- Along a run a `MODIFIED` event stays held until another one supersedes it. -/
theorem run_held {t : ClientListenerExecutorDecorator K} {labels : List (Label K)}
    (hs : Serialised none s) (haccepts : ∀ label ∈ labels, label.rejects = false)
    (htype : ctx.event.type = .modified) (h : s.Held ctx)
    (hrun : Machine.run step s labels = some t) :
    t.Held ctx ∨ ∃ pre post m, labels = pre ++ post ∧ Machine.run step s pre = some m ∧
      ∃ c, m.Queued c ∧ Supersedes c ctx := by
  have hstep : ∀ (s : ClientListenerExecutorDecorator K) (label : Label K)
      (t : ClientListenerExecutorDecorator K), Serialised none s ∧ s.Held ctx →
      label.rejects = false → step s label = some t →
      (Serialised none t ∧ t.Held ctx) ∨ ∃ c, t.Queued c ∧ Supersedes c ctx := by
    rintro s label t ⟨hs, hheld⟩ hlabel hstep
    exact (step_held hs hlabel hstep htype hheld).imp_left fun hheld' =>
      ⟨step_serialised hs hlabel hstep, hheld'⟩
  exact (Machine.run_unless hstep ⟨hs, h⟩ (Machine.Meets.of_forall haccepts s) hrun).imp_left
    And.right

/-- For every sequence of submissions and completions with an executor that takes every
task: at most one event of a key is in progress, a key with queued events is in
progress, a queued `REMOVED` is alone, polling never finds an empty queue, and every
`MODIFIED` event submitted on the way is running, finished or queued, or was superseded
by an event that was queued at or after its submission. -/
theorem events_serialised (labels : List (Label K))
    (haccepts : ∀ label ∈ labels, label.rejects = false)
    (s : ClientListenerExecutorDecorator K)
    (hrun : Machine.run step initial labels = some s) :
    (s.decorated.map (·.context.event.key)).Nodup ∧
    (∀ key event, s.eventsInProgress key = some event ↔
      ∃ task ∈ s.decorated, task.context.event.key = key ∧ task.context.event = event) ∧
    (∀ key events, s.eventsQueue key = some events →
      events ≠ [] ∧ ∃ event, s.eventsInProgress key = some event) ∧
    (∀ key events, s.eventsQueue key = some events →
      ∀ ctx ∈ events, ctx.event.type = .removed → events = [ctx]) ∧
    s.thrown = [] ∧
    ∀ pre post s₀ key version,
      labels = pre ++ .submit (.cacheEntryModified key version) false :: post →
      Machine.run step initial pre = some s₀ →
      let ctx : MyClientEventContext K := ⟨⟨key, version, .modified⟩, s₀.submissions.length⟩
      s.Running ctx ∨ ctx ∈ s.finished ∨ s.Queued ctx ∨
      ∃ between rest m c, post = between ++ rest ∧
        Machine.run step s₀ (.submit (.cacheEntryModified key version) false :: between) =
          some m ∧
        m.Queued c ∧ Supersedes c ctx := by
  have hinv : Serialised none s := run_serialised initial_serialised haccepts hrun
  have hkeys : s.decorated.map (·.context.event.key) = s.decorated.map (·.key) :=
    List.map_congr_left hinv.taskKey
  refine ⟨hkeys ▸ hinv.nodup, ?_, ?_, ?_, hinv.thrown, ?_⟩
  · intro key event
    rw [hinv.inProgress]
    constructor
    · rintro ⟨task, htask, hkey, hevent⟩
      exact ⟨task, htask, (hinv.taskKey task htask).trans hkey, hevent⟩
    · rintro ⟨task, htask, hkey, hevent⟩
      exact ⟨task, htask, (hinv.taskKey task htask).symm.trans hkey, hevent⟩
  · intro key events hqueue
    exact ⟨(hinv.queueOf key events hqueue).ne_nil,
      hinv.queueBusy key events hqueue (by simp)⟩
  · intro key events hqueue
    exact (hinv.queueOf key events hqueue).removed_alone
  · intro pre post s₀ key version hlabels hpre
    subst hlabels
    have hpreAccepts : ∀ label ∈ pre, label.rejects = false :=
      fun label hlabel => haccepts label (List.mem_append_left _ hlabel)
    have hpostAccepts : ∀ label ∈ post, label.rejects = false :=
      fun label hlabel => haccepts label
        (List.mem_append_right _ (List.mem_cons_of_mem _ hlabel))
    have hinv₀ : Serialised none s₀ := run_serialised initial_serialised hpreAccepts hpre
    obtain ⟨m₀, hm₀, hrest⟩ := Machine.run_append_eq_some.mp hrun
    rw [hpre, Option.some.injEq] at hm₀
    subst hm₀
    obtain ⟨s₁, hs₁, hpost⟩ := Machine.run_cons_eq_some.mp hrest
    have hinv₁ : Serialised none s₁ := step_serialised hinv₀ rfl hs₁
    have heq : s₀.submit ⟨key, version, .modified⟩ false = s₁ := Option.some.inj hs₁
    rcases held_submit hinv₀ ⟨key, version, .modified⟩ rfl (.inr rfl) with hheld | hsup
    · rw [heq] at hheld
      rcases run_held hinv₁ hpostAccepts rfl hheld hpost with
        (hrunning | hfinished | hqueued) | ⟨between, rest, m, hsplit, hm, c, hc, hsup⟩
      · exact .inl hrunning
      · exact .inr (.inl hfinished)
      · exact .inr (.inr (.inl hqueued))
      · exact .inr (.inr (.inr ⟨between, rest, m, c, hsplit,
          Machine.run_cons_eq_some.mpr ⟨s₁, hs₁, hm⟩, hc, hsup⟩))
    · rw [heq] at hsup
      obtain ⟨c, hc, hsup⟩ := hsup
      exact .inr (.inr (.inr ⟨[], post, s₁, c, rfl,
        Machine.run_cons_eq_some.mpr ⟨s₁, hs₁, rfl⟩, hc, hsup⟩))

/-- Two modifications while the creation of the key is running, then its end. -/
def modifiedTwice : List (Label Nat) :=
  [.submit (.cacheEntryCreated 1 1) false, .submit (.cacheEntryModified 1 5) false,
    .submit (.cacheEntryModified 1 7) false, .complete 0 false]

theorem modifiedTwice_serialised :
    ∃ s, Machine.run step initial modifiedTwice = some s ∧
      s.decorated = [⟨1, ⟨⟨1, 7, .modified⟩, 2⟩⟩] ∧
      (s.decorated.map (·.context.event.key)).Nodup ∧ s.thrown = [] := by
  have haccepts : ∀ label ∈ modifiedTwice, label.rejects = false := by decide
  have h := events_serialised modifiedTwice haccepts _ rfl
  exact ⟨_, rfl, rfl, h.1, h.2.2.2.2.1⟩

end Runs

end Keycloak.Sessions.ClientListener
