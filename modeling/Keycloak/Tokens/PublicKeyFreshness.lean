import Keycloak.Tokens.PublicKeyStorage

/-!
# Public keys after an invalidation

A call that begins without an entry and without a task in progress, as after an invalidation,
answers with keys that the loader returned to a call made after that.  What the cache, the tasks
and the threads hold for the model key is followed along the run.
-/

namespace Keycloak.Tokens.PublicKeyStorage

open Machine

section

variable {Key : Type} {minTime : Int} {s t : State Key} {label : Label Key}

/-! ## Tasks and their model keys -/

def Phase.task : Phase Key → Option (Request × Nat)
  | .running request task _ | .waiting request task _ | .cleaning request task _ =>
      some (request, task)
  | _ => none

/-- A thread works on tasks of the model key it asks for, and no task is finished before it is
put. -/
structure Tied (s : State Key) : Prop where
  phases : ∀ thread request task, (s.phase thread).task = some (request, task) →
    s.modelKeys task = request.modelKey ∧ task < s.nextTask
  inProgress : ∀ modelKey task, s.tasksInProgress modelKey = some task →
    s.modelKeys task = modelKey ∧ task < s.nextTask
  pending : ∀ task, s.nextTask ≤ task → s.tasks task = .pending

theorem initial_tied (now : Int) : Tied (initial now : State Key) where
  phases _ _ _ h := by cases h
  inProgress _ _ h := by cases h
  pending _ _ := rfl

theorem Tied.move {thread : Nat} {phase : Phase Key} (h : Tied s)
    (hphase : t.phase = Function.update s.phase thread phase)
    (htask : ∀ request task, phase.task = some (request, task) →
      s.modelKeys task = request.modelKey ∧ task < s.nextTask)
    (htasks : t.tasks = s.tasks) (hinProgress : t.tasksInProgress = s.tasksInProgress)
    (hmodelKeys : t.modelKeys = s.modelKeys) (hnext : t.nextTask = s.nextTask) : Tied t := by
  refine ⟨fun other request task hother => ?_, ?_, ?_⟩
  · rw [hphase, Function.update_apply] at hother
    rw [hmodelKeys, hnext]
    split_ifs at hother
    · exact htask request task hother
    · exact h.phases other request task hother
  · rw [hinProgress, hmodelKeys, hnext]
    exact h.inProgress
  · rw [hnext, htasks]
    exact h.pending

theorem Tied.of_phase {thread task : Nat} {request : Request} {phase : Phase Key} (h : Tied s)
    (hphase : s.phase thread = phase) (htask : phase.task = some (request, task)) :
    s.modelKeys task = request.modelKey ∧ task < s.nextTask :=
  h.phases thread request task (by rw [hphase]; exact htask)

theorem step_tied (h : Tied s) (hstep : step minTime s label = some t) : Tied t := by
  have hkeep : ∀ {thread : Nat} {old phase : Phase Key}, s.phase thread = old →
      (phase.task = old.task ∨ phase.task = none) → ∀ request task,
      phase.task = some (request, task) →
      s.modelKeys task = request.modelKey ∧ task < s.nextTask := by
    intro thread old phase hphase htask request task hsome
    rcases htask with heq | hnone
    · exact h.of_phase hphase (heq ▸ hsome)
    · rw [hnone] at hsome
      cases hsome
  cases label with
  | tick seconds =>
      cases hstep
      exact ⟨h.phases, h.inProgress, h.pending⟩
  | getPublicKey thread request =>
      simp only [step] at hstep
      split at hstep <;> cases hstep
      · exact h.move rfl (fun _ _ h => by cases h) rfl rfl rfl rfl
      · exact h.move rfl (fun _ _ h => by cases h) rfl rfl rfl rfl
  | getEntry thread =>
      simp only [step] at hstep
      split at hstep
      · split at hstep
        · cases hstep
          exact h.move rfl (fun _ _ h => by cases h) rfl rfl rfl rfl
        · split at hstep <;> cases hstep
          · exact h.move rfl (fun _ _ h => by cases h) rfl rfl rfl rfl
          · exact h.move rfl (fun _ _ h => by cases h) rfl rfl rfl rfl
      · cases hstep
  | readClock thread =>
      simp only [step] at hstep
      split at hstep
      · split at hstep <;> cases hstep
        · exact h.move rfl (fun _ _ h => by cases h) rfl rfl rfl rfl
        · exact h.move rfl (fun _ _ h => by cases h) rfl rfl rfl rfl
      · cases hstep
  | putIfAbsent thread =>
      simp only [step] at hstep
      split at hstep
      · rename_i request hphase
        split at hstep <;> cases hstep
        · -- the new task
          have hold : ∀ task, task < s.nextTask →
              Function.update s.modelKeys s.nextTask request.modelKey task = s.modelKeys task :=
            fun task hlt => Function.update_of_ne (Nat.ne_of_lt hlt) _ _
          refine ⟨fun other request' task hother => ?_, fun modelKey task htask => ?_,
            fun task hle => h.pending task (Nat.le_of_succ_le hle)⟩
          · change ((s.setPhase thread _).phase other).task = _ at hother
            rw [setPhase_phase] at hother
            split_ifs at hother
            · cases hother
              exact ⟨Function.update_self .., Nat.lt_succ_self _⟩
            · obtain ⟨hmodelKey, hlt⟩ := h.phases other request' task hother
              exact ⟨(hold task hlt).trans hmodelKey, Nat.lt_succ_of_lt hlt⟩
          · change Function.update s.tasksInProgress request.modelKey _ modelKey = _ at htask
            rw [Function.update_apply] at htask
            split_ifs at htask with heq
            · cases htask
              exact ⟨(Function.update_self ..).trans heq.symm, Nat.lt_succ_self _⟩
            · obtain ⟨hmodelKey, hlt⟩ := h.inProgress modelKey task htask
              exact ⟨(hold task hlt).trans hmodelKey, Nat.lt_succ_of_lt hlt⟩
        · rename_i existing hexisting
          refine h.move rfl (fun request' task htask => ?_) rfl rfl rfl rfl
          cases htask
          exact h.inProgress _ existing hexisting
      · cases hstep
  | getEntryAgain thread =>
      simp only [step] at hstep
      split at hstep <;> cases hstep
      rename_i hphase
      exact h.move rfl (hkeep hphase (.inl rfl)) rfl rfl rfl rfl
  | readClockAgain thread =>
      simp only [step] at hstep
      split at hstep
      · rename_i hphase
        split at hstep <;> cases hstep
        · exact h.move rfl (hkeep hphase (.inl rfl)) rfl rfl rfl rfl
        · exact h.move rfl (hkeep hphase (.inl rfl)) rfl rfl rfl rfl
      · cases hstep
  | loadKeys thread publicKeys =>
      simp only [step] at hstep
      split at hstep
      · rename_i hphase
        split at hstep <;> cases hstep
        · exact h.move rfl (hkeep hphase (.inl rfl)) rfl rfl rfl rfl
        · exact h.move rfl (hkeep hphase (.inl rfl)) rfl rfl rfl rfl
      · cases hstep
  | putEntry thread =>
      simp only [step] at hstep
      split at hstep <;> cases hstep
      rename_i hphase
      exact h.move rfl (hkeep hphase (.inl rfl)) rfl rfl rfl rfl
  | finishTask thread =>
      have hfinish : ∀ {old phase : Phase Key} {request : Request} {task : Nat}
          {result : FutureTask Key}, s.phase thread = old → phase.task = old.task →
          old.task = some (request, task) →
          Tied { s.setPhase thread phase with
            tasks := Function.update s.tasks task result } := by
        intro old phase request task result hphase hsame htask
        refine ⟨fun other request' task' hother => ?_, h.inProgress, fun task' hle => ?_⟩
        · change ((s.setPhase thread phase).phase other).task = _ at hother
          rw [setPhase_phase] at hother
          split_ifs at hother
          · exact hkeep hphase (.inl hsame) request' task' hother
          · exact h.phases other request' task' hother
        · have hlt := (h.of_phase hphase htask).2
          have hne : task' ≠ task := fun heq => absurd hlt (Nat.not_lt.mpr (heq ▸ hle))
          exact (Function.update_of_ne hne _ _).trans (h.pending task' hle)
      simp only [step] at hstep
      split at hstep <;> cases hstep
      · rename_i hphase
        exact hfinish hphase rfl rfl
      · rename_i hphase
        exact hfinish hphase rfl rfl
  | getTask thread =>
      simp only [step] at hstep
      split at hstep
      · rename_i request task own hphase
        obtain ⟨answer, -, rfl⟩ := Option.map_eq_some_iff.mp hstep
        cases own with
        | true => exact h.move rfl (hkeep hphase (.inl rfl)) rfl rfl rfl rfl
        | false => exact h.move rfl (hkeep hphase (.inr rfl)) rfl rfl rfl rfl
      · cases hstep
  | removeTask thread =>
      simp only [step] at hstep
      split at hstep <;> cases hstep
      rename_i request _ _ _
      refine ⟨fun other request' task hother => ?_, fun modelKey task htask => ?_, h.pending⟩
      · change ((s.setPhase thread _).phase other).task = _ at hother
        rw [setPhase_phase] at hother
        split_ifs at hother
        · cases hother
        · exact h.phases other request' task hother
      · change Function.update s.tasksInProgress request.modelKey _ modelKey = _ at htask
        rw [Function.update_apply] at htask
        split_ifs at htask
        exact h.inProgress modelKey task htask
  | invalidate modelKey =>
      cases hstep
      exact ⟨h.phases, h.inProgress, h.pending⟩
  | clearCache =>
      cases hstep
      exact ⟨h.phases, h.inProgress, h.pending⟩

/-! ## What is held for one model key -/

/-- The entry was put after a load, both among `events`. -/
def Loaded (events : List (Event Key)) (modelKey : String) (entry : PublicKeysEntry Key) : Prop :=
  [.put modelKey entry, .load modelKey entry.lastRequestTime].Sublist events

theorem Loaded.cons {events : List (Event Key)} {modelKey : String} {entry : PublicKeysEntry Key}
    (h : Loaded events modelKey entry) (event : Event Key) :
    Loaded (event :: events) modelKey entry :=
  List.Sublist.cons event h

/-- What the thread that runs the task has comes from `events`. -/
def Call.From (events : List (Event Key)) (modelKey : String) : Call Key → Prop
  | .started | .throwing => True
  | .read entry | .returning entry => ∀ present, entry = some present →
      Loaded events modelKey present
  | .loading currentTime => .load modelKey currentTime ∈ events
  | .loaded entry => .load modelKey entry.lastRequestTime ∈ events

theorem Call.From.cons {events : List (Event Key)} {modelKey : String} {call : Call Key}
    (h : call.From events modelKey) (event : Event Key) : call.From (event :: events) modelKey := by
  cases call with
  | started => trivial
  | throwing => trivial
  | read entry => exact fun present hpresent => (h present hpresent).cons event
  | returning entry => exact fun present hpresent => (h present hpresent).cons event
  | loading currentTime => exact List.mem_cons_of_mem event h
  | loaded entry => exact List.mem_cons_of_mem event h

/-- A key is among those of an entry from `events`. -/
def Answer.From (events : List (Event Key)) (request : Request) (answer : Answer Key) : Prop :=
  ∀ publicKey, answer = .key (some publicKey) → ∃ entry, Loaded events request.modelKey entry ∧
    publicKeyOf entry.currentKeys request.kid = some publicKey

def Phase.Asks (events : List (Event Key)) (first : Nat) (request : Request) : Phase Key → Prop
  | .idle => False
  | .looking request' | .deciding request' _ | .registering request' | .running request' _ _ =>
      request' = request
  | .waiting request' task _ => request' = request ∧ first ≤ task
  | .cleaning request' _ answer | .done request' answer =>
      request' = request ∧ answer.From events request

theorem Phase.Asks.cons {events : List (Event Key)} {first : Nat} {request : Request}
    {phase : Phase Key} (h : phase.Asks events first request) (event : Event Key) :
    phase.Asks (event :: events) first request := by
  have hanswer : ∀ {answer : Answer Key}, answer.From events request →
      answer.From (event :: events) request := by
    intro answer hfrom publicKey hkey
    obtain ⟨entry, hloaded, hentry⟩ := hfrom publicKey hkey
    exact ⟨entry, hloaded.cons event, hentry⟩
  cases phase with
  | cleaning request' task answer => exact ⟨h.1, hanswer h.2⟩
  | done request' answer => exact ⟨h.1, hanswer h.2⟩
  | idle => exact h
  | looking request' => exact h
  | deciding request' entry => exact h
  | registering request' => exact h
  | running request' task call => exact h
  | waiting request' task own => exact h

/-- What one thread has of the model key of `request`, and the call of the thread that asks. -/
structure Phase.Good (events : List (Event Key)) (first : Nat) (request : Request) (asks : Prop)
    (phase : Phase Key) : Prop where
  running : ∀ request' task call, phase = .running request' task call →
    request'.modelKey = request.modelKey → call.From events request.modelKey
  asking : asks → phase.Asks events first request

/-- Everything held for the model key of `request` comes from `events`, and so will the answer
to the call of `asker`. -/
structure Recent (first asker : Nat) (request : Request) (events : List (Event Key))
    (s : State Key) : Prop where
  next : first ≤ s.nextTask
  keys : ∀ entry, s.keys request.modelKey = some entry → Loaded events request.modelKey entry
  inProgress : ∀ task, s.tasksInProgress request.modelKey = some task → first ≤ task
  tasks : ∀ task entry, first ≤ task → task < s.nextTask → s.modelKeys task = request.modelKey →
    s.tasks task = .finished (some entry) → Loaded events request.modelKey entry
  phases : ∀ thread, (s.phase thread).Good events first request (thread = asker)

variable {first asker : Nat} {request : Request} {events : List (Event Key)}

theorem Recent.move {thread : Nat} {old phase : Phase Key}
    (h : Recent first asker request events s) (hphase : s.phase thread = old)
    (hrunning : ∀ request' task call, phase = .running request' task call →
      request'.modelKey = request.modelKey → call.From events request.modelKey)
    (hasks : thread = asker → old.Asks events first request → phase.Asks events first request) :
    Recent first asker request events (s.setPhase thread phase) := by
  refine ⟨h.next, h.keys, h.inProgress, h.tasks, fun other => ?_⟩
  rw [setPhase_phase]
  split_ifs with heq
  · exact ⟨hrunning, fun hasker =>
      hasks (heq ▸ hasker) (hphase ▸ (h.phases thread).asking (heq ▸ hasker))⟩
  · exact h.phases other

theorem Recent.run {thread task : Nat} {request' : Request} {old call : Call Key}
    (h : Recent first asker request events s)
    (hphase : s.phase thread = .running request' task old)
    (hcall : request'.modelKey = request.modelKey → old.From events request.modelKey →
      call.From events request.modelKey) :
    Recent first asker request events (s.setPhase thread (.running request' task call)) := by
  refine h.move hphase (fun request'' task' call' heq hsame => ?_) fun _ => id
  cases heq
  exact hcall hsame ((h.phases thread).running request' task old hphase hsame)

theorem Recent.cons (h : Recent first asker request events s) (event : Event Key) :
    Recent first asker request (event :: events) s where
  next := h.next
  keys entry hentry := (h.keys entry hentry).cons event
  inProgress := h.inProgress
  tasks task entry hfirst hlt hmodelKey hdone :=
    (h.tasks task entry hfirst hlt hmodelKey hdone).cons event
  phases thread :=
    ⟨fun request' task call hphase hsame =>
        ((h.phases thread).running request' task call hphase hsame).cons event,
      fun hasker => ((h.phases thread).asking hasker).cons event⟩

theorem Recent.putIfAbsent {thread : Nat} {request' : Request}
    (h : Recent first asker request events s) (htied : Tied s)
    (hphase : s.phase thread = .registering request') :
    Recent first asker request events
      { s.setPhase thread (.running request' s.nextTask .started) with
        tasksInProgress := Function.update s.tasksInProgress request'.modelKey (some s.nextTask)
        modelKeys := Function.update s.modelKeys s.nextTask request'.modelKey
        nextTask := s.nextTask + 1 } := by
  have hmove : Recent first asker request events
      (s.setPhase thread (.running request' s.nextTask .started)) := by
    refine h.move hphase (fun _ _ call heq _ => ?_) fun _ => id
    cases heq
    trivial
  refine ⟨Nat.le_succ_of_le h.next, h.keys, fun task htask => ?_,
    fun task entry hfirst hlt hmodelKey hdone => ?_, hmove.phases⟩
  · change Function.update s.tasksInProgress request'.modelKey _ _ = _ at htask
    rw [Function.update_apply] at htask
    split_ifs at htask
    · cases htask
      exact h.next
    · exact h.inProgress task htask
  · change Function.update s.modelKeys s.nextTask _ task = _ at hmodelKey
    change s.tasks task = _ at hdone
    rcases Nat.lt_succ_iff_lt_or_eq.mp hlt with hlt | rfl
    · rw [Function.update_of_ne (Nat.ne_of_lt hlt)] at hmodelKey
      exact h.tasks task entry hfirst hlt hmodelKey hdone
    · rw [htied.pending s.nextTask (Nat.le_refl _)] at hdone
      cases hdone

theorem Recent.finish {thread task : Nat} {request' : Request} {call : Call Key}
    {result : FutureTask Key} (h : Recent first asker request events s) (htied : Tied s)
    (hexclusive : Exclusive s) (hphase : s.phase thread = .running request' task call)
    (hresult : ∀ entry, result = .finished (some entry) → call.From events request.modelKey →
      Loaded events request.modelKey entry) :
    Recent first asker request events { s.setPhase thread (.waiting request' task true) with
      tasks := Function.update s.tasks task result } := by
  have howner : s.owner thread = some (request'.modelKey, task) := by
    rw [State.owner, hphase]
    rfl
  have hmove : Recent first asker request events
      (s.setPhase thread (.waiting request' task true)) := by
    refine h.move hphase (fun _ _ _ h => by cases h) fun _ hrequest => ⟨hrequest, ?_⟩
    have hsame : request' = request := hrequest
    exact h.inProgress task (hsame ▸ (hexclusive.owner _ _ _ howner).1)
  refine ⟨h.next, h.keys, h.inProgress, fun task' entry hfirst hlt hmodelKey hdone => ?_,
    hmove.phases⟩
  change Function.update s.tasks task result task' = _ at hdone
  rw [Function.update_apply] at hdone
  split_ifs at hdone with heq
  · have hsame : request'.modelKey = request.modelKey :=
      (htied.of_phase hphase rfl).1.symm.trans (heq ▸ hmodelKey)
    exact hresult entry hdone ((h.phases thread).running request' task call hphase hsame)
  · exact h.tasks task' entry hfirst hlt hmodelKey hdone

theorem Recent.answer {task : Nat} {answer : Answer Key}
    (h : Recent first asker request events s) (hfirst : first ≤ task)
    (htask : s.modelKeys task = request.modelKey ∧ task < s.nextTask)
    (hanswer : answerOf request (s.tasks task) = some answer) : answer.From events request := by
  intro publicKey heq
  subst heq
  cases hresult : s.tasks task with
  | pending =>
      rw [hresult] at hanswer
      cases hanswer
  | failed =>
      rw [hresult] at hanswer
      cases hanswer
  | finished entry =>
      rw [hresult] at hanswer
      cases entry with
      | none => cases hanswer
      | some entry =>
          exact ⟨entry, h.tasks task entry hfirst htask.2 htask.1 hresult,
            Answer.key.inj (Option.some.inj hanswer)⟩

theorem Recent.event {event : Event Key} {keys : String → Option (PublicKeysEntry Key)}
    (h : Recent first asker request events s)
    (hkeys : ∀ entry, keys request.modelKey = some entry →
      s.keys request.modelKey = some entry ∨ Loaded (event :: events) request.modelKey entry) :
    Recent first asker request (event :: events)
      { s with keys, events := event :: s.events } := by
  have hcons := h.cons event
  exact ⟨h.next, fun entry hentry => (hkeys entry hentry).elim (hcons.keys entry) id,
    h.inProgress, hcons.tasks, hcons.phases⟩

theorem step_recent (h : Recent first asker request events s) (htied : Tied s)
    (hexclusive : Exclusive s) (honce : ∀ request', label ≠ .getPublicKey asker request')
    (hstep : step minTime s label = some t) :
    ∃ added, t.events = added ++ s.events ∧
      Recent first asker request (added ++ events) t := by
  cases label with
  | tick seconds =>
      cases hstep
      exact ⟨[], rfl, h.next, h.keys, h.inProgress, h.tasks, h.phases⟩
  | getPublicKey thread request' =>
      have hother : thread ≠ asker := fun heq => honce request' (heq ▸ rfl)
      simp only [step] at hstep
      split at hstep <;> cases hstep
      · rename_i hphase
        exact ⟨[], rfl, h.move hphase (fun _ _ _ h => by cases h) fun heq => absurd heq hother⟩
      · rename_i hphase
        exact ⟨[], rfl, h.move hphase (fun _ _ _ h => by cases h) fun heq => absurd heq hother⟩
  | getEntry thread =>
      simp only [step] at hstep
      split at hstep
      · rename_i request' hphase
        split at hstep
        · cases hstep
          exact ⟨[], rfl, h.move hphase (fun _ _ _ h => by cases h) fun _ => id⟩
        · rename_i entry hentry
          split at hstep <;> cases hstep
          · rename_i publicKey hkey
            refine ⟨[], rfl, h.move hphase (fun _ _ _ h => by cases h) fun _ hrequest => ?_⟩
            have hsame : request' = request := hrequest
            subst hsame
            refine ⟨rfl, fun publicKey' heq => ?_⟩
            cases heq
            exact ⟨entry, h.keys entry hentry, hkey⟩
          · exact ⟨[], rfl, h.move hphase (fun _ _ _ h => by cases h) fun _ => id⟩
      · cases hstep
  | readClock thread =>
      simp only [step] at hstep
      split at hstep
      · rename_i hphase
        split at hstep <;> cases hstep
        · exact ⟨[], rfl, h.move hphase (fun _ _ _ h => by cases h) fun _ => id⟩
        · exact ⟨[], rfl, h.move hphase (fun _ _ _ h => by cases h)
            fun _ hrequest => ⟨hrequest, fun _ h => by cases h⟩⟩
      · cases hstep
  | putIfAbsent thread =>
      simp only [step] at hstep
      split at hstep
      · rename_i request' hphase
        split at hstep <;> cases hstep
        · exact ⟨[], rfl, h.putIfAbsent htied hphase⟩
        · rename_i existing hexisting
          refine ⟨[], rfl,
            h.move hphase (fun _ _ _ h => by cases h) fun _ hrequest => ⟨hrequest, ?_⟩⟩
          have hsame : request' = request := hrequest
          exact h.inProgress existing (hsame ▸ hexisting)
      · cases hstep
  | getEntryAgain thread =>
      simp only [step] at hstep
      split at hstep <;> cases hstep
      rename_i hphase
      exact ⟨[], rfl, h.run hphase fun hsame _ entry hentry => h.keys entry (hsame ▸ hentry)⟩
  | readClockAgain thread =>
      simp only [step] at hstep
      split at hstep
      · rename_i request' task entry hphase
        split at hstep <;> cases hstep
        · have hevent : Recent first asker request (.load request'.modelKey s.now :: events)
              { s with events := .load request'.modelKey s.now :: s.events } :=
            h.event fun _ => .inl
          exact ⟨[_], rfl, hevent.run hphase fun hsame _ => hsame ▸ List.mem_cons_self⟩
        · exact ⟨[], rfl, h.run hphase fun _ => id⟩
      · cases hstep
  | loadKeys thread publicKeys =>
      simp only [step] at hstep
      split at hstep
      · rename_i request' task currentTime hphase
        split at hstep <;> cases hstep
        · exact ⟨[], rfl, h.run hphase fun _ _ => trivial⟩
        · rename_i publicKeys
          have hevent : Recent first asker request (.returned request'.modelKey publicKeys :: events)
              { s with events := .returned request'.modelKey publicKeys :: s.events } :=
            h.event fun _ => .inl
          exact ⟨[_], rfl, hevent.run hphase fun _ => id⟩
      · cases hstep
  | putEntry thread =>
      simp only [step] at hstep
      split at hstep <;> cases hstep
      rename_i request' task entry hphase
      have hloaded : request'.modelKey = request.modelKey →
          Loaded (.put request'.modelKey entry :: events) request.modelKey entry := by
        intro hsame
        have hload := (h.phases thread).running request' task _ hphase hsame
        rw [hsame]
        exact List.Sublist.cons_cons _ (List.singleton_sublist.mpr hload)
      have hevent : Recent first asker request (.put request'.modelKey entry :: events)
          { s with
            keys := Function.update s.keys request'.modelKey (some entry)
            events := .put request'.modelKey entry :: s.events } := by
        refine h.event fun present hpresent => ?_
        rw [Function.update_apply] at hpresent
        split_ifs at hpresent with heq
        · cases hpresent
          exact .inr (hloaded heq.symm)
        · exact .inl hpresent
      refine ⟨[_], rfl, hevent.run hphase fun hsame _ present hpresent => ?_⟩
      cases hpresent
      exact hloaded hsame
  | finishTask thread =>
      simp only [step] at hstep
      split at hstep <;> cases hstep
      · rename_i hphase
        refine ⟨[], rfl, h.finish htied hexclusive hphase fun entry heq hfrom => ?_⟩
        cases heq
        exact hfrom entry rfl
      · rename_i hphase
        exact ⟨[], rfl, h.finish htied hexclusive hphase fun _ h => by cases h⟩
  | getTask thread =>
      simp only [step] at hstep
      split at hstep
      · rename_i request' task own hphase
        obtain ⟨answer, hanswer, rfl⟩ := Option.map_eq_some_iff.mp hstep
        have htask := htied.of_phase hphase rfl
        have hasks : Phase.Asks events first request (.waiting request' task own) →
            request' = request ∧ answer.From events request := by
          rintro ⟨rfl, hfirst⟩
          exact ⟨rfl, h.answer hfirst htask hanswer⟩
        cases own with
        | true => exact ⟨[], rfl, h.move hphase (fun _ _ _ h => by cases h) fun _ => hasks⟩
        | false => exact ⟨[], rfl, h.move hphase (fun _ _ _ h => by cases h) fun _ => hasks⟩
      · cases hstep
  | removeTask thread =>
      simp only [step] at hstep
      split at hstep <;> cases hstep
      rename_i request' task answer hphase
      have hmove : Recent first asker request events (s.setPhase thread (.done request' answer)) :=
        h.move hphase (fun _ _ _ h => by cases h) fun _ => id
      refine ⟨[], rfl, hmove.next, hmove.keys, fun task' htask => ?_, hmove.tasks, hmove.phases⟩
      change Function.update s.tasksInProgress request'.modelKey none _ = _ at htask
      rw [Function.update_apply] at htask
      split_ifs at htask
      exact h.inProgress task' htask
  | invalidate modelKey =>
      cases hstep
      refine ⟨[_], rfl, h.event fun entry hentry => .inl ?_⟩
      rw [Function.update_apply] at hentry
      split_ifs at hentry
      exact hentry
  | clearCache =>
      cases hstep
      exact ⟨[_], rfl, h.event fun _ h => by cases h⟩

/-! ## The answer -/

/-- A call that begins without an entry and without a task in progress asks the loader. -/
theorem recent_of_call (hkeys : s.keys request.modelKey = none)
    (htask : s.tasksInProgress request.modelKey = none) (hexclusive : Exclusive s)
    (hcall : step minTime s (.getPublicKey asker request) = some t) :
    t.events = s.events ∧ Recent s.nextTask asker request [] t := by
  have hnone : ∀ thread request' task call, s.phase thread = .running request' task call →
      request'.modelKey ≠ request.modelKey := by
    intro thread request' task call hphase hsame
    have howner : s.owner thread = some (request'.modelKey, task) := by
      rw [State.owner, hphase]
      rfl
    have hfound := (hexclusive.owner thread _ task howner).1
    rw [hsame, htask] at hfound
    cases hfound
  have hrecent : Recent s.nextTask asker request [] (s.setPhase asker (.looking request)) := by
    refine ⟨Nat.le_refl _, fun entry hentry => ?_, fun task hfound => ?_,
      fun task entry hfirst hlt => absurd hlt (Nat.not_lt.mpr hfirst), fun thread => ?_⟩
    · cases hkeys.symm.trans hentry
    · cases htask.symm.trans hfound
    · rw [setPhase_phase]
      split_ifs with heq
      · exact ⟨fun _ _ _ h => (by cases h), fun _ => rfl⟩
      · exact ⟨fun request' task call hphase hsame =>
          absurd hsame (hnone thread request' task call hphase), fun hasker => absurd hasker heq⟩
  simp only [step] at hcall
  split at hcall <;> cases hcall
  · exact ⟨rfl, hrecent⟩
  · exact ⟨rfl, hrecent⟩

def Follows (first asker : Nat) (request : Request) (older : List (Event Key)) (s : State Key) :
    Prop :=
  Tied s ∧ Exclusive s ∧ ∃ newer, s.events = newer ++ older ∧ Recent first asker request newer s

theorem Follows.step {older : List (Event Key)} (h : Follows first asker request older s)
    (honce : ∀ request', label ≠ .getPublicKey asker request')
    (hstep : step minTime s label = some t) : Follows first asker request older t := by
  obtain ⟨htied, hexclusive, newer, hnewer, hrecent⟩ := h
  obtain ⟨added, hadded, hrecent'⟩ := step_recent hrecent htied hexclusive honce hstep
  refine ⟨step_tied htied hstep, step_exclusive hexclusive hstep, added ++ newer, ?_, hrecent'⟩
  rw [hadded, hnewer, List.append_assoc]

theorem lastLoad_append {newer older : List (Event Key)} {modelKey : String} {currentTime : Int}
    (h : .load modelKey currentTime ∈ newer) :
    lastLoad (newer ++ older) modelKey = lastLoad newer modelKey := by
  induction newer with
  | nil => cases h
  | cons event newer ih =>
      cases event with
      | load modelKey' currentTime' =>
          rw [List.cons_append, lastLoad, lastLoad]
          split_ifs with heq
          · rfl
          · refine ih ((List.mem_cons.mp h).resolve_left fun hhead => heq ?_)
            cases hhead
            rfl
      | returned modelKey' publicKeys => exact ih ((List.mem_cons.mp h).resolve_left (by simp))
      | put modelKey' entry => exact ih ((List.mem_cons.mp h).resolve_left (by simp))
      | remove modelKey' => exact ih ((List.mem_cons.mp h).resolve_left (by simp))
      | clear => exact ih ((List.mem_cons.mp h).resolve_left (by simp))

theorem lastLoaded_append {newer older : List (Event Key)} {modelKey : String} {currentTime : Int}
    (h : .load modelKey currentTime ∈ newer) :
    lastLoaded (newer ++ older) modelKey = lastLoaded newer modelKey := by
  induction newer with
  | nil => cases h
  | cons event newer ih =>
      cases event with
      | load modelKey' currentTime' =>
          rw [List.cons_append, lastLoaded, lastLoaded]
          split_ifs with heq
          · rfl
          · refine ih ((List.mem_cons.mp h).resolve_left fun hhead => heq ?_)
            cases hhead
            rfl
      | returned modelKey' publicKeys =>
          have hmem := (List.mem_cons.mp h).resolve_left (by simp)
          rw [List.cons_append, lastLoaded, lastLoaded, ih hmem, lastLoad_append hmem]
      | put modelKey' entry => exact ih ((List.mem_cons.mp h).resolve_left (by simp))
      | remove modelKey' => exact ih ((List.mem_cons.mp h).resolve_left (by simp))
      | clear => exact ih ((List.mem_cons.mp h).resolve_left (by simp))

/-- What was put after a load among the newer events is what the last of these returned. -/
theorem Loaded.lastLoaded {newer older : List (Event Key)} {modelKey : String}
    {entry : PublicKeysEntry Key} (h : Loaded newer modelKey entry)
    (hspaced : Spaced minTime (newer ++ older)) :
    ∃ after before, newer = after ++ .put modelKey entry :: before ∧
      PublicKeyStorage.lastLoaded before modelKey = some entry := by
  obtain ⟨front, rest, rfl, hput, hload⟩ := List.cons_sublist_iff.mp h
  obtain ⟨after, middle, rfl⟩ := List.append_of_mem hput
  have hmem : .load modelKey entry.lastRequestTime ∈ middle ++ rest :=
    List.mem_append_right middle (List.singleton_sublist.mp hload)
  refine ⟨after, middle ++ rest, by simp, ?_⟩
  have hwhole : after ++ .put modelKey entry :: middle ++ rest ++ older =
      after ++ .put modelKey entry :: ((middle ++ rest) ++ older) := by simp
  rw [hwhole] at hspaced
  rw [← lastLoaded_append hmem]
  exact hspaced.of_append.1

/-- A key that a call answers with, when it began without an entry of the model key and without
a task in progress, is one that the loader returned to a call made after that: it is among the
keys of an entry put since then, with the time and the keys of the last load before the put,
also since then. -/
theorem answer_loaded {now : Int} {pre labels : List (Label Key)} {start : State Key}
    (hpre : run (step minTime) (initial now) pre = some s)
    (hkeys : s.keys request.modelKey = none)
    (htask : s.tasksInProgress request.modelKey = none)
    (hcall : step minTime s (.getPublicKey asker request) = some start)
    (honce : ∀ label ∈ labels, ∀ request', label ≠ .getPublicKey asker request')
    (hrun : run (step minTime) start labels = some t) {publicKey : Key}
    (hdone : t.phase asker = .done request (.key (some publicKey))) :
    ∃ after before entry,
      t.events = (after ++ .put request.modelKey entry :: before) ++ s.events ∧
      lastLoaded before request.modelKey = some entry ∧
      publicKeyOf entry.currentKeys request.kid = some publicKey := by
  have hkeep : ∀ (u : State Key) label u', Tied u ∧ Exclusive u → step minTime u label = some u' →
      Tied u' ∧ Exclusive u' :=
    fun _ _ _ hinv hstep => ⟨step_tied hinv.1 hstep, step_exclusive hinv.2 hstep⟩
  have hbase : Tied s ∧ Exclusive s :=
    run_invariant_all hkeep ⟨initial_tied now, initial_exclusive now⟩ hpre
  obtain ⟨hevents, hrecent⟩ := recent_of_call hkeys htask hbase.2 hcall
  have hstart : Follows s.nextTask asker request s.events start :=
    ⟨step_tied hbase.1 hcall, step_exclusive hbase.2 hcall, [], hevents, hrecent⟩
  obtain ⟨-, -, newer, hnewer, hfinal⟩ := run_invariant (fun _ _ _ => Follows.step) hstart
    (Meets.of_forall honce start) hrun
  have hasks := (hfinal.phases asker).asking rfl
  rw [hdone] at hasks
  obtain ⟨entry, hloaded, hkey⟩ := hasks.2 publicKey rfl
  have hspaced : Spaced minTime t.events := by
    have hall : run (step minTime) (initial now)
        (pre ++ .getPublicKey asker request :: labels) = some t :=
      run_append_eq_some.mpr ⟨s, hpre, run_cons_eq_some.mpr ⟨start, hcall, hrun⟩⟩
    exact (run_spacing hall).2.spaced
  rw [hnewer] at hspaced
  obtain ⟨after, before, rfl, hlast⟩ := hloaded.lastLoaded hspaced
  exact ⟨after, before, entry, hnewer, hlast, hkey⟩

def invalidated : List (Label Nat) :=
  [.getPublicKey 0 ⟨"m", some "a"⟩, .getEntry 0, .readClock 0, .putIfAbsent 0, .getEntryAgain 0,
    .readClockAgain 0, .loadKeys 0 (some [("a", 7)]), .putEntry 0, .finishTask 0, .getTask 0,
    .removeTask 0, .invalidate "m"]

def rotated : List (Label Nat) :=
  [.getEntry 0, .readClock 0, .putIfAbsent 0, .getEntryAgain 0, .readClockAgain 0,
    .loadKeys 0 (some [("a", 8)]), .putEntry 0, .finishTask 0, .getTask 0, .removeTask 0]

theorem answer_loaded_rotated : ∃ s start t,
    run (step 10) (initial 100) invalidated = some s ∧
      step 10 s (.getPublicKey 0 ⟨"m", some "a"⟩) = some start ∧
      run (step 10) start rotated = some t ∧
      ∃ after before entry, t.events = (after ++ .put "m" entry :: before) ++ s.events ∧
        lastLoaded before "m" = some entry ∧
        publicKeyOf entry.currentKeys (some "a") = some 8 := by
  obtain ⟨s, hs⟩ : ∃ s, run (step 10) (initial 100) invalidated = some s := ⟨_, rfl⟩
  obtain ⟨start, hcall⟩ : ∃ start, step 10 s (.getPublicKey 0 ⟨"m", some "a"⟩) = some start := by
    cases hs
    exact ⟨_, rfl⟩
  obtain ⟨t, ht⟩ : ∃ t, run (step 10) start rotated = some t := by
    cases hs
    cases hcall
    exact ⟨_, rfl⟩
  have hkeys : s.keys "m" = none := by
    cases hs
    rfl
  have htask : s.tasksInProgress "m" = none := by
    cases hs
    rfl
  have hdone : t.phase 0 = .done ⟨"m", some "a"⟩ (.key (some 8)) := by
    cases hs
    cases hcall
    cases ht
    rfl
  have honce : ∀ label ∈ rotated, ∀ request', label ≠ .getPublicKey 0 request' := by
    intro label hlabel request' heq
    subst heq
    simp [rotated] at hlabel
  exact ⟨s, start, t, hs, hcall, ht, answer_loaded hs hkeys htask hcall honce ht hdone⟩

end

end Keycloak.Tokens.PublicKeyStorage
