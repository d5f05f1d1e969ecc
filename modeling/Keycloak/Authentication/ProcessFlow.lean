import Keycloak.Authentication.Walk

/-!
# What `processFlow` does to the session

One lemma for the report of an authenticator, one for a subflow that has ended, and from these
the specification of the walk over a level by induction over the tree of executions. A restart
enters through its specification alone.
-/

namespace Keycloak.Authentication

/-! ## Authenticators -/

theorem createAuthenticator_quiet (factory : AuthenticatorFactory) (s : Processor) :
    Quiet s (createAuthenticator factory s).2 := by
  unfold createAuthenticator
  split
  · split
    · exact Quiet.refl s
    · exact Quiet.removeDisplay s
  · exact Quiet.refl s

theorem createAuthenticator_display {factory : AuthenticatorFactory} {s t : Processor}
    (h : createAuthenticator factory s = (none, t)) :
    t.session.display = some .console → factory.supportsConsole = true := by
  unfold createAuthenticator at h
  split at h
  · split at h
    · rename_i hsupports
      exact fun _ => hsupports
    · cases h
  · rename_i hdisplay
    cases h
    exact fun hconsole => absurd hconsole hdisplay

variable (b : Behaviour)

theorem validateUser_quiet (s : Processor) : Quiet s (validateUser b s).2 := by
  unfold validateUser
  split
  · exact Quiet.refl s
  · split <;> exact Quiet.tick s

theorem setAuthenticatedUser_quiet (s : Processor) (user : String) :
    Quiet s (setAuthenticatedUser b s user).2 ∧
      (setAuthenticatedUser b s user).2.session.display = s.session.display := by
  unfold setAuthenticatedUser
  split
  · exact ⟨Quiet.refl s, rfl⟩
  · split
    · exact ⟨Quiet.setUser s _, rfl⟩
    · exact ⟨Quiet.refl s, rfl⟩

theorem callAuthenticator_quiet (s : Processor) :
    Quiet s (callAuthenticator b s).2 ∧
      (callAuthenticator b s).2.session.display = s.session.display := by
  unfold callAuthenticator
  split
  · exact ⟨Quiet.tick s, rfl⟩
  · exact ⟨(Quiet.setUser s none).trans (Quiet.tick _), rfl⟩
  · obtain ⟨hquiet, hdisplay⟩ := setAuthenticatedUser_quiet b s _
    exact ⟨hquiet.trans (Quiet.tick _), hdisplay⟩

variable {top L before : List Execution} {f : FlowState} {s : Processor} {id : String}
  {requirement : Requirement} {factory : AuthenticatorFactory}

theorem succeed_alternative {x : Execution}
    (hf : (f.succeed x.requirement).alternativeSuccessful = true) :
    f.alternativeSuccessful = true ∨
      (x.isAlternative = true ∧ ExecutionStatus.success = .success) := by
  simp only [FlowState.succeed, Bool.or_eq_true] at hf
  rcases hf with hf | hf
  · exact .inl hf
  · exact .inr ⟨hf, rfl⟩

theorem StepSpec.challenge
    (h : Position top L before (.authenticator id requirement factory)) (hsound : Sound top s)
    (hcontext : s.trace.caughtRestart = false → Context L before f s)
    (hdisabled : requirement ≠ .disabled) (hfresh : processedStatus (s.status id) = false)
    (hregistered : factory.registered = true)
    (hdisplay : s.session.display = some .console → factory.supportsConsole = true)
    {st : ExecutionStatus} (hst : st = .failed ∨ st = .challenged) :
    StepSpec top L before (.authenticator id requirement factory) s
      (.response (.challenge id), f,
        (s.setExecutionStatus id st).setCurrent (some (.execution id))) := by
  have hallowed : AllowedStatus (.authenticator id requirement factory) (some st) := by
    rcases hst with rfl | rfl <;> simp [AllowedStatus]
  have hunprocessed : processedStatus (some st) = false := by
    rcases hst with rfl | rfl <;> rfl
  have hsound' : Sound top (s.setExecutionStatus id st) := by
    refine hsound.write h.nodup h.level h.mem hallowed (fun _ => hfresh) ?_ ?_
    · rintro _ rfl
      simp at hst
    · rintro _ rfl
      simp at hst
  refine ⟨(Grows.write s id st).trans (Grows.setCurrent _ _), hsound'.setCurrent _,
    fun hcaught => .inl ⟨?_, ?_⟩⟩
  · obtain ⟨rest, hsplit⟩ := h.split
    have hwrite : Evolves L s (s.setExecutionStatus id st) :=
      Evolves.write (h.mem_ids (by simp)) hfresh st
    refine hwrite.trans (Evolves.point hsplit ?_ (h.not_mem_before (by simp)) (by simp) trivial)
    exact fun y hy => hwrite.passed ((hcontext hcaught).passed y hy)
  · rintro e he _ _
    cases he
    refine ⟨rfl, h.mem_ids (by simp), ?_⟩
    obtain ⟨rest, hsplit⟩ := h.split
    subst hsplit
    refine answerable_append ?_ (h.not_mem_before (by simp)) (by simp) ⟨?_, hregistered, hdisplay⟩
    · intro y hy
      have hwrite : Evolves (before ++ .authenticator id requirement factory :: rest) s
          (s.setExecutionStatus id st) := Evolves.write (h.mem_ids (by simp)) hfresh st
      exact hwrite.passed ((hcontext hcaught).passed y hy)
    · have hstatus : ((s.setExecutionStatus id st).setCurrent (some (.execution id))).status id =
          some st := status_set_self s id st
      simp [isProcessed, Execution.isDisabled, Execution.requirement, Execution.id, hstatus,
        hunprocessed, hdisabled]

variable {restart : Processor → Outcome × Processor}

theorem processResult_spec (hrestart : RestartSpec top restart)
    (h : Position top L before (.authenticator id requirement factory)) (hsound : Sound top s)
    (hcontext : s.trace.caughtRestart = false → Context L before f s)
    (hdisabled : requirement ≠ .disabled) (hfresh : processedStatus (s.status id) = false)
    (hregistered : factory.registered = true)
    (hdisplay : s.session.display = some .console → factory.supportsConsole = true)
    (report : Report) :
    StepSpec top L before (.authenticator id requirement factory) s
      (processResult b restart id requirement report f s) := by
  have hchallenge : ∀ st : ExecutionStatus, st = .failed ∨ st = .challenged →
      StepSpec top L before (.authenticator id requirement factory) s
        (.response (.challenge id), f,
          (s.setExecutionStatus id st).setCurrent (some (.execution id))) :=
    fun st hst => StepSpec.challenge h hsound hcontext hdisabled hfresh hregistered hdisplay hst
  cases report with
  | success =>
      refine StepSpec.advance h hsound hcontext rfl (by simp [AllowedStatus]) (fun _ => hfresh)
        (by simp) (by simp) rfl ?_
      exact succeed_alternative (x := .authenticator id requirement factory)
  | failed hasChallenge =>
      cases hasChallenge with
      | true => exact hchallenge .failed (.inl rfl)
      | false =>
          have hwrite : Evolves L s (s.setExecutionStatus id .failed) :=
            Evolves.write (h.mem_ids (by simp)) hfresh .failed
          refine StepSpec.raise (Grows.write s id .failed) ?_ (fun _ => .inl hwrite)
          exact hsound.write h.nodup h.level h.mem (by simp [AllowedStatus]) (fun _ => hfresh)
            (by simp) (by simp)
  | fork =>
      refine StepSpec.raise (Grows.setCurrent s _) (hsound.setCurrent _) (fun hcaught => .inl ?_)
      obtain ⟨rest, hsplit⟩ := h.split
      exact Evolves.point hsplit (hcontext hcaught).passed (h.not_mem_before (by simp))
        (by simp) trivial
  | forceChallenge => exact hchallenge .challenged (.inr rfl)
  | failureChallenge => exact hchallenge .challenged (.inr rfl)
  | challenge =>
      simp only [processResult]
      split
      · refine StepSpec.of_quiet (Quiet.tick s) ?_
        exact StepSpec.challenge h ((Quiet.tick s).sound hsound)
          (fun hcaught => (Quiet.tick s).context (hcontext hcaught)) hdisabled hfresh hregistered
          hdisplay (.inr rfl)
      rename_i hsend
      split
      · rename_i halternative
        have hquiet := Quiet.setAside' s id
        refine ⟨hquiet.grows, hquiet.sound hsound, fun hcaught => ⟨hquiet.evolves L, ?_, ?_, ?_⟩⟩
        · intro y hy
          rcases List.mem_append.mp hy with hy | hy
          · exact (hquiet.evolves L).passed ((hcontext hcaught).passed y hy)
          · cases List.mem_singleton.mp hy
            refine .inr ⟨rfl, ?_, List.mem_cons_self⟩
            simp [Execution.isAlternative, Execution.requirement, halternative]
        · exact (hcontext hcaught).successful
        · intro r i hi
          cases hi
          rw [idsOf_append]
          exact ⟨List.mem_append_right _ (by simp [idsOf]), hfresh⟩
      · rename_i halternative
        refine StepSpec.of_quiet (Quiet.tick s) ?_
        have hrequired : requirement ≠ .required := fun heq => hsend (.inl heq)
        refine StepSpec.advance h ((Quiet.tick s).sound hsound)
          (fun hcaught => (Quiet.tick s).context (hcontext hcaught)) rfl ?_ (fun _ => hfresh) ?_
          (by simp) rfl (fun hf => .inl hf)
        · simp [AllowedStatus, Execution.isRequired, Execution.requirement, hrequired]
        · simp [Execution.isAlternative, Execution.requirement, halternative]
  | attempted =>
      simp only [processResult]
      split
      · exact StepSpec.raise (Grows.refl s) hsound (fun _ => .inl (Evolves.refl L s))
      · rename_i hrequired
        refine StepSpec.advance h hsound hcontext rfl ?_ (fun _ => hfresh) (by simp)
          (by simp) rfl (fun hf => .inl hf)
        simp [AllowedStatus, Execution.isRequired, Execution.requirement, hrequired]
  | flowReset =>
      obtain ⟨hgrows, hsound', hnull, hrestarted⟩ := hrestart s hsound
      simp only [processResult]
      cases houtcome : (restart s).1 with
      | null => exact absurd houtcome hnull
      | response r =>
          refine ⟨hgrows, hsound', fun hcaught => ?_⟩
          obtain ⟨hrestarted, hanswered⟩ := hrestarted hcaught
          simp only
          exact .inr ⟨hrestarted, hanswered r houtcome⟩
      | raised e =>
          refine ⟨hgrows, hsound', fun hcaught => ?_⟩
          simp only
          exact .inr (hrestarted hcaught).1

theorem processAuthenticator_spec (hrestart : RestartSpec top restart)
    (h : Position top L before (.authenticator id requirement factory)) (hsound : Sound top s)
    (hcontext : s.trace.caughtRestart = false → Context L before f s)
    (hdisabled : requirement ≠ .disabled) (hfresh : processedStatus (s.status id) = false) :
    StepSpec top L before (.authenticator id requirement factory) s
      (processAuthenticator b restart id requirement factory f s) := by
  unfold processAuthenticator
  split
  · exact StepSpec.raise (Grows.refl s) hsound (fun _ => .inl (Evolves.refl L s))
  rename_i hregistered
  have hcreated := createAuthenticator_quiet factory s
  split
  · rename_i t hcreate
    rw [hcreate] at hcreated
    exact StepSpec.raise hcreated.grows (hcreated.sound hsound)
      (fun _ => .inl (hcreated.evolves L))
  rename_i t hcreate
  rw [hcreate] at hcreated
  have hdisplay := createAuthenticator_display hcreate
  refine StepSpec.of_quiet hcreated ?_
  have hsound := hcreated.sound hsound
  have hcontext : t.trace.caughtRestart = false → Context L before f t := fun hcaught =>
    hcreated.context (hcontext (hcreated.caughtRestart ▸ hcaught))
  have hfresh : processedStatus (t.status id) = false := by
    rw [hcreated.status_eq]
    exact hfresh
  split
  · split
    · -- The challenge that was kept back is returned for an execution of this level.
      rename_i challenge challenged hkept
      have hsound' : Sound top (t.setExecutionStatus challenged .challenged) :=
        hsound.challenge challenged
          fun hcaught => ((hcontext hcaught).kept challenge challenged hkept).2
      refine ⟨⟨fun h => h, fun h => h, fun _ => rfl, List.suffix_rfl⟩,
        hsound'.congr rfl rfl rfl rfl,
        fun hcaught => .inl ⟨?_, by simp [Answered, Processor.markReturnedAlternative]⟩⟩
      obtain ⟨hbefore, hstatus⟩ := (hcontext hcaught).kept challenge challenged hkept
      obtain ⟨rest, hsplit⟩ := h.split
      have hmem : challenged ∈ idsOf L := by
        rw [hsplit, idsOf_append]
        exact List.mem_append_left _ hbefore
      have hwrite := Evolves.write hmem hstatus .challenged
      exact ⟨hwrite.resets, hwrite.outside, hwrite.processed, hwrite.setAside,
        fun _ he => .inl he⟩
    · exact StepSpec.raise (Grows.refl t) hsound (fun _ => .inl (Evolves.refl L t))
  have hquiet := Quiet.tick t
  have hsound := hquiet.sound hsound
  have hcontext : t.tick.trace.caughtRestart = false → Context L before f t.tick :=
    fun hcaught => hquiet.context (hcontext hcaught)
  refine StepSpec.of_quiet hquiet ?_
  split
  · rename_i hconfigured
    split
    · refine StepSpec.advance h hsound hcontext rfl ?_ (fun _ => hfresh) (by simp)
        (by simp) rfl (fun hf => .inl hf)
      simp [AllowedStatus, Execution.isRequired, Execution.requirement,
        Execution.isAuthenticatorFlow, hconfigured.2.2]
    · exact StepSpec.raise (Grows.refl _) hsound (fun _ => .inl (Evolves.refl L _))
  split
  · rename_i hconfigured
    refine StepSpec.advance h hsound hcontext rfl ?_ (fun _ => hfresh) ?_
      (by simp) rfl (fun hf => .inl hf)
    · simp [AllowedStatus, Execution.isRequired, Execution.requirement, hconfigured.2.2]
    · simp [Execution.isAlternative, Execution.requirement, hconfigured.2.2]
  · obtain ⟨hcalled, hsame⟩ := callAuthenticator_quiet b t.tick
    split
    · rename_i e u hcall
      rw [hcall] at hcalled
      exact StepSpec.raise hcalled.grows (hcalled.sound hsound) (fun _ => .inl (hcalled.evolves L))
    · rename_i u hcall
      rw [hcall] at hcalled hsame
      refine StepSpec.of_quiet hcalled ?_
      refine processResult_spec b hrestart h (hcalled.sound hsound) ?_ hdisabled ?_ ?_ ?_ _
      · exact fun hcaught => hcalled.context (hcontext (hcalled.caughtRestart ▸ hcaught))
      · rw [hcalled.status_eq]
        exact hfresh
      · simpa using hregistered
      · rw [hsame]
        exact hdisplay

/-! ## Subflows -/

section Subflows

variable {inner : List Execution} {t : Processor}

theorem Evolves.subflow (h : Position top L before (.flow id requirement inner))
    (hpassed : ∀ y ∈ before, Passed s y) (hevolves : Evolves inner s t) : Evolves L s t where
  resets := hevolves.resets
  outside := fun i hi => hevolves.outside i fun hinner => hi (h.mem_ids (by simp [hinner]))
  processed := hevolves.processed
  setAside := hevolves.setAside
  current := by
    intro e he
    rcases hevolves.current e he with hold | ⟨hinner, hready⟩
    · exact .inl hold
    · right
      have hx : e ∈ (Execution.flow id requirement inner).ids := by simp [hinner]
      refine ⟨h.mem_ids hx, ?_⟩
      obtain ⟨rest, hsplit⟩ := h.split
      rw [hsplit]
      exact actionReady_append (fun y hy => hevolves.passed (hpassed y hy))
        (h.not_mem_before hx) hx hready

theorem Answered.subflow (h : Position top L before (.flow id requirement inner))
    (hpassed : ∀ y ∈ before, Passed t y)
    (hprocessed : isProcessed t (.flow id requirement inner) = false) {r : Response}
    (hanswered : Answered inner t r) : Answered L t r := by
  intro e hr hreturned hunfinished
  obtain ⟨hcurrent, hinner, hanswerable⟩ := hanswered e hr hreturned hunfinished
  have hx : e ∈ (Execution.flow id requirement inner).ids := by simp [hinner]
  refine ⟨hcurrent, h.mem_ids hx, ?_⟩
  obtain ⟨rest, hsplit⟩ := h.split
  rw [hsplit]
  exact answerable_append hpassed (h.not_mem_before hx) hx ⟨hprocessed, hanswerable⟩

theorem Context.subflow (h : Position top L before (.flow id requirement inner))
    (hcontext : Context L before f s) (hevolves : Evolves inner s t) :
    Context L before f t where
  passed := fun y hy => hevolves.passed (hcontext.passed y hy)
  successful := by
    intro hf
    obtain ⟨y, hy, halternative, hstatus⟩ := hcontext.successful hf
    refine ⟨y, hy, halternative, ?_⟩
    rw [hevolves.processed y.id (by rw [hstatus]; rfl)]
    exact hstatus
  kept := by
    intro r i hi
    obtain ⟨hbefore, hstatus⟩ := hcontext.kept r i hi
    have hinner : i ∉ idsOf inner := fun hinner =>
      h.not_mem_before (i := i) (by simp [hinner]) hbefore
    rw [hevolves.outside i hinner]
    exact ⟨hbefore, hstatus⟩

theorem Evolves.subflow_status (h : Position top L before (.flow id requirement inner))
    (hevolves : Evolves inner s t) : t.status id = s.status id :=
  hevolves.outside id (nodup_flow (h.level.nodup h.nodup) h.mem).1

theorem markCaughtRestart_false (s : Processor) : s.markCaughtRestart false = s := by
  simp [Processor.markCaughtRestart]

theorem Sound.required_unprocessed (h : Position top L before (.flow id .required inner))
    (hsound : Sound top s) (hstatus : s.status id ≠ some .success) :
    processedStatus (s.status id) = false := by
  have hallowed := hsound.allowed L h.level _ h.mem
  cases hprocessed : processedStatus (s.status id) with
  | false => rfl
  | true =>
      rcases hallowed.done rfl hprocessed with hsuccess | ⟨hleaf, _⟩
      · exact absurd hsuccess hstatus
      · cases hleaf

theorem Sound.markChallenged (h : Position top L before (.flow id .required inner))
    (hsound : Sound top s) :
    Sound top ((s.setExecutionStatus id .challenged).markUnfinished
      (decide (s.status id = some .success))) := by
  by_cases hstatus : s.status id = some .success
  · refine ⟨?_, ?_, ?_, hsound.completed⟩
    · intro M hM y hy
      change AllowedStatus y ((s.setExecutionStatus id .challenged).status y.id)
      by_cases heq : y.id = id
      · rw [heq, status_set_self]
        simp [AllowedStatus]
      · rw [status_set_of_ne s _ heq]
        exact hsound.allowed M hM y hy
    · intro hcaught M hM y hy halternative hskipped
      have hkeep : ∀ z ∈ M, z.isAlternative = true →
          ((s.setExecutionStatus id .challenged).markUnfinished
            (decide (s.status id = some .success))).status z.id = s.status z.id := by
        intro z hz hza
        have hne : z.id ≠ id := by
          intro heq
          obtain ⟨_, rfl⟩ := Level.unique h.nodup hM h.level hz h.mem heq
          cases hza
        exact status_set_of_ne s _ hne
      rw [hkeep y hy halternative] at hskipped
      obtain ⟨z, hz, hza, hzs⟩ := hsound.backed hcaught M hM y hy halternative hskipped
      exact ⟨z, hz, hza, (hkeep z hz hza).trans hzs⟩
    · intro _ hunfinished
      simp [Processor.markUnfinished, hstatus] at hunfinished
  · have hfresh := hsound.required_unprocessed h hstatus
    refine (hsound.challenge id fun _ => hfresh).congr rfl rfl ?_ rfl
    simp [Processor.markUnfinished, Processor.setExecutionStatus, hstatus]

/-- After a restart inside a required subflow, marking it as challenged keeps what the restart
has established. -/
theorem Restarted.markChallenged (h : Position top L before (.flow id .required inner))
    (hrestarted : Restarted top s t) :
    Restarted top s ((t.setExecutionStatus id .challenged).markUnfinished
      (decide (t.status id = some .success))) := by
  refine ⟨hrestarted.resets, ?_⟩
  intro e he
  refine ActionReady.mono (s := t) top ?_ (hrestarted.current e he)
  intro M hM y hy hleaf hpassed
  have hne : y.id ≠ id := by
    intro heq
    obtain ⟨_, rfl⟩ := Level.unique h.nodup hM h.level hy h.mem heq
    cases hleaf
  have hstatus : ((t.setExecutionStatus id .challenged).markUnfinished
      (decide (t.status id = some .success))).status y.id = t.status y.id :=
    status_set_of_ne t _ hne
  unfold Passed isProcessed
  rw [hstatus]
  exact hpassed

theorem Answered.markChallenged {r : Response} (hsound : Sound top t)
    (h : Position top L before (.flow id .required inner)) {M : List Execution}
    (hanswered : Answered M t r) :
    Answered M ((t.setExecutionStatus id .challenged).markUnfinished
      (decide (t.status id = some .success))) r := by
  intro e hr hreturned hunfinished
  simp only [Processor.markUnfinished, Processor.setExecutionStatus, Bool.or_eq_false_iff,
    decide_eq_false_iff_not] at hunfinished
  obtain ⟨hcurrent, hmem, hanswerable⟩ := hanswered e hr hreturned hunfinished.1
  refine ⟨hcurrent, hmem, ?_⟩
  have hdisplay : ((t.setExecutionStatus id .challenged).markUnfinished
      (decide (t.status id = some .success))).session.display = t.session.display := rfl
  refine Answerable.congr hdisplay M ?_ hanswerable
  intro i _
  by_cases heq : i = id
  · subst heq
    rw [hsound.required_unprocessed h hunfinished.2]
    exact congrArg processedStatus (status_set_self t i .challenged)
  · exact congrArg processedStatus (status_set_of_ne t _ heq)

variable {t : Processor}

theorem StepSpec.of_subflow (h : Position top L before (.flow id requirement inner))
    (hcontext : s.trace.caughtRestart = false → Context L before f s) (hgrows : Grows s t)
    (hevolves : t.trace.caughtRestart = false → Evolves inner s t)
    {result : Outcome × FlowState × Processor}
    (hspec : (t.trace.caughtRestart = false → Context L before f t) →
      StepSpec top L before (.flow id requirement inner) t result) :
    StepSpec top L before (.flow id requirement inner) s result := by
  refine StepSpec.of_evolves hgrows (fun hcaught => ?_) (hspec fun hcaught => ?_)
  · exact Evolves.subflow h (hcontext (hgrows.caughtRestart_false hcaught)).passed
      (hevolves hcaught)
  · exact Context.subflow h (hcontext (hgrows.caughtRestart_false hcaught)) (hevolves hcaught)

theorem StepSpec.finishSubflow (h : Position top L before (.flow id requirement inner))
    (hcontext : s.trace.caughtRestart = false → Context L before f s)
    (hfresh : processedStatus (s.status id) = false) (hspec : FlowSpec top inner s (.null, t)) :
    StepSpec top L before (.flow id requirement inner) s
      (.null, f.succeed requirement, t.setExecutionStatus id .success) := by
  obtain ⟨hgrows, hsound, hspec⟩ := hspec
  simp only at hgrows hsound hspec
  refine StepSpec.of_subflow h hcontext hgrows (fun hcaught => (hspec hcaught).1) fun hcontext => ?_
  refine StepSpec.advance h hsound hcontext rfl (by simp [AllowedStatus]) (fun hcaught => ?_)
    (by simp) ?_ rfl (succeed_alternative (x := .flow id requirement inner))
  · rw [Execution.id, (hspec hcaught).1.subflow_status h]
    exact hfresh
  · -- All executions of the subflow are passed, so the required ones are carried out.
    intro hcaught _ id' requirement' inner' heq y hy hrequired
    cases heq
    have hallowed := hsound.allowed inner (h.level.subflow h.mem) y hy
    refine hallowed.done hrequired ?_
    simp only [Execution.isRequired, decide_eq_true_eq] at hrequired
    rcases (hspec hcaught).2 y hy with hprocessed | ⟨_, halternative, _⟩
    · simpa [isProcessed, Execution.isDisabled, hrequired] using hprocessed
    · simp [Execution.isAlternative, hrequired] at halternative

theorem StepSpec.returnSubflow (h : Position top L before (.flow id requirement inner))
    (hcontext : s.trace.caughtRestart = false → Context L before f s)
    (hprocessed : isProcessed s (.flow id requirement inner) = false) {r : Response}
    {f' : FlowState} (hspec : FlowSpec top inner s (.response r, t)) :
    StepSpec top L before (.flow id requirement inner) s (.response r, f', t) := by
  obtain ⟨hgrows, hsound, hspec⟩ := hspec
  refine ⟨hgrows, hsound, fun hcaught => ?_⟩
  have hcontext := hcontext (hgrows.caughtRestart_false hcaught)
  rcases hspec hcaught with ⟨hevolves, hanswered⟩ | hrestarted
  · refine .inl ⟨Evolves.subflow h hcontext.passed hevolves, ?_⟩
    refine Answered.subflow h (Context.subflow h hcontext hevolves).passed ?_ hanswered
    rw [isProcessed, Execution.id, hevolves.subflow_status h]
    exact hprocessed
  · exact .inr hrestarted

theorem StepSpec.raiseSubflow (h : Position top L before (.flow id requirement inner))
    (hcontext : s.trace.caughtRestart = false → Context L before f s) {e : Raised}
    {f' : FlowState} (hspec : FlowSpec top inner s (.raised e, t)) :
    StepSpec top L before (.flow id requirement inner) s (.raised e, f', t) := by
  obtain ⟨hgrows, hsound, hspec⟩ := hspec
  refine StepSpec.raise hgrows hsound fun hcaught => ?_
  have hcontext := hcontext (hgrows.caughtRestart_false hcaught)
  rcases hspec hcaught with hevolves | hrestarted
  · exact .inl (Evolves.subflow h hcontext.passed hevolves)
  · exact .inr hrestarted

/-- A required subflow that returned a challenge is marked as challenged. -/
theorem StepSpec.challengeSubflow (h : Position top L before (.flow id .required inner))
    (hcontext : s.trace.caughtRestart = false → Context L before f s)
    (hfresh : processedStatus (s.status id) = false) {r : Response}
    (hspec : FlowSpec top inner s (.response r, t)) :
    StepSpec top L before (.flow id .required inner) s
      (.response r, f, (t.setExecutionStatus id .challenged).markUnfinished
        (decide (t.status id = some .success))) := by
  have hreturn : StepSpec top L before (.flow id .required inner) s (.response r, f, t) := by
    refine StepSpec.returnSubflow h hcontext ?_ hspec
    simpa [isProcessed, Execution.isDisabled, Execution.requirement, Execution.id]
  obtain ⟨hgrows, hsound, hspec⟩ := hspec
  have hmark : Grows t ((t.setExecutionStatus id .challenged).markUnfinished
      (decide (t.status id = some .success))) :=
    ⟨fun h => h, fun h => by simp [Processor.markUnfinished, Processor.setExecutionStatus, h],
      fun h => h, List.suffix_rfl⟩
  refine ⟨hgrows.trans hmark, hsound.markChallenged h, fun hcaught => ?_⟩
  have hcaught : t.trace.caughtRestart = false := hcaught
  rcases hreturn.2.2 hcaught with ⟨hevolves, hanswered⟩ | ⟨hrestarted, hanswered⟩
  · refine .inl ⟨hevolves.trans ?_, Answered.markChallenged hsound h hanswered⟩
    rcases hspec hcaught with ⟨hinner, _⟩ | ⟨hrestarted, _⟩
    · have hwrite : Evolves L t (t.setExecutionStatus id .challenged) := by
        refine Evolves.write (h.mem_ids (by simp)) ?_ .challenged
        rw [hinner.subflow_status h]
        exact hfresh
      exact ⟨hwrite.resets, hwrite.outside, hwrite.processed, hwrite.setAside,
        fun _ he => .inl he⟩
    · exact absurd hevolves.resets (Nat.ne_of_gt hrestarted.resets)
  · exact .inr ⟨hrestarted.markChallenged h, Answered.markChallenged hsound h hanswered⟩

/-- The exception of an alternative subflow is caught. Where the flow was reset meanwhile, the
trace is marked and nothing more is said. -/
theorem StepSpec.catchSubflow (h : Position top L before (.flow id .alternative inner))
    (hcontext : s.trace.caughtRestart = false → Context L before f s)
    (hfresh : processedStatus (s.status id) = false) {e : Raised}
    (hspec : FlowSpec top inner s (.raised e, t)) :
    StepSpec top L before (.flow id .alternative inner) s
      (.null, f, (t.setExecutionStatus id .attempted).markCaughtRestart
        (decide (t.trace.resets ≠ s.trace.resets))) := by
  have hallowed : AllowedStatus (.flow id .alternative inner) (some .attempted) := by
    simp [AllowedStatus, Execution.isRequired, Execution.requirement]
  obtain ⟨hgrows, hsound, hspec⟩ := hspec
  simp only at hgrows hsound hspec
  by_cases hresets : t.trace.resets = s.trace.resets
  · have hevolves : t.trace.caughtRestart = false → Evolves inner s t := by
      intro hcaught
      rcases hspec hcaught with hevolves | hrestarted
      · exact hevolves
      · exact absurd hresets (Nat.ne_of_gt hrestarted.resets)
    rw [hresets, decide_eq_false (fun hne => hne rfl), markCaughtRestart_false]
    refine StepSpec.of_subflow h hcontext hgrows hevolves fun hcontext => ?_
    refine StepSpec.advance h hsound hcontext rfl hallowed (fun hcaught => ?_)
      (by simp) (by simp) rfl (fun hf => .inl hf)
    rw [Execution.id, (hevolves hcaught).subflow_status h]
    exact hfresh
  · rw [decide_eq_true hresets]
    have hcaught : ((t.setExecutionStatus id .attempted).markCaughtRestart
        true).trace.caughtRestart = true := by
      simp [Processor.markCaughtRestart]
    refine ⟨hgrows.trans ⟨fun _ => hcaught, fun h => h, fun h => h, List.suffix_rfl⟩,
      Sound.of_caught ?_ hcaught hsound.completed, fun hc => ?_⟩
    · intro M hM y hy
      change AllowedStatus y ((t.setExecutionStatus id .attempted).status y.id)
      by_cases heq : y.id = id
      · obtain ⟨_, rfl⟩ := Level.unique h.nodup hM h.level hy h.mem heq
        rw [heq, status_set_self]
        exact hallowed
      · rw [status_set_of_ne t _ heq]
        exact hsound.allowed M hM y hy
    · rw [hcaught] at hc
      cases hc

theorem leaveSubflow_spec (h : Position top L before (.flow id requirement inner))
    (hcontext : s.trace.caughtRestart = false → Context L before f s)
    (hoptional : requirement ≠ .optional)
    (hprocessed : ¬ isProcessed s (.flow id requirement inner) = true)
    {result : Outcome × Processor} (hspec : FlowSpec top inner s result) :
    StepSpec top L before (.flow id requirement inner) s
      (leaveSubflow id requirement f s result) := by
  obtain ⟨hdisabled, hfresh⟩ := not_isProcessed hprocessed
  obtain ⟨outcome, t⟩ := result
  cases outcome with
  | null => exact StepSpec.finishSubflow h hcontext hfresh hspec
  | response r =>
      cases requirement with
      | disabled => cases hdisabled
      | optional => exact absurd rfl hoptional
      | alternative =>
          exact StepSpec.returnSubflow h hcontext (Bool.not_eq_true _ ▸ hprocessed) hspec
      | required => exact StepSpec.challengeSubflow h hcontext hfresh hspec
  | raised e =>
      cases e with
      | runtimeException => exact StepSpec.raiseSubflow h hcontext hspec
      | flowException error =>
          simp only [leaveSubflow]
          split
          · rename_i halternative
            subst halternative
            exact StepSpec.catchSubflow h hcontext hfresh hspec
          · exact StepSpec.raiseSubflow h hcontext hspec

end Subflows

/-! ## The walk -/

theorem Context.start (L : List Execution) (s : Processor) : Context L [] .new s where
  passed := by simp
  successful := by simp [FlowState.new]
  kept := by simp [FlowState.new]

theorem FlowSpec.of_step {t : Processor} {x : Execution} {f' : FlowState}
    {result : Outcome × Processor} (hstep : StepSpec top L before x s (.null, f', t))
    (hflow : FlowSpec top L t result) : FlowSpec top L s result := by
  obtain ⟨hgrows, _, hstep⟩ := hstep
  obtain ⟨hgrows', hsound, hflow⟩ := hflow
  refine ⟨hgrows.trans hgrows', hsound, fun hcaught => ?_⟩
  have hflow := hflow hcaught
  have hevolves := (hstep (hgrows'.caughtRestart_false hcaught)).1
  cases hresult : result.1 with
  | null =>
      rw [hresult] at hflow
      exact ⟨hevolves.trans hflow.1, hflow.2⟩
  | response r =>
      rw [hresult] at hflow
      rcases hflow with ⟨hsame, hanswered⟩ | ⟨hrestarted, hanswered⟩
      · exact .inl ⟨hevolves.trans hsame, hanswered⟩
      · exact .inr ⟨hevolves.restarted hrestarted, hanswered⟩
  | raised e =>
      rw [hresult] at hflow
      rcases hflow with hsame | hrestarted
      · exact .inl (hevolves.trans hsame)
      · exact .inr (hevolves.restarted hrestarted)

theorem StepSpec.ended {t : Processor} {x : Execution} {f' : FlowState} {outcome : Outcome}
    (hnull : outcome ≠ .null) (hstep : StepSpec top L before x s (outcome, f', t)) :
    FlowSpec top L s (outcome, t) := by
  obtain ⟨hgrows, hsound, hstep⟩ := hstep
  refine ⟨hgrows, hsound, fun hcaught => ?_⟩
  cases outcome with
  | null => exact absurd rfl hnull
  | response r => exact hstep hcaught
  | raised e => exact hstep hcaught

structure Setting (top : List Execution) (restart : Processor → Outcome × Processor) : Prop
    extends WellFormed top where
  restart : RestartSpec top restart

section Walk

variable (setting : Setting top restart)

include setting

mutual

theorem processFlow_spec : ∀ (xs L before : List Execution) (f : FlowState) (s : Processor),
    Level top L → L = before ++ xs → Sound top s →
    (s.trace.caughtRestart = false → Context L before f s) →
    FlowSpec top L s (processFlow b restart xs f s)
  | [], L, before, f, s, _, hsplit, hsound, hcontext => by
      refine ⟨Grows.refl s, hsound, fun hcaught => ⟨Evolves.refl L s, ?_⟩⟩
      rw [hsplit, List.append_nil]
      exact (hcontext hcaught).passed
  | x :: rest, L, before, f, s, hlevel, hsplit, hsound, hcontext => by
      have hstep := processExecution_spec x L before f s ⟨setting.nodup, hlevel, rest, hsplit⟩
        hsound hcontext
      have hrest := processFlow_spec rest L (before ++ [x])
      rw [processFlow]
      split
      · rename_i f' t hresult
        rw [hresult] at hstep
        refine FlowSpec.of_step hstep ?_
        exact hrest f' t hlevel (by rw [hsplit]; simp) hstep.2.1 fun hcaught =>
          (hstep.2.2 hcaught).2
      · rename_i outcome f' t hnull hresult
        rw [hresult] at hstep
        exact hstep.ended hnull

theorem processExecution_spec : ∀ (x : Execution) (L before : List Execution) (f : FlowState)
    (s : Processor), Position top L before x → Sound top s →
    (s.trace.caughtRestart = false → Context L before f s) →
    StepSpec top L before x s (processExecution b restart x f s)
  | .authenticator id requirement factory, L, before, f, s, h, hsound, hcontext => by
      rw [processExecution]
      split
      · rename_i hprocessed
        exact StepSpec.skip h hsound hcontext hprocessed
      rename_i hprocessed
      obtain ⟨hdisabled, hfresh⟩ := not_isProcessed hprocessed
      split
      · rename_i hskip
        exact StepSpec.skipAlternative h hsound hcontext hfresh hskip
      · refine processAuthenticator_spec b setting.restart h hsound hcontext ?_ hfresh
        exact of_decide_eq_false hdisabled
  | .flow id requirement inner, L, before, f, s, h, hsound, hcontext => by
      have hinner := processFlow_spec inner inner [] .new s (h.level.subflow h.mem) rfl hsound
        fun _ => Context.start inner s
      rw [processExecution]
      split
      · rename_i hprocessed
        exact StepSpec.skip h hsound hcontext hprocessed
      rename_i hprocessed
      obtain ⟨hdisabled, hfresh⟩ := not_isProcessed hprocessed
      split
      · rename_i hskip
        exact StepSpec.skipAlternative h hsound hcontext hfresh hskip
      · refine leaveSubflow_spec h hcontext ?_ hprocessed hinner
        rintro rfl
        exact h.level.no_optional setting.noOptional h.mem

end

end Walk

end Keycloak.Authentication
