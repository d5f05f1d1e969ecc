import Keycloak.Authentication.Requests
import Keycloak.Lib.Machine

/-!
# Runs of requests on one authentication session

The results about every run: what has been carried out when a request gets as far as
`authenticationComplete`, and that a displayed challenge can be answered. Each is followed by a
run that it applies to and by the runs in which a restart from inside a subflow, or a challenge
that was kept back, breaks the property.
-/

namespace Keycloak.Authentication

/-- The flow that the processor runs, in a realm that has other executions too. -/
structure AuthenticationFlow where
  executions : List Execution
  otherExecutions : List String
  wellFormed : WellFormed executions

inductive Request where
  | authenticate
  | action (execution : String)
deriving DecidableEq, Repr

section Runs

variable (b : Behaviour) (flow : AuthenticationFlow)

/-- A request on a call stack that takes `depth` nested authentications. -/
def handle (depth : Nat) : Request → Processor → Outcome × Processor
  | .authenticate, s => authenticate b flow.executions depth s
  | .action execution, s =>
      authenticationAction b flow.executions flow.otherExecutions depth execution s

/-- The session keeps the changes of a request also where it ends in an exception. -/
def step (s : Processor) (call : Request × Nat) : Option Processor :=
  some (handle b flow call.2 call.1 s).2

def fresh (display : Option Display) : Processor where
  session :=
    { executionStatus := fun _ => none
      authenticatedUser := none
      current := none
      display := display
      action := .authenticate }
  clock := 0
  trace :=
    { resets := 0
      setAside := []
      caughtRestart := false
      unfinished := false
      returnedAlternative := false
      actions := [] }
  completions := []

def RunInv (executions : List Execution) (s : Processor) : Prop :=
  Sound executions s ∧ (s.trace.caughtRestart = false → CurrentReady executions s)

theorem runInv_fresh (executions : List Execution) (display : Option Display) :
    RunInv executions (fresh display) := by
  refine ⟨⟨?_, ?_, ?_, ?_⟩, ?_⟩
  · simp [AllowedStatus, Processor.status, fresh]
  · simp [Processor.status, fresh]
  · simp [Processor.status, fresh]
  · simp [fresh]
  · simp [CurrentReady, fresh]

theorem handle_spec {s : Processor} (h : RunInv flow.executions s) (depth : Nat)
    (request : Request) :
    RequestSpec flow.executions s (handle b flow depth request s) := by
  cases request with
  | authenticate => exact authenticate_spec b flow.wellFormed depth s h.1 h.2
  | action execution =>
      exact authenticationAction_spec b flow.wellFormed flow.otherExecutions depth execution h.1
        h.2

theorem runInv_handle {s : Processor} (h : RunInv flow.executions s) (depth : Nat)
    (request : Request) : RunInv flow.executions (handle b flow depth request s).2 := by
  obtain ⟨_, hsound, _, hspec⟩ := handle_spec b flow h depth request
  exact ⟨hsound, fun hcaught => (hspec hcaught).2.1⟩

theorem runInv_run {display : Option Display} {calls : List (Request × Nat)} {s : Processor}
    (hrun : Machine.run (step b flow) (fresh display) calls = some s) :
    RunInv flow.executions s := by
  refine Machine.run_invariant_all ?_ (runInv_fresh flow.executions display) hrun
  intro s call t hinv hstep
  cases hstep
  exact runInv_handle b flow hinv call.2 call.1

/-! ## Alternative executions -/

/-- Authenticators that answer as the script says, by default with success, and one of which
finds the user. -/
def scripted (script : List (Nat × Report)) (login : Nat) : Behaviour where
  report n := (script.lookup n).getD .success
  userChange n := if n = login then .set "user" else .keep
  configuredFor _ := true
  userEnabled _ := true
  expired _ := false
  requiredAction _ := false

def form : AuthenticatorFactory := ⟨true, false, false, true⟩

def credential : AuthenticatorFactory := ⟨true, true, false, true⟩

/-- Unless an alternative subflow has caught the exception of a restart, a completed flow has an
alternative that succeeded, or its alternatives were attempted in vain or their challenges kept
back. -/
theorem alternatives_settled (display : Option Display) (calls : List (Request × Nat))
    (s : Processor) (hrun : Machine.run (step b flow) (fresh display) calls = some s)
    (c : AuthenticationSession × Trace) (hc : c ∈ s.completions)
    (hcaught : c.2.caughtRestart = false) :
    (∃ x ∈ flow.executions, x.isAlternative = true ∧
        c.1.executionStatus x.id = some .success) ∨
      ∀ x ∈ flow.executions, x.isAlternative = true →
        c.1.executionStatus x.id = some .attempted ∨
          (x.isAuthenticatorFlow = false ∧
            processedStatus (c.1.executionStatus x.id) = false ∧ x.id ∈ c.2.setAside) :=
  ((runInv_run b flow hrun).1.completed c hc hcaught).1

def requiredAndAlternative : AuthenticationFlow where
  executions := [.authenticator "R" .required form, .authenticator "A" .alternative form]
  otherExecutions := []
  wellFormed := ⟨by decide, by decide⟩

/-- The only alternative is attempted in vain, and the flow completes. -/
theorem attemptedAlternative_completed :
    ∃ s, Machine.run (step (scripted [(4, .attempted)] 2) requiredAndAlternative) (fresh none)
        [(.authenticate, 1)] = some s ∧
      ∃ c ∈ s.completions, (∃ x ∈ requiredAndAlternative.executions, x.isAlternative = true) ∧
        ∀ x ∈ requiredAndAlternative.executions, x.isAlternative = true →
          c.1.executionStatus x.id ≠ some .success :=
  ⟨_, rfl, by decide⟩

theorem attemptedAlternative_settled :
    ∃ s, Machine.run (step (scripted [(4, .attempted)] 2) requiredAndAlternative) (fresh none)
        [(.authenticate, 1)] = some s ∧
      ∃ c ∈ s.completions, c.2.caughtRestart = false ∧
        ∀ x ∈ requiredAndAlternative.executions, x.isAlternative = true →
          c.1.executionStatus x.id = some .attempted ∨
            (x.isAuthenticatorFlow = false ∧
              processedStatus (c.1.executionStatus x.id) = false ∧ x.id ∈ c.2.setAside) := by
  refine ⟨_, rfl, ?_⟩
  have hcompleted : ∃ c ∈ (handle (scripted [(4, .attempted)] 2) requiredAndAlternative 1
      .authenticate (fresh none)).2.completions, c.2.caughtRestart = false ∧
      ¬ ∃ x ∈ requiredAndAlternative.executions, x.isAlternative = true ∧
        c.1.executionStatus x.id = some .success := by
    decide
  obtain ⟨c, hc, hcaught, hsuccess⟩ := hcompleted
  refine ⟨c, hc, hcaught, ?_⟩
  exact (alternatives_settled _ requiredAndAlternative none [(.authenticate, 1)] _ rfl c hc
    hcaught).resolve_left hsuccess

/-! ## Required executions -/

/-- Unless an alternative subflow has caught the exception of a restart, or a subflow that a
restart had finished was marked as challenged, a completed flow has carried out its required
executions, and so has every subflow that succeeded. -/
theorem required_done (display : Option Display) (calls : List (Request × Nat))
    (s : Processor) (hrun : Machine.run (step b flow) (fresh display) calls = some s)
    (c : AuthenticationSession × Trace) (hc : c ∈ s.completions)
    (hcaught : c.2.caughtRestart = false) (hunfinished : c.2.unfinished = false) :
    RequiredDone c.1.executionStatus flow.executions :=
  ((runInv_run b flow hrun).1.completed c hc hcaught).2 hunfinished

theorem attemptedAlternative_requiredDone :
    ∃ s, Machine.run (step (scripted [(4, .attempted)] 2) requiredAndAlternative) (fresh none)
        [(.authenticate, 1)] = some s ∧
      ∃ c ∈ s.completions, c.2.caughtRestart = false ∧ c.2.unfinished = false ∧
        RequiredDone c.1.executionStatus requiredAndAlternative.executions := by
  refine ⟨_, rfl, ?_⟩
  have hcompleted : ∃ c ∈ (handle (scripted [(4, .attempted)] 2) requiredAndAlternative 1
      .authenticate (fresh none)).2.completions,
      c.2.caughtRestart = false ∧ c.2.unfinished = false := by
    decide
  obtain ⟨c, hc, hcaught, hunfinished⟩ := hcompleted
  exact ⟨c, hc, hcaught, hunfinished, required_done _ requiredAndAlternative none
    [(.authenticate, 1)] _ rfl c hc hcaught hunfinished⟩

def resetInAlternative : AuthenticationFlow where
  executions := [.authenticator "R" .required form,
    .flow "S" .alternative [.authenticator "X" .required form]]
  otherExecutions := []
  wellFormed := ⟨by decide, by decide⟩

def resetBelowAlternative : AuthenticationFlow where
  executions := [.flow "P" .alternative [.flow "S" .required [.authenticator "X" .required form]],
    .authenticator "Y" .required form]
  otherExecutions := []
  wellFormed := ⟨by decide, by decide⟩

/-- In the first run `X` resets the flow, `R` then fails in the restarted flow, and the handler
of `S` catches that: the flow completes without `R`. In the second run the restarted flow
finishes `P` and `S` and asks for `Y`, then `S` is marked as challenged; the action for `Y`
completes the flow with `P` successful and `S` not. -/
theorem reset_completed_without_required :
    (∃ s, Machine.run (step (scripted [(4, .flowReset), (7, .attempted)] 7) resetInAlternative)
        (fresh none) [(.authenticate, 2)] = some s ∧
      ∃ c ∈ s.completions, ¬ RequiredDone c.1.executionStatus resetInAlternative.executions) ∧
    (∃ s, Machine.run (step (scripted [(2, .flowReset), (7, .challenge)] 10)
        resetBelowAlternative) (fresh none) [(.authenticate, 2), (.action "Y", 1)] = some s ∧
      ∃ c ∈ s.completions,
        ¬ RequiredDone c.1.executionStatus resetBelowAlternative.executions) := by
  refine ⟨⟨_, rfl, ?_⟩, ⟨_, rfl, ?_⟩⟩
  · have hstatus : ∃ c ∈ (handle (scripted [(4, .flowReset), (7, .attempted)] 7)
        resetInAlternative 2 .authenticate (fresh none)).2.completions,
        c.1.executionStatus "R" = none := by
      decide
    obtain ⟨c, hc, hnone⟩ := hstatus
    refine ⟨c, hc, fun hdone => ?_⟩
    rcases hdone.1 rfl with h | h <;> rw [hnone] at h <;> cases h
  · have hstatus : ∃ c ∈ (handle (scripted [(2, .flowReset), (7, .challenge)] 10)
        resetBelowAlternative 1 (.action "Y")
        (handle (scripted [(2, .flowReset), (7, .challenge)] 10) resetBelowAlternative 2
          .authenticate (fresh none)).2).2.completions,
        c.1.executionStatus "P" = some .success ∧
          c.1.executionStatus "S" ≠ some .success := by
      decide
    obtain ⟨c, hc, hsuccess, hchallenged⟩ := hstatus
    refine ⟨c, hc, fun hdone => ?_⟩
    exact hchallenged ((hdone.1.2 hsuccess).1.1 rfl)

/-! ## Displayed challenges -/

/-- The note names the execution `e`, and the `processAction` of the next `authenticationAction`
for `e` calls the authenticator of `e`. -/
def CanAnswer (t : Processor) (e : String) : Prop :=
  t.session.current = some (.execution e) ∧ ∀ depth, e :: t.trace.actions <:+
    (processAction b (restart b flow.executions depth) e flow.executions .new
      (validateUser b t.tick).2).2.trace.actions

theorem validateUser_same (s : Processor) :
    (validateUser b s).2.session = s.session ∧ (validateUser b s).2.trace = s.trace := by
  unfold validateUser
  split
  · exact ⟨rfl, rfl⟩
  · split <;> exact ⟨rfl, rfl⟩

theorem canAnswer_of_answerable {t : Processor} {e : String} (hinv : RunInv flow.executions t)
    (hcaught : t.trace.caughtRestart = false)
    (hcurrent : t.session.current = some (.execution e))
    (hanswerable : Answerable t e flow.executions) : CanAnswer b flow t e := by
  refine ⟨hcurrent, fun depth => ?_⟩
  have hquiet := (Quiet.tick t).trans (validateUser_quiet b t.tick)
  obtain ⟨hsession, htrace⟩ := validateUser_same b t.tick
  have hready : CurrentReady flow.executions (validateUser b t.tick).2 :=
    hquiet.currentReady (hinv.2 hcaught)
  have hdisplay : (validateUser b t.tick).2.session.display = t.session.display := by
    rw [hsession]
    rfl
  have hanswerable' : Answerable (validateUser b t.tick).2 e flow.executions :=
    Answerable.congr hdisplay flow.executions (fun i _ => by rw [hquiet.status_eq]) hanswerable
  have hactions := processAction_reaches b (restart_setting b flow.wellFormed depth)
    flow.executions flow.executions [] .new (validateUser b t.tick).2 (.here _) rfl
    (hquiet.sound hinv.1) (Context.start _ _) (hready e (hquiet.current.trans hcurrent))
    hanswerable'
  rw [htrace] at hactions
  exact hactions

/-- A challenge that a request returns can be answered, unless in the run up to here a challenge
that was kept back has been returned, an alternative subflow has caught the exception of a
restart, or a subflow that a restart had finished was marked as challenged. -/
theorem challenge_answerable (display : Option Display) (calls : List (Request × Nat))
    (s : Processor) (hrun : Machine.run (step b flow) (fresh display) calls = some s)
    (depth : Nat) (request : Request) (e : String) (t : Processor)
    (hhandle : handle b flow depth request s = (.response (.challenge e), t))
    (hreturned : t.trace.returnedAlternative = false)
    (hcaught : t.trace.caughtRestart = false) (hunfinished : t.trace.unfinished = false) :
    CanAnswer b flow t e := by
  have hinv := runInv_run b flow hrun
  have hspec := handle_spec b flow hinv depth request
  have hinv' := runInv_handle b flow hinv depth request
  rw [hhandle] at hspec hinv'
  obtain ⟨hcurrent, _, hanswerable⟩ := (hspec.2.2.2 hcaught).2.2 (.challenge e) rfl e rfl
    hreturned hunfinished
  exact canAnswer_of_answerable b flow hinv' hcaught hcurrent hanswerable

theorem challenge_of_required_answerable :
    ∃ t, handle (scripted [(2, .challenge)] 5) requiredAndAlternative 1 .authenticate
        (fresh none) = (.response (.challenge "R"), t) ∧
      CanAnswer (scripted [(2, .challenge)] 5) requiredAndAlternative t "R" := by
  have hhandle : handle (scripted [(2, .challenge)] 5) requiredAndAlternative 1 .authenticate
      (fresh none) = (.response (.challenge "R"), (handle (scripted [(2, .challenge)] 5)
        requiredAndAlternative 1 .authenticate (fresh none)).2) := rfl
  exact ⟨_, hhandle, challenge_answerable _ requiredAndAlternative none [] (fresh none) rfl 1
    .authenticate "R" _ hhandle (by decide) (by decide) (by decide)⟩

def alternativeThenCredential : AuthenticationFlow where
  executions := [.authenticator "A" .alternative form, .authenticator "R" .required credential]
  otherExecutions := []
  wellFormed := ⟨by decide, by decide⟩

def resetInRequired : AuthenticationFlow where
  executions := [.flow "S" .required [.authenticator "X" .required form],
    .authenticator "Y" .required form]
  otherExecutions := []
  wellFormed := ⟨by decide, by decide⟩

def resetAfterRequired : AuthenticationFlow where
  executions := [.flow "Q" .required [.authenticator "W" .required form],
    .flow "S" .alternative [.authenticator "X" .required form],
    .authenticator "Z" .required form]
  otherExecutions := []
  wellFormed := ⟨by decide, by decide⟩

/-- The challenge of `A` is returned without the note. The challenge of `Y` comes from a flow
that was restarted inside `S`, which is then marked as challenged, and that of `Z` from a flow
whose restart has forgotten `Q`: the action for either goes down into the subflow and fails. -/
theorem challenges_unanswerable :
    (∃ t, handle (scripted [(2, .challenge)] 9) alternativeThenCredential 1 .authenticate
        (fresh none) = (.response (.challenge "A"), t) ∧
      ¬ CanAnswer (scripted [(2, .challenge)] 9) alternativeThenCredential t "A") ∧
    (∃ t, handle (scripted [(2, .flowReset), (7, .challenge)] 10) resetInRequired 2
        .authenticate (fresh none) = (.response (.challenge "Y"), t) ∧
      ¬ CanAnswer (scripted [(2, .flowReset), (7, .challenge)] 10) resetInRequired t "Y") ∧
    (∃ t, handle (scripted [(4, .flowReset), (7, .attempted), (9, .challenge)] 12)
        resetAfterRequired 2 .authenticate (fresh none) = (.response (.challenge "Z"), t) ∧
      ¬ CanAnswer (scripted [(4, .flowReset), (7, .attempted), (9, .challenge)] 12)
        resetAfterRequired t "Z") := by
  refine ⟨⟨_, rfl, fun h => ?_⟩, ⟨_, rfl, fun h => ?_⟩, ⟨_, rfl, fun h => ?_⟩⟩
  · exact absurd h.1 (by decide)
  · exact absurd (h.2 0) (by decide)
  · exact absurd (h.2 0) (by decide)

end Runs

end Keycloak.Authentication
