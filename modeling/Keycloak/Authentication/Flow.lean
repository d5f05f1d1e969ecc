import Keycloak.Authentication.Executions

/-!
# The authentication flow engine

`DefaultAuthenticationFlow` and the requests of `AuthenticationProcessor`. A flow object's
iterator is the list of the executions that are left, and its fields are a `FlowState`. A
`FLOW_RESET` starts the whole authentication again from inside the run; the engine below takes
that restart as a parameter, and `authenticate` ties the knot up to a depth of the call stack.
-/

namespace Keycloak.Authentication

inductive FlowError where
  | unknownUser
  | userConflict
  | userDisabled
  | invalidCredentials
  | credentialSetupRequired
  | displayNotSupported
  | invalidClientSession
  | expiredCode
  | forkFlow
  | internalError
  /-- The error that came with a failure. -/
  | reported
deriving DecidableEq, Repr

inductive Raised where
  | flowException (error : FlowError)
  | runtimeException
deriving DecidableEq, Repr

inductive Response where
  /-- The challenge that the authenticator of an execution produced. -/
  | challenge (execution : String)
  | complete
  | pageExpired
deriving DecidableEq, Repr

inductive Outcome where
  | null
  | response (response : Response)
  | raised (exception : Raised)
deriving DecidableEq, Repr

/-- The fields of a `DefaultAuthenticationFlow`. `alternativeChallenge` comes with the identifier
of `challengedAlternativeExecution`. -/
structure FlowState where
  alternativeChallenge : Option (Response × String)
  alternativeSuccessful : Bool
deriving DecidableEq, Repr

def FlowState.new : FlowState := ⟨none, false⟩

def FlowState.pass (f : FlowState) (s : Processor) (x : Execution) : FlowState :=
  { f with alternativeSuccessful :=
      f.alternativeSuccessful || (x.isAlternative && isSuccessful s x) }

def FlowState.succeed (f : FlowState) (requirement : Requirement) : FlowState :=
  { f with alternativeSuccessful :=
      f.alternativeSuccessful || decide (requirement = .alternative) }

section Engine

variable (b : Behaviour)

def validateUser (s : Processor) : Option Raised × Processor :=
  match s.session.authenticatedUser with
  | none => (none, s)
  | some _ =>
      if b.userEnabled s.clock then (none, s.tick)
      else (some (.flowException .userDisabled), s.tick)

def setAuthenticatedUser (s : Processor) (user : String) : Option Raised × Processor :=
  if s.session.authenticatedUser.any (· ≠ user) then
    (some (.flowException .userConflict), s)
  else if b.userEnabled s.clock then (none, s.setUser (some user))
  else (some (.flowException .userDisabled), s)

/-- A call of `authenticate` or `action`, up to the report it makes. -/
def callAuthenticator (s : Processor) : Option Raised × Processor :=
  match b.userChange s.clock with
  | .keep => (none, s.tick)
  | .clear => (none, (s.setUser none).tick)
  | .set user =>
      match setAuthenticatedUser b s user with
      | (e, s') => (e, s'.tick)

def createAuthenticator (factory : AuthenticatorFactory) (s : Processor) :
    Option Raised × Processor :=
  match s.session.display with
  | some .console =>
      if factory.supportsConsole then (none, s)
      else (some (.flowException .displayNotSupported), s.removeDisplay)
  | _ => (none, s)

def sendChallenge (s : Processor) (id : String) : Outcome × Processor :=
  (.response (.challenge id), s.setCurrent (some (.execution id)))

variable (restart : Processor → Outcome × Processor)

def processResult (id : String) (requirement : Requirement) (report : Report) (f : FlowState)
    (s : Processor) : Outcome × FlowState × Processor :=
  match report with
  | .success => (.null, f.succeed requirement, s.setExecutionStatus id .success)
  | .failed hasChallenge =>
      if hasChallenge then
        let (o, s') := sendChallenge (s.setExecutionStatus id .failed) id
        (o, f, s')
      else (.raised (.flowException .reported), f, s.setExecutionStatus id .failed)
  | .fork => (.raised (.flowException .forkFlow), f, s.setCurrent (some (.execution id)))
  | .forceChallenge | .failureChallenge =>
      let (o, s') := sendChallenge (s.setExecutionStatus id .challenged) id
      (o, f, s')
  | .challenge =>
      if requirement = .required ∨
          (requirement = .optional ∧ s.session.authenticatedUser.isSome ∧
            b.configuredFor s.clock) then
        let (o, s') := sendChallenge (s.tick.setExecutionStatus id .challenged) id
        (o, f, s')
      else if requirement = .alternative then
        (.null, { f with alternativeChallenge := some (.challenge id, id) }, s.setAside id)
      else (.null, f, s.tick.setExecutionStatus id .skipped)
  | .attempted =>
      if requirement = .required then (.raised (.flowException .invalidCredentials), f, s)
      else (.null, f, s.setExecutionStatus id .attempted)
  | .flowReset =>
      let (o, s') := restart s
      (o, f, s')

/-- The body of the loop of `processFlow` for an execution that is not a flow. -/
def processAuthenticator (id : String) (requirement : Requirement)
    (factory : AuthenticatorFactory) (f : FlowState) (s : Processor) :
    Outcome × FlowState × Processor :=
  if factory.registered = false then (.raised .runtimeException, f, s)
  else
    match createAuthenticator factory s with
    | (some e, s') => (.raised e, f, s')
    | (none, s') =>
        if factory.requiresUser ∧ s'.session.authenticatedUser = none then
          match f.alternativeChallenge with
          | some (challenge, challenged) =>
              (.response challenge, f,
                (s'.setExecutionStatus challenged .challenged).markReturnedAlternative)
          | none => (.raised (.flowException .unknownUser), f, s')
        else if factory.requiresUser ∧ b.configuredFor s'.clock = false ∧
            requirement = .required then
          if factory.isUserSetupAllowed then
            (.null, f, s'.tick.setExecutionStatus id .setupRequired)
          else (.raised (.flowException .credentialSetupRequired), f, s'.tick)
        else if factory.requiresUser ∧ b.configuredFor s'.clock = false ∧
            requirement = .optional then
          (.null, f, s'.tick.setExecutionStatus id .skipped)
        else
          match callAuthenticator b s'.tick with
          | (some e, s'') => (.raised e, f, s'')
          | (none, s'') =>
              processResult b restart id requirement (b.report s'.tick.clock) f s''

def leaveSubflow (id : String) (requirement : Requirement) (f : FlowState) (s : Processor) :
    Outcome × Processor → Outcome × FlowState × Processor
  | (.raised (.flowException e), s') =>
      if requirement = .alternative then
        (.null, f, (s'.setExecutionStatus id .attempted).markCaughtRestart
          (decide (s'.trace.resets ≠ s.trace.resets)))
      else (.raised (.flowException e), f, s')
  | (.raised .runtimeException, s') => (.raised .runtimeException, f, s')
  | (.null, s') => (.null, f.succeed requirement, s'.setExecutionStatus id .success)
  | (.response r, s') =>
      match requirement with
      | .alternative => (.response r, { f with alternativeChallenge := some (r, id) }, s')
      | .required =>
          (.response r, f, (s'.setExecutionStatus id .challenged).markUnfinished
            (decide (s'.status id = some .success)))
      | .optional | .disabled => (.null, f, s'.setExecutionStatus id .skipped)

mutual

def processFlow : List Execution → FlowState → Processor → Outcome × Processor
  | [], _, s => (.null, s)
  | x :: rest, f, s =>
      match processExecution x f s with
      | (.null, f', s') => processFlow rest f' s'
      | (o, _, s') => (o, s')

/-- One round of the loop of `processFlow`; `null` goes on to the next execution. -/
def processExecution : Execution → FlowState → Processor → Outcome × FlowState × Processor
  | .authenticator id requirement factory, f, s =>
      if isProcessed s (.authenticator id requirement factory) then
        (.null, f.pass s (.authenticator id requirement factory), s)
      else if requirement = .alternative ∧ f.alternativeSuccessful then
        (.null, f, s.setExecutionStatus id .skipped)
      else processAuthenticator b restart id requirement factory f s
  | .flow id requirement executions, f, s =>
      if isProcessed s (.flow id requirement executions) then
        (.null, f.pass s (.flow id requirement executions), s)
      else if requirement = .alternative ∧ f.alternativeSuccessful then
        (.null, f, s.setExecutionStatus id .skipped)
      else leaveSubflow id requirement f s (processFlow executions .new s)

end

/-- The branch of `processAction` for the execution that the action is meant for. -/
def performAction (id : String) (requirement : Requirement) (factory : AuthenticatorFactory)
    (f : FlowState) (s : Processor) : Outcome × FlowState × Processor :=
  if factory.registered = false then (.raised .runtimeException, f, s)
  else
    match createAuthenticator factory s with
    | (some e, s') => (.raised e, f, s')
    | (none, s') =>
        match callAuthenticator b (s'.recordAction id) with
        | (some e, s'') => (.raised e, f, s'')
        | (none, s'') =>
            match processResult b restart id requirement (b.report s'.clock) f s'' with
            | (.null, f', t) => (.null, f', t.setCurrent none)
            | ended => ended

variable (actionExecution : String)

mutual

def processAction : List Execution → FlowState → Processor → Outcome × Processor
  | [], _, s => (.raised (.flowException .internalError), s)
  | x :: rest, f, s =>
      if isProcessed s x then processAction rest (f.pass s x) s
      else
        match processActionOn x f s with
        | none => processAction rest f s
        | some (.null, f', s') => processFlow b restart rest f' s'
        | some (o, _, s') => (o, s')

/-- The body of the loop of `processAction`; `none` is an authenticator that the action is not
meant for. -/
def processActionOn : Execution → FlowState → Processor →
    Option (Outcome × FlowState × Processor)
  | .authenticator id requirement factory, f, s =>
      if id = actionExecution then some (performAction b restart id requirement factory f s)
      else none
  | .flow id requirement executions, f, s =>
      match processAction executions .new s with
      | (.null, s') => some (.null, f.succeed requirement, s'.setExecutionStatus id .success)
      | (o, s') => some (o, f, s')

end

end Engine

/-! ## The requests of the authentication processor -/

section Requests

variable (b : Behaviour)

def resetFlow (s : Processor) : Processor :=
  { s with
    session :=
      { executionStatus := fun _ => none
        authenticatedUser := none
        current := none
        display := none
        action := .authenticate }
    trace := { s.trace with resets := s.trace.resets + 1, setAside := [] } }

/-- `authenticationComplete`, which redirects to a required action where there is one. -/
def authenticationComplete (s : Processor) : Outcome × Processor :=
  let s' := { s.tick with completions := (s.session, s.trace) :: s.completions }
  if b.requiredAction s.clock then
    (.response .complete,
      { s' with session :=
          { s'.session with current := some .requiredAction, action := .requiredActions } })
  else (.response .complete, s')

/-- The end of `authenticate` and `authenticationAction`: a flow that returned `null` must have
found the user. -/
def finishFlow : Outcome × Processor → Outcome × Processor
  | (.null, s) =>
      if s.session.authenticatedUser = none then (.raised (.flowException .unknownUser), s)
      else authenticationComplete b s
  | ended => ended

variable (executions : List Execution)

/-- `authenticate`, that is `authenticateOnly` followed by `authenticationComplete`. -/
def authenticateWith (restart : Processor → Outcome × Processor) (s : Processor) :
    Outcome × Processor :=
  if b.expired s.clock then (.raised (.flowException .expiredCode), s.tick)
  else
    match validateUser b s.tick with
    | (some e, s') => (.raised e, s')
    | (none, s') => finishFlow b (processFlow b restart executions .new s')

/-- `authenticate` on a call stack that takes `depth` nested calls of it. -/
def authenticate : Nat → Processor → Outcome × Processor
  | 0, s => (.raised .runtimeException, s)
  | depth + 1, s => authenticateWith b executions (fun t => authenticate depth (resetFlow t)) s

/-- What a `FLOW_RESET` does on a call stack that takes `depth` more calls. -/
def restart (depth : Nat) (s : Processor) : Outcome × Processor :=
  authenticate b executions depth (resetFlow s)

variable (otherExecutions : List String)

/-- `authenticationAction`. The realm has the executions of this flow and others. -/
def authenticationAction (depth : Nat) (execution : String) (s : Processor) :
    Outcome × Processor :=
  if s.session.action ≠ .authenticate then
    (.raised (.flowException .invalidClientSession), s)
  else if b.expired s.clock then (.raised (.flowException .expiredCode), s.tick)
  else if s.session.current ≠ some (.execution execution) then (.response .pageExpired, s.tick)
  else
    match validateUser b s.tick with
    | (some e, s') => (.raised e, s')
    | (none, s') =>
        if execution ∈ idsOf executions ∨ execution ∈ otherExecutions then
          finishFlow b
            (processAction b (restart b executions depth) execution executions .new s')
        else restart b executions depth s'

end Requests

end Keycloak.Authentication
