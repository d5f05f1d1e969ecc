import Mathlib.Data.List.Nodup

/-!
# Authentication flows and the authentication session

The tree of executions of a flow, the part of the authentication session that the engine reads
and writes, and what the engine takes from outside: the answers of the authenticators, which
are arbitrary.

The processor carries a trace besides the session. It is not read by the engine; it records the
events that the statements about whole runs speak of.
-/

namespace Keycloak.Authentication

inductive Requirement where
  | required
  | optional
  | alternative
  | disabled
deriving DecidableEq, Repr

inductive ExecutionStatus where
  | failed
  | success
  | setupRequired
  | attempted
  | skipped
  | challenged
deriving DecidableEq, Repr

/-- What the engine asks of an authenticator factory and its authenticator. `registered` is
false where the provider is not found, `supportsConsole` where `createDisplay` gives nothing
for the console. -/
structure AuthenticatorFactory where
  registered : Bool
  requiresUser : Bool
  isUserSetupAllowed : Bool
  supportsConsole : Bool
deriving DecidableEq, Repr

inductive Execution where
  | authenticator (id : String) (requirement : Requirement) (factory : AuthenticatorFactory)
  | flow (id : String) (requirement : Requirement) (executions : List Execution)

namespace Execution

def id : Execution → String
  | authenticator id _ _ => id
  | flow id _ _ => id

def requirement : Execution → Requirement
  | authenticator _ requirement _ => requirement
  | flow _ requirement _ => requirement

def isAuthenticatorFlow : Execution → Bool
  | authenticator _ _ _ => false
  | flow _ _ _ => true

def isRequired (x : Execution) : Bool := x.requirement = .required

def isAlternative (x : Execution) : Bool := x.requirement = .alternative

def isDisabled (x : Execution) : Bool := x.requirement = .disabled

end Execution

mutual

def Execution.ids : Execution → List String
  | .authenticator id _ _ => [id]
  | .flow id _ executions => id :: idsOf executions

def idsOf : List Execution → List String
  | [] => []
  | x :: rest => x.ids ++ idsOf rest

end

mutual

def noOptionalFlow : List Execution → Bool
  | [] => true
  | x :: rest => x.noOptionalFlow && noOptionalFlow rest

def Execution.noOptionalFlow : Execution → Bool
  | .authenticator _ _ _ => true
  | .flow _ requirement executions =>
      decide (requirement ≠ .optional) && Authentication.noOptionalFlow executions

end

/-- What is assumed of the executions of a flow: identifiers are distinct, and subflows are not
optional, which would make the engine ignore their challenges. -/
structure WellFormed (executions : List Execution) : Prop where
  nodup : (idsOf executions).Nodup
  noOptional : noOptionalFlow executions = true

/-- `FlowStatus` as an authenticator reports it. The statuses that come with a challenge always
have one, except that a failure may have none. -/
inductive Report where
  | success
  | challenge
  | forceChallenge
  | failureChallenge
  | failed (hasChallenge : Bool)
  | attempted
  | fork
  | flowReset
deriving DecidableEq, Repr

inductive UserChange where
  | keep
  | set (user : String)
  | clear
deriving DecidableEq, Repr

structure Behaviour where
  report : Nat → Report
  userChange : Nat → UserChange
  configuredFor : Nat → Bool
  userEnabled : Nat → Bool
  expired : Nat → Bool
  requiredAction : Nat → Bool

inductive Current where
  | execution (id : String)
  | requiredAction
deriving DecidableEq, Repr

inductive Display where
  | console
  | other
deriving DecidableEq, Repr

inductive Action where
  | authenticate
  | requiredActions
deriving DecidableEq, Repr

structure AuthenticationSession where
  executionStatus : String → Option ExecutionStatus
  authenticatedUser : Option String
  current : Option Current
  display : Option Display
  action : Action

structure Trace where
  /-- How often the flow was reset. -/
  resets : Nat
  /-- The alternatives whose challenge was kept back since the last reset. -/
  setAside : List String
  /-- An alternative subflow's exception handler has caught the exception of a restart. -/
  caughtRestart : Bool
  /-- A required subflow that a restart had finished was marked as challenged. -/
  unfinished : Bool
  /-- A kept back challenge was returned. -/
  returnedAlternative : Bool
  /-- The executions whose `action` was called, the last one first. -/
  actions : List String

structure Processor where
  session : AuthenticationSession
  clock : Nat
  trace : Trace
  /-- The session and the trace at each call of `authenticationComplete`. -/
  completions : List (AuthenticationSession × Trace)

namespace Processor

def status (s : Processor) (id : String) : Option ExecutionStatus := s.session.executionStatus id

def tick (s : Processor) : Processor := { s with clock := s.clock + 1 }

def setExecutionStatus (s : Processor) (id : String) (status : ExecutionStatus) : Processor :=
  { s with session := { s.session with
      executionStatus := Function.update s.session.executionStatus id (some status) } }

def setCurrent (s : Processor) (current : Option Current) : Processor :=
  { s with session := { s.session with current := current } }

def setUser (s : Processor) (user : Option String) : Processor :=
  { s with session := { s.session with authenticatedUser := user } }

def removeDisplay (s : Processor) : Processor :=
  { s with session := { s.session with display := none } }

def setAside (s : Processor) (id : String) : Processor :=
  { s with trace := { s.trace with setAside := id :: s.trace.setAside } }

def markCaughtRestart (s : Processor) (caught : Bool) : Processor :=
  { s with trace := { s.trace with caughtRestart := s.trace.caughtRestart || caught } }

def markUnfinished (s : Processor) (unfinished : Bool) : Processor :=
  { s with trace := { s.trace with unfinished := s.trace.unfinished || unfinished } }

def markReturnedAlternative (s : Processor) : Processor :=
  { s with trace := { s.trace with returnedAlternative := true } }

def recordAction (s : Processor) (id : String) : Processor :=
  { s with trace := { s.trace with actions := id :: s.trace.actions } }

end Processor

def processedStatus : Option ExecutionStatus → Bool
  | some .success | some .skipped | some .attempted | some .setupRequired => true
  | _ => false

def isProcessed (s : Processor) (x : Execution) : Bool :=
  x.isDisabled || processedStatus (s.status x.id)

def isSuccessful (s : Processor) (x : Execution) : Bool := s.status x.id = some .success

end Keycloak.Authentication
