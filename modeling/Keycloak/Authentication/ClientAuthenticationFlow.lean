import Keycloak.Authentication.Executions

/-!
# Client authentication

`ClientAuthenticationFlow.processFlow`.  What an authenticator reports in a call, and which
client it leaves in the processor, is arbitrary; it may depend on all calls before.

The flow carries the calls that were made.  It does not read them.
-/

namespace Keycloak.ClientAuthentication

open Authentication (Requirement)

inductive FlowStatus where
  | success
  | challenge
  | forceChallenge
  | failureChallenge
  | failed
  | attempted
  | fork
  | flowReset
deriving DecidableEq, Repr

structure Execution where
  id : String
  authenticator : String
  requirement : Requirement
deriving DecidableEq, Repr

structure ClientModel where
  clientId : String
  clientAuthenticatorType : Option String
deriving DecidableEq, Repr

section

variable {Response : Type}

/-- `AuthenticationProcessor.Result` after a call, with the client that the processor has
then. -/
structure Result (Response : Type) where
  status : Option FlowStatus
  challenge : Option Response
  error : Option String
  client : Option ClientModel

structure Call (Response : Type) where
  execution : Execution
  factoryId : String
  result : Result Response

/-- The factories by the name of their provider, and the authenticators they create; a call
without a result is one that throws. -/
structure Authenticators (Response : Type) where
  getProviderFactory : String → Option String
  authenticateClient : List (Call Response) → Execution → Option (Result Response)

inductive Raised where
  | flowException (error : Option String)
  | runtimeException
deriving DecidableEq, Repr

inductive Outcome (Response : Type) where
  | null
  | response (response : Response)
  | raised (exception : Raised)

inductive Event where
  | error (error : String)
  | clientAuthMethod (factoryId : String)
deriving DecidableEq, Repr

structure Flow (Response : Type) where
  alternativeChallenge : Option Response
  events : List Event
  calls : List (Call Response)

def Flow.new : Flow Response := ⟨none, [], []⟩

def Flow.report (f : Flow Response) (event : Event) : Flow Response :=
  { f with events := f.events ++ [event] }

def Flow.record (f : Flow Response) (call : Call Response) : Flow Response :=
  { f with calls := f.calls ++ [call] }

def Outcome.ofResponse : Option Response → Outcome Response
  | none => .null
  | some challenge => .response challenge

/-- The loop of `findExecutionsToRun`: the first required execution runs alone, otherwise all
alternative ones. -/
def findExecutionsToRun : List Execution → List Execution → List Execution
  | [], executionsToRun => executionsToRun
  | execution :: rest, executionsToRun =>
      if execution.requirement = .required then [execution]
      else if execution.requirement = .alternative then
        findExecutionsToRun rest (executionsToRun ++ [execution])
      else findExecutionsToRun rest executionsToRun

def sendChallenge (result : Result Response) (f : Flow Response) :
    Outcome Response × Flow Response :=
  let error := match result.error with
    | some error => error.toLower
    | none => if result.client = none then "invalid_client" else "invalid_client_credentials"
  (.ofResponse result.challenge, f.report (.error error))

def processResult (result : Result Response) (f : Flow Response) :
    Outcome Response × Flow Response :=
  match result.status with
  | none => (.raised .runtimeException, f)
  | some .success => (.null, f)
  | some .failed =>
      if result.challenge.isSome then sendChallenge result f
      else (.raised (.flowException result.error), f)
  | some .forceChallenge => sendChallenge result f
  | some .challenge =>
      let f := if f.alternativeChallenge.isNone then
          { f with alternativeChallenge := result.challenge } else f
      sendChallenge result f
  | some .failureChallenge => sendChallenge result f
  | some .attempted | some .fork | some .flowReset =>
      (.raised (.flowException (some "internal_error")), f)

def expectedClientAuthType (client : ClientModel) : String :=
  client.clientAuthenticatorType.getD "client-secret"

variable (authenticators : Authenticators Response)

def processExecutions : List Execution → Flow Response → Outcome Response × Flow Response
  | [], f =>
      match f.alternativeChallenge with
      | some challenge => (.response challenge, f.report (.error "invalid_client"))
      | none => (.raised (.flowException (some "invalid_credentials")), f)
  | model :: rest, f =>
      match authenticators.getProviderFactory model.authenticator with
      | none => (.raised (.flowException (some "internal_error")), f)
      | some factoryId =>
          match authenticators.authenticateClient f.calls model with
          | none => (.raised .runtimeException, f)
          | some result =>
              let f := f.record ⟨model, factoryId, result⟩
              match result.client with
              | none => processExecutions rest f
              | some client =>
                  if factoryId = expectedClientAuthType client then
                    match processResult result f with
                    | (.null, f) =>
                        if result.status = some .success then
                          (.null, f.report (.clientAuthMethod factoryId))
                        else (.raised (.flowException (some "internal_error")), f)
                    | (outcome, f) => (outcome, f)
                  else processExecutions rest f

def processFlow (executions : List Execution) : Outcome Response × Flow Response :=
  processExecutions authenticators (findExecutionsToRun executions []) .new

end

section

variable {Response : Type} {authenticators : Authenticators Response}
  {executions executionsToRun : List Execution} {execution : Execution}
  {f f' : Flow Response} {result : Result Response}

theorem mem_findExecutionsToRun
    (h : execution ∈ findExecutionsToRun executions executionsToRun) :
    execution ∈ executionsToRun ∨ execution ∈ executions ∧
      (execution.requirement = .required ∨ execution.requirement = .alternative) := by
  induction executions generalizing executionsToRun with
  | nil => exact .inl h
  | cons x rest ih =>
      rw [findExecutionsToRun] at h
      split at h
      · rename_i hrequired
        cases List.mem_singleton.mp h
        exact .inr ⟨List.mem_cons_self, .inl hrequired⟩
      · split at h
        · rename_i halternative
          rcases ih h with hmem | ⟨hmem, hrequirement⟩
          · rcases List.mem_append.mp hmem with hmem | hmem
            · exact .inl hmem
            · cases List.mem_singleton.mp hmem
              exact .inr ⟨List.mem_cons_self, .inr halternative⟩
          · exact .inr ⟨List.mem_cons_of_mem _ hmem, hrequirement⟩
        · rcases ih h with hmem | ⟨hmem, hrequirement⟩
          · exact .inl hmem
          · exact .inr ⟨List.mem_cons_of_mem _ hmem, hrequirement⟩

theorem calls_processResult : (processResult result f).2.calls = f.calls := by
  unfold processResult
  split
  · rfl
  · rfl
  · split
    · rfl
    · rfl
  · rfl
  · split
    · rfl
    · rfl
  · rfl
  · rfl
  · rfl
  · rfl

structure Authenticates (authenticators : Authenticators Response) (before : List (Call Response))
    (call : Call Response) : Prop where
  factory : authenticators.getProviderFactory call.execution.authenticator = some call.factoryId
  called : authenticators.authenticateClient before call.execution = some call.result
  success : call.result.status = some .success
  client : ∃ client, call.result.client = some client ∧
    expectedClientAuthType client = call.factoryId

/-- One execution that ends the loop with `null` authenticates the client; otherwise the loop
goes on. -/
theorem processExecutions_cons (h : processExecutions authenticators (execution :: executions) f =
      (.null, f')) :
    ∃ call, call.execution = execution ∧
      (Authenticates authenticators f.calls call ∧ f'.calls = f.calls ++ [call] ∨
        processExecutions authenticators executions (f.record call) = (.null, f')) := by
  rw [processExecutions] at h
  split at h
  · cases h
  · rename_i factoryId hfactory
    split at h
    · cases h
    · rename_i result hcalled
      refine ⟨⟨execution, factoryId, result⟩, rfl, ?_⟩
      dsimp only at h
      split at h
      · exact .inr h
      · rename_i client hclient
        split at h
        · rename_i htype
          have hcalls :
              (processResult result (f.record ⟨execution, factoryId, result⟩)).2.calls = _ :=
            calls_processResult
          split at h
          · rename_i f₁ hresult
            rw [hresult] at hcalls
            split at h
            · rename_i hsuccess
              cases h
              exact .inl ⟨⟨hfactory, hcalled, hsuccess, client, hclient, htype.symm⟩, hcalls⟩
            · cases h
          · rename_i hnull _
            cases h
            exact absurd rfl hnull
        · exact .inr h

theorem authenticates_of_processExecutions
    (h : processExecutions authenticators executions f = (.null, f')) :
    ∃ before call, f'.calls = before ++ [call] ∧ call.execution ∈ executions ∧
      Authenticates authenticators before call := by
  induction executions generalizing f with
  | nil =>
      rw [processExecutions] at h
      split at h
      · cases h
      · cases h
  | cons execution rest ih =>
      obtain ⟨call, hexecution, ⟨hauthenticates, hcalls⟩ | hrest⟩ := processExecutions_cons h
      · refine ⟨f.calls, call, hcalls, ?_, hauthenticates⟩
        rw [hexecution]
        exact List.mem_cons_self
      · obtain ⟨before, last, hcalls, hmem, hauthenticates⟩ := ih hrest
        exact ⟨before, last, hcalls, List.mem_cons_of_mem _ hmem, hauthenticates⟩

/-- The flow returns `null` only after the call of an enabled execution whose authenticator
reported success for a client of its own type. -/
theorem processFlow_null_authenticates
    (h : processFlow authenticators executions = (.null, f')) :
    ∃ before call, f'.calls = before ++ [call] ∧ call.execution ∈ executions ∧
      call.execution.requirement ≠ .disabled ∧ Authenticates authenticators before call := by
  obtain ⟨before, call, hcalls, hmem, hauthenticates⟩ := authenticates_of_processExecutions h
  rcases mem_findExecutionsToRun hmem with hnil | ⟨hmem, hrequirement⟩
  · exact absurd hnil List.not_mem_nil
  · refine ⟨before, call, hcalls, hmem, fun hdisabled => ?_, hauthenticates⟩
    rw [hdisabled] at hrequirement
    rcases hrequirement with heq | heq
    · cases heq
    · cases heq

end

/-- Two authenticators under their own names; the first finds no client, the second accepts
`app`. -/
def secretOrJwt : Authenticators Unit where
  getProviderFactory provider := some provider
  authenticateClient calls _ :=
    if calls.isEmpty then some ⟨some .attempted, none, none, none⟩
    else some ⟨some .success, none, none, some ⟨"app", none⟩⟩

theorem secretOrJwt_authenticates : ∃ f' before call,
    processFlow secretOrJwt [⟨"1", "client-jwt", .alternative⟩,
      ⟨"2", "client-secret", .alternative⟩] = (.null, f') ∧
    f'.calls = before ++ [call] ∧ Authenticates secretOrJwt before call := by
  obtain ⟨f', hflow⟩ : ∃ f', processFlow secretOrJwt [⟨"1", "client-jwt", .alternative⟩,
      ⟨"2", "client-secret", .alternative⟩] = (.null, f') := ⟨_, rfl⟩
  obtain ⟨before, call, hcalls, -, -, hauthenticates⟩ := processFlow_null_authenticates hflow
  exact ⟨f', before, call, hflow, hcalls, hauthenticates⟩

end Keycloak.ClientAuthentication
