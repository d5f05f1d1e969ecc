import Keycloak.Authentication.Executions
import Keycloak.Lib.JavaInt
import Keycloak.Lib.Machine
import Mathlib.Data.List.Sort
import Mathlib.Order.Nat

/-!
# Management of authentication flows

The rows of flows and executions of a realm, and the requests of the admin console that create,
copy, reorder and delete them.  An execution stands in its parent flow and may lead to a subflow;
the requests walk this graph, as deep as the stack allows.  A request that fails is rolled back.
-/

namespace Keycloak.Authentication.FlowManagement

structure AuthenticationFlow where
  id : Nat
  flowAlias : String
  description : Option String
  providerId : Option String
  builtIn : Bool
  topLevel : Bool
  deriving DecidableEq

structure AuthenticationExecution where
  id : Nat
  parentFlow : Nat
  requirement : Requirement
  priority : Int
  authenticator : Option String
  authenticatorConfig : Option String
  flowId : Option Nat
  authenticatorFlow : Bool
  deriving DecidableEq

/-- The rows of a realm; `usedFlows` are the flows that the realm or an identity provider is
bound to.  Ids are numbered in the order in which they are generated. -/
structure Realm where
  flows : List AuthenticationFlow
  executions : List AuthenticationExecution
  usedFlows : List Nat
  nextId : Nat
  deriving DecidableEq

inductive Failure where
  | exists (message : String)
  | notFound (message : String)
  | badRequest (message : String)
  | model (message : String)
  | runtime
  | stackOverflow
  deriving DecidableEq

/-- `ExecutionComparator`. -/
def NotLater (o₁ o₂ : AuthenticationExecution) : Prop :=
  JavaInt.wrap (o₁.priority - o₂.priority) ≤ 0

instance : DecidableRel NotLater := fun _ _ => inferInstanceAs (Decidable (_ ≤ _))

/-! ## `RealmAdapter` -/

namespace Realm

variable (r : Realm)

def getFlowByAlias (flowAlias : String) : Option AuthenticationFlow :=
  r.flows.find? (·.flowAlias = flowAlias)

def getAuthenticationFlowById (id : Nat) : Option AuthenticationFlow :=
  r.flows.find? (·.id = id)

def getAuthenticationExecutionById (id : Nat) : Option AuthenticationExecution :=
  r.executions.find? (·.id = id)

/-- The source has the rows in no order; here those that the comparator does not put in order
stay as they are. -/
def getAuthenticationExecutions (flowId : Nat) : List AuthenticationExecution :=
  (r.executions.filter (·.parentFlow = flowId)).insertionSort NotLater

def addAuthenticationFlow (model : AuthenticationFlow) : AuthenticationFlow × Realm :=
  ({ model with id := r.nextId },
    { r with flows := r.flows ++ [{ model with id := r.nextId }], nextId := r.nextId + 1 })

def updateAuthenticationFlow (model : AuthenticationFlow) : Realm :=
  { r with flows := r.flows.map fun entity => if entity.id = model.id then model else entity }

/-- The executions of the flow go with it. -/
def removeAuthenticationFlow (id : Nat) : Except Failure Realm :=
  if id ∈ r.usedFlows then
    .error (.model "Cannot remove authentication flow, it is currently in use")
  else .ok
    { r with
      flows := r.flows.filter (·.id ≠ id)
      executions := r.executions.filter (·.parentFlow ≠ id) }

def addAuthenticatorExecution (model : AuthenticationExecution) : Realm :=
  { r with executions := r.executions ++ [{ model with id := r.nextId }], nextId := r.nextId + 1 }

/-- All but the parent flow is set. -/
def updateAuthenticatorExecution (model : AuthenticationExecution) : Realm :=
  { r with executions := r.executions.map fun entity =>
      if entity.id = model.id then { model with parentFlow := entity.parentFlow } else entity }

def removeAuthenticatorExecution (id : Nat) : Realm :=
  { r with executions := r.executions.filter (·.id ≠ id) }

end Realm

/-! ## Listing -/

structure Factory where
  displayType : String
  configurable : Bool
  requirementChoices : List Requirement

structure Session where
  factory : Option String → Option Factory
  configAlias : String → Option String
  /-- Whether a factory is registered that goes with flows of the type. -/
  registered : (flowType : Option String) → Option String → Bool

structure Info where
  id : Nat
  level : Nat
  index : Nat
  requirementChoices : List Requirement
  requirement : Requirement
  displayName : String
  configurable : Bool
  authenticationFlow : Bool
  flowId : Option Nat
  configAlias : Option String
  providerId : Option String
  authenticationConfig : Option String
  deriving DecidableEq

def flowChoices (providerId : Option String) : List Requirement :=
  if providerId = some "basic-flow" then [.alternative, .required, .disabled]
  else if providerId = some "form-flow" then [.required, .disabled]
  else if providerId = some "client-flow" then [.alternative, .required, .disabled]
  else []

def flowInfo (execution : AuthenticationExecution) (flowRef : AuthenticationFlow)
    (level index : Nat) : Info where
  id := execution.id
  level := level
  index := index
  requirementChoices := flowChoices flowRef.providerId
  requirement := execution.requirement
  displayName := flowRef.flowAlias
  configurable := false
  authenticationFlow := true
  flowId := execution.flowId
  configAlias := none
  providerId := if flowRef.providerId = some "form-flow" then execution.authenticator else none
  authenticationConfig :=
    if flowRef.providerId = some "form-flow" then execution.authenticatorConfig else none

section

variable (session : Session)

def authenticatorInfo (execution : AuthenticationExecution) (factory : Factory)
    (level index : Nat) : Info where
  id := execution.id
  level := level
  index := index
  requirementChoices := factory.requirementChoices
  requirement := execution.requirement
  displayName := factory.displayType
  configurable := factory.configurable
  authenticationFlow := false
  flowId := none
  configAlias := if factory.configurable then execution.authenticatorConfig.bind session.configAlias
    else none
  providerId := execution.authenticator
  authenticationConfig := execution.authenticatorConfig

def listExecutions (r : Realm) (recurse : AuthenticationFlow → Nat → Except Failure (List Info))
    (level : Nat) : Nat → List AuthenticationExecution → Except Failure (List Info)
  | _, [] => .ok []
  | index, execution :: rest =>
      if execution.authenticatorFlow then
        match execution.flowId.bind r.getAuthenticationFlowById with
        | none => .error .runtime
        | some flowRef => do
            let sub ← recurse flowRef (level + 1)
            let result ← listExecutions r recurse level (index + 1) rest
            .ok (flowInfo execution flowRef level index :: (sub ++ result))
      else
        match session.factory execution.authenticator with
        | none => .error .runtime
        | some factory => do
            let result ← listExecutions r recurse level (index + 1) rest
            .ok (authenticatorInfo session execution factory level index :: result)

def recurseExecutions (r : Realm) : Nat → AuthenticationFlow → Nat → Except Failure (List Info)
  | 0, _, _ => .error .stackOverflow
  | depth + 1, flow, level =>
      listExecutions session r (recurseExecutions r depth) level 0
        (r.getAuthenticationExecutions flow.id)

end

/-! ## Copying -/

def copyExecutions (newName : String)
    (copy : Realm → AuthenticationFlow → AuthenticationFlow → Except Failure Realm)
    (target : AuthenticationFlow) : Realm → List AuthenticationExecution → Except Failure Realm
  | r, [] => .ok r
  | r, execution :: rest =>
      if execution.authenticatorFlow then
        match execution.flowId.bind r.getAuthenticationFlowById with
        | none => .error .runtime
        | some subFlow => do
            let added := r.addAuthenticationFlow
              { subFlow with
                flowAlias := newName ++ " " ++ subFlow.flowAlias, builtIn := false,
                topLevel := false }
            let copied ← copy added.2 subFlow added.1
            copyExecutions newName copy target (copied.addAuthenticatorExecution
              { execution with flowId := some added.1.id, parentFlow := target.id }) rest
      else
        copyExecutions newName copy target
          (r.addAuthenticatorExecution { execution with parentFlow := target.id }) rest

def copy (newName : String) : Nat → Realm → AuthenticationFlow → AuthenticationFlow →
    Except Failure Realm
  | 0, _, _, _ => .error .stackOverflow
  | depth + 1, r, source, target =>
      copyExecutions newName (copy newName depth) target r (r.getAuthenticationExecutions source.id)

def copyFlow (depth : Nat) (r : Realm) (flow : AuthenticationFlow) (newName : String) :
    Except Failure (AuthenticationFlow × Realm) := do
  let added := r.addAuthenticationFlow { flow with flowAlias := newName, builtIn := false }
  let copied ← copy newName depth added.2 flow added.1
  .ok (added.1, copied)

/-! ## Requests -/

structure FlowRepresentation where
  id : Option Nat
  flowAlias : Option String
  description : Option String
  providerId : Option String
  builtIn : Bool
  topLevel : Bool

/-- A flow under the id of the request, which must be free, or under a generated one. -/
def persistFlow (r : Realm) (id : Option Nat) (model : AuthenticationFlow) :
    Except Failure Realm :=
  match id with
  | none => .ok (r.addAuthenticationFlow model).2
  | some id =>
      if id ∈ r.flows.map (·.id) then .error .runtime
      else .ok
        { r with flows := r.flows ++ [{ model with id }], nextId := max r.nextId (id + 1) }

def createFlow (r : Realm) (flow : FlowRepresentation) : Except Failure Realm :=
  match flow.flowAlias with
  | none => .error (.exists "Failed to create flow with empty alias name")
  | some name =>
      if name = "" then .error (.exists "Failed to create flow with empty alias name")
      else if (r.getFlowByAlias name).isSome then
        .error (.exists ("Flow " ++ name ++ " already exists"))
      else persistFlow r flow.id
        ⟨0, name, flow.description, flow.providerId, flow.builtIn, flow.topLevel⟩

def updateFlow (r : Realm) (id : Nat) (flow : FlowRepresentation) : Except Failure Realm :=
  match r.getAuthenticationFlowById id with
  | none => .error (.notFound "Could not find flow with id")
  | some _ =>
      match flow.flowAlias with
      | none => .error (.exists "Failed to update flow with empty alias name")
      | some name =>
          if name = "" then .error (.exists "Failed to update flow with empty alias name")
          else .ok (r.updateAuthenticationFlow
            ⟨id, name, flow.description, flow.providerId, flow.builtIn, flow.topLevel⟩)

def deleteSubflows (delete : Realm → Nat → Except Failure Realm) :
    Realm → List AuthenticationExecution → Except Failure Realm
  | r, [] => .ok r
  | r, execution :: rest =>
      match execution.flowId with
      | none => deleteSubflows delete r rest
      | some flowId => do
          let deleted ← delete r flowId
          deleteSubflows delete deleted rest

def deleteFlow : Nat → Realm → Nat → Except Failure Realm
  | 0, _, _ => .error .stackOverflow
  | depth + 1, r, id =>
      match r.getAuthenticationFlowById id with
      | none => .error (.notFound "Could not find flow with id")
      | some flow =>
          if flow.builtIn then .error (.badRequest "Can't delete built in flow")
          else do
            let deleted ← deleteSubflows (deleteFlow depth) r (r.getAuthenticationExecutions id)
            deleted.removeAuthenticationFlow id

def copyRequest (depth : Nat) (r : Realm) (flowAlias newName : String) : Except Failure Realm :=
  if (r.getFlowByAlias newName).isSome then .error (.exists "New flow alias name already exists")
  else
    match r.getFlowByAlias flowAlias with
    | none => .error (.notFound "")
    | some flow => (copyFlow depth r flow newName).map (·.2)

def getNextPriority (r : Realm) (parentFlow : AuthenticationFlow) : Int :=
  match (r.getAuthenticationExecutions parentFlow.id).getLast? with
  | none => 0
  | some last => JavaInt.wrap (last.priority + 1)

def addExecutionFlow (r : Realm) (flowAlias newAlias : String)
    (type provider description : Option String) : Except Failure Realm :=
  match r.getFlowByAlias flowAlias with
  | none => .error (.badRequest "Parent flow doesn't exists")
  | some parentFlow =>
      if (r.getFlowByAlias newAlias).isSome then
        .error (.exists "New flow alias name already exists")
      else
        let added := r.addAuthenticationFlow ⟨0, newAlias, description, type, false, false⟩
        .ok (added.2.addAuthenticatorExecution
          ⟨0, parentFlow.id, .disabled, getNextPriority added.2 parentFlow, provider, none,
            some added.1.id, true⟩)

def addExecutionToFlow (session : Session) (r : Realm) (flowAlias : String)
    (provider : Option String) : Except Failure Realm :=
  match r.getFlowByAlias flowAlias with
  | none => .error (.badRequest "Parent flow doesn't exists")
  | some parentFlow =>
      if parentFlow.builtIn then
        .error (.badRequest "It is illegal to add execution to a built in flow")
      else if parentFlow.providerId = none then .error .runtime
      else if session.registered parentFlow.providerId provider then
        .ok (r.addAuthenticatorExecution
          ⟨0, parentFlow.id, .disabled, getNextPriority r parentFlow, provider, none, none, false⟩)
      else
        .error (.badRequest ("No authentication provider found for id: " ++ provider.getD "null"))

def addExecution (r : Realm) (id : Option Nat) (model : AuthenticationExecution) :
    Except Failure Realm :=
  match r.getAuthenticationFlowById model.parentFlow with
  | none => .error (.badRequest "execution parent flow does not exist")
  | some parentFlow =>
      if parentFlow.builtIn then
        .error (.badRequest "It is illegal to add execution to a built in flow")
      else
        let model := { model with priority := getNextPriority r parentFlow }
        match id with
        | none => .ok (r.addAuthenticatorExecution model)
        | some id =>
            if id ∈ r.executions.map (·.id) then .error .runtime
            else .ok
              { r with
                executions := r.executions ++ [{ model with id }]
                nextId := max r.nextId (id + 1) }

def updateExecutions (r : Realm) (flowAlias : String) (id : Nat) (requirement : Requirement) :
    Except Failure Realm :=
  match r.getFlowByAlias flowAlias with
  | none => .error (.notFound "flow not found")
  | some _ =>
      match r.getAuthenticationExecutionById id with
      | none => .error (.notFound "Illegal execution")
      | some model =>
          if model.requirement = requirement then .ok r
          else .ok (r.updateAuthenticatorExecution { model with requirement })

def previousOf (id : Nat) : Option AuthenticationExecution → List AuthenticationExecution →
    Option AuthenticationExecution
  | previous, [] => previous
  | previous, exe :: rest => if exe.id = id then previous else previousOf id (some exe) rest

def nextOf (id : Nat) : List AuthenticationExecution → Option AuthenticationExecution
  | [] => none
  | exe :: rest => if exe.id = id then rest.head? else nextOf id rest

def exchange (r : Realm) (first second : AuthenticationExecution) : Realm :=
  (r.updateAuthenticatorExecution { first with priority := second.priority })
    |>.updateAuthenticatorExecution { second with priority := first.priority }

/-- What the requests on one execution check first; `refusal` is the message for a built-in
flow. -/
def withParent (r : Realm) (execution : Nat) (refusal : String)
    (act : AuthenticationExecution → AuthenticationFlow → Except Failure Realm) :
    Except Failure Realm :=
  match r.getAuthenticationExecutionById execution with
  | none => .error (.notFound "Illegal execution")
  | some model =>
      match r.getAuthenticationFlowById model.parentFlow with
      | none => .error (.badRequest "execution parent flow does not exist")
      | some parentFlow =>
          if parentFlow.builtIn then .error (.badRequest refusal) else act model parentFlow

def raisePriority (r : Realm) (execution : Nat) : Except Failure Realm :=
  withParent r execution "It is illegal to modify execution in a built in flow"
    fun model parentFlow =>
      match previousOf model.id none (r.getAuthenticationExecutions parentFlow.id) with
      | none => .ok r
      | some previous => .ok (exchange r previous model)

def lowerPriority (r : Realm) (execution : Nat) : Except Failure Realm :=
  withParent r execution "It is illegal to modify execution in a built in flow"
    fun model parentFlow =>
      match nextOf model.id (r.getAuthenticationExecutions parentFlow.id) with
      | none => .ok r
      | some next => .ok (exchange r model next)

def removeExecution (r : Realm) (execution : Nat) : Except Failure Realm :=
  withParent r execution "It is illegal to remove execution from a built in flow"
    fun model _ =>
      match model.flowId with
      | none => .ok (r.removeAuthenticatorExecution model.id)
      | some flowId =>
          match r.getAuthenticationFlowById flowId with
          | none => .error .runtime
          | some nonTopLevelFlow => do
              let removed ← r.removeAuthenticationFlow nonTopLevelFlow.id
              .ok (removed.removeAuthenticatorExecution model.id)

/-! ## The system -/

inductive Label where
  | createFlow (flow : FlowRepresentation)
  | updateFlow (id : Nat) (flow : FlowRepresentation)
  | deleteFlow (id : Nat)
  | copy (flowAlias newName : String)
  | addExecutionFlow (flowAlias newAlias : String) (type provider description : Option String)
  | addExecutionToFlow (flowAlias : String) (provider : Option String)
  | addExecution (id : Option Nat) (model : AuthenticationExecution)
  | updateExecutions (flowAlias : String) (id : Nat) (requirement : Requirement)
  | raisePriority (execution : Nat)
  | lowerPriority (execution : Nat)
  | removeExecution (execution : Nat)
  | bind (usedFlows : List Nat)

def handle (session : Session) (depth : Nat) (r : Realm) : Label → Except Failure Realm
  | .createFlow flow => createFlow r flow
  | .updateFlow id flow => updateFlow r id flow
  | .deleteFlow id => deleteFlow depth r id
  | .copy flowAlias newName => copyRequest depth r flowAlias newName
  | .addExecutionFlow flowAlias newAlias type provider description =>
      addExecutionFlow r flowAlias newAlias type provider description
  | .addExecutionToFlow flowAlias provider => addExecutionToFlow session r flowAlias provider
  | .addExecution id model => addExecution r id model
  | .updateExecutions flowAlias id requirement => updateExecutions r flowAlias id requirement
  | .raisePriority execution => raisePriority r execution
  | .lowerPriority execution => lowerPriority r execution
  | .removeExecution execution => removeExecution r execution
  | .bind usedFlows => .ok { r with usedFlows }

def step (session : Session) (depth : Nat) (r : Realm) (label : Label) : Option Realm :=
  match handle session depth r label with
  | .ok r' => some r'
  | .error _ => some r

end Keycloak.Authentication.FlowManagement
