import Keycloak.Lib.JavaInt
import Keycloak.Lib.Machine
import Mathlib.Data.List.Sort
import Mathlib.Logic.Function.Basic
import Mathlib.Order.Nat

/-!
# Required actions and consent

What stands between the end of an authentication flow and the login: the required actions of the
user and of the authentication session, and the consent of the user.  Their pages carry the
session code, which `SessionCodeChecks` verifies when the answer comes in.  A request that throws
is rolled back.
-/

namespace Keycloak.Authentication.RequiredActions

inductive Action where
  | oauthGrant
  | authenticate
  | loggedOut
  | loggingOut
  | requiredActions
  deriving DecidableEq

def Action.name : Action → String
  | .oauthGrant => "OAUTH_GRANT"
  | .authenticate => "AUTHENTICATE"
  | .loggedOut => "LOGGED_OUT"
  | .loggingOut => "LOGGING_OUT"
  | .requiredActions => "REQUIRED_ACTIONS"

def authenticatePath : String := "authenticate"

def requiredActionPath : String := "required-action"

structure RequiredActionProviderModel where
  actionAlias : String
  providerId : String
  enabled : Bool
  priority : Int
  deriving DecidableEq

/-- `RequiredActionComparator`. -/
def NotLater (o₁ o₂ : RequiredActionProviderModel) : Prop :=
  JavaInt.wrap (o₁.priority - o₂.priority) ≤ 0

instance : DecidableRel NotLater := fun _ _ => inferInstanceAs (Decidable (_ ≤ _))

structure ClientScope where
  id : String
  displayOnConsentScreen : Bool
  deriving DecidableEq

/-- A client is a client scope of its own.  The default and optional scopes are those of the
client's protocol, the optional ones by name. -/
structure Client extends ClientScope where
  enabled : Bool
  consentRequired : Bool
  defaultClientScopes : List ClientScope
  optionalClientScopes : List (String × ClientScope)
  deriving DecidableEq

structure Realm where
  providers : List RequiredActionProviderModel
  clientScopes : List ClientScope
  clients : List Client
  accessCodeLifespanLogin : Nat
  accessCodeLifespanUserAction : Nat
  deriving DecidableEq

namespace Realm

variable (realm : Realm)

def getRequiredActionProviders : List RequiredActionProviderModel :=
  realm.providers.insertionSort NotLater

def getRequiredActionProviderByAlias (actionAlias : String) : Option RequiredActionProviderModel :=
  realm.getRequiredActionProviders.find? (·.actionAlias = actionAlias)

def getClientById (id : String) : Option Client := realm.clients.find? (·.id = id)

def findClientScopeById (id : String) : Option ClientScope :=
  match realm.clientScopes.find? (·.id = id) with
  | some clientScope => some clientScope
  | none => (realm.getClientById id).map (·.toClientScope)

end Realm

/-- `TokenManager.getRequestedClientScopes`, the ids. -/
def getRequestedClientScopes (scopeParam : Option String) (client : Client) : List String :=
  let always := client.defaultClientScopes.map (·.id) ++ [client.id]
  match scopeParam with
  | none => always.dedup
  | some scopes => (always ++ (scopes.splitOn " ").filterMap fun part =>
      (client.optionalClientScopes.find? (·.1 = part)).map (·.2.id)).dedup

/-! ## Users, sessions and providers -/

/-- A user; `consents` are the rows of granted client scopes, by client.  The rest is `data`. -/
structure User (δ : Type) where
  requiredActions : List String
  consents : List (String × List String)
  data : δ
  deriving DecidableEq

/-- `JpaUserProvider.getConsentByClient`: scopes that are gone are not read. -/
def User.getConsentByClient {δ : Type} (user : User δ) (realm : Realm) (clientId : String) :
    Option (List String) :=
  (user.consents.find? (·.1 = clientId)).map fun row =>
    row.2.filter fun id => (realm.findClientScopeById id).isSome

def User.updateConsent {δ : Type} (user : User δ) (clientId : String) (scopes : List String) :
    User δ :=
  { user with consents := (clientId, scopes) :: user.consents.filter (·.1 ≠ clientId) }

def User.removeRequiredAction {δ : Type} (user : User δ) (action : String) : User δ :=
  { user with requiredActions := user.requiredActions.filter (· ≠ action) }

/-- `AuthenticationSessionModel`: a tab of the root session.  Codes are numbered in the order in
which they are generated. -/
structure AuthenticationSession where
  root : Nat
  client : String
  scopeParam : Option String
  action : Option Action
  authenticated : Bool
  activeCode : Option Nat
  currentExecution : Option String
  currentFlowPath : Option String
  endAfterRequiredActions : Bool
  requiredActions : List String
  clientScopes : List String
  deriving DecidableEq

inductive Status where
  | challenge
  | success
  | ignore
  | failure
  deriving DecidableEq

/-- A factory with the provider it creates.  The status stays null if the provider sets none; a
provider that challenges makes its page with `context.form()`. -/
structure RequiredActionFactory (δ φ : Type) where
  evaluateTriggers : Nat → User δ → User δ
  requiredActionChallenge : Nat → δ → Option Status
  processAction : Nat → φ → User δ → Option Status × User δ

inductive Response where
  | form (execution : String) (code : Nat)
  | oauthGrant (code : Nat) (clientScopes : List ClientScope)
  | redirect (flowPath : String) (execution : Option String)
  | expired (flowPath execution : Option String)
  | denied
  | info
  | invalidCode
  | login (session : AuthenticationSession)
  deriving DecidableEq

inductive Failure where
  | runtime
  | nullPointer
  | notFound
  deriving DecidableEq

/-- What a request works on: a realm, the time, and the user, the session and the timestamp of
its root.  `removed` says that the root session is removed at the end. -/
structure Context (δ : Type) where
  realm : Realm
  now : Nat
  user : User δ
  session : AuthenticationSession
  timestamp : Nat
  nextCode : Nat
  removed : Bool
  deriving DecidableEq

variable {δ φ : Type}

namespace Context

variable (c : Context δ)

/-- `ClientSessionCode.getOrGenerateCode`. -/
def getOrGenerateCode : Nat × Context δ :=
  match c.session.activeCode with
  | some code => (code, c)
  | none => (c.nextCode, { c with
      session := { c.session with activeCode := some c.nextCode }, nextCode := c.nextCode + 1 })

def generateCode : Nat × Context δ := { c with timestamp := c.now }.getOrGenerateCode

def setAction (action : Action) : Context δ :=
  { c with session := { c.session with action := some action }, timestamp := c.now }

def setCurrentExecution (execution : String) : Context δ :=
  { c with session := { c.session with currentExecution := some execution } }

def resetFlow (flowPath : String) : Context δ :=
  { c with
    timestamp := c.now
    session := { c.session with
      authenticated := false
      activeCode := none
      currentExecution := none
      endAfterRequiredActions := false
      action := some .authenticate
      currentFlowPath := some flowPath } }

def removeRequiredAction (action : String) : Context δ :=
  { c with
    user := c.user.removeRequiredAction action
    session := { c.session with
      requiredActions := c.session.requiredActions.filter (· ≠ action) } }

def showPageExpired : Response := .expired c.session.currentFlowPath c.session.currentExecution

/-- `timestamp + lifespan > Time.currentTime()` in `ClientSessionCode.isActionActive`. -/
def isActionActive (lifespan : Nat) : Bool :=
  decide ((c.now : Int) < JavaInt.wrap (c.timestamp + lifespan))

def isLoginActive : Bool :=
  c.isActionActive (if c.realm.accessCodeLifespanLogin > 0 then c.realm.accessCodeLifespanLogin
    else c.realm.accessCodeLifespanUserAction)

def isUserActive : Bool := c.isActionActive c.realm.accessCodeLifespanUserAction

theorem isActionActive_of_inRange {lifespan : Nat}
    (hrange : (c.timestamp + lifespan : Int) ≤ JavaInt.maxValue) :
    c.isActionActive lifespan = decide (c.now < c.timestamp + lifespan) := by
  have hlow : JavaInt.minValue ≤ (c.timestamp + lifespan : Int) := by
    unfold JavaInt.minValue
    omega
  rw [isActionActive, JavaInt.wrap_eq ⟨hlow, hrange⟩]
  exact decide_eq_decide.mpr (by omega)

end Context

/-! ## `SessionCodeChecks` -/

inductive Checked where
  | response (response : Response)
  | passed (actionRequest : Bool)
  deriving DecidableEq

/-- A request without `execution` to another flow path than the last moves there. -/
def transition (c : Context δ) (execution : Option String) (flowPath : String) : Context δ :=
  if execution = none ∧ c.session.currentFlowPath ≠ some flowPath ∧
      c.session.action = some .authenticate then
    { c with session := { c.session with
      currentFlowPath := some flowPath, currentExecution := none } }
  else c

/-- A client that is gone or disabled runs into `clientCode`, which is not set yet. -/
def initialVerify (c : Context δ) (code : Option Nat) (execution : Option String)
    (flowPath : String) : Except Failure (Checked × Context δ) :=
  match c.realm.getClientById c.session.client with
  | none => .error .nullPointer
  | some client =>
    if !client.enabled then .error .nullPointer
    else match code with
    | none =>
        let c := transition c execution flowPath
        if execution = none ∨ execution = c.session.currentExecution then
          .ok (.passed false, c)
        else .ok (.response c.showPageExpired, c)
    | some code =>
        -- the active code is taken away, whatever it is compared with
        let c' := { c with session := { c.session with activeCode := none } }
        if c.session.activeCode = some code then .ok (.passed true, c')
        else if execution = c.session.currentExecution then
          match c.session.currentFlowPath with
          | none => .error .runtime
          | some latestFlowPath => .ok (.response (.redirect latestFlowPath execution), c')
        else .ok (.response c'.showPageExpired, c')

def verifyRequiredAction (c : Context δ) (checked : Checked) (executedAction : Option String) :
    Checked × Context δ :=
  match checked with
  | .response response => (.response response, c)
  | .passed actionRequest =>
    if c.session.action ≠ some .requiredActions then (.response c.showPageExpired, c)
    else if !c.isUserActive then
      (.response (.redirect authenticatePath none), c.resetFlow authenticatePath)
    else if actionRequest ∧
        (executedAction = none ∨ executedAction ≠ c.session.currentExecution) then
      (.response (.redirect requiredActionPath c.session.currentExecution), c)
    else (.passed actionRequest, c)

/-! ## `AuthenticationManager` -/

section

variable (factories : String → Option (RequiredActionFactory δ φ))

def evaluateRequiredActionTriggers (now : Nat) :
    List RequiredActionProviderModel → User δ → Except Failure (User δ)
  | [], user => .ok user
  | model :: rest, user =>
    if !model.enabled then evaluateRequiredActionTriggers now rest user
    else match factories model.providerId with
    | none => .error .runtime
    | some factory =>
        evaluateRequiredActionTriggers now rest (factory.evaluateTriggers now user)

def sortRequiredActionsByPriority (realm : Realm) (requiredActions : List String) :
    List RequiredActionProviderModel :=
  (requiredActions.filterMap fun action =>
    (realm.getRequiredActionProviderByAlias action).filter (·.enabled)).insertionSort NotLater

def executionActions : List RequiredActionProviderModel → Context δ →
    Except Failure (Option Response × Context δ)
  | [], c => .ok (none, c)
  | model :: rest, c =>
    match factories model.providerId with
    | none => .error .runtime
    | some factory =>
      match factory.requiredActionChallenge c.now c.user.data with
      | some .failure => .ok (some .denied, { c with removed := true })
      | some .challenge =>
          let (code, c) := c.generateCode
          .ok (some (.form model.providerId code), c.setCurrentExecution model.providerId)
      | some .success => executionActions rest (c.removeRequiredAction model.providerId)
      | _ => executionActions rest c

def isClientScopeGranted (grantedConsent : Option (List String)) (clientScope : ClientScope) :
    Bool :=
  match grantedConsent with
  | none => false
  | some granted => granted.contains clientScope.id

def getClientScopesToApproveOnConsentScreen (realm : Realm) (grantedConsent : Option (List String))
    (session : AuthenticationSession) : List ClientScope :=
  (session.clientScopes.filterMap realm.findClientScopeById).filter fun clientScope =>
    clientScope.displayOnConsentScreen && !isClientScopeGranted grantedConsent clientScope

def clientScopesToApprove (c : Context δ) (client : Client) : List ClientScope :=
  if client.consentRequired then
    getClientScopesToApproveOnConsentScreen c.realm
      (c.user.getConsentByClient c.realm client.id) c.session
  else []

def actionRequired (c : Context δ) : Except Failure (Option Response × Context δ) :=
  match c.realm.getClientById c.session.client, c.session.authenticated with
  | some client, true => do
    let user ← evaluateRequiredActionTriggers factories c.now c.realm.getRequiredActionProviders
      c.user
    let (action, c) ← executionActions factories
      (sortRequiredActionsByPriority c.realm user.requiredActions) { c with user := user }
    if action.isSome then return (action, c)
    let (action, c) ← executionActions factories
      (sortRequiredActionsByPriority c.realm c.session.requiredActions) c
    if action.isSome then return (action, c)
    match clientScopesToApprove c client with
    | [] => return (none, c)
    | clientScopes =>
        let (code, c) := ((c.setAction .requiredActions).setCurrentExecution
          Action.oauthGrant.name).getOrGenerateCode
        return (some (.oauthGrant code clientScopes), c)
  | _, _ => .error .nullPointer

def finishedRequiredActions (c : Context δ) : Response × Context δ :=
  let c' := { c with removed := true }
  if c.session.endAfterRequiredActions then (.info, c') else (.login c.session, c')

def nextActionAfterAuthentication (c : Context δ) : Except Failure (Response × Context δ) := do
  let (requiredAction, c) ← actionRequired factories c
  match requiredAction with
  | some response => return (response, c)
  | none => return finishedRequiredActions c

def nextRequiredAction (c : Context δ) : Except Failure (Option String × Context δ) :=
  match c.realm.getClientById c.session.client, c.session.authenticated with
  | some client, true => do
    let user ← evaluateRequiredActionTriggers factories c.now c.realm.getRequiredActionProviders
      c.user
    let c := { c with user := user }
    match user.requiredActions, c.session.requiredActions with
    | action :: _, _ => return (some action, c)
    | [], action :: _ => return (some action, c)
    | [], [] =>
        if clientScopesToApprove c client = [] then return (none, c)
        else return (some Action.oauthGrant.name, c)
  | _, _ => .error .nullPointer

def redirectToRequiredActions (c : Context δ) (requiredAction : String) : Response × Context δ :=
  let c := c.setAction .requiredActions
  (.redirect requiredActionPath (some requiredAction), { c with session := { c.session with
    currentFlowPath := some requiredActionPath, currentExecution := some requiredAction } })

def authenticationComplete (c : Context δ) : Except Failure (Response × Context δ) :=
  match c.realm.getClientById c.session.client with
  | none => .error .nullPointer
  | some client => do
    let scopes := getRequestedClientScopes c.session.scopeParam client
    let (requiredAction, c) ← nextRequiredAction factories
      { c with session := { c.session with clientScopes := scopes } }
    match requiredAction with
    | some action => return redirectToRequiredActions c action
    | none => return finishedRequiredActions c

/-! ## `LoginActionsService` -/

/-- The part of `processRequireAction` in which the provider acts. -/
def processAction (execution : String) (factory : RequiredActionFactory δ φ) (form : φ)
    (c : Context δ) : Except Failure (Response × Context δ) :=
  let (status, user) := factory.processAction c.now form c.user
  let c := { c with user := user }
  match status with
  | some .success =>
      let c := c.removeRequiredAction execution
      nextActionAfterAuthentication factories
        { c with session := { c.session with currentExecution := none } }
  | some .challenge =>
      let (code, c) := c.generateCode
      .ok (.form execution code, c)
  | some .failure => .ok (.denied, { c with removed := true })
  | _ => .error .runtime

def processRequireAction (code : Option Nat) (action : Option String) (form : φ) (c : Context δ) :
    Except Failure (Response × Context δ) := do
  let (checked, c) ← initialVerify c code action requiredActionPath
  match verifyRequiredAction c checked action with
  | (.response response, c) => return (response, c)
  | (.passed false, c) => nextActionAfterAuthentication factories c
  | (.passed true, c) =>
    match action.bind fun execution => (factories execution).map (execution, ·) with
    | none => return (.invalidCode, c)
    | some (execution, factory) => processAction factories execution factory form c

/-- The execution is not a parameter of the request, and is not compared with the session's when
there is no code. -/
def processConsent (code : Option Nat) (cancel : Bool) (c : Context δ) :
    Except Failure (Response × Context δ) := do
  let (checked, c) ← initialVerify c code none requiredActionPath
  match verifyRequiredAction c checked (some Action.oauthGrant.name) with
  | (.response response, c) => return (response, c)
  | (.passed _, c) =>
    if !c.session.authenticated then .error .nullPointer
    else if cancel then return (.denied, { c with removed := true })
    else
      let granted := (c.user.getConsentByClient c.realm c.session.client).getD []
      let added := c.session.clientScopes.filterMap fun id =>
        (c.realm.findClientScopeById id).map (·.id)
      return (.login c.session, { c with
        user := c.user.updateConsent c.session.client (granted ++ added), removed := true })

end

/-! ## Requests and the server -/

/-- The realm, one of its users, and his authentication sessions by tab; the timestamps are those
of the root sessions. -/
structure Server (δ : Type) where
  realm : Realm
  user : User δ
  sessions : Nat → Option AuthenticationSession
  timestamps : Nat → Nat
  now : Nat
  nextCode : Nat

inductive Label (δ φ : Type) where
  | createAuthenticationSession (tab root : Nat) (client : String) (scopeParam : Option String)
  | authenticationForm (tab : Nat) (execution : String)
  | authenticationComplete (tab : Nat) (posted endAfterRequiredActions : Bool)
      (requiredActions : List String)
  | requiredAction (tab : Nat) (code : Option Nat) (action : Option String) (form : φ)
  | consent (tab : Nat) (code : Option Nat) (cancel : Bool)
  | restart (tab : Nat) (flowPath : String)
  | removeRootAuthenticationSession (root : Nat)
  | tick
  | updateUser (user : User δ)
  | updateRealm (realm : Realm)

def Label.tab : Label δ φ → Option Nat
  | .createAuthenticationSession tab _ _ _ => some tab
  | .authenticationForm tab _ => some tab
  | .authenticationComplete tab _ _ _ => some tab
  | .requiredAction tab _ _ _ => some tab
  | .consent tab _ _ => some tab
  | .restart tab _ => some tab
  | .removeRootAuthenticationSession _ | .tick | .updateUser _ | .updateRealm _ => none

/-- The flow of the session shows a form of its own; the flows themselves are modelled apart. -/
def authenticationForm (execution : String) (c : Context δ) :
    Except Failure (Response × Context δ) :=
  if c.session.action = some .authenticate ∧ c.isLoginActive then
    let (code, c) := c.generateCode
    .ok (.form execution code, c.setCurrentExecution execution)
  else .error .runtime

/-- The flow of the session has come to its end, with required actions set by its executions.  If
the last execution was posted, the code is used up. -/
def endOfFlow (posted endAfterRequiredActions : Bool) (requiredActions : List String)
    (c : Context δ) : Context δ :=
  { c with
    timestamp := c.now
    session := { c.session with
      authenticated := true
      activeCode := if posted then none else c.session.activeCode
      endAfterRequiredActions := endAfterRequiredActions
      requiredActions := c.session.requiredActions ++ requiredActions } }

namespace Server

variable (s : Server δ)

def context (session : AuthenticationSession) : Context δ :=
  ⟨s.realm, s.now, s.user, session, s.timestamps session.root, s.nextCode, false⟩

/-- With the root session go the sessions of all its tabs. -/
def commit (tab : Nat) (c : Context δ) : Server δ :=
  { s with
    user := c.user
    nextCode := c.nextCode
    timestamps := Function.update s.timestamps c.session.root c.timestamp
    sessions := if c.removed then
        fun other => (s.sessions other).filter (·.root ≠ c.session.root)
      else Function.update s.sessions tab (some c.session) }

def request (tab : Nat) (process : Context δ → Except Failure (Response × Context δ)) :
    Except Failure (Option Response × Server δ) :=
  match s.sessions tab with
  | none => .error .notFound
  | some session => (process (s.context session)).map fun (response, c) =>
      (some response, s.commit tab c)

end Server

section

variable (factories : String → Option (RequiredActionFactory δ φ))

def handle (s : Server δ) : Label δ φ → Except Failure (Option Response × Server δ)
  | .createAuthenticationSession tab root client scopeParam =>
      if (s.sessions tab).isSome then .error .runtime
      else .ok (none, { s with
        timestamps := Function.update s.timestamps root s.now
        sessions := Function.update s.sessions tab (some ⟨root, client, scopeParam,
          some .authenticate, false, none, none, none, false, [], []⟩) })
  | .authenticationForm tab execution => s.request tab (authenticationForm execution)
  | .authenticationComplete tab posted endAfterRequiredActions requiredActions =>
      s.request tab fun c =>
        if c.session.action = some .authenticate ∧ c.isLoginActive then
          authenticationComplete factories (endOfFlow posted endAfterRequiredActions
            requiredActions c)
        else .error .runtime
  | .requiredAction tab code action form =>
      s.request tab (processRequireAction factories code action form)
  | .consent tab code cancel => s.request tab (processConsent code cancel)
  | .restart tab flowPath => s.request tab fun c =>
      .ok (.redirect flowPath none, c.resetFlow flowPath)
  | .removeRootAuthenticationSession root => .ok (none, { s with
      sessions := fun tab => (s.sessions tab).filter (·.root ≠ root) })
  | .tick => .ok (none, { s with now := s.now + 1 })
  | .updateUser user => .ok (none, { s with user := user })
  | .updateRealm realm => .ok (none, { s with realm := realm })

/-- A request that fails is rolled back. -/
def step (s : Server δ) (label : Label δ φ) : Option (Server δ) :=
  match handle factories s label with
  | .ok (_, s') => some s'
  | .error _ => some s

def respond (s : Server δ) (label : Label δ φ) : Option Response :=
  match handle factories s label with
  | .ok (response, _) => response
  | .error _ => none

end

end Keycloak.Authentication.RequiredActions
