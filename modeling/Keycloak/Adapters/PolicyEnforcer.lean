import Mathlib.Data.List.Infix

/-!
# The policy enforcer of the adapter

The decision on one request to a protected application: which path configuration applies,
and whether the permissions of the access token grant the method of the request.

The path matcher and the claim information points are parameters: what they return for the
request, with `none` where they throw.
-/

namespace Keycloak.Adapters

inductive EnforcementMode where
  | permissive
  | enforcing
  | disabled
  deriving DecidableEq, Repr

inductive ScopeEnforcementMode where
  | all
  | any
  | disabled
  deriving DecidableEq, Repr

structure MethodConfig where
  method : String
  scopes : List String
  scopesEnforcementMode : ScopeEnforcementMode
  deriving DecidableEq, Repr

structure PathConfig where
  path : String
  methods : List MethodConfig
  scopes : List String
  id : Option String
  enforcementMode : EnforcementMode
  parentConfig : Option PathConfig

def PathConfig.isInstance (pathConfig : PathConfig) : Bool := pathConfig.parentConfig.isSome

structure Permission where
  resourceId : Option String
  scopes : Option (List String)
  claims : Option (List (String × List String))
  deriving DecidableEq, Repr

/-- `"".equals(s.trim())`. -/
def trimsToEmpty (s : String) : Bool := s.toList.all fun c => c.toNat ≤ 32

def Permission.getResourceId (permission : Permission) : Option String :=
  permission.resourceId.filter fun resourceId => !trimsToEmpty resourceId

def Permission.getScopes (permission : Permission) : List String := permission.scopes.getD []

structure Authorization where
  permissions : Option (List Permission)
  deriving DecidableEq, Repr

structure AccessToken where
  authorization : Option Authorization
  deriving DecidableEq, Repr

structure Request where
  method : String
  origin : String
  path : String
  queryString : Option String
  relativePath : String
  deriving DecidableEq, Repr

def Request.getURI (request : Request) : String :=
  request.origin ++ request.path ++
    match request.queryString with
    | none => ""
    | some queryString => "?" ++ queryString

/-- `securityContext` is `null` when nobody is authenticated; its token may be missing. -/
structure OIDCHttpFacade where
  request : Request
  securityContext : Option (Option AccessToken)
  resolveClaims : PathConfig → Option (List (String × List String))
  challenge : PathConfig → MethodConfig → Option Bool

structure PolicyEnforcer where
  enforcementMode : EnforcementMode
  onDenyRedirectTo : Option String
  pathMatcher : String → Option (Option PathConfig)

inductive AuthorizationContext where
  | empty (granted : Bool)
  | ofToken (accessToken : AccessToken) (current : Option PathConfig)

def AuthorizationContext.isGranted : AuthorizationContext → Bool
  | empty granted => granted
  | ofToken _ _ => true

inductive ResponseAction where
  | challenge (pathConfig : PathConfig) (methodConfig : MethodConfig)
  | handleAccessDenied

structure Outcome where
  context : AuthorizationContext
  response : List ResponseAction

/-! ## The decision -/

section

variable (enforcer : PolicyEnforcer) (facade : OIDCHttpFacade)

def contains (s t : String) : Bool := decide (t.toList <:+: s.toList)

def isDefaultAccessDeniedUri (request : Request) : Bool :=
  match enforcer.onDenyRedirectTo with
  | none => false
  | some accessDeniedPath => contains request.getURI accessDeniedPath

def getPathConfig (request : Request) : Option (Option PathConfig) :=
  if isDefaultAccessDeniedUri enforcer request then some none
  else enforcer.pathMatcher request.relativePath

def getRequiredScopes (pathConfig : PathConfig) (request : Request) : MethodConfig :=
  match pathConfig.methods.find? fun methodConfig => methodConfig.method = request.method with
  | some methodConfig => methodConfig
  | none => ⟨request.method, pathConfig.scopes, .any⟩

def matchResourcePermission (actualPathConfig : PathConfig) (resourceId : String) : Bool :=
  actualPathConfig.id = some resourceId

def isResourcePermission (actualPathConfig : PathConfig) (resourceId : String) : Bool :=
  matchResourcePermission actualPathConfig resourceId ||
    match actualPathConfig.parentConfig with
    | none => false
    | some parentConfig => matchResourcePermission parentConfig resourceId

def hasResourceScopePermission (methodConfig : MethodConfig) (permission : Permission) : Bool :=
  let requiredScopes := methodConfig.scopes
  let allowedScopes := permission.getScopes
  if allowedScopes.isEmpty then true
  else match methodConfig.scopesEnforcementMode with
    | .all => requiredScopes.all allowedScopes.contains
    | .any => requiredScopes.any allowedScopes.contains || requiredScopes.isEmpty
    | .disabled => requiredScopes.isEmpty

def hasValidClaims (actualPathConfig : PathConfig) (permission : Permission) : Option Bool :=
  match permission.claims with
  | none => some true
  | some grantedClaims => do
      let claims ← facade.resolveClaims actualPathConfig
      if claims.isEmpty then return false
      return grantedClaims.all fun entry =>
        match claims.lookup entry.1 with
        | none => false
        | some requestClaims => !requestClaims.isEmpty && requestClaims.all entry.2.contains

/-- The loop over the granted permissions; `hasPermission` says whether one of those before
was for the resource of the path. -/
def checkPermissions (actualPathConfig : PathConfig) (methodConfig : MethodConfig) :
    List Permission → Bool → Option Bool
  | [], hasPermission =>
      some (!hasPermission && decide (actualPathConfig.enforcementMode = .permissive))
  | permission :: rest, hasPermission =>
      match permission.getResourceId with
      | some resourceId =>
          if isResourcePermission actualPathConfig resourceId then
            if actualPathConfig.isInstance &&
                !matchResourcePermission actualPathConfig resourceId then
              checkPermissions actualPathConfig methodConfig rest true
            else if hasResourceScopePermission methodConfig permission then
              hasValidClaims facade actualPathConfig permission
            else checkPermissions actualPathConfig methodConfig rest true
          else checkPermissions actualPathConfig methodConfig rest hasPermission
      | none =>
          if hasResourceScopePermission methodConfig permission then some true
          else checkPermissions actualPathConfig methodConfig rest hasPermission

def isAuthorized (actualPathConfig : PathConfig) (methodConfig : MethodConfig)
    (accessToken : AccessToken) : Option Bool :=
  if isDefaultAccessDeniedUri enforcer facade.request then some true
  else match accessToken.authorization with
    | none => some false
    | some authorization => do
        -- Permissions that are `null` make the loop throw.
        let grantedPermissions ← authorization.permissions
        checkPermissions facade actualPathConfig methodConfig grantedPermissions false

def authorizeToken (accessToken : AccessToken) (pathConfig : Option PathConfig) :
    Option Outcome :=
  match pathConfig with
  | none =>
      if enforcer.enforcementMode = .permissive then some ⟨.ofToken accessToken none, []⟩
      else if isDefaultAccessDeniedUri enforcer facade.request then
        some ⟨.ofToken accessToken none, []⟩
      else some ⟨.empty false, [.handleAccessDenied]⟩
  | some pathConfig =>
      if pathConfig.enforcementMode = .disabled then
        some ⟨.ofToken accessToken (some pathConfig), []⟩
      else do
        let methodConfig := getRequiredScopes pathConfig facade.request
        if ← isAuthorized enforcer facade pathConfig methodConfig accessToken then
          return ⟨.ofToken accessToken (some pathConfig), []⟩
        if methodConfig.scopesEnforcementMode = .disabled then
          return ⟨.empty true, []⟩
        if ← facade.challenge pathConfig methodConfig then
          return ⟨.empty false, [.challenge pathConfig methodConfig]⟩
        return ⟨.empty false, [.challenge pathConfig methodConfig, .handleAccessDenied]⟩

def authorize : Option Outcome :=
  if enforcer.enforcementMode = .disabled then some ⟨.empty true, []⟩
  else do
    let pathConfig ← getPathConfig enforcer facade.request
    match facade.securityContext with
    | none =>
        if isDefaultAccessDeniedUri enforcer facade.request then return ⟨.empty false, []⟩
        match pathConfig with
        | some pathConfig =>
            let methodConfig := getRequiredScopes pathConfig facade.request
            let _ ← facade.challenge pathConfig methodConfig
            return ⟨.empty false, [.challenge pathConfig methodConfig]⟩
        | none => return ⟨.empty false, [.handleAccessDenied]⟩
    | some none => return ⟨.empty false, []⟩
    | some (some accessToken) => authorizeToken enforcer facade accessToken pathConfig

end

/-! ## What a grant rests on -/

def OIDCHttpFacade.withQuery (facade : OIDCHttpFacade) (queryString : Option String) :
    OIDCHttpFacade :=
  { facade with request := { facade.request with queryString } }

/-- The request path itself is the given one: relative to the application, from the root of
the host, or as a URI. -/
def Request.IsAt (request : Request) (path : String) : Prop :=
  path = request.relativePath ∨ path = request.path ∨ path = request.origin ++ request.path

/-- The scopes of a permission are what the method requires. -/
def Satisfies (methodConfig : MethodConfig) (scopes : List String) : Prop :=
  match methodConfig.scopesEnforcementMode with
  | .all => ∀ scope ∈ methodConfig.scopes, scope ∈ scopes
  | .any => methodConfig.scopes = [] ∨ ∃ scope ∈ methodConfig.scopes, scope ∈ scopes
  | .disabled => methodConfig.scopes = []

/-- The permission is for the resource of the path, or for none, and grants the method. -/
def Permission.Grants (permission : Permission) (pathConfig : PathConfig)
    (methodConfig : MethodConfig) : Prop :=
  (permission.getResourceId = none ∨ permission.getResourceId = pathConfig.id) ∧
    (permission.getScopes = [] ∨ Satisfies methodConfig permission.getScopes)

section

variable (enforcer : PolicyEnforcer) (facade : OIDCHttpFacade) (accessToken : AccessToken)

/-- The request may be granted: it asks for the page for denied requests, or for a path whose
configuration does not enforce scopes for the method or fits a permission of the token. -/
def Entitled : Prop :=
  (∃ accessDeniedPath, enforcer.onDenyRedirectTo = some accessDeniedPath ∧
      facade.request.IsAt accessDeniedPath) ∨
    ∃ pathConfig, enforcer.pathMatcher facade.request.relativePath = some (some pathConfig) ∧
      ((getRequiredScopes pathConfig facade.request).scopesEnforcementMode = .disabled ∨
        ∃ permissions, accessToken.authorization = some ⟨some permissions⟩ ∧
          ∃ permission ∈ permissions,
            permission.Grants pathConfig (getRequiredScopes pathConfig facade.request))

/-- Whatever the query string, the request is granted only if it may be; and the context does
not depend on the query string. -/
def GrantsOnlyEntitled : Prop :=
  (∀ queryString outcome, authorize enforcer (facade.withQuery queryString) = some outcome →
      outcome.context.isGranted = true → Entitled enforcer facade accessToken) ∧
    ∀ queryString queryString',
      (authorize enforcer (facade.withQuery queryString)).map (·.context) =
        (authorize enforcer (facade.withQuery queryString')).map (·.context)

end

theorem satisfies_of_hasResourceScopePermission {methodConfig : MethodConfig}
    {permission : Permission} (h : hasResourceScopePermission methodConfig permission = true) :
    permission.getScopes = [] ∨ Satisfies methodConfig permission.getScopes := by
  by_cases hempty : permission.getScopes.isEmpty = true
  · exact .inl (List.isEmpty_iff.mp hempty)
  · right
    simp only [hasResourceScopePermission, if_neg hempty] at h
    unfold Satisfies
    split at h
    · simpa using h
    · simpa [or_comm] using h
    · simpa using h

theorem exists_grants_of_checkPermissions {facade : OIDCHttpFacade} {pathConfig : PathConfig}
    {methodConfig : MethodConfig} (hmode : pathConfig.enforcementMode = .enforcing)
    {permissions : List Permission} {hasPermission : Bool}
    (h : checkPermissions facade pathConfig methodConfig permissions hasPermission = some true) :
    ∃ permission ∈ permissions, permission.Grants pathConfig methodConfig := by
  induction permissions generalizing hasPermission with
  | nil => simp [checkPermissions, hmode] at h
  | cons permission rest ih =>
      have later : ∀ {hasPermission : Bool},
          checkPermissions facade pathConfig methodConfig rest hasPermission = some true →
            ∃ permission' ∈ permission :: rest, permission'.Grants pathConfig methodConfig := by
        intro hasPermission h
        obtain ⟨permission', hmem, hgrants⟩ := ih h
        exact ⟨permission', List.mem_cons_of_mem _ hmem, hgrants⟩
      unfold checkPermissions at h
      split at h
      · rename_i resourceId hid
        split_ifs at h with hresource hparent hscope
        · exact later h
        · -- The permission is for the path itself, not only for its parent.
          have hmatch : pathConfig.id = some resourceId := by
            unfold isResourcePermission at hresource
            cases hparentConfig : pathConfig.parentConfig with
            | none => simpa [hparentConfig, matchResourcePermission] using hresource
            | some parentConfig =>
                simpa [PathConfig.isInstance, hparentConfig, matchResourcePermission] using hparent
          exact ⟨permission, List.mem_cons_self, .inr (by rw [hid, hmatch]),
            satisfies_of_hasResourceScopePermission hscope⟩
        · exact later h
        · exact later h
      · rename_i hid
        split_ifs at h with hscope
        · exact ⟨permission, List.mem_cons_self, .inl hid,
            satisfies_of_hasResourceScopePermission hscope⟩
        · exact later h

section

variable {enforcer : PolicyEnforcer} {facade : OIDCHttpFacade} {accessToken : AccessToken}

theorem checkPermissions_withQuery (queryString : Option String) (pathConfig : PathConfig)
    (methodConfig : MethodConfig) (permissions : List Permission) (hasPermission : Bool) :
    checkPermissions (facade.withQuery queryString) pathConfig methodConfig permissions
        hasPermission =
      checkPermissions facade pathConfig methodConfig permissions hasPermission := by
  induction permissions generalizing hasPermission with
  | nil => rfl
  | cons permission rest ih =>
      unfold checkPermissions
      simp only [ih]
      rfl

/-- Without a page for denied requests nothing looks at the URI. -/
theorem authorize_withQuery_of_no_page (hpage : enforcer.onDenyRedirectTo = none)
    (queryString : Option String) :
    authorize enforcer (facade.withQuery queryString) = authorize enforcer facade := by
  have hdenied : ∀ request, isDefaultAccessDeniedUri enforcer request = false := by
    intro request
    simp [isDefaultAccessDeniedUri, hpage]
  unfold authorize authorizeToken isAuthorized getPathConfig
  simp only [hdenied, checkPermissions_withQuery]
  rfl

/-- A request whose URI contains the page is granted, whatever its path is. -/
theorem authorize_of_denied_uri (hmode : enforcer.enforcementMode = .enforcing)
    (hcontext : facade.securityContext = some (some accessToken))
    (hdenied : isDefaultAccessDeniedUri enforcer facade.request = true) :
    authorize enforcer facade = some ⟨.ofToken accessToken none, []⟩ := by
  simp [authorize, authorizeToken, getPathConfig, hmode, hcontext, hdenied]

/-- The ways in which any other request ends. -/
theorem authorize_cases (hmode : enforcer.enforcementMode = .enforcing)
    (hcontext : facade.securityContext = some (some accessToken))
    (hdenied : isDefaultAccessDeniedUri enforcer facade.request = false) {outcome : Outcome}
    (h : authorize enforcer facade = some outcome) :
    outcome.context = .empty false ∨
      ∃ pathConfig, enforcer.pathMatcher facade.request.relativePath = some (some pathConfig) ∧
        (outcome.context = .ofToken accessToken (some pathConfig) ∧
            (pathConfig.enforcementMode = .disabled ∨
              isAuthorized enforcer facade pathConfig (getRequiredScopes pathConfig facade.request)
                accessToken = some true) ∨
          outcome.context = .empty true ∧
            (getRequiredScopes pathConfig facade.request).scopesEnforcementMode = .disabled) := by
  have hnot : enforcer.enforcementMode ≠ .disabled := by simp [hmode]
  simp only [authorize, if_neg hnot, hcontext, getPathConfig, hdenied, Bool.false_eq_true,
    if_false, Option.bind_eq_bind, Option.bind_eq_some_iff] at h
  obtain ⟨found, hfound, h⟩ := h
  cases found with
  | none =>
      simp only [authorizeToken, hmode, hdenied] at h
      cases h
      exact .inl rfl
  | some pathConfig =>
      simp only [authorizeToken] at h
      by_cases hdisabled : pathConfig.enforcementMode = .disabled
      · rw [if_pos hdisabled] at h
        cases h
        exact .inr ⟨pathConfig, hfound, .inl ⟨rfl, .inl hdisabled⟩⟩
      · simp only [if_neg hdisabled, Option.bind_eq_bind, Option.bind_eq_some_iff] at h
        obtain ⟨authorized, hauthorized, h⟩ := h
        by_cases hgranted : authorized = true
        · rw [if_pos hgranted] at h
          cases h
          exact .inr ⟨pathConfig, hfound, .inl ⟨rfl, .inr (by rw [hauthorized, hgranted])⟩⟩
        · rw [if_neg hgranted] at h
          by_cases hmethod : (getRequiredScopes pathConfig facade.request).scopesEnforcementMode =
              .disabled
          · rw [if_pos hmethod] at h
            cases h
            exact .inr ⟨pathConfig, hfound, .inr ⟨rfl, hmethod⟩⟩
          · simp only [if_neg hmethod, Option.bind_eq_some_iff] at h
            obtain ⟨sent, _, h⟩ := h
            split_ifs at h <;> cases h <;> exact .inl rfl

theorem entitled_of_isAuthorized {pathConfig : PathConfig}
    (hdenied : isDefaultAccessDeniedUri enforcer facade.request = false)
    (hpath : pathConfig.enforcementMode = .enforcing)
    (hfound : enforcer.pathMatcher facade.request.relativePath = some (some pathConfig))
    (h : isAuthorized enforcer facade pathConfig (getRequiredScopes pathConfig facade.request)
      accessToken = some true) : Entitled enforcer facade accessToken := by
  unfold isAuthorized at h
  rw [hdenied] at h
  cases hauthorization : accessToken.authorization with
  | none => simp [hauthorization] at h
  | some authorization =>
      simp only [hauthorization, Bool.false_eq_true, if_false, Option.bind_eq_bind,
        Option.bind_eq_some_iff] at h
      obtain ⟨permissions, hpermissions, hcheck⟩ := h
      obtain ⟨permission, hmem, hgrants⟩ := exists_grants_of_checkPermissions hpath hcheck
      refine .inr ⟨pathConfig, hfound, .inr ⟨permissions, ?_, permission, hmem, hgrants⟩⟩
      rw [hauthorization, ← hpermissions]

/-- A request whose URI does not contain the page is granted only if it may be. -/
theorem entitled_of_authorize (hmode : enforcer.enforcementMode = .enforcing)
    (hpath : ∀ pathConfig,
      enforcer.pathMatcher facade.request.relativePath = some (some pathConfig) →
        pathConfig.enforcementMode = .enforcing)
    (hcontext : facade.securityContext = some (some accessToken))
    (hdenied : isDefaultAccessDeniedUri enforcer facade.request = false) {outcome : Outcome}
    (h : authorize enforcer facade = some outcome) (hgranted : outcome.context.isGranted = true) :
    Entitled enforcer facade accessToken := by
  rcases authorize_cases hmode hcontext hdenied h with
    hempty | ⟨pathConfig, hfound, ⟨_, hdisabled | hauthorized⟩ | ⟨_, hmethod⟩⟩
  · simp [hempty, AuthorizationContext.isGranted] at hgranted
  · simp [hpath pathConfig hfound] at hdisabled
  · exact entitled_of_isAuthorized hdenied (hpath pathConfig hfound) hfound hauthorized
  · exact .inr ⟨pathConfig, hfound, .inl hmethod⟩

/-- A request whose URI does not contain the page never gets the context of the page. -/
theorem context_ne_of_authorize (hmode : enforcer.enforcementMode = .enforcing)
    (hcontext : facade.securityContext = some (some accessToken))
    (hdenied : isDefaultAccessDeniedUri enforcer facade.request = false) {outcome : Outcome}
    (h : authorize enforcer facade = some outcome) :
    outcome.context ≠ .ofToken accessToken none := by
  rcases authorize_cases hmode hcontext hdenied h with
    hempty | ⟨pathConfig, _, ⟨hpathConfig, _⟩ | ⟨hempty, _⟩⟩
  · simp [hempty]
  · simp [hpathConfig]
  · simp [hempty]

theorem isDefaultAccessDeniedUri_withQuery {accessDeniedPath : String}
    (hpage : enforcer.onDenyRedirectTo = some accessDeniedPath) (queryString : Option String) :
    isDefaultAccessDeniedUri enforcer (facade.withQuery queryString).request =
      contains (facade.withQuery queryString).request.getURI accessDeniedPath := by
  simp [isDefaultAccessDeniedUri, hpage]

theorem contains_getURI {request : Request} {path : String}
    (h : contains (request.origin ++ request.path) path = true) :
    contains request.getURI path = true := by
  simp only [contains, decide_eq_true_eq, Request.getURI, String.toList_append] at h ⊢
  exact h.trans (List.prefix_append _ _).isInfix

theorem contains_getURI_query (request : Request) (path : String) :
    contains ({ request with queryString := some path } : Request).getURI path = true := by
  simp only [contains, decide_eq_true_eq, Request.getURI, String.toList_append]
  exact (List.suffix_append _ _).isInfix.trans (List.suffix_append _ _).isInfix

theorem getURI_without_query (request : Request) :
    ({ request with queryString := none } : Request).getURI = request.origin ++ request.path := by
  simp [Request.getURI]

end

/-- With the enforcer and the path in enforcing mode, exactly these requests are granted only
if they may be and independently of the query string: all where there is no page for denied
requests, and otherwise those whose URI contains it before the query string, if they may be
granted. -/
theorem grantsOnlyEntitled_iff (enforcer : PolicyEnforcer) (facade : OIDCHttpFacade)
    (accessToken : AccessToken) (hmode : enforcer.enforcementMode = .enforcing)
    (hpath : ∀ pathConfig,
      enforcer.pathMatcher facade.request.relativePath = some (some pathConfig) →
        pathConfig.enforcementMode = .enforcing)
    (hcontext : facade.securityContext = some (some accessToken)) :
    GrantsOnlyEntitled enforcer facade accessToken ↔
      ∀ accessDeniedPath, enforcer.onDenyRedirectTo = some accessDeniedPath →
        contains (facade.request.origin ++ facade.request.path) accessDeniedPath = true ∧
          Entitled enforcer facade accessToken := by
  constructor
  · rintro ⟨hgrants, hindependent⟩ accessDeniedPath hpage
    have hquery : authorize enforcer (facade.withQuery (some accessDeniedPath)) =
        some ⟨.ofToken accessToken none, []⟩ := by
      refine authorize_of_denied_uri hmode hcontext ?_
      rw [isDefaultAccessDeniedUri_withQuery hpage]
      exact contains_getURI_query facade.request accessDeniedPath
    refine ⟨?_, hgrants _ _ hquery rfl⟩
    by_contra hcontains
    have hdenied : isDefaultAccessDeniedUri enforcer (facade.withQuery none).request = false := by
      rw [isDefaultAccessDeniedUri_withQuery hpage, ← Bool.not_eq_true]
      exact fun h => hcontains (getURI_without_query facade.request ▸ h)
    have hcontexts := hindependent none (some accessDeniedPath)
    rw [hquery, Option.map_some, Option.map_eq_some_iff] at hcontexts
    obtain ⟨outcome, houtcome, htoken⟩ := hcontexts
    refine context_ne_of_authorize hmode ?_ hdenied houtcome htoken
    exact hcontext
  · intro hcondition
    cases hpage : enforcer.onDenyRedirectTo with
    | none =>
        have hsame : ∀ queryString, authorize enforcer (facade.withQuery queryString) =
            authorize enforcer facade :=
          authorize_withQuery_of_no_page hpage
        refine ⟨fun queryString outcome h hgranted => ?_, fun queryString queryString' => ?_⟩
        · rw [hsame] at h
          exact entitled_of_authorize hmode hpath hcontext
            (by simp [isDefaultAccessDeniedUri, hpage])
            h hgranted
        · rw [hsame, hsame]
    | some accessDeniedPath =>
        obtain ⟨hcontains, hentitled⟩ := hcondition accessDeniedPath hpage
        have hall : ∀ queryString, authorize enforcer (facade.withQuery queryString) =
            some ⟨.ofToken accessToken none, []⟩ := by
          intro queryString
          refine authorize_of_denied_uri hmode hcontext ?_
          rw [isDefaultAccessDeniedUri_withQuery hpage]
          exact contains_getURI hcontains
        refine ⟨fun _ _ _ _ => hentitled, fun queryString queryString' => ?_⟩
        rw [hall, hall]

def application : PolicyEnforcer where
  enforcementMode := .enforcing
  onDenyRedirectTo := some "/app/accessDenied"
  pathMatcher
    | "/admin" => some (some ⟨"/admin", [], [], some "admin", .enforcing, none⟩)
    | _ => some none

def requestFor (relativePath : String) (queryString : Option String) : OIDCHttpFacade where
  request := ⟨"GET", "http://localhost", "/app" ++ relativePath, queryString, relativePath⟩
  securityContext := some (some ⟨none⟩)
  resolveClaims _ := some []
  challenge _ _ := some false

theorem accessDenied_grantsOnlyEntitled :
    GrantsOnlyEntitled application (requestFor "/accessDenied" none) ⟨none⟩ := by
  refine (grantsOnlyEntitled_iff application _ ⟨none⟩ rfl ?_ rfl).mpr ?_
  · intro pathConfig hfound
    cases hfound
  · intro accessDeniedPath hpage
    cases hpage
    exact ⟨by decide +kernel, .inl ⟨_, rfl, .inr (.inl rfl)⟩⟩

/-- Naming the page in the query string is enough, without any permission. -/
theorem admin_granted_by_query :
    authorize application (requestFor "/admin" (some "from=/app/accessDenied")) =
        some ⟨.ofToken ⟨none⟩ none, []⟩ ∧
      ¬ Entitled application (requestFor "/admin" (some "from=/app/accessDenied")) ⟨none⟩ := by
  constructor
  · exact authorize_of_denied_uri rfl rfl (by decide +kernel)
  · rintro (⟨_, hpage, hat⟩ | ⟨pathConfig, hfound, hmethod | ⟨permissions, hpermissions, _⟩⟩)
    · cases hpage
      revert hat
      simp [Request.IsAt, requestFor]
    · cases hfound
      cases hmethod
    · cases hpermissions

end Keycloak.Adapters
