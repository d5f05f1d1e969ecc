import Keycloak.Authz.Feed

/-!
# Granting permissions

`DecisionPermissionCollector` turns the result of a resource permission into granted
permissions; `DefaultPolicyEvaluator` and `IterablePermissionEvaluator` evaluate resource
permissions against the policy store.
-/

namespace Keycloak.Authz

structure Permission where
  resourceId : Option String
  resourceName : Option String
  scopes : Finset String
  claims : Claims
  deriving DecidableEq

/-- The queries of the policy store and the resource store that the evaluation runs, all
for one resource server. -/
structure Store where
  findByResource : Resource → List Policy
  findByResourceType : String → List Policy
  findByScopeIds : List Scope → List Policy
  findByType : String → List Resource
  findByScope : Finset Scope → List Resource

structure ResourceServer where
  id : String
  policyEnforcementMode : PolicyEnforcementMode

/-! ## The collector -/

structure Tally where
  grantedScopes : Finset Scope
  deniedScopes : Finset Scope
  userManagedPermissions : List Policy
  resourceGranted : Bool
  anyDeny : Bool

def Tally.empty : Tally := ⟨∅, ∅, [], false, false⟩

/-- `policy.getResources().contains(resource)`. -/
def listsResource (permission : ResourcePermission) (policy : Policy) : Bool :=
  match permission.resource with
  | none => false
  | some resource => policy.data.resources.contains resource

/-- `resource != null && resource.isOwnerManagedAccess()`. -/
def ownerManaged (permission : ResourcePermission) : Bool :=
  match permission.resource with
  | none => false
  | some resource => resource.ownerManagedAccess

def tallyResult (permission : ResourcePermission) (t : Tally) (r : PolicyResult) : Tally :=
  let policy := r.policy
  let requestedScopes := permission.scopes
  if isGranted r then
    let granted :=
      match policy.type with
      | .scope =>
          { t with
            grantedScopes := t.grantedScopes ∪
              (requestedScopes.filter fun scope => policy.data.scopes.contains scope).toFinset }
      | .resource => { t with grantedScopes := t.grantedScopes ∪ requestedScopes.toFinset }
      | .uma =>
          if ownerManaged permission then
            { t with userManagedPermissions := t.userManagedPermissions ++ [policy] }
          else t
      | _ => t
    { granted with
      resourceGranted := t.resourceGranted || listsResource permission policy }
  else
    let denied :=
      match policy.type with
      | .resource =>
          if t.resourceGranted then t
          else { t with deniedScopes := t.deniedScopes ∪ requestedScopes.toFinset }
      | _ => { t with deniedScopes := t.deniedScopes ∪ policy.data.scopes.toFinset }
    { denied with anyDeny := true }

/-- What follows the loop: the scopes to grant, or nothing. -/
def settleScopes (permission : ResourcePermission) (t : Tally) : Option (Finset Scope) :=
  -- remove any scope denied from the list of granted scopes
  let grantedScopes := t.grantedScopes \ t.deniedScopes
  if t.userManagedPermissions.isEmpty then
    if !t.resourceGranted && (decide (grantedScopes = ∅) && !permission.scopes.isEmpty) then none
    else if t.anyDeny && decide (grantedScopes = ∅) then none
    else some grantedScopes
  else
    let grantedScopes := t.userManagedPermissions.foldl
      (fun acc policy => acc ∪ policy.data.scopes.toFinset) grantedScopes
    let resourceScopes := (permission.resource.map Resource.scopes).getD []
    if decide (grantedScopes = ∅) && !resourceScopes.isEmpty then none
    else some grantedScopes

section

variable (store : Store) (includeResourceName : Bool)

def createPermission (resource : Option Resource) (scopes : Finset String) (claims : Claims) :
    Permission :=
  match resource with
  | some resource =>
      ⟨some resource.id, if includeResourceName then some resource.name else none, scopes, claims⟩
  | none => ⟨none, none, scopes, claims⟩

/-- `grantPermission`.  Without a resource one permission is added for each resource that
carries one of the scopes, and one more when nothing has been granted at all. -/
def grantPermission (permission : ResourcePermission) (claims : Claims)
    (grantedScopes : Finset Scope) (permissions : List Permission) : List Permission :=
  let scopeNames := grantedScopes.image Scope.name
  match permission.resource with
  | some resource =>
      permissions ++ [createPermission includeResourceName (some resource) scopeNames claims]
  | none =>
      if grantedScopes = ∅ then permissions
      else
        let created := createPermission includeResourceName none scopeNames claims
        let permissions := permissions ++ (store.findByScope grantedScopes).map fun _ => created
        if permissions.isEmpty then [created] else permissions

def completeResult (claims : Claims) (result : Result) (permissions : List Permission) :
    List Permission :=
  let permission := result.permission
  match result.status with
  | .permit =>
      let scopes := ((permission.resource.map Resource.scopes).getD permission.scopes).toFinset
      grantPermission store includeResourceName permission claims scopes permissions
  | .deny =>
      let t := result.results.foldl (fun t r => tallyResult permission t r.2) Tally.empty
      match settleScopes permission t with
      | none => permissions
      | some scopes =>
          grantPermission store includeResourceName permission claims scopes permissions

def onComplete (permission : ResourcePermission) (s : State) (permissions : List Permission) :
    List Permission :=
  match s.results.lookup permission.identity with
  | none => permissions
  | some result =>
      completeResult store includeResourceName (s.claims permission.identity) result permissions

end

/-- `grant` on an evaluation without a policy. -/
def grantWithoutPolicy (permission : ResourcePermission) (s : State) : State :=
  { s with
    results := LinkedMap.alter permission.identity
      (fun found => { found.getD (Result.ofPermission permission) with status := .permit })
      s.results }

/-! ## The evaluators -/

section

variable (provider : Provider) (store : Store) (server : ResourceServer)
variable (includeResourceName : Bool)

/-- The queries that `DefaultPolicyEvaluator` runs for a resource permission, in order. -/
def queries (permission : ResourcePermission) : List (List Policy) :=
  let byResource :=
    match permission.resource with
    | none => []
    | some resource =>
        store.findByResource resource ::
          match resource.type with
          | none => []
          | some type =>
              store.findByResourceType type ::
                if resource.owner ≠ server.id then
                  (store.findByType type).map store.findByResource
                else []
  let byScope :=
    if permission.scopes.isEmpty then [] else [store.findByScopeIds permission.scopes]
  byResource ++ byScope

/-- `DefaultPolicyEvaluator.evaluate`; `none` is an exception. -/
def evaluatePermission (permission : ResourcePermission) (s : State)
    (permissions : List Permission) : Option (State × List Permission) :=
  let complete := fun s =>
    (s, onComplete store includeResourceName permission s permissions)
  match server.policyEnforcementMode with
  | .disabled => some (complete (grantWithoutPolicy permission s))
  | mode =>
      let fed := (queries store server permission).flatten
      (feed provider true permission fed s).map fun s =>
        if fed.isEmpty then
          if mode = .permissive then complete (grantWithoutPolicy permission s)
          else (s, permissions)
        else complete s

/-- `IterablePermissionEvaluator.evaluate`: one collector and one decision cache for all
resource permissions. -/
def evaluatePermissions : List ResourcePermission → State → List Permission →
    Option (State × List Permission)
  | [], s, permissions => some (s, permissions)
  | permission :: rest, s, permissions =>
      (evaluatePermission provider store server includeResourceName permission s
        permissions).bind fun (s, permissions) => evaluatePermissions rest s permissions

def grantedPermissions (claims : Nat → Claims) (requested : List ResourcePermission) :
    Option (List Permission) :=
  (evaluatePermissions provider store server includeResourceName requested
    (State.initial claims) []).map Prod.snd

variable {provider store server includeResourceName} {permission : ResourcePermission}

theorem evaluatePermission_of_feed (hmode : server.policyEnforcementMode ≠ .disabled)
    {s s' : State}
    (hfeed : feed provider true permission (queries store server permission).flatten s = some s')
    (permissions : List Permission) :
    evaluatePermission provider store server includeResourceName permission s permissions =
      some (if (queries store server permission).flatten.isEmpty then
        (if server.policyEnforcementMode = .permissive then
          (grantWithoutPolicy permission s', onComplete store includeResourceName permission
            (grantWithoutPolicy permission s') permissions)
        else (s', permissions))
      else (s', onComplete store includeResourceName permission s' permissions)) := by
  cases hmode' : server.policyEnforcementMode with
  | disabled => exact (hmode hmode').elim
  | enforcing => simp only [evaluatePermission, hmode', hfeed, Option.map_some]
  | permissive => simp only [evaluatePermission, hmode', hfeed, Option.map_some]

theorem evaluatePermission_of_not_feed (hmode : server.policyEnforcementMode ≠ .disabled)
    {s : State}
    (hfeed : feed provider true permission (queries store server permission).flatten s = none)
    (before : List Permission) :
    evaluatePermission provider store server includeResourceName permission s before = none := by
  cases hmode' : server.policyEnforcementMode with
  | disabled => exact absurd hmode' hmode
  | enforcing => simp only [evaluatePermission, hmode', hfeed, Option.map_none]
  | permissive => simp only [evaluatePermission, hmode', hfeed, Option.map_none]

theorem lookup_grantWithoutPolicy {s : State}
    (hnone : s.results.lookup permission.identity = none) :
    (grantWithoutPolicy permission s).results.lookup permission.identity =
      some { Result.ofPermission permission with status := .permit } := by
  simp [grantWithoutPolicy, hnone]

end

end Keycloak.Authz
