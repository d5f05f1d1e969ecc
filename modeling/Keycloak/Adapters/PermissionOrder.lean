import Keycloak.Adapters.PolicyEnforcer
import Mathlib.Data.List.Perm.Basic

/-!
# The order of the permissions

The loop of the enforcer returns at the first permission that it takes for the resource of the
path and whose scopes fit, whatever it then finds about the claims of that permission.
-/

namespace Keycloak.Adapters

section

variable (facade : OIDCHttpFacade) (actualPathConfig : PathConfig) (methodConfig : MethodConfig)

def Permission.isFound (permission : Permission) : Bool :=
  permission.getResourceId.any fun resourceId => isResourcePermission actualPathConfig resourceId

def Permission.decides (permission : Permission) : Bool :=
  hasResourceScopePermission methodConfig permission &&
    match permission.getResourceId with
    | none => true
    | some resourceId =>
        isResourcePermission actualPathConfig resourceId &&
          !(actualPathConfig.isInstance && !matchResourcePermission actualPathConfig resourceId)

def Permission.verdict (permission : Permission) : Option Bool :=
  match permission.getResourceId with
  | none => some true
  | some _ => hasValidClaims facade actualPathConfig permission

/-- The loop as a search for the first permission that decides. -/
theorem checkPermissions_eq (permissions : List Permission) (hasPermission : Bool) :
    checkPermissions facade actualPathConfig methodConfig permissions hasPermission =
      match permissions.find? (Permission.decides actualPathConfig methodConfig) with
      | some permission => permission.verdict facade actualPathConfig
      | none => some (!(hasPermission || permissions.any (Permission.isFound actualPathConfig)) &&
          decide (actualPathConfig.enforcementMode = .permissive)) := by
  induction permissions generalizing hasPermission with
  | nil => rw [checkPermissions, List.find?_nil, List.any_nil, Bool.or_false]
  | cons permission rest ih =>
      rw [checkPermissions, List.find?_cons, List.any_cons]
      cases hid : permission.getResourceId with
      | none =>
          have hfound : permission.isFound actualPathConfig = false := by
            rw [Permission.isFound, hid]
            rfl
          have hdecides : permission.decides actualPathConfig methodConfig =
              hasResourceScopePermission methodConfig permission := by
            rw [Permission.decides, hid, Bool.and_true]
          rw [hdecides, hfound, Bool.false_or]
          by_cases hscope : hasResourceScopePermission methodConfig permission = true
          · simp only [hscope, if_true, Permission.verdict, hid]
          · rw [Bool.not_eq_true] at hscope
            simp only [hscope, Bool.false_eq_true, if_false]
            exact ih hasPermission
      | some resourceId =>
          have hfound : permission.isFound actualPathConfig =
              isResourcePermission actualPathConfig resourceId := by
            rw [Permission.isFound, hid]
            rfl
          have hdecides : permission.decides actualPathConfig methodConfig =
              (hasResourceScopePermission methodConfig permission &&
                (isResourcePermission actualPathConfig resourceId &&
                  !(actualPathConfig.isInstance &&
                    !matchResourcePermission actualPathConfig resourceId))) := by
            rw [Permission.decides, hid]
          rw [hdecides, hfound]
          by_cases hresource : isResourcePermission actualPathConfig resourceId = true
          · -- from here on the permission has been found, whether the loop returns or not
            have hlater := ih true
            rw [Bool.true_or, Bool.not_true, Bool.false_and] at hlater
            simp only [hresource, if_true, Bool.true_and, Bool.true_or, Bool.or_true,
              Bool.not_true, Bool.false_and]
            by_cases hparent : (actualPathConfig.isInstance &&
                !matchResourcePermission actualPathConfig resourceId) = true
            · simp only [hparent, if_true, Bool.not_true, Bool.and_false]
              exact hlater
            · rw [Bool.not_eq_true] at hparent
              simp only [hparent, Bool.false_eq_true, if_false, Bool.not_false, Bool.and_true]
              by_cases hscope : hasResourceScopePermission methodConfig permission = true
              · simp only [hscope, if_true, Permission.verdict, hid]
              · rw [Bool.not_eq_true] at hscope
                simp only [hscope, Bool.false_eq_true, if_false]
                exact hlater
          · rw [Bool.not_eq_true] at hresource
            simp only [hresource, Bool.false_and, Bool.and_false, Bool.false_eq_true, if_false,
              Bool.false_or]
            exact ih hasPermission

def OrderIndependent (enforcer : PolicyEnforcer) (permissions : List Permission) : Prop :=
  ∀ order, order.Perm permissions →
    isAuthorized enforcer facade actualPathConfig methodConfig ⟨some ⟨some order⟩⟩ =
      isAuthorized enforcer facade actualPathConfig methodConfig ⟨some ⟨some permissions⟩⟩

variable {facade actualPathConfig methodConfig}

theorem isAuthorized_of_permissions {enforcer : PolicyEnforcer}
    (hdenied : isDefaultAccessDeniedUri enforcer facade.request = false)
    (permissions : List Permission) :
    isAuthorized enforcer facade actualPathConfig methodConfig ⟨some ⟨some permissions⟩⟩ =
      checkPermissions facade actualPathConfig methodConfig permissions false := by
  rw [isAuthorized, if_neg (by rw [hdenied]; exact Bool.false_ne_true)]
  rfl

theorem checkPermissions_of_decides {permission : Permission}
    (hdecides : permission.decides actualPathConfig methodConfig = true)
    (rest : List Permission) :
    checkPermissions facade actualPathConfig methodConfig (permission :: rest) false =
      permission.verdict facade actualPathConfig := by
  rw [checkPermissions_eq, List.find?_cons_of_pos hdecides]

theorem checkPermissions_of_not_decides {permissions : List Permission}
    (hnone : ∀ permission ∈ permissions,
      ¬ permission.decides actualPathConfig methodConfig = true) :
    checkPermissions facade actualPathConfig methodConfig permissions false =
      some (!permissions.any (Permission.isFound actualPathConfig) &&
        decide (actualPathConfig.enforcementMode = .permissive)) := by
  rw [checkPermissions_eq, List.find?_eq_none.mpr hnone, Bool.false_or]

theorem checkPermissions_of_agree {permissions : List Permission} {permission : Permission}
    (hmem : permission ∈ permissions)
    (hdecides : permission.decides actualPathConfig methodConfig = true)
    (hagree : ∀ other ∈ permissions, other.decides actualPathConfig methodConfig = true →
      other.verdict facade actualPathConfig = permission.verdict facade actualPathConfig) :
    checkPermissions facade actualPathConfig methodConfig permissions false =
      permission.verdict facade actualPathConfig := by
  rw [checkPermissions_eq]
  cases hfind : permissions.find? (Permission.decides actualPathConfig methodConfig) with
  | none => exact absurd hdecides (List.find?_eq_none.mp hfind permission hmem)
  | some first => exact hagree first (List.mem_of_find?_eq_some hfind) (List.find?_some hfind)

end

/-- The order of the permissions does not matter exactly when the request is for the page for
denied requests, or all the permissions at which the loop may return have the same verdict. -/
theorem permissionOrder_irrelevant_iff (enforcer : PolicyEnforcer) (facade : OIDCHttpFacade)
    (actualPathConfig : PathConfig) (methodConfig : MethodConfig)
    (permissions : List Permission) :
    OrderIndependent facade actualPathConfig methodConfig enforcer permissions ↔
      isDefaultAccessDeniedUri enforcer facade.request = true ∨
        ∀ permission ∈ permissions, ∀ other ∈ permissions,
          permission.decides actualPathConfig methodConfig = true →
          other.decides actualPathConfig methodConfig = true →
          permission.verdict facade actualPathConfig = other.verdict facade actualPathConfig := by
  cases hdenied : isDefaultAccessDeniedUri enforcer facade.request with
  | true =>
      apply iff_of_true _ (.inl rfl)
      intro order _
      rw [isAuthorized, isAuthorized, if_pos hdenied, if_pos hdenied]
  | false =>
      simp only [OrderIndependent, isAuthorized_of_permissions hdenied, Bool.false_eq_true,
        false_or]
      constructor
      · intro hindependent permission hmem other hother hdecides hdecides'
        have hfront : ∀ p ∈ permissions, p.decides actualPathConfig methodConfig = true →
            p.verdict facade actualPathConfig =
              checkPermissions facade actualPathConfig methodConfig permissions false := by
          intro p hp hp'
          rw [← hindependent _ (List.perm_cons_erase hp).symm]
          exact (checkPermissions_of_decides hp' _).symm
        rw [hfront permission hmem hdecides, hfront other hother hdecides']
      · intro hagree order horder
        by_cases hnone : ∀ permission ∈ permissions,
            ¬ permission.decides actualPathConfig methodConfig = true
        · have hnone' : ∀ permission ∈ order,
              ¬ permission.decides actualPathConfig methodConfig = true :=
            fun permission hmem => hnone permission (horder.mem_iff.mp hmem)
          rw [checkPermissions_of_not_decides hnone, checkPermissions_of_not_decides hnone',
            horder.any_eq]
        · push Not at hnone
          obtain ⟨permission, hmem, hdecides⟩ := hnone
          have hall : ∀ other ∈ permissions,
              other.decides actualPathConfig methodConfig = true →
              other.verdict facade actualPathConfig =
                permission.verdict facade actualPathConfig :=
            fun other hother hdecides' => hagree other hother permission hmem hdecides' hdecides
          rw [checkPermissions_of_agree hmem hdecides hall,
            checkPermissions_of_agree (horder.mem_iff.mpr hmem) hdecides fun other hother =>
              hall other (horder.mem_iff.mp hother)]

/-! ## Two permissions with claims -/

def accountPath : PathConfig := ⟨"/account", [], [], some "account", .enforcing, none⟩

def getAccount : MethodConfig := ⟨"GET", [], .all⟩

def accountEnforcer : PolicyEnforcer := ⟨.enforcing, none, fun _ => some (some accountPath)⟩

def accountRequest : OIDCHttpFacade where
  request := ⟨"GET", "http://localhost", "/account", none, "/account"⟩
  securityContext := none
  resolveClaims _ := some [("organisation", ["a"])]
  challenge _ _ := some true

def accountPermission (organisation : String) : Permission :=
  ⟨some "account", none, some [("organisation", [organisation])]⟩

/-- The permission for the other organisation denies the request when it comes first. -/
theorem two_organisations_dependent :
    ¬ OrderIndependent accountRequest accountPath getAccount accountEnforcer
      [accountPermission "a", accountPermission "b"] := by
  intro hindependent
  have hswap := hindependent [accountPermission "b", accountPermission "a"] (List.Perm.swap _ _ _)
  revert hswap
  decide

end Keycloak.Adapters
