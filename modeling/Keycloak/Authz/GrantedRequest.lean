import Keycloak.Authz.AuthorizationTokenService

/-!
# Requests with an RPT

`AuthorizationTokenService.isGranted` compares the requested permissions with the granted ones by
`Permission.equals`, for which one scope in common is enough.
-/

namespace Keycloak.Authz

/-- `Permission.equals` with another object of the class; `none` is a null pointer. -/
def Permission.equals (permission that : Permission) : Option Bool :=
  let id := getResourceId permission.resourceId
  let shared := some (decide (permission.scopes ∩ that.scopes ≠ ∅))
  if id.isSome ∨ permission.resourceName.isSome then
    match id with
    | none => none
    | some id =>
        if some id ≠ that.resourceId then some false
        else if permission.scopes = ∅ ∧ that.scopes = ∅ then some true
        else shared
  else if that.resourceId.isSome then some false
  else shared

namespace AuthorizationTokenService

def contains : List Permission → Permission → Option Bool
  | [], _ => some false
  | granted :: rest, permission =>
      match permission.equals granted with
      | none => none
      | some true => some true
      | some false => contains rest permission

def anyMissing (permissions : List Permission) : List Permission → Option Bool
  | [] => some false
  | permission :: rest =>
      match contains permissions permission with
      | none => none
      | some true => anyMissing permissions rest
      | some false => some true

def isGranted (hasRpt : Bool) (requestedPermissions permissions : List Permission) : Option Bool :=
  -- denies in case a rpt was provided along with the request but any permission was not granted
  if hasRpt ∧ requestedPermissions ≠ [] then
    match anyMissing permissions requestedPermissions with
    | none => none
    | some true => some false
    | some false => some !permissions.isEmpty
  else some !permissions.isEmpty

/-! ## Requested and granted -/

/-- The granted permission is for the same resource, and shares a scope or has none either. -/
def Meets (permission granted : Permission) : Prop :=
  granted.resourceId = permission.resourceId ∧
    (permission.scopes = ∅ ∧ granted.scopes = ∅ ∨ permission.scopes ∩ granted.scopes ≠ ∅)

instance (permission granted : Permission) : Decidable (Meets permission granted) :=
  inferInstanceAs (Decidable (_ ∧ _))

/-- The granted permission is for the same resource, and has all of the requested scopes. -/
def Covers (permission granted : Permission) : Prop :=
  granted.resourceId = permission.resourceId ∧ permission.scopes ⊆ granted.scopes

/-- A scope of the permission is granted for its resource, but not all of them are together. -/
def GrantedInPart (permissions : List Permission) (permission : Permission) : Prop :=
  (∃ granted ∈ permissions, granted.resourceId = permission.resourceId ∧
    permission.scopes ∩ granted.scopes ≠ ∅) ∧
  ∀ granted ∈ permissions, ¬ Covers permission granted

section

variable {permissions requestedPermissions : List Permission} {permission : Permission}

theorem equals_of_id (hid : (getResourceId permission.resourceId).isSome) (granted : Permission) :
    permission.equals granted = some (decide (Meets permission granted)) := by
  obtain ⟨id, hsome⟩ := Option.isSome_iff_exists.mp hid
  have hid' : permission.resourceId = some id := (Option.filter_eq_some_iff.mp hsome).1
  rw [Permission.equals]
  simp only [hsome, Option.isSome_some, true_or, if_true]
  by_cases hsame : some id = granted.resourceId
  · rw [if_neg fun h => h hsame]
    by_cases hempty : permission.scopes = ∅ ∧ granted.scopes = ∅
    · have hmeets : Meets permission granted := ⟨by rw [hid', hsame], .inl hempty⟩
      rw [if_pos hempty, decide_eq_true hmeets]
    · rw [if_neg hempty]
      refine congrArg some (decide_eq_decide.mpr ?_)
      rw [Meets, hid', ← hsame, and_iff_right rfl, or_iff_right hempty]
  · have hmeets : ¬ Meets permission granted := fun h => hsame (by rw [h.1, hid'])
    rw [if_pos hsame, decide_eq_false hmeets]

theorem contains_of_id (hid : (getResourceId permission.resourceId).isSome) :
    contains permissions permission =
      some (decide (∃ granted ∈ permissions, Meets permission granted)) := by
  induction permissions with
  | nil => rw [contains, decide_eq_false (by simp)]
  | cons granted rest ih =>
      rw [contains, equals_of_id hid granted]
      by_cases hmeets : Meets permission granted
      · rw [decide_eq_true hmeets,
          decide_eq_true ⟨granted, List.mem_cons_self, hmeets⟩]
      · rw [decide_eq_false hmeets]
        dsimp only
        rw [ih]
        refine congrArg some (decide_eq_decide.mpr ?_)
        rw [List.exists_mem_cons_iff, or_iff_right hmeets]

theorem anyMissing_of_ids
    (hids : ∀ permission ∈ requestedPermissions, (getResourceId permission.resourceId).isSome) :
    anyMissing permissions requestedPermissions = some (decide
      (∃ permission ∈ requestedPermissions,
        ∀ granted ∈ permissions, ¬ Meets permission granted)) := by
  induction requestedPermissions with
  | nil => rw [anyMissing, decide_eq_false (by simp)]
  | cons permission rest ih =>
      have ih := ih fun p hp => hids p (List.mem_cons_of_mem permission hp)
      rw [anyMissing, contains_of_id (hids permission List.mem_cons_self)]
      by_cases hmeets : ∃ granted ∈ permissions, Meets permission granted
      · rw [decide_eq_true hmeets]
        dsimp only
        rw [ih]
        refine congrArg some (decide_eq_decide.mpr ?_)
        rw [List.exists_mem_cons_iff, or_iff_right]
        obtain ⟨granted, hgranted, h⟩ := hmeets
        exact fun hnone => hnone granted hgranted h
      · rw [decide_eq_false hmeets]
        refine congrArg some (decide_eq_true ⟨permission, List.mem_cons_self, ?_⟩).symm
        exact fun granted hgranted h => hmeets ⟨granted, hgranted, h⟩

/-- A permission that is met is covered, unless it is granted in part. -/
theorem covered_iff_of_meets (h : ∃ granted ∈ permissions, Meets permission granted) :
    (∃ granted ∈ permissions, Covers permission granted) ↔
      ¬ GrantedInPart permissions permission := by
  obtain ⟨granted, hgranted, hsame, hmeets⟩ := h
  rw [GrantedInPart]
  rcases hmeets with ⟨hempty, -⟩ | hshared
  · have hcovers : Covers permission granted := ⟨hsame, hempty ▸ Finset.empty_subset _⟩
    exact iff_of_true ⟨granted, hgranted, hcovers⟩ fun h => h.2 granted hgranted hcovers
  · have hpart : ∃ granted ∈ permissions, granted.resourceId = permission.resourceId ∧
        permission.scopes ∩ granted.scopes ≠ ∅ := ⟨granted, hgranted, hsame, hshared⟩
    rw [and_iff_right hpart]
    push Not
    rfl

end

/-- An upgrade succeeds only with everything that was requested exactly when some requested
permission is not met at all, or none is granted in part. -/
theorem isGranted_covers_iff (requestedPermissions permissions : List Permission)
    (hrequested : requestedPermissions ≠ [])
    (hids : ∀ permission ∈ requestedPermissions, (getResourceId permission.resourceId).isSome) :
    (∃ verdict, isGranted true requestedPermissions permissions = some verdict ∧
      (verdict = true → ∀ permission ∈ requestedPermissions, ∃ granted ∈ permissions,
        granted.resourceId = permission.resourceId ∧ permission.scopes ⊆ granted.scopes)) ↔
    (∃ permission ∈ requestedPermissions, ∀ granted ∈ permissions, ¬ Meets permission granted) ∨
      ∀ permission ∈ requestedPermissions, ¬ GrantedInPart permissions permission := by
  have hverdict : isGranted true requestedPermissions permissions = some (decide
      (¬ ∃ permission ∈ requestedPermissions, ∀ granted ∈ permissions,
        ¬ Meets permission granted)) := by
    rw [isGranted, if_pos ⟨rfl, hrequested⟩, anyMissing_of_ids hids]
    by_cases hmissing : ∃ permission ∈ requestedPermissions, ∀ granted ∈ permissions,
        ¬ Meets permission granted
    · rw [decide_eq_true hmissing, decide_eq_false (not_not.mpr hmissing)]
    · rw [decide_eq_false hmissing, decide_eq_true hmissing]
      obtain ⟨permission, hpermission⟩ := List.exists_mem_of_ne_nil _ hrequested
      have hne : permissions ≠ [] := by
        rintro rfl
        exact hmissing ⟨permission, hpermission, fun granted h => absurd h List.not_mem_nil⟩
      obtain ⟨granted, rest, rfl⟩ := List.exists_cons_of_ne_nil hne
      rfl
  simp only [hverdict, Option.some.injEq, exists_eq_left', decide_eq_true_iff]
  by_cases hmissing : ∃ permission ∈ requestedPermissions, ∀ granted ∈ permissions,
      ¬ Meets permission granted
  · exact iff_of_true (fun h => absurd hmissing h) (.inl hmissing)
  · rw [or_iff_right hmissing, forall_prop_of_true hmissing]
    refine forall₂_congr fun permission hpermission => ?_
    refine covered_iff_of_meets ?_
    by_contra hnone
    exact hmissing ⟨permission, hpermission, fun granted hgranted h =>
      hnone ⟨granted, hgranted, h⟩⟩

/-- Reading is requested and granted. -/
theorem read_covered :
    ∃ verdict, isGranted true [⟨some "a", none, {"read"}, []⟩] [⟨some "a", none, {"read"}, []⟩] =
        some verdict ∧
      (verdict = true → ∀ permission ∈ [(⟨some "a", none, {"read"}, []⟩ : Permission)],
        ∃ granted ∈ [(⟨some "a", none, {"read"}, []⟩ : Permission)],
          granted.resourceId = permission.resourceId ∧ permission.scopes ⊆ granted.scopes) := by
  refine (isGranted_covers_iff [⟨some "a", none, {"read"}, []⟩] [⟨some "a", none, {"read"}, []⟩]
    (List.cons_ne_nil _ _) ?_).mpr (.inr ?_)
  · intro permission hpermission
    rw [List.mem_singleton.mp hpermission]
    decide
  · intro permission hpermission hpart
    rw [List.mem_singleton.mp hpermission] at hpart
    exact hpart.2 _ List.mem_cons_self ⟨rfl, Finset.Subset.refl _⟩

/-- Reading and writing are requested, reading is granted, and the upgrade succeeds. -/
theorem write_not_covered :
    ¬ ∃ verdict, isGranted true [⟨some "a", none, {"read", "write"}, []⟩]
        [⟨some "a", none, {"read"}, []⟩] = some verdict ∧
      (verdict = true → ∀ permission ∈ [(⟨some "a", none, {"read", "write"}, []⟩ : Permission)],
        ∃ granted ∈ [(⟨some "a", none, {"read"}, []⟩ : Permission)],
          granted.resourceId = permission.resourceId ∧ permission.scopes ⊆ granted.scopes) := by
  rintro ⟨verdict, hrun, hcovers⟩
  have hverdict : verdict = true := by
    cases hrun
    decide
  obtain ⟨granted, hgranted, -, hsubset⟩ := hcovers hverdict _ List.mem_cons_self
  rw [List.mem_singleton.mp hgranted] at hsubset
  exact absurd hsubset (by decide)

end AuthorizationTokenService

end Keycloak.Authz
