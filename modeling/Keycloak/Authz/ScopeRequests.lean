import Keycloak.Authz.CollectedResults

/-!
# Requests for scopes

A resource permission without a resource asks for scopes wherever they are found.  What
`DecisionPermissionCollector` adds for it names no resource, and depends on what has been granted
before.
-/

namespace Keycloak.Authz

def grantedScopes (permission : ResourcePermission) (s : State) : Finset Scope :=
  match s.results.lookup permission.identity with
  | none => ∅
  | some result =>
      match result.status with
      | .permit =>
          ((result.permission.resource.map Resource.scopes).getD result.permission.scopes).toFinset
      | .deny =>
          (settleScopes result.permission
            (result.results.foldl (fun t r => tallyResult result.permission t r.2)
              Tally.empty)).getD ∅

/-- One resource permission of a list: the scopes granted to it, and the permissions of the
collector before and after it. -/
structure Step where
  scopes : Finset Scope
  before : List Permission
  after : List Permission

section

variable (provider : Provider) (store : Store) (server : ResourceServer)
variable (includeResourceName : Bool)

def evaluatedScopes (permission : ResourcePermission) (s : State) : Finset Scope :=
  match server.policyEnforcementMode with
  | .disabled => grantedScopes permission (grantWithoutPolicy permission s)
  | mode =>
      let fed := (queries store server permission).flatten
      match feed provider true permission fed s with
      | none => ∅
      | some s =>
          if fed.isEmpty then
            if mode = .permissive then grantedScopes permission (grantWithoutPolicy permission s)
            else ∅
          else grantedScopes permission s

def steps : List ResourcePermission → State → List Permission → List Step
  | [], _, _ => []
  | permission :: rest, s, before =>
      match evaluatePermission provider store server includeResourceName permission s before with
      | none => []
      | some (s', after) =>
          ⟨evaluatedScopes provider store server permission s, before, after⟩ ::
            steps rest s' after

/-- The resources of the resource server that are associated with one of the scopes.  The query
finds a resource once for each of its scopes. -/
def associatedResources (scopes : Finset Scope) : List Resource := (store.findByScope scopes).dedup

/-- The permissions that answer a request for the scopes, as resource ids with scope names. -/
def answers (scopes : Finset Scope) : List (Option String × Finset String) :=
  match associatedResources store scopes with
  | [] => [(none, scopes.image Scope.name)]
  | resources => resources.map fun resource => (some resource.id, scopes.image Scope.name)

def Step.Answered (step : Step) : Prop :=
  ∃ added, step.after = step.before ++ added ∧
    (added.map fun p => (p.resourceId, p.scopes)).Perm (answers store step.scopes)

variable {provider store server includeResourceName} {permission : ResourcePermission} {s : State}

/-! ## One request -/

theorem onComplete_eq_grant
    (hresult : ∀ r, s.results.lookup permission.identity = some r → r.permission.resource = none)
    (before : List Permission) :
    ∃ claims, onComplete store includeResourceName permission s before =
      grantPermission store includeResourceName ⟨0, none, []⟩ claims (grantedScopes permission s)
        before := by
  refine ⟨s.claims permission.identity, ?_⟩
  rw [onComplete, grantedScopes]
  cases hlookup : s.results.lookup permission.identity with
  | none => rfl
  | some result =>
      have hnone := hresult result hlookup
      dsimp only
      rw [completeResult]
      cases result.status with
      | permit =>
          dsimp only
          rw [grantPermission, hnone]
          rfl
      | deny =>
          dsimp only
          split
          · rename_i hsettled
            rw [hsettled]
            rfl
          · rename_i scopes hsettled
            rw [hsettled, grantPermission, hnone]
            rfl

theorem grantPermission_scopes (claims : Claims) (scopes : Finset Scope)
    (before : List Permission) :
    grantPermission store includeResourceName ⟨0, none, []⟩ claims scopes before =
      if scopes = ∅ then before
      else if store.findByScope scopes = [] then
        if before = [] then [⟨none, none, scopes.image Scope.name, claims⟩] else before
      else before ++ (store.findByScope scopes).map fun _ =>
        ⟨none, none, scopes.image Scope.name, claims⟩ := by
  rw [grantPermission]
  dsimp only
  by_cases hempty : scopes = ∅
  · rw [if_pos hempty, if_pos hempty]
  rw [if_neg hempty, if_neg hempty]
  cases hfound : store.findByScope scopes with
  | nil =>
      rw [List.map_nil, List.append_nil, if_pos rfl]
      cases before with
      | nil => rfl
      | cons p rest => rfl
  | cons resource rest =>
      rw [if_neg (List.cons_ne_nil _ _)]
      cases before with
      | nil => rfl
      | cons p more => rfl

theorem collectable_withoutResource (hnone : permission.resource = none) :
    Collectable permission fun r => r.permission.resource = none :=
  ⟨fun _ _ _ h => h, fun _ _ => hnone⟩

theorem unconditional_withoutResource (hnone : permission.resource = none) :
    Unconditional (fun r => r.permission.resource = none) server permission :=
  .inr ⟨hnone, fun _ h => h⟩

theorem evaluatedScopes_of_feed (hmode : server.policyEnforcementMode ≠ .disabled) {s' : State}
    (hfeed : feed provider true permission (queries store server permission).flatten s = some s') :
    evaluatedScopes provider store server permission s =
      if (queries store server permission).flatten.isEmpty then
        if server.policyEnforcementMode = .permissive then
          grantedScopes permission (grantWithoutPolicy permission s')
        else ∅
      else grantedScopes permission s' := by
  cases hmode' : server.policyEnforcementMode with
  | disabled => exact absurd hmode' hmode
  | enforcing => simp only [evaluatedScopes, hmode', hfeed]
  | permissive => simp only [evaluatedScopes, hmode', hfeed]

theorem evaluatePermission_after (hnone : permission.resource = none)
    (h : s.Collects fun r => r.permission.resource = none) {before : List Permission}
    {r : State × List Permission}
    (hrun : evaluatePermission provider store server includeResourceName permission s before =
      some r) : ∃ claims, r.2 = grantPermission store includeResourceName ⟨0, none, []⟩ claims
        (evaluatedScopes provider store server permission s) before := by
  have hcomplete : ∀ s' : State, (s'.Collects fun r => r.permission.resource = none) →
      ∃ claims, onComplete store includeResourceName permission s' before =
        grantPermission store includeResourceName ⟨0, none, []⟩ claims
          (grantedScopes permission s') before :=
    fun s' h' => onComplete_eq_grant (fun r hr => h' _ (LinkedMap.mem_of_lookup hr)) before
  have hgranted : ∀ s' : State, (s'.Collects fun r => r.permission.resource = none) →
      (grantWithoutPolicy permission s').Collects fun r => r.permission.resource = none :=
    fun s' h' => h'.grantWithoutPolicy hnone fun _ h => h
  by_cases hmode : server.policyEnforcementMode = .disabled
  · rw [evaluatePermission] at hrun
    simp only [hmode, Option.some.injEq] at hrun
    rw [← hrun, evaluatedScopes]
    simp only [hmode]
    exact hcomplete _ (hgranted s h)
  cases hfeed : feed provider true permission (queries store server permission).flatten s with
  | none =>
      rw [evaluatePermission_of_not_feed hmode hfeed] at hrun
      cases hrun
  | some s' =>
      have hfed := h.feed (collectable_withoutResource hnone) hfeed
      rw [evaluatePermission_of_feed hmode hfeed, Option.some.injEq] at hrun
      rw [← hrun, evaluatedScopes_of_feed hmode hfeed]
      split
      · split
        · exact hcomplete _ (hgranted s' hfed)
        · exact ⟨[], by rw [grantPermission_scopes, if_pos rfl]⟩
      · exact hcomplete _ hfed

/-! ## A list of requests -/

variable (store includeResourceName) in
/-- A request that is granted scopes is answered when no resource is associated with them and the
collector holds nothing. -/
theorem answered_iff {scopes : Finset Scope} (hne : scopes ≠ ∅) (claims : Claims)
    (before : List Permission) :
    Step.Answered store ⟨scopes, before,
        grantPermission store includeResourceName ⟨0, none, []⟩ claims scopes before⟩ ↔
      store.findByScope scopes = [] ∧ before = [] := by
  rw [Step.Answered, grantPermission_scopes, if_neg hne]
  dsimp only
  by_cases hfound : store.findByScope scopes = []
  · have hanswers : answers store scopes = [(none, scopes.image Scope.name)] := by
      rw [answers, associatedResources, hfound, List.dedup_nil]
    rw [if_pos hfound, hanswers, and_iff_right hfound]
    constructor
    · intro hadded
      by_contra hbefore
      obtain ⟨added, heq, hperm⟩ := hadded
      rw [if_neg hbefore] at heq
      have hnil : added = [] := List.append_right_eq_self.mp heq.symm
      rw [hnil] at hperm
      exact List.cons_ne_nil _ _ (List.nil_perm.mp hperm)
    · intro hbefore
      rw [if_pos hbefore, hbefore]
      exact ⟨_, (List.nil_append _).symm, List.Perm.refl _⟩
  · rw [if_neg hfound]
    refine iff_of_false ?_ fun h => hfound h.1
    rintro ⟨added, heq, hperm⟩
    -- every permission that is added is without a resource
    have hadded := List.append_cancel_left heq
    obtain ⟨resource, hresource⟩ := List.exists_mem_of_ne_nil _ hfound
    have hassociated : resource ∈ associatedResources store scopes := List.mem_dedup.mpr hresource
    have hmem : (some resource.id, scopes.image Scope.name) ∈ answers store scopes := by
      rw [answers]
      split
      · rename_i hnil
        rw [hnil] at hassociated
        exact absurd hassociated List.not_mem_nil
      · exact List.mem_map.mpr ⟨resource, hassociated, rfl⟩
    obtain ⟨p, hp, heq'⟩ := List.mem_map.mp (hperm.mem_iff.mpr hmem)
    rw [← hadded] at hp
    obtain ⟨-, -, rfl⟩ := List.mem_map.mp hp
    cases heq'

theorem grantPermission_ne_nil {scopes : Finset Scope} (hne : scopes ≠ ∅) (claims : Claims)
    (before : List Permission) :
    grantPermission store includeResourceName ⟨0, none, []⟩ claims scopes before ≠ [] := by
  rw [grantPermission_scopes, if_neg hne]
  split
  · split
    · exact List.cons_ne_nil _ _
    · rename_i hbefore
      exact hbefore
  · rename_i hfound
    exact List.append_ne_nil_of_right_ne_nil _ (List.map_eq_nil_iff.not.mpr hfound)

theorem steps_answered_iff {requested : List ResourcePermission}
    (hrequested : ∀ p ∈ requested, p.resource = none)
    (h : s.Collects fun r => r.permission.resource = none) (before : List Permission) :
    (∀ step ∈ steps provider store server includeResourceName requested s before,
        step.scopes ≠ ∅ → step.Answered store) ↔
      (∀ step ∈ steps provider store server includeResourceName requested s before,
        step.scopes ≠ ∅ → store.findByScope step.scopes = []) ∧
      (steps provider store server includeResourceName requested s before).Pairwise
        (fun a b => a.scopes = ∅ ∨ b.scopes = ∅) ∧
      (before ≠ [] →
        ∀ step ∈ steps provider store server includeResourceName requested s before,
          step.scopes = ∅) := by
  induction requested generalizing s before with
  | nil => simp [steps]
  | cons permission rest ih =>
      rw [steps]
      cases hrun : evaluatePermission provider store server includeResourceName permission s
          before with
      | none => simp
      | some r =>
          obtain ⟨s', after⟩ := r
          have hnone := hrequested permission List.mem_cons_self
          have hkept := h.evaluatePermission (collectable_withoutResource hnone)
            (unconditional_withoutResource hnone) hrun
          obtain ⟨claims, hafter⟩ := evaluatePermission_after hnone h hrun
          have ih := ih (fun p hp => hrequested p (List.mem_cons_of_mem permission hp)) hkept after
          dsimp only at hafter ⊢
          generalize evaluatedScopes provider store server permission s = scopes at hafter ⊢
          rw [List.forall_mem_cons, List.forall_mem_cons, List.forall_mem_cons,
            List.pairwise_cons, ih]
          dsimp only
          by_cases hempty : scopes = ∅
          · rw [grantPermission_scopes, if_pos hempty] at hafter
            simp [hempty, hafter]
          · have hhead := answered_iff store includeResourceName hempty claims before
            rw [← hafter] at hhead
            have hfull : after ≠ [] := hafter ▸ grantPermission_ne_nil hempty claims before
            simp only [hempty, hhead, hfull, ne_eq, not_false_eq_true, forall_true_left, false_or]
            tauto

end

/-- Requests for scopes are answered as long as only one of them is granted anything, and that
one is granted scopes without resources. -/
theorem scopeRequests_answered_iff (provider : Provider) (store : Store) (server : ResourceServer)
    (includeResourceName : Bool) (claims : Nat → Claims) (requested : List ResourcePermission)
    (hrequested : ∀ p ∈ requested, p.resource = none) :
    (∀ step ∈ steps provider store server includeResourceName requested (State.initial claims) [],
        step.scopes ≠ ∅ → step.Answered store) ↔
      (∀ step ∈ steps provider store server includeResourceName requested (State.initial claims) [],
        step.scopes ≠ ∅ → associatedResources store step.scopes = []) ∧
      (steps provider store server includeResourceName requested (State.initial claims)
        []).Pairwise (fun a b => a.scopes = ∅ ∨ b.scopes = ∅) := by
  have hassociated : ∀ scopes, associatedResources store scopes = [] ↔
      store.findByScope scopes = [] := fun scopes => List.dedup_eq_nil _
  rw [steps_answered_iff hrequested (State.collects_initial claims)]
  simp only [hassociated, ne_eq, not_true_eq_false, false_implies, and_true]

/-! ## Reading and writing -/

def writeScope : Scope := ⟨"write", "write"⟩

def requestedWrite (identity : Nat) : ResourcePermission := ⟨identity, none, [writeScope]⟩

def writeStore (resources : List Resource) : Store :=
  ⟨fun _ => [], fun _ => [],
    fun _ => [.mk ⟨"permission", .scope, .positive, .unanimous, [], [writeScope]⟩
      [.mk ⟨"policy", .other "user", .positive, .unanimous, [], []⟩ []]],
    fun _ => [], fun _ => resources⟩

def writeServer : ResourceServer := ⟨"server", .enforcing⟩

/-- Without a resource that carries the scope, one request is answered. -/
theorem requestedWrite_answered :
    (steps (fun _ _ => [.grant]) (writeStore []) writeServer true [requestedWrite 0]
      (State.initial fun _ => []) []).map Step.scopes = [{writeScope}] ∧
    ∀ step ∈ steps (fun _ _ => [.grant]) (writeStore []) writeServer true [requestedWrite 0]
      (State.initial fun _ => []) [], step.scopes ≠ ∅ → step.Answered (writeStore []) := by
  refine ⟨by decide, (scopeRequests_answered_iff _ _ _ _ _ [requestedWrite 0] ?_).mpr ⟨?_, ?_⟩⟩
  · intro p hp
    rw [List.mem_singleton.mp hp]
    rfl
  · intro step _ _
    rfl
  · exact List.pairwise_singleton _ _

/-- A resource that carries the scope is not named. -/
theorem requestedWrite_not_answered :
    ¬ ∀ step ∈ steps (fun _ _ => [.grant])
      (writeStore [⟨"page", "Page", none, "server", false, [writeScope]⟩]) writeServer true
      [requestedWrite 0] (State.initial fun _ => []) [], step.scopes ≠ ∅ →
        step.Answered (writeStore [⟨"page", "Page", none, "server", false, [writeScope]⟩]) := by
  intro h
  obtain ⟨added, heq, hperm⟩ := h ⟨{writeScope}, [], [⟨none, none, {"write"}, []⟩]⟩
    (by exact List.mem_singleton.mpr rfl) (Finset.singleton_ne_empty _)
  have hadded : added = [⟨none, none, {"write"}, []⟩] := heq.symm
  rw [hadded] at hperm
  have hmem := hperm.subset List.mem_cons_self
  exact absurd hmem (by decide)

end Keycloak.Authz
