import Keycloak.Authz.DecisionCache
import Keycloak.Authz.PermissionCollector
import Mathlib.Data.List.TakeWhile

/-!
# Resource permissions evaluated together

`IterablePermissionEvaluator` evaluates a list of resource permissions with one collector
and one decision cache.  Most entries of the cache are keyed by the resource permission and
say nothing to the others; the effect of a resource permission policy is keyed by the
resource and is replayed for every later resource permission of it.  The replay copies what
another resource permission has recorded for the policy, but only when nothing has been
recorded yet for this one.
-/

namespace Keycloak.Authz

section

variable (provider : Provider) (store : Store) (server : ResourceServer)

/-! ## One resource permission alone -/

/-- The result of a resource permission when every policy has its own effect. -/
def ownResult (permission : ResourcePermission) : Option Result :=
  let fed := (queries store server permission).flatten
  let unconditional := some { Result.ofPermission permission with status := .permit }
  match server.policyEnforcementMode with
  | .disabled => unconditional
  | mode =>
      if fed.isEmpty then if mode = .permissive then unconditional else none
      else resultOf provider permission fed

def ownClaims (permission : ResourcePermission) (claims : Claims) : Claims :=
  match server.policyEnforcementMode with
  | .disabled => claims
  | _ => claimsAfter provider permission claims
      (visitFed true [] [] (queries store server permission).flatten).2

def Result.grantedScopes (result : Result) : Option (Finset Scope) :=
  let permission := result.permission
  match result.status with
  | .permit =>
      some ((permission.resource.map Resource.scopes).getD permission.scopes).toFinset
  | .deny =>
      settleScopes permission
        (result.results.foldl (fun t r => tallyResult permission t r.2) Tally.empty)

def ownScopes (permission : ResourcePermission) : Option (Finset Scope) :=
  (ownResult provider store server permission).bind Result.grantedScopes

def grants (permission : ResourcePermission) : Bool :=
  match ownScopes provider store server permission with
  | none => false
  | some scopes => permission.resource.isSome || decide (scopes ≠ ∅)

/-- The scopes are granted without a resource, and no resource has one of them. -/
def fallsBack (permission : ResourcePermission) : Bool :=
  match ownScopes provider store server permission with
  | none => false
  | some scopes =>
      permission.resource.isNone && decide (scopes ≠ ∅) && (store.findByScope scopes).isEmpty

variable (includeResourceName : Bool)

def completed (result : Option Result) (claims : Claims) (before : List Permission) :
    List Permission :=
  match result with
  | none => before
  | some result => completeResult store includeResourceName claims result before

def grantedAlone (claims : Nat → Claims) (permission : ResourcePermission) :
    List Permission :=
  completed store includeResourceName (ownResult provider store server permission)
    (ownClaims provider store server permission (claims permission.identity)) []

end

section

variable {provider : Provider} {store : Store} {server : ResourceServer}
variable {includeResourceName : Bool} {permission : ResourcePermission}

theorem ownResult_of_ne_disabled (hmode : server.policyEnforcementMode ≠ .disabled) :
    ownResult provider store server permission =
      if (queries store server permission).flatten.isEmpty then
        (if server.policyEnforcementMode = .permissive then
          some { Result.ofPermission permission with status := .permit } else none)
      else resultOf provider permission (queries store server permission).flatten := by
  cases hmode' : server.policyEnforcementMode with
  | disabled => exact (hmode hmode').elim
  | enforcing => simp only [ownResult, hmode']
  | permissive => simp only [ownResult, hmode']

theorem ownClaims_of_ne_disabled (hmode : server.policyEnforcementMode ≠ .disabled)
    (claims : Claims) : ownClaims provider store server permission claims =
      claimsAfter provider permission claims
        (visitFed true [] [] (queries store server permission).flatten).2 := by
  cases hmode' : server.policyEnforcementMode with
  | disabled => exact (hmode hmode').elim
  | enforcing => simp only [ownClaims, hmode']
  | permissive => simp only [ownClaims, hmode']

theorem resultOf_permission {fed : List Policy} {r : Result}
    (h : resultOf provider permission fed = some r) : r.permission = permission := by
  unfold resultOf at h
  split at h
  · cases h
  · cases h
    rfl

theorem ownResult_permission {r : Result}
    (h : ownResult provider store server permission = some r) : r.permission = permission := by
  by_cases hmode : server.policyEnforcementMode = .disabled
  · simp only [ownResult, hmode, Option.some.injEq] at h
    rw [← h]
    rfl
  · rw [ownResult_of_ne_disabled hmode] at h
    split at h
    · split at h
      · cases h
        rfl
      · cases h
    · exact resultOf_permission h

/-! ## Granting behind other permissions -/

theorem grantPermission_behind (claims : Claims) (scopes : Finset Scope)
    (before : List Permission) :
    grantPermission store includeResourceName permission claims scopes before =
      before ++ if before ≠ [] ∧ permission.resource = none ∧ scopes ≠ ∅ ∧
          store.findByScope scopes = [] then []
        else grantPermission store includeResourceName permission claims scopes [] := by
  unfold grantPermission
  cases permission.resource with
  | some resource => simp
  | none =>
      by_cases hempty : scopes = ∅
      · simp [hempty]
      · cases before <;> cases store.findByScope scopes <;> simp [hempty]

theorem completeResult_eq (claims : Claims) (result : Result) (before : List Permission) :
    completeResult store includeResourceName claims result before =
      match result.grantedScopes with
      | none => before
      | some scopes =>
          grantPermission store includeResourceName result.permission claims scopes before := by
  unfold completeResult Result.grantedScopes
  cases result.status with
  | permit => rfl
  | deny => rfl

/-- Behind other permissions the same is granted, unless the resource permission falls back. -/
theorem completed_behind (claims : Claims) (before : List Permission) :
    completed store includeResourceName (ownResult provider store server permission) claims
        before =
      before ++ if before ≠ [] ∧ fallsBack provider store server permission then [] else
        completed store includeResourceName (ownResult provider store server permission) claims
          [] := by
  unfold fallsBack ownScopes
  cases hresult : ownResult provider store server permission with
  | none => simp [completed]
  | some result =>
      simp only [completed, completeResult_eq, Option.bind_some, ownResult_permission hresult]
      cases result.grantedScopes with
      | none => simp
      | some scopes =>
          simp only
          rw [grantPermission_behind]
          simp [List.isEmpty_iff, and_assoc]

theorem grantedAlone_eq_nil {claims : Nat → Claims} :
    grantedAlone provider store server includeResourceName claims permission = [] ↔
      grants provider store server permission = false := by
  unfold grantedAlone grants ownScopes
  cases hresult : ownResult provider store server permission with
  | none => simp [completed]
  | some result =>
      simp only [completed, completeResult_eq, Option.bind_some, ownResult_permission hresult]
      cases result.grantedScopes with
      | none => simp
      | some scopes =>
          unfold grantPermission
          cases permission.resource with
          | some resource => simp
          | none =>
              by_cases hempty : scopes = ∅
              · simp [hempty]
              · cases hfound : store.findByScope scopes <;> simp [hempty, hfound]

theorem grants_of_fallsBack (h : fallsBack provider store server permission = true) :
    grants provider store server permission = true := by
  unfold fallsBack at h
  unfold grants
  cases hscopes : ownScopes provider store server permission with
  | none => simp [hscopes] at h
  | some scopes =>
      rw [hscopes] at h
      simp only [Bool.and_eq_true, decide_eq_true_eq] at h
      simp [h.1.2]

variable (provider store server includeResourceName) in
def grantedBehind (claims : Nat → Claims) :
    List Permission → List ResourcePermission → List Permission
  | before, [] => before
  | before, p :: rest =>
      grantedBehind claims (before ++
        if before ≠ [] ∧ fallsBack provider store server p then []
        else grantedAlone provider store server includeResourceName claims p) rest

theorem length_grantedBehind_le (claims : Nat → Claims) (before : List Permission)
    (rest : List ResourcePermission) :
    (grantedBehind provider store server includeResourceName claims before rest).length ≤
      (before ++ rest.flatMap
        (grantedAlone provider store server includeResourceName claims)).length := by
  induction rest generalizing before with
  | nil => simp [grantedBehind]
  | cons p rest ih =>
      rw [grantedBehind, List.flatMap_cons]
      refine (ih _).trans ?_
      split <;> simp only [List.length_append, List.length_nil] <;> omega

/-- The concatenation is lost exactly to a resource permission that falls back. -/
theorem grantedBehind_eq_iff (claims : Nat → Claims) (before : List Permission)
    (rest : List ResourcePermission) :
    grantedBehind provider store server includeResourceName claims before rest =
        before ++ rest.flatMap
          (grantedAlone provider store server includeResourceName claims) ↔
      (before ≠ [] → ∀ p ∈ rest, fallsBack provider store server p = false) ∧
        rest.Pairwise fun b p => fallsBack provider store server p = true →
          grants provider store server b = false := by
  induction rest generalizing before with
  | nil => simp [grantedBehind]
  | cons p rest ih =>
      rw [grantedBehind, List.flatMap_cons]
      by_cases hlost : before ≠ [] ∧ fallsBack provider store server p = true
      · rw [if_pos hlost, List.append_nil]
        refine iff_of_false (fun heq => ?_) fun h => ?_
        · have hle := @length_grantedBehind_le provider store server includeResourceName claims
            before rest
          have hpos : 0 < (grantedAlone provider store server includeResourceName claims
              p).length := by
            refine List.length_pos_iff.mpr fun hnil => ?_
            rw [grantedAlone_eq_nil, grants_of_fallsBack hlost.2] at hnil
            cases hnil
          rw [heq] at hle
          simp only [List.length_append] at hle
          omega
        · have hnot := h.1 hlost.1 p List.mem_cons_self
          rw [hlost.2] at hnot
          cases hnot
      · rw [if_neg hlost, ← List.append_assoc, ih, List.pairwise_cons]
        have hfirst : before ≠ [] → fallsBack provider store server p = false :=
          fun hne => Bool.eq_false_of_not_eq_true fun htrue => hlost ⟨hne, htrue⟩
        have halone : before ++ grantedAlone provider store server includeResourceName claims p ≠
            [] ↔ before ≠ [] ∨ grants provider store server p = true := by
          rw [Ne, List.append_eq_nil_iff, grantedAlone_eq_nil, not_and_or,
            Bool.not_eq_false]
        rw [halone]
        constructor
        · rintro ⟨hrest, hpairs⟩
          refine ⟨fun hne => List.forall_mem_cons.mpr ⟨hfirst hne, hrest (.inl hne)⟩,
            fun q hq hback => Bool.eq_false_of_not_eq_true fun hgrants => ?_, hpairs⟩
          rw [hrest (.inr hgrants) q hq] at hback
          cases hback
        · rintro ⟨hbefore, hp, hpairs⟩
          refine ⟨fun h q hq => ?_, hpairs⟩
          rcases h with hne | hgrants
          · exact hbefore hne q (List.mem_cons_of_mem p hq)
          · refine Bool.eq_false_of_not_eq_true fun hback => ?_
            rw [hp q hq hback] at hgrants
            cases hgrants

end

/-! ## Effects that are replayed -/

section

variable (provider : Provider) (store : Store) (server : ResourceServer)

/-- The effect of the policy for the resource is in the cache after `before`. -/
def Kept (before : List ResourcePermission) (permission : ResourcePermission) (q : Policy) :
    Prop :=
  q.type = .resource ∧ q.associatedPolicies ≠ [] ∧
    ∃ b ∈ before, b.resource = permission.resource ∧ q ∈ (queries store server b).flatten

/-- What is replayed is what the resource permission has itself.  It is replayed for the first
policy with associated policies, and the result that is copied, the first one that has the
policy, has the same effects for it; the claims that are taken over with it, and those of the
policies evaluated afterwards, make up its own claims. -/
def CopiesOwn (claims : Nat → Claims) (before : List ResourcePermission)
    (permission : ResourcePermission) : Prop :=
  ∀ q ∈ (queries store server permission).flatten, Kept store server before permission q →
    ∃ rest pre source post,
      (queries store server permission).flatten.dropWhile
        (fun r => r.associatedPolicies.isEmpty) = q :: rest ∧
      before = pre ++ source :: post ∧ q ∈ (queries store server source).flatten ∧
      (∀ b ∈ pre, q ∉ (queries store server b).flatten) ∧
      (∀ a ∈ q.associatedPolicies, a.effect provider source = a.effect provider permission) ∧
      claimsAfter provider permission
          ((claims permission.identity).addClaims
            (ownClaims provider store server source (claims source.identity)))
          (visitFed true [q.id] [] rest).2 =
        ownClaims provider store server permission (claims permission.identity)

variable (roots : Policy → Prop) (claims : Nat → Claims)

structure OwnResults (before : List ResourcePermission) (s : State) : Prop where
  results : s.results = before.filterMap fun b =>
    (ownResult provider store server b).map (b.identity, ·)
  permissions : ∀ j ∉ before.map ResourcePermission.identity, ∀ id,
    s.cache id (.permission j) = none
  resources : server.policyEnforcementMode ≠ .disabled → ∀ q, roots q → q.type = .resource →
    ∀ r, (s.cache q.id (.resource r)).isSome ↔ q.associatedPolicies ≠ [] ∧
      ∃ b ∈ before, b.resource = r ∧ q ∈ (queries store server b).flatten
  claimed : ∀ b ∈ before, s.claims b.identity =
    ownClaims provider store server b (claims b.identity)
  others : ∀ j ∉ before.map ResourcePermission.identity, s.claims j = claims j

end

section

variable {provider : Provider} {store : Store} {server : ResourceServer}
variable {roots : Policy → Prop} {claims : Nat → Claims} {before : List ResourcePermission}
variable {permission source : ResourcePermission} {q : Policy} {s : State}

theorem ownResults_initial :
    OwnResults provider store server roots claims [] (State.initial claims) where
  results := rfl
  permissions _ _ _ := rfl
  resources _ _ _ _ _ := by simp [State.initial]
  claimed _ hb := absurd hb List.not_mem_nil
  others _ _ := rfl

theorem OwnResults.not_mem_keys (h : OwnResults provider store server roots claims before s)
    (hnew : permission.identity ∉ before.map ResourcePermission.identity) :
    permission.identity ∉ LinkedMap.keys s.results := by
  rw [h.results]
  intro hmem
  obtain ⟨e, he, heq⟩ := List.mem_map.mp hmem
  obtain ⟨b, hb, hresult⟩ := List.mem_filterMap.mp he
  obtain ⟨r, -, rfl⟩ := Option.map_eq_some_iff.mp hresult
  exact hnew (heq ▸ List.mem_map_of_mem hb)

theorem OwnResults.lookup_eq_none (h : OwnResults provider store server roots claims before s)
    (hnew : permission.identity ∉ before.map ResourcePermission.identity) :
    s.results.lookup permission.identity = none := by
  have hlookup := LinkedMap.lookup_append (h.not_mem_keys hnew) none
  rwa [Option.map_none, Option.toList_none, List.append_nil] at hlookup

theorem lookup_resultEntries (g : PolicyGraph roots) {fed : List Policy}
    (hroots : ∀ p ∈ fed, roots p) (hq : q ∈ fed) (hne : q.associatedPolicies ≠ []) :
    (resultEntries provider permission fed).lookup q.id =
      some (entryOf provider permission q).2 := by
  obtain ⟨entry, hentry, hkey⟩ :=
    List.mem_map.mp (@resultEntries_covers provider permission fed q hq hne)
  obtain ⟨q', hq', -, rfl⟩ := mem_resultEntries hentry
  have heq : q' = q := g.root_unique (hroots q' hq') (hroots q hq) hkey
  subst heq
  exact LinkedMap.lookup_of_mem (resultEntries_nodup fed) hentry

theorem lookup_resultEntries_eq_none (g : PolicyGraph roots) {fed : List Policy}
    (hroots : ∀ p ∈ fed, roots p) (hq : roots q) (hnot : q ∉ fed) :
    (resultEntries provider permission fed).lookup q.id = none := by
  rw [List.lookup_eq_none_iff]
  intro entry hentry
  obtain ⟨q', hq', -, rfl⟩ := mem_resultEntries hentry
  have hne : q.id ≠ q'.id := fun hid => hnot (g.root_unique hq (hroots q' hq') hid ▸ hq')
  simpa [entryOf] using hne

theorem OwnResults.findSource (h : OwnResults provider store server roots claims before s)
    (g : PolicyGraph roots) (hmode : server.policyEnforcementMode ≠ .disabled)
    (hroots : ∀ b ∈ before, ∀ p ∈ (queries store server b).flatten, roots p)
    {pre post : List ResourcePermission} (hbefore : before = pre ++ source :: post)
    (hq : q ∈ (queries store server source).flatten) (hne : q.associatedPolicies ≠ [])
    (hpre : ∀ b ∈ pre, q ∉ (queries store server b).flatten) :
    ∃ r : Result, r.permission = source ∧
      s.results.findSome? (fun entry =>
        (entry.2.results.lookup q.id).map fun found => (entry.2, found)) =
          some (r, (entryOf provider source q).2) := by
  subst hbefore
  have hsource := List.mem_append_right pre (List.mem_cons_self (a := source) (l := post))
  have hrootq := hroots source hsource q hq
  have hown : ownResult provider store server source = some ⟨source,
      resultEntries provider source (queries store server source).flatten, .deny⟩ := by
    have hlookup := @lookup_resultEntries provider roots source q g _ (hroots source hsource) hq hne
    have hentries : (resultEntries provider source
        (queries store server source).flatten).isEmpty = false := by
      cases hcases : resultEntries provider source (queries store server source).flatten with
      | nil => simp [hcases] at hlookup
      | cons e rest => rfl
    rw [ownResult_of_ne_disabled hmode, if_neg, resultOf, hentries]
    · rfl
    · rw [List.isEmpty_iff]
      exact List.ne_nil_of_mem hq
  refine ⟨⟨source, resultEntries provider source (queries store server source).flatten, .deny⟩,
    rfl, ?_⟩
  rw [h.results, List.filterMap_append, List.findSome?_append, List.filterMap_cons, hown]
  have hnone : (pre.filterMap fun b =>
      (ownResult provider store server b).map (b.identity, ·)).findSome? (fun entry =>
        (entry.2.results.lookup q.id).map fun found => (entry.2, found)) = none := by
    rw [List.findSome?_eq_none_iff]
    intro e he
    obtain ⟨b, hb, hresult⟩ := List.mem_filterMap.mp he
    obtain ⟨r, hr, rfl⟩ := Option.map_eq_some_iff.mp hresult
    have hlookup : r.results.lookup q.id = none := by
      rw [ownResult_of_ne_disabled hmode] at hr
      split at hr
      · split at hr <;> cases hr
        rfl
      · unfold resultOf at hr
        split at hr <;> cases hr
        exact lookup_resultEntries_eq_none g (hroots b (List.mem_append_left _ hb)) hrootq
          (hpre b hb)
    simp [hlookup]
  rw [hnone, Option.none_or, Option.map_some, List.findSome?_cons,
    lookup_resultEntries g (hroots source hsource) hq hne]
  rfl

/-! ## Feeding behind other resource permissions -/

theorem put_none {id : String} {key : CacheKey} (h : s.cache id key = none) :
    s.put id key none = s := by
  unfold State.put
  rw [← h, Function.update_eq_self, Function.update_eq_self]

theorem feed_skipped {skipped : List Policy}
    (hempty : ∀ r ∈ skipped, r.IsPermission ∧ r.associatedPolicies = [] ∧
      ∀ key, parentKey permission r = some key → s.cache r.id key = none)
    (rest : List Policy) :
    feed provider true permission (skipped ++ rest) s = feed provider true permission rest s := by
  induction skipped with
  | nil => rfl
  | cons r skipped ih =>
      obtain ⟨⟨hpermission, hnil, hmiss⟩, hskipped⟩ := List.forall_mem_cons.mp hempty
      have hloop : evaluateAssociated provider true r.associatedPolicies
          ⟨permission, r, none, none⟩ s = some (⟨permission, r, none, none⟩, s) := by
        rw [hnil]
        rfl
      have hkeep : keepEffect permission r none s = s := by
        unfold keepEffect
        split
        · rfl
        · rename_i key hkey
          exact put_none (hmiss key hkey)
      rw [List.cons_append, feed, evaluate_permission_of_miss hpermission rfl hmiss hloop,
        Option.bind_some]
      exact (congrArg (feed provider true permission (skipped ++ rest)) hkeep).trans
        (ih hskipped)

variable (provider permission source q s) in
def copied : State :=
  { s with
    results := s.results ++
      [(permission.identity, ⟨permission, [(q.id, (entryOf provider source q).2)], .deny⟩)]
    claims := Function.update s.claims permission.identity
      ((s.claims permission.identity).addClaims (s.claims source.identity)) }

theorem resultOf_copied (hne : q.associatedPolicies ≠ [])
    (heffects : ∀ a ∈ q.associatedPolicies, a.effect provider source = a.effect provider permission) :
    resultOf provider permission [q] =
      some ⟨permission, [(q.id, (entryOf provider source q).2)], .deny⟩ := by
  have hentry : (entryOf provider source q).2 = (entryOf provider permission q).2 := by
    rw [entryOf, entryOf]
    simp only [PolicyResult.mk.injEq, true_and]
    exact List.map_congr_left fun a ha => by rw [heffects a ha]
  rw [hentry]
  simp [resultOf, resultEntries, addEntry, hne, entryOf]

theorem evaluate_copied (hpermission : q.IsPermission) {key : CacheKey}
    (hkey : parentKey permission q = some key) (hkept : (s.cache q.id key).isSome)
    (hnew : s.results.lookup permission.identity = none) {r : Result}
    (hr : r.permission = source)
    (hsource : s.results.findSome? (fun entry =>
      (entry.2.results.lookup q.id).map fun found => (entry.2, found)) =
        some (r, (entryOf provider source q).2)) :
    ∃ e, evaluate provider true q ⟨permission, q, none, none⟩ s =
      some (e, copied provider permission source q s) := by
  obtain ⟨x, hx⟩ := Option.isSome_iff_exists.mp hkept
  have hlookup : s.lookup true q.id key = some x := hx
  have hdecide : ∀ y, (⟨permission, q, none, none⟩ : DefaultEvaluation).decide y s =
      some (⟨permission, q, none, some y⟩, copied provider permission source q s) := by
    intro y
    subst hr
    simp only [DefaultEvaluation.decide, onDecision, DefaultEvaluation.getPolicy,
      Option.getD_none, if_true, hnew, hsource, Option.map_some]
    rfl
  rw [evaluate_permission hpermission]
  simp only [hkey, hlookup]
  cases x with
  | permit => exact ⟨_, hdecide _⟩
  | deny => exact ⟨_, hdecide _⟩

theorem frame_copied {parents : List Policy}
    (hnew : permission.identity ∉ LinkedMap.keys s.results) :
    FeedFrame permission parents s (copied provider permission source q s) where
  results j hj := by
    have hnone : [(permission.identity, (⟨permission, [(q.id, (entryOf provider source q).2)],
        .deny⟩ : Result))].lookup j = none := by
      simpa using hj
    exact List.lookup_append.trans (by rw [hnone, Option.or_none])
  permissions _ _ _ := rfl
  resources _ _ _ := rfl
  claims j hj := Function.update_of_ne hj _ _
  last front before hfront hbefore := by
    cases before with
    | none =>
        refine ⟨some ⟨permission, [(q.id, (entryOf provider source q).2)], .deny⟩, ?_⟩
        rw [Option.map_none, Option.toList_none, List.append_nil] at hbefore
        rw [← hbefore]
        rfl
    | some r =>
        refine absurd ?_ hnew
        rw [hbefore]
        simp

theorem resultOf_dropWhile (fed : List Policy) :
    resultOf provider permission (fed.dropWhile fun r => r.associatedPolicies.isEmpty) =
      resultOf provider permission fed := by
  have hentries : resultEntries provider permission
      (fed.dropWhile fun r => r.associatedPolicies.isEmpty) =
        resultEntries provider permission fed := by
    induction fed with
    | nil => rfl
    | cons r rest ih =>
        by_cases hempty : r.associatedPolicies.isEmpty = true
        · have hadd : addEntry provider permission [] r = [] := by simp [addEntry, hempty]
          rw [List.dropWhile_cons, if_pos hempty, ih]
          simp only [resultEntries, List.foldl_cons, hadd]
        · rw [List.dropWhile_cons, if_neg hempty]
  rw [resultOf, resultOf, hentries]

theorem dropWhile_split {fed rest : List Policy}
    (h : fed.dropWhile (fun r => r.associatedPolicies.isEmpty) = q :: rest) :
    ∃ skipped, fed = skipped ++ q :: rest ∧ ∀ r ∈ skipped, r.associatedPolicies = [] := by
  induction fed with
  | nil => cases h
  | cons r fed ih =>
      rw [List.dropWhile_cons] at h
      split at h
      · rename_i hempty
        obtain ⟨skipped, rfl, hskipped⟩ := ih h
        exact ⟨r :: skipped, rfl,
          List.forall_mem_cons.mpr ⟨List.isEmpty_iff.mp hempty, hskipped⟩⟩
      · exact ⟨[], h, fun r hr => absurd hr List.not_mem_nil⟩

theorem feedGood_of_positive (hpositive : ∀ r, Below roots r → r.logic = .positive)
    {start t : State} {fed rest seen : List Policy} {ids : List String}
    (hrest : ∀ r ∈ rest, roots r)
    (hcases : ((∀ r ∈ (visitFed true ids seen rest).1, r.logic = .positive) ∧
        FeedGood provider true permission roots start (fed ++ rest)
          (visitFed true ids seen rest).2 t) ∨
      ((∃ r ∈ (visitFed true ids seen rest).1, r.logic = .negative) ∧
        Bad provider permission roots t)) :
    FeedGood provider true permission roots start (fed ++ rest)
      (visitFed true ids seen rest).2 t := by
  rcases hcases with ⟨-, hgood⟩ | ⟨⟨r, hr, hneg⟩, -⟩
  · exact hgood
  · obtain ⟨p, hp, hbelow⟩ := visitFed_replayed hr
    rw [hpositive r ⟨p, hrest p hp, hbelow⟩] at hneg
    cases hneg

theorem good_of_unseen {t : State}
    (hunseen : ∀ id, t.cache id (.permission permission.identity) = none) :
    Good provider true permission roots t [] t :=
  ⟨by simp, fun _ r _ => by simp [hunseen], rfl, by simp, fun c hc => .inl hc⟩

variable (provider store server roots claims) in
structure Fed (permission : ResourcePermission) (s s' : State) : Prop where
  frame : FeedFrame permission (queries store server permission).flatten s s'
  resources : ∀ q, roots q → q.type = .resource → ∀ r,
    (s'.cache q.id (.resource r)).isSome ↔ (s.cache q.id (.resource r)).isSome ∨
      (q.associatedPolicies ≠ [] ∧ permission.resource = r ∧
        q ∈ (queries store server permission).flatten)
  result : s'.results.lookup permission.identity =
    resultOf provider permission (queries store server permission).flatten
  claims : s'.claims permission.identity =
    ownClaims provider store server permission (claims permission.identity)

namespace OwnResults

variable (h : OwnResults provider store server roots claims before s) (g : PolicyGraph roots)
  (hpositive : ∀ r, Below roots r → r.logic = .positive)
  (hmode : server.policyEnforcementMode ≠ .disabled)
  (hroots : ∀ b ∈ before, ∀ r ∈ (queries store server b).flatten, roots r)
  (hrootsp : ∀ r ∈ (queries store server permission).flatten, roots r)
  (hnew : permission.identity ∉ before.map ResourcePermission.identity)

include h hmode

theorem kept_iff (hq : roots q) (htype : q.type = .resource) :
    (s.cache q.id (.resource permission.resource)).isSome ↔
      Kept store server before permission q := by
  rw [h.resources hmode q hq htype]
  exact ⟨fun ⟨hne, hb⟩ => ⟨htype, hne, hb⟩, fun hkept => hkept.2⟩

include hrootsp hnew

theorem miss (hq : q ∈ (queries store server permission).flatten)
    (hkept : ¬ Kept store server before permission q) {key : CacheKey}
    (hkey : parentKey permission q = some key) : s.cache q.id key = none := by
  unfold parentKey at hkey
  split at hkey
  · rename_i htype
    cases hkey
    rw [← Option.not_isSome_iff_eq_none, h.kept_iff hmode (hrootsp q hq) htype]
    exact hkept
  · cases hkey
    exact h.permissions _ hnew q.id
  · cases hkey

include g

omit hnew in
theorem fed {parents : List Policy} {s' : State} (hframe : FeedFrame permission parents s s')
    (hinv : FeedInv true permission parents parents s')
    (hparents : ∀ r ∈ parents, r ∈ (queries store server permission).flatten)
    (hmem : ∀ r ∈ (queries store server permission).flatten, r.associatedPolicies ≠ [] →
      r ∈ parents)
    (hresult : s'.results.lookup permission.identity =
      resultOf provider permission (queries store server permission).flatten)
    (hclaims : s'.claims permission.identity =
      ownClaims provider store server permission (claims permission.identity)) :
    Fed provider store server roots claims permission s s' where
  frame := ⟨hframe.results, hframe.permissions,
    fun id r hr => hframe.resources id r fun p hp => hr p (hparents p hp), hframe.claims,
    hframe.last⟩
  resources q hq htype r := by
    by_cases hown : q ∈ parents ∧ permission.resource = r
    · obtain ⟨hin, rfl⟩ := hown
      rw [hinv.cached rfl q hin (.resource permission.resource) (by rw [parentKey, htype])]
      constructor
      · exact fun hq => .inr ⟨hq.2, rfl, hparents q hin⟩
      · rintro (hsome | hlast)
        · exact ⟨hin, ((h.kept_iff hmode hq htype).mp hsome).2.1⟩
        · exact ⟨hin, hlast.1⟩
    · rw [hframe.resources q.id r fun p hp _ _ hid hresource =>
        hown ⟨g.root_unique (hrootsp p (hparents p hp)) hq hid ▸ hp, hresource⟩]
      exact (or_iff_left fun hlast => hown ⟨hmem q hlast.2.2 hlast.1, hlast.2.1⟩).symm
  result := hresult
  claims := hclaims

omit g in
theorem miss_of_ne (hcopies : CopiesOwn provider store server claims before permission)
    {rest : List Policy} (hdrop : (queries store server permission).flatten.dropWhile
      (fun r => r.associatedPolicies.isEmpty) = q :: rest) {r : Policy}
    (hr : r ∈ (queries store server permission).flatten) (hne : r ≠ q) {key : CacheKey}
    (hkey : parentKey permission r = some key) : s.cache r.id key = none := by
  refine h.miss hmode hrootsp hnew hr (fun hkept => ?_) hkey
  obtain ⟨rest', -, -, -, hdrop', -⟩ := hcopies r hr hkept
  rw [hdrop] at hdrop'
  exact hne (List.cons.inj hdrop').1.symm

include hpositive

theorem feed_new (hkept : ∀ q ∈ (queries store server permission).flatten,
      ¬ Kept store server before permission q) :
    ∃ s', feed provider true permission (queries store server permission).flatten s = some s' ∧
      Fed provider store server roots claims permission s s' := by
  have hinv : FeedInv true permission (queries store server permission).flatten [] s := by
    refine ⟨fun _ r hr key hkey => ?_, fun r hr => by cases hr⟩
    rw [h.miss hmode hrootsp hnew hr (hkept r hr) hkey]
    simp
  obtain ⟨s', hfeed, hinv', hframe, hcases⟩ := feed_fresh provider true permission g
    (queries store server permission).flatten hrootsp s hinv
    ⟨good_of_unseen (h.permissions _ hnew), h.lookup_eq_none hnew, fun r hr => by cases hr⟩
  have hgood := @feedGood_of_positive provider roots permission hpositive s s' [] _ [] [] hrootsp
    hcases
  refine ⟨s', hfeed, h.fed g hmode hrootsp (hframe rfl) hinv' (fun _ => id)
    (fun _ hr _ => hr) hgood.result ?_⟩
  rw [hgood.good.claims, h.others _ hnew, ownClaims_of_ne_disabled hmode]

include hroots

theorem feed_copied (hcopies : CopiesOwn provider store server claims before permission)
    (hq : q ∈ (queries store server permission).flatten)
    (hkept : Kept store server before permission q) :
    ∃ s', feed provider true permission (queries store server permission).flatten s = some s' ∧
      Fed provider store server roots claims permission s s' := by
  obtain ⟨rest, pre, source, post, hdrop, hbefore, hqsource, hpre, heffects, hclaims⟩ :=
    hcopies q hq hkept
  have hrootq := hrootsp q hq
  have hkey : parentKey permission q = some (.resource permission.resource) := by
    rw [parentKey, hkept.1]
  have hsome := (h.kept_iff hmode hrootq hkept.1).mpr hkept
  -- the policies in front have no associated policies
  obtain ⟨skipped, hsplit, hskipped⟩ := dropWhile_split hdrop
  have hparents : ∀ r ∈ q :: rest, r ∈ (queries store server permission).flatten := by
    intro r hr
    rw [hsplit]
    exact List.mem_append_right skipped hr
  have hrootsr : ∀ r ∈ q :: rest, roots r := fun r hr => hrootsp r (hparents r hr)
  have honly : ∀ r ∈ (queries store server permission).flatten, r ≠ q → ∀ key,
      parentKey permission r = some key → s.cache r.id key = none :=
    fun r hr hne key hkeyr => h.miss_of_ne hmode hrootsp hnew hcopies hdrop hr hne hkeyr
  obtain ⟨r, hr, hfind⟩ := h.findSource g hmode hroots hbefore hqsource hkept.2.1 hpre
  obtain ⟨e, hevaluate⟩ := evaluate_copied (g.permission q hrootq) hkey hsome
    (h.lookup_eq_none hnew) hr hfind
  have hcopied : (copied provider permission source q s).results.lookup permission.identity =
      some ⟨permission, [(q.id, (entryOf provider source q).2)], .deny⟩ :=
    LinkedMap.lookup_append (h.not_mem_keys hnew) (some _)
  have hown := resultOf_copied hkept.2.1 heffects
  have hinv : FeedInv true permission (q :: rest) [q]
      (copied provider permission source q s) := by
    refine ⟨fun _ r hr key hkeyr => ?_, fun r hr hne => ?_⟩
    · change (s.cache r.id key).isSome ↔ _
      rw [List.mem_singleton]
      by_cases heq : r = q
      · subst heq
        rw [hkey] at hkeyr
        cases hkeyr
        exact iff_of_true hsome ⟨rfl, hkept.2.1⟩
      · rw [honly r (hparents r hr) heq key hkeyr]
        simp [heq]
    · rw [List.mem_singleton.mp hr]
      exact ⟨_, (entryOf provider source q).2, hcopied, by simp⟩
  have hfirst : FeedGood provider true permission roots
      (copied provider permission source q s) [q] [] (copied provider permission source q s) := by
    refine ⟨good_of_unseen (h.permissions _ hnew), hcopied.trans hown.symm, fun r hr hnone => ?_⟩
    rw [List.mem_singleton.mp hr] at hnone
    have hnone' : s.cache q.id (.resource permission.resource) = none := hnone _ hkey
    rw [hnone'] at hsome
    cases hsome
  have hids : ∀ id, id ∈ [q.id] ↔ id ∈ [q].map Policy.id := fun _ => Iff.rfl
  obtain ⟨s', hfeed, hinv', hframe, -, hcases⟩ := feed_spec provider g hrootsr
    (fun p hp => List.mem_singleton.mp hp ▸ List.mem_cons_self)
    (fun p hp => List.mem_cons_of_mem q hp) hids hinv
  have hgood := feedGood_of_positive hpositive
    (fun p hp => hrootsr p (List.mem_cons_of_mem q hp)) (hcases _ [] hfirst)
  refine ⟨s', ?_, h.fed g hmode hrootsp
    ((frame_copied (h.not_mem_keys hnew)).trans (hframe rfl)) hinv' hparents (fun r hr hne => ?_)
    ?_ ?_⟩
  · rw [hsplit, feed_skipped fun r hr => ?_, Authz.feed, hevaluate, Option.bind_some]
    · exact hfeed
    · have hin : r ∈ (queries store server permission).flatten := by
        rw [hsplit]
        exact List.mem_append_left _ hr
      exact ⟨g.permission r (hrootsp r hin), hskipped r hr,
        honly r hin fun heq => hkept.2.1 (heq ▸ hskipped r hr)⟩
  · rw [hsplit, List.mem_append] at hr
    exact hr.resolve_left fun hr => hne (hskipped r hr)
  · rw [← resultOf_dropWhile, hdrop]
    exact hgood.result
  · have hadded : (copied provider permission source q s).claims permission.identity =
        (s.claims permission.identity).addClaims (s.claims source.identity) :=
      Function.update_self ..
    have hsource : source ∈ before := by simp [hbefore]
    rw [hgood.good.claims, ← hclaims, hadded, h.others _ hnew, h.claimed source hsource]

end OwnResults

theorem OwnResults.append {fed : List Policy} {s' : State}
    (h : OwnResults provider store server roots claims before s)
    (hnew : permission.identity ∉ before.map ResourcePermission.identity)
    (hframe : FeedFrame permission fed s s')
    (hresources : server.policyEnforcementMode ≠ .disabled → ∀ q, roots q → q.type = .resource →
      ∀ r, (s'.cache q.id (.resource r)).isSome ↔ (s.cache q.id (.resource r)).isSome ∨
        (q.associatedPolicies ≠ [] ∧ permission.resource = r ∧
          q ∈ (queries store server permission).flatten))
    (hresult : s'.results.lookup permission.identity =
      ownResult provider store server permission)
    (hclaims : s'.claims permission.identity =
      ownClaims provider store server permission (claims permission.identity)) :
    OwnResults provider store server roots claims (before ++ [permission]) s' where
  results := by
    have hkeys := h.not_mem_keys hnew
    obtain ⟨after, hafter⟩ := hframe.last s.results none hkeys (by simp)
    rw [hafter, LinkedMap.lookup_append hkeys] at hresult
    rw [hafter, List.filterMap_append, ← h.results, hresult]
    cases hown : ownResult provider store server permission <;> simp [hown]
  permissions j hj id := by
    rw [List.map_append, List.map_singleton, List.mem_append, List.mem_singleton, not_or] at hj
    rw [hframe.permissions id j hj.2]
    exact h.permissions j hj.1 id
  resources hmode q hq htype r := by
    rw [hresources hmode q hq htype r, h.resources hmode q hq htype r, ← and_or_left]
    simp [or_and_right, exists_or]
  claimed b hb := by
    rcases List.mem_append.mp hb with hb | hb
    · rw [hframe.claims b.identity fun heq => hnew (heq ▸ List.mem_map_of_mem hb)]
      exact h.claimed b hb
    · rw [List.mem_singleton.mp hb]
      exact hclaims
  others j hj := by
    rw [List.map_append, List.map_singleton, List.mem_append, List.mem_singleton, not_or] at hj
    rw [hframe.claims j hj.2]
    exact h.others j hj.1

theorem frame_grantWithoutPolicy {fed : List Policy} :
    FeedFrame permission fed s (grantWithoutPolicy permission s) where
  results j hj := LinkedMap.lookup_alter_of_ne hj _ _
  permissions _ _ _ := rfl
  resources _ _ _ := rfl
  claims _ _ := rfl
  last front before hfront hbefore := by
    refine ⟨some { before.getD (Result.ofPermission permission) with status := .permit }, ?_⟩
    rw [grantWithoutPolicy, hbefore]
    exact LinkedMap.alter_append hfront _ before

variable {includeResourceName : Bool}

theorem onComplete_own (permissions : List Permission) {t : State}
    (hresult : t.results.lookup permission.identity =
      ownResult provider store server permission)
    (hclaims : t.claims permission.identity =
      ownClaims provider store server permission (claims permission.identity)) :
    onComplete store includeResourceName permission t permissions = permissions ++
      if permissions ≠ [] ∧ fallsBack provider store server permission then []
      else grantedAlone provider store server includeResourceName claims permission := by
  rw [grantedAlone, ← completed_behind, ← hclaims, ← hresult]
  rfl

theorem OwnResults.evaluatePermission
    (h : OwnResults provider store server roots claims before s) (g : PolicyGraph roots)
    (hpositive : ∀ r, Below roots r → r.logic = .positive)
    (hroots : ∀ b ∈ before, ∀ r ∈ (queries store server b).flatten, roots r)
    (hrootsp : ∀ r ∈ (queries store server permission).flatten, roots r)
    (hnew : permission.identity ∉ before.map ResourcePermission.identity)
    (hcopies : server.policyEnforcementMode = .disabled ∨
      CopiesOwn provider store server claims before permission) (permissions : List Permission) :
    ∃ s', Authz.evaluatePermission provider store server includeResourceName permission s
        permissions = some (s', permissions ++
          if permissions ≠ [] ∧ fallsBack provider store server permission then []
          else grantedAlone provider store server includeResourceName claims permission) ∧
      OwnResults provider store server roots claims (before ++ [permission]) s' := by
  by_cases hmode : server.policyEnforcementMode = .disabled
  · have hresult : (grantWithoutPolicy permission s).results.lookup permission.identity =
        ownResult provider store server permission := by
      simp only [lookup_grantWithoutPolicy (h.lookup_eq_none hnew), ownResult, hmode]
    have hclaims : (grantWithoutPolicy permission s).claims permission.identity =
        ownClaims provider store server permission (claims permission.identity) := by
      simp only [ownClaims, hmode]
      exact h.others _ hnew
    have hframe : FeedFrame permission [] s (grantWithoutPolicy permission s) :=
      frame_grantWithoutPolicy
    refine ⟨grantWithoutPolicy permission s, ?_,
      h.append hnew hframe (fun hne => absurd hmode hne) hresult hclaims⟩
    simp only [Authz.evaluatePermission, hmode, onComplete_own permissions hresult hclaims]
  · obtain ⟨s', hfeed, hfed⟩ : ∃ s', feed provider true permission
        (queries store server permission).flatten s = some s' ∧
          Fed provider store server roots claims permission s s' := by
      by_cases hkept : ∃ q ∈ (queries store server permission).flatten,
          Kept store server before permission q
      · obtain ⟨q, hq, hkept⟩ := hkept
        exact h.feed_copied g hpositive hmode hroots hrootsp hnew (hcopies.resolve_left hmode) hq
          hkept
      · exact h.feed_new g hpositive hmode hrootsp hnew fun q hq hkeptq => hkept ⟨q, hq, hkeptq⟩
    have hown := @ownResult_of_ne_disabled provider store server permission hmode
    rw [evaluatePermission_of_feed hmode hfeed]
    by_cases hempty : (queries store server permission).flatten.isEmpty = true
    · have hnone : s'.results.lookup permission.identity = none := by
        rw [hfed.result, List.isEmpty_iff.mp hempty]
        rfl
      rw [if_pos hempty] at hown ⊢
      by_cases hpermissive : server.policyEnforcementMode = .permissive
      · rw [if_pos hpermissive] at hown ⊢
        have hresult := (lookup_grantWithoutPolicy hnone).trans hown.symm
        exact ⟨_, by rw [onComplete_own permissions hresult hfed.claims],
          h.append hnew (hfed.frame.trans frame_grantWithoutPolicy) (fun _ => hfed.resources)
            hresult hfed.claims⟩
      · rw [if_neg hpermissive] at hown ⊢
        refine ⟨s', ?_, h.append hnew hfed.frame (fun _ => hfed.resources)
          (hnone.trans hown.symm) hfed.claims⟩
        have hnothing : grantedAlone provider store server includeResourceName claims permission =
            [] := by
          rw [grantedAlone, hown]
          rfl
        simp [hnothing]
    · rw [if_neg hempty] at hown ⊢
      have hresult := hfed.result.trans hown.symm
      exact ⟨s', by rw [onComplete_own permissions hresult hfed.claims],
        h.append hnew hfed.frame (fun _ => hfed.resources) hresult hfed.claims⟩

/-! ## The list -/

theorem OwnResults.evaluatePermissions
    (h : OwnResults provider store server roots claims before s) (g : PolicyGraph roots)
    (hpositive : ∀ r, Below roots r → r.logic = .positive) {rest : List ResourcePermission}
    (hroots : ∀ b ∈ before ++ rest, ∀ r ∈ (queries store server b).flatten, roots r)
    (hidentity : ((before ++ rest).map ResourcePermission.identity).Nodup)
    (hcopies : server.policyEnforcementMode = .disabled ∨
      ∀ more p after, rest = more ++ p :: after →
        CopiesOwn provider store server claims (before ++ more) p)
    (permissions : List Permission) :
    ∃ s', Authz.evaluatePermissions provider store server includeResourceName rest s permissions =
      some (s', grantedBehind provider store server includeResourceName claims permissions
        rest) := by
  induction rest generalizing before s permissions with
  | nil => exact ⟨s, rfl⟩
  | cons p rest ih =>
      have hnew : p.identity ∉ before.map ResourcePermission.identity := by
        rw [List.map_append, List.nodup_append] at hidentity
        exact fun hmem => hidentity.2.2 _ hmem _ (by simp) rfl
      obtain ⟨s₁, hrun, h₁⟩ := h.evaluatePermission g hpositive
        (fun b hb => hroots b (List.mem_append_left _ hb))
        (hroots p (by simp)) hnew
        (hcopies.imp_right fun hall => by simpa using hall [] p rest rfl) permissions
      rw [List.append_cons] at hroots hidentity
      obtain ⟨s', hrest⟩ := ih h₁ hroots hidentity
        (hcopies.imp_right fun hall more p' after heq => by
          simpa using hall (p :: more) p' after (by rw [heq]; rfl)) _
      refine ⟨s', ?_⟩
      rw [Authz.evaluatePermissions, hrun, Option.bind_some]
      exact hrest

theorem grantedPermissions_eq (g : PolicyGraph roots)
    (hpositive : ∀ r, Below roots r → r.logic = .positive) {requested : List ResourcePermission}
    (hroots : ∀ p ∈ requested, ∀ r ∈ (queries store server p).flatten, roots r)
    (hidentity : (requested.map ResourcePermission.identity).Nodup)
    (hcopies : server.policyEnforcementMode = .disabled ∨
      ∀ before p after, requested = before ++ p :: after →
        CopiesOwn provider store server claims before p) :
    grantedPermissions provider store server includeResourceName claims requested =
      some (grantedBehind provider store server includeResourceName claims [] requested) := by
  have hinitial : OwnResults provider store server roots claims [] (State.initial claims) :=
    ownResults_initial
  obtain ⟨s', hrun⟩ :=
    hinitial.evaluatePermissions g hpositive hroots hidentity hcopies []
  rw [grantedPermissions, hrun]
  rfl

end

def report : Resource :=
  ⟨"report", "Report", some "file", "server", false, [⟨"read", "read"⟩]⟩

/-- A permission of the given type with one policy that a provider decides. -/
def reportPermission (type : PolicyType) (id policy : String) : Policy :=
  .mk ⟨id, type, .positive, .unanimous, [], [⟨"read", "read"⟩]⟩
    [.mk ⟨policy, .other "user", .positive, .unanimous, [], []⟩ []]

def grantsAllow : Provider := fun p _ => if p.id = "allow" then [.grant] else [.deny]

def reportStore (byType byScope : List Policy) : Store where
  findByResource _ := []
  findByResourceType _ := byType
  findByScopeIds _ := byScope
  findByType _ := []
  findByScope _ := []

def reportServer : ResourceServer := ⟨"server", .enforcing⟩

def reportTwice : List ResourcePermission :=
  [⟨0, some report, [⟨"read", "read"⟩]⟩, ⟨1, some report, [⟨"read", "read"⟩]⟩]

theorem reportPermission_graph {roots : Policy → Prop} {type : PolicyType}
    (htype : (reportPermission type "permission" "allow").IsPermission)
    (hroots : ∀ p, roots p → p = reportPermission type "permission" "allow") :
    PolicyGraph roots ∧ ∀ q, Below roots q → q.logic = .positive := by
  have hbelow : ∀ p, Below roots p →
      p = .mk ⟨"allow", .other "user", .positive, .unanimous, [], []⟩ [] := by
    rintro p ⟨q, hq, a, ha, hp⟩
    rw [hroots q hq] at ha
    have heq := List.mem_singleton.mp ha
    subst heq
    simpa [Policy.subpolicies] using hp
  refine ⟨⟨fun p hp => ?_, fun p hp => ?_, ?_, ?_⟩, fun p hp => ?_⟩
  · rw [hroots p hp]
    exact htype
  · rw [hbelow p hp]
    simp [Policy.IsPermission, Policy.type, Policy.data]
  · rintro p q (hp | hp) (hq | hq) hid
    · rw [hroots p hp, hroots q hq]
    · rw [hroots p hp, hbelow q hq] at hid
      exact absurd hid (show "permission" ≠ "allow" by decide)
    · rw [hbelow p hp, hroots q hq] at hid
      exact absurd hid (show "allow" ≠ "permission" by decide)
    · rw [hbelow p hp, hbelow q hq]
  · rintro p (hp | hp)
    · rw [hroots p hp]
      exact List.nodup_singleton _
    · rw [hbelow p hp]
      exact List.nodup_nil
  · rw [hbelow p hp]
    rfl

/-- Without a resource the scope is granted alone, and nothing behind the report. -/
example :
    let store := reportStore [] [reportPermission .scope "permission" "allow"]
    let unnamed : ResourcePermission := ⟨1, none, [⟨"read", "read"⟩]⟩
    grantedPermissions grantsAllow store reportServer true (fun _ => []) [unnamed] =
        some [⟨none, none, {"read"}, []⟩] ∧
      grantedPermissions grantsAllow store reportServer true (fun _ => [])
        [⟨0, some report, [⟨"read", "read"⟩]⟩, unnamed] =
          some [⟨some "report", some "Report", {"read"}, []⟩] :=
  ⟨rfl, rfl⟩

end Keycloak.Authz
