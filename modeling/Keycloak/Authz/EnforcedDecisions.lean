import Keycloak.Authz.CollectedResults

/-!
# Decisions of an enforcing resource server

What `DecisionPermissionCollector` grants for a resource when every policy that was evaluated is
a resource or a scope permission: requested scopes only, none that a scope permission denies, and
nothing unless one of the permissions was granted.
-/

namespace Keycloak.Authz

structure Result.Evaluated (result : Result) : Prop where
  status : result.status = .deny
  results : result.results ≠ []

theorem collectable_evaluated (permission : ResourcePermission) :
    Collectable permission Result.Evaluated where
  policy _ _ _ h := ⟨h.status, LinkedMap.alter_ne_nil _ _ _⟩
  fresh _ h := ⟨rfl, h⟩

/-! ## What the loop over the results keeps -/

def Policy.IsPlain (p : Policy) : Prop := p.type = .resource ∨ p.type = .scope

structure Tally.Sound (permission : ResourcePermission) (seen : List (String × PolicyResult))
    (t : Tally) : Prop where
  unmanaged : t.userManagedPermissions = []
  requested : t.grantedScopes ⊆ permission.scopes.toFinset
  denied : ∀ r ∈ seen, r.2.policy.type = .scope → isGranted r.2 = false →
    r.2.policy.data.scopes.toFinset ⊆ t.deniedScopes
  ungranted : (∀ r ∈ seen, isGranted r.2 = false) →
    t.grantedScopes = ∅ ∧ t.resourceGranted = false ∧ (seen ≠ [] → t.anyDeny = true)

theorem Tally.sound_empty (permission : ResourcePermission) :
    Tally.Sound permission [] Tally.empty where
  unmanaged := rfl
  requested := Finset.empty_subset _
  denied _ hr := absurd hr List.not_mem_nil
  ungranted _ := ⟨rfl, rfl, fun h => absurd rfl h⟩

theorem Tally.Sound.granted {permission : ResourcePermission}
    {seen : List (String × PolicyResult)} {t : Tally} (h : t.Sound permission seen)
    {r : String × PolicyResult} (hgranted : isGranted r.2 = true) {scopes : Finset Scope}
    (hscopes : scopes ⊆ permission.scopes.toFinset) (resourceGranted : Bool) :
    Tally.Sound permission (seen ++ [r])
      { t with grantedScopes := t.grantedScopes ∪ scopes, resourceGranted := resourceGranted } where
  unmanaged := h.unmanaged
  requested := Finset.union_subset h.requested hscopes
  denied q hq htype hdenied := by
    rcases List.mem_append.mp hq with hmem | hmem
    · exact h.denied q hmem htype hdenied
    · rw [List.mem_singleton.mp hmem, hgranted] at hdenied
      cases hdenied
  ungranted hall := by
    have hfalse := hall r (List.mem_append_right _ List.mem_cons_self)
    rw [hgranted] at hfalse
    cases hfalse

theorem Tally.Sound.ungrantedStep {permission : ResourcePermission}
    {seen : List (String × PolicyResult)} {t : Tally} (h : t.Sound permission seen)
    {r : String × PolicyResult} {deniedScopes : Finset Scope}
    (hmore : t.deniedScopes ⊆ deniedScopes)
    (hdenied : r.2.policy.type = .scope → r.2.policy.data.scopes.toFinset ⊆ deniedScopes) :
    Tally.Sound permission (seen ++ [r])
      { t with deniedScopes := deniedScopes, anyDeny := true } where
  unmanaged := h.unmanaged
  requested := h.requested
  denied q hq htype hfalse := by
    rcases List.mem_append.mp hq with hmem | hmem
    · exact (h.denied q hmem htype hfalse).trans hmore
    · rw [List.mem_singleton.mp hmem] at htype ⊢
      exact hdenied htype
  ungranted hall := by
    obtain ⟨hempty, hresource, -⟩ := h.ungranted fun q hq => hall q (List.mem_append_left _ hq)
    exact ⟨hempty, hresource, fun _ => rfl⟩

theorem Tally.Sound.step {permission : ResourcePermission} {seen : List (String × PolicyResult)}
    {t : Tally} (h : t.Sound permission seen) {r : String × PolicyResult}
    (hplain : r.2.policy.IsPlain) :
    (tallyResult permission t r.2).Sound permission (seen ++ [r]) := by
  rw [tallyResult]
  by_cases hgranted : isGranted r.2 = true
  · rw [if_pos hgranted]
    rcases hplain with htype | htype
    · simp only [htype]
      exact h.granted hgranted (Finset.Subset.refl _) _
    · simp only [htype]
      refine h.granted hgranted (fun scope hscope => ?_) _
      rw [List.mem_toFinset] at hscope ⊢
      exact List.mem_of_mem_filter hscope
  · rw [if_neg hgranted]
    rcases hplain with htype | htype
    · simp only [htype]
      split
      · exact h.ungrantedStep (Finset.Subset.refl _) fun hscope => by
          rw [htype] at hscope
          cases hscope
      · exact h.ungrantedStep Finset.subset_union_left fun hscope => by
          rw [htype] at hscope
          cases hscope
    · simp only [htype]
      exact h.ungrantedStep Finset.subset_union_left fun _ => Finset.subset_union_right

theorem Tally.Sound.run {permission : ResourcePermission} {results : List (String × PolicyResult)}
    {seen : List (String × PolicyResult)} {t : Tally} (h : t.Sound permission seen)
    (hplain : ∀ r ∈ results, r.2.policy.IsPlain) :
    (results.foldl (fun t r => tallyResult permission t r.2) t).Sound permission
      (seen ++ results) := by
  induction results generalizing seen t with
  | nil =>
      rw [List.append_nil]
      exact h
  | cons r rest ih =>
      have hrest := ih (h.step (hplain r List.mem_cons_self)) fun q hq =>
        hplain q (List.mem_cons_of_mem r hq)
      rw [List.append_assoc, List.singleton_append] at hrest
      exact hrest

/-! ## What is granted -/

/-- The scopes that are granted for a result: requested ones, none of a scope permission that was
not granted, and only if some permission was. -/
structure Result.Entitles (result : Result) (scopes : Finset Scope) : Prop where
  requested : scopes ⊆ result.permission.scopes.toFinset
  notDenied : ∀ r ∈ result.results, r.2.policy.type = .scope → isGranted r.2 = false →
    Disjoint scopes r.2.policy.data.scopes.toFinset
  granted : ∃ r ∈ result.results, isGranted r.2 = true

theorem Result.Evaluated.entitles {result : Result} (h : result.Evaluated)
    (hplain : ∀ r ∈ result.results, r.2.policy.IsPlain) {scopes : Finset Scope}
    (hsettled : settleScopes result.permission
      (result.results.foldl (fun t r => tallyResult result.permission t r.2) Tally.empty) =
        some scopes) : result.Entitles scopes := by
  have hsound := (Tally.sound_empty result.permission).run hplain
  rw [List.nil_append] at hsound
  generalize result.results.foldl (fun t r => tallyResult result.permission t r.2) Tally.empty = t
    at hsound hsettled
  rw [settleScopes] at hsettled
  simp only [hsound.unmanaged, List.isEmpty_nil, if_true] at hsettled
  split at hsettled
  · cases hsettled
  · split at hsettled
    · cases hsettled
    · rename_i hany
      cases hsettled
      refine ⟨Finset.sdiff_subset.trans hsound.requested, fun r hr htype hfalse => ?_, ?_⟩
      · exact Finset.disjoint_of_subset_right (hsound.denied r hr htype hfalse)
          Finset.sdiff_disjoint
      · by_contra hnone
        have hall : ∀ r ∈ result.results, isGranted r.2 = false := by
          intro r hr
          rw [← Bool.not_eq_true]
          exact fun hgranted => hnone ⟨r, hr, hgranted⟩
        obtain ⟨hempty, -, hdeny⟩ := hsound.ungranted hall
        refine hany ?_
        rw [hdeny h.results, hempty, Finset.empty_sdiff]
        rfl

/-- An enforcing resource server holds evaluated results only, and for such a result whose
policies are resource and scope permissions, the permission that is added for a resource has
scopes the result entitles to. -/
theorem enforcing_grants_entitled :
    (∀ (provider : Provider) (store : Store) (server : ResourceServer) (includeResourceName : Bool)
      (claims : Nat → Claims) (requested : List ResourcePermission) (s : State)
      (permissions : List Permission), server.policyEnforcementMode = .enforcing →
      evaluatePermissions provider store server includeResourceName requested
        (State.initial claims) [] = some (s, permissions) → s.Collects Result.Evaluated) ∧
    ∀ (store : Store) (includeResourceName : Bool) (claims : Claims) (result : Result)
      (resource : Resource) (permissions : List Permission), result.Evaluated →
      (∀ r ∈ result.results, r.2.policy.IsPlain) → result.permission.resource = some resource →
      completeResult store includeResourceName claims result permissions = permissions ∨
        ∃ scopes, result.Entitles scopes ∧
          completeResult store includeResourceName claims result permissions = permissions ++
            [createPermission includeResourceName (some resource) (scopes.image Scope.name)
              claims] := by
  constructor
  · intro provider store server includeResourceName claims requested s permissions hmode hrun
    exact (State.collects_initial claims).evaluatePermissions
      (fun permission _ => collectable_evaluated permission) (fun _ _ => .inl hmode) hrun
  · intro store includeResourceName claims result resource permissions h hplain hresource
    rw [completeResult]
    simp only [h.status]
    split
    · exact .inl rfl
    · rename_i scopes hsettled
      refine .inr ⟨scopes, h.entitles hplain hsettled, ?_⟩
      rw [grantPermission]
      simp only [hresource]

/-! ## A denied scope -/

def letter : Resource :=
  ⟨"letter", "Letter", none, "server", false, [⟨"read", "read"⟩, ⟨"send", "send"⟩]⟩

def requestedLetter : ResourcePermission := ⟨0, some letter, letter.scopes⟩

def letterResult (type : PolicyType) (scopes : List Scope) (effect : Effect) : PolicyResult :=
  ⟨.mk ⟨"permission", type, .positive, .unanimous, [letter], scopes⟩ [], [("policy", effect)]⟩

/-- Reading is granted by the resource permission, sending denied by the scope permission. -/
def letterResults : Result :=
  ⟨requestedLetter, [("resource", letterResult .resource [] .permit),
    ("scope", letterResult .scope [⟨"send", "send"⟩] .deny)], .deny⟩

def letterServer : ResourceServer := ⟨"server", .enforcing⟩

def letterStore : Store :=
  ⟨fun _ => [.mk ⟨"permission", .resource, .positive, .unanimous, [letter], []⟩
      [.mk ⟨"policy", .other "user", .positive, .unanimous, [], []⟩ []]],
    fun _ => [], fun _ => [], fun _ => [], fun _ => []⟩

theorem letter_grants_entitled :
    (∃ s permissions, evaluatePermissions (fun _ _ => [.grant]) letterStore letterServer true
        [requestedLetter] (State.initial fun _ => []) [] = some (s, permissions) ∧
      permissions ≠ [] ∧ s.Collects Result.Evaluated) ∧
    completeResult letterStore true [] letterResults [] =
      [⟨some "letter", some "Letter", {"read"}, []⟩] ∧
    ∃ scopes, letterResults.Entitles scopes ∧ completeResult letterStore true [] letterResults [] =
      [createPermission true (some letter) (scopes.image Scope.name) []] := by
  have hplain : ∀ r ∈ letterResults.results, r.2.policy.IsPlain := by
    intro r hr
    simp only [letterResults, List.mem_cons, List.not_mem_nil, or_false] at hr
    rcases hr with rfl | rfl
    · exact .inl rfl
    · exact .inr rfl
  have hgranted : completeResult letterStore true [] letterResults [] =
      [⟨some "letter", some "Letter", {"read"}, []⟩] := by decide
  refine ⟨⟨_, _, rfl, by decide, enforcing_grants_entitled.1 (fun _ _ => [.grant]) letterStore
    letterServer true (fun _ => []) [requestedLetter] _ _ rfl rfl⟩, hgranted, ?_⟩
  have hentitled := enforcing_grants_entitled.2 letterStore true [] letterResults letter []
    ⟨rfl, List.cons_ne_nil _ _⟩ hplain rfl
  rw [hgranted] at hentitled ⊢
  rcases hentitled with hnil | hscopes
  · cases hnil
  · exact hscopes

end Keycloak.Authz
