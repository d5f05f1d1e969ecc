import Keycloak.Authz.Feed

/-!
# The decision cache

A lookup that hits replays the cached effect through `setEffect`, which applies the logic
of the policy once more.  For a policy with positive logic nothing changes by that; the
effect of a policy with negative logic is recorded inverted.  So the cache is transparent
exactly when only policies with positive logic are replayed.
-/

namespace Keycloak.Authz

/-- The effect that a collector of the evaluation, the one it was given or that of an
aggregated policy, holds for an associated policy of a policy. -/
def Recorded (permission : ResourcePermission) (s : State) (parent id : String) (x : Effect) :
    Prop :=
  ∃ c ∈ s.results :: s.decided, RecordsIn permission.identity c parent id x

section

variable {provider : Provider} {hits : Bool} {permission : ResourcePermission}
variable {roots : Policy → Prop}

theorem feedInv_initial (claims : Nat → Claims) (parents : List Policy) :
    FeedInv hits permission parents [] (State.initial claims) where
  cached _ q _ key _ := by simp [State.initial]
  recorded q hq := by simp at hq

theorem feedGood_initial (claims : Nat → Claims) :
    FeedGood provider hits permission roots (State.initial claims) [] []
      (State.initial claims) where
  good := ⟨by simp, by simp [State.initial], rfl, by simp, fun c hc => .inl hc⟩
  result := rfl
  covers q hq := by simp at hq

theorem visitFed_hits (ids : List String) (seen parents : List Policy) :
    ∀ r ∈ (visitFed hits ids seen parents).1, hits = true := by
  induction parents generalizing ids seen with
  | nil => simp [visitFed]
  | cons q rest ih =>
      intro r hr
      rcases List.mem_append.mp hr with hr | hr
      · unfold visitParent at hr
        split at hr
        · simp at hr
        · exact visitAll_hits (fun p _ seen => visit_hits p seen) seen r hr
      · exact ih _ _ r hr

theorem recordsIn_collectorOf {a : Policy} (hnodup : (a.associatedPolicies.map Policy.id).Nodup)
    {parent id : String} {x : Effect}
    (h : RecordsIn permission.identity (collectorOf provider permission a) parent id x) :
    ∃ p ∈ a.associatedPolicies, p.id = id ∧ x = p.effect provider permission := by
  by_cases hempty : a.associatedPolicies = []
  · obtain ⟨r, found, hr, -⟩ := h
    simp [collectorOf, hempty, recordAll] at hr
  · have hids : ((a.associatedPolicies.map fun p => (p, p.effect provider permission)).map
        (·.1.id)).Nodup := by
      simpa [Function.comp_def] using hnodup
    rw [collectorOf, recordAll_nil (by simpa using hempty), putAll_ofPolicy hids] at h
    obtain ⟨r, found, hr, hfound, hx⟩ := h
    rw [List.lookup_cons_self, Option.some.injEq] at hr
    subst hr
    have hmem := LinkedMap.mem_of_lookup hfound
    simp only [List.mem_singleton, Prod.mk.injEq] at hmem
    obtain ⟨-, rfl⟩ := hmem
    have hmem' := LinkedMap.mem_of_lookup hx
    simp only [List.map_map, List.mem_map, Function.comp_apply, Prod.mk.injEq] at hmem'
    obtain ⟨p, hp, hid, heff⟩ := hmem'
    exact ⟨p, hp, hid, heff.symm⟩

theorem recordsIn_resultOf {results : List (Nat × Result)} {fed : List Policy}
    (hresult : results.lookup permission.identity = resultOf provider permission fed)
    {parent id : String} {x : Effect}
    (h : RecordsIn permission.identity results parent id x) :
    ∃ q ∈ fed, ∃ p ∈ q.associatedPolicies, p.id = id ∧
      x = p.effect provider permission := by
  obtain ⟨r, found, hr, hfound, hx⟩ := h
  rw [hresult] at hr
  unfold resultOf at hr
  split at hr
  · cases hr
  · rw [Option.some.injEq] at hr
    subst hr
    obtain ⟨q, hq, -, hentry⟩ := mem_resultEntries (LinkedMap.mem_of_lookup hfound)
    simp only [entryOf, Prod.mk.injEq] at hentry
    obtain ⟨-, rfl⟩ := hentry
    have hmem := LinkedMap.mem_of_lookup hx
    simp only [List.mem_map, Prod.mk.injEq] at hmem
    obtain ⟨p, hp, hid, heff⟩ := hmem
    exact ⟨q, hq, p, hp, hid, heff.symm⟩

variable {parents seen : List Policy} {claims : Nat → Claims} {s : State}

theorem FeedGood.recorded_effect (g : PolicyGraph (· ∈ parents))
    (h : FeedGood provider hits permission (· ∈ parents) (State.initial claims) parents seen s)
    {p : Policy} (hp : Below (· ∈ parents) p) {parent : String} {x : Effect}
    (hrecorded : Recorded permission s parent p.id x) : x = p.effect provider permission := by
  obtain ⟨c, hc, hin⟩ := hrecorded
  rcases List.mem_cons.mp hc with rfl | hc
  · obtain ⟨q, hq, p', hp', hid, rfl⟩ := recordsIn_resultOf h.result hin
    rw [g.below_unique (PolicyGraph.below_associated hq hp') hp hid]
  · rcases h.good.decided c hc with hstart | ⟨a, ha, htype, rfl⟩
    · simp [State.initial] at hstart
    · obtain ⟨p', hp', hid, rfl⟩ := recordsIn_collectorOf (g.nodup a (.inr ha)) hin
      rw [g.below_unique (PolicyGraph.below_closed ha htype hp') hp hid]

theorem FeedGood.recorded_of_recorded (g : PolicyGraph (· ∈ parents)) {hits' : Bool}
    {seen' : List Policy} {s' : State}
    (h : FeedGood provider hits permission (· ∈ parents) (State.initial claims) parents seen s)
    (h' : FeedGood provider hits' permission (· ∈ parents) (State.initial claims) parents seen'
      s')
    {parent id : String} {x : Effect} (hrecorded : Recorded permission s parent id x) :
    Recorded permission s' parent id x := by
  obtain ⟨c, hc, hin⟩ := hrecorded
  rcases List.mem_cons.mp hc with rfl | hc
  · refine ⟨s'.results, List.mem_cons_self, ?_⟩
    obtain ⟨r, found, hr, hrest⟩ := hin
    exact ⟨r, found, by rw [h'.result, ← h.result, hr], hrest⟩
  · rcases h.good.decided c hc with hstart | ⟨a, ⟨q, hq, p, hp, ha⟩, htype, rfl⟩
    · simp [State.initial] at hstart
    · -- the other run has evaluated the policy `p` over `a` too
      obtain ⟨p', hp', hid⟩ := List.mem_map.mp (h'.covers q hq (fun _ _ => rfl) p hp)
      have heq : p' = p :=
        g.below_unique (h'.good.below p' hp') (PolicyGraph.below_associated hq hp) hid
      subst heq
      exact ⟨_, List.mem_cons_of_mem _ (h'.good.logged p' hp' a ha htype), hin⟩

theorem Bad.recorded (h : Bad provider permission roots s) :
    ∃ parent p x, Below roots p ∧ Recorded permission s parent p.id x ∧
      x ≠ p.effect provider permission := by
  rcases h with ⟨c, hc, parent, p, x, hp, hin, hne⟩ | ⟨q, p, hq, hp, hneg, -, hin⟩
  · exact ⟨parent, p, x, hp, ⟨c, List.mem_cons_of_mem _ hc, hin⟩, hne⟩
  · refine ⟨q.id, p, _, PolicyGraph.below_associated hq hp, ⟨_, List.mem_cons_self, hin⟩, ?_⟩
    rw [hneg]
    exact Logic.apply_negative_ne _

end

section

variable (provider : Provider) (permission : ResourcePermission) (claims : Nat → Claims)
variable {parents : List Policy}

theorem feed_missed (g : PolicyGraph (· ∈ parents)) :
    ∃ s seen, feed provider false permission parents (State.initial claims) = some s ∧
      FeedGood provider false permission (· ∈ parents) (State.initial claims) parents seen s := by
  obtain ⟨s, hfeed, -, -, hcases⟩ := feed_fresh provider false permission g parents
    (fun p hp => hp) (State.initial claims) (feedInv_initial claims parents)
    (feedGood_initial claims)
  rcases hcases with ⟨-, hgood⟩ | ⟨⟨r, hr, -⟩, -⟩
  · exact ⟨s, _, hfeed, hgood⟩
  · exact absurd (visitFed_hits _ _ _ r hr) (by decide)

/-- A run with the decision cache records own effects only, or has replayed a policy with
negative logic. -/
theorem feed_cached (g : PolicyGraph (· ∈ parents)) :
    ∃ s, feed provider true permission parents (State.initial claims) = some s ∧
      (((∀ p ∈ replayed parents, p.logic = .positive) ∧
          FeedGood provider true permission (· ∈ parents) (State.initial claims) parents
            (visitFed true [] [] parents).2 s) ∨
        ((∃ p ∈ replayed parents, p.logic = .negative) ∧
          Bad provider permission (· ∈ parents) s)) := by
  obtain ⟨s, hfeed, -, -, hcases⟩ := feed_fresh provider true permission g parents
    (fun p hp => hp) (State.initial claims) (feedInv_initial claims parents)
    (feedGood_initial claims)
  exact ⟨s, hfeed, hcases⟩

end

/-- For every resource permission and every order in which the permissions of a policy
graph are fed, the effects recorded with the shared decision cache are those recorded when
every lookup misses if and only if no policy with negative logic is replayed.  The
evaluator's own collector then holds the same result in both runs. -/
theorem decisionCache_transparent_iff (provider : Provider) (permission : ResourcePermission)
    (claims : Nat → Claims) (parents : List Policy) (g : PolicyGraph (· ∈ parents)) :
    ∃ cached missed,
      feed provider true permission parents (State.initial claims) = some cached ∧
      feed provider false permission parents (State.initial claims) = some missed ∧
      ((∀ parent id x, Recorded permission cached parent id x ↔
          Recorded permission missed parent id x) ↔
        ∀ p ∈ replayed parents, p.logic = .positive) ∧
      ((∀ p ∈ replayed parents, p.logic = .positive) →
        cached.results.lookup permission.identity =
          missed.results.lookup permission.identity) := by
  obtain ⟨cached, hcached, hcases⟩ := feed_cached provider permission claims g
  obtain ⟨missed, seen, hmissed, hgood⟩ := feed_missed provider permission claims g
  refine ⟨cached, missed, hcached, hmissed, ?_⟩
  rcases hcases with ⟨hpositive, hgood'⟩ | ⟨⟨p, hp, hneg⟩, hbad⟩
  · refine ⟨⟨fun _ => hpositive, fun _ parent id x => ⟨?_, ?_⟩⟩, fun _ => ?_⟩
    · exact hgood'.recorded_of_recorded g hgood
    · exact hgood.recorded_of_recorded g hgood'
    · rw [hgood'.result, hgood.result]
  · have hnot : ¬ ∀ p ∈ replayed parents, p.logic = .positive := by
      intro hpositive
      rw [hpositive p hp] at hneg
      cases hneg
    refine ⟨⟨fun hsame => ?_, fun hpositive => (hnot hpositive).elim⟩,
      fun hpositive => (hnot hpositive).elim⟩
    obtain ⟨parent, p', x, hp', hrecorded, hne⟩ := hbad.recorded
    have hmissed' := (hsame parent p'.id x).mp hrecorded
    exact (hne (hgood.recorded_effect g hp' hmissed')).elim

/-! ## A policy shared by two scope permissions -/

def sharedPolicy (logic : Logic) : Policy :=
  .mk ⟨"policy", .other "user", logic, .unanimous, [], []⟩ []

def sharingPermission (id : String) (logic : Logic) : Policy :=
  .mk ⟨id, .scope, .positive, .unanimous, [], [⟨"read", "read"⟩]⟩ [sharedPolicy logic]

def sharingPermissions (logic : Logic) : List Policy :=
  [sharingPermission "first" logic, sharingPermission "second" logic]

theorem below_sharingPermissions {logic : Logic} {p : Policy}
    (h : Below (· ∈ sharingPermissions logic) p) : p = sharedPolicy logic := by
  obtain ⟨q, hq, a, ha, hp⟩ := h
  have hassociated : q.associatedPolicies = [sharedPolicy logic] := by
    rcases List.mem_cons.mp hq with rfl | hq
    · rfl
    · rw [List.mem_singleton.mp hq]
      rfl
  rw [hassociated, List.mem_singleton] at ha
  subst ha
  simpa [Policy.subpolicies, sharedPolicy] using hp

theorem sharingPermissions_graph (logic : Logic) :
    PolicyGraph (· ∈ sharingPermissions logic) := by
  have hroot : ∀ p, p ∈ sharingPermissions logic →
      p = sharingPermission "first" logic ∨ p = sharingPermission "second" logic := by
    intro p hp
    simpa [sharingPermissions] using hp
  refine ⟨?_, ?_, ?_, ?_⟩
  · intro p hp
    rcases hroot p hp with rfl | rfl <;> exact .inr (.inl rfl)
  · intro p hp
    rw [below_sharingPermissions hp]
    simp [Policy.IsPermission, Policy.type, Policy.data, sharedPolicy]
  · rintro p q (hp | hp) (hq | hq) hid
    · rcases hroot p hp with rfl | rfl <;> rcases hroot q hq with rfl | rfl
      · rfl
      · exact absurd hid (show "first" ≠ "second" by decide)
      · exact absurd hid (show "second" ≠ "first" by decide)
      · rfl
    · rw [below_sharingPermissions hq] at hid
      rcases hroot p hp with rfl | rfl
      · exact absurd hid (show "first" ≠ "policy" by decide)
      · exact absurd hid (show "second" ≠ "policy" by decide)
    · rw [below_sharingPermissions hp] at hid
      rcases hroot q hq with rfl | rfl
      · exact absurd hid (show "policy" ≠ "first" by decide)
      · exact absurd hid (show "policy" ≠ "second" by decide)
    · rw [below_sharingPermissions hp, below_sharingPermissions hq]
  · rintro p (hp | hp)
    · rcases hroot p hp with rfl | rfl <;> exact List.nodup_singleton _
    · rw [below_sharingPermissions hp]
      exact List.nodup_nil

/-- With positive logic the replay for the second permission records the same effect. -/
theorem sharedPolicy_transparent :
    ∃ cached missed,
      feed (fun _ _ => [.grant]) true ⟨0, none, [⟨"read", "read"⟩]⟩
        (sharingPermissions .positive) (State.initial fun _ => []) = some cached ∧
      feed (fun _ _ => [.grant]) false ⟨0, none, [⟨"read", "read"⟩]⟩
        (sharingPermissions .positive) (State.initial fun _ => []) = some missed ∧
      ∀ parent id x, Recorded ⟨0, none, [⟨"read", "read"⟩]⟩ cached parent id x ↔
        Recorded ⟨0, none, [⟨"read", "read"⟩]⟩ missed parent id x := by
  obtain ⟨cached, missed, hcached, hmissed, hiff, -⟩ :=
    decisionCache_transparent_iff (fun _ _ => [.grant]) ⟨0, none, [⟨"read", "read"⟩]⟩
      (fun _ => []) (sharingPermissions .positive) (sharingPermissions_graph .positive)
  refine ⟨cached, missed, hcached, hmissed, hiff.mpr ?_⟩
  intro p hp
  have heq : replayed (sharingPermissions .positive) = [sharedPolicy .positive] := rfl
  rw [heq, List.mem_singleton] at hp
  subst hp
  rfl

/-- With negative logic the policy that its provider grants is denied for the first
permission and permitted for the second one. -/
theorem sharedPolicy_inverted :
    PolicyGraph (· ∈ sharingPermissions .negative) ∧
    ∃ cached missed,
      feed (fun _ _ => [.grant]) true ⟨0, none, [⟨"read", "read"⟩]⟩
        (sharingPermissions .negative) (State.initial fun _ => []) = some cached ∧
      feed (fun _ _ => [.grant]) false ⟨0, none, [⟨"read", "read"⟩]⟩
        (sharingPermissions .negative) (State.initial fun _ => []) = some missed ∧
      RecordsIn 0 cached.results "second" "policy" .permit ∧
      RecordsIn 0 missed.results "second" "policy" .deny := by
  refine ⟨sharingPermissions_graph .negative, _, _, rfl, rfl, ⟨_, _, rfl, rfl, rfl⟩,
    ⟨_, _, rfl, rfl, rfl⟩⟩

end Keycloak.Authz
