import Keycloak.Authz.PermissionCollector

/-!
# What the collector holds

A property of results that holds of every new result, and that recording a decision keeps, holds
of all results of the collector after any evaluation.
-/

namespace Keycloak.Authz

structure Collectable (permission : ResourcePermission) (P : Result → Prop) : Prop where
  policy : ∀ result parent f, P result → P (result.policy parent f)
  fresh : ∀ results, results ≠ [] → P { Result.ofPermission permission with results := results }

def State.Collects (P : Result → Prop) (s : State) : Prop := ∀ entry ∈ s.results, P entry.2

section

variable {P : Result → Prop} {e : DefaultEvaluation} {s : State}
  {r : DefaultEvaluation × State}

theorem State.collects_initial (claims : Nat → Claims) : (State.initial claims).Collects P :=
  fun _ hentry => absurd hentry List.not_mem_nil

theorem State.Collects.record {permission : ResourcePermission} (hP : Collectable permission P)
    (h : s.Collects P) (parent : Policy) (f : PolicyResult → PolicyResult) :
    (s.record permission parent f).Collects P := by
  refine LinkedMap.forall_mem_alter h fun found hfound => ?_
  cases found with
  | none => exact hP.fresh _ (LinkedMap.alter_ne_nil _ _ _)
  | some result => exact hP.policy result parent f (hfound result rfl)

theorem State.Collects.onDecision (hP : Collectable e.permission P) {effect : Effect} {s' : State}
    (h : s.Collects P) (hdecision : onDecision e effect s = some s') : s'.Collects P := by
  rw [Authz.onDecision] at hdecision
  split at hdecision
  · split at hdecision
    · cases hdecision
      exact h.record hP _ _
    · obtain ⟨⟨result, found⟩, -, heq⟩ := Option.map_eq_some_iff.mp hdecision
      rw [← heq]
      intro entry hentry
      rcases List.mem_append.mp hentry with hmem | hmem
      · exact h entry hmem
      · rw [List.mem_singleton.mp hmem]
        exact hP.fresh _ (List.cons_ne_nil _ _)
  · cases hdecision
    exact h.record hP _ _

structure Leaves (P : Result → Prop) (permission : ResourcePermission)
    (r : DefaultEvaluation × State) : Prop where
  permission : r.1.permission = permission
  collects : r.2.Collects P

theorem State.Collects.decide (hP : Collectable e.permission P) {effect : Effect} (h : s.Collects P)
    (hdecide : e.decide effect s = some r) : Leaves P e.permission r := by
  obtain ⟨s', hs', heq⟩ := Option.map_eq_some_iff.mp hdecide
  rw [← heq]
  exact ⟨rfl, h.onDecision (e := { e with effect := some effect }) hP hs'⟩

theorem State.Collects.setEffect (hP : Collectable e.permission P) {effect : Effect}
    (h : s.Collects P) (heffect : setEffect effect e s = some r) : Leaves P e.permission r := by
  cases effect with
  | permit => exact h.decide hP heffect
  | deny => exact h.decide hP heffect

theorem State.Collects.denyIfNoEffect (hP : Collectable e.permission P) (h : s.Collects P)
    (hdeny : denyIfNoEffect e s = some r) : Leaves P e.permission r := by
  rw [Authz.denyIfNoEffect] at hdeny
  split at hdeny
  · exact h.decide hP hdeny
  · cases hdeny
    exact ⟨rfl, h⟩

theorem State.Collects.runCall (hP : Collectable e.permission P) {call : Call} (h : s.Collects P)
    (hcall : runCall call e s = some r) : Leaves P e.permission r := by
  cases call with
  | grant => exact h.decide hP hcall
  | deny => exact h.decide hP hcall
  | addClaim name value =>
      cases hcall
      exact ⟨rfl, h⟩

theorem State.Collects.runCalls {calls : List Call} (hP : Collectable e.permission P)
    (h : s.Collects P) (hcalls : runCalls calls e s = some r) : Leaves P e.permission r := by
  induction calls generalizing e s with
  | nil =>
      cases hcalls
      exact ⟨rfl, h⟩
  | cons call rest ih =>
      obtain ⟨⟨e', s'⟩, hcall, hrest⟩ := Option.bind_eq_some_iff.mp hcalls
      obtain ⟨hsame, hkept⟩ := h.runCall hP hcall
      dsimp only at hsame
      have hleaves := ih (hsame ▸ hP) hkept hrest
      exact ⟨hleaves.permission.trans hsame, hleaves.collects⟩

/-! ## The evaluation of a policy -/

variable {provider : Provider} {hits : Bool}

def KeepsCollected (provider : Provider) (hits : Bool) (P : Result → Prop) (p : Policy) : Prop :=
  ∀ (e : DefaultEvaluation) (s : State) (r : DefaultEvaluation × State),
    Collectable e.permission P → s.Collects P → evaluate provider hits p e s = some r →
      Leaves P e.permission r

theorem State.Collects.evaluateAssociated {ps : List Policy} (hP : Collectable e.permission P)
    (hkeeps : ∀ p ∈ ps, KeepsCollected provider hits P p) (h : s.Collects P)
    (hrun : evaluateAssociated provider hits ps e s = some r) : Leaves P e.permission r := by
  induction ps generalizing e s with
  | nil =>
      rw [Authz.evaluateAssociated] at hrun
      cases hrun
      exact ⟨rfl, h⟩
  | cons p rest ih =>
      rw [Authz.evaluateAssociated] at hrun
      dsimp only at hrun
      -- the evaluation that has been moved on still is one of the same resource permission
      have htrans : ∀ (e' : DefaultEvaluation) (s' : State), e'.permission = e.permission →
          s'.Collects P → Authz.evaluateAssociated provider hits rest e' s' = some r →
            Leaves P e.permission r := by
        intro e' s' hsame hkept hrest
        have hleaves := ih (e := e') (hsame ▸ hP)
          (fun q hq => hkeeps q (List.mem_cons_of_mem p hq)) hkept hrest
        exact ⟨hleaves.permission.trans hsame, hleaves.collects⟩
      split at hrun
      · obtain ⟨⟨e', s'⟩, heffect, hrest⟩ := Option.bind_eq_some_iff.mp hrun
        obtain ⟨hsame, hkept⟩ := h.setEffect (e := e.setPolicy p) hP heffect
        exact htrans e' s' hsame hkept hrest
      · obtain ⟨⟨e', s'⟩, hevaluate, hmore⟩ := Option.bind_eq_some_iff.mp hrun
        obtain ⟨⟨e'', s''⟩, hdeny, hrest⟩ := Option.bind_eq_some_iff.mp hmore
        obtain ⟨hsame, hkept⟩ := hkeeps p List.mem_cons_self (e.setPolicy p) s _ hP h hevaluate
        dsimp only at hsame hkept
        have hP' : Collectable e'.permission P := hsame ▸ hP
        obtain ⟨hsame', hkept'⟩ := hkept.denyIfNoEffect hP' hdeny
        exact htrans e'' (s''.put p.id _ e''.effect) (hsame'.trans hsame) hkept' hrest

theorem KeepsCollected.evaluate (p : Policy) : KeepsCollected provider hits P p := by
  induction p using Policy.induction with
  | mk data associated ih =>
      intro e s r hP h hrun
      rw [Authz.evaluate] at hrun
      split at hrun
      · dsimp only at hrun
        split at hrun
        · exact h.setEffect hP hrun
        · obtain ⟨⟨e', s'⟩, hassociated, heq⟩ := Option.map_eq_some_iff.mp hrun
          obtain ⟨hsame, hkept⟩ := h.evaluateAssociated hP ih hassociated
          rw [← heq]
          exact ⟨hsame, hkept⟩
      · dsimp only at hrun
        split at hrun
        · exact h.setEffect hP hrun
        · split at hrun
          · cases hrun
            exact ⟨rfl, h⟩
          · obtain ⟨⟨e', s'⟩, hassociated, heq⟩ := Option.map_eq_some_iff.mp hrun
            obtain ⟨hsame, hkept⟩ := h.evaluateAssociated hP ih hassociated
            rw [← heq]
            exact ⟨hsame, hkept⟩
      · exact h.evaluateAssociated hP ih hrun
      · -- the policies of an aggregated policy are decided by a collector of its own
        obtain ⟨inner, -, houter⟩ := Option.bind_eq_some_iff.mp hrun
        have hkept : State.Collects P { inner with
            results := s.results, decided := inner.decided ++ [inner.results] } := h
        dsimp only at houter
        split at houter
        · cases houter
          exact ⟨rfl, hkept⟩
        · split at houter
          · cases houter
          · split at houter
            · exact hkept.decide hP houter
            · exact hkept.decide hP houter
      · exact h.runCalls hP hrun

theorem State.Collects.feed {permission : ResourcePermission} {fed : List Policy} {s' : State}
    (hP : Collectable permission P) (h : s.Collects P)
    (hrun : feed provider hits permission fed s = some s') : s'.Collects P := by
  induction fed generalizing s with
  | nil =>
      cases hrun
      exact h
  | cons parent rest ih =>
      obtain ⟨⟨e, s₁⟩, hevaluate, hrest⟩ := Option.bind_eq_some_iff.mp hrun
      have hleaves := KeepsCollected.evaluate parent ⟨permission, parent, none, none⟩ s _ hP h
        hevaluate
      exact ih hleaves.collects hrest

end

/-! ## The evaluation of resource permissions -/

section

variable {P : Result → Prop} {provider : Provider} {store : Store} {server : ResourceServer}
  {includeResourceName : Bool} {permission : ResourcePermission} {s : State}

theorem State.Collects.grantWithoutPolicy (hfresh : P (Result.ofPermission permission))
    (hpermit : ∀ result, P result → P { result with status := .permit }) (h : s.Collects P) :
    (grantWithoutPolicy permission s).Collects P := by
  refine LinkedMap.forall_mem_alter h fun found hfound => ?_
  cases found with
  | none => exact hpermit _ hfresh
  | some result => exact hpermit _ (hfound result rfl)

/-- The server evaluates policies for every resource permission, or granting without one keeps the
property as well. -/
def Unconditional (P : Result → Prop) (server : ResourceServer)
    (permission : ResourcePermission) : Prop :=
  server.policyEnforcementMode = .enforcing ∨
    P (Result.ofPermission permission) ∧ ∀ result, P result → P { result with status := .permit }

theorem State.Collects.evaluatePermission (hP : Collectable permission P)
    (hgrant : Unconditional P server permission) {permissions : List Permission}
    {r : State × List Permission} (h : s.Collects P)
    (hrun : evaluatePermission provider store server includeResourceName permission s permissions =
      some r) : r.1.Collects P := by
  have hgranted : server.policyEnforcementMode ≠ .enforcing → ∀ s' : State, s'.Collects P →
      (Authz.grantWithoutPolicy permission s').Collects P := by
    intro hmode s' h'
    obtain ⟨hfresh, hpermit⟩ := hgrant.resolve_left hmode
    exact h'.grantWithoutPolicy hfresh hpermit
  by_cases hdisabled : server.policyEnforcementMode = .disabled
  · rw [Authz.evaluatePermission] at hrun
    simp only [hdisabled, Option.some.injEq] at hrun
    rw [← hrun]
    exact hgranted (by rw [hdisabled]; exact fun h => by cases h) s h
  · cases hfeed :
        Authz.feed provider true permission (queries store server permission).flatten s with
    | none =>
        rw [evaluatePermission_of_not_feed hdisabled hfeed] at hrun
        cases hrun
    | some s' =>
        have hfed := h.feed hP hfeed
        rw [evaluatePermission_of_feed hdisabled hfeed, Option.some.injEq] at hrun
        rw [← hrun]
        split
        · split
          · rename_i hpermissive
            exact hgranted (by rw [hpermissive]; exact fun h => by cases h) s' hfed
          · exact hfed
        · exact hfed

theorem State.Collects.evaluatePermissions {requested : List ResourcePermission}
    (hP : ∀ permission ∈ requested, Collectable permission P)
    (hgrant : ∀ permission ∈ requested, Unconditional P server permission)
    {permissions : List Permission} {r : State × List Permission} (h : s.Collects P)
    (hrun : evaluatePermissions provider store server includeResourceName requested s permissions =
      some r) : r.1.Collects P := by
  induction requested generalizing s permissions with
  | nil =>
      cases hrun
      exact h
  | cons permission rest ih =>
      obtain ⟨⟨s', permissions'⟩, hstep, hrest⟩ := Option.bind_eq_some_iff.mp hrun
      have hkept := h.evaluatePermission (hP permission List.mem_cons_self)
        (hgrant permission List.mem_cons_self) hstep
      exact ih (fun q hq => hP q (List.mem_cons_of_mem permission hq))
        (fun q hq => hgrant q (List.mem_cons_of_mem permission hq)) hkept hrest

end

end Keycloak.Authz
