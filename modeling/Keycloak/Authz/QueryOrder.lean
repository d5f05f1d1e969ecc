import Keycloak.Authz.DecisionCache
import Keycloak.Authz.PermissionCollector
import Mathlib.Data.Set.Insert

/-!
# The order of the policy queries

The queries of the policy store carry no order.  `DecisionPermissionCollector.onComplete`
goes through the policy results once, and a denied resource permission counts only until a
granted policy that lists the resource has been met.  `FindsBoth` says when that matters:
the first query that finds a policy of one of the two kinds finds both.
-/

namespace Keycloak.Authz

/-! ## What one pass over the results collects -/

section

variable (provider : Provider) (permission : ResourcePermission)

def Granted (q : Policy) : Prop :=
  q.associatedPolicies ≠ [] ∧ isGranted (entryOf provider permission q).2 = true

def Denied (q : Policy) : Prop :=
  q.associatedPolicies ≠ [] ∧ isGranted (entryOf provider permission q).2 = false

def Opens (q : Policy) : Prop :=
  Granted provider permission q ∧ listsResource permission q = true

def Blocks (q : Policy) : Prop := Denied provider permission q ∧ q.type = .resource

def UserManages (q : Policy) : Prop :=
  Granted provider permission q ∧ q.type = .uma ∧ ownerManaged permission = true

def GrantsScope (q : Policy) (x : Scope) : Prop :=
  Granted provider permission q ∧ x ∈ permission.scopes ∧
    (q.type = .resource ∨ (q.type = .scope ∧ x ∈ q.data.scopes))

def DeniesScope (q : Policy) (x : Scope) : Prop :=
  Denied provider permission q ∧ q.type ≠ .resource ∧ x ∈ q.data.scopes

instance (q : Policy) : Decidable (Opens provider permission q) := by
  unfold Opens Granted
  infer_instance

instance (q : Policy) : Decidable (Blocks provider permission q) := by
  unfold Blocks Denied
  infer_instance

/-- Some denied resource permission is met before any policy that opens the resource. -/
def Blocked (fed : List Policy) : Prop :=
  ∃ before q after, fed = before ++ q :: after ∧ Blocks provider permission q ∧
    ∀ p ∈ before, ¬ Opens provider permission p

def tallyOf (fed : List Policy) : Tally :=
  (resultEntries provider permission fed).foldl (fun t r => tallyResult permission t r.2)
    Tally.empty

structure TallySpec (fed : List Policy) (t : Tally) : Prop where
  granted : ∀ x, x ∈ t.grantedScopes ↔ ∃ q ∈ fed, GrantsScope provider permission q x
  denied : ∀ x, x ∈ t.deniedScopes ↔ (∃ q ∈ fed, DeniesScope provider permission q x) ∨
    (Blocked provider permission fed ∧ x ∈ permission.scopes)
  userManaged : ∀ q, q ∈ t.userManagedPermissions ↔ q ∈ fed ∧ UserManages provider permission q
  resourceGranted : t.resourceGranted = true ↔ ∃ q ∈ fed, Opens provider permission q
  anyDeny : t.anyDeny = true ↔ ∃ q ∈ fed, Denied provider permission q

end

section

variable {provider : Provider} {permission : ResourcePermission}

theorem blocked_append_singleton {fed : List Policy} {q : Policy} :
    Blocked provider permission (fed ++ [q]) ↔ Blocked provider permission fed ∨
      (Blocks provider permission q ∧ ∀ p ∈ fed, ¬ Opens provider permission p) := by
  constructor
  · rintro ⟨before, p, after, heq, hblocks, hbefore⟩
    rcases List.eq_nil_or_concat after with rfl | ⟨after', last, rfl⟩
    · obtain ⟨rfl, hlast⟩ := List.append_inj' heq rfl
      cases hlast
      exact .inr ⟨hblocks, hbefore⟩
    · have heq' : fed ++ [q] = (before ++ p :: after') ++ [last] := by simpa using heq
      obtain ⟨rfl, -⟩ := List.append_inj' heq' rfl
      exact .inl ⟨before, p, after', rfl, hblocks, hbefore⟩
  · rintro (⟨before, p, after, rfl, hblocks, hbefore⟩ | ⟨hblocks, hfed⟩)
    · exact ⟨before, p, after ++ [q], by simp, hblocks, hbefore⟩
    · exact ⟨fed, q, [], rfl, hblocks, hfed⟩

theorem TallySpec.of_mem {fed : List Policy} {q : Policy} {t : Tally}
    (h : TallySpec provider permission fed t) (hq : q ∈ fed ∨ q.associatedPolicies = []) :
    TallySpec provider permission (fed ++ [q]) t := by
  have hmem : ∀ (P : Policy → Prop), (∀ p, P p → p.associatedPolicies ≠ []) →
      ((∃ p ∈ fed ++ [q], P p) ↔ ∃ p ∈ fed, P p) := by
    intro P hP
    constructor
    · rintro ⟨p, hp, hPp⟩
      rcases List.mem_append.mp hp with hp | hp
      · exact ⟨p, hp, hPp⟩
      · rw [List.mem_singleton.mp hp] at hPp
        exact ⟨q, hq.resolve_right (hP q hPp), hPp⟩
    · rintro ⟨p, hp, hPp⟩
      exact ⟨p, List.mem_append_left _ hp, hPp⟩
  have hblocked : Blocked provider permission (fed ++ [q]) ↔
      Blocked provider permission fed := by
    rw [blocked_append_singleton]
    constructor
    · rintro (hold | ⟨hblocks, hopens⟩)
      · exact hold
      · have hqfed := hq.resolve_right hblocks.1.1
        obtain ⟨before, after, rfl⟩ := List.append_of_mem hqfed
        exact ⟨before, q, after, rfl, hblocks,
          fun p hp => hopens p (List.mem_append_left _ hp)⟩
    · exact .inl
  refine ⟨fun x => ?_, fun x => ?_, fun p => ?_, ?_, ?_⟩
  · rw [h.granted, hmem _ fun p hp => hp.1.1]
  · rw [h.denied, hmem _ fun p hp => hp.1.1, hblocked]
  · rw [h.userManaged]
    constructor
    · exact fun hp => ⟨List.mem_append_left _ hp.1, hp.2⟩
    · rintro ⟨hp, hmanages⟩
      rcases List.mem_append.mp hp with hp | hp
      · exact ⟨hp, hmanages⟩
      · rw [List.mem_singleton.mp hp] at hmanages ⊢
        exact ⟨hq.resolve_right hmanages.1.1, hmanages⟩
  · rw [h.resourceGranted, hmem _ fun p hp => hp.1.1]
  · rw [h.anyDeny, hmem _ fun p hp => hp.1]

theorem exists_mem_append_singleton {P : Policy → Prop} {fed : List Policy} {q : Policy} :
    (∃ p ∈ fed ++ [q], P p) ↔ (∃ p ∈ fed, P p) ∨ P q := by
  simp only [List.mem_append, List.mem_singleton]
  constructor
  · rintro ⟨p, hp | rfl, hP⟩
    · exact .inl ⟨p, hp, hP⟩
    · exact .inr hP
  · rintro (⟨p, hp, hP⟩ | hP)
    · exact ⟨p, .inl hp, hP⟩
    · exact ⟨q, .inr rfl, hP⟩

theorem TallySpec.grant {fed : List Policy} {q : Policy} {t : Tally}
    (h : TallySpec provider permission fed t) (hq : Granted provider permission q) :
    TallySpec provider permission (fed ++ [q])
      (tallyResult permission t (entryOf provider permission q).2) := by
  have hnot : ¬ Denied provider permission q := by
    intro hdenied
    exact absurd (hq.2.symm.trans hdenied.2) (by decide)
  have hblocks : ¬ Blocks provider permission q := fun hb => hnot hb.1
  have hstep : tallyResult permission t (entryOf provider permission q).2 =
      { grantedScopes := t.grantedScopes ∪
          (permission.scopes.filter fun x => decide (q.type = .resource) ||
            (decide (q.type = .scope) && q.data.scopes.contains x)).toFinset
        deniedScopes := t.deniedScopes
        userManagedPermissions := t.userManagedPermissions ++
          (if q.type = .uma ∧ ownerManaged permission = true then [q] else [])
        resourceGranted := t.resourceGranted || listsResource permission q
        anyDeny := t.anyDeny } := by
    have hpolicy : (entryOf provider permission q).2.policy = q := rfl
    unfold tallyResult
    simp only [hpolicy, hq.2, if_true]
    cases htype : q.type with
    | uma => cases hmanaged : ownerManaged permission <;> simp
    | _ => simp
  rw [hstep]
  refine ⟨fun x => ?_, fun x => ?_, fun p => ?_, ?_, ?_⟩
  · simp only [Finset.mem_union, List.mem_toFinset, List.mem_filter, h.granted,
      exists_mem_append_singleton, GrantsScope, hq, true_and, Bool.or_eq_true,
      Bool.and_eq_true, decide_eq_true_eq, List.contains_iff_mem]
  · simp only [h.denied, exists_mem_append_singleton, blocked_append_singleton, DeniesScope,
      hnot, hblocks, false_and, or_false]
  · simp only [List.mem_append, h.userManaged, UserManages, List.mem_singleton]
    by_cases hcond : q.type = .uma ∧ ownerManaged permission = true
    · rw [if_pos hcond]
      simp only [List.mem_singleton]
      constructor
      · rintro (hp | rfl)
        · exact ⟨.inl hp.1, hp.2⟩
        · exact ⟨.inr rfl, hq, hcond⟩
      · rintro ⟨hp | rfl, hmanages⟩
        · exact .inl ⟨hp, hmanages⟩
        · exact .inr rfl
    · rw [if_neg hcond]
      simp only [List.not_mem_nil, or_false]
      constructor
      · exact fun hp => ⟨.inl hp.1, hp.2⟩
      · rintro ⟨hp | rfl, hmanages⟩
        · exact ⟨hp, hmanages⟩
        · exact (hcond hmanages.2).elim
  · simp only [Bool.or_eq_true, h.resourceGranted, exists_mem_append_singleton, Opens, hq,
      true_and]
  · simp only [h.anyDeny, exists_mem_append_singleton, hnot, or_false]

theorem TallySpec.deny {fed : List Policy} {q : Policy} {t : Tally}
    (h : TallySpec provider permission fed t) (hq : Denied provider permission q) :
    TallySpec provider permission (fed ++ [q])
      (tallyResult permission t (entryOf provider permission q).2) := by
  have hnot : ¬ Granted provider permission q := by
    intro hgranted
    exact absurd (hgranted.2.symm.trans hq.2) (by decide)
  have hopens : ¬ Opens provider permission q := fun ho => hnot ho.1
  have hstep : tallyResult permission t (entryOf provider permission q).2 =
      { t with
        deniedScopes := t.deniedScopes ∪
          (if q.type = .resource then
            (if t.resourceGranted then ∅ else permission.scopes.toFinset)
          else q.data.scopes.toFinset)
        anyDeny := true } := by
    have hpolicy : (entryOf provider permission q).2.policy = q := rfl
    unfold tallyResult
    simp only [hpolicy, hq.2, Bool.false_eq_true, if_false]
    cases htype : q.type with
    | resource => cases hgranted : t.resourceGranted <;> simp [hgranted]
    | _ => simp
  rw [hstep]
  refine ⟨fun x => ?_, fun x => ?_, fun p => ?_, ?_, ?_⟩
  · simp only [h.granted, exists_mem_append_singleton, GrantsScope, hnot, false_and, or_false]
  · simp only [Finset.mem_union, h.denied, exists_mem_append_singleton,
      blocked_append_singleton, DeniesScope, hq, true_and]
    by_cases htype : q.type = .resource
    · have hblocks : Blocks provider permission q := ⟨hq, htype⟩
      simp only [htype, if_true, ne_eq, not_true_eq_false, false_and, or_false, hblocks,
        true_and]
      cases hgranted : t.resourceGranted with
      | true =>
          have hsome : ¬ ∀ p ∈ fed, ¬ Opens provider permission p := by
            obtain ⟨p, hp, hopens⟩ := h.resourceGranted.mp hgranted
            exact fun hall => hall p hp hopens
          simp [hsome]
      | false =>
          have hall : ∀ p ∈ fed, ¬ Opens provider permission p := by
            intro p hp hopens
            have htrue := h.resourceGranted.mpr ⟨p, hp, hopens⟩
            rw [hgranted] at htrue
            cases htrue
          simp only [Bool.false_eq_true, if_false, List.mem_toFinset]
          constructor
          · rintro ((hold | hold) | hx)
            · exact .inl hold
            · exact .inr ⟨.inl hold.1, hold.2⟩
            · exact .inr ⟨.inr hall, hx⟩
          · rintro (hold | ⟨-, hx⟩)
            · exact .inl (.inl hold)
            · exact .inr hx
    · have hblocks : ¬ Blocks provider permission q := fun hb => htype hb.2
      simp only [htype, if_false, ne_eq, not_false_eq_true, true_and, hblocks, false_and,
        or_false, List.mem_toFinset]
      exact or_right_comm
  · rw [h.userManaged]
    simp only [List.mem_append, List.mem_singleton, UserManages]
    constructor
    · exact fun hp => ⟨.inl hp.1, hp.2⟩
    · rintro ⟨hp | rfl, hmanages⟩
      · exact ⟨hp, hmanages⟩
      · exact (hnot hmanages.1).elim
  · simp only [h.resourceGranted, exists_mem_append_singleton, hopens, or_false]
  · simp only [exists_mem_append_singleton, hq, or_true]

theorem tallyOf_spec {fed : List Policy}
    (hunique : ∀ p ∈ fed, ∀ q ∈ fed, p.id = q.id → p = q) :
    TallySpec provider permission fed (tallyOf provider permission fed) := by
  induction fed using List.reverseRecOn with
  | nil =>
      have hblocked : ¬ Blocked provider permission [] := by
        rintro ⟨before, q, after, heq, -⟩
        simp at heq
      refine ⟨?_, ?_, ?_, ?_, ?_⟩ <;> simp [tallyOf, resultEntries, Tally.empty, hblocked]
  | append_singleton fed q ih =>
      have ih := ih fun p hp p' hp' =>
        hunique p (List.mem_append_left _ hp) p' (List.mem_append_left _ hp')
      unfold tallyOf at ih ⊢
      rw [resultEntries_append, addEntry]
      split
      · rename_i hold
        apply ih.of_mem
        simp only [Bool.or_eq_true, List.isEmpty_iff, List.contains_iff_mem] at hold
        rcases hold with hempty | hkey
        · exact .inr hempty
        · obtain ⟨entry, hentry, hid⟩ := List.mem_map.mp hkey
          obtain ⟨p, hp, -, rfl⟩ := mem_resultEntries hentry
          have heq : p = q := hunique p (List.mem_append_left _ hp) q (by simp) hid
          exact .inl (heq ▸ hp)
      · rename_i hnew
        simp only [Bool.or_eq_true, not_or, List.isEmpty_iff] at hnew
        rw [List.foldl_append]
        cases hgranted : isGranted (entryOf provider permission q).2 with
        | true => exact ih.grant ⟨hnew.1, hgranted⟩
        | false => exact ih.deny ⟨hnew.1, hgranted⟩

/-! ## What is granted from it -/

theorem mem_foldl_union {ps : List Policy} {acc : Finset Scope} {x : Scope} :
    x ∈ ps.foldl (fun acc policy => acc ∪ policy.data.scopes.toFinset) acc ↔
      x ∈ acc ∨ ∃ p ∈ ps, x ∈ p.data.scopes := by
  induction ps generalizing acc with
  | nil => simp
  | cons p rest ih =>
      rw [List.foldl_cons, ih]
      simp only [Finset.mem_union, List.mem_toFinset, List.mem_cons, exists_eq_or_imp, or_assoc]

theorem settleScopes_congr {t t' : Tally} (hgranted : t.grantedScopes = t'.grantedScopes)
    (hdenied : t.deniedScopes = t'.deniedScopes)
    (huser : ∀ q, q ∈ t.userManagedPermissions ↔ q ∈ t'.userManagedPermissions)
    (hresource : t.resourceGranted = t'.resourceGranted) (hdeny : t.anyDeny = t'.anyDeny) :
    settleScopes permission t = settleScopes permission t' := by
  have hempty : t.userManagedPermissions.isEmpty = t'.userManagedPermissions.isEmpty := by
    rw [Bool.eq_iff_iff, List.isEmpty_iff, List.isEmpty_iff, List.eq_nil_iff_forall_not_mem,
      List.eq_nil_iff_forall_not_mem]
    simp only [huser]
  have hfold : ∀ acc : Finset Scope,
      t.userManagedPermissions.foldl
          (fun acc policy => acc ∪ policy.data.scopes.toFinset) acc =
        t'.userManagedPermissions.foldl
          (fun acc policy => acc ∪ policy.data.scopes.toFinset) acc := by
    intro acc
    ext x
    simp only [mem_foldl_union, huser]
  simp only [settleScopes, hgranted, hdenied, hempty, hfold, hresource, hdeny]

/-- The granted pairs of resource and scope names that a set of scopes gives. -/
def pairsOf (permission : ResourcePermission) :
    Option (Finset Scope) → Set (Option String × Finset String)
  | none => ∅
  | some scopes =>
      match permission.resource with
      | some resource => {(some resource.id, scopes.image Scope.name)}
      | none => if scopes = ∅ then ∅ else {(none, scopes.image Scope.name)}

def grantedPairs (permissions : List Permission) : Set (Option String × Finset String) :=
  {pair | ∃ p ∈ permissions, (p.resourceId, p.scopes) = pair}

theorem grantedPairs_grantPermission (store : Store) (includeResourceName : Bool)
    (claims : Claims) (scopes : Finset Scope) :
    grantedPairs (grantPermission store includeResourceName permission claims scopes []) =
      pairsOf permission (some scopes) := by
  ext pair
  unfold grantPermission pairsOf grantedPairs
  cases permission.resource with
  | some resource =>
      simp [createPermission, eq_comm]
  | none =>
      simp only
      by_cases hempty : scopes = ∅
      · simp [hempty]
      · simp only [hempty, if_false, List.nil_append]
        cases hfound : store.findByScope scopes with
        | nil => simp [createPermission, eq_comm]
        | cons resource rest =>
            simp only [List.map_cons, List.isEmpty_cons, Bool.false_eq_true, if_false,
              Set.mem_ofPred_eq, Set.mem_singleton_iff, List.mem_cons, List.mem_map]
            constructor
            · rintro ⟨p, rfl | ⟨_, _, rfl⟩, rfl⟩ <;> rfl
            · rintro rfl
              exact ⟨_, .inl rfl, rfl⟩

variable (provider permission) in
/-- A scope that is granted and not denied by a policy other than a resource permission. -/
def Survives (fed : List Policy) (x : Scope) : Prop :=
  (∃ q ∈ fed, GrantsScope provider permission q x) ∧
    ¬ ∃ q ∈ fed, DeniesScope provider permission q x

variable (provider permission) in
/-- Some scope survives whose name no granted user-managed permission adds anyway. -/
def Relevant (fed : List Policy) : Prop :=
  ∃ x, Survives provider permission fed x ∧
    ∀ q ∈ fed, UserManages provider permission q → ∀ y ∈ q.data.scopes, y.name ≠ x.name

def userManagedScopes (t : Tally) : Finset Scope :=
  t.userManagedPermissions.foldl (fun acc policy => acc ∪ policy.data.scopes.toFinset) ∅

theorem mem_userManagedScopes {fed : List Policy} {t : Tally}
    (h : TallySpec provider permission fed t) {x : Scope} :
    x ∈ userManagedScopes t ↔
      ∃ q ∈ fed, UserManages provider permission q ∧ x ∈ q.data.scopes := by
  unfold userManagedScopes
  rw [mem_foldl_union]
  simp only [Finset.notMem_empty, false_or, h.userManaged]
  constructor
  · rintro ⟨q, ⟨hq, hmanages⟩, hx⟩
    exact ⟨q, hq, hmanages, hx⟩
  · rintro ⟨q, hq, hmanages, hx⟩
    exact ⟨q, ⟨hq, hmanages⟩, hx⟩

theorem settleScopes_eq {t : Tally} (hresource : t.resourceGranted = true)
    (hdeny : t.anyDeny = true) :
    settleScopes permission t =
      let left := t.grantedScopes \ t.deniedScopes
      if t.userManagedPermissions.isEmpty then
        if left = ∅ then none else some left
      else if left ∪ userManagedScopes t = ∅ ∧
          (permission.resource.map Resource.scopes).getD [] ≠ [] then none
      else some (left ∪ userManagedScopes t) := by
  have hfold : t.userManagedPermissions.foldl
      (fun acc policy => acc ∪ policy.data.scopes.toFinset)
        (t.grantedScopes \ t.deniedScopes) =
      (t.grantedScopes \ t.deniedScopes) ∪ userManagedScopes t := by
    ext x
    simp only [mem_foldl_union, Finset.mem_union, userManagedScopes, Finset.notMem_empty,
      false_or]
  simp only [settleScopes, hresource, hdeny, hfold]
  split
  · simp
  · simp

theorem relevant_iff {fed : List Policy} {t : Tally} {left : Finset Scope}
    (h : TallySpec provider permission fed t)
    (hleft : ∀ x, x ∈ left ↔ Survives provider permission fed x) :
    Relevant provider permission fed ↔
      ¬ left.image Scope.name ⊆ (userManagedScopes t).image Scope.name := by
  rw [Finset.not_subset]
  constructor
  · rintro ⟨x, hx, hnames⟩
    refine ⟨x.name, Finset.mem_image_of_mem _ ((hleft x).mpr hx), fun hmem => ?_⟩
    obtain ⟨y, hy, hname⟩ := Finset.mem_image.mp hmem
    obtain ⟨q, hq, hmanages, hyq⟩ := (mem_userManagedScopes h).mp hy
    exact hnames q hq hmanages y hyq hname
  · rintro ⟨name, hname, hnot⟩
    obtain ⟨x, hx, rfl⟩ := Finset.mem_image.mp hname
    refine ⟨x, (hleft x).mp hx, fun q hq hmanages y hy heq => hnot ?_⟩
    exact Finset.mem_image.mpr ⟨y, (mem_userManagedScopes h).mpr ⟨q, hq, hmanages, hy⟩, heq⟩

theorem left_of_blocked {fed : List Policy} {t : Tally}
    (h : TallySpec provider permission fed t) (hblocked : Blocked provider permission fed) :
    t.grantedScopes \ t.deniedScopes = ∅ := by
  ext x
  simp only [Finset.mem_sdiff, h.granted, h.denied, Finset.notMem_empty, iff_false, not_and,
    not_not]
  rintro ⟨q, hq, -, hx, -⟩
  exact .inr ⟨hblocked, hx⟩

theorem left_of_not_blocked {fed : List Policy} {t : Tally}
    (h : TallySpec provider permission fed t) (hblocked : ¬ Blocked provider permission fed)
    (x : Scope) :
    x ∈ t.grantedScopes \ t.deniedScopes ↔ Survives provider permission fed x := by
  simp only [Finset.mem_sdiff, h.granted, h.denied, hblocked, false_and, or_false, Survives]

/-- The same permissions, once with the resource blocked and once not: the granted pairs
agree unless a scope survives that only the second order grants. -/
theorem pairsOf_eq_iff {fed fed' : List Policy} {t t' : Tally}
    (h : TallySpec provider permission fed t) (h' : TallySpec provider permission fed' t')
    (hmem : ∀ q, q ∈ fed' ↔ q ∈ fed) (hopens : ∃ q ∈ fed, Opens provider permission q)
    (hblocks : ∃ q ∈ fed, Blocks provider permission q)
    (hblocked : Blocked provider permission fed)
    (hblocked' : ¬ Blocked provider permission fed') :
    pairsOf permission (settleScopes permission t) =
        pairsOf permission (settleScopes permission t') ↔
      ¬ Relevant provider permission fed := by
  have hresource : t.resourceGranted = true := h.resourceGranted.mpr hopens
  have hresource' : t'.resourceGranted = true := h'.resourceGranted.mpr (by
    simpa only [hmem] using hopens)
  have hdenied : ∃ q ∈ fed, Denied provider permission q := by
    obtain ⟨q, hq, hblock⟩ := hblocks
    exact ⟨q, hq, hblock.1⟩
  have hdeny : t.anyDeny = true := h.anyDeny.mpr hdenied
  have hdeny' : t'.anyDeny = true := h'.anyDeny.mpr (by simpa only [hmem] using hdenied)
  have hempty : t'.userManagedPermissions.isEmpty = t.userManagedPermissions.isEmpty := by
    rw [Bool.eq_iff_iff, List.isEmpty_iff, List.isEmpty_iff, List.eq_nil_iff_forall_not_mem,
      List.eq_nil_iff_forall_not_mem]
    simp only [h.userManaged, h'.userManaged, hmem]
  have hscopes : userManagedScopes t' = userManagedScopes t := by
    ext x
    rw [mem_userManagedScopes h, mem_userManagedScopes h']
    simp only [hmem]
  have hleft : ∀ x, x ∈ t'.grantedScopes \ t'.deniedScopes ↔
      Survives provider permission fed x := by
    intro x
    rw [left_of_not_blocked h' hblocked']
    simp only [Survives, hmem]
  obtain ⟨r, hr⟩ : ∃ r, permission.resource = some r := by
    obtain ⟨q, -, hopen⟩ := hopens
    cases hr : permission.resource with
    | none => simp [Opens, listsResource, hr] at hopen
    | some r => exact ⟨r, rfl⟩
  rw [relevant_iff h hleft, not_not, settleScopes_eq hresource hdeny,
    settleScopes_eq hresource' hdeny', left_of_blocked h hblocked, hempty, hscopes]
  generalize t'.grantedScopes \ t'.deniedScopes = left
  by_cases hleftempty : left = ∅
  · subst hleftempty
    simp
  · have hnonempty : left.image Scope.name ≠ ∅ := by
      simpa [Finset.image_eq_empty] using hleftempty
    have hunion : left ∪ userManagedScopes t ≠ ∅ := by
      intro hunion
      exact hleftempty (Finset.union_eq_empty.mp hunion).1
    simp only [hleftempty, hunion, Finset.empty_union, false_and, if_false, if_true]
    split
    · -- no user-managed permission is granted
      rename_i hnone
      have hnil : userManagedScopes t = ∅ := by
        simp [userManagedScopes, List.isEmpty_iff.mp hnone]
      simp [pairsOf, hr, hnil, hnonempty]
    · split
      · rename_i hnothing
        simp [pairsOf, hr, hnothing.1, hnonempty]
      · simp only [pairsOf, hr, Finset.image_union, Set.singleton_eq_singleton_iff,
          Prod.mk.injEq, true_and]
        rw [eq_comm, Finset.union_eq_right]

/-! ## Reordered queries -/

theorem blocked_append {l l' : List Policy} :
    Blocked provider permission (l ++ l') ↔ Blocked provider permission l ∨
      ((∀ p ∈ l, ¬ Opens provider permission p) ∧ Blocked provider permission l') := by
  induction l' using List.reverseRecOn with
  | nil =>
      have hnil : ¬ Blocked provider permission [] := by
        rintro ⟨before, q, after, heq, -⟩
        simp at heq
      simp [hnil]
  | append_singleton l' q ih =>
      rw [← List.append_assoc, blocked_append_singleton, ih, blocked_append_singleton]
      simp only [List.mem_append]
      constructor
      · rintro ((hl | hl') | ⟨hblocks, hopens⟩)
        · exact .inl hl
        · exact .inr ⟨hl'.1, .inl hl'.2⟩
        · exact .inr ⟨fun p hp => hopens p (.inl hp), .inr ⟨hblocks,
            fun p hp => hopens p (.inr hp)⟩⟩
      · rintro (hl | ⟨hopens, hl' | ⟨hblocks, hopens'⟩⟩)
        · exact .inl (.inl hl)
        · exact .inl (.inr ⟨hopens, hl'⟩)
        · exact .inr ⟨hblocks, fun p hp => hp.elim (hopens p) (hopens' p)⟩

theorem not_blocked_of_no_blocks {l : List Policy}
    (h : ∀ q ∈ l, ¬ Blocks provider permission q) : ¬ Blocked provider permission l := by
  rintro ⟨before, q, after, rfl, hblocks, -⟩
  exact h q (by simp) hblocks

theorem blocked_of_no_opens {l : List Policy} (h : ∀ q ∈ l, ¬ Opens provider permission q)
    (hblocks : ∃ q ∈ l, Blocks provider permission q) : Blocked provider permission l := by
  obtain ⟨q, hq, hblocks⟩ := hblocks
  obtain ⟨before, after, rfl⟩ := List.append_of_mem hq
  exact ⟨before, q, after, rfl, hblocks, fun p hp => h p (List.mem_append_left _ hp)⟩

variable (provider permission) in
/-- The first query that finds a policy that opens the resource or a denied resource
permission finds both. -/
def FindsBoth (found : List (List Policy)) : Prop :=
  ∃ before l after, found = before ++ l :: after ∧
    (∀ l' ∈ before, ∀ q ∈ l', ¬ Opens provider permission q ∧ ¬ Blocks provider permission q) ∧
    (∃ q ∈ l, Opens provider permission q) ∧ ∃ q ∈ l, Blocks provider permission q

theorem blocked_iff_of_perm {found found' : List (List Policy)}
    (hperm : List.Forall₂ List.Perm found found') (h : ¬ FindsBoth provider permission found) :
    Blocked provider permission found.flatten ↔ Blocked provider permission found'.flatten := by
  induction hperm with
  | nil => exact Iff.rfl
  | @cons l l' rest rest' hl hrest ih =>
      have hmem : ∀ (P : Policy → Prop), (∀ q ∈ l', P q) ↔ ∀ q ∈ l, P q := by
        intro P
        simp only [hl.mem_iff]
      rw [List.flatten_cons, List.flatten_cons, blocked_append, blocked_append, hmem]
      by_cases hopens : ∀ q ∈ l, ¬ Opens provider permission q
      · by_cases hblocks : ∀ q ∈ l, ¬ Blocks provider permission q
        · have hrestBoth : ¬ FindsBoth provider permission rest := by
            rintro ⟨before, m, after, rfl, hbefore, hboth⟩
            refine h ⟨l :: before, m, after, rfl, ?_, hboth⟩
            intro m' hm' q hq
            rcases List.mem_cons.mp hm' with rfl | hm'
            · exact ⟨hopens q hq, hblocks q hq⟩
            · exact hbefore m' hm' q hq
          have hl₁ := not_blocked_of_no_blocks hblocks
          have hl₂ : ¬ Blocked provider permission l' :=
            not_blocked_of_no_blocks ((hmem _).mpr hblocks)
          simp only [hl₁, hl₂, false_or, ih hrestBoth]
        · have hsome : ∃ q ∈ l, Blocks provider permission q := by
            simpa only [not_forall, not_not, exists_prop] using hblocks
          have hsome' : ∃ q ∈ l', Blocks provider permission q := by
            simpa only [hl.mem_iff] using hsome
          have hl₁ := blocked_of_no_opens hopens hsome
          have hl₂ := blocked_of_no_opens ((hmem _).mpr hopens) hsome'
          simp only [hl₁, hl₂, true_or]
      · have hsome : ∃ q ∈ l, Opens provider permission q := by
          simpa only [not_forall, not_not, exists_prop] using hopens
        have hblocks : ∀ q ∈ l, ¬ Blocks provider permission q := by
          intro q hq hblocks
          exact h ⟨[], l, rest, rfl, by simp, hsome, q, hq, hblocks⟩
        have hl₁ := not_blocked_of_no_blocks hblocks
        have hl₂ : ¬ Blocked provider permission l' :=
          not_blocked_of_no_blocks ((hmem _).mpr hblocks)
        simp only [hl₁, hl₂, hopens, false_and, or_false]

def putFirst (P : Policy → Bool) (l : List Policy) : List Policy :=
  l.filter P ++ l.filter fun q => !P q

theorem putFirst_perm (P : Policy → Bool) (l : List Policy) : (putFirst P l).Perm l :=
  List.filter_append_perm P l

theorem mem_putFirst {P : Policy → Bool} {l : List Policy} {q : Policy} :
    q ∈ putFirst P l ↔ q ∈ l :=
  (putFirst_perm P l).mem_iff

theorem not_opens_of_blocks {q : Policy} (h : Blocks provider permission q) :
    ¬ Opens provider permission q := by
  intro hopens
  exact absurd (hopens.1.2.symm.trans h.1.2) (by decide)

/-- Whether the resource is blocked is decided within the query that finds both. -/
theorem blocked_map_putFirst {P : Policy → Bool} {before after : List (List Policy)}
    {l : List Policy}
    (hbefore : ∀ l' ∈ before, ∀ q ∈ l',
      ¬ Opens provider permission q ∧ ¬ Blocks provider permission q)
    (hopens : ∃ q ∈ l, Opens provider permission q) :
    Blocked provider permission ((before ++ l :: after).map (putFirst P)).flatten ↔
      Blocked provider permission (putFirst P l) := by
  have hmem : ∀ q ∈ (before.map (putFirst P)).flatten,
      ¬ Opens provider permission q ∧ ¬ Blocks provider permission q := by
    intro q hq
    obtain ⟨l', hl', hq⟩ := List.mem_flatten.mp hq
    obtain ⟨l'', hl'', rfl⟩ := List.mem_map.mp hl'
    exact hbefore l'' hl'' q (mem_putFirst.mp hq)
  have hfirst : ¬ Blocked provider permission (before.map (putFirst P)).flatten :=
    not_blocked_of_no_blocks fun q hq => (hmem q hq).2
  have hnone : ∀ q ∈ (before.map (putFirst P)).flatten, ¬ Opens provider permission q :=
    fun q hq => (hmem q hq).1
  have hsome : ¬ ∀ q ∈ putFirst P l, ¬ Opens provider permission q := by
    obtain ⟨q, hq, hopen⟩ := hopens
    exact fun hall => hall q (mem_putFirst.mpr hq) hopen
  rw [List.map_append, List.flatten_append, List.map_cons, List.flatten_cons, blocked_append,
    blocked_append]
  simp only [hfirst, false_or, hsome, false_and, or_false]
  exact and_iff_right hnone

theorem blocked_of_blocks_first {found : List (List Policy)}
    (h : FindsBoth provider permission found) :
    Blocked provider permission
      (found.map (putFirst fun q => decide (Blocks provider permission q))).flatten := by
  obtain ⟨before, l, after, rfl, hbefore, hopens, q, hq, hblocks⟩ := h
  rw [blocked_map_putFirst hbefore hopens, putFirst, blocked_append]
  refine .inl (blocked_of_no_opens (fun p hp => ?_) ⟨q, ?_, hblocks⟩)
  · exact not_opens_of_blocks (by simpa using (List.mem_filter.mp hp).2)
  · exact List.mem_filter.mpr ⟨hq, by simpa using hblocks⟩

theorem not_blocked_of_opens_first {found : List (List Policy)}
    (h : FindsBoth provider permission found) :
    ¬ Blocked provider permission
      (found.map (putFirst fun q => decide (Opens provider permission q))).flatten := by
  obtain ⟨before, l, after, rfl, hbefore, ⟨q, hq, hopens⟩, -⟩ := h
  rw [blocked_map_putFirst hbefore ⟨q, hq, hopens⟩, putFirst, blocked_append]
  rintro (hfirst | ⟨hnone, -⟩)
  · refine not_blocked_of_no_blocks (fun p hp hblocks => ?_) hfirst
    have hopen : Opens provider permission p := by simpa using (List.mem_filter.mp hp).2
    exact not_opens_of_blocks hblocks hopen
  · exact hnone q (List.mem_filter.mpr ⟨hq, by simpa using hopens⟩) hopens

end

structure Reordered (store store' : Store) : Prop where
  findByResource : ∀ r, (store'.findByResource r).Perm (store.findByResource r)
  findByResourceType : ∀ type,
    (store'.findByResourceType type).Perm (store.findByResourceType type)
  findByScopeIds : ∀ scopes, (store'.findByScopeIds scopes).Perm (store.findByScopeIds scopes)
  findByType : store'.findByType = store.findByType
  findByScope : store'.findByScope = store.findByScope

def Store.putFirst (store : Store) (P : Policy → Bool) : Store :=
  { store with
    findByResource := fun r => Authz.putFirst P (store.findByResource r)
    findByResourceType := fun type => Authz.putFirst P (store.findByResourceType type)
    findByScopeIds := fun scopes => Authz.putFirst P (store.findByScopeIds scopes) }

theorem reordered_putFirst (store : Store) (P : Policy → Bool) :
    Reordered store (store.putFirst P) :=
  ⟨fun _ => putFirst_perm P _, fun _ => putFirst_perm P _, fun _ => putFirst_perm P _, rfl, rfl⟩

section

variable {store store' : Store} {server : ResourceServer} {permission : ResourcePermission}

theorem queries_putFirst (store : Store) (P : Policy → Bool) :
    queries (store.putFirst P) server permission =
      (queries store server permission).map (putFirst P) := by
  simp only [queries, Store.putFirst, List.map_append]
  congr 1
  · cases permission.resource with
    | none => rfl
    | some r =>
        simp only [List.map_cons]
        congr 1
        cases r.type with
        | none => rfl
        | some type =>
            simp only [List.map_cons]
            congr 1
            split <;> simp [Function.comp_def]
  · split <;> rfl

theorem queries_perm (h : Reordered store store') :
    List.Forall₂ List.Perm (queries store server permission)
      (queries store' server permission) := by
  have happend : ∀ {a b c d : List (List Policy)}, List.Forall₂ List.Perm a b →
      List.Forall₂ List.Perm c d → List.Forall₂ List.Perm (a ++ c) (b ++ d) :=
    fun hab hcd => List.rel_append hab hcd
  unfold queries
  apply happend
  · cases permission.resource with
    | none => exact .nil
    | some r =>
        refine .cons (h.findByResource r).symm ?_
        cases r.type with
        | none => exact .nil
        | some type =>
            refine .cons (h.findByResourceType type).symm ?_
            rw [h.findByType]
            split
            · rw [List.forall₂_map_left_iff, List.forall₂_map_right_iff]
              exact List.forall₂_same.mpr fun r' _ => (h.findByResource r').symm
            · exact .nil
  · split
    · exact .nil
    · exact .cons (h.findByScopeIds _).symm .nil

theorem mem_flatten_of_forall₂_perm {found found' : List (List Policy)}
    (h : List.Forall₂ List.Perm found found') (q : Policy) :
    q ∈ found'.flatten ↔ q ∈ found.flatten := by
  induction h with
  | nil => exact Iff.rfl
  | cons hl _ ih => simp only [List.flatten_cons, List.mem_append, ih, hl.mem_iff]

end

/-! ## One evaluation -/

section

variable (provider : Provider) (store : Store) (server : ResourceServer)
variable (includeResourceName : Bool) (permission : ResourcePermission)
variable (claims : Nat → Claims)

def unconditionalScopes : Finset Scope :=
  ((permission.resource.map Resource.scopes).getD permission.scopes).toFinset

def fedPairs (fed : List Policy) : Set (Option String × Finset String) :=
  if fed.isEmpty then
    if server.policyEnforcementMode = .permissive then
      pairsOf permission (some (unconditionalScopes permission))
    else ∅
  else if fed.all fun q => q.associatedPolicies.isEmpty then ∅
  else pairsOf permission (settleScopes permission (tallyOf provider permission fed))

variable {provider store server includeResourceName permission claims}

theorem grantedPairs_unconditional (s : State)
    (hnone : s.results.lookup permission.identity = none) :
    grantedPairs (onComplete store includeResourceName permission
        (grantWithoutPolicy permission s) []) =
      pairsOf permission (some (unconditionalScopes permission)) := by
  simp only [onComplete, lookup_grantWithoutPolicy hnone, completeResult]
  exact grantedPairs_grantPermission store includeResourceName _ _

theorem resultEntries_eq_nil {fed : List Policy} :
    resultEntries provider permission fed = [] ↔
      fed.all (fun q => q.associatedPolicies.isEmpty) = true := by
  rw [List.all_eq_true]
  constructor
  · intro hnil q hq
    by_contra hne
    have hcovers : q.id ∈ LinkedMap.keys (resultEntries provider permission fed) :=
      resultEntries_covers hq (by simpa using hne)
    simp [hnil] at hcovers
  · intro hall
    rw [List.eq_nil_iff_forall_not_mem]
    intro entry hentry
    obtain ⟨q, hq, hne, -⟩ := mem_resultEntries hentry
    exact hne (by simpa using hall q hq)

theorem run_pairs (hmode : server.policyEnforcementMode ≠ .disabled)
    (g : PolicyGraph (· ∈ (queries store server permission).flatten))
    (hpositive : ∀ p ∈ replayed (queries store server permission).flatten,
      p.logic = .positive) :
    ∃ permissions, grantedPermissions provider store server includeResourceName claims
        [permission] = some permissions ∧
      grantedPairs permissions =
        fedPairs provider server permission (queries store server permission).flatten := by
  obtain ⟨s, hfeed, hcases⟩ := feed_cached provider permission claims g
  have hgood : FeedGood provider true permission
      (· ∈ (queries store server permission).flatten) (State.initial claims)
      (queries store server permission).flatten
      (visitFed true [] [] (queries store server permission).flatten).2 s := by
    rcases hcases with ⟨-, hgood⟩ | ⟨⟨p, hp, hneg⟩, -⟩
    · exact hgood
    · rw [hpositive p hp] at hneg
      cases hneg
  have hrun : grantedPermissions provider store server includeResourceName claims [permission] =
      some (if (queries store server permission).flatten.isEmpty then
        (if server.policyEnforcementMode = .permissive then
          onComplete store includeResourceName permission (grantWithoutPolicy permission s) []
        else [])
      else onComplete store includeResourceName permission s []) := by
    simp only [grantedPermissions, evaluatePermissions, evaluatePermission_of_feed hmode hfeed,
      Option.bind_some, Option.map_some, Option.some.injEq]
    split
    · split <;> rfl
    · rfl
  refine ⟨_, hrun, ?_⟩
  unfold fedPairs
  split
  · rename_i hempty
    have hnil := List.isEmpty_iff.mp hempty
    split
    · apply grantedPairs_unconditional
      rw [hgood.result, hnil]
      rfl
    · simp [grantedPairs]
  · have hresult := hgood.result
    unfold resultOf at hresult
    split
    · rename_i hall
      rw [resultEntries_eq_nil.mpr hall] at hresult
      simp [onComplete, hresult, grantedPairs]
    · rename_i hall
      have hne : (resultEntries provider permission
          (queries store server permission).flatten).isEmpty = false := by
        rw [← Bool.not_eq_true, List.isEmpty_iff, resultEntries_eq_nil]
        exact hall
      rw [hne] at hresult
      simp only [Bool.false_eq_true, if_false] at hresult
      simp only [onComplete, hresult, completeResult]
      change grantedPairs (match settleScopes permission
        (tallyOf provider permission (queries store server permission).flatten) with
        | none => []
        | some scopes => _) = _
      cases settleScopes permission
        (tallyOf provider permission (queries store server permission).flatten) with
      | none => simp [grantedPairs, pairsOf]
      | some scopes => exact grantedPairs_grantPermission store includeResourceName _ scopes

theorem run_pairs_disabled (hmode : server.policyEnforcementMode = .disabled) :
    ∃ permissions, grantedPermissions provider store server includeResourceName claims
        [permission] = some permissions ∧
      grantedPairs permissions = pairsOf permission (some (unconditionalScopes permission)) := by
  refine ⟨onComplete store includeResourceName permission
    (grantWithoutPolicy permission (State.initial claims)) [], ?_, ?_⟩
  · simp [grantedPermissions, evaluatePermissions, evaluatePermission, hmode]
  · exact grantedPairs_unconditional _ rfl

theorem settleScopes_eq_of_blocked_iff {fed fed' : List Policy}
    (hunique : ∀ p ∈ fed, ∀ q ∈ fed, p.id = q.id → p = q) (hmem : ∀ q, q ∈ fed' ↔ q ∈ fed)
    (hblocked : Blocked provider permission fed ↔ Blocked provider permission fed') :
    settleScopes permission (tallyOf provider permission fed) =
      settleScopes permission (tallyOf provider permission fed') := by
  have h : TallySpec provider permission fed (tallyOf provider permission fed) :=
    tallyOf_spec hunique
  have h' : TallySpec provider permission fed' (tallyOf provider permission fed') :=
    tallyOf_spec fun p hp q hq => hunique p ((hmem p).mp hp) q ((hmem q).mp hq)
  apply settleScopes_congr
  · ext x
    simp only [h.granted, h'.granted, hmem]
  · ext x
    simp only [h.denied, h'.denied, hmem, hblocked]
  · intro q
    simp only [h.userManaged, h'.userManaged, hmem]
  · rw [Bool.eq_iff_iff, h.resourceGranted, h'.resourceGranted]
    simp only [hmem]
  · rw [Bool.eq_iff_iff, h.anyDeny, h'.anyDeny]
    simp only [hmem]

theorem fedPairs_eq {fed fed' : List Policy}
    (hunique : ∀ p ∈ fed, ∀ q ∈ fed, p.id = q.id → p = q) (hmem : ∀ q, q ∈ fed' ↔ q ∈ fed)
    (h : (Blocked provider permission fed ↔ Blocked provider permission fed') ∨
      ((∃ q ∈ fed, Opens provider permission q) ∧ (∃ q ∈ fed, Blocks provider permission q) ∧
        ¬ Relevant provider permission fed)) :
    fedPairs provider server permission fed = fedPairs provider server permission fed' := by
  have hempty : fed'.isEmpty = fed.isEmpty := by
    rw [Bool.eq_iff_iff, List.isEmpty_iff, List.isEmpty_iff, List.eq_nil_iff_forall_not_mem,
      List.eq_nil_iff_forall_not_mem]
    simp only [hmem]
  have hall : fed'.all (fun q => q.associatedPolicies.isEmpty) =
      fed.all (fun q => q.associatedPolicies.isEmpty) := by
    rw [Bool.eq_iff_iff, List.all_eq_true, List.all_eq_true]
    simp only [hmem]
  unfold fedPairs
  rw [hempty, hall]
  by_cases hblocked : Blocked provider permission fed ↔ Blocked provider permission fed'
  · rw [settleScopes_eq_of_blocked_iff hunique hmem hblocked]
  · obtain ⟨hopens, hblocks, hrelevant⟩ := h.resolve_left hblocked
    have hspec : TallySpec provider permission fed (tallyOf provider permission fed) :=
      tallyOf_spec hunique
    have hspec' : TallySpec provider permission fed' (tallyOf provider permission fed') :=
      tallyOf_spec fun p hp q hq => hunique p ((hmem p).mp hp) q ((hmem q).mp hq)
    have hpairs : pairsOf permission (settleScopes permission (tallyOf provider permission fed)) =
        pairsOf permission (settleScopes permission (tallyOf provider permission fed')) := by
      by_cases hfed : Blocked provider permission fed
      · have hfed' : ¬ Blocked provider permission fed' := fun hb =>
          hblocked ⟨fun _ => hb, fun _ => hfed⟩
        exact (pairsOf_eq_iff hspec hspec' hmem hopens hblocks hfed hfed').mpr hrelevant
      · have hfed' : Blocked provider permission fed' := by
          by_contra hb
          exact hblocked ⟨fun h => (hfed h).elim, fun h => (hb h).elim⟩
        have hrelevant' : ¬ Relevant provider permission fed' := by
          simpa only [Relevant, Survives, hmem] using hrelevant
        refine ((pairsOf_eq_iff hspec' hspec (fun q => (hmem q).symm) ?_ ?_ hfed' hfed).mpr
          hrelevant').symm
        · simpa only [hmem] using hopens
        · simpa only [hmem] using hblocks
    rw [hpairs]

theorem mem_flatten_map_putFirst {P : Policy → Bool} {found : List (List Policy)} {q : Policy} :
    q ∈ (found.map (putFirst P)).flatten ↔ q ∈ found.flatten := by
  induction found with
  | nil => exact Iff.rfl
  | cons l rest ih =>
      simp only [List.map_cons, List.flatten_cons, List.mem_append, mem_putFirst, ih]

/-- The two extreme orders grant different pairs when the same query finds both kinds of
policies and a relevant scope survives. -/
theorem fedPairs_ne {found : List (List Policy)}
    (hunique : ∀ p ∈ found.flatten, ∀ q ∈ found.flatten, p.id = q.id → p = q)
    (hboth : FindsBoth provider permission found)
    (hrelevant : Relevant provider permission found.flatten) :
    fedPairs provider server permission
        (found.map (putFirst fun q => decide (Blocks provider permission q))).flatten ≠
      fedPairs provider server permission
        (found.map (putFirst fun q => decide (Opens provider permission q))).flatten := by
  have hspec : ∀ P : Policy → Bool, TallySpec provider permission
      (found.map (putFirst P)).flatten
      (tallyOf provider permission (found.map (putFirst P)).flatten) := by
    intro P
    apply tallyOf_spec
    simpa only [mem_flatten_map_putFirst] using hunique
  have hopens : ∃ q ∈ found.flatten, Opens provider permission q := by
    obtain ⟨before, l, after, rfl, -, ⟨q, hq, hopens⟩, -⟩ := hboth
    exact ⟨q, by simp [hq], hopens⟩
  have hblocks : ∃ q ∈ found.flatten, Blocks provider permission q := by
    obtain ⟨before, l, after, rfl, -, -, q, hq, hblocks⟩ := hboth
    exact ⟨q, by simp [hq], hblocks⟩
  have hconsulted : ∀ P : Policy → Bool, fedPairs provider server permission
      (found.map (putFirst P)).flatten = pairsOf permission (settleScopes permission
        (tallyOf provider permission (found.map (putFirst P)).flatten)) := by
    intro P
    obtain ⟨q, hq, hopen⟩ := hopens
    have hmem : q ∈ (found.map (putFirst P)).flatten := mem_flatten_map_putFirst.mpr hq
    have hne : (found.map (putFirst P)).flatten.isEmpty = false := by
      cases hempty : (found.map (putFirst P)).flatten with
      | nil => simp [hempty] at hmem
      | cons => rfl
    have hall : ¬ (found.map (putFirst P)).flatten.all
        (fun q => q.associatedPolicies.isEmpty) = true := by
      rw [List.all_eq_true]
      intro hall
      exact hopen.1.1 (by simpa using hall q hmem)
    unfold fedPairs
    rw [hne, if_neg (by decide), if_neg hall]
  rw [hconsulted, hconsulted]
  intro heq
  have hiff := pairsOf_eq_iff (hspec fun q => decide (Blocks provider permission q))
    (hspec fun q => decide (Opens provider permission q))
    (fun q => by simp only [mem_flatten_map_putFirst])
    (by simpa only [mem_flatten_map_putFirst] using hopens)
    (by simpa only [mem_flatten_map_putFirst] using hblocks)
    (blocked_of_blocks_first hboth) (not_blocked_of_opens_first hboth)
  refine hiff.mp heq ?_
  simpa only [Relevant, Survives, mem_flatten_map_putFirst] using hrelevant

theorem mem_queries_of_reordered {store' : Store} (hstore : Reordered store store') (q : Policy) :
    q ∈ (queries store' server permission).flatten ↔
      q ∈ (queries store server permission).flatten :=
  mem_flatten_of_forall₂_perm (queries_perm hstore) q

theorem PolicyGraph.reordered (g : PolicyGraph (· ∈ (queries store server permission).flatten))
    {store' : Store} (hstore : Reordered store store') :
    PolicyGraph (· ∈ (queries store' server permission).flatten) := by
  have hroots : (fun q => q ∈ (queries store' server permission).flatten) =
      fun q => q ∈ (queries store server permission).flatten :=
    funext fun q => propext (mem_queries_of_reordered hstore q)
  rw [hroots]
  exact g

/-- The granted pairs of any two orders agree when no query finds both kinds of policies
first, or nothing relevant survives. -/
theorem fedPairs_eq_of_reordered
    (g : PolicyGraph (· ∈ (queries store server permission).flatten)) {store₁ store₂ : Store}
    (hstore₁ : Reordered store store₁) (hstore₂ : Reordered store store₂)
    (h : ¬ FindsBoth provider permission (queries store server permission) ∨
      ¬ Relevant provider permission (queries store server permission).flatten) :
    fedPairs provider server permission (queries store₁ server permission).flatten =
      fedPairs provider server permission (queries store₂ server permission).flatten := by
  have hmem₁ : ∀ q, q ∈ (queries store₁ server permission).flatten ↔
      q ∈ (queries store server permission).flatten := mem_queries_of_reordered hstore₁
  apply fedPairs_eq fun p hp q hq => (g.reordered hstore₁).root_unique hp hq
  · intro q
    rw [hmem₁, mem_queries_of_reordered hstore₂]
  · by_cases hboth : FindsBoth provider permission (queries store server permission)
    · have hrelevant := h.resolve_left (not_not.mpr hboth)
      obtain ⟨before, l, after, hfound, -, ⟨p, hp, hopens⟩, q, hq, hblocks⟩ := hboth
      refine .inr ⟨⟨p, ?_, hopens⟩, ⟨q, ?_, hblocks⟩, ?_⟩
      · rw [hmem₁, hfound]
        simp [hp]
      · rw [hmem₁, hfound]
        simp [hq]
      · simpa only [Relevant, Survives, hmem₁] using hrelevant
    · have hblocked₁ := blocked_iff_of_perm
        (queries_perm hstore₁ : List.Forall₂ _ (queries store server permission) _) hboth
      have hblocked₂ := blocked_iff_of_perm
        (queries_perm hstore₂ : List.Forall₂ _ (queries store server permission) _) hboth
      exact .inl (hblocked₁.symm.trans hblocked₂)

end

/-- For every resource permission and every store that replays only policies with positive
logic, the granted pairs do not depend on the order within the policy queries if and only
if the policies are not consulted, or the first query that finds a policy opening the
resource or a denied resource permission does not find both, or no scope survives that
would make a difference. -/
theorem orderIndependent_iff (provider : Provider) (store : Store) (server : ResourceServer)
    (includeResourceName : Bool) (permission : ResourcePermission) (claims : Nat → Claims)
    (g : PolicyGraph (· ∈ (queries store server permission).flatten))
    (hpositive : ∀ store', Reordered store store' →
      ∀ p ∈ replayed (queries store' server permission).flatten, p.logic = .positive) :
    (∀ store₁ store₂, Reordered store store₁ → Reordered store store₂ →
      ∃ permissions₁ permissions₂,
        grantedPermissions provider store₁ server includeResourceName claims [permission] =
          some permissions₁ ∧
        grantedPermissions provider store₂ server includeResourceName claims [permission] =
          some permissions₂ ∧
        grantedPairs permissions₁ = grantedPairs permissions₂) ↔
    (server.policyEnforcementMode = .disabled ∨
      ¬ FindsBoth provider permission (queries store server permission) ∨
      ¬ Relevant provider permission (queries store server permission).flatten) := by
  by_cases hmode : server.policyEnforcementMode = .disabled
  · refine ⟨fun _ => .inl hmode, fun _ store₁ store₂ _ _ => ?_⟩
    obtain ⟨permissions₁, hrun₁, hpairs₁⟩ := run_pairs_disabled hmode
    obtain ⟨permissions₂, hrun₂, hpairs₂⟩ := run_pairs_disabled hmode
    exact ⟨permissions₁, permissions₂, hrun₁, hrun₂, hpairs₁.trans hpairs₂.symm⟩
  · have hrun : ∀ store', Reordered store store' → ∃ permissions,
        grantedPermissions provider store' server includeResourceName claims [permission] =
          some permissions ∧
        grantedPairs permissions =
          fedPairs provider server permission (queries store' server permission).flatten :=
      fun store' hstore => run_pairs hmode (g.reordered hstore) (hpositive store' hstore)
    constructor
    · intro hsame
      refine .inr (not_and_or.mp fun ⟨hboth, hrelevant⟩ => ?_)
      -- the two extreme orders of the query that finds both
      have hblocksFirst := reordered_putFirst store
        fun q => decide (Blocks provider permission q)
      have hopensFirst := reordered_putFirst store
        fun q => decide (Opens provider permission q)
      obtain ⟨p₁, p₂, hrun₁, hrun₂, hpairs⟩ := hsame _ _ hblocksFirst hopensFirst
      obtain ⟨p₁', hrun₁', hpairs₁⟩ := hrun _ hblocksFirst
      obtain ⟨p₂', hrun₂', hpairs₂⟩ := hrun _ hopensFirst
      have heq₁ : p₁' = p₁ := Option.some.inj (hrun₁'.symm.trans hrun₁)
      have heq₂ : p₂' = p₂ := Option.some.inj (hrun₂'.symm.trans hrun₂)
      subst heq₁ heq₂
      have hfed := hpairs₁.symm.trans (hpairs.trans hpairs₂)
      rw [queries_putFirst, queries_putFirst] at hfed
      exact fedPairs_ne (fun p hp q hq => g.root_unique hp hq) hboth hrelevant hfed
    · intro hcondition store₁ store₂ hstore₁ hstore₂
      obtain ⟨permissions₁, hrun₁, hpairs₁⟩ := hrun store₁ hstore₁
      obtain ⟨permissions₂, hrun₂, hpairs₂⟩ := hrun store₂ hstore₂
      refine ⟨permissions₁, permissions₂, hrun₁, hrun₂, ?_⟩
      rw [hpairs₁, hpairs₂]
      exact fedPairs_eq_of_reordered g hstore₁ hstore₂ (hcondition.resolve_left hmode)

/-! ## A granted and a denied resource permission -/

def document : Resource :=
  ⟨"document", "Document", some "file", "server", false, [⟨"read", "read"⟩]⟩

def documentPermission (id policy : String) : Policy :=
  .mk ⟨id, .resource, .positive, .unanimous, [document], []⟩
    [.mk ⟨policy, .other "user", .positive, .unanimous, [], []⟩ []]

def allowOnly : Provider := fun p _ => if p.id = "allow" then [.grant] else [.deny]

def allowing : Policy := documentPermission "allowing" "allow"

def denying : Policy := documentPermission "denying" "deny"

def documentStore (byResource byType : List Policy) : Store where
  findByResource _ := byResource
  findByResourceType _ := byType
  findByScopeIds _ := []
  findByType _ := [document]
  findByScope _ := [document]

def documentServer : ResourceServer := ⟨"server", .enforcing⟩

def readDocument : ResourcePermission := ⟨0, some document, [⟨"read", "read"⟩]⟩

theorem documentPermissions_graph {roots : Policy → Prop}
    (hroots : ∀ p, roots p → p = allowing ∨ p = denying) : PolicyGraph roots := by
  have hbelow : ∀ p, Below roots p →
      p = .mk ⟨"allow", .other "user", .positive, .unanimous, [], []⟩ [] ∨
      p = .mk ⟨"deny", .other "user", .positive, .unanimous, [], []⟩ [] := by
    rintro p ⟨q, hq, a, ha, hp⟩
    rcases hroots q hq with rfl | rfl
    · left
      have heq := List.mem_singleton.mp ha
      subst heq
      simpa [Policy.subpolicies] using hp
    · right
      have heq := List.mem_singleton.mp ha
      subst heq
      simpa [Policy.subpolicies] using hp
  have hall : ∀ p, (roots p ∨ Below roots p) → p = allowing ∨ p = denying ∨
      p = .mk ⟨"allow", .other "user", .positive, .unanimous, [], []⟩ [] ∨
      p = .mk ⟨"deny", .other "user", .positive, .unanimous, [], []⟩ [] := by
    rintro p (hp | hp)
    · exact (hroots p hp).elim .inl fun h => .inr (.inl h)
    · exact .inr (.inr (hbelow p hp))
  refine ⟨fun p hp => ?_, fun p hp => ?_, fun p q hp hq hid => ?_, fun p hp => ?_⟩
  · rcases hroots p hp with rfl | rfl <;> exact .inl rfl
  · rcases hbelow p hp with rfl | rfl <;>
      simp [Policy.IsPermission, Policy.type, Policy.data]
  · rcases hall p hp with rfl | rfl | rfl | rfl <;> rcases hall q hq with rfl | rfl | rfl | rfl <;>
      first
      | rfl
      | exact absurd hid (by decide)
  · rcases hall p hp with rfl | rfl | rfl | rfl <;>
      simp [allowing, denying, documentPermission, Policy.associatedPolicies]

/-- The two permissions, found by different queries, grant the same in every order. -/
theorem readDocument_orderIndependent :
    ¬ FindsBoth allowOnly readDocument
        (queries (documentStore [allowing] [denying]) documentServer readDocument) ∧
    ∀ store₁ store₂, Reordered (documentStore [allowing] [denying]) store₁ →
      Reordered (documentStore [allowing] [denying]) store₂ →
      ∃ permissions₁ permissions₂,
        grantedPermissions allowOnly store₁ documentServer true (fun _ => []) [readDocument] =
          some permissions₁ ∧
        grantedPermissions allowOnly store₂ documentServer true (fun _ => []) [readDocument] =
          some permissions₂ ∧
        grantedPairs permissions₁ = grantedPairs permissions₂ := by
  have hqueries : queries (documentStore [allowing] [denying]) documentServer readDocument =
      [[allowing], [denying], []] := rfl
  have hroots : ∀ p, p ∈ (queries (documentStore [allowing] [denying]) documentServer
      readDocument).flatten → p = allowing ∨ p = denying := by
    rw [hqueries]
    simp
  have hapart : ¬ FindsBoth allowOnly readDocument
      (queries (documentStore [allowing] [denying]) documentServer readDocument) := by
    rw [hqueries]
    rintro ⟨before, l, after, hfound, -, ⟨p, hp, hopens⟩, q, hq, hblocks⟩
    have hl : l ∈ [[allowing], [denying], []] := by
      rw [hfound]
      simp
    have hallowing : ¬ Blocks allowOnly readDocument allowing := by decide
    have hdenying : ¬ Opens allowOnly readDocument denying := by decide
    simp only [List.mem_cons, List.not_mem_nil, or_false] at hl
    rcases hl with rfl | rfl | rfl
    · exact hallowing (List.mem_singleton.mp hq ▸ hblocks)
    · exact hdenying (List.mem_singleton.mp hp ▸ hopens)
    · simp at hp
  refine ⟨hapart, (orderIndependent_iff allowOnly (documentStore [allowing] [denying])
    documentServer true readDocument (fun _ => []) (documentPermissions_graph hroots) ?_).mpr
    (.inr (.inl hapart))⟩
  intro store' hstore p hp
  obtain ⟨q, hq, a, ha, hpa⟩ := visitFed_replayed hp
  have hq' := hroots q ((mem_flatten_of_forall₂_perm (queries_perm hstore) q).mp hq)
  rcases hq' with rfl | rfl
  · have heq := List.mem_singleton.mp ha
    subst heq
    have heq' := List.mem_singleton.mp hpa
    subst heq'
    rfl
  · have heq := List.mem_singleton.mp ha
    subst heq
    have heq' := List.mem_singleton.mp hpa
    subst heq'
    rfl

/-- Found by the same query, they grant the scope in one order and nothing in the other. -/
theorem readDocument_orderDependent :
    Reordered (documentStore [allowing, denying] []) (documentStore [denying, allowing] []) ∧
    ∃ permissions,
      grantedPermissions allowOnly (documentStore [allowing, denying] []) documentServer true
        (fun _ => []) [readDocument] = some permissions ∧
      (some "document", {"read"}) ∈ grantedPairs permissions ∧
      grantedPermissions allowOnly (documentStore [denying, allowing] []) documentServer true
        (fun _ => []) [readDocument] = some [] ∧
      grantedPairs [] = ∅ := by
  refine ⟨⟨fun _ => List.Perm.swap _ _ _, fun _ => .refl _, fun _ => .refl _, rfl, rfl⟩,
    _, rfl, ?_, rfl, ?_⟩
  · exact ⟨_, List.mem_singleton_self _, rfl⟩
  · simp [grantedPairs]

end Keycloak.Authz
