import Keycloak.Authz.Decisions

/-!
# Role policies

`RolePolicyProvider` reports a grant for each role that the identity holds, and a denial, at which
it stops, for a required role that it does not hold.  The last report is the one that is recorded.
-/

namespace Keycloak.Authz.RolePolicyProvider

structure RoleModel where
  name : String
  isClientRole : Bool
  containerId : String

structure RoleDefinition where
  id : String
  required : Bool

/-- The roles of a realm; the container of a client role is one of its clients. -/
structure RealmModel where
  getRoleById : String → Option RoleModel
  getClientById : String → Option String
  container : ∀ id role, getRoleById id = some role → role.isClientRole = true →
    (getClientById role.containerId).isSome

structure RoleIdentity where
  hasRealmRole : String → Bool
  hasClientRole : String → String → Bool

section

variable (realm : RealmModel) (identity : RoleIdentity)

/-- `none` is a null pointer, for a client role without a client. -/
def hasRole (role : RoleModel) : Option Bool :=
  if role.isClientRole then
    (realm.getClientById role.containerId).map fun clientId =>
      identity.hasClientRole clientId role.name
  else some (identity.hasRealmRole role.name)

def evaluate : List RoleDefinition → DefaultEvaluation → State →
    Option (DefaultEvaluation × State)
  | [], e, s => some (e, s)
  | roleDefinition :: rest, e, s =>
      match realm.getRoleById roleDefinition.id with
      | none => evaluate rest e s
      | some role =>
          match hasRole realm identity role with
          | none => none
          | some hasRole =>
              if !hasRole && roleDefinition.required then deny e s
              else if hasRole then (grant e s).bind fun (e, s) => evaluate rest e s
              else evaluate rest e s

def Held (roleDefinition : RoleDefinition) : Prop :=
  ∃ role, realm.getRoleById roleDefinition.id = some role ∧
    hasRole realm identity role = some true

/-- The definition is required and its role exists, but the identity does not hold it. -/
def Missed (roleDefinition : RoleDefinition) : Prop :=
  roleDefinition.required = true ∧ (realm.getRoleById roleDefinition.id).isSome ∧
    ¬ Held realm identity roleDefinition

end

section

variable {realm : RealmModel} {identity : RoleIdentity}

variable (identity) in
theorem exists_hasRole {id : String} {role : RoleModel} (h : realm.getRoleById id = some role) :
    ∃ held, hasRole realm identity role = some held := by
  rw [hasRole]
  by_cases hclient : role.isClientRole = true
  · obtain ⟨clientId, hclientId⟩ := Option.isSome_iff_exists.mp (realm.container id role h hclient)
    rw [if_pos hclient, hclientId]
    exact ⟨_, rfl⟩
  · rw [if_neg hclient]
    exact ⟨_, rfl⟩

theorem held_iff {d : RoleDefinition} {role : RoleModel} {held : Bool}
    (hrole : realm.getRoleById d.id = some role)
    (hheld : hasRole realm identity role = some held) :
    Held realm identity d ↔ held = true := by
  constructor
  · intro ⟨role', hrole', htrue⟩
    rw [hrole] at hrole'
    cases hrole'
    rw [hheld] at htrue
    exact Option.some.inj htrue
  · intro htrue
    exact ⟨role, hrole, htrue ▸ hheld⟩

theorem missed_iff {d : RoleDefinition} {role : RoleModel} {held : Bool}
    (hrole : realm.getRoleById d.id = some role)
    (hheld : hasRole realm identity role = some held) :
    Missed realm identity d ↔ held = false ∧ d.required = true := by
  rw [Missed, held_iff hrole hheld, hrole, Bool.not_eq_true]
  simp only [Option.isSome_some, true_and]
  exact and_comm

theorem not_held_of_getRoleById {d : RoleDefinition} (hrole : realm.getRoleById d.id = none) :
    ¬ Held realm identity d := by
  intro ⟨role, hsome, _⟩
  rw [hrole] at hsome
  cases hsome

theorem not_missed_of_getRoleById {d : RoleDefinition} (hrole : realm.getRoleById d.id = none) :
    ¬ Missed realm identity d := by
  intro ⟨_, hsome, _⟩
  rw [hrole] at hsome
  cases hsome

variable (realm identity) in
/-- What the last report of the provider says: a denial that some required role is missed, a
grant that none is and some role is held. -/
def Amounts (definitions : List RoleDefinition) : Option Effect → Prop
  | some .deny => ∃ d ∈ definitions, Missed realm identity d
  | some .permit =>
      (∀ d ∈ definitions, ¬ Missed realm identity d) ∧ ∃ d ∈ definitions, Held realm identity d
  | none => ∀ d ∈ definitions, ¬ Missed realm identity d ∧ ¬ Held realm identity d

theorem amounts_skip {d : RoleDefinition} {rest : List RoleDefinition} {last : Option Effect}
    (h : Amounts realm identity rest last) (hmissed : ¬ Missed realm identity d)
    (hheld : ¬ Held realm identity d) : Amounts realm identity (d :: rest) last := by
  match last with
  | some .deny =>
      rw [Amounts, List.exists_mem_cons_iff]
      exact .inr h
  | some .permit =>
      rw [Amounts, List.forall_mem_cons, List.exists_mem_cons_iff]
      exact ⟨⟨hmissed, h.1⟩, .inr h.2⟩
  | none =>
      rw [Amounts, List.forall_mem_cons]
      exact ⟨⟨hmissed, hheld⟩, h⟩

theorem amounts_grant {d : RoleDefinition} {rest : List RoleDefinition} {last : Option Effect}
    (h : Amounts realm identity rest last) (hheld : Held realm identity d) :
    Amounts realm identity (d :: rest) (last.or (some .permit)) := by
  have hmissed : ¬ Missed realm identity d := fun hmissed => hmissed.2.2 hheld
  match last with
  | some .deny =>
      show ∃ d' ∈ d :: rest, Missed realm identity d'
      rw [List.exists_mem_cons_iff]
      exact .inr h
  | some .permit =>
      show (∀ d' ∈ d :: rest, ¬ Missed realm identity d') ∧ ∃ d' ∈ d :: rest, Held realm identity d'
      rw [List.forall_mem_cons]
      exact ⟨⟨hmissed, h.1⟩, d, List.mem_cons_self, hheld⟩
  | none =>
      show (∀ d' ∈ d :: rest, ¬ Missed realm identity d') ∧ ∃ d' ∈ d :: rest, Held realm identity d'
      rw [List.forall_mem_cons]
      exact ⟨⟨hmissed, fun d' hd' => (h d' hd').1⟩, d, List.mem_cons_self, hheld⟩

variable (realm identity) in
theorem exists_calls (definitions : List RoleDefinition) :
    ∃ calls, (∀ e s, evaluate realm identity definitions e s = runCalls calls e s) ∧
      Amounts realm identity definitions (lastDecision calls) := by
  induction definitions with
  | nil => exact ⟨[], fun e s => rfl, fun d hd => absurd hd List.not_mem_nil⟩
  | cons d rest ih =>
      obtain ⟨calls, hcalls, hamounts⟩ := ih
      cases hrole : realm.getRoleById d.id with
      | none =>
          have hskip := amounts_skip hamounts (not_missed_of_getRoleById hrole)
            (not_held_of_getRoleById hrole)
          refine ⟨calls, fun e s => ?_, hskip⟩
          rw [evaluate, hrole]
          exact hcalls e s
      | some role =>
          obtain ⟨held, hheld⟩ := exists_hasRole identity hrole
          have hheld_iff := held_iff hrole hheld
          have hmissed_iff := missed_iff hrole hheld
          cases held with
          | true =>
              refine ⟨.grant :: calls, fun e s => ?_, amounts_grant hamounts (hheld_iff.mpr rfl)⟩
              simp only [evaluate, hrole, hheld, Bool.not_true, Bool.false_and, if_true, hcalls]
              rfl
          | false =>
              cases hrequired : d.required with
              | true =>
                  refine ⟨[.deny], fun e s => ?_, d, List.mem_cons_self,
                    hmissed_iff.mpr ⟨rfl, hrequired⟩⟩
                  simp only [evaluate, hrole, hheld, hrequired, Bool.not_false, Bool.and_self,
                    if_true, runCalls, runCall]
                  exact (Option.bind_fun_some _).symm
              | false =>
                  have hskip := amounts_skip hamounts (fun h => by
                    have hand := hmissed_iff.mp h
                    rw [hrequired] at hand
                    cases hand.2) (fun h => by cases hheld_iff.mp h)
                  refine ⟨calls, fun e s => ?_, hskip⟩
                  simp only [evaluate, hrole, hheld, hrequired, Bool.and_false, hcalls]
                  rfl

theorem lastDecision_permit_iff {definitions : List RoleDefinition} {last : Option Effect}
    (h : Amounts realm identity definitions last) :
    last.getD .deny = .permit ↔ (∀ d ∈ definitions, ¬ Missed realm identity d) ∧
      ∃ d ∈ definitions, Held realm identity d := by
  match last with
  | some .permit => exact iff_of_true rfl h
  | some .deny =>
      apply iff_of_false
      · intro hpermit
        cases hpermit
      · intro ⟨hnone, _⟩
        obtain ⟨d, hd, hmissed⟩ := h
        exact hnone d hd hmissed
  | none =>
      apply iff_of_false
      · intro hpermit
        cases hpermit
      · intro ⟨_, d, hd, hheld⟩
        exact (h d hd).2 hheld

end

/-- Whatever the order in which the set of a positive policy lists its definitions, the effect
that is recorded for the policy is a permit exactly when every required role that exists is
held, and some role that exists is held. -/
theorem recorded_permit_iff (realm : RealmModel) (identity : RoleIdentity)
    {roles definitions : List RoleDefinition} (horder : definitions.Perm roles) {p : Policy}
    (hlogic : p.logic = .positive) {e : DefaultEvaluation} (hne : e.parentPolicy.id ≠ p.id)
    (s : State) :
    ∃ e₁ s₁ e₂ s₂ x, evaluate realm identity definitions (e.setPolicy p) s = some (e₁, s₁) ∧
      denyIfNoEffect e₁ s₁ = some (e₂, s₂) ∧
      RecordsIn e.permission.identity s₂.results e.parentPolicy.id p.id x ∧
      (x = .permit ↔
        (∀ d ∈ roles, d.required = true → (realm.getRoleById d.id).isSome →
          Held realm identity d) ∧ ∃ d ∈ roles, Held realm identity d) := by
  obtain ⟨calls, hcalls, hamounts⟩ := exists_calls realm identity definitions
  obtain ⟨e₁, s₁, s₂, hrun, hdeny, -, -, -, hresults⟩ :=
    runCalls_denyIfNoEffect (e := e.setPolicy p) rfl hne rfl calls s
  refine ⟨e₁, s₁, _, s₂, p.logic.apply ((lastDecision calls).getD .deny),
    (hcalls _ s).trans hrun, hdeny, ?_, ?_⟩
  · rw [hresults]
    refine ⟨_, _, LinkedMap.lookup_alter_self _ _ _, LinkedMap.lookup_alter_self _ _ _, ?_⟩
    exact LinkedMap.lookup_alter_self _ _ _
  · rw [hlogic]
    show (lastDecision calls).getD .deny = .permit ↔ _
    rw [lastDecision_permit_iff hamounts]
    simp only [Missed, not_and, not_not, horder.mem_iff]

/-! ## A required and an optional role -/

def officeRealm : RealmModel where
  getRoleById id :=
    if id = "manager" then some ⟨"manager", false, "office"⟩
    else if id = "auditor" then some ⟨"auditor", true, "ledger"⟩
    else none
  getClientById id := if id = "ledger" then some "ledger-client" else none
  container id role hrole hclient := by
    split at hrole
    · cases hrole
      cases hclient
    · split at hrole
      · cases hrole
        rfl
      · cases hrole

def officeManager : RoleIdentity := ⟨fun name => name == "manager", fun _ _ => false⟩

def officeRoles : List RoleDefinition := [⟨"manager", true⟩, ⟨"auditor", false⟩, ⟨"clerk", true⟩]

def officePolicy : Policy :=
  .mk ⟨"policy", .other "role", .positive, .unanimous, [], []⟩ []

def officeEvaluation : DefaultEvaluation :=
  ⟨⟨0, none, []⟩, .mk ⟨"permission", .scope, .positive, .unanimous, [], []⟩ [officePolicy],
    none, none⟩

theorem officeRoles_permit :
    ∃ e₁ s₁ e₂ s₂, evaluate officeRealm officeManager officeRoles.reverse
        (officeEvaluation.setPolicy officePolicy) (.initial fun _ => []) = some (e₁, s₁) ∧
      denyIfNoEffect e₁ s₁ = some (e₂, s₂) ∧
      RecordsIn 0 s₂.results "permission" "policy" .permit := by
  obtain ⟨e₁, s₁, e₂, s₂, x, hrun, hdeny, hrecord, hpermit⟩ :=
    recorded_permit_iff officeRealm officeManager officeRoles.reverse_perm
      (show officePolicy.logic = .positive by decide)
      (show officeEvaluation.parentPolicy.id ≠ officePolicy.id by decide) (.initial fun _ => [])
  have hmanager : Held officeRealm officeManager ⟨"manager", true⟩ := ⟨_, rfl, by decide⟩
  have hx : x = .permit := by
    apply hpermit.mpr
    refine ⟨?_, _, List.mem_cons_self, hmanager⟩
    intro d hd hrequired hsome
    simp only [officeRoles, List.mem_cons, List.not_mem_nil, or_false] at hd
    rcases hd with rfl | rfl | rfl
    · exact hmanager
    · cases hrequired
    · cases hsome
  exact ⟨e₁, s₁, e₂, s₂, hrun, hdeny, hx ▸ hrecord⟩

end Keycloak.Authz.RolePolicyProvider
