import Keycloak.Lib.Machine
import Mathlib.Data.Finset.Basic
import Mathlib.Logic.Function.Basic

/-!
# Permission tickets and the policies made for them

The tickets of user-managed access with the policies that `UserManagedPermissionUtil`
keeps for the granted ones, over the two database tables.  A ticket or policy is a row
under its id; ids come from one counter.  One resource server is modelled.

`nullDereference` is ghost state: some operation so far ended in a
`NullPointerException`.  Such an operation leaves the tables as they were.
-/

namespace Keycloak.Authz.Uma

inductive PolicyType where
  | user
  | uma
  deriving DecidableEq, Repr

structure Policy (U R S : Type) where
  type : PolicyType
  owner : U
  users : List U
  associatedPolicies : List Nat
  resources : List R
  scopes : Finset S
  deriving DecidableEq

structure PermissionTicketEntity (U R S : Type) where
  owner : U
  requester : U
  resource : R
  scope : Option S
  grantedTimestamp : Option Int
  policy : Option Nat
  deriving DecidableEq

structure Store (U R S : Type) where
  tickets : Nat → Option (PermissionTicketEntity U R S)
  policies : Nat → Option (Policy U R S)
  nextId : Nat
  nullDereference : Bool

/-- What is given: the owner of a resource, and the order in which the database returns
the rows of a query, which the query leaves open for the tickets of one resource. -/
structure Database (U R S : Type) where
  resourceOwner : R → U
  rows : List (PermissionTicketEntity U R S) → List (PermissionTicketEntity U R S)
  rows_perm : ∀ l, (rows l).Perm l

section Code

variable {U R S : Type} [DecidableEq U] [DecidableEq R] [DecidableEq S]

def PermissionTicketEntity.isGranted (ticket : PermissionTicketEntity U R S) : Bool :=
  ticket.grantedTimestamp.isSome

/-- The filters of both queries on the owner, the requester and the resource. -/
def PermissionTicketEntity.sameTriple (ticket other : PermissionTicketEntity U R S) : Bool :=
  other.owner = ticket.owner && other.requester = ticket.requester &&
    other.resource = ticket.resource

namespace Store

def initial : Store U R S := ⟨fun _ => none, fun _ => none, 0, false⟩

def find (db : Database U R S) (s : Store U R S)
    (filter : PermissionTicketEntity U R S → Bool) : List (PermissionTicketEntity U R S) :=
  db.rows ((List.range s.nextId).filterMap fun id => (s.tickets id).filter filter)

/-- `PermissionTicketAdapter.getPolicy`: the id of the policy, if the policy is there. -/
def getPolicy (s : Store U R S) (ticket : PermissionTicketEntity U R S) : Option Nat :=
  ticket.policy.filter fun policy => (s.policies policy).isSome

def updateTicket (s : Store U R S) (id : Nat) (ticket : PermissionTicketEntity U R S) :
    Store U R S :=
  { s with tickets := Function.update s.tickets id (some ticket) }

def updateScopes (s : Store U R S) (id : Nat) (f : Finset S → Finset S) : Store U R S :=
  { s with
    policies := Function.update s.policies id
      ((s.policies id).map fun policy => { policy with scopes := f policy.scopes }) }

def addScope (s : Store U R S) (policy : Nat) (scope : S) : Store U R S :=
  s.updateScopes policy (insert scope)

def removeScope (s : Store U R S) (policy : Nat) (scope : S) : Store U R S :=
  s.updateScopes policy (·.erase scope)

def createPolicy (s : Store U R S) (policy : Policy U R S) : Store U R S × Nat :=
  ({ s with
      policies := Function.update s.policies s.nextId (some policy)
      nextId := s.nextId + 1 },
    s.nextId)

def deletePolicy (s : Store U R S) (id : Nat) : Store U R S :=
  { s with policies := Function.update s.policies id none }

def createUserManagedPermission (s : Store U R S) (ticket : PermissionTicketEntity U R S) :
    Store U R S × Nat :=
  let (s, userPolicy) := s.createPolicy ⟨.user, ticket.owner, [ticket.requester], [], [], ∅⟩
  s.createPolicy
    ⟨.uma, ticket.owner, [], [userPolicy], [ticket.resource],
      match ticket.scope with
      | some scope => {scope}
      | none => ∅⟩

/-- The policy `updatePolicy` works on: that of the ticket or of another ticket of its
triple. -/
def findPolicy (db : Database U R S) (s : Store U R S)
    (ticket : PermissionTicketEntity U R S) : Option Nat :=
  match s.getPolicy ticket with
  | some policy => some policy
  | none =>
      match (s.find db fun other => ticket.sameTriple other && other.policy.isSome).head? with
      | some other => s.getPolicy other
      | none => none

/-- `UserManagedPermissionUtil.updatePolicy`; `none` is a `NullPointerException`. -/
def updatePolicy (db : Database U R S) (s : Store U R S) (id : Nat)
    (ticket : PermissionTicketEntity U R S) : Option (Store U R S) :=
  let policy := s.findPolicy db ticket
  if ticket.isGranted then
    let (s, policy) :=
      match policy with
      | some policy => (s, policy)
      | none => s.createUserManagedPermission ticket
    let s :=
      match ticket.scope with
      | some scope => s.addScope policy scope
      | none => s
    some (s.updateTicket id { ticket with policy := some policy })
  else
    match ticket.scope with
    | none => some s
    | some scope =>
        match policy with
        | none => none
        -- `setPolicy(null)` of the adapter does nothing
        | some policy => some (s.removeScope policy scope)

def removePolicy (db : Database U R S) (s : Store U R S)
    (ticket : PermissionTicketEntity U R S) : Store U R S :=
  match s.getPolicy ticket with
  | none => s
  | some policy =>
      if (s.find db fun other => ticket.sameTriple other && other.isGranted).isEmpty then
        let associatedPolicies := ((s.policies policy).map (·.associatedPolicies)).getD []
        (associatedPolicies.foldl deletePolicy s).deletePolicy policy
      else
        match ticket.scope with
        | some scope => s.removeScope policy scope
        | none => s

/-- `JPAPermissionTicketStore.create`.  The tables admit one ticket for an owner, requester,
resource and scope; a second insertion fails.  A `null` scope is not compared. -/
def create (db : Database U R S) (s : Store U R S) (resource : R) (scope : Option S)
    (requester : U) : Store U R S :=
  let ticket : PermissionTicketEntity U R S :=
    ⟨db.resourceOwner resource, requester, resource, scope, none, none⟩
  if (s.find db fun other =>
      ticket.sameTriple other && other.scope = scope && scope.isSome).isEmpty then
    { s.updateTicket s.nextId ticket with nextId := s.nextId + 1 }
  else s

/-- `PermissionTicketAdapter.setGrantedTimestamp`.  The setter of the entity takes a
`long`, so that `null` is dereferenced on the way. -/
def setGrantedTimestamp (db : Database U R S) (s : Store U R S) (id : Nat)
    (ticket : PermissionTicketEntity U R S) (millis : Option Int) : Option (Store U R S) :=
  match millis with
  | none => none
  | some millis =>
      let ticket := { ticket with grantedTimestamp := some millis }
      (s.updateTicket id ticket).updatePolicy db id ticket

def delete (s : Store U R S) (id : Nat) : Store U R S :=
  { s with tickets := Function.update s.tickets id none }

def deleteWithPolicy (db : Database U R S) (s : Store U R S) (id : Nat) : Store U R S :=
  match s.tickets id with
  | none => s
  | some ticket => (s.delete id).removePolicy db ticket

end Store

inductive Label (U R S : Type) where
  | create (resource : R) (scope : Option S) (requester : U)
  | setGrantedTimestamp (id : Nat) (millis : Option Int)
  | delete (id : Nat)
  | deleteWithPolicy (id : Nat)
  deriving DecidableEq, Repr

/-- One operation.  A timestamp can be set only on a ticket that was found. -/
def step (db : Database U R S) (s : Store U R S) : Label U R S → Option (Store U R S)
  | .create resource scope requester => some (s.create db resource scope requester)
  | .setGrantedTimestamp id millis =>
      match s.tickets id with
      | none => none
      | some ticket =>
          match s.setGrantedTimestamp db id ticket millis with
          | some s' => some s'
          | none => some { s with nullDereference := true }
  | .delete id => some (s.delete id)
  | .deleteWithPolicy id => some (s.deleteWithPolicy db id)

end Code

/-! ## The rows of a triple -/

section Rows

variable {U R S : Type}

def PermissionTicketEntity.triple (ticket : PermissionTicketEntity U R S) : U × U × R :=
  (ticket.owner, ticket.requester, ticket.resource)

/-- A granted ticket of the triple has the scope (`none` for the whole resource). -/
def Holds (s : Store U R S) (triple : U × U × R) (scope : Option S) : Prop :=
  ∃ id ticket, s.tickets id = some ticket ∧ ticket.triple = triple ∧
    ticket.isGranted = true ∧ ticket.scope = scope

/-- `policy` is a uma policy of the owner for the resource, and one of its associated
policies is a user policy for the requester. -/
def GrantsAccess (s : Store U R S) (triple : U × U × R) (policy : Policy U R S) : Prop :=
  (∃ id, s.policies id = some policy) ∧ policy.type = .uma ∧ policy.owner = triple.1 ∧
    triple.2.2 ∈ policy.resources ∧
    ∃ associated ∈ policy.associatedPolicies, ∃ userPolicy,
      s.policies associated = some userPolicy ∧ userPolicy.type = .user ∧
        triple.2.1 ∈ userPolicy.users

def userPolicy (triple : U × U × R) : Policy U R S :=
  ⟨.user, triple.1, [triple.2.1], [], [], ∅⟩

def umaPolicy (triple : U × U × R) (user : Nat) (scopes : Finset S) : Policy U R S :=
  ⟨.uma, triple.1, [], [user], [triple.2.2], scopes⟩

/-- The policies of the triple stand under the ids `uma` and `user`. -/
def Attached (s : Store U R S) (triple : U × U × R) (uma user : Nat) (scopes : Finset S) :
    Prop :=
  s.policies uma = some (umaPolicy triple user scopes) ∧
    s.policies user = some (userPolicy triple)

/-- The policy table: every uma policy is attached to one triple, no triple has two, and
no user policy serves two uma policies. -/
structure PoliciesOk (s : Store U R S) : Prop where
  fresh : ∀ id, s.nextId ≤ id → s.policies id = none
  attached : ∀ id policy, s.policies id = some policy → policy.type = .uma →
    ∃ triple user, Attached s triple id user policy.scopes
  single : ∀ triple uma user scopes uma' user' scopes', Attached s triple uma user scopes →
    Attached s triple uma' user' scopes' → uma = uma'
  ownUser : ∀ triple triple' uma uma' user scopes scopes', Attached s triple uma user scopes →
    Attached s triple' uma' user scopes' → uma = uma'

/-- The ticket table: a ticket is linked to the policy of its triple exactly if it is
granted, and scopes are not repeated. -/
structure TicketsOk (s : Store U R S) : Prop where
  fresh : ∀ id, s.nextId ≤ id → s.tickets id = none
  linked : ∀ id ticket, s.tickets id = some ticket → ticket.isGranted = true →
    ∃ uma user scopes, ticket.policy = some uma ∧ Attached s ticket.triple uma user scopes
  unlinked : ∀ id ticket, s.tickets id = some ticket → ticket.isGranted = false →
    ticket.policy = none
  distinct : ∀ id id' ticket ticket', s.tickets id = some ticket →
    s.tickets id' = some ticket' → ticket.triple = ticket'.triple →
    ticket.scope = ticket'.scope → ticket.scope ≠ none → id = id'

structure Tracks (s : Store U R S) : Prop where
  dereference : s.nullDereference = false
  policies : PoliciesOk s
  tickets : TicketsOk s
  needed : ∀ triple uma user scopes, Attached s triple uma user scopes →
    ∃ scope, Holds s triple scope
  covers : ∀ triple uma user scopes, Attached s triple uma user scopes →
    ∀ scope, scope ∈ scopes ↔ Holds s triple (some scope)

theorem initial_tracks : Tracks (Store.initial : Store U R S) := by
  refine ⟨rfl, ⟨?_, ?_, ?_, ?_⟩, ⟨?_, ?_, ?_, ?_⟩, ?_, ?_⟩ <;>
    simp [Store.initial, Attached]

variable [DecidableEq U] [DecidableEq R] [DecidableEq S]

omit [DecidableEq S] in
theorem sameTriple_iff {ticket other : PermissionTicketEntity U R S} :
    ticket.sameTriple other = true ↔ other.triple = ticket.triple := by
  simp [PermissionTicketEntity.sameTriple, PermissionTicketEntity.triple, and_assoc]

omit [DecidableEq U] [DecidableEq R] [DecidableEq S] in
theorem mem_find {db : Database U R S} {s : Store U R S}
    (hfresh : ∀ id, s.nextId ≤ id → s.tickets id = none)
    {filter : PermissionTicketEntity U R S → Bool} {ticket : PermissionTicketEntity U R S} :
    ticket ∈ s.find db filter ↔ ∃ id, s.tickets id = some ticket ∧ filter ticket = true := by
  unfold Store.find
  rw [(db.rows_perm _).mem_iff, List.mem_filterMap]
  constructor
  · rintro ⟨id, -, hid⟩
    exact ⟨id, Option.filter_eq_some_iff.mp hid⟩
  · rintro ⟨id, hid, hfilter⟩
    refine ⟨id, ?_, Option.filter_eq_some_iff.mpr ⟨hid, hfilter⟩⟩
    rw [List.mem_range]
    by_contra hlt
    rw [hfresh id (by omega)] at hid
    cases hid

end Rows

/-! ## The policy table under the operations -/

section Policies

variable {U R S : Type} {s : Store U R S} {triple triple' : U × U × R}
  {uma uma' user user' : Nat} {scopes scopes' : Finset S}

theorem Attached.inj (h : Attached s triple uma user scopes)
    (h' : Attached s triple' uma user' scopes') :
    triple = triple' ∧ user = user' ∧ scopes = scopes' := by
  obtain ⟨owner, requester, resource⟩ := triple
  obtain ⟨owner', requester', resource'⟩ := triple'
  have huma := Option.some.inj (h.1.symm.trans h'.1)
  simp only [umaPolicy, Policy.mk.injEq, List.cons.injEq, and_true, true_and] at huma
  obtain ⟨rfl, rfl, rfl, rfl⟩ := huma
  have huser := Option.some.inj (h.2.symm.trans h'.2)
  simp only [userPolicy, Policy.mk.injEq, List.cons.injEq, and_true, true_and] at huser
  exact ⟨by rw [huser], rfl, rfl⟩

theorem Attached.ne (h : Attached s triple uma user scopes)
    (h' : Attached s triple' uma' user' scopes') : user ≠ uma' := by
  rintro rfl
  have htype := Option.some.inj (h.2.symm.trans h'.1)
  simp [userPolicy, umaPolicy] at htype

theorem Attached.of_policies {t : Store U R S} (hpolicies : t.policies = s.policies)
    (h : Attached s triple uma user scopes) : Attached t triple uma user scopes := by
  unfold Attached
  rw [hpolicies]
  exact h

theorem PoliciesOk.of_policies (h : PoliciesOk s) {t : Store U R S}
    (hpolicies : t.policies = s.policies) (hnext : s.nextId ≤ t.nextId) : PoliciesOk t where
  fresh := fun id hid => by
    rw [hpolicies]
    exact h.fresh id (Nat.le_trans hnext hid)
  attached := by
    intro id policy hpolicy htype
    rw [hpolicies] at hpolicy
    obtain ⟨triple, user, hatt⟩ := h.attached id policy hpolicy htype
    exact ⟨triple, user, hatt.of_policies hpolicies⟩
  single := fun triple uma user scopes uma' user' scopes' hatt hatt' =>
    h.single triple uma user scopes uma' user' scopes' (hatt.of_policies hpolicies.symm)
      (hatt'.of_policies hpolicies.symm)
  ownUser := fun triple triple' uma uma' user scopes scopes' hatt hatt' =>
    h.ownUser triple triple' uma uma' user scopes scopes' (hatt.of_policies hpolicies.symm)
      (hatt'.of_policies hpolicies.symm)

theorem PoliciesOk.lt (h : PoliciesOk s) {id : Nat} {policy : Policy U R S}
    (hpolicy : s.policies id = some policy) : id < s.nextId := by
  by_contra hge
  rw [h.fresh id (by omega)] at hpolicy
  cases hpolicy

theorem attached_updateScopes_iff (hatt : Attached s triple uma user scopes)
    (f : Finset S → Finset S) :
    Attached (s.updateScopes uma f) triple' uma' user' scopes' ↔
      (uma' ≠ uma ∧ Attached s triple' uma' user' scopes') ∨
      (uma' = uma ∧ triple' = triple ∧ user' = user ∧ scopes' = f scopes) := by
  have hrow : (s.policies uma).map (fun policy => { policy with scopes := f policy.scopes }) =
      some (umaPolicy triple user (f scopes)) := by
    rw [hatt.1]
    rfl
  have hother : ∀ id, id ≠ uma → (s.updateScopes uma f).policies id = s.policies id :=
    fun id hid => Function.update_of_ne hid _ _
  have hself : (s.updateScopes uma f).policies uma = some (umaPolicy triple user (f scopes)) := by
    rw [← hrow]
    exact Function.update_self _ _ _
  have huser : user ≠ uma := hatt.ne hatt
  have hnew : Attached (s.updateScopes uma f) triple uma user (f scopes) :=
    ⟨hself, (hother user huser).trans hatt.2⟩
  constructor
  · intro h
    by_cases hid : uma' = uma
    · subst hid
      exact .inr ⟨rfl, h.inj hnew⟩
    · have hne : user' ≠ uma := h.ne hnew
      exact .inl ⟨hid, (hother uma' hid).symm.trans h.1, (hother user' hne).symm.trans h.2⟩
  · rintro (⟨hid, h⟩ | ⟨rfl, rfl, rfl, rfl⟩)
    · exact ⟨(hother uma' hid).trans h.1, (hother user' (h.ne hatt)).trans h.2⟩
    · exact hnew

theorem Attached.updateScopes (h : Attached s triple' uma' user' scopes')
    (hatt : Attached s triple uma user scopes) (f : Finset S → Finset S) :
    ∃ scopes₁, Attached (s.updateScopes uma f) triple' uma' user' scopes₁ := by
  by_cases huma : uma' = uma
  · subst huma
    obtain ⟨rfl, rfl, rfl⟩ := h.inj hatt
    exact ⟨_, (attached_updateScopes_iff hatt f).mpr (.inr ⟨rfl, rfl, rfl, rfl⟩)⟩
  · exact ⟨_, (attached_updateScopes_iff hatt f).mpr (.inl ⟨huma, h⟩)⟩

theorem PoliciesOk.updateScopes (h : PoliciesOk s) (hatt : Attached s triple uma user scopes)
    (f : Finset S → Finset S) : PoliciesOk (s.updateScopes uma f) := by
  -- an attached policy of the new table is attached in the old one, with other scopes
  have hback : ∀ {triple' uma' user' scopes'},
      Attached (s.updateScopes uma f) triple' uma' user' scopes' →
      ∃ scopes₀, Attached s triple' uma' user' scopes₀ := by
    intro triple' uma' user' scopes' h'
    rcases (attached_updateScopes_iff hatt f).mp h' with ⟨-, h'⟩ | ⟨rfl, rfl, rfl, rfl⟩
    · exact ⟨scopes', h'⟩
    · exact ⟨scopes, hatt⟩
  refine ⟨?_, ?_, ?_, ?_⟩
  · intro id hid
    have hne : id ≠ uma := by
      rintro rfl
      have hnone := h.fresh id hid
      rw [hatt.1] at hnone
      cases hnone
    exact (Function.update_of_ne hne _ _).trans (h.fresh id hid)
  · intro id policy hpolicy htype
    by_cases hid : id = uma
    · subst hid
      have hnew := (attached_updateScopes_iff hatt f).mpr (.inr ⟨rfl, rfl, rfl, rfl⟩)
      have hrow := Option.some.inj (hnew.1.symm.trans hpolicy)
      exact ⟨triple, user, hrow ▸ hnew⟩
    · have hold : s.policies id = some policy := (Function.update_of_ne hid _ _).symm.trans hpolicy
      obtain ⟨triple', user', h'⟩ := h.attached id policy hold htype
      exact ⟨triple', user', (attached_updateScopes_iff hatt f).mpr (.inl ⟨hid, h'⟩)⟩
  · intro triple₁ uma₁ user₁ scopes₁ uma₂ user₂ scopes₂ h₁ h₂
    obtain ⟨scopes₁', h₁⟩ := hback h₁
    obtain ⟨scopes₂', h₂⟩ := hback h₂
    exact h.single triple₁ uma₁ user₁ scopes₁' uma₂ user₂ scopes₂' h₁ h₂
  · intro triple₁ triple₂ uma₁ uma₂ user₁ scopes₁ scopes₂ h₁ h₂
    obtain ⟨scopes₁', h₁⟩ := hback h₁
    obtain ⟨scopes₂', h₂⟩ := hback h₂
    exact h.ownUser triple₁ triple₂ uma₁ uma₂ user₁ scopes₁' scopes₂' h₁ h₂

theorem addScope_of_mem [DecidableEq S] (hatt : Attached s triple uma user scopes) {scope : S}
    (hmem : scope ∈ scopes) : s.addScope uma scope = s := by
  have hrow : (s.policies uma).map
      (fun policy => { policy with scopes := insert scope policy.scopes }) = s.policies uma := by
    rw [hatt.1]
    simp [umaPolicy, Finset.insert_eq_self.mpr hmem]
  unfold Store.addScope Store.updateScopes
  rw [hrow, Function.update_eq_self]

theorem deletePolicy_eq_some_iff {id : Nat} {policy : Policy U R S} :
    ((s.deletePolicy user).deletePolicy uma).policies id = some policy ↔
      id ≠ uma ∧ id ≠ user ∧ s.policies id = some policy := by
  unfold Store.deletePolicy
  by_cases hid : id = uma
  · simp [hid]
  · by_cases hid' : id = user
    · subst hid'
      simp [hid]
    · simp [hid, hid']

theorem attached_delete_iff (h : PoliciesOk s) (hatt : Attached s triple uma user scopes) :
    Attached ((s.deletePolicy user).deletePolicy uma) triple' uma' user' scopes' ↔
      uma' ≠ uma ∧ Attached s triple' uma' user' scopes' := by
  unfold Attached
  simp only [deletePolicy_eq_some_iff]
  constructor
  · rintro ⟨⟨hid, -, huma⟩, -, -, huser⟩
    exact ⟨hid, huma, huser⟩
  · rintro ⟨hid, h'⟩
    have hne : user' ≠ user := by
      rintro rfl
      exact hid (h.ownUser triple' triple uma' uma user' scopes' scopes h' hatt)
    exact ⟨⟨hid, fun heq => hatt.ne h' heq.symm, h'.1⟩,
      ⟨Attached.ne (s := s) h' hatt, hne, h'.2⟩⟩

theorem PoliciesOk.delete (h : PoliciesOk s) (hatt : Attached s triple uma user scopes) :
    PoliciesOk ((s.deletePolicy user).deletePolicy uma) := by
  refine ⟨?_, ?_, ?_, ?_⟩
  · intro id hid
    cases hpolicy : ((s.deletePolicy user).deletePolicy uma).policies id with
    | none => rfl
    | some policy =>
        have hsome := (deletePolicy_eq_some_iff.mp hpolicy).2.2
        rw [h.fresh id hid] at hsome
        cases hsome
  · intro id policy hpolicy htype
    obtain ⟨hid, -, hpolicy⟩ := deletePolicy_eq_some_iff.mp hpolicy
    obtain ⟨triple', user', h'⟩ := h.attached id policy hpolicy htype
    exact ⟨triple', user', (attached_delete_iff h hatt).mpr ⟨hid, h'⟩⟩
  · intro triple₁ uma₁ user₁ scopes₁ uma₂ user₂ scopes₂ h₁ h₂
    exact h.single triple₁ uma₁ user₁ scopes₁ uma₂ user₂ scopes₂
      ((attached_delete_iff h hatt).mp h₁).2 ((attached_delete_iff h hatt).mp h₂).2
  · intro triple₁ triple₂ uma₁ uma₂ user₁ scopes₁ scopes₂ h₁ h₂
    exact h.ownUser triple₁ triple₂ uma₁ uma₂ user₁ scopes₁ scopes₂
      ((attached_delete_iff h hatt).mp h₁).2 ((attached_delete_iff h hatt).mp h₂).2

theorem createUserManagedPermission_eq (ticket : PermissionTicketEntity U R S) :
    s.createUserManagedPermission ticket =
      ({ s with
          policies := Function.update
            (Function.update s.policies s.nextId (some (userPolicy ticket.triple)))
            (s.nextId + 1)
            (some (umaPolicy ticket.triple s.nextId
              (match ticket.scope with
                | some scope => {scope}
                | none => ∅)))
          nextId := s.nextId + 2 },
        s.nextId + 1) := rfl

theorem attached_create_iff (h : PoliciesOk s) {t : Store U R S}
    (ht : t.policies = Function.update
      (Function.update s.policies s.nextId (some (userPolicy triple))) (s.nextId + 1)
      (some (umaPolicy triple s.nextId scopes))) :
    Attached t triple' uma' user' scopes' ↔
      Attached s triple' uma' user' scopes' ∨
      (triple' = triple ∧ uma' = s.nextId + 1 ∧ user' = s.nextId ∧ scopes' = scopes) := by
  have huma : t.policies (s.nextId + 1) = some (umaPolicy triple s.nextId scopes) := by
    rw [ht, Function.update_self]
  have huser : t.policies s.nextId = some (userPolicy triple) := by
    rw [ht, Function.update_of_ne (by omega), Function.update_self]
  have hother : ∀ id, id ≠ s.nextId → id ≠ s.nextId + 1 → t.policies id = s.policies id := by
    intro id hid hid'
    rw [ht, Function.update_of_ne hid', Function.update_of_ne hid]
  have hnew : Attached t triple (s.nextId + 1) s.nextId scopes := ⟨huma, huser⟩
  constructor
  · intro h'
    by_cases hid : uma' = s.nextId + 1
    · subst hid
      obtain ⟨rfl, rfl, rfl⟩ := h'.inj hnew
      exact .inr ⟨rfl, rfl, rfl, rfl⟩
    · have hne : uma' ≠ s.nextId := fun heq => hnew.ne h' heq.symm
      have hrow : s.policies uma' = some (umaPolicy triple' user' scopes') :=
        (hother uma' hne hid).symm.trans h'.1
      refine .inl ⟨hrow, (hother user' ?_ (h'.ne hnew)).symm.trans h'.2⟩
      rintro rfl
      -- an old uma policy has an old user policy
      obtain ⟨triple₀, user₀, hatt₀⟩ := h.attached uma' _ hrow rfl
      have hrows := Option.some.inj (hrow.symm.trans hatt₀.1)
      simp only [umaPolicy, Policy.mk.injEq, List.cons.injEq, and_true, true_and] at hrows
      have := h.lt hatt₀.2
      omega
  · rintro (h' | ⟨rfl, rfl, rfl, rfl⟩)
    · have h₁ := h.lt h'.1
      have h₂ := h.lt h'.2
      exact ⟨(hother uma' (by omega) (by omega)).trans h'.1,
        (hother user' (by omega) (by omega)).trans h'.2⟩
    · exact hnew

theorem PoliciesOk.create (h : PoliciesOk s) {t : Store U R S}
    (ht : t.policies = Function.update
      (Function.update s.policies s.nextId (some (userPolicy triple))) (s.nextId + 1)
      (some (umaPolicy triple s.nextId scopes)))
    (hnext : t.nextId = s.nextId + 2)
    (hnone : ∀ uma user scopes, ¬ Attached s triple uma user scopes) : PoliciesOk t := by
  refine ⟨?_, ?_, ?_, ?_⟩
  · intro id hid
    rw [ht, Function.update_of_ne (by omega), Function.update_of_ne (by omega)]
    exact h.fresh id (by omega)
  · intro id policy hpolicy htype
    by_cases hid : id = s.nextId + 1
    · subst hid
      rw [ht, Function.update_self, Option.some.injEq] at hpolicy
      subst hpolicy
      exact ⟨triple, s.nextId, (attached_create_iff h ht).mpr (.inr ⟨rfl, rfl, rfl, rfl⟩)⟩
    · rw [ht, Function.update_of_ne hid] at hpolicy
      by_cases hid' : id = s.nextId
      · subst hid'
        rw [Function.update_self, Option.some.injEq] at hpolicy
        subst hpolicy
        cases htype
      · rw [Function.update_of_ne hid'] at hpolicy
        obtain ⟨triple', user', h'⟩ := h.attached id policy hpolicy htype
        exact ⟨triple', user', (attached_create_iff h ht).mpr (.inl h')⟩
  · intro triple₁ uma₁ user₁ scopes₁ uma₂ user₂ scopes₂ h₁ h₂
    rcases (attached_create_iff h ht).mp h₁ with h₁ | ⟨rfl, rfl, -, -⟩
    · rcases (attached_create_iff h ht).mp h₂ with h₂ | ⟨rfl, -, -, -⟩
      · exact h.single triple₁ uma₁ user₁ scopes₁ uma₂ user₂ scopes₂ h₁ h₂
      · exact absurd h₁ (hnone uma₁ user₁ scopes₁)
    · rcases (attached_create_iff h ht).mp h₂ with h₂ | ⟨-, rfl, -, -⟩
      · exact absurd h₂ (hnone uma₂ user₂ scopes₂)
      · rfl
  · intro triple₁ triple₂ uma₁ uma₂ user₁ scopes₁ scopes₂ h₁ h₂
    rcases (attached_create_iff h ht).mp h₁ with h₁ | ⟨-, rfl, rfl, -⟩
    · rcases (attached_create_iff h ht).mp h₂ with h₂ | ⟨-, -, rfl, -⟩
      · exact h.ownUser triple₁ triple₂ uma₁ uma₂ user₁ scopes₁ scopes₂ h₁ h₂
      · have := h.lt h₁.2
        omega
    · rcases (attached_create_iff h ht).mp h₂ with h₂ | ⟨-, rfl, -, -⟩
      · have := h.lt h₂.2
        omega
      · rfl

end Policies

/-! ## Granting -/

section Grant

variable {U R S : Type} {s t : Store U R S} {id : Nat}
  {ticket : PermissionTicketEntity U R S}

def grantedWith (ticket : PermissionTicketEntity U R S) (millis : Int) (uma : Nat) :
    PermissionTicketEntity U R S :=
  { ticket with grantedTimestamp := some millis, policy := some uma }

theorem holds_grant_iff (hid : s.tickets id = some ticket) {millis : Int} {uma : Nat}
    (htickets : t.tickets =
      Function.update s.tickets id (some (grantedWith ticket millis uma)))
    {triple : U × U × R} {scope : Option S} :
    Holds t triple scope ↔
      Holds s triple scope ∨ (ticket.triple = triple ∧ ticket.scope = scope) := by
  unfold Holds
  rw [htickets]
  constructor
  · rintro ⟨id', other, hother, htriple, hgranted, hscope⟩
    by_cases hne : id' = id
    · subst hne
      rw [Function.update_self, Option.some.injEq] at hother
      subst hother
      exact .inr ⟨htriple, hscope⟩
    · rw [Function.update_of_ne hne] at hother
      exact .inl ⟨id', other, hother, htriple, hgranted, hscope⟩
  · rintro (⟨id', other, hother, htriple, hgranted, hscope⟩ | ⟨htriple, hscope⟩)
    · by_cases hne : id' = id
      · subst hne
        rw [hid, Option.some.injEq] at hother
        subst hother
        exact ⟨id', _, Function.update_self _ _ _, htriple, rfl, hscope⟩
      · exact ⟨id', other, (Function.update_of_ne hne _ _).trans hother, htriple, hgranted,
          hscope⟩
    · exact ⟨id, _, Function.update_self _ _ _, htriple, rfl, hscope⟩

theorem Tracks.granted (h : Tracks s) (hid : s.tickets id = some ticket) {millis : Int}
    {uma user : Nat} {scopes : Finset S}
    (htickets : t.tickets =
      Function.update s.tickets id (some (grantedWith ticket millis uma)))
    (hderef : t.nullDereference = s.nullDereference) (hnext : s.nextId ≤ t.nextId)
    (hpolicies : PoliciesOk t) (hatt : Attached t ticket.triple uma user scopes)
    (hscopes : ∀ scope, scope ∈ scopes ↔
      Holds s ticket.triple (some scope) ∨ ticket.scope = some scope)
    (hkeep : ∀ triple uma user scopes, Attached s triple uma user scopes →
      ∃ user' scopes', Attached t triple uma user' scopes')
    (hother : ∀ triple uma user scopes, triple ≠ ticket.triple →
      Attached t triple uma user scopes → Attached s triple uma user scopes) : Tracks t := by
  have hold : ∀ {id' other}, id' ≠ id → t.tickets id' = some other →
      s.tickets id' = some other := by
    intro id' other hne hrow
    rwa [htickets, Function.update_of_ne hne] at hrow
  have hrow : ∀ {other}, t.tickets id = some other → other = grantedWith ticket millis uma := by
    intro other hrow
    rw [htickets, Function.update_self, Option.some.injEq] at hrow
    exact hrow.symm
  refine ⟨hderef.trans h.dereference, hpolicies, ⟨?_, ?_, ?_, ?_⟩, ?_, ?_⟩
  · intro id' hid'
    have hnone := h.tickets.fresh id' (Nat.le_trans hnext hid')
    have hne : id' ≠ id := by
      rintro rfl
      rw [hid] at hnone
      cases hnone
    rw [htickets, Function.update_of_ne hne]
    exact hnone
  · intro id' other hrow' hgranted
    by_cases hne : id' = id
    · subst hne
      rw [hrow hrow']
      exact ⟨uma, user, scopes, rfl, hatt⟩
    · obtain ⟨uma', user', scopes', hpolicy, hatt'⟩ :=
        h.tickets.linked id' other (hold hne hrow') hgranted
      obtain ⟨user'', scopes'', hatt''⟩ := hkeep _ _ _ _ hatt'
      exact ⟨uma', user'', scopes'', hpolicy, hatt''⟩
  · intro id' other hrow' hgranted
    by_cases hne : id' = id
    · subst hne
      rw [hrow hrow'] at hgranted
      cases hgranted
    · exact h.tickets.unlinked id' other (hold hne hrow') hgranted
  · -- a grant changes neither triple nor scope of a ticket
    have hsame : ∀ {id' other}, t.tickets id' = some other → ∃ other₀,
        s.tickets id' = some other₀ ∧ other₀.triple = other.triple ∧
          other₀.scope = other.scope := by
      intro id' other hrow'
      by_cases hne : id' = id
      · subst hne
        rw [hrow hrow']
        exact ⟨ticket, hid, rfl, rfl⟩
      · exact ⟨other, hold hne hrow', rfl, rfl⟩
    intro id₁ id₂ ticket₁ ticket₂ h₁ h₂ htriple hscope hne
    obtain ⟨other₁, h₁, ht₁, hs₁⟩ := hsame h₁
    obtain ⟨other₂, h₂, ht₂, hs₂⟩ := hsame h₂
    exact h.tickets.distinct id₁ id₂ other₁ other₂ h₁ h₂ (by rw [ht₁, ht₂, htriple])
      (by rw [hs₁, hs₂, hscope]) (by rw [hs₁]; exact hne)
  · intro triple uma' user' scopes' hatt'
    by_cases htriple : triple = ticket.triple
    · exact ⟨ticket.scope, (holds_grant_iff hid htickets).mpr (.inr ⟨htriple.symm, rfl⟩)⟩
    · obtain ⟨scope, hscope⟩ := h.needed _ _ _ _ (hother _ _ _ _ htriple hatt')
      exact ⟨scope, (holds_grant_iff hid htickets).mpr (.inl hscope)⟩
  · intro triple uma' user' scopes' hatt' scope
    rw [holds_grant_iff hid htickets]
    by_cases htriple : triple = ticket.triple
    · subst htriple
      have huma := hpolicies.single _ _ _ _ _ _ _ hatt' hatt
      subst huma
      obtain ⟨-, -, rfl⟩ := hatt'.inj hatt
      simpa using hscopes scope
    · rw [h.covers _ _ _ _ (hother _ _ _ _ htriple hatt') scope]
      constructor
      · exact .inl
      · rintro (hholds | ⟨heq, -⟩)
        · exact hholds
        · exact absurd heq.symm htriple

variable [DecidableEq U] [DecidableEq R] [DecidableEq S] {db : Database U R S}

omit [DecidableEq S] in
/-- The tickets with a policy that are found for a ticket not yet granted are the granted
ones of its triple. -/
theorem Tracks.mem_find_linked (db : Database U R S) (h : Tracks s)
    (hid : s.tickets id = some ticket) (hgranted : ticket.isGranted = false) (millis : Int)
    {other : PermissionTicketEntity U R S} :
    let ticket' := { ticket with grantedTimestamp := some millis }
    other ∈ (s.updateTicket id ticket').find db
        (fun other => ticket'.sameTriple other && other.policy.isSome) ↔
      ∃ id', s.tickets id' = some other ∧ other.triple = ticket.triple ∧
        other.isGranted = true := by
  intro ticket'
  have hpolicy := h.tickets.unlinked id ticket hid hgranted
  have hfresh : ∀ id', (s.updateTicket id ticket').nextId ≤ id' →
      (s.updateTicket id ticket').tickets id' = none := by
    intro id' hid'
    have hnone := h.tickets.fresh id' hid'
    have hne : id' ≠ id := by
      rintro rfl
      rw [hid] at hnone
      cases hnone
    exact (Function.update_of_ne hne _ _).trans hnone
  rw [mem_find hfresh]
  simp only [Bool.and_eq_true, sameTriple_iff]
  constructor
  · rintro ⟨id', hrow, htriple, hsome⟩
    by_cases hne : id' = id
    · subst hne
      have hother : ticket' = other := by
        simpa [Store.updateTicket] using hrow
      subst hother
      simp [ticket', hpolicy] at hsome
    · have hrow' : s.tickets id' = some other := (Function.update_of_ne hne _ _).symm.trans hrow
      refine ⟨id', hrow', htriple, ?_⟩
      by_contra hfalse
      rw [h.tickets.unlinked id' other hrow' (by simpa using hfalse)] at hsome
      cases hsome
  · rintro ⟨id', hrow, htriple, hgranted'⟩
    have hne : id' ≠ id := by
      rintro rfl
      rw [hid, Option.some.injEq] at hrow
      subst hrow
      rw [hgranted] at hgranted'
      cases hgranted'
    obtain ⟨uma, -, -, hlink, -⟩ := h.tickets.linked id' other hrow hgranted'
    exact ⟨id', (Function.update_of_ne hne _ _).trans hrow, htriple, by simp [hlink]⟩

omit [DecidableEq S] in
theorem findPolicy_cases (db : Database U R S) (h : Tracks s) (hid : s.tickets id = some ticket)
    (millis : Int) :
    let ticket' := { ticket with grantedTimestamp := some millis }
    (∃ uma user scopes, (s.updateTicket id ticket').findPolicy db ticket' = some uma ∧
      Attached s ticket.triple uma user scopes) ∨
    ((s.updateTicket id ticket').findPolicy db ticket' = none ∧
      ∀ uma user scopes, ¬ Attached s ticket.triple uma user scopes) := by
  intro ticket'
  have hget : ∀ {other uma user scopes triple}, other.policy = some uma →
      Attached s triple uma user scopes →
      (s.updateTicket id ticket').getPolicy other = some uma := by
    intro other uma user scopes triple hpolicy hatt
    have hrow : (s.updateTicket id ticket').policies uma = some (umaPolicy triple user scopes) :=
      hatt.1
    simp [Store.getPolicy, hpolicy, hrow]
  cases hgranted : ticket.isGranted with
  | true =>
      obtain ⟨uma, user, scopes, hpolicy, hatt⟩ := h.tickets.linked id ticket hid hgranted
      refine .inl ⟨uma, user, scopes, ?_, hatt⟩
      have hown : (s.updateTicket id ticket').getPolicy ticket' = some uma := hget hpolicy hatt
      simp [Store.findPolicy, hown]
  | false =>
      have hpolicy := h.tickets.unlinked id ticket hid hgranted
      have hown : (s.updateTicket id ticket').getPolicy ticket' = none := by
        simp [Store.getPolicy, ticket', hpolicy]
      cases hfound : ((s.updateTicket id ticket').find db
          (fun other => ticket'.sameTriple other && other.policy.isSome)).head? with
      | some other =>
          obtain ⟨id', hrow, htriple, hgranted'⟩ :=
            (h.mem_find_linked db hid hgranted millis).mp (List.mem_of_head? hfound)
          obtain ⟨uma, user, scopes, hlink, hatt⟩ := h.tickets.linked id' other hrow hgranted'
          refine .inl ⟨uma, user, scopes, ?_, htriple ▸ hatt⟩
          simp [Store.findPolicy, hown, hfound, hget hlink hatt]
      | none =>
          refine .inr ⟨by simp [Store.findPolicy, hown, hfound], ?_⟩
          intro uma user scopes hatt
          obtain ⟨scope, id', other, hrow, htriple, hgranted', -⟩ := h.needed _ _ _ _ hatt
          have hother := (h.mem_find_linked db hid hgranted millis).mpr
            ⟨id', hrow, htriple, hgranted'⟩
          rw [List.head?_eq_none_iff.mp hfound] at hother
          cases hother

theorem Tracks.grantAttached (h : Tracks s) (hid : s.tickets id = some ticket) {millis : Int}
    {ticket' : PermissionTicketEntity U R S}
    (hticket' : ticket' = { ticket with grantedTimestamp := some millis })
    {uma user : Nat} {scopes : Finset S}
    (hfind : (s.updateTicket id ticket').findPolicy db ticket' = some uma)
    (hatt : Attached s ticket.triple uma user scopes) :
    ∃ s', (s.updateTicket id ticket').updatePolicy db id ticket' = some s' ∧ Tracks s' := by
  have hgranted : ticket'.isGranted = true := by
    rw [hticket']
    rfl
  have hupdates : Function.update (s.updateTicket id ticket').tickets id
      (some { ticket' with policy := some uma }) =
      Function.update s.tickets id (some (grantedWith ticket millis uma)) := by
    rw [hticket']
    exact Function.update_idem _ _ _
  have hatt₁ : Attached (s.updateTicket id ticket') ticket.triple uma user scopes := hatt
  have hpol₁ : PoliciesOk (s.updateTicket id ticket') :=
    h.policies.of_policies rfl (Nat.le_refl _)
  cases hscope : ticket.scope with
  | none =>
      have hscope' : ticket'.scope = none := by rw [hticket']; exact hscope
      refine ⟨(s.updateTicket id ticket').updateTicket id { ticket' with policy := some uma },
        by simp [Store.updatePolicy, hfind, hgranted, hscope'], ?_⟩
      refine h.granted hid hupdates rfl (Nat.le_refl _)
        (hpol₁.of_policies rfl (Nat.le_refl _)) hatt₁ ?_
        (fun _ _ user scopes hatt => ⟨user, scopes, hatt⟩) (fun _ _ _ _ _ hatt => hatt)
      intro scope
      rw [h.covers _ _ _ _ hatt, hscope]
      simp
  | some scope =>
      have hscope' : ticket'.scope = some scope := by rw [hticket']; exact hscope
      refine ⟨((s.updateTicket id ticket').addScope uma scope).updateTicket id
        { ticket' with policy := some uma },
        by simp [Store.updatePolicy, hfind, hgranted, hscope'], ?_⟩
      refine h.granted hid hupdates rfl (Nat.le_refl _)
        ((hpol₁.updateScopes hatt₁ _).of_policies rfl (Nat.le_refl _))
        ((attached_updateScopes_iff hatt₁ _).mpr (.inr ⟨rfl, rfl, rfl, rfl⟩)) ?_ ?_ ?_
      · intro scope'
        rw [Finset.mem_insert, h.covers _ _ _ _ hatt, hscope, Option.some.injEq, or_comm,
          @eq_comm _ scope' scope]
      · intro triple uma' user' scopes' hatt'
        exact ⟨user', Attached.updateScopes (s := s.updateTicket id ticket') hatt' hatt₁ _⟩
      · intro triple uma' user' scopes' htriple hatt'
        rcases (attached_updateScopes_iff hatt₁ _).mp hatt' with ⟨-, hold⟩ | ⟨-, rfl, -, -⟩
        · exact hold
        · exact absurd rfl htriple

theorem Tracks.grantFirst (h : Tracks s) (hid : s.tickets id = some ticket) {millis : Int}
    {ticket' : PermissionTicketEntity U R S}
    (hticket' : ticket' = { ticket with grantedTimestamp := some millis })
    (hfind : (s.updateTicket id ticket').findPolicy db ticket' = none)
    (hnone : ∀ uma user scopes, ¬ Attached s ticket.triple uma user scopes) :
    ∃ s', (s.updateTicket id ticket').updatePolicy db id ticket' = some s' ∧ Tracks s' := by
  have hgranted : ticket'.isGranted = true := by
    rw [hticket']
    rfl
  obtain ⟨scopes, hscopes⟩ : ∃ scopes : Finset S, scopes =
      (match ticket.scope with
        | some scope => {scope}
        | none => ∅) := ⟨_, rfl⟩
  have hmem : ∀ scope, scope ∈ scopes ↔ ticket.scope = some scope := by
    intro scope
    rw [hscopes]
    cases ticket.scope <;> simp [eq_comm]
  obtain ⟨s₂, hs₂⟩ : ∃ s₂ : Store U R S, s₂ =
      ((s.updateTicket id ticket').createUserManagedPermission ticket').1 := ⟨_, rfl⟩
  have hcreate : (s.updateTicket id ticket').createUserManagedPermission ticket' =
      (s₂, s.nextId + 1) := by
    rw [hs₂]
    rfl
  have hpolicies : s₂.policies = Function.update
      (Function.update s.policies s.nextId (some (userPolicy ticket.triple))) (s.nextId + 1)
      (some (umaPolicy ticket.triple s.nextId scopes)) := by
    rw [hs₂, createUserManagedPermission_eq, hticket', hscopes]
    rfl
  obtain ⟨hrows, hderef, hnext⟩ : s₂.tickets = (s.updateTicket id ticket').tickets ∧
      s₂.nullDereference = s.nullDereference ∧ s₂.nextId = s.nextId + 2 := by
    rw [hs₂]
    exact ⟨rfl, rfl, rfl⟩
  have hatt₂ : Attached s₂ ticket.triple (s.nextId + 1) s.nextId scopes :=
    (attached_create_iff h.policies hpolicies).mpr (.inr ⟨rfl, rfl, rfl, rfl⟩)
  have hpol₂ : PoliciesOk s₂ := h.policies.create hpolicies hnext hnone
  have htickets : (s₂.updateTicket id { ticket' with policy := some (s.nextId + 1) }).tickets =
      Function.update s.tickets id (some (grantedWith ticket millis (s.nextId + 1))) := by
    change Function.update s₂.tickets id _ = _
    rw [hrows, hticket']
    exact Function.update_idem _ _ _
  refine ⟨s₂.updateTicket id { ticket' with policy := some (s.nextId + 1) }, ?_, ?_⟩
  · cases hscope : ticket.scope with
    | none =>
        have hscope' : ticket'.scope = none := by rw [hticket']; exact hscope
        simp [Store.updatePolicy, hfind, hgranted, hscope', hcreate]
    | some scope =>
        have hscope' : ticket'.scope = some scope := by rw [hticket']; exact hscope
        -- the scope is in the new policy already
        have hsame := addScope_of_mem hatt₂ ((hmem scope).mpr hscope)
        simp [Store.updatePolicy, hfind, hgranted, hscope', hcreate, hsame]
  · refine h.granted hid htickets hderef ?_ (hpol₂.of_policies rfl (Nat.le_refl _)) hatt₂ ?_
      (fun triple uma user scopes hatt =>
        ⟨user, scopes, (attached_create_iff h.policies hpolicies).mpr (.inl hatt)⟩) ?_
    · exact (by omega : s.nextId ≤ s.nextId + 2).trans (Nat.le_of_eq hnext.symm)
    · intro scope
      rw [hmem]
      constructor
      · exact .inr
      · rintro (⟨id', other, hrow, htriple, hgranted', -⟩ | hscope)
        · obtain ⟨uma, user, scopes', -, hatt⟩ := h.tickets.linked id' other hrow hgranted'
          exact absurd (htriple ▸ hatt) (hnone uma user scopes')
        · exact hscope
    · intro triple uma user scopes' htriple hatt
      rcases (attached_create_iff h.policies hpolicies).mp hatt with hold | ⟨rfl, -, -, -⟩
      · exact hold
      · exact absurd rfl htriple

/-- A grant adds the scope of the ticket to the policy of its triple, which is made for
the first granted ticket. -/
theorem Tracks.setGrantedTimestamp (db : Database U R S) (h : Tracks s)
    (hid : s.tickets id = some ticket) (millis : Int) :
    ∃ s', s.setGrantedTimestamp db id ticket (some millis) = some s' ∧ Tracks s' := by
  rcases findPolicy_cases db h hid millis with ⟨uma, user, scopes, hfind, hatt⟩ | ⟨hfind, hnone⟩
  · exact h.grantAttached hid rfl hfind hatt
  · exact h.grantFirst hid rfl hfind hnone

end Grant

/-! ## Creating and deleting tickets -/

section Delete

variable {U R S : Type} {s t : Store U R S} {id : Nat}
  {ticket : PermissionTicketEntity U R S}

theorem holds_delete_iff (htickets : t.tickets = Function.update s.tickets id none)
    {triple : U × U × R} {scope : Option S} :
    Holds t triple scope ↔ ∃ id' other, id' ≠ id ∧ s.tickets id' = some other ∧
      other.triple = triple ∧ other.isGranted = true ∧ other.scope = scope := by
  unfold Holds
  rw [htickets]
  constructor
  · rintro ⟨id', other, hrow, hrest⟩
    by_cases hne : id' = id
    · rw [hne, Function.update_self] at hrow
      cases hrow
    · rw [Function.update_of_ne hne] at hrow
      exact ⟨id', other, hne, hrow, hrest⟩
  · rintro ⟨id', other, hne, hrow, hrest⟩
    exact ⟨id', other, (Function.update_of_ne hne _ _).trans hrow, hrest⟩

theorem Tracks.holds_delete_some_iff (h : Tracks s) (hid : s.tickets id = some ticket)
    (htickets : t.tickets = Function.update s.tickets id none) {triple : U × U × R} {scope : S} :
    Holds t triple (some scope) ↔ Holds s triple (some scope) ∧
      ¬ (ticket.triple = triple ∧ ticket.isGranted = true ∧ ticket.scope = some scope) := by
  rw [holds_delete_iff htickets]
  constructor
  · rintro ⟨id', other, hne, hrow, htriple, hgranted, hscope⟩
    refine ⟨⟨id', other, hrow, htriple, hgranted, hscope⟩, ?_⟩
    rintro ⟨htriple', -, hscope'⟩
    exact hne (h.tickets.distinct id' id other ticket hrow hid (htriple.trans htriple'.symm)
      (hscope.trans hscope'.symm) (by simp [hscope]))
  · rintro ⟨⟨id', other, hrow, htriple, hgranted, hscope⟩, hnot⟩
    refine ⟨id', other, ?_, hrow, htriple, hgranted, hscope⟩
    rintro rfl
    rw [hid, Option.some.injEq] at hrow
    subst hrow
    exact hnot ⟨htriple, hgranted, hscope⟩

theorem Tracks.removed (h : Tracks s) (htickets : t.tickets = Function.update s.tickets id none)
    (hderef : t.nullDereference = s.nullDereference) (hnext : t.nextId = s.nextId)
    (hpolicies : PoliciesOk t)
    (hkeep : ∀ triple uma user scopes scope, Attached s triple uma user scopes →
      Holds t triple scope → ∃ user' scopes', Attached t triple uma user' scopes')
    (hneeded : ∀ triple uma user scopes, Attached t triple uma user scopes →
      ∃ scope, Holds t triple scope)
    (hcovers : ∀ triple uma user scopes, Attached t triple uma user scopes →
      ∀ scope, scope ∈ scopes ↔ Holds t triple (some scope)) : Tracks t := by
  have hold : ∀ {id' other}, t.tickets id' = some other → s.tickets id' = some other := by
    intro id' other hrow
    by_cases hne : id' = id
    · rw [htickets, hne, Function.update_self] at hrow
      cases hrow
    · rwa [htickets, Function.update_of_ne hne] at hrow
  refine ⟨hderef.trans h.dereference, hpolicies, ⟨?_, ?_, ?_, ?_⟩, hneeded, hcovers⟩
  · intro id' hid'
    cases hrow : t.tickets id' with
    | none => rfl
    | some other =>
        have hsome := hold hrow
        rw [h.tickets.fresh id' (hnext ▸ hid')] at hsome
        cases hsome
  · intro id' other hrow hgranted
    obtain ⟨uma, user, scopes, hpolicy, hatt⟩ :=
      h.tickets.linked id' other (hold hrow) hgranted
    obtain ⟨user', scopes', hatt'⟩ :=
      hkeep _ _ _ _ other.scope hatt ⟨id', other, hrow, rfl, hgranted, rfl⟩
    exact ⟨uma, user', scopes', hpolicy, hatt'⟩
  · intro id' other hrow
    exact h.tickets.unlinked id' other (hold hrow)
  · intro id₁ id₂ ticket₁ ticket₂ h₁ h₂
    exact h.tickets.distinct id₁ id₂ ticket₁ ticket₂ (hold h₁) (hold h₂)

/-- A ticket that the policy does not depend on: it is not granted, or it has no scope of
its own and is not the last granted one of its triple. -/
def Dispensable (s : Store U R S) (id : Nat) (ticket : PermissionTicketEntity U R S) : Prop :=
  ticket.isGranted = true → ticket.scope = none ∧
    ∃ id' other, id' ≠ id ∧ s.tickets id' = some other ∧ other.triple = ticket.triple ∧
      other.isGranted = true

theorem Tracks.delete_of_dispensable (h : Tracks s) (hid : s.tickets id = some ticket)
    (hdisp : Dispensable s id ticket) : Tracks (s.delete id) := by
  have htickets : (s.delete id).tickets = Function.update s.tickets id none := rfl
  refine h.removed htickets rfl rfl (h.policies.of_policies rfl (Nat.le_refl _))
    (fun _ _ user scopes _ hatt _ => ⟨user, scopes, hatt⟩) ?_ ?_
  · intro triple uma user scopes hatt
    obtain ⟨scope, id', other, hrow, htriple, hgranted, hscope⟩ := h.needed _ _ _ _ hatt
    by_cases hne : id' = id
    · subst hne
      rw [hid, Option.some.injEq] at hrow
      subst hrow
      obtain ⟨-, id'', other', hne', hrow', htriple', hgranted'⟩ := hdisp hgranted
      exact ⟨other'.scope, (holds_delete_iff htickets).mpr
        ⟨id'', other', hne', hrow', htriple'.trans htriple, hgranted', rfl⟩⟩
    · exact ⟨scope, (holds_delete_iff htickets).mpr
        ⟨id', other, hne, hrow, htriple, hgranted, hscope⟩⟩
  · intro triple uma user scopes hatt scope
    rw [h.holds_delete_some_iff hid htickets, h.covers _ _ _ _ hatt]
    refine ⟨fun hholds => ⟨hholds, ?_⟩, And.left⟩
    rintro ⟨-, hgranted, hscope⟩
    rw [(hdisp hgranted).1] at hscope
    cases hscope

theorem Tracks.delete_of_absent (h : Tracks s) (hid : s.tickets id = none) :
    Tracks (s.delete id) := by
  have hself : s.delete id = s := by
    unfold Store.delete
    rw [← hid, Function.update_eq_self]
  rwa [hself]

theorem Tracks.delete_last (h : Tracks s) (hid : s.tickets id = some ticket) {uma user : Nat}
    {scopes : Finset S} (hatt : Attached s ticket.triple uma user scopes)
    (hlast : ∀ id' other, id' ≠ id → s.tickets id' = some other →
      other.triple = ticket.triple → other.isGranted = true → False) :
    Tracks (((s.delete id).deletePolicy user).deletePolicy uma) := by
  have hpol₁ : PoliciesOk (s.delete id) := h.policies.of_policies rfl (Nat.le_refl _)
  have hatt₁ : Attached (s.delete id) ticket.triple uma user scopes := hatt
  have htickets : (((s.delete id).deletePolicy user).deletePolicy uma).tickets =
      Function.update s.tickets id none := rfl
  -- the policies that are left belong to other triples
  have hothers : ∀ triple uma' user' scopes',
      Attached (((s.delete id).deletePolicy user).deletePolicy uma) triple uma' user' scopes' →
      Attached s triple uma' user' scopes' ∧ triple ≠ ticket.triple := by
    intro triple uma' user' scopes' hatt'
    obtain ⟨hne, hold⟩ := (attached_delete_iff hpol₁ hatt₁).mp hatt'
    refine ⟨hold, ?_⟩
    rintro rfl
    exact hne (h.policies.single _ _ _ _ _ _ _ hold hatt)
  refine h.removed htickets rfl rfl (hpol₁.delete hatt₁) ?_ ?_ ?_
  · intro triple uma' user' scopes' scope hatt' hholds
    refine ⟨user', scopes', (attached_delete_iff hpol₁ hatt₁).mpr ⟨?_, hatt'⟩⟩
    rintro rfl
    obtain ⟨id', other, hne, hrow, htriple, hgranted, -⟩ := (holds_delete_iff htickets).mp hholds
    exact hlast id' other hne hrow (htriple.trans (hatt'.inj hatt).1) hgranted
  · intro triple uma' user' scopes' hatt'
    obtain ⟨hold, htriple⟩ := hothers _ _ _ _ hatt'
    obtain ⟨scope, id', other, hrow, htriple', hrest⟩ := h.needed _ _ _ _ hold
    refine ⟨scope, (holds_delete_iff htickets).mpr ⟨id', other, ?_, hrow, htriple', hrest⟩⟩
    rintro rfl
    rw [hid, Option.some.injEq] at hrow
    exact htriple (htriple'.symm.trans (by rw [hrow]))
  · intro triple uma' user' scopes' hatt' scope
    obtain ⟨hold, htriple⟩ := hothers _ _ _ _ hatt'
    rw [h.holds_delete_some_iff hid htickets, h.covers _ _ _ _ hold]
    exact ⟨fun hholds => ⟨hholds, fun heq => htriple heq.1.symm⟩, And.left⟩

theorem Tracks.delete_scope [DecidableEq S] (h : Tracks s) (hid : s.tickets id = some ticket)
    {uma user : Nat} {scopes : Finset S} (hatt : Attached s ticket.triple uma user scopes)
    (hgranted : ticket.isGranted = true) {scope : S} (hscope : ticket.scope = some scope)
    {id' : Nat} {other : PermissionTicketEntity U R S} (hne : id' ≠ id)
    (hrow : s.tickets id' = some other) (htriple : other.triple = ticket.triple)
    (hgranted' : other.isGranted = true) :
    Tracks ((s.delete id).removeScope uma scope) := by
  have hpol₁ : PoliciesOk (s.delete id) := h.policies.of_policies rfl (Nat.le_refl _)
  have hatt₁ : Attached (s.delete id) ticket.triple uma user scopes := hatt
  have htickets : ((s.delete id).removeScope uma scope).tickets =
      Function.update s.tickets id none := rfl
  refine h.removed htickets rfl rfl (hpol₁.updateScopes hatt₁ _) ?_ ?_ ?_
  · intro triple uma' user' scopes' _ hatt' _
    exact ⟨user', Attached.updateScopes (s := s.delete id) hatt' hatt₁ _⟩
  · intro triple uma' user' scopes' hatt'
    rcases (attached_updateScopes_iff hatt₁ _).mp hatt' with ⟨huma, hold⟩ | ⟨-, rfl, -, -⟩
    · obtain ⟨scope', id'', other', hrow', htriple', hrest⟩ := h.needed _ _ _ _ hold
      refine ⟨scope', (holds_delete_iff htickets).mpr ⟨id'', other', ?_, hrow', htriple', hrest⟩⟩
      rintro rfl
      rw [hid, Option.some.injEq] at hrow'
      subst hrow'
      have hatt₂ : Attached s triple uma user scopes := htriple' ▸ hatt
      exact huma (h.policies.single _ _ _ _ _ _ _ hold hatt₂)
    · exact ⟨other.scope, (holds_delete_iff htickets).mpr
        ⟨id', other, hne, hrow, htriple, hgranted', rfl⟩⟩
  · intro triple uma' user' scopes' hatt' scope'
    rw [h.holds_delete_some_iff hid htickets]
    rcases (attached_updateScopes_iff hatt₁ _).mp hatt' with ⟨huma, hold⟩ | ⟨rfl, rfl, rfl, rfl⟩
    · rw [h.covers _ _ _ _ hold]
      refine ⟨fun hholds => ⟨hholds, ?_⟩, And.left⟩
      rintro ⟨htriple', -, -⟩
      have hatt₂ : Attached s triple uma user scopes := htriple' ▸ hatt
      exact huma (h.policies.single _ _ _ _ _ _ _ hold hatt₂)
    · rw [Finset.mem_erase, h.covers _ _ _ _ hatt, hscope, Option.some.injEq]
      constructor
      · rintro ⟨hne', hholds⟩
        exact ⟨hholds, fun heq => hne' heq.2.2.symm⟩
      · rintro ⟨hholds, hnot⟩
        exact ⟨fun heq => hnot ⟨rfl, hgranted, heq.symm⟩, hholds⟩

variable [DecidableEq U] [DecidableEq R] [DecidableEq S] {db : Database U R S}

omit [DecidableEq S] in
theorem Tracks.mem_find_granted (h : Tracks s) (db : Database U R S)
    {other : PermissionTicketEntity U R S} :
    other ∈ (s.delete id).find db
        (fun other => ticket.sameTriple other && other.isGranted) ↔
      ∃ id', id' ≠ id ∧ s.tickets id' = some other ∧ other.triple = ticket.triple ∧
        other.isGranted = true := by
  have htickets : (s.delete id).tickets = Function.update s.tickets id none := rfl
  have hfresh : ∀ id', (s.delete id).nextId ≤ id' → (s.delete id).tickets id' = none := by
    intro id' hid'
    by_cases hne : id' = id
    · rw [hne, htickets, Function.update_self]
    · rw [htickets, Function.update_of_ne hne]
      exact h.tickets.fresh id' hid'
  rw [mem_find hfresh]
  simp only [Bool.and_eq_true, sameTriple_iff]
  constructor
  · rintro ⟨id', hrow, hrest⟩
    by_cases hne : id' = id
    · rw [htickets, hne, Function.update_self] at hrow
      cases hrow
    · exact ⟨id', hne, (Function.update_of_ne hne _ _).symm.trans hrow, hrest⟩
  · rintro ⟨id', hne, hrow, hrest⟩
    exact ⟨id', (Function.update_of_ne hne _ _).trans hrow, hrest⟩

theorem Tracks.deleteWithPolicy (h : Tracks s) : Tracks (s.deleteWithPolicy db id) := by
  unfold Store.deleteWithPolicy
  cases hid : s.tickets id with
  | none => exact h
  | some ticket =>
      cases hgranted : ticket.isGranted with
      | false =>
          have hget : (s.delete id).getPolicy ticket = none := by
            simp [Store.getPolicy, h.tickets.unlinked id ticket hid hgranted]
          simp only [Store.removePolicy, hget]
          exact h.delete_of_dispensable hid fun htrue => by rw [hgranted] at htrue; cases htrue
      | true =>
          obtain ⟨uma, user, scopes, hpolicy, hatt⟩ := h.tickets.linked id ticket hid hgranted
          have hrow : (s.delete id).policies uma = some (umaPolicy ticket.triple user scopes) :=
            hatt.1
          have hget : (s.delete id).getPolicy ticket = some uma := by
            simp [Store.getPolicy, hpolicy, hrow]
          simp only [Store.removePolicy, hget]
          split
          · rename_i hempty
            have hlast : ∀ id' other, id' ≠ id → s.tickets id' = some other →
                other.triple = ticket.triple → other.isGranted = true → False := by
              intro id' other hne hother htriple hgranted'
              have hmem := (h.mem_find_granted db).mpr
                ⟨id', hne, hother, htriple, hgranted'⟩
              rw [List.isEmpty_iff.mp hempty] at hmem
              cases hmem
            have hfinal := h.delete_last hid hatt hlast
            simpa [hrow, umaPolicy] using hfinal
          · rename_i hnonempty
            obtain ⟨other, hother⟩ := List.exists_mem_of_ne_nil _
              (fun hnil => hnonempty (List.isEmpty_iff.mpr hnil))
            obtain ⟨id', hne, hrow', htriple, hgranted'⟩ := (h.mem_find_granted db).mp hother
            cases hscope : ticket.scope with
            | none =>
                exact h.delete_of_dispensable hid fun _ =>
                  ⟨hscope, id', other, hne, hrow', htriple, hgranted'⟩
            | some scope =>
                exact h.delete_scope hid hatt hgranted hscope hne hrow' htriple hgranted'

omit [DecidableEq S] [DecidableEq R] [DecidableEq U] in
theorem eq_or_of_inserted {ticket other : PermissionTicketEntity U R S}
    (hrow : Function.update s.tickets s.nextId (some ticket) id = some other) :
    (id = s.nextId ∧ other = ticket) ∨ s.tickets id = some other := by
  by_cases hid : id = s.nextId
  · rw [hid, Function.update_self, Option.some.injEq] at hrow
    exact .inl ⟨hid, hrow.symm⟩
  · rw [Function.update_of_ne hid] at hrow
    exact .inr hrow

omit [DecidableEq S] [DecidableEq R] [DecidableEq U] in
theorem holds_insert {ticket : PermissionTicketEntity U R S} (h : TicketsOk s)
    (hgranted : ticket.isGranted = false) {triple : U × U × R} {scope : Option S} :
    Holds { s.updateTicket s.nextId ticket with nextId := s.nextId + 1 } triple scope ↔
      Holds s triple scope := by
  constructor
  · rintro ⟨id, other, hrow, htriple, htrue, hscope⟩
    rcases eq_or_of_inserted hrow with ⟨-, rfl⟩ | hold
    · rw [hgranted] at htrue
      cases htrue
    · exact ⟨id, other, hold, htriple, htrue, hscope⟩
  · rintro ⟨id, other, hrow, hrest⟩
    refine ⟨id, other, (Function.update_of_ne ?_ _ _).trans hrow, hrest⟩
    rintro rfl
    rw [h.fresh s.nextId (Nat.le_refl _)] at hrow
    cases hrow

omit [DecidableEq S] [DecidableEq R] [DecidableEq U] in
/-- The table stays in order when a ticket that is not granted is inserted and no other ticket
of its triple has its scope. -/
theorem TicketsOk.insert {ticket : PermissionTicketEntity U R S} (h : TicketsOk s)
    (hgranted : ticket.isGranted = false) (hpolicy : ticket.policy = none)
    (hnew : ∀ id other, s.tickets id = some other → other.triple = ticket.triple →
      other.scope = ticket.scope → ticket.scope ≠ none → False) :
    TicketsOk { s.updateTicket s.nextId ticket with nextId := s.nextId + 1 } where
  fresh := by
    intro id hid
    have hlt : s.nextId + 1 ≤ id := hid
    exact (Function.update_of_ne (by omega) _ _).trans (h.fresh id (by omega))
  linked := by
    intro id other hrow htrue
    rcases eq_or_of_inserted hrow with ⟨-, rfl⟩ | hold
    · rw [hgranted] at htrue
      cases htrue
    · exact h.linked id other hold htrue
  unlinked := by
    intro id other hrow hfalse
    rcases eq_or_of_inserted hrow with ⟨-, rfl⟩ | hold
    · exact hpolicy
    · exact h.unlinked id other hold hfalse
  distinct := by
    intro id₁ id₂ ticket₁ ticket₂ h₁ h₂ htriple hscope hne
    rcases eq_or_of_inserted h₁ with ⟨hid₁, rfl⟩ | hold₁
    · rcases eq_or_of_inserted h₂ with ⟨hid₂, -⟩ | hold₂
      · rw [hid₁, hid₂]
      · exact (hnew id₂ ticket₂ hold₂ htriple.symm hscope.symm hne).elim
    · rcases eq_or_of_inserted h₂ with ⟨-, rfl⟩ | hold₂
      · exact (hnew id₁ ticket₁ hold₁ htriple hscope (hscope ▸ hne)).elim
      · exact h.distinct id₁ id₂ ticket₁ ticket₂ hold₁ hold₂ htriple hscope hne

theorem Tracks.create (h : Tracks s) (resource : R) (scope : Option S) (requester : U) :
    Tracks (s.create db resource scope requester) := by
  obtain ⟨ticket, hticket⟩ : ∃ ticket : PermissionTicketEntity U R S,
      ticket = ⟨db.resourceOwner resource, requester, resource, scope, none, none⟩ := ⟨_, rfl⟩
  have hgranted : ticket.isGranted = false := by rw [hticket]; rfl
  have hscope : ticket.scope = scope := by rw [hticket]
  unfold Store.create
  simp only [← hticket]
  split
  · rename_i hempty
    have hnew : ∀ id other, s.tickets id = some other → other.triple = ticket.triple →
        other.scope = ticket.scope → ticket.scope ≠ none → False := by
      intro id other hrow htriple hsame hne
      have hmem : other ∈ s.find db fun other =>
          ticket.sameTriple other && other.scope = scope && scope.isSome := by
        rw [mem_find h.tickets.fresh]
        refine ⟨id, hrow, ?_⟩
        simp [sameTriple_iff.mpr htriple, hsame, hscope ▸ Option.isSome_iff_ne_none.mpr hne,
          hscope]
      rw [List.isEmpty_iff.mp hempty] at hmem
      cases hmem
    refine ⟨h.dereference, h.policies.of_policies rfl (Nat.le_succ _),
      h.tickets.insert hgranted (by rw [hticket]) hnew, ?_, ?_⟩
    · intro triple uma user scopes hatt
      obtain ⟨scope', hscope'⟩ := h.needed triple uma user scopes hatt
      exact ⟨scope', (holds_insert h.tickets hgranted).mpr hscope'⟩
    · intro triple uma user scopes hatt scope'
      rw [holds_insert h.tickets hgranted]
      exact h.covers triple uma user scopes hatt scope'
  · exact h

end Delete

/-! ## Runs -/

section Runs

variable {U R S : Type} [DecidableEq U] [DecidableEq R] [DecidableEq S]

/-- No timestamp is taken away, and the plain store deletes only dispensable tickets. -/
def Careful (s : Store U R S) : Label U R S → Prop
  | .create _ _ _ => True
  | .setGrantedTimestamp _ millis => millis ≠ none
  | .delete id => ∀ ticket, s.tickets id = some ticket → Dispensable s id ticket
  | .deleteWithPolicy _ => True

theorem step_tracks (db : Database U R S) {s t : Store U R S} {label : Label U R S}
    (h : Tracks s) (hcareful : Careful s label) (hstep : step db s label = some t) :
    Tracks t := by
  cases label with
  | create resource scope requester =>
      cases hstep
      exact h.create resource scope requester
  | setGrantedTimestamp id millis =>
      obtain ⟨millis, rfl⟩ := Option.ne_none_iff_exists'.mp hcareful
      cases hid : s.tickets id with
      | none => simp [step, hid] at hstep
      | some ticket =>
          obtain ⟨s', hset, htracks⟩ := h.setGrantedTimestamp db hid millis
          simp only [step, hid, hset, Option.some.injEq] at hstep
          exact hstep ▸ htracks
  | delete id =>
      cases hstep
      cases hid : s.tickets id with
      | none => exact h.delete_of_absent hid
      | some ticket => exact h.delete_of_dispensable hid (hcareful ticket hid)
  | deleteWithPolicy id =>
      cases hstep
      exact h.deleteWithPolicy

omit [DecidableEq U] [DecidableEq R] [DecidableEq S] in
theorem Tracks.grantsAccess_iff {s : Store U R S} (h : Tracks s) {triple : U × U × R}
    {policy : Policy U R S} :
    GrantsAccess s triple policy ↔
      ∃ uma user, Attached s triple uma user policy.scopes ∧
        policy = umaPolicy triple user policy.scopes := by
  obtain ⟨owner, requester, resource⟩ := triple
  constructor
  · rintro ⟨⟨uma, hrow⟩, htype, howner, hresource, associated, hassociated, other, hother, -,
      hrequester⟩
    obtain ⟨⟨owner', requester', resource'⟩, user, hatt⟩ :=
      h.policies.attached uma policy hrow htype
    have hpolicy := Option.some.inj (hrow.symm.trans hatt.1)
    rw [hpolicy] at howner hresource hassociated
    simp only [umaPolicy, List.mem_singleton] at howner hresource hassociated
    subst howner hresource hassociated
    have huser := Option.some.inj (hother.symm.trans hatt.2)
    rw [huser] at hrequester
    simp only [userPolicy, List.mem_singleton] at hrequester
    subst hrequester
    exact ⟨uma, associated, hatt, hpolicy⟩
  · rintro ⟨uma, user, hatt, hpolicy⟩
    refine ⟨⟨uma, hpolicy ▸ hatt.1⟩, ?_⟩
    rw [hpolicy]
    exact ⟨rfl, rfl, List.mem_singleton_self _, user, List.mem_singleton_self _, _, hatt.2, rfl,
      List.mem_singleton_self _⟩

/-- In every state reached from empty tables by operations on tickets, none of which takes a
granted timestamp away or deletes, by the plain ticket store, a granted ticket that its
policy depends on: no operation has dereferenced `null`, and for every owner, requester and
resource there is a uma policy exactly if a ticket is granted, it is the only one, and it
covers exactly the scopes of the granted tickets. -/
theorem policies_track_tickets (db : Database U R S) (labels : List (Label U R S))
    (s : Store U R S) (hcareful : Machine.Meets (step db) Careful .initial labels)
    (hrun : Machine.run (step db) .initial labels = some s) :
    s.nullDereference = false ∧
    ∀ triple : U × U × R,
      ((∃ policy, GrantsAccess s triple policy) ↔ ∃ scope, Holds s triple scope) ∧
      (∀ policy policy', GrantsAccess s triple policy → GrantsAccess s triple policy' →
        policy = policy') ∧
      ∀ scope, (∃ policy, GrantsAccess s triple policy ∧ scope ∈ policy.scopes) ↔
        Holds s triple (some scope) := by
  have h : Tracks s :=
    Machine.run_invariant (fun _ _ _ hinv hok hstep => step_tracks db hinv hok hstep)
      initial_tracks hcareful hrun
  refine ⟨h.dereference, fun triple => ⟨⟨?_, ?_⟩, ?_, ?_⟩⟩
  · rintro ⟨policy, hpolicy⟩
    obtain ⟨uma, user, hatt, -⟩ := h.grantsAccess_iff.mp hpolicy
    exact h.needed _ _ _ _ hatt
  · rintro ⟨scope, id, ticket, hrow, rfl, hgranted, -⟩
    obtain ⟨uma, user, scopes, -, hatt⟩ := h.tickets.linked id ticket hrow hgranted
    exact ⟨umaPolicy ticket.triple user scopes, h.grantsAccess_iff.mpr ⟨uma, user, hatt, rfl⟩⟩
  · intro policy policy' hpolicy hpolicy'
    obtain ⟨uma, user, hatt, heq⟩ := h.grantsAccess_iff.mp hpolicy
    obtain ⟨uma', user', hatt', heq'⟩ := h.grantsAccess_iff.mp hpolicy'
    have huma := h.policies.single _ _ _ _ _ _ _ hatt hatt'
    subst huma
    obtain ⟨-, rfl, hscopes⟩ := hatt.inj hatt'
    rw [heq, heq', hscopes]
  · intro scope
    constructor
    · rintro ⟨policy, hpolicy, hscope⟩
      obtain ⟨uma, user, hatt, -⟩ := h.grantsAccess_iff.mp hpolicy
      exact (h.covers _ _ _ _ hatt scope).mp hscope
    · rintro ⟨id, ticket, hrow, rfl, hgranted, hscope⟩
      obtain ⟨uma, user, scopes, -, hatt⟩ := h.tickets.linked id ticket hrow hgranted
      exact ⟨umaPolicy ticket.triple user scopes,
        h.grantsAccess_iff.mpr ⟨uma, user, hatt, rfl⟩,
        (h.covers _ _ _ _ hatt scope).mpr ⟨id, ticket, hrow, rfl, hgranted, hscope⟩⟩

end Runs

def oneOwner : Database Nat Nat Nat := ⟨fun _ => 0, fun rows => rows, fun _ => .refl _⟩

def grantedOnce : List (Label Nat Nat Nat) :=
  [.create 1 (some 7) 2, .setGrantedTimestamp 0 (some 5)]

theorem grantedOnce_tracked :
    ∃ s, Machine.run (step oneOwner) .initial grantedOnce = some s ∧
      s.nullDereference = false ∧
      ∃ policy, GrantsAccess s (0, 2, 1) policy ∧ 7 ∈ policy.scopes := by
  have hcareful : Machine.Meets (step oneOwner) Careful .initial grantedOnce :=
    .cons trivial rfl (.cons (Option.some_ne_none 5) rfl trivial)
  obtain ⟨hderef, htriple⟩ := policies_track_tickets oneOwner grantedOnce _ hcareful rfl
  refine ⟨_, rfl, hderef, ((htriple (0, 2, 1)).2.2 7).mpr ?_⟩
  exact ⟨0, _, rfl, rfl, rfl, rfl⟩

/-- A timestamp taken away again, and a granted ticket deleted by the plain store. -/
theorem revoked_dereferences :
    (∃ s, Machine.run (step oneOwner) .initial
        (grantedOnce ++ [.setGrantedTimestamp 0 none]) = some s ∧
      s.nullDereference = true) ∧
    ∃ s, Machine.run (step oneOwner) .initial (grantedOnce ++ [.delete 0]) = some s ∧
      (∀ scope, ¬ Holds s (0, 2, 1) scope) ∧ ∃ policy, GrantsAccess s (0, 2, 1) policy := by
  refine ⟨⟨_, rfl, rfl⟩, _, rfl, ?_, ?_⟩
  · rintro scope ⟨id, ticket, hrow, -⟩
    cases id with
    | zero => cases hrow
    | succ id => cases hrow
  · exact ⟨_, ⟨2, rfl⟩, rfl, rfl, List.mem_singleton_self _, 1, List.mem_singleton_self _, _, rfl,
      rfl, List.mem_singleton_self _⟩

end Keycloak.Authz.Uma
