import Keycloak.Authz.AuthorizationTokenService

/-!
# Requests for access

`PermissionTicketAwareDecisionResultCollector` takes out of the ticket of a request what a
user-managed policy permits, and creates permission tickets for what is left.  It does so at each
decision, when the outcome of the policy as a whole is not known yet.
-/

namespace Keycloak.Authz.RequestTickets

/-- A decision that reaches the collector.  The policy is missing while the parent policy itself
is evaluated, and there is no parent policy where no policy is consulted. -/
structure Decision where
  permission : ResourcePermission
  parentPolicy : Option Policy
  policy : Option Policy
  effect : Effect

/-- A permission that the policy store finds, with the decisions that its provider makes. -/
structure FedPolicy where
  policy : Policy
  decisions : List (Option Policy × Effect)

/-- The evaluation of a resource permission.  User-managed policies are found by the resource. -/
structure Evaluation where
  permission : ResourcePermission
  fed : List FedPolicy
  of_resource : ∀ found ∈ fed, found.policy.type = .uma → permission.resource.isSome

/-- The queries of the stores of one resource server; scopes are named uniquely. -/
structure TicketStore extends RequestStore where
  findScopeById : String → Option Scope
  id_of_findById : ∀ id resource, findById id = some resource → resource.id = id
  scope_of_resource : ∀ id resource, findById id = some resource →
    ∀ scope ∈ resource.scopes, findScopeByName scope.name = some scope
  scope_of_named : ∀ name owner resource, findByName name owner = some resource →
    ∀ scope ∈ resource.scopes, findScopeByName scope.name = some scope

structure PermissionTicket where
  resource : String
  scope : Option String
  requester : String
  deriving DecidableEq

/-! ## The decisions of an evaluation -/

/-- `DefaultPolicyEvaluator.evaluate`, as far as the collector can tell. -/
def decisionsFor (mode : PolicyEnforcementMode) (evaluation : Evaluation) : List Decision :=
  match mode with
  | .disabled => [⟨evaluation.permission, none, none, .permit⟩]
  | mode =>
      if evaluation.fed.isEmpty then
        if mode = .permissive then [⟨evaluation.permission, none, none, .permit⟩] else []
      else
        evaluation.fed.flatMap fun found => found.decisions.map fun (policy, effect) =>
          ⟨evaluation.permission, some found.policy, policy, effect⟩

def decisions (mode : PolicyEnforcementMode) (evaluations : List Evaluation) : List Decision :=
  evaluations.flatMap (decisionsFor mode)

section

variable (stores : TicketStore) (server : ResourceServer) (identity : String)

/-! ## The collector -/

/-- `super.onDecision`; `none` is a null pointer. -/
def collect (decision : Decision) (s : State) : Option State :=
  match decision.parentPolicy with
  | some parentPolicy =>
      onDecision ⟨decision.permission, parentPolicy, decision.policy, some decision.effect⟩
        decision.effect s
  | none =>
      some { s with
        results := LinkedMap.alter decision.permission.identity
          (fun found => { found.getD (Result.ofPermission decision.permission) with
            status := decision.effect })
          s.results }

/-- `policy.getScopes().contains(scopeStore.findByName(name))`. -/
def covers (policy : Policy) (name : String) : Bool :=
  (stores.findScopeByName name).any fun scope => policy.data.scopes.contains scope

/-- The loop over the permissions of the ticket; `none` is a null pointer, for a permission
without a resource. -/
def removePermissions (policy : Policy) (granted : Option Resource) :
    List TicketPermission → Option (List TicketPermission)
  | [] => some []
  | permission :: rest =>
      match getResourceId permission.resourceId, granted with
      | some resourceId, some resource =>
          (removePermissions policy granted rest).map fun rest =>
            if resourceId = resource.id then
              let scopes := permission.scopes.filter fun name => !covers stores policy name
              if scopes.isEmpty then rest else { permission with scopes } :: rest
            else permission :: rest
      | _, _ => none

def removePermissionsIfGranted (decision : Decision) (ticket : List TicketPermission) :
    Option (List TicketPermission) :=
  match decision.effect with
  | .deny => some ticket
  | .permit =>
      match decision.parentPolicy with
      | none => none
      | some policy =>
          if policy.type = .uma then
            removePermissions stores policy decision.permission.resource ticket
          else some ticket

structure Collector where
  state : State
  ticket : List TicketPermission

def Collector.onDecision (c : Collector) (decision : Decision) : Option Collector := do
  let state ← collect decision c.state
  let ticket ← removePermissionsIfGranted stores decision c.ticket
  return ⟨state, ticket⟩

def Collector.decideAll (c : Collector) : List Decision → Option Collector
  | [] => some c
  | decision :: rest => (c.onDecision stores decision).bind fun c => decideAll c rest

/-- `create`, unless `find` has found a ticket. -/
def createTicket (resource : Resource) (scope : Option String) (tickets : List PermissionTicket) :
    List PermissionTicket :=
  if tickets.contains ⟨resource.id, scope, identity⟩ then tickets
  else tickets ++ [⟨resource.id, scope, identity⟩]

def findScope (name : String) : Option Scope :=
  (stores.findScopeByName name).or (stores.findScopeById name)

/-- The loop over the scopes; `none` is a null pointer, for a scope that is not there. -/
def createTickets (resource : Resource) :
    List String → List PermissionTicket → Option (List PermissionTicket)
  | [], tickets => some tickets
  | name :: rest, tickets =>
      match findScope stores name with
      | none => none
      | some scope =>
          createTickets resource rest (createTicket identity resource (some scope.id) tickets)

def findResource (permission : TicketPermission) : Option Resource :=
  (getResourceId permission.resourceId).bind fun id =>
    (stores.findById id).or (stores.findByName id identity)

/-- The resource is managed by its owner, who is neither the requester nor the resource server. -/
def askedOf (resource : Resource) : Bool :=
  resource.ownerManagedAccess && !decide (resource.owner = identity) &&
    !decide (resource.owner = server.id)

def completePermission (permission : TicketPermission) (tickets : List PermissionTicket) :
    Option (List PermissionTicket) :=
  match (findResource stores identity permission).filter (askedOf server identity) with
  | none => some tickets
  | some resource =>
      let scopes :=
        if permission.scopes.isEmpty then (resource.scopes.map Scope.name).dedup
        else permission.scopes
      if scopes.isEmpty then some (createTicket identity resource none tickets)
      else createTickets stores identity resource scopes tickets

def complete : List TicketPermission → List PermissionTicket → Option (List PermissionTicket)
  | [], tickets => some tickets
  | permission :: rest, tickets =>
      (completePermission stores server identity permission tickets).bind (complete rest)

def onComplete (submitRequest : Bool) (ticket : List TicketPermission)
    (tickets : List PermissionTicket) : Option (List PermissionTicket) :=
  if submitRequest then complete stores server identity ticket tickets else some tickets

/-! ## What should be recorded -/

def Decision.Grants (decision : Decision) (resourceId : String) (policy : Policy) : Prop :=
  decision.effect = .permit ∧ decision.parentPolicy = some policy ∧ policy.type = .uma ∧
    ∃ resource, decision.permission.resource = some resource ∧ resource.id = resourceId

def Permitted (decisions : List Decision) (resourceId : String) : Prop :=
  ∃ decision ∈ decisions, ∃ policy, decision.Grants resourceId policy

def Taken (decisions : List Decision) (resourceId name : String) : Prop :=
  ∃ decision ∈ decisions, ∃ policy, decision.Grants resourceId policy ∧
    covers stores policy name = true

def AskedOf (entry : TicketPermission) (resource : Resource) : Prop :=
  findResource stores identity entry = some resource ∧ askedOf server identity resource = true

/-- The entry lists the scope, or lists none and the resource has the scope. -/
def Asks (entry : TicketPermission) (resource : Resource) (scope : Scope) : Prop :=
  (entry.scopes = [] ∧ scope ∈ resource.scopes) ∨
    ∃ name ∈ entry.scopes, findScope stores name = some scope

/-- A user-managed policy of the resource that covers the scope is granted as a whole. -/
def GrantedAsWhole (s : State) (resource : Resource) (scope : Scope) : Prop :=
  ∃ entry ∈ s.results, (∃ found, entry.2.permission.resource = some found ∧
      found.id = resource.id) ∧
    ∃ result ∈ entry.2.results, result.2.policy.type = .uma ∧
      scope ∈ result.2.policy.data.scopes ∧ isGranted result.2 = true

/-- No decision fails, and every scope that is asked of an owner has a ticket when the collector
has completed, unless a policy grants it. -/
def RecordsRequests (mode : PolicyEnforcementMode) (evaluations : List Evaluation)
    (claims : Nat → Claims) (ticket : List TicketPermission) (tickets : List PermissionTicket) :
    Prop :=
  ∃ c tickets', Collector.decideAll stores ⟨State.initial claims, ticket⟩
      (decisions mode evaluations) = some c ∧
    onComplete stores server identity true c.ticket tickets = some tickets' ∧
    ∀ entry ∈ ticket, ∀ resource, AskedOf stores server identity entry resource →
      ∀ scope, Asks stores entry resource scope →
        ⟨resource.id, some scope.id, identity⟩ ∈ tickets' ∨
          GrantedAsWhole c.state resource scope

def StillAsks (decisions : List Decision) (entry : TicketPermission) (resource : Resource)
    (scopeId : String) : Prop :=
  ∃ id, getResourceId entry.resourceId = some id ∧
    ((entry.scopes = [] ∧ ¬ Permitted decisions id ∧
        ∃ scope ∈ resource.scopes, scope.id = scopeId) ∨
      ∃ name ∈ entry.scopes, ¬ Taken stores decisions id name ∧
        ∃ scope, findScope stores name = some scope ∧ scope.id = scopeId)

/-- A decision on a policy itself comes after another one on it, or on the permission. -/
def Recorded (before : List Decision) (decision : Decision) : Prop :=
  ∀ parentPolicy, decision.parentPolicy = some parentPolicy →
    parentPolicy.id = (decision.policy.getD parentPolicy).id →
      ∃ earlier ∈ before, earlier.permission.identity = decision.permission.identity ∨
        ∃ policy, earlier.parentPolicy = some policy ∧ policy.id = parentPolicy.id

structure NothingLost (mode : PolicyEnforcementMode) (evaluations : List Evaluation)
    (claims : Nat → Claims) (ticket : List TicketPermission) (tickets : List PermissionTicket) :
    Prop where
  not_disabled : mode = .disabled → evaluations = []
  consulted : mode = .permissive → ∀ evaluation ∈ evaluations, evaluation.fed ≠ []
  recorded : ∀ before decision after,
    decisions mode evaluations = before ++ decision :: after → Recorded before decision
  /-- Where a user-managed policy permits something, every entry names a resource. -/
  named : (∃ id, Permitted (decisions mode evaluations) id) →
    ∀ entry ∈ ticket, (getResourceId entry.resourceId).isSome
  found : ∀ entry ∈ ticket, ∀ resource, AskedOf stores server identity entry resource →
    ∀ name ∈ entry.scopes, (findScope stores name).isSome
  /-- A scope that is taken from every entry is granted, or has a ticket already. -/
  kept : ∀ entry ∈ ticket, ∀ resource, AskedOf stores server identity entry resource →
    ∀ scope, Asks stores entry resource scope →
      ⟨resource.id, some scope.id, identity⟩ ∈ tickets ∨
        (∃ s, (decisions mode evaluations).foldlM (fun s decision => collect decision s)
            (State.initial claims) = some s ∧ GrantedAsWhole s resource scope) ∨
        ∃ other ∈ ticket, ∃ resource', AskedOf stores server identity other resource' ∧
          resource'.id = resource.id ∧
          StillAsks stores (decisions mode evaluations) other resource' scope.id

end

/-! ## Creating tickets -/

section

variable {stores : TicketStore} {server : ResourceServer} {identity : String}
  {tickets tickets' : List PermissionTicket} {resource : Resource} {entry : TicketPermission}

theorem mem_createTicket {scope : Option String} {ticket : PermissionTicket} :
    ticket ∈ createTicket identity resource scope tickets ↔
      ticket ∈ tickets ∨ ticket = ⟨resource.id, scope, identity⟩ := by
  rw [createTicket]
  split
  · rename_i hfound
    rw [List.contains_iff_mem] at hfound
    exact ⟨.inl, fun h => h.elim id fun heq => heq ▸ hfound⟩
  · rw [List.mem_append, List.mem_singleton]

theorem createTickets_isSome {names : List String} :
    (createTickets stores identity resource names tickets).isSome ↔
      ∀ name ∈ names, (findScope stores name).isSome := by
  induction names generalizing tickets with
  | nil => simp [createTickets]
  | cons name rest ih =>
      rw [createTickets, List.forall_mem_cons]
      cases hscope : findScope stores name with
      | none => simp
      | some scope => simp [ih]

theorem mem_createTickets {names : List String} {ticket : PermissionTicket}
    (h : createTickets stores identity resource names tickets = some tickets') :
    ticket ∈ tickets' ↔ ticket ∈ tickets ∨ ∃ name ∈ names, ∃ scope,
      findScope stores name = some scope ∧ ticket = ⟨resource.id, some scope.id, identity⟩ := by
  induction names generalizing tickets with
  | nil =>
      cases h
      simp
  | cons name rest ih =>
      rw [createTickets] at h
      cases hscope : findScope stores name with
      | none =>
          rw [hscope] at h
          cases h
      | some scope =>
          rw [hscope] at h
          rw [ih h, mem_createTicket, List.exists_mem_cons_iff, or_assoc]
          simp only [hscope, Option.some.injEq, exists_eq_left']

theorem findScope_of_mem (h : findResource stores identity entry = some resource)
    {scope : Scope} (hscope : scope ∈ resource.scopes) :
    findScope stores scope.name = some scope := by
  have hname : stores.findScopeByName scope.name = some scope := by
    obtain ⟨id, -, hfound⟩ := Option.bind_eq_some_iff.mp h
    cases hid : stores.findById id with
    | some found =>
        rw [hid, Option.some_or, Option.some.injEq] at hfound
        exact stores.scope_of_resource id resource (hfound ▸ hid) scope hscope
    | none =>
        rw [hid, Option.none_or] at hfound
        exact stores.scope_of_named id identity resource hfound scope hscope
  rw [findScope, hname, Option.some_or]

theorem completePermission_of_not
    (h : ∀ resource, ¬ AskedOf stores server identity entry resource) :
    completePermission stores server identity entry tickets = some tickets := by
  have hnone : (findResource stores identity entry).filter (askedOf server identity) = none := by
    cases hfound : findResource stores identity entry with
    | none => rfl
    | some found =>
        apply Option.filter_eq_none_iff.mpr
        intro asked hasked hof
        exact h asked ⟨hfound.trans hasked, hof⟩
  rw [completePermission, hnone]

theorem completePermission_of (h : AskedOf stores server identity entry resource) :
    completePermission stores server identity entry tickets =
      if entry.scopes = [] ∧ resource.scopes = [] then
        some (createTicket identity resource none tickets)
      else createTickets stores identity resource
        (if entry.scopes.isEmpty then (resource.scopes.map Scope.name).dedup else entry.scopes)
        tickets := by
  have hsome : (findResource stores identity entry).filter (askedOf server identity) =
      some resource := by
    rw [h.1, Option.filter_some, if_pos h.2]
  rw [completePermission, hsome]
  by_cases hscopes : entry.scopes = []
  · by_cases hnone : resource.scopes = []
    · simp [hscopes, hnone]
    · simp [hscopes, hnone]
  · simp [hscopes]

theorem asks_iff (h : AskedOf stores server identity entry resource) {scope : Scope} :
    Asks stores entry resource scope ↔
      ∃ name ∈ (if entry.scopes.isEmpty then (resource.scopes.map Scope.name).dedup
        else entry.scopes), findScope stores name = some scope := by
  by_cases hscopes : entry.scopes = []
  · simp only [Asks, hscopes, List.isEmpty_nil, if_true, List.mem_dedup, List.mem_map, true_and,
      List.not_mem_nil, false_and, exists_false, or_false]
    constructor
    · intro hscope
      exact ⟨scope.name, ⟨scope, hscope, rfl⟩, findScope_of_mem h.1 hscope⟩
    · intro ⟨name, ⟨other, hother, hname⟩, hscope⟩
      rw [← hname, findScope_of_mem h.1 hother] at hscope
      exact Option.some.inj hscope ▸ hother
  · simp [Asks, hscopes]

variable (stores server identity tickets entry) in
theorem completePermission_isSome :
    (completePermission stores server identity entry tickets).isSome ↔
      ∀ resource, AskedOf stores server identity entry resource →
        ∀ name ∈ entry.scopes, (findScope stores name).isSome := by
  by_cases hasked : ∃ resource, AskedOf stores server identity entry resource
  · obtain ⟨resource, hasked⟩ := hasked
    have honly : (∀ resource, AskedOf stores server identity entry resource →
        ∀ name ∈ entry.scopes, (findScope stores name).isSome) ↔
        ∀ name ∈ entry.scopes, (findScope stores name).isSome :=
      ⟨fun h => h resource hasked, fun h _ _ => h⟩
    rw [honly, completePermission_of hasked]
    split
    · rename_i hnone
      simp [hnone.1]
    · rw [createTickets_isSome]
      by_cases hscopes : entry.scopes = []
      · simp only [hscopes, List.isEmpty_nil, if_true, List.mem_dedup, List.mem_map,
          List.not_mem_nil, false_imp_iff, implies_true, iff_true]
        intro name ⟨scope, hscope, hname⟩
        rw [← hname, findScope_of_mem hasked.1 hscope]
        rfl
      · simp [hscopes]
  · have hnone : ∀ resource, ¬ AskedOf stores server identity entry resource :=
      fun resource h => hasked ⟨resource, h⟩
    rw [completePermission_of_not hnone]
    exact iff_of_true rfl fun resource h => absurd h (hnone resource)

theorem mem_completePermission {resourceId scopeId : String}
    (h : completePermission stores server identity entry tickets = some tickets') :
    ⟨resourceId, some scopeId, identity⟩ ∈ tickets' ↔
      ⟨resourceId, some scopeId, identity⟩ ∈ tickets ∨
        ∃ resource, AskedOf stores server identity entry resource ∧ resource.id = resourceId ∧
          ∃ scope, Asks stores entry resource scope ∧ scope.id = scopeId := by
  by_cases hasked : ∃ resource, AskedOf stores server identity entry resource
  · obtain ⟨resource, hasked⟩ := hasked
    have honly : (∃ resource, AskedOf stores server identity entry resource ∧
          resource.id = resourceId ∧ ∃ scope, Asks stores entry resource scope ∧
            scope.id = scopeId) ↔
        resource.id = resourceId ∧ ∃ scope, Asks stores entry resource scope ∧
          scope.id = scopeId := by
      constructor
      · intro ⟨other, hother, hid, hasks⟩
        have hsame : other = resource := Option.some.inj (hother.1.symm.trans hasked.1)
        exact hsame ▸ ⟨hid, hasks⟩
      · intro ⟨hid, hasks⟩
        exact ⟨resource, hasked, hid, hasks⟩
    rw [honly]
    rw [completePermission_of hasked] at h
    split at h
    · rename_i hnone
      cases h
      rw [mem_createTicket]
      simp [Asks, hnone.1, hnone.2]
    · rw [mem_createTickets h]
      apply or_congr_right
      constructor
      · intro ⟨name, hname, scope, hscope, hticket⟩
        cases hticket
        exact ⟨rfl, scope, (asks_iff hasked).mpr ⟨name, hname, hscope⟩, rfl⟩
      · intro ⟨hid, scope, hasks, hscopeId⟩
        obtain ⟨name, hname, hscope⟩ := (asks_iff hasked).mp hasks
        exact ⟨name, hname, scope, hscope, by rw [hid, hscopeId]⟩
  · have hnone : ∀ resource, ¬ AskedOf stores server identity entry resource :=
      fun resource h => hasked ⟨resource, h⟩
    rw [completePermission_of_not hnone] at h
    cases h
    apply (or_iff_left _).symm
    intro ⟨resource, h, _⟩
    exact hnone resource h

variable (tickets) in
theorem complete_isSome {ticket : List TicketPermission} :
    (complete stores server identity ticket tickets).isSome ↔
      ∀ entry ∈ ticket, ∀ resource, AskedOf stores server identity entry resource →
        ∀ name ∈ entry.scopes, (findScope stores name).isSome := by
  induction ticket generalizing tickets with
  | nil => simp [complete]
  | cons entry rest ih =>
      rw [complete, List.forall_mem_cons,
        ← completePermission_isSome stores server identity tickets entry]
      cases completePermission stores server identity entry tickets with
      | none => simp
      | some before =>
          rw [Option.bind_some, ih, Option.isSome_some, eq_self, true_and]

theorem mem_complete {ticket : List TicketPermission} {resourceId scopeId : String}
    (h : complete stores server identity ticket tickets = some tickets') :
    ⟨resourceId, some scopeId, identity⟩ ∈ tickets' ↔
      ⟨resourceId, some scopeId, identity⟩ ∈ tickets ∨ ∃ entry ∈ ticket,
        ∃ resource, AskedOf stores server identity entry resource ∧ resource.id = resourceId ∧
          ∃ scope, Asks stores entry resource scope ∧ scope.id = scopeId := by
  induction ticket generalizing tickets with
  | nil =>
      cases h
      simp
  | cons entry rest ih =>
      rw [complete] at h
      obtain ⟨before, hbefore, h⟩ := Option.bind_eq_some_iff.mp h
      rw [ih h, mem_completePermission hbefore, List.exists_mem_cons_iff, or_assoc]

end

/-! ## Taking what is permitted out of the ticket -/

structure Left (stores : TicketStore) (decisions : List Decision) (entry left : TicketPermission) :
    Prop where
  resourceId : left.resourceId = entry.resourceId
  scopes : ∀ name, name ∈ left.scopes ↔ name ∈ entry.scopes ∧
    ∀ id, getResourceId entry.resourceId = some id → ¬ Taken stores decisions id name
  nonempty : ∀ id, getResourceId entry.resourceId = some id → Permitted decisions id →
    left.scopes ≠ []

def Lasts (stores : TicketStore) (decisions : List Decision) (entry : TicketPermission) : Prop :=
  ∀ id, getResourceId entry.resourceId = some id → Permitted decisions id →
    ∃ name ∈ entry.scopes, ¬ Taken stores decisions id name

/-- The ticket after the decisions has exactly what is left of its entries. -/
structure Leaves (stores : TicketStore) (decisions : List Decision)
    (ticket left : List TicketPermission) : Prop where
  origin : ∀ entry' ∈ left, ∃ entry ∈ ticket, Left stores decisions entry entry'
  kept : ∀ entry ∈ ticket, Lasts stores decisions entry →
    ∃ entry' ∈ left, Left stores decisions entry entry'

section

variable {stores : TicketStore} {decisions more : List Decision} {id name : String}

theorem permitted_append :
    Permitted (decisions ++ more) id ↔ Permitted decisions id ∨ Permitted more id := by
  simp only [Permitted, List.mem_append, or_and_right, exists_or]

theorem taken_append :
    Taken stores (decisions ++ more) id name ↔
      Taken stores decisions id name ∨ Taken stores more id name := by
  simp only [Taken, List.mem_append, or_and_right, exists_or]

theorem Taken.permitted (h : Taken stores decisions id name) : Permitted decisions id := by
  obtain ⟨decision, hmem, policy, hgrants, -⟩ := h
  exact ⟨decision, hmem, policy, hgrants⟩

theorem Left.trans {entry left left' : TicketPermission} (h : Left stores decisions entry left)
    (h' : Left stores more left left') : Left stores (decisions ++ more) entry left' where
  resourceId := h'.resourceId.trans h.resourceId
  scopes name := by
    rw [h'.scopes, h.scopes, h.resourceId, and_assoc]
    simp only [taken_append, not_or, ← forall_and]
  nonempty id hid hpermitted := by
    have hid' : getResourceId left.resourceId = some id := by
      rw [h.resourceId]
      exact hid
    by_cases hmore : Permitted more id
    · exact h'.nonempty id hid' hmore
    · have hbefore := h.nonempty id hid ((permitted_append.mp hpermitted).resolve_right hmore)
      obtain ⟨name, hname⟩ := List.exists_mem_of_ne_nil _ hbefore
      apply List.ne_nil_of_mem (a := name)
      apply (h'.scopes name).mpr
      refine ⟨hname, fun other hother htaken => hmore ?_⟩
      rw [hid', Option.some.injEq] at hother
      exact hother ▸ htaken.permitted

theorem Leaves.trans {ticket left left' : List TicketPermission}
    (h : Leaves stores decisions ticket left) (h' : Leaves stores more left left') :
    Leaves stores (decisions ++ more) ticket left' where
  origin entry'' hentry'' := by
    obtain ⟨entry', hentry', hleft'⟩ := h'.origin entry'' hentry''
    obtain ⟨entry, hentry, hleft⟩ := h.origin entry' hentry'
    exact ⟨entry, hentry, hleft.trans hleft'⟩
  kept entry hentry hlasts := by
    have hfirst : Lasts stores decisions entry := by
      intro id hid hpermitted
      obtain ⟨name, hname, hfree⟩ := hlasts id hid (permitted_append.mpr (.inl hpermitted))
      exact ⟨name, hname, fun htaken => hfree (taken_append.mpr (.inl htaken))⟩
    obtain ⟨entry', hentry', hleft⟩ := h.kept entry hentry hfirst
    have hsecond : Lasts stores more entry' := by
      intro id hid hpermitted
      rw [hleft.resourceId] at hid
      obtain ⟨name, hname, hfree⟩ := hlasts id hid (permitted_append.mpr (.inr hpermitted))
      rw [taken_append, not_or] at hfree
      refine ⟨name, (hleft.scopes name).mpr ⟨hname, fun other hother => ?_⟩, hfree.2⟩
      rw [hid, Option.some.injEq] at hother
      exact hother ▸ hfree.1
    obtain ⟨entry'', hentry'', hleft'⟩ := h'.kept entry' hentry' hsecond
    exact ⟨entry'', hentry'', hleft.trans hleft'⟩

theorem leaves_of_not_permitted (h : ∀ id, ¬ Permitted decisions id)
    (ticket : List TicketPermission) : Leaves stores decisions ticket ticket := by
  have hleft : ∀ entry, Left stores decisions entry entry := fun entry =>
    { resourceId := rfl
      scopes := fun name => by
        rw [iff_self_and]
        exact fun _ id _ htaken => h id htaken.permitted
      nonempty := fun id _ hpermitted => absurd hpermitted (h id) }
  exact ⟨fun entry hentry => ⟨entry, hentry, hleft entry⟩,
    fun entry hentry _ => ⟨entry, hentry, hleft entry⟩⟩

theorem Leaves.cons {entry entry' : TicketPermission} {ticket left : List TicketPermission}
    (h : Left stores decisions entry entry') (h' : Leaves stores decisions ticket left) :
    Leaves stores decisions (entry :: ticket) (entry' :: left) where
  origin := by
    rw [List.forall_mem_cons]
    refine ⟨⟨entry, List.mem_cons_self, h⟩, fun other hother => ?_⟩
    obtain ⟨before, hbefore, hleft⟩ := h'.origin other hother
    exact ⟨before, List.mem_cons_of_mem _ hbefore, hleft⟩
  kept := by
    rw [List.forall_mem_cons]
    refine ⟨fun _ => ⟨entry', List.mem_cons_self, h⟩, fun other hother hlasts => ?_⟩
    obtain ⟨after, hafter, hleft⟩ := h'.kept other hother hlasts
    exact ⟨after, List.mem_cons_of_mem _ hafter, hleft⟩

theorem Leaves.drop {entry : TicketPermission} {ticket left : List TicketPermission}
    (h : ¬ Lasts stores decisions entry) (h' : Leaves stores decisions ticket left) :
    Leaves stores decisions (entry :: ticket) left where
  origin other hother := by
    obtain ⟨before, hbefore, hleft⟩ := h'.origin other hother
    exact ⟨before, List.mem_cons_of_mem _ hbefore, hleft⟩
  kept := by
    rw [List.forall_mem_cons]
    exact ⟨fun hlasts => absurd hlasts h, h'.kept⟩

section

variable {decision : Decision} {policy : Policy} {resource : Resource}

theorem permitted_singleton (hgrants : decision.Grants resource.id policy) :
    Permitted [decision] id ↔ id = resource.id := by
  obtain ⟨heffect, hparent, htype, found, hfound, hid⟩ := hgrants
  constructor
  · intro ⟨other, hother, policy', _, _, _, found', hfound', hid'⟩
    rw [List.mem_singleton.mp hother, hfound, Option.some.injEq] at hfound'
    rw [← hid', ← hfound', hid]
  · intro heq
    exact ⟨decision, List.mem_singleton_self _, policy, heffect, hparent, htype, found, hfound,
      hid.trans heq.symm⟩

theorem taken_singleton (hgrants : decision.Grants resource.id policy) :
    Taken stores [decision] id name ↔ id = resource.id ∧ covers stores policy name = true := by
  constructor
  · intro htaken
    refine ⟨(permitted_singleton hgrants).mp htaken.permitted, ?_⟩
    obtain ⟨other, hother, policy', hgrants', hcovers⟩ := htaken
    have hparent := hgrants'.2.1
    rw [List.mem_singleton.mp hother, hgrants.2.1, Option.some.injEq] at hparent
    rwa [← hparent] at hcovers
  · intro ⟨hid, hcovers⟩
    exact ⟨decision, List.mem_singleton_self _, policy, hid ▸ hgrants, hcovers⟩

theorem removePermissions_leaves (hgrants : decision.Grants resource.id policy)
    {ticket left : List TicketPermission}
    (h : removePermissions stores policy (some resource) ticket = some left) :
    Leaves stores [decision] ticket left := by
  induction ticket generalizing left with
  | nil =>
      cases h
      exact ⟨fun _ hmem => absurd hmem List.not_mem_nil, fun _ hmem => absurd hmem List.not_mem_nil⟩
  | cons entry rest ih =>
      cases hid : getResourceId entry.resourceId with
      | none =>
          simp only [removePermissions, hid] at h
          cases h
      | some id =>
          simp only [removePermissions, hid, Option.map_eq_some_iff] at h
          obtain ⟨rest', hrest, hleft⟩ := h
          have ih := ih hrest
          by_cases hsame : id = resource.id
          · have hkept : ∀ name, name ∈ entry.scopes.filter (fun name =>
                !covers stores policy name) ↔ name ∈ entry.scopes ∧
                  ¬ Taken stores [decision] id name := by
              intro name
              rw [List.mem_filter, taken_singleton hgrants, and_iff_right hsame,
                Bool.not_eq_true', Bool.not_eq_true]
            rw [if_pos hsame] at hleft
            by_cases hempty : (entry.scopes.filter fun name =>
                !covers stores policy name).isEmpty = true
            · rw [if_pos hempty] at hleft
              rw [← hleft]
              apply ih.drop
              intro hlasts
              obtain ⟨name, hname, hfree⟩ :=
                hlasts id hid ((permitted_singleton hgrants).mpr hsame)
              have hmem := (hkept name).mpr ⟨hname, hfree⟩
              rw [List.isEmpty_iff.mp hempty] at hmem
              exact List.not_mem_nil hmem
            · rw [if_neg hempty] at hleft
              rw [← hleft]
              apply Leaves.cons _ ih
              refine ⟨rfl, fun name => ?_, fun _ _ _ hnil => hempty (List.isEmpty_iff.mpr hnil)⟩
              simp only [hid, Option.some.injEq, forall_eq']
              exact hkept name
          · rw [if_neg hsame] at hleft
            rw [← hleft]
            apply Leaves.cons _ ih
            have hnot : ∀ id', getResourceId entry.resourceId = some id' →
                ¬ Permitted [decision] id' := by
              intro id' hid' hpermitted
              rw [hid, Option.some.injEq] at hid'
              exact hsame (hid' ▸ (permitted_singleton hgrants).mp hpermitted)
            refine ⟨rfl, fun name => ?_, fun id' hid' hpermitted =>
              absurd hpermitted (hnot id' hid')⟩
            rw [iff_self_and]
            exact fun _ id' hid' htaken => hnot id' hid' htaken.permitted

end

theorem removePermissionsIfGranted_leaves {decision : Decision}
    {ticket left : List TicketPermission}
    (h : removePermissionsIfGranted stores decision ticket = some left) :
    Leaves stores [decision] ticket left := by
  have hnone : (∀ id policy, ¬ decision.Grants id policy) → ∀ id, ¬ Permitted [decision] id := by
    intro hnot id ⟨other, hother, policy, hgrants⟩
    rw [List.mem_singleton.mp hother] at hgrants
    exact hnot id policy hgrants
  rw [removePermissionsIfGranted] at h
  cases heffect : decision.effect with
  | deny =>
      simp only [heffect, Option.some.injEq] at h
      rw [← h]
      refine leaves_of_not_permitted (hnone fun id policy hgrants => ?_) ticket
      rw [hgrants.1] at heffect
      cases heffect
  | permit =>
      cases hparent : decision.parentPolicy with
      | none =>
          simp only [heffect, hparent] at h
          cases h
      | some policy =>
          simp only [heffect, hparent] at h
          by_cases htype : policy.type = .uma
          · rw [if_pos htype] at h
            cases hresource : decision.permission.resource with
            | none =>
                -- without a resource the loop has nothing to compare with
                rw [hresource] at h
                cases ticket with
                | nil =>
                    cases h
                    exact ⟨fun _ hmem => absurd hmem List.not_mem_nil,
                      fun _ hmem => absurd hmem List.not_mem_nil⟩
                | cons entry rest =>
                    cases hid : getResourceId entry.resourceId <;>
                      simp only [removePermissions, hid] at h <;> cases h
            | some resource =>
                rw [hresource] at h
                exact removePermissions_leaves
                  ⟨heffect, hparent, htype, resource, hresource, rfl⟩ h
          · rw [if_neg htype, Option.some.injEq] at h
            rw [← h]
            refine leaves_of_not_permitted (hnone fun id policy' hgrants => htype ?_) ticket
            have hsame := hgrants.2.1
            rw [hparent, Option.some.injEq] at hsame
            exact hsame ▸ hgrants.2.2.1

def removeAll (stores : TicketStore) (decisions : List Decision)
    (ticket : List TicketPermission) : Option (List TicketPermission) :=
  decisions.foldlM (fun ticket decision => removePermissionsIfGranted stores decision ticket) ticket

theorem removeAll_leaves {ticket left : List TicketPermission}
    (h : removeAll stores decisions ticket = some left) :
    Leaves stores decisions ticket left := by
  induction decisions generalizing ticket with
  | nil =>
      cases h
      exact leaves_of_not_permitted (fun id ⟨_, hmem, _⟩ => List.not_mem_nil hmem) _
  | cons decision rest ih =>
      rw [removeAll, List.foldlM_cons] at h
      obtain ⟨between, hstep, h⟩ := Option.bind_eq_some_iff.mp h
      exact (removePermissionsIfGranted_leaves hstep).trans (ih h)

theorem removePermissions_isSome {policy : Policy} {resource : Resource}
    {ticket : List TicketPermission} :
    (removePermissions stores policy (some resource) ticket).isSome ↔
      ∀ entry ∈ ticket, (getResourceId entry.resourceId).isSome := by
  induction ticket with
  | nil => simp [removePermissions]
  | cons entry rest ih =>
      rw [List.forall_mem_cons, ← ih]
      cases hid : getResourceId entry.resourceId <;> simp [removePermissions, hid]

/-- User-managed policies decide on resource permissions with a resource. -/
def OfResource (decision : Decision) : Prop :=
  ∀ policy, decision.parentPolicy = some policy → policy.type = .uma →
    decision.permission.resource.isSome

variable (stores) in
theorem removePermissionsIfGranted_isSome (ticket : List TicketPermission) {decision : Decision}
    (hof : OfResource decision) :
    (removePermissionsIfGranted stores decision ticket).isSome ↔
      (decision.effect = .permit → decision.parentPolicy ≠ none) ∧
        ((∃ id, Permitted [decision] id) →
          ∀ entry ∈ ticket, (getResourceId entry.resourceId).isSome) := by
  have hpermitted : (∃ id, Permitted [decision] id) ↔ ∃ id policy, decision.Grants id policy := by
    constructor
    · intro ⟨id, other, hother, policy, hgrants⟩
      exact ⟨id, policy, List.mem_singleton.mp hother ▸ hgrants⟩
    · intro ⟨id, policy, hgrants⟩
      exact ⟨id, decision, List.mem_singleton_self _, policy, hgrants⟩
  rw [hpermitted, removePermissionsIfGranted]
  cases heffect : decision.effect with
  | deny =>
      refine iff_of_true rfl ⟨fun h => ?_, fun ⟨id, policy, hgrants⟩ => ?_⟩
      · cases h
      · rw [hgrants.1] at heffect
        cases heffect
  | permit =>
      cases hparent : decision.parentPolicy with
      | none =>
          apply iff_of_false
          · intro h
            cases h
          · exact fun h => h.1 rfl rfl
      | some policy =>
          by_cases htype : policy.type = .uma
          · obtain ⟨resource, hresource⟩ := Option.isSome_iff_exists.mp (hof policy hparent htype)
            have hgrants : ∃ id policy, decision.Grants id policy :=
              ⟨resource.id, policy, heffect, hparent, htype, resource, hresource, rfl⟩
            simp only [if_pos htype, hresource, removePermissions_isSome, hgrants, true_imp_iff,
              ne_eq, reduceCtorEq, not_false_eq_true, implies_true, true_and]
          · refine iff_of_true (by simp only [if_neg htype, Option.isSome_some]) ⟨?_, ?_⟩
            · intro _ hnone
              cases hnone
            intro ⟨id, policy', hgrants⟩
            have hsame := hgrants.2.1
            rw [hparent, Option.some.injEq] at hsame
            exact absurd (hsame ▸ hgrants.2.2.1) htype

variable (stores) in
theorem removeAll_isSome (hof : ∀ decision ∈ decisions, OfResource decision)
    (ticket : List TicketPermission) :
    (removeAll stores decisions ticket).isSome ↔
      (∀ decision ∈ decisions, decision.effect = .permit → decision.parentPolicy ≠ none) ∧
        ((∃ id, Permitted decisions id) →
          ∀ entry ∈ ticket, (getResourceId entry.resourceId).isSome) := by
  induction decisions generalizing ticket with
  | nil =>
      apply iff_of_true rfl
      refine ⟨fun _ hmem => absurd hmem List.not_mem_nil, ?_⟩
      intro ⟨_, _, hmem, _⟩
      exact absurd hmem List.not_mem_nil
  | cons decision rest ih =>
      rw [List.forall_mem_cons] at hof
      have hstep := removePermissionsIfGranted_isSome stores ticket hof.1
      have hsplit : ∀ id, Permitted (decision :: rest) id ↔
          Permitted [decision] id ∨ Permitted rest id := by
        intro id
        rw [← List.singleton_append, permitted_append]
      rw [List.forall_mem_cons, removeAll, List.foldlM_cons]
      cases hleft : removePermissionsIfGranted stores decision ticket with
      | none =>
          rw [hleft] at hstep
          apply iff_of_false (by simp)
          intro ⟨⟨hparent, _⟩, hnamed⟩
          have hfailed := hstep.mpr ⟨hparent, fun ⟨id, h⟩ => hnamed ⟨id, (hsplit id).mpr (.inl h)⟩⟩
          cases hfailed
      | some left =>
          rw [hleft] at hstep
          obtain ⟨hparent, hnamed⟩ := hstep.mp rfl
          have hleaves := removePermissionsIfGranted_leaves hleft
          show (removeAll stores rest left).isSome ↔ _
          rw [ih hof.2]
          constructor
          · intro ⟨hrest, hnamed'⟩
            refine ⟨⟨hparent, hrest⟩, fun ⟨id, hid⟩ => ?_⟩
            by_cases hfirst : ∃ id, Permitted [decision] id
            · exact hnamed hfirst
            · have hid' := ((hsplit id).mp hid).resolve_left fun h => hfirst ⟨id, h⟩
              intro entry hentry
              obtain ⟨entry', hentry', hsame⟩ := hleaves.kept entry hentry
                fun other _ h => absurd ⟨other, h⟩ hfirst
              rw [← hsame.resourceId]
              exact hnamed' ⟨id, hid'⟩ entry' hentry'
          · intro ⟨⟨_, hrest⟩, hnamed'⟩
            refine ⟨hrest, fun ⟨id, hid⟩ entry' hentry' => ?_⟩
            obtain ⟨entry, hentry, hsame⟩ := hleaves.origin entry' hentry'
            rw [hsame.resourceId]
            exact hnamed' ⟨id, (hsplit id).mpr (.inr hid)⟩ entry hentry

end

/-! ## The collector that is extended -/

def collectAll (decisions : List Decision) (s : State) : Option State :=
  decisions.foldlM (fun s decision => collect decision s) s

def HasPolicy (results : List (Nat × Result)) (id : String) : Prop :=
  ∃ entry ∈ results, (entry.2.results.lookup id).isSome

structure Seen (decisions : List Decision) (s : State) : Prop where
  identity : ∀ i, (s.results.lookup i).isSome ↔
    ∃ decision ∈ decisions, decision.permission.identity = i
  policy : ∀ id, HasPolicy s.results id ↔
    ∃ decision ∈ decisions, ∃ policy, decision.parentPolicy = some policy ∧ policy.id = id

section

theorem seen_initial (claims : Nat → Claims) : Seen [] (State.initial claims) where
  identity i := by simp [State.initial]
  policy id := by simp [State.initial, HasPolicy]

theorem isSome_lookup_alter {K V : Type} [DecidableEq K] (k : K) (f : Option V → V)
    (m : List (K × V)) (k' : K) :
    ((LinkedMap.alter k f m).lookup k').isSome ↔ (m.lookup k').isSome ∨ k = k' := by
  by_cases hself : k' = k
  · rw [hself, LinkedMap.lookup_alter_self]
    simp
  · rw [LinkedMap.lookup_alter_of_ne hself]
    simp [Ne.symm hself]

theorem isSome_lookup_singleton {K V : Type} [DecidableEq K] (k : K) (v : V) (k' : K) :
    ([(k, v)].lookup k').isSome ↔ k = k' := by
  rw [List.lookup_cons, List.lookup_nil]
  by_cases hself : k' = k
  · rw [hself, beq_self_eq_true]
    simp
  · rw [beq_eq_false_iff_ne.mpr hself]
    simp [Ne.symm hself]

theorem hasPolicy_cons {entry : Nat × Result} {results : List (Nat × Result)} {id : String} :
    HasPolicy (entry :: results) id ↔
      (entry.2.results.lookup id).isSome ∨ HasPolicy results id :=
  List.exists_mem_cons_iff ..

theorem hasPolicy_alter {i : Nat} {f : Option Result → Result} {results : List (Nat × Result)}
    {id : String} {new : Prop}
    (hf : ∀ found, ((f found).results.lookup id).isSome ↔
      (∃ result, found = some result ∧ (result.results.lookup id).isSome) ∨ new) :
    HasPolicy (LinkedMap.alter i f results) id ↔ HasPolicy results id ∨ new := by
  induction results with
  | nil =>
      have hnew := hf none
      simp only [reduceCtorEq, false_and, exists_false, false_or] at hnew
      rw [LinkedMap.alter, hasPolicy_cons, hnew]
      exact or_comm
  | cons entry rest ih =>
      rw [LinkedMap.alter]
      split
      · have hsome := hf (some entry.2)
        simp only [Option.some.injEq, exists_eq_left'] at hsome
        rw [hasPolicy_cons, hasPolicy_cons, hsome]
        exact or_right_comm
      · rw [hasPolicy_cons, hasPolicy_cons, ih]
        exact or_assoc.symm

theorem hasPolicy_append {results more : List (Nat × Result)} {id : String} :
    HasPolicy (results ++ more) id ↔ HasPolicy results id ∨ HasPolicy more id := by
  simp only [HasPolicy, List.mem_append, or_and_right, exists_or]

structure Grows (decision : Decision) (results results' : List (Nat × Result)) : Prop where
  identity : ∀ i, (results'.lookup i).isSome ↔
    (results.lookup i).isSome ∨ decision.permission.identity = i
  policy : ∀ id, HasPolicy results' id ↔ HasPolicy results id ∨
    ∃ policy, decision.parentPolicy = some policy ∧ policy.id = id

theorem Seen.grows {decisions : List Decision} {decision : Decision} {s s' : State}
    (h : Seen decisions s) (h' : Grows decision s.results s'.results) :
    Seen (decisions ++ [decision]) s' where
  identity i := by
    rw [h'.identity, h.identity]
    simp only [List.mem_append, List.mem_singleton, or_and_right, exists_or, exists_eq_left]
  policy id := by
    rw [h'.policy, h.policy]
    simp only [List.mem_append, List.mem_singleton, or_and_right, exists_or, exists_eq_left]

theorem grows_record {decision : Decision} {parentPolicy : Policy}
    (hparent : decision.parentPolicy = some parentPolicy) (s : State)
    (f : PolicyResult → PolicyResult) :
    Grows decision s.results (s.record decision.permission parentPolicy f).results where
  identity i := isSome_lookup_alter ..
  policy id := by
    apply hasPolicy_alter
    intro found
    rw [Result.policy, isSome_lookup_alter, hparent]
    simp only [Option.some.injEq, exists_eq_left']
    apply or_congr_left
    cases found with
    | none => simp [Result.ofPermission]
    | some result => simp

/-- A decision on the parent policy itself copies what another permission has of it. -/
def copyOf (decision : Decision) (parentPolicy : Policy) (s : State) : Option State :=
  (s.results.findSome? fun entry =>
    (entry.2.results.lookup parentPolicy.id).map fun found => (entry.2, found)).map
      fun (result, found) =>
        { s with
          results := s.results ++ [(decision.permission.identity,
            { Result.ofPermission decision.permission with
              results := [(parentPolicy.id,
                { PolicyResult.ofPolicy parentPolicy with
                  associatedPolicies := found.associatedPolicies })] })]
          claims := Function.update s.claims decision.permission.identity
            ((s.claims decision.permission.identity).addClaims
              (s.claims result.permission.identity)) }

theorem collect_of_parent {decision : Decision} {parentPolicy : Policy}
    (hparent : decision.parentPolicy = some parentPolicy) (s : State) :
    collect decision s =
      if parentPolicy.id = (decision.policy.getD parentPolicy).id then
        match s.results.lookup decision.permission.identity with
        | some _ => some (s.record decision.permission parentPolicy fun r => r)
        | none => copyOf decision parentPolicy s
      else some (s.record decision.permission parentPolicy fun r =>
        r.put (decision.policy.getD parentPolicy).id decision.effect) := by
  rw [collect, hparent]
  rfl

theorem copyOf_isSome {decision : Decision} {parentPolicy : Policy} {s : State} :
    (copyOf decision parentPolicy s).isSome ↔ HasPolicy s.results parentPolicy.id := by
  rw [copyOf, Option.isSome_map, List.findSome?_isSome_iff]
  simp only [Option.isSome_map]
  rfl

theorem copyOf_grows {decision : Decision} {parentPolicy : Policy}
    (hparent : decision.parentPolicy = some parentPolicy) {s s' : State}
    (h : copyOf decision parentPolicy s = some s') : Grows decision s.results s'.results := by
  obtain ⟨source, -, rfl⟩ := Option.map_eq_some_iff.mp h
  constructor
  · intro i
    rw [List.lookup_append, Option.isSome_or, Bool.or_eq_true, isSome_lookup_singleton]
  · intro id
    rw [hasPolicy_append, hparent]
    apply or_congr_right
    rw [hasPolicy_cons, isSome_lookup_singleton]
    simp [HasPolicy]

theorem collect_grows {decision : Decision} {s s' : State} (h : collect decision s = some s') :
    Grows decision s.results s'.results := by
  cases hparent : decision.parentPolicy with
  | none =>
      rw [collect, hparent] at h
      cases h
      constructor
      · exact fun i => isSome_lookup_alter ..
      · intro id
        apply hasPolicy_alter
        intro found
        rw [hparent]
        cases found with
        | none => simp [Result.ofPermission]
        | some result => simp
  | some parentPolicy =>
      rw [collect_of_parent hparent] at h
      split at h
      · cases hlookup : s.results.lookup decision.permission.identity with
        | some result =>
            simp only [hlookup, Option.some.injEq] at h
            rw [← h]
            exact grows_record hparent s _
        | none =>
            simp only [hlookup] at h
            exact copyOf_grows hparent h
      · rw [Option.some.injEq] at h
        rw [← h]
        exact grows_record hparent s _

theorem collect_isSome {decision : Decision} {s : State} :
    (collect decision s).isSome ↔ ∀ parentPolicy, decision.parentPolicy = some parentPolicy →
      parentPolicy.id = (decision.policy.getD parentPolicy).id →
        (s.results.lookup decision.permission.identity).isSome ∨
          HasPolicy s.results parentPolicy.id := by
  cases hparent : decision.parentPolicy with
  | none =>
      apply iff_of_true
      · rw [collect, hparent]
        rfl
      · intro parentPolicy h
        cases h
  | some parentPolicy =>
      rw [collect_of_parent hparent]
      simp only [Option.some.injEq, forall_eq']
      split
      · rename_i hreplay
        rw [forall_prop_of_true hreplay]
        cases hlookup : s.results.lookup decision.permission.identity with
        | some result => exact iff_of_true rfl (.inl rfl)
        | none =>
            simp only [copyOf_isSome, Option.isSome_none, Bool.false_eq_true, false_or]
      · rename_i hreplay
        exact iff_of_true rfl fun h => absurd h hreplay

theorem collectAll_isSome (decisions : List Decision) {before : List Decision} {s : State}
    (h : Seen before s) :
    (collectAll decisions s).isSome ↔ ∀ first decision after,
      decisions = first ++ decision :: after → Recorded (before ++ first) decision := by
  induction decisions generalizing before s with
  | nil =>
      apply iff_of_true rfl
      intro first decision after hsplit
      cases first <;> cases hsplit
  | cons decision rest ih =>
      have hstep : (collect decision s).isSome ↔ Recorded before decision := by
        rw [collect_isSome, Recorded]
        simp only [h.identity, h.policy, ← exists_or, ← and_or_left]
      rw [collectAll, List.foldlM_cons]
      cases hcollect : collect decision s with
      | none =>
          rw [hcollect] at hstep
          apply iff_of_false (by simp)
          intro hall
          have hfirst := hall [] decision rest rfl
          rw [List.append_nil, ← hstep] at hfirst
          cases hfirst
      | some s' =>
          rw [hcollect] at hstep
          show (collectAll rest s').isSome ↔ _
          rw [ih (h.grows (collect_grows hcollect))]
          constructor
          · intro hrest first decision' after hsplit
            cases first with
            | nil =>
                rw [List.nil_append, List.cons.injEq] at hsplit
                rw [List.append_nil, ← hsplit.1]
                exact hstep.mp rfl
            | cons other first =>
                rw [List.cons_append, List.cons.injEq] at hsplit
                have hlater := hrest first decision' after hsplit.2
                rwa [List.append_assoc, List.singleton_append, hsplit.1] at hlater
          · intro hall first decision' after hsplit
            rw [List.append_assoc, List.singleton_append]
            apply hall (decision :: first) decision' after
            rw [hsplit, List.cons_append]

end

/-! ## The two together -/

section

variable {stores : TicketStore}

theorem decideAll_eq_some {decisions : List Decision} {c c' : Collector} :
    c.decideAll stores decisions = some c' ↔
      collectAll decisions c.state = some c'.state ∧
        removeAll stores decisions c.ticket = some c'.ticket := by
  induction decisions generalizing c with
  | nil =>
      show some c = some c' ↔ some c.state = some c'.state ∧ some c.ticket = some c'.ticket
      simp only [Option.some.injEq]
      constructor
      · intro h
        exact h ▸ ⟨rfl, rfl⟩
      · intro ⟨hstate, hticket⟩
        cases c
        cases hstate
        cases hticket
        rfl
  | cons decision rest ih =>
      rw [Collector.decideAll, Collector.onDecision, collectAll, removeAll, List.foldlM_cons,
        List.foldlM_cons]
      cases collect decision c.state with
      | none => simp
      | some s =>
          cases removePermissionsIfGranted stores decision c.ticket with
          | none => simp
          | some left => exact ih

theorem mem_decisionsFor {mode : PolicyEnforcementMode} {evaluation : Evaluation}
    {decision : Decision} (h : decision ∈ decisionsFor mode evaluation) :
    decision.permission = evaluation.permission ∧ (decision.parentPolicy = none ∨
      ∃ found ∈ evaluation.fed, decision.parentPolicy = some found.policy) := by
  have hwithout : decision ∈ [(⟨evaluation.permission, none, none, .permit⟩ : Decision)] →
      decision.permission = evaluation.permission ∧ (decision.parentPolicy = none ∨
        ∃ found ∈ evaluation.fed, decision.parentPolicy = some found.policy) := by
    intro hmem
    rw [List.mem_singleton.mp hmem]
    exact ⟨rfl, .inl rfl⟩
  unfold decisionsFor at h
  split at h
  · exact hwithout h
  · split at h
    · split at h
      · exact hwithout h
      · exact absurd h List.not_mem_nil
    · obtain ⟨found, hfound, hmem⟩ := List.mem_flatMap.mp h
      obtain ⟨made, -, rfl⟩ := List.mem_map.mp hmem
      exact ⟨rfl, .inr ⟨found, hfound, rfl⟩⟩

theorem ofResource_of_mem (mode : PolicyEnforcementMode) (evaluations : List Evaluation) :
    ∀ decision ∈ decisions mode evaluations, OfResource decision := by
  intro decision hmem policy hparent htype
  obtain ⟨evaluation, -, hmem⟩ := List.mem_flatMap.mp hmem
  obtain ⟨hpermission, hnone | ⟨found, hfound, hsome⟩⟩ := mem_decisionsFor hmem
  · rw [hnone] at hparent
    cases hparent
  · rw [hsome, Option.some.injEq] at hparent
    rw [hpermission]
    exact evaluation.of_resource found hfound (hparent ▸ htype)

theorem decisionsFor_have_parents {mode : PolicyEnforcementMode} {evaluation : Evaluation} :
    (∀ decision ∈ decisionsFor mode evaluation,
        decision.effect = .permit → decision.parentPolicy ≠ none) ↔
      mode ≠ .disabled ∧ (mode = .permissive → evaluation.fed ≠ []) := by
  cases hfed : evaluation.fed with
  | nil => cases mode <;> simp [decisionsFor, hfed]
  | cons found rest =>
      have hparents : ∀ decision ∈ (found :: rest).flatMap (fun found =>
          found.decisions.map fun (policy, effect) =>
            (⟨evaluation.permission, some found.policy, policy, effect⟩ : Decision)),
          decision.effect = .permit → decision.parentPolicy ≠ none := by
        intro decision hmem _
        obtain ⟨found', -, hmem⟩ := List.mem_flatMap.mp hmem
        obtain ⟨made, -, rfl⟩ := List.mem_map.mp hmem
        exact Option.some_ne_none _
      cases mode with
      | disabled => simp [decisionsFor]
      | enforcing =>
          apply iff_of_true _ (by simp)
          simp only [decisionsFor, hfed, List.isEmpty_cons, Bool.false_eq_true, if_false]
          exact hparents
      | permissive =>
          apply iff_of_true _ (by simp)
          simp only [decisionsFor, hfed, List.isEmpty_cons, Bool.false_eq_true, if_false]
          exact hparents

theorem decisions_have_parents {mode : PolicyEnforcementMode} {evaluations : List Evaluation} :
    (∀ decision ∈ decisions mode evaluations,
        decision.effect = .permit → decision.parentPolicy ≠ none) ↔
      (mode = .disabled → evaluations = []) ∧
        (mode = .permissive → ∀ evaluation ∈ evaluations, evaluation.fed ≠ []) := by
  have hall : (∀ decision ∈ decisions mode evaluations,
        decision.effect = .permit → decision.parentPolicy ≠ none) ↔
      ∀ evaluation ∈ evaluations,
        mode ≠ .disabled ∧ (mode = .permissive → evaluation.fed ≠ []) := by
    simp only [← decisionsFor_have_parents]
    constructor
    · intro h evaluation hevaluation decision hmem
      exact h decision (List.mem_flatMap.mpr ⟨evaluation, hevaluation, hmem⟩)
    · intro h decision hmem
      obtain ⟨evaluation, hevaluation, hmem⟩ := List.mem_flatMap.mp hmem
      exact h evaluation hevaluation decision hmem
  rw [hall]
  constructor
  · intro h
    refine ⟨fun hdisabled => ?_,
      fun hpermissive evaluation hmem => (h evaluation hmem).2 hpermissive⟩
    apply List.eq_nil_iff_forall_not_mem.mpr
    exact fun evaluation hmem => (h evaluation hmem).1 hdisabled
  · intro ⟨hdisabled, hpermissive⟩ evaluation hmem
    refine ⟨fun h => ?_, fun h => hpermissive h evaluation hmem⟩
    rw [hdisabled h] at hmem
    exact List.not_mem_nil hmem

end

/-! ## When nothing is lost -/

section

variable {stores : TicketStore} {server : ResourceServer} {identity : String}

theorem askedOf_congr {entry entry' : TicketPermission}
    (h : entry'.resourceId = entry.resourceId) {resource : Resource} :
    AskedOf stores server identity entry' resource ↔
      AskedOf stores server identity entry resource := by
  rw [AskedOf, AskedOf, findResource, findResource, h]

theorem AskedOf.exists_id {entry : TicketPermission} {resource : Resource}
    (h : AskedOf stores server identity entry resource) :
    ∃ id, getResourceId entry.resourceId = some id := by
  obtain ⟨id, hid, -⟩ := Option.bind_eq_some_iff.mp h.1
  exact ⟨id, hid⟩

theorem Taken.found {decisions : List Decision} {id name : String}
    (h : Taken stores decisions id name) : (findScope stores name).isSome := by
  obtain ⟨_, _, policy, _, hcovers⟩ := h
  obtain ⟨scope, hscope, -⟩ := Option.any_eq_true _ _ |>.mp hcovers
  rw [findScope, hscope]
  rfl

theorem Left.asks_iff {decisions : List Decision} {entry entry' : TicketPermission}
    (h : Left stores decisions entry entry') {id : String}
    (hid : getResourceId entry.resourceId = some id) {resource : Resource} {scopeId : String} :
    (∃ scope, Asks stores entry' resource scope ∧ scope.id = scopeId) ↔
      StillAsks stores decisions entry resource scopeId := by
  have hscopes : ∀ name, name ∈ entry'.scopes ↔
      name ∈ entry.scopes ∧ ¬ Taken stores decisions id name := by
    intro name
    rw [h.scopes]
    simp only [hid, Option.some.injEq, forall_eq']
  constructor
  · intro ⟨scope, hasks, hscopeId⟩
    refine ⟨id, hid, ?_⟩
    cases hasks with
    | inl hall =>
        left
        have hpermitted : ¬ Permitted decisions id := fun hp => h.nonempty id hid hp hall.1
        refine ⟨?_, hpermitted, scope, hall.2, hscopeId⟩
        apply List.eq_nil_iff_forall_not_mem.mpr
        intro name hname
        have hleft := (hscopes name).mpr ⟨hname, fun htaken => hpermitted htaken.permitted⟩
        rw [hall.1] at hleft
        exact List.not_mem_nil hleft
    | inr hlisted =>
        obtain ⟨name, hname, hscope⟩ := hlisted
        obtain ⟨hmem, hfree⟩ := (hscopes name).mp hname
        exact .inr ⟨name, hmem, hfree, scope, hscope, hscopeId⟩
  · intro ⟨id', hid', hstill⟩
    rw [hid, Option.some.injEq] at hid'
    subst hid'
    cases hstill with
    | inl hall =>
        obtain ⟨hnone, -, scope, hscope, hscopeId⟩ := hall
        refine ⟨scope, .inl ⟨?_, hscope⟩, hscopeId⟩
        apply List.eq_nil_iff_forall_not_mem.mpr
        intro name hname
        have hmem := ((hscopes name).mp hname).1
        rw [hnone] at hmem
        exact List.not_mem_nil hmem
    | inr hlisted =>
        obtain ⟨name, hname, hfree, scope, hscope, hscopeId⟩ := hlisted
        exact ⟨scope, .inr ⟨name, (hscopes name).mpr ⟨hname, hfree⟩, hscope⟩, hscopeId⟩

theorem StillAsks.lasts {decisions : List Decision} {entry : TicketPermission}
    {resource : Resource} {scopeId : String}
    (h : StillAsks stores decisions entry resource scopeId) : Lasts stores decisions entry := by
  intro id hid hpermitted
  obtain ⟨id', hid', hstill⟩ := h
  rw [hid, Option.some.injEq] at hid'
  subst hid'
  cases hstill with
  | inl hall => exact absurd hpermitted hall.2.1
  | inr hlisted =>
      obtain ⟨name, hname, hfree, -⟩ := hlisted
      exact ⟨name, hname, hfree⟩

theorem stillAsks_iff {decisions : List Decision} {ticket left : List TicketPermission}
    (h : Leaves stores decisions ticket left) {resourceId scopeId : String} :
    (∃ entry ∈ left, ∃ resource, AskedOf stores server identity entry resource ∧
        resource.id = resourceId ∧ ∃ scope, Asks stores entry resource scope ∧
          scope.id = scopeId) ↔
      ∃ entry ∈ ticket, ∃ resource, AskedOf stores server identity entry resource ∧
        resource.id = resourceId ∧ StillAsks stores decisions entry resource scopeId := by
  constructor
  · intro ⟨entry', hentry', resource, hasked, hresource, hasks⟩
    obtain ⟨entry, hentry, hleft⟩ := h.origin entry' hentry'
    rw [askedOf_congr hleft.resourceId] at hasked
    obtain ⟨id, hid⟩ := hasked.exists_id
    exact ⟨entry, hentry, resource, hasked, hresource, (hleft.asks_iff hid).mp hasks⟩
  · intro ⟨entry, hentry, resource, hasked, hresource, hstill⟩
    obtain ⟨entry', hentry', hleft⟩ := h.kept entry hentry hstill.lasts
    obtain ⟨id, hid⟩ := hasked.exists_id
    exact ⟨entry', hentry', resource, (askedOf_congr hleft.resourceId).mpr hasked, hresource,
      (hleft.asks_iff hid).mpr hstill⟩

theorem found_iff {decisions : List Decision} {ticket left : List TicketPermission}
    (h : Leaves stores decisions ticket left) :
    (∀ entry ∈ left, ∀ resource, AskedOf stores server identity entry resource →
        ∀ name ∈ entry.scopes, (findScope stores name).isSome) ↔
      ∀ entry ∈ ticket, ∀ resource, AskedOf stores server identity entry resource →
        ∀ name ∈ entry.scopes, (findScope stores name).isSome := by
  constructor
  · intro hfound entry hentry resource hasked name hname
    by_contra hunknown
    have hfree : ∀ id, ¬ Taken stores decisions id name := fun id htaken => hunknown htaken.found
    obtain ⟨entry', hentry', hleft⟩ :=
      h.kept entry hentry fun id _ _ => ⟨name, hname, hfree id⟩
    exact hunknown (hfound entry' hentry' resource ((askedOf_congr hleft.resourceId).mpr hasked)
      name ((hleft.scopes name).mpr ⟨hname, fun id _ => hfree id⟩))
  · intro hfound entry' hentry' resource hasked name hname
    obtain ⟨entry, hentry, hleft⟩ := h.origin entry' hentry'
    exact hfound entry hentry resource ((askedOf_congr hleft.resourceId).mp hasked) name
      ((hleft.scopes name).mp hname).1

end

/-- Whatever the stores, the evaluations, the ticket and the tickets that exist: no decision fails
and the requests are recorded if and only if nothing is lost. -/
theorem recordsRequests_iff (stores : TicketStore) (server : ResourceServer) (identity : String)
    (mode : PolicyEnforcementMode) (evaluations : List Evaluation) (claims : Nat → Claims)
    (ticket : List TicketPermission) (tickets : List PermissionTicket) :
    RecordsRequests stores server identity mode evaluations claims ticket tickets ↔
      NothingLost stores server identity mode evaluations claims ticket tickets := by
  have hremovable := removeAll_isSome stores (ofResource_of_mem mode evaluations) ticket
  have hcollectable := collectAll_isSome (decisions mode evaluations) (seen_initial claims)
  constructor
  · intro ⟨c, tickets', hdecide, hcomplete, hrecorded⟩
    obtain ⟨hcollect, hremove⟩ := decideAll_eq_some.mp hdecide
    rw [onComplete, if_pos rfl] at hcomplete
    have hleaves := removeAll_leaves hremove
    rw [hremove] at hremovable
    obtain ⟨hparents, hnamed⟩ := hremovable.mp rfl
    obtain ⟨hdisabled, hpermissive⟩ := decisions_have_parents.mp hparents
    rw [hcollect] at hcollectable
    refine ⟨hdisabled, hpermissive, hcollectable.mp rfl, hnamed, ?_, ?_⟩
    · rw [← found_iff hleaves, ← complete_isSome tickets, hcomplete]
      rfl
    · intro entry hentry resource hasked scope hasks
      cases hrecorded entry hentry resource hasked scope hasks with
      | inl hticket =>
          rw [mem_complete hcomplete, stillAsks_iff hleaves] at hticket
          exact hticket.imp_right .inr
      | inr hgranted => exact .inr (.inl ⟨c.state, hcollect, hgranted⟩)
  · intro h
    obtain ⟨s, hcollect⟩ := Option.isSome_iff_exists.mp (hcollectable.mpr h.recorded)
    obtain ⟨left, hremove⟩ := Option.isSome_iff_exists.mp
      (hremovable.mpr ⟨decisions_have_parents.mpr ⟨h.not_disabled, h.consulted⟩, h.named⟩)
    have hleaves := removeAll_leaves hremove
    obtain ⟨tickets', hcomplete⟩ := Option.isSome_iff_exists.mp
      ((complete_isSome tickets).mpr ((found_iff hleaves).mpr h.found))
    refine ⟨⟨s, left⟩, tickets', decideAll_eq_some.mpr ⟨hcollect, hremove⟩, hcomplete, ?_⟩
    intro entry hentry resource hasked scope hasks
    rw [mem_complete hcomplete, stillAsks_iff hleaves]
    obtain hticket | ⟨s', hcollect', hgranted⟩ | hstill :=
      h.kept entry hentry resource hasked scope hasks
    · exact .inl (.inl hticket)
    · have hsame : s' = s := Option.some.inj (hcollect'.symm.trans hcollect)
      exact .inr (hsame ▸ hgranted)
    · exact .inl (.inr hstill)

/-! ## A policy with two conditions -/

def photo : Resource := ⟨"photo-1", "Photo", none, "alice", true, [⟨"view", "view"⟩]⟩

def photoStore : TicketStore where
  store := ⟨fun _ => [], fun _ => [], fun _ => [], fun _ => [], fun _ => []⟩
  findById id := if id = "photo-1" then some photo else none
  findByName _ _ := none
  findScopeByName name := if name = "view" then some ⟨"view", "view"⟩ else none
  findScopeById _ := none
  id_of_findById id resource h := by
    split at h
    · rename_i hid
      cases h
      exact hid.symm
    · cases h
  scope_of_resource id resource h scope hscope := by
    split at h
    · cases h
      rw [photo, List.mem_singleton] at hscope
      rw [hscope]
      rfl
    · cases h
  scope_of_named _ _ _ h := by cases h

def condition (id : String) : Policy :=
  .mk ⟨id, .other "js", .positive, .unanimous, [], []⟩ []

def photoPolicy : Policy :=
  .mk ⟨"policy", .uma, .positive, .unanimous, [photo], photo.scopes⟩
    [condition "first", condition "second"]

def photoEvaluation : Evaluation where
  permission := ⟨0, some photo, photo.scopes⟩
  fed := [⟨photoPolicy, [(some (condition "first"), .permit), (some (condition "second"), .deny)]⟩]
  of_resource _ _ _ := rfl

def photoTicket : List TicketPermission := [⟨some "photo-1", ["view"], none⟩]

/-- Nothing is granted to Bob, and nothing is asked of Alice. -/
theorem photo_not_recorded :
    ¬ RecordsRequests photoStore ⟨"server", .enforcing⟩ "bob" .enforcing [photoEvaluation]
      (fun _ => []) photoTicket [] := by
  intro ⟨c, tickets', hdecide, hcomplete, hrecorded⟩
  have hticket : (Collector.decideAll photoStore ⟨State.initial (fun _ => []), photoTicket⟩
      (decisions .enforcing [photoEvaluation])).map Collector.ticket = some [] := rfl
  have hgranted : (Collector.decideAll photoStore ⟨State.initial (fun _ => []), photoTicket⟩
      (decisions .enforcing [photoEvaluation])).map
        (fun c => c.state.results.any fun entry =>
          entry.2.results.any fun result => isGranted result.2) = some false := rfl
  rw [hdecide, Option.map_some, Option.some.injEq] at hticket hgranted
  rw [hticket] at hcomplete
  cases hcomplete
  have hasked : AskedOf photoStore ⟨"server", .enforcing⟩ "bob" ⟨some "photo-1", ["view"], none⟩
      photo := ⟨rfl, by decide⟩
  obtain hmem | ⟨entry, hentry, -, result, hresult, -, -, hof⟩ :=
    hrecorded _ List.mem_cons_self photo hasked ⟨"view", "view"⟩
      (.inr ⟨"view", List.mem_cons_self, rfl⟩)
  · cases hmem
  · have hany : (c.state.results.any fun entry =>
        entry.2.results.any fun result => isGranted result.2) = true :=
      List.any_eq_true.mpr ⟨entry, hentry, List.any_eq_true.mpr ⟨result, hresult, hof⟩⟩
    rw [hgranted] at hany
    cases hany

end Keycloak.Authz.RequestTickets
