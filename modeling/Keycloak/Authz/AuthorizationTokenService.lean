import Keycloak.Authz.Permissions
import Keycloak.Lib.Split

/-!
# Authorization requests

`AuthorizationTokenService`: the resource permissions that the permissions of a request ask for,
and whether what has been granted is what was requested.
-/

namespace Keycloak.Authz

/-- `Permission.getResourceId`, which takes a blank id for none. -/
def getResourceId (resourceId : Option String) : Option String :=
  resourceId.filter fun id => !id.toList.all (· ≤ ' ')

def ResourcePermission.addScope (permission : ResourcePermission) (scope : Scope) :
    ResourcePermission :=
  if permission.resource.all (fun resource => resource.scopes.contains scope) &&
      !permission.scopes.contains scope then
    { permission with scopes := permission.scopes ++ [scope] }
  else permission

/-- A requested permission.  The sets of scopes and of claims are in the order of their
iteration. -/
structure TicketPermission where
  resourceId : Option String
  scopes : List String
  claims : Option Claims
  deriving DecidableEq

structure RequestStore where
  store : Store
  findById : String → Option Resource
  findByName : String → String → Option Resource
  findScopeByName : String → Option Scope

structure Identity where
  id : String
  isResourceServer : Bool

/-- What `createPermissions` reads of a request: the limit of its metadata, its scope, its claims
and the permissions of its active RPT. -/
structure TokenRequest where
  limit : Option Int
  scope : Option String
  claims : Option Claims
  rpt : Option (List TicketPermission)

inductive RequestError where
  | invalidResource (message : String)
  | invalidScope (message : String)
  deriving DecidableEq

structure Evaluated where
  permission : ResourcePermission
  claims : Claims
  deriving DecidableEq

/-- `permissionsToEvaluate`, what is left of the limit, and the ticket, whose permissions are
given the ids of their resources and the additional scopes. -/
structure Requested where
  permissions : List (String × Evaluated)
  limit : Option Int
  ticket : List TicketPermission

namespace Requested

def exhausted (requested : Requested) : Bool := requested.limit.any (· ≤ 0)

def put (requested : Requested) (key : String) (permission : Evaluated) : Requested :=
  { requested with
    permissions := requested.permissions ++ [(key, permission)]
    limit := requested.limit.map (· - 1) }

end Requested

section

variable (stores : RequestStore) (server : ResourceServer) (identity : Identity)
  (request : TokenRequest)

def requestedResources (resourceId : String) : List Resource :=
  match (if '-' ∈ resourceId.toList then stores.findById resourceId else none) with
  | some resource => [resource]
  | none =>
      (stores.findByName resourceId identity.id).toList ++
        if identity.isResourceServer then []
        else (stores.findByName resourceId server.id).toList

/-- The id that is set where a name was given: that of the resource server's resource, or of the
identity's. -/
def resolvedId (resourceId : String) : String :=
  match (if '-' ∈ resourceId.toList then stores.findById resourceId else none) with
  | some _ => resourceId
  | none =>
      ((requestedResources stores server identity resourceId).getLast?.map Resource.id).getD
        resourceId

def requestResource (requestedScopes : List Scope) (requested : Requested) (resource : Resource) :
    Requested :=
  if requested.exhausted then requested
  else match requested.permissions.lookup resource.id with
    | none =>
        requested.put resource.id
          ⟨Permissions.createRequestedPermissions stores.store server requested.permissions.length
            resource requestedScopes, request.claims.getD []⟩
    | some _ =>
        { requested with
          permissions := LinkedMap.alter resource.id (fun found =>
            let permission := found.getD ⟨⟨0, resource, []⟩, []⟩
            { permission with
              permission := requestedScopes.foldl ResourcePermission.addScope
                permission.permission })
            requested.permissions }

def requestScopes : List Scope → Requested → Requested
  | [], requested => requested
  | scope :: rest, requested =>
      -- the limit is decremented also where it is used up
      let left := { requested with limit := requested.limit.map (· - 1) }
      if requested.exhausted then left
      else match requested.permissions.lookup scope.id with
        | some _ => requestScopes rest left
        | none =>
            requestScopes rest
              { left with permissions := requested.permissions ++
                [(scope.id, ⟨⟨requested.permissions.length, none, [scope]⟩,
                  request.claims.getD []⟩)] }

/-- The scopes of the permission with the additional ones of the request. -/
def requestedScopes (permission : TicketPermission) : List String :=
  match request.scope with
  | none => permission.scopes
  | some scope => (permission.scopes ++ (Split.split ' ' scope.toList).map String.ofList).dedup

def requestPermission (permission : TicketPermission) (requested : Requested) :
    Except RequestError Requested :=
  let resourceId := getResourceId permission.resourceId
  let resources := (resourceId.map (requestedResources stores server identity)).getD []
  let scopes := requestedScopes request permission
  let models := (scopes.filterMap stores.findScopeByName).dedup
  let requested := { requested with
    ticket := requested.ticket ++ [{ permission with
      resourceId := (resourceId.map (resolvedId stores server identity)).or permission.resourceId
      scopes := scopes }] }
  if resourceId.isSome ∧ resources = [] then
    .error (.invalidResource ("Resource with id [" ++ resourceId.getD "" ++ "] does not exist."))
  else if scopes ≠ [] ∧ models = [] then
    .error (.invalidScope
      ("One of the given scopes [" ++ ", ".intercalate scopes ++ "] is invalid"))
  else if resources ≠ [] then
    .ok (resources.foldl (requestResource stores server request models) requested)
  else
    let found := stores.store.findByScope models.toFinset
    if found = [] then .ok (requestScopes request models requested)
    else .ok (found.foldl (requestResource stores server request models) requested)

def requestPermissions : List TicketPermission → Requested → Except RequestError Requested
  | [], requested => .ok requested
  | permission :: rest, requested =>
      if requested.exhausted then
        .ok { requested with ticket := requested.ticket ++ permission :: rest }
      else match requestPermission stores server identity request permission requested with
        | .error error => .error error
        | .ok requested => requestPermissions rest requested

/-- The claims of a granted permission are added to claims of the same name. -/
def mergeClaims (granted claims : Claims) : Claims :=
  claims.map fun (name, values) => (name, values ∪ (granted.lookup name).getD [])

def requestGranted (requested : Requested) (granted : TicketPermission) : Requested :=
  if requested.exhausted then requested
  else match (getResourceId granted.resourceId).bind stores.findById with
    | none => requested
    | some resource =>
        let scopes := granted.scopes.filterMap stores.findScopeByName
        let addScopes := fun (permission : ResourcePermission) =>
          { permission with scopes := scopes.foldl (fun scopes scope =>
              if scopes.contains scope then scopes else scopes ++ [scope]) permission.scopes }
        match requested.permissions.lookup resource.id with
        | none =>
            requested.put resource.id
              ⟨addScopes ⟨requested.permissions.length, resource, []⟩, granted.claims.getD []⟩
        | some _ =>
            { requested with
              permissions := LinkedMap.alter resource.id (fun found =>
                let permission := found.getD ⟨⟨0, resource, []⟩, []⟩
                ⟨addScopes permission.permission,
                  mergeClaims (granted.claims.getD []) permission.claims⟩)
                requested.permissions }

def createPermissions (ticket : List TicketPermission) : Except RequestError Requested :=
  match requestPermissions stores server identity request ticket ⟨[], request.limit, []⟩ with
  | .error error => .error error
  | .ok requested => .ok ((request.rpt.getD []).foldl (requestGranted stores) requested)

end

/-! ## Requests for resources by id -/

section

variable (stores : RequestStore) (server : ResourceServer) (identity : Identity)

def plainRequest (claims : Option Claims) : TokenRequest := ⟨none, none, claims, none⟩

structure TicketPermission.Names (permission : TicketPermission) (resource : Resource) : Prop where
  id : permission.resourceId = some resource.id
  isId : '-' ∈ resource.id.toList
  found : stores.findById resource.id = some resource
  scopes : ∀ name ∈ permission.scopes, (stores.findScopeByName name).isSome

def TicketPermission.models (permission : TicketPermission) : List Scope :=
  (permission.scopes.filterMap stores.findScopeByName).dedup

variable {stores server identity}

theorem requestPermission_of_names {permission : TicketPermission} {resource : Resource}
    (h : permission.Names stores resource) (claims : Option Claims) (requested : Requested) :
    requestPermission stores server identity (plainRequest claims) permission requested =
      .ok (requestResource stores server (plainRequest claims) (permission.models stores)
        { requested with ticket := requested.ticket ++ [permission] } resource) := by
  have hid : getResourceId permission.resourceId = some resource.id := by
    rw [h.id, getResourceId, Option.filter_some, if_pos]
    rw [Bool.not_eq_true', List.all_eq_false]
    exact ⟨'-', h.isId, by decide⟩
  have hresources : requestedResources stores server identity resource.id = [resource] := by
    rw [requestedResources, if_pos h.isId, h.found]
  have hresolved : resolvedId stores server identity resource.id = resource.id := by
    rw [resolvedId, if_pos h.isId, h.found]
  have hscopes : requestedScopes (plainRequest claims) permission = permission.scopes := rfl
  have hmodels : ¬ (permission.scopes ≠ [] ∧
      (permission.scopes.filterMap stores.findScopeByName).dedup = []) := by
    rintro ⟨hne, hnil⟩
    obtain ⟨name, hname⟩ := List.exists_mem_of_ne_nil _ hne
    obtain ⟨scope, hscope⟩ := Option.isSome_iff_exists.mp (h.scopes name hname)
    have hmem : scope ∈ permission.scopes.filterMap stores.findScopeByName :=
      List.mem_filterMap.mpr ⟨name, hname, hscope⟩
    rw [List.dedup_eq_nil] at hnil
    rw [hnil] at hmem
    exact List.not_mem_nil hmem
  rw [requestPermission]
  simp only [hid, hscopes, Option.map_some, Option.getD_some, hresources, hresolved]
  rw [if_neg (fun h => List.cons_ne_nil _ _ h.2), if_neg hmodels, if_pos (List.cons_ne_nil _ _)]
  rw [List.foldl_cons, List.foldl_nil, Option.some_or, ← h.id]
  rfl

/-! ## The scopes of a resource -/

theorem mem_foldl_addScope {resource : Resource} (requestedScopes : List Scope)
    {permission : ResourcePermission} (hresource : permission.resource = some resource) :
    (requestedScopes.foldl ResourcePermission.addScope permission).resource = some resource ∧
      ∀ scope, scope ∈ (requestedScopes.foldl ResourcePermission.addScope permission).scopes ↔
        scope ∈ permission.scopes ∨ scope ∈ requestedScopes ∧ scope ∈ resource.scopes := by
  induction requestedScopes generalizing permission with
  | nil => exact ⟨hresource, fun scope => by simp⟩
  | cons added rest ih =>
      have hadded : (permission.addScope added).resource = some resource ∧
          ∀ scope, scope ∈ (permission.addScope added).scopes ↔
            scope ∈ permission.scopes ∨ scope = added ∧ scope ∈ resource.scopes := by
        rw [ResourcePermission.addScope, hresource]
        split
        · rename_i hnew
          simp only [Option.all_some, Bool.and_eq_true, List.contains_iff_mem] at hnew
          refine ⟨rfl, fun scope => ?_⟩
          rw [List.mem_append, List.mem_singleton]
          refine or_congr_right ⟨fun heq => ⟨heq, heq ▸ hnew.1⟩, fun h => h.1⟩
        · rename_i hold
          simp only [Option.all_some, Bool.and_eq_true, List.contains_iff_mem,
            Bool.not_eq_true', not_and, Bool.not_eq_false] at hold
          refine ⟨hresource, fun scope => ⟨.inl, ?_⟩⟩
          rintro (hmem | ⟨rfl, hmem⟩)
          · exact hmem
          · exact hold hmem
      obtain ⟨hsame, hscopes⟩ := ih hadded.1
      refine ⟨hsame, fun scope => ?_⟩
      rw [List.foldl_cons, hscopes, hadded.2, List.mem_cons]
      tauto

variable (stores server) in
def YieldsScope (resource : Resource) (entry : TicketPermission) (scope : Scope) : Prop :=
  scope ∈ (Permissions.createRequestedPermissions stores.store server 0 resource
    (entry.models stores)).scopes

variable (stores server) in
/-- The scope is one that the loop collects from the entries for the resource. -/
def CollectsScope (resource : Resource) (scope : Scope) : List TicketPermission → Prop
  | [] => False
  | first :: rest => YieldsScope stores server resource first scope ∨
      ∃ entry ∈ rest, scope ∈ entry.models stores ∧ scope ∈ resource.scopes

structure CollectedFrom (stores : RequestStore) (server : ResourceServer)
    (entries : List TicketPermission) (permissions : List (String × Evaluated)) : Prop where
  nodup : (LinkedMap.keys permissions).Nodup
  keys : ∀ id, id ∈ LinkedMap.keys permissions ↔ ∃ entry ∈ entries, entry.resourceId = some id
  entry : ∀ id p, (id, p) ∈ permissions → ∃ resource, stores.findById id = some resource ∧
    p.permission.resource = some resource ∧
    ∀ scope, scope ∈ p.permission.scopes ↔
      CollectsScope stores server resource scope (entries.filter (·.resourceId = some id))

theorem collectedFrom_nil : CollectedFrom stores server [] [] where
  nodup := List.nodup_nil
  keys id := by simp
  entry id p h := absurd h List.not_mem_nil

theorem collectsScope_append {resource : Resource} {scope : Scope} {l : List TicketPermission}
    (hne : l ≠ []) (entry : TicketPermission) :
    CollectsScope stores server resource scope (l ++ [entry]) ↔
      CollectsScope stores server resource scope l ∨
        scope ∈ entry.models stores ∧ scope ∈ resource.scopes := by
  obtain ⟨first, rest, rfl⟩ := List.exists_cons_of_ne_nil hne
  simp only [CollectsScope, List.cons_append, List.mem_append, List.mem_singleton, or_and_right,
    exists_or, exists_eq_left, or_assoc]

theorem filter_append_other {entries : List TicketPermission} {entry : TicketPermission}
    {resource : Resource} (h : entry.Names stores resource) {id : String} (hid : id ≠ resource.id) :
    (entries ++ [entry]).filter (·.resourceId = some id) =
      entries.filter (·.resourceId = some id) := by
  rw [List.filter_append, List.filter_singleton, h.id]
  have hfalse : decide (some resource.id = some id) = false :=
    decide_eq_false fun heq => hid (Option.some.inj heq).symm
  rw [hfalse, Bool.cond_false, List.append_nil]

theorem filter_append_self (entries : List TicketPermission) {entry : TicketPermission}
    {resource : Resource} (h : entry.Names stores resource) :
    (entries ++ [entry]).filter (·.resourceId = some resource.id) =
      entries.filter (·.resourceId = some resource.id) ++ [entry] := by
  rw [List.filter_append, List.filter_singleton, h.id, decide_eq_true rfl, Bool.cond_true]

theorem CollectedFrom.alter {entries : List TicketPermission}
    {permissions : List (String × Evaluated)}
    (hcollected : CollectedFrom stores server entries permissions) {entry : TicketPermission}
    {resource : Resource} (h : entry.Names stores resource) {f : Option Evaluated → Evaluated}
    (hresource : (f (permissions.lookup resource.id)).permission.resource = some resource)
    (hscopes : ∀ scope, scope ∈ (f (permissions.lookup resource.id)).permission.scopes ↔
      CollectsScope stores server resource scope
        (entries.filter (·.resourceId = some resource.id) ++ [entry])) :
    CollectedFrom stores server (entries ++ [entry])
      (LinkedMap.alter resource.id f permissions) where
  nodup := LinkedMap.nodup_keys_alter hcollected.nodup f
  keys id := by
    rw [LinkedMap.mem_keys_alter, hcollected.keys]
    simp only [List.mem_append, List.mem_singleton, or_and_right, exists_or, exists_eq_left, h.id,
      Option.some.injEq, eq_comm (a := resource.id)]
  entry id p hmem := by
    have hvalue := LinkedMap.mem_alter_of_nodup hcollected.nodup hmem
    by_cases hid : id = resource.id
    · rw [if_pos hid] at hvalue
      subst hid
      refine ⟨resource, h.found, hvalue ▸ hresource, fun scope => ?_⟩
      rw [hvalue, filter_append_self entries h]
      exact hscopes scope
    · rw [if_neg hid] at hvalue
      rw [filter_append_other h hid]
      exact hcollected.entry id p hvalue

theorem CollectedFrom.step {entries : List TicketPermission} {requested : Requested}
    (hcollected : CollectedFrom stores server entries requested.permissions)
    (hlimit : requested.limit = none) {entry : TicketPermission} {resource : Resource}
    (h : entry.Names stores resource) (claims : Option Claims) :
    CollectedFrom stores server (entries ++ [entry])
        (requestResource stores server (plainRequest claims) (entry.models stores) requested
          resource).permissions ∧
      (requestResource stores server (plainRequest claims) (entry.models stores) requested
        resource).limit = none := by
  have hexhausted : ¬ requested.exhausted = true := by
    rw [Requested.exhausted, hlimit]
    exact Bool.false_ne_true
  rw [requestResource, if_neg hexhausted]
  cases hlookup : requested.permissions.lookup resource.id with
  | none =>
      have hnew := LinkedMap.not_mem_keys_of_lookup hlookup
      have hempty : entries.filter (·.resourceId = some resource.id) = [] := by
        rw [List.filter_eq_nil_iff]
        intro e he heq
        exact hnew ((hcollected.keys _).mpr ⟨e, he, of_decide_eq_true heq⟩)
      dsimp only
      rw [Requested.put, ← LinkedMap.alter_of_not_mem hnew fun _ => _]
      refine ⟨hcollected.alter h rfl fun scope => ?_, by rw [hlimit]; rfl⟩
      rw [hempty, List.nil_append, CollectsScope]
      exact ⟨.inl, fun hyields => hyields.resolve_right fun ⟨e, he, _⟩ => List.not_mem_nil he⟩
  | some found =>
      have hmem : (resource.id, found) ∈ requested.permissions := LinkedMap.mem_of_lookup hlookup
      obtain ⟨resource', hfound, hresource, hscopes⟩ := hcollected.entry _ _ hmem
      rw [h.found, Option.some.injEq] at hfound
      subst hfound
      obtain ⟨hsame, hadded⟩ := mem_foldl_addScope (entry.models stores) hresource
      have hne : entries.filter (·.resourceId = some resource.id) ≠ [] := by
        obtain ⟨e, he, hid⟩ := (hcollected.keys _).mp (List.mem_map.mpr ⟨_, hmem, rfl⟩)
        exact List.ne_nil_of_mem (List.mem_filter.mpr ⟨he, decide_eq_true hid⟩)
      refine ⟨hcollected.alter h ?_ fun scope => ?_, hlimit⟩
      · rw [hlookup]
        exact hsame
      · rw [hlookup, collectsScope_append hne, ← hscopes]
        exact hadded scope

variable (identity) in
theorem requestPermissions_collected (claims : Option Claims) {later : List TicketPermission}
    (hlater : ∀ entry ∈ later, ∃ resource, entry.Names stores resource)
    {earlier : List TicketPermission} {requested : Requested}
    (hcollected : CollectedFrom stores server earlier requested.permissions)
    (hlimit : requested.limit = none) :
    ∃ requested', requestPermissions stores server identity (plainRequest claims) later requested =
        .ok requested' ∧ CollectedFrom stores server (earlier ++ later) requested'.permissions := by
  induction later generalizing earlier requested with
  | nil => exact ⟨requested, rfl, by rw [List.append_nil]; exact hcollected⟩
  | cons entry rest ih =>
      obtain ⟨resource, hnames⟩ := hlater entry List.mem_cons_self
      have hexhausted : ¬ requested.exhausted = true := by
        rw [Requested.exhausted, hlimit]
        exact Bool.false_ne_true
      have hmore : CollectedFrom stores server earlier
          ({ requested with ticket := requested.ticket ++ [entry] } : Requested).permissions :=
        hcollected
      have hstep := hmore.step hlimit hnames claims
      obtain ⟨requested', hrun, hcollected'⟩ := ih
        (fun e he => hlater e (List.mem_cons_of_mem entry he)) hstep.1 hstep.2
      refine ⟨requested', ?_, ?_⟩
      · rw [requestPermissions, if_neg hexhausted, requestPermission_of_names hnames]
        exact hrun
      · rw [List.append_assoc, List.singleton_append] at hcollected'
        exact hcollected'

variable (server identity) in
theorem createPermissions_collected (claims : Option Claims) {ticket : List TicketPermission}
    (hticket : ∀ entry ∈ ticket, ∃ resource, entry.Names stores resource) :
    ∃ requested, createPermissions stores server identity (plainRequest claims) ticket =
        .ok requested ∧ CollectedFrom stores server ticket requested.permissions := by
  have hnone : CollectedFrom stores server [] (⟨[], none, []⟩ : Requested).permissions :=
    collectedFrom_nil
  obtain ⟨requested, hrun, hcollected⟩ := requestPermissions_collected identity claims hticket
    hnone rfl
  refine ⟨requested, ?_, hcollected⟩
  rw [createPermissions]
  simp only [plainRequest] at hrun ⊢
  rw [hrun]
  rfl

variable (server identity) in
theorem createPermissions_alone (claims : Option Claims) {entry : TicketPermission}
    {resource : Resource} (h : entry.Names stores resource) :
    ∃ alone, createPermissions stores server identity (plainRequest claims) [entry] = .ok alone ∧
      ∀ scope, (∃ p, (resource.id, p) ∈ alone.permissions ∧ scope ∈ p.permission.scopes) ↔
        YieldsScope stores server resource entry scope := by
  have halone : ∀ e ∈ [entry], ∃ resource, e.Names stores resource := by
    intro e he
    rw [List.mem_singleton.mp he]
    exact ⟨resource, h⟩
  obtain ⟨alone, hrun, hcollected⟩ := createPermissions_collected server identity claims halone
  have hself := filter_append_self [] h
  rw [List.nil_append, List.filter_nil, List.nil_append] at hself
  have hcollects : ∀ scope, CollectsScope stores server resource scope [entry] ↔
      YieldsScope stores server resource entry scope := fun scope =>
    ⟨fun hscope => hscope.resolve_right fun ⟨e, he, _⟩ => List.not_mem_nil he, .inl⟩
  refine ⟨alone, hrun, fun scope => ⟨?_, fun hscope => ?_⟩⟩
  · rintro ⟨p, hp, hscope⟩
    obtain ⟨resource', hfound, -, hscopes⟩ := hcollected.entry _ p hp
    rw [h.found, Option.some.injEq] at hfound
    subst hfound
    rw [hscopes, hself, hcollects] at hscope
    exact hscope
  · have hkey := (hcollected.keys resource.id).mpr ⟨entry, List.mem_cons_self, h.id⟩
    obtain ⟨⟨id, p⟩, hp, heq⟩ := List.mem_map.mp hkey
    dsimp only at heq
    subst heq
    obtain ⟨resource', hfound, -, hscopes⟩ := hcollected.entry _ p hp
    rw [h.found, Option.some.injEq] at hfound
    subst hfound
    refine ⟨p, hp, ?_⟩
    rw [hscopes, hself, hcollects]
    exact hscope

/-! ## The order of the entries -/

theorem yieldsScope_of_empty {entry : TicketPermission} (hempty : entry.scopes = [])
    (resource : Resource) (scope : Scope) : YieldsScope stores server resource entry scope ↔
      scope ∈ Permissions.populateTypedScopes stores.store server resource := by
  rw [YieldsScope, TicketPermission.models, hempty]
  rfl

theorem yieldsScope_of_models {entry : TicketPermission} (hne : entry.models stores ≠ [])
    (resource : Resource) (scope : Scope) : YieldsScope stores server resource entry scope ↔
      scope ∈ entry.models stores ∧ scope ∈ resource.scopes := by
  rw [YieldsScope, Permissions.createRequestedPermissions]
  dsimp only
  rw [if_neg fun h => hne (List.isEmpty_iff.mp h), List.mem_filter, List.contains_iff_mem]

theorem TicketPermission.Names.models_ne_nil {entry : TicketPermission} {resource : Resource}
    (h : entry.Names stores resource) (hne : entry.scopes ≠ []) : entry.models stores ≠ [] := by
  obtain ⟨name, hname⟩ := List.exists_mem_of_ne_nil _ hne
  obtain ⟨scope, hscope⟩ := Option.isSome_iff_exists.mp (h.scopes name hname)
  have hmem : scope ∈ entry.models stores :=
    List.mem_dedup.mpr (List.mem_filterMap.mpr ⟨name, hname, hscope⟩)
  exact List.ne_nil_of_mem hmem

theorem yieldsScope_of_listed {entry : TicketPermission} {resource : Resource} {scope : Scope}
    (hlisted : scope ∈ entry.models stores) (hscope : scope ∈ resource.scopes) :
    YieldsScope stores server resource entry scope :=
  (yieldsScope_of_models (List.ne_nil_of_mem hlisted) resource scope).mpr ⟨hlisted, hscope⟩

theorem typed_of_yieldsScope {entry : TicketPermission} {resource : Resource} {scope : Scope}
    (h : YieldsScope stores server resource entry scope) :
    scope ∈ Permissions.populateTypedScopes stores.store server resource := by
  by_cases hmodels : entry.models stores = []
  · rw [YieldsScope, hmodels] at h
    exact h
  · exact Permissions.mem_populateTypedScopes ((yieldsScope_of_models hmodels _ _).mp h).2

variable (stores server) in
/-- The entries for the resource all ask for scopes, or none does, or those that are listed are
all that the resource has or inherits. -/
def Agrees (resource : Resource) (entries : List TicketPermission) : Prop :=
  (∀ entry ∈ entries, entry.scopes ≠ []) ∨ (∀ entry ∈ entries, entry.scopes = []) ∨
    ∀ scope ∈ Permissions.populateTypedScopes stores.store server resource,
      ∃ entry ∈ entries, scope ∈ entry.models stores ∧ scope ∈ resource.scopes

theorem yields_of_collectsScope {resource : Resource} {scope : Scope}
    {entries : List TicketPermission}
    (h : CollectsScope stores server resource scope entries) :
    ∃ entry ∈ entries, YieldsScope stores server resource entry scope := by
  cases entries with
  | nil => exact h.elim
  | cons first rest =>
      rcases h with h | ⟨entry, hentry, hlisted, hscope⟩
      · exact ⟨first, List.mem_cons_self, h⟩
      · exact ⟨entry, List.mem_cons_of_mem first hentry, yieldsScope_of_listed hlisted hscope⟩

theorem collectsScope_of_listed {resource : Resource} {scope : Scope}
    {entries : List TicketPermission} {entry : TicketPermission} (hentry : entry ∈ entries)
    (hlisted : scope ∈ entry.models stores) (hscope : scope ∈ resource.scopes) :
    CollectsScope stores server resource scope entries := by
  cases entries with
  | nil => exact absurd hentry List.not_mem_nil
  | cons first rest =>
      rcases List.mem_cons.mp hentry with rfl | hentry
      · exact .inl (yieldsScope_of_listed hlisted hscope)
      · exact .inr ⟨entry, hentry, hlisted, hscope⟩

theorem Agrees.collectsScope_iff {resource : Resource} {entries : List TicketPermission}
    (h : Agrees stores server resource entries)
    (hnames : ∀ entry ∈ entries, entry.Names stores resource) (scope : Scope) :
    CollectsScope stores server resource scope entries ↔
      ∃ entry ∈ entries, YieldsScope stores server resource entry scope := by
  refine ⟨yields_of_collectsScope, fun ⟨entry, hentry, hyields⟩ => ?_⟩
  rcases h with hall | hall | hcovered
  · obtain ⟨hlisted, hscope⟩ := (yieldsScope_of_models
      ((hnames entry hentry).models_ne_nil (hall entry hentry)) resource scope).mp hyields
    exact collectsScope_of_listed hentry hlisted hscope
  · cases entries with
    | nil => exact absurd hentry List.not_mem_nil
    | cons first rest =>
        rw [yieldsScope_of_empty (hall entry hentry)] at hyields
        exact .inl ((yieldsScope_of_empty (hall first List.mem_cons_self) _ _).mpr hyields)
  · obtain ⟨listing, hlisting, hlisted, hscope⟩ := hcovered scope (typed_of_yieldsScope hyields)
    exact collectsScope_of_listed hlisting hlisted hscope

/-- Entries that do not agree are collected differently with a partial one in front. -/
theorem exists_not_collected {resource : Resource} {entries : List TicketPermission}
    (h : ¬ Agrees stores server resource entries)
    (hnames : ∀ entry ∈ entries, entry.Names stores resource) :
    ∃ first ∈ entries, ∃ scope,
      (∃ entry ∈ entries, YieldsScope stores server resource entry scope) ∧
      ∀ rest, (∀ entry ∈ rest, entry ∈ entries) →
        ¬ CollectsScope stores server resource scope (first :: rest) := by
  rw [Agrees, not_or, not_or] at h
  obtain ⟨hempty, hpartial, hmissing⟩ := h
  push Not at hempty hpartial hmissing
  obtain ⟨entry, hentry, hall⟩ := hempty
  obtain ⟨first, hfirst, hscopes⟩ := hpartial
  obtain ⟨scope, htyped, hnot⟩ := hmissing
  refine ⟨first, hfirst, scope, ⟨entry, hentry, (yieldsScope_of_empty hall _ _).mpr htyped⟩, ?_⟩
  rintro rest hrest (hyields | ⟨listing, hlisting, hlisted, hscope⟩)
  · obtain ⟨hlisted, hscope⟩ := (yieldsScope_of_models
      ((hnames first hfirst).models_ne_nil hscopes) resource scope).mp hyields
    exact hnot first hfirst hlisted hscope
  · exact hnot listing (hrest listing hlisting) hlisted hscope

end

def scopePairs (permissions : List (String × Evaluated)) : Finset (String × Finset Scope) :=
  (permissions.map fun p => (p.1, p.2.permission.scopes.toFinset)).toFinset

structure UnionOfEntries (stores : RequestStore) (server : ResourceServer) (identity : Identity)
    (request : TokenRequest) (ticket : List TicketPermission)
    (permissions : List (String × Evaluated)) : Prop where
  nodup : (LinkedMap.keys permissions).Nodup
  resources : ∀ id, id ∈ LinkedMap.keys permissions ↔
    ∃ entry ∈ ticket, entry.resourceId = some id
  resource : ∀ id p, (id, p) ∈ permissions → p.permission.resource = stores.findById id
  scopes : ∀ id p, (id, p) ∈ permissions → ∀ scope, scope ∈ p.permission.scopes ↔
    ∃ entry ∈ ticket, entry.resourceId = some id ∧ ∃ alone,
      createPermissions stores server identity request [entry] = .ok alone ∧
        ∃ q, (id, q) ∈ alone.permissions ∧ scope ∈ q.permission.scopes

section

variable {stores : RequestStore} {server : ResourceServer} {identity : Identity}
  {request : TokenRequest} {ticket ticket' : List TicketPermission}
  {permissions permissions' : List (String × Evaluated)}

theorem UnionOfEntries.perm
    (h : UnionOfEntries stores server identity request ticket permissions)
    (hperm : ticket.Perm ticket') :
    UnionOfEntries stores server identity request ticket' permissions where
  nodup := h.nodup
  resources id := by
    simp only [h.resources, hperm.mem_iff]
  resource := h.resource
  scopes id p hp scope := by
    simp only [h.scopes id p hp, hperm.mem_iff]

theorem UnionOfEntries.exists_pair
    (h : UnionOfEntries stores server identity request ticket permissions)
    (h' : UnionOfEntries stores server identity request ticket permissions') {id : String}
    {p : Evaluated} (hp : (id, p) ∈ permissions) :
    ∃ p', (id, p') ∈ permissions' ∧
      p'.permission.scopes.toFinset = p.permission.scopes.toFinset := by
  have hkey : id ∈ LinkedMap.keys permissions :=
    List.mem_map.mpr ⟨_, hp, rfl⟩
  rw [h.resources, ← h'.resources] at hkey
  obtain ⟨⟨id', p'⟩, hp', heq⟩ := List.mem_map.mp hkey
  dsimp only at heq
  subst heq
  refine ⟨p', hp', ?_⟩
  ext scope
  rw [List.mem_toFinset, List.mem_toFinset, h.scopes _ p hp, h'.scopes _ p' hp']

theorem UnionOfEntries.scopePairs_eq
    (h : UnionOfEntries stores server identity request ticket permissions)
    (h' : UnionOfEntries stores server identity request ticket permissions') :
    scopePairs permissions' = scopePairs permissions := by
  ext ⟨id, scopes⟩
  simp only [scopePairs, List.mem_toFinset, List.mem_map, Prod.mk.injEq, Prod.exists]
  constructor
  · rintro ⟨id', p', hp', rfl, rfl⟩
    obtain ⟨p, hp, heq⟩ := h'.exists_pair h hp'
    exact ⟨_, p, hp, rfl, heq⟩
  · rintro ⟨id', p, hp, rfl, rfl⟩
    obtain ⟨p', hp', heq⟩ := h.exists_pair h' hp
    exact ⟨_, p', hp', rfl, heq⟩

theorem names_of_resourceId (hticket : ∀ entry ∈ ticket, ∃ resource, entry.Names stores resource)
    {id : String} {resource : Resource} (hfound : stores.findById id = some resource)
    {entry : TicketPermission} (hentry : entry ∈ ticket) (hid : entry.resourceId = some id) :
    entry.Names stores resource ∧ resource.id = id := by
  obtain ⟨resource', h⟩ := hticket entry hentry
  have heq : resource'.id = id := Option.some.inj (h.id.symm.trans hid)
  rw [← heq, h.found, Option.some.injEq] at hfound
  subst hfound
  exact ⟨h, heq⟩

theorem scopes_alone_iff (claims : Option Claims) {entry : TicketPermission} {resource : Resource}
    (h : entry.Names stores resource) (scope : Scope) :
    (∃ alone, createPermissions stores server identity (plainRequest claims) [entry] = .ok alone ∧
      ∃ q, (resource.id, q) ∈ alone.permissions ∧ scope ∈ q.permission.scopes) ↔
      YieldsScope stores server resource entry scope := by
  obtain ⟨alone, hrun, hscopes⟩ := createPermissions_alone server identity
    claims h
  rw [← hscopes]
  refine ⟨fun ⟨alone', hrun', hq⟩ => ?_, fun hq => ⟨alone, hrun, hq⟩⟩
  rw [hrun, Except.ok.injEq] at hrun'
  subst hrun'
  exact hq

theorem CollectedFrom.union (h : CollectedFrom stores server ticket permissions)
    (hticket : ∀ entry ∈ ticket, ∃ resource, entry.Names stores resource) (claims : Option Claims)
    (hcollects : ∀ id resource, stores.findById id = some resource → ∀ scope,
      (∃ entry ∈ ticket, entry.resourceId = some id ∧
        YieldsScope stores server resource entry scope) →
      CollectsScope stores server resource scope (ticket.filter (·.resourceId = some id))) :
    UnionOfEntries stores server identity (plainRequest claims) ticket permissions where
  nodup := h.nodup
  resources := h.keys
  resource id p hp := by
    obtain ⟨resource, hfound, hresource, -⟩ := h.entry id p hp
    rw [hresource, hfound]
  scopes id p hp scope := by
    obtain ⟨resource, hfound, -, hscopes⟩ := h.entry id p hp
    rw [hscopes]
    constructor
    · intro hcollected
      obtain ⟨entry, hentry, hyields⟩ := yields_of_collectsScope hcollected
      obtain ⟨hmem, hid⟩ := List.mem_filter.mp hentry
      have hid := of_decide_eq_true hid
      obtain ⟨hnames, heq⟩ := names_of_resourceId hticket hfound hmem hid
      refine ⟨entry, hmem, hid, ?_⟩
      rw [← heq]
      exact (scopes_alone_iff claims hnames scope).mpr hyields
    · rintro ⟨entry, hentry, hid, halone⟩
      obtain ⟨hnames, heq⟩ := names_of_resourceId hticket hfound hentry hid
      rw [← heq] at halone
      exact hcollects id resource hfound scope
        ⟨entry, hentry, hid, (scopes_alone_iff claims hnames scope).mp halone⟩

theorem names_of_mem_filter (hticket : ∀ entry ∈ ticket, ∃ resource, entry.Names stores resource)
    {id : String} {resource : Resource} (hfound : stores.findById id = some resource) :
    ∀ entry ∈ ticket.filter (·.resourceId = some id), entry.Names stores resource := by
  intro entry hentry
  obtain ⟨hmem, hid⟩ := List.mem_filter.mp hentry
  exact (names_of_resourceId hticket hfound hmem (of_decide_eq_true hid)).1

/-- A ticket whose entries do not agree comes to other scopes in some order. -/
theorem agrees_of_union (hticket : ∀ entry ∈ ticket, ∃ resource, entry.Names stores resource)
    (claims : Option Claims) {requested : Requested}
    (hunion : UnionOfEntries stores server identity (plainRequest claims) ticket
      requested.permissions)
    (hperm : ∀ ticket', ticket'.Perm ticket → ∃ requested',
      createPermissions stores server identity (plainRequest claims) ticket' = .ok requested' ∧
        scopePairs requested'.permissions = scopePairs requested.permissions)
    {id : String} {resource : Resource} (hfound : stores.findById id = some resource) :
    Agrees stores server resource (ticket.filter (·.resourceId = some id)) := by
  by_contra hagrees
  obtain ⟨first, hfirst, scope, ⟨entry, hentry, hyields⟩, hnot⟩ :=
    exists_not_collected hagrees (names_of_mem_filter hticket hfound)
  obtain ⟨hmem, hid⟩ := List.mem_filter.mp hfirst
  have hid := of_decide_eq_true hid
  obtain ⟨hin, hid'⟩ := List.mem_filter.mp hentry
  have hid' := of_decide_eq_true hid'
  obtain ⟨hnamed, heq⟩ := names_of_resourceId hticket hfound hin hid'
  -- the partial entry is moved to the front
  obtain ⟨before, after, hticket'⟩ := List.append_of_mem hmem
  have hreordered : (first :: (before ++ after)).Perm ticket := by
    rw [hticket']
    exact List.perm_middle.symm
  obtain ⟨requested', hrun', hpairs⟩ := hperm _ hreordered
  have hmoved : ∀ e ∈ first :: (before ++ after), ∃ resource, e.Names stores resource :=
    fun e he => hticket e (hreordered.mem_iff.mp he)
  obtain ⟨collected, hrun'', hcollected⟩ :=
    createPermissions_collected server identity claims hmoved
  rw [hrun', Except.ok.injEq] at hrun''
  subst hrun''
  have hkey := (hunion.resources id).mpr ⟨entry, hin, hid'⟩
  obtain ⟨⟨id₁, p⟩, hp, heq₁⟩ := List.mem_map.mp hkey
  dsimp only at heq₁
  subst heq₁
  have hscope : scope ∈ p.permission.scopes := by
    rw [hunion.scopes _ p hp]
    refine ⟨entry, hin, hid', ?_⟩
    rw [← heq]
    exact (scopes_alone_iff claims hnamed scope).mpr hyields
  have hpair : (id₁, p.permission.scopes.toFinset) ∈ scopePairs requested'.permissions := by
    rw [hpairs, scopePairs, List.mem_toFinset]
    exact List.mem_map.mpr ⟨_, hp, rfl⟩
  rw [scopePairs, List.mem_toFinset, List.mem_map] at hpair
  obtain ⟨⟨id₂, p'⟩, hp', heq₂⟩ := hpair
  rw [Prod.mk.injEq] at heq₂
  dsimp only at heq₂
  obtain ⟨rfl, hscopes⟩ := heq₂
  obtain ⟨resource', hfound', -, hcollects⟩ := hcollected.entry _ p' hp'
  rw [hfound, Option.some.injEq] at hfound'
  subst hfound'
  have hscope' : scope ∈ p'.permission.scopes := by
    rw [← List.mem_toFinset, hscopes, List.mem_toFinset]
    exact hscope
  have hfront : (first :: (before ++ after)).filter (·.resourceId = some id₂) =
      first :: (before ++ after).filter (·.resourceId = some id₂) :=
    List.filter_cons_of_pos (decide_eq_true hid)
  rw [hcollects, hfront] at hscope'
  refine hnot _ (fun e he => ?_) hscope'
  obtain ⟨hmoved, hide⟩ := List.mem_filter.mp he
  exact List.mem_filter.mpr ⟨hreordered.mem_iff.mp (List.mem_cons_of_mem first hmoved), hide⟩

variable (identity) in
/-- Entries that agree come to their union in every order. -/
theorem union_of_agrees (hticket : ∀ entry ∈ ticket, ∃ resource, entry.Names stores resource)
    (claims : Option Claims)
    (hagrees : ∀ id resource, stores.findById id = some resource →
      Agrees stores server resource (ticket.filter (·.resourceId = some id)))
    (hperm : ticket'.Perm ticket) :
    ∃ requested', createPermissions stores server identity (plainRequest claims) ticket' =
        .ok requested' ∧
      UnionOfEntries stores server identity (plainRequest claims) ticket
        requested'.permissions := by
  have hticket' : ∀ entry ∈ ticket', ∃ resource, entry.Names stores resource :=
    fun e he => hticket e (hperm.mem_iff.mp he)
  obtain ⟨requested', hrun, hcollected⟩ := createPermissions_collected server identity
    claims hticket'
  refine ⟨requested', hrun, (hcollected.union hticket' claims ?_).perm hperm⟩
  rintro id resource hfound scope ⟨entry, hentry, hid, hyields⟩
  have hfilter := hperm.filter (·.resourceId = some id)
  have hagrees' : Agrees stores server resource (ticket'.filter (·.resourceId = some id)) := by
    have h := hagrees id resource hfound
    simp only [Agrees, hfilter.mem_iff] at h ⊢
    exact h
  refine (hagrees'.collectsScope_iff (fun e he => ?_) scope).mpr
    ⟨entry, List.mem_filter.mpr ⟨hentry, decide_eq_true hid⟩, hyields⟩
  exact names_of_mem_filter hticket hfound e (hfilter.mem_iff.mp he)

end

/-- A ticket asks for the union of what its entries ask for, in every order, exactly when for each
resource all entries list scopes, or none does, or they list all that the resource has or
inherits. -/
theorem entries_unite_iff (stores : RequestStore) (server : ResourceServer) (identity : Identity)
    (claims : Option Claims) (ticket : List TicketPermission)
    (hticket : ∀ entry ∈ ticket, ∃ resource, entry.Names stores resource) :
    (∃ requested, createPermissions stores server identity (plainRequest claims) ticket =
        .ok requested ∧
      UnionOfEntries stores server identity (plainRequest claims) ticket requested.permissions ∧
      ∀ ticket', ticket'.Perm ticket → ∃ requested',
        createPermissions stores server identity (plainRequest claims) ticket' = .ok requested' ∧
          scopePairs requested'.permissions = scopePairs requested.permissions) ↔
    ∀ id resource, stores.findById id = some resource →
      Agrees stores server resource (ticket.filter (·.resourceId = some id)) := by
  constructor
  · rintro ⟨requested, -, hunion, hperm⟩ id resource hfound
    exact agrees_of_union hticket claims hunion hperm hfound
  · intro hagrees
    obtain ⟨requested, hrun, hrequested⟩ :=
      union_of_agrees identity hticket claims hagrees (List.Perm.refl _)
    refine ⟨requested, hrun, hrequested, fun ticket' hperm => ?_⟩
    obtain ⟨requested', hrun', hrequested'⟩ := union_of_agrees identity hticket claims hagrees hperm
    exact ⟨requested', hrun', hrequested.scopePairs_eq hrequested'⟩

/-! ## Reading and writing a document -/

def sharedDocument : Resource :=
  ⟨"document-1", "Document", none, "server", false, [⟨"read", "read"⟩, ⟨"write", "write"⟩]⟩

def documentStores : RequestStore where
  store := ⟨fun _ => [], fun _ => [], fun _ => [], fun _ => [], fun _ => []⟩
  findById id := if id = "document-1" then some sharedDocument else none
  findByName _ _ := none
  findScopeByName name := if name = "read" ∨ name = "write" then some ⟨name, name⟩ else none

def entryFor (scopes : List String) : TicketPermission := ⟨some "document-1", scopes, none⟩

theorem entryFor_names {scopes : List String}
    (h : ∀ name ∈ scopes, name = "read" ∨ name = "write") :
    (entryFor scopes).Names documentStores sharedDocument where
  id := rfl
  isId := by decide
  found := rfl
  scopes name hname := by
    show (if name = "read" ∨ name = "write" then some (Scope.mk name name) else none).isSome = true
    rw [if_pos (h name hname)]
    rfl

/-- Entries that all list scopes. -/
theorem listed_entries_unite :
    ∃ requested, createPermissions documentStores ⟨"server", .enforcing⟩ ⟨"user", false⟩
        (plainRequest none) [entryFor ["read"], entryFor ["write"]] = .ok requested ∧
      UnionOfEntries documentStores ⟨"server", .enforcing⟩ ⟨"user", false⟩ (plainRequest none)
        [entryFor ["read"], entryFor ["write"]] requested.permissions ∧
      ∀ ticket', ticket'.Perm [entryFor ["read"], entryFor ["write"]] → ∃ requested',
        createPermissions documentStores ⟨"server", .enforcing⟩ ⟨"user", false⟩ (plainRequest none)
          ticket' = .ok requested' ∧
            scopePairs requested'.permissions = scopePairs requested.permissions := by
  refine (entries_unite_iff documentStores _ _ none [entryFor ["read"], entryFor ["write"]] ?_).mpr
    ?_
  · intro entry hentry
    simp only [List.mem_cons, List.not_mem_nil, or_false] at hentry
    rcases hentry with rfl | rfl
    · exact ⟨_, entryFor_names (by decide)⟩
    · exact ⟨_, entryFor_names (by decide)⟩
  · intro id resource _
    refine .inl fun entry hentry => ?_
    have hmem := List.mem_of_mem_filter hentry
    simp only [List.mem_cons, List.not_mem_nil, or_false] at hmem
    rcases hmem with rfl | rfl
    · exact List.cons_ne_nil _ _
    · exact List.cons_ne_nil _ _

/-- An entry without scopes behind one that lists a scope. -/
theorem partial_entry_not_united :
    ¬ ∃ requested, createPermissions documentStores ⟨"server", .enforcing⟩ ⟨"user", false⟩
        (plainRequest none) [entryFor ["read"], entryFor []] = .ok requested ∧
      UnionOfEntries documentStores ⟨"server", .enforcing⟩ ⟨"user", false⟩ (plainRequest none)
        [entryFor ["read"], entryFor []] requested.permissions ∧
      ∀ ticket', ticket'.Perm [entryFor ["read"], entryFor []] → ∃ requested',
        createPermissions documentStores ⟨"server", .enforcing⟩ ⟨"user", false⟩ (plainRequest none)
          ticket' = .ok requested' ∧
            scopePairs requested'.permissions = scopePairs requested.permissions := by
  rintro ⟨requested, hrun, hunion, -⟩
  have hpermissions : requested.permissions =
      [("document-1", ⟨⟨0, some sharedDocument, [⟨"read", "read"⟩]⟩, []⟩)] := by
    cases hrun
    decide
  have hwrite := (hunion.scopes "document-1" _ (hpermissions ▸ List.mem_cons_self)
    ⟨"write", "write"⟩).mpr ⟨entryFor [], by decide, rfl, _, rfl,
      ⟨⟨0, some sharedDocument, sharedDocument.scopes⟩, []⟩, by decide, by decide⟩
  exact absurd hwrite (by decide)

end Keycloak.Authz
