import Keycloak.Cache.ObjectCache
import Keycloak.Lib.Machine
import Mathlib.Data.List.AList
import Mathlib.Data.List.ReduceOption

/-!
# Cached lookups of authorization policies

`StoreFactoryCacheSession.PolicyCache` in front of `JPAPolicyStore`, for transactions that
create, change and delete policies and look them up by resource, by resource type and by
scope.  Transactions run one after the other on one node; entries of the caches may be
evicted at any time.  Policies and lists share one cache and one set of invalidations,
both keyed by strings.

Resources and scopes do not change; a lookup of one of them by id is a lookup in the
`Catalogue`.  The columns of a policy that neither a lookup nor an invalidation reads are
left out, and so are associated policies.
-/

namespace Keycloak.Cache.PolicyQueries

/-! ## `JPAPolicyStore` -/

structure Resource where
  resourceServer : String
  type : Option String
  deriving DecidableEq, Repr

/-- The resources, the servers of the scopes, and `like` as the database has it. -/
structure Catalogue where
  resources : String → Option Resource
  scopes : String → Option String
  like : String → String → Bool

structure PolicyEntity where
  name : String
  type : String
  resourceServer : String
  resources : List String
  scopes : List String
  config : List (String × String)
  deriving DecidableEq, Repr

def PolicyEntity.defaultResourceType (p : PolicyEntity) : Option String :=
  p.config.lookup "defaultResourceType"

/-- The rows of `RESOURCE_SERVER_POLICY` by id. -/
abbrev Database := AList fun _ : String => PolicyEntity

inductive Request where
  | findByResource (resourceId resourceServerId : String)
  | findByResourceType (resourceType resourceServerId : String)
  | findByScopeIds (scopeIds : List String) (resourceId : Option String)
      (resourceServerId : String)
  deriving DecidableEq, Repr

def Catalogue.resourceOn (cat : Catalogue) (id server : String) : Bool :=
  (cat.resources id).any fun resource => resource.resourceServer = server

/-- The conditions of `findPolicyIdByResource`, `findPolicyIdByResourceType`,
`findPolicyIdByNullResourceScope` and `findPolicyIdByResourceScope`. -/
def Request.selects (cat : Catalogue) : Request → PolicyEntity → Bool
  | .findByResource resource server, p =>
      p.resourceServer = server && p.resources.contains resource &&
        cat.resourceOn resource server
  | .findByResourceType type server, p =>
      p.resourceServer = server && p.defaultResourceType.any fun value => cat.like value type
  | .findByScopeIds scopes none server, p =>
      p.resourceServer = server && p.type = "scope" &&
        (p.scopes.any fun scope => scopes.contains scope && cat.scopes scope = some server) &&
        p.resources.isEmpty
  | .findByScopeIds scopes (some resource) server, p =>
      p.resourceServer = server && p.type = "scope" &&
        (p.scopes.any fun scope => scopes.contains scope && cat.scopes scope = some server) &&
        p.resources.contains resource && cat.resourceOn resource server

def Database.getResultList (db : Database) (cat : Catalogue) (request : Request) :
    List String :=
  (db.entries.filter fun row => request.selects cat row.2).map (·.1)

inductive Change where
  | setName (name : String)
  | setConfig (config : List (String × String))
  | addResource (resource : String)
  | removeResource (resource : String)
  | addScope (scope : String)
  | removeScope (scope : String)
  deriving DecidableEq, Repr

def Change.apply : Change → PolicyEntity → PolicyEntity
  | .setName name, p => { p with name }
  | .setConfig config, p => { p with config }
  | .addResource resource, p => { p with resources := p.resources.insert resource }
  | .removeResource resource, p => { p with resources := p.resources.filter (· ≠ resource) }
  | .addScope scope, p => { p with scopes := p.scopes.insert scope }
  | .removeScope scope, p => { p with scopes := p.scopes.filter (· ≠ scope) }

/-! ## Keys and cached objects -/

/-- The lookups that have a list of their own in the cache. -/
inductive Query where
  | byResource (resourceId resourceServerId : String)
  | byResourceType (resourceType resourceServerId : String)
  | byResourceScope (scope : String) (resourceId : Option String) (resourceServerId : String)
  deriving DecidableEq, Repr

inductive QueryType where
  | policyResourceListQuery
  | policyScopeListQuery
  deriving DecidableEq, Repr

namespace Query

def request : Query → Request
  | byResource resource server => .findByResource resource server
  | byResourceType type server => .findByResourceType type server
  | byResourceScope scope resource server => .findByScopeIds [scope] resource server

def queryType : Query → QueryType
  | byResource .. => .policyResourceListQuery
  | byResourceType .. => .policyResourceListQuery
  | byResourceScope .. => .policyScopeListQuery

def resourceServerId : Query → String
  | byResource _ server => server
  | byResourceType _ server => server
  | byResourceScope _ _ server => server

/-- `getResourceId` or `getScopeId` of the cached list; a list by type has the type as its
resource id. -/
def subject : Query → String
  | byResource resource _ => resource
  | byResourceType type _ => type
  | byResourceScope scope _ _ => scope

end Query

def getPolicyByNameCacheKey (name serverId : String) : String :=
  "policy.name." ++ name ++ "." ++ serverId

def getPolicyByResource (resourceId serverId : String) : String :=
  "policy.resource." ++ resourceId ++ "." ++ serverId

def getPolicyByResourceType (type serverId : String) : String :=
  "policy.resource.type." ++ type ++ "." ++ serverId

def getPolicyByScope (scope serverId : String) : String :=
  "policy.scope." ++ scope ++ "." ++ serverId

/-- A null resource is printed as such. -/
def getPolicyByResourceScope (scope : String) (resourceId : Option String)
    (serverId : String) : String :=
  "policy.resource. " ++ resourceId.getD "null" ++ ".scope." ++ scope ++ "." ++ serverId

def Query.cacheKey : Query → String
  | byResource resource server => getPolicyByResource resource server
  | byResourceType type server => getPolicyByResourceType type server
  | byResourceScope scope resource server => getPolicyByResourceScope scope resource server

def Request.queries : Request → List Query
  | .findByResource resource server => [.byResource resource server]
  | .findByResourceType type server => [.byResourceType type server]
  | .findByScopeIds scopes resource server =>
      scopes.map fun scope => .byResourceScope scope resource server

/-- A `CachedPolicy`, or the list of a query. -/
inductive Revisioned where
  | policy (cached : PolicyEntity)
  | list (query : Query) (policies : List String)
  deriving DecidableEq, Repr

abbrev StoreFactoryCacheManager := ObjectCache Revisioned

def getPolicy (c : StoreFactoryCacheManager) (id : String) : Option PolicyEntity :=
  match c.get id with
  | some (.policy cached) => some cached
  | _ => none

def getQuery (c : StoreFactoryCacheManager) (query : Query) : Option (Query × List String) :=
  match c.get query.cacheKey with
  | some (.list cached policies) =>
      if cached.queryType = query.queryType then some (cached, policies) else none
  | _ => none

/-! ## `StoreFactoryCacheSession` -/

/-- `PolicyAdapter` in front of a cached policy; `updated` says that it has fetched the
policy of the delegate. -/
structure PolicyAdapter where
  id : String
  cached : PolicyEntity
  updated : Bool
  invalidated : Bool
  deriving DecidableEq, Repr

/-- What a lookup by id hands out: an adapter, by its number, or the policy of the
delegate. -/
inductive Policy where
  | adapter (index : Nat)
  | delegate (id : String)
  deriving DecidableEq, Repr

/-- The arguments of `registerPolicyInvalidation`.  A null set gives the keys of an empty
one. -/
structure Registration where
  id : String
  name : String
  resources : List String
  scopes : List String
  defaultResourceType : Option String
  serverId : String
  deriving DecidableEq, Repr

/-- `policyUpdated`; the first two keys are there for every policy. -/
def policyUpdated (r : Registration) (resourceTypes : List String) : List String :=
  [r.id, getPolicyByNameCacheKey r.name r.serverId] ++
    (r.resources.flatMap fun resource => getPolicyByResource resource r.serverId ::
      r.scopes.map fun scope => getPolicyByResourceScope scope (some resource) r.serverId) ++
    (resourceTypes.map fun type => getPolicyByResourceType type r.serverId) ++
    (r.scopes.flatMap fun scope =>
      [getPolicyByScope scope r.serverId, getPolicyByResourceScope scope none r.serverId])

/-- `getResourceTypes`; a resource that is not found is dereferenced all the same. -/
def getResourceTypes (cat : Catalogue) (resources : List String) : Option (List String) :=
  (resources.mapM cat.resources).map fun found => found.filterMap (·.type)

def Registration.keys (cat : Catalogue) (r : Registration) : Option (List String) :=
  (getResourceTypes cat r.resources).map fun types =>
    policyUpdated r (r.defaultResourceType.toList ++ types)

/-- A transaction: the entities of its persistence context, the rows its queries see, and
the fields of its session.  The queries have flush mode `COMMIT`, so they do not see
changes that nothing has flushed. -/
structure Session where
  entities : Database
  flushed : Database
  startupRevision : Nat
  invalidations : List String
  adapters : List PolicyAdapter
  managedPolicies : String → Option Nat

def Session.start (committed : Database) (startupRevision : Nat) : Session where
  entities := committed
  flushed := committed
  startupRevision
  invalidations := []
  adapters := []
  managedPolicies _ := none

namespace Session

/-- `new PolicyAdapter` and `managedPolicies.put`. -/
def manage (tx : Session) (id : String) (cached : PolicyEntity) : Policy × Session :=
  (.adapter tx.adapters.length, { tx with
    adapters := tx.adapters ++ [⟨id, cached, false, false⟩]
    managedPolicies := Function.update tx.managedPolicies id (some tx.adapters.length) })

def findById (tx : Session) (c : StoreFactoryCacheManager) (id : String) :
    Option Policy × StoreFactoryCacheManager × Session :=
  match getPolicy c id with
  | none =>
      let loaded := c.getCurrentRevision id
      match tx.entities.lookup id with
      | none => (none, c, tx)
      | some model =>
          if id ∈ tx.invalidations then (some (.delegate id), c, tx)
          else
            let c := c.addRevisioned id ⟨loaded, .policy model⟩ tx.startupRevision
            let (adapter, tx) := tx.manage id model
            (some adapter, c, tx)
  | some cached =>
      if id ∈ tx.invalidations then
        ((tx.entities.lookup id).map fun _ => .delegate id, c, tx)
      else
        match tx.managedPolicies id with
        | some index => (some (.adapter index), c, tx)
        | none =>
            let (adapter, tx) := tx.manage id cached
            (some adapter, c, tx)

/-- `findById` of one id after the other. -/
def findAll (tx : Session) (c : StoreFactoryCacheManager) :
    List String → List (Option String) × StoreFactoryCacheManager × Session
  | [] => ([], c, tx)
  | id :: ids =>
      let (policy, c, tx) := tx.findById c id
      let (policies, c, tx) := tx.findAll c ids
      (policy.map (fun _ => id) :: policies, c, tx)

/-- The lookup of the delegate, which looks every id up in the session again and leaves
out those that are not found. -/
def delegateFind (tx : Session) (cat : Catalogue) (c : StoreFactoryCacheManager)
    (request : Request) : List String × StoreFactoryCacheManager × Session :=
  let (policies, c, tx) := tx.findAll c (tx.flushed.getResultList cat request)
  (policies.reduceOption, c, tx)

def isInvalid (tx : Session) (query : Query) : Bool :=
  tx.invalidations.contains query.cacheKey ||
    tx.invalidations.contains query.resourceServerId ||
    tx.invalidations.contains query.subject

/-- `cacheQuery`: what the caller receives, from the returned list or through its
consumer. -/
def cacheQuery (tx : Session) (cat : Catalogue) (c : StoreFactoryCacheManager) (query : Query)
    (consumer : Bool) : List (Option String) × StoreFactoryCacheManager × Session :=
  match getQuery c query with
  | none =>
      let loaded := c.getCurrentRevision query.cacheKey
      let (model, c, tx) := tx.delegateFind cat c query.request
      -- this return stands before the loop over the consumer
      if query.cacheKey ∈ tx.invalidations then
        (if consumer then [] else model.map some, c, tx)
      else
        let c := c.addRevisioned query.cacheKey ⟨loaded, .list query model⟩ tx.startupRevision
        (model.map some, c, tx)
  | some (cached, policies) =>
      if tx.isInvalid cached then
        let (policies, c, tx) := tx.delegateFind cat c query.request
        (policies.map some, c, tx)
      else tx.findAll c policies

def cacheQueries (tx : Session) (cat : Catalogue) (c : StoreFactoryCacheManager)
    (consumer : Bool) :
    List Query → List (Option String) × StoreFactoryCacheManager × Session
  | [] => ([], c, tx)
  | query :: queries =>
      let (delivered, c, tx) := tx.cacheQuery cat c query consumer
      let (rest, c, tx) := tx.cacheQueries cat c consumer queries
      (delivered ++ rest, c, tx)

def find (tx : Session) (cat : Catalogue) (c : StoreFactoryCacheManager) (request : Request)
    (consumer : Bool) : List (Option String) × StoreFactoryCacheManager × Session :=
  tx.cacheQueries cat c consumer request.queries

def expected (tx : Session) (cat : Catalogue) (request : Request) : List String :=
  (tx.flushed.getResultList cat request).filter fun id => (tx.entities.lookup id).isSome

/-! ## Changes -/

/-- `registerPolicyInvalidation`; `none` is the null pointer of `getResourceTypes`. -/
def registerPolicyInvalidation (tx : Session) (cat : Catalogue) (r : Registration) :
    Option Session :=
  (r.keys cat).map fun keys => { tx with
    invalidations := keys ++ tx.invalidations
    adapters :=
      match tx.managedPolicies r.id with
      | some index => tx.adapters.modify index fun a => { a with invalidated := true }
      | none => tx.adapters }

def registerAll (tx : Session) (cat : Catalogue) : List Registration → Option Session
  | [] => some tx
  | r :: rest => (tx.registerPolicyInvalidation cat r).bind fun tx => tx.registerAll cat rest

end Session

namespace PolicyAdapter

/-- The registration of `getDelegateForUpdate`: the snapshot of the adapter, with the
resource type that the policy of the delegate has. -/
def delegateRegistration (a : PolicyAdapter) (updated : PolicyEntity) : Registration :=
  ⟨a.id, a.cached.name, a.cached.resources, a.cached.scopes, updated.defaultResourceType,
    a.cached.resourceServer⟩

def registrations (a : PolicyAdapter) : Change → List Registration
  | .setName name =>
      [⟨a.id, name, a.cached.resources, a.cached.scopes, a.cached.defaultResourceType,
        a.cached.resourceServer⟩]
  | .setConfig config =>
      if (config.lookup "defaultResourceType").isSome ∨ a.cached.defaultResourceType.isSome then
        [⟨a.id, a.cached.name, a.cached.resources, a.cached.scopes,
          a.cached.defaultResourceType, a.cached.resourceServer⟩,
        ⟨a.id, a.cached.name, a.cached.resources, a.cached.scopes,
          config.lookup "defaultResourceType", a.cached.resourceServer⟩]
      else []
  | .addResource resource | .removeResource resource =>
      [⟨a.id, a.cached.name, [resource], a.cached.scopes, a.cached.defaultResourceType,
        a.cached.resourceServer⟩]
  | .addScope scope | .removeScope scope =>
      [⟨a.id, a.cached.name, a.cached.resources, [scope], a.cached.defaultResourceType,
        a.cached.resourceServer⟩]

end PolicyAdapter

namespace Session

def getDelegateForUpdate (tx : Session) (cat : Catalogue) (index : Nat) : Option Session :=
  match tx.adapters[index]? with
  | none => none
  | some a =>
      if a.updated then some tx
      else
        match tx.entities.lookup a.id with
        | none => none
        | some updated =>
            { tx with
              adapters := tx.adapters.modify index fun a => { a with updated := true } }
              |>.registerPolicyInvalidation cat (a.delegateRegistration updated)

def update (tx : Session) (id : String) (change : Change) : Session :=
  match tx.entities.lookup id with
  | none => tx
  | some p => { tx with entities := tx.entities.insert id (change.apply p) }

def getId (tx : Session) : Policy → Option String
  | .adapter index => (tx.adapters[index]?).map (·.id)
  | .delegate id => some id

def change (tx : Session) (cat : Catalogue) (change : Change) : Policy → Option Session
  | .delegate id => some (tx.update id change)
  | .adapter index =>
      match tx.adapters[index]? with
      | none => none
      | some a => do
          let tx ← tx.getDelegateForUpdate cat index
          let tx ← tx.registerAll cat (a.registrations change)
          return tx.update a.id change

/-- The getters of a policy that was handed out.  `isUpdated` of an adapter decides between
the policy of the delegate and the snapshot, and fetches the former without registering
anything. -/
def read (tx : Session) : Policy → Option (PolicyEntity × Session)
  | .delegate id => (tx.entities.lookup id).map fun p => (p, tx)
  | .adapter index =>
      match tx.adapters[index]? with
      | none => none
      | some a =>
          if a.updated ∨ a.invalidated then
            (tx.entities.lookup a.id).map fun p => (p, { tx with
              adapters := tx.adapters.modify index fun a => { a with updated := true } })
          else some (a.cached, tx)

structure PolicyRepresentation where
  id : String
  name : String
  type : String
  resources : List String
  scopes : List String
  deriving DecidableEq, Repr

/-- `create`; the delegate stores the name and the type, and flushes. -/
def create (tx : Session) (cat : Catalogue) (c : StoreFactoryCacheManager)
    (representation : PolicyRepresentation) (server : String) :
    Option (StoreFactoryCacheManager × Session) := do
  let entity : PolicyEntity := ⟨representation.name, representation.type, server, [], [], []⟩
  let entities := tx.entities.insert representation.id entity
  let (_, c, tx) := { tx with entities, flushed := entities }.findById c representation.id
  let tx ← tx.registerPolicyInvalidation cat ⟨representation.id, representation.name,
    representation.resources, representation.scopes, none, server⟩
  return (c, tx)

def removalRegistration (id : String) (p : PolicyEntity) : Registration :=
  ⟨id, p.name, p.resources, p.scopes, p.defaultResourceType, p.resourceServer⟩

def delete (tx : Session) (cat : Catalogue) (c : StoreFactoryCacheManager) (id : String) :
    Option (StoreFactoryCacheManager × Session) :=
  match tx.findById c id with
  | (none, c, tx) => some (c, tx)
  | (some policy, c, tx) => do
      let c := c.invalidateObject id
      let (p, tx) ← tx.read policy
      let keys ← (removalRegistration id p).keys cat
      return (c, { tx with
        invalidations := keys ++ tx.invalidations
        entities := tx.entities.erase id })

end Session

def runInvalidations (c : StoreFactoryCacheManager) (tx : Session) : StoreFactoryCacheManager :=
  tx.invalidations.foldl ObjectCache.invalidateObject c

/-! ## Transactions one after the other -/

/-- A lookup that was made: what it delivered, and what the delegate returns to the same
call.  A policy is delivered as its id, and null as `none`. -/
structure Read where
  request : Request
  delivered : List (Option String)
  expected : List String
  deriving DecidableEq, Repr

structure State where
  committed : Database
  cache : StoreFactoryCacheManager
  session : Option Session
  log : List Read
  /-- A call has thrown. -/
  threw : Bool

inductive Label where
  | begin
  | create (representation : Session.PolicyRepresentation) (server : String)
  | findById (id : String)
  | read (policy : Policy)
  | change (change : Change) (policy : Policy)
  | delete (id : String)
  | find (request : Request) (consumer : Bool)
  | flush
  | commit
  | rollback
  | evictRevision (key : String)
  | evictEntry (key : String)
  deriving DecidableEq, Repr

/-- The policy was handed out in this transaction and is still there. -/
def Session.Usable (tx : Session) (policy : Policy) : Prop :=
  (match policy with
    | .adapter index => index < tx.adapters.length
    | .delegate id => id ∈ tx.invalidations) ∧
  ((tx.getId policy).bind tx.entities.lookup).isSome

instance (tx : Session) (policy : Policy) : Decidable (tx.Usable policy) := by
  unfold Session.Usable
  cases policy <;> infer_instance

def Change.resourcesExist (cat : Catalogue) : Change → Bool
  | .addResource resource | .removeResource resource => (cat.resources resource).isSome
  | _ => true

def State.after (s : State) : Option (StoreFactoryCacheManager × Session) → State
  | some (cache, tx) => { s with cache, session := some tx }
  | none => { s with threw := true }

def step (cat : Catalogue) (s : State) (label : Label) : Option State :=
  match s.session, label with
  | none, .begin =>
      some { s with session := some (Session.start s.committed s.cache.counter) }
  | some tx, .create representation server =>
      if (tx.entities.lookup representation.id).isNone ∧
          (tx.flushed.lookup representation.id).isNone ∧
          ∀ r ∈ representation.resources, (cat.resources r).isSome then
        some (s.after (tx.create cat s.cache representation server))
      else none
  | some tx, .findById id =>
      let (_, cache, tx) := tx.findById s.cache id
      some { s with cache, session := some tx }
  | some tx, .read policy =>
      if tx.Usable policy then
        some (s.after ((tx.read policy).map fun (_, tx) => (s.cache, tx)))
      else none
  | some tx, .change change policy =>
      if tx.Usable policy ∧ change.resourcesExist cat then
        some (s.after ((tx.change cat change policy).map fun tx => (s.cache, tx)))
      else none
  | some tx, .delete id => some (s.after (tx.delete cat s.cache id))
  | some tx, .find request consumer =>
      let (delivered, cache, tx') := tx.find cat s.cache request consumer
      some { s with
        cache, session := some tx'
        log := ⟨request, delivered, tx.expected cat request⟩ :: s.log }
  | some tx, .flush => some { s with session := some { tx with flushed := tx.entities } }
  | some tx, .commit =>
      some { s with
        committed := tx.entities, cache := runInvalidations s.cache tx, session := none }
  | some tx, .rollback =>
      some { s with cache := runInvalidations s.cache tx, session := none }
  | _, .evictRevision key => some { s with cache := s.cache.evictRevision key }
  | _, .evictEntry key => some { s with cache := s.cache.evictEntry key }
  | _, _ => none

def initial (committed : Database) : State where
  committed
  cache := .empty
  session := none
  log := []
  threw := false

/-! ## The rows that a lookup selects -/

def Database.selected (db : Database) (cat : Catalogue) (query : Query) (id : String) : Bool :=
  (db.lookup id).any (query.request.selects cat)

section

variable {cat : Catalogue} {db : Database} {id : String}

theorem mem_getResultList {request : Request} : id ∈ db.getResultList cat request ↔
    (db.lookup id).any (request.selects cat) = true := by
  rw [Database.getResultList, List.mem_map, Option.any_eq_true]
  constructor
  · rintro ⟨⟨id', p⟩, hmem, rfl⟩
    obtain ⟨hentry, hselects⟩ := List.mem_filter.mp hmem
    exact ⟨p, AList.mem_lookup_iff.mpr hentry, hselects⟩
  · rintro ⟨p, hlookup, hselects⟩
    exact ⟨⟨id, p⟩, List.mem_filter.mpr ⟨AList.mem_lookup_iff.mp hlookup, hselects⟩, rfl⟩

theorem scopes_any_iff {p : PolicyEntity} {scopes : List String} {server : String} :
    (p.scopes.any fun scope => scopes.contains scope && cat.scopes scope = some server) = true ↔
      ∃ scope ∈ scopes, scope ∈ p.scopes ∧ cat.scopes scope = some server := by
  simp only [List.any_eq_true, List.contains_eq_mem, Bool.and_eq_true, decide_eq_true_eq]
  constructor
  · rintro ⟨scope, hp, hmem, hserver⟩
    exact ⟨scope, hmem, hp, hserver⟩
  · rintro ⟨scope, hmem, hp, hserver⟩
    exact ⟨scope, hp, hmem, hserver⟩

theorem selects_iff {request : Request} {p : PolicyEntity} : request.selects cat p = true ↔
    ∃ query ∈ request.queries, query.request.selects cat p = true := by
  cases request with
  | findByResource resource server => simp [Request.queries, Query.request]
  | findByResourceType type server => simp [Request.queries, Query.request]
  | findByScopeIds scopes resource server =>
      cases resource with
      | none =>
          simp only [Request.queries, List.mem_map, exists_exists_and_eq_and, Query.request,
            Request.selects, Bool.and_eq_true, scopes_any_iff, List.mem_singleton, exists_eq_left]
          constructor
          · rintro ⟨⟨hp, scope, hmem, hscope⟩, hempty⟩
            exact ⟨scope, hmem, ⟨hp, hscope⟩, hempty⟩
          · rintro ⟨scope, hmem, ⟨hp, hscope⟩, hempty⟩
            exact ⟨⟨hp, scope, hmem, hscope⟩, hempty⟩
      | some resource =>
          simp only [Request.queries, List.mem_map, exists_exists_and_eq_and, Query.request,
            Request.selects, Bool.and_eq_true, scopes_any_iff, List.mem_singleton, exists_eq_left]
          constructor
          · rintro ⟨⟨⟨hp, scope, hmem, hscope⟩, hresource⟩, hserver⟩
            exact ⟨scope, hmem, ⟨⟨hp, hscope⟩, hresource⟩, hserver⟩
          · rintro ⟨scope, hmem, ⟨⟨hp, hscope⟩, hresource⟩, hserver⟩
            exact ⟨⟨⟨hp, scope, hmem, hscope⟩, hresource⟩, hserver⟩

end

/-! ## The keys of a registration -/

/-- The lookups that a registration is about: its resources, its scopes, the scopes on the
resources, and the types of the resources. -/
def Registration.Names (cat : Catalogue) (r : Registration) : Query → Prop
  | .byResource resource server => server = r.serverId ∧ resource ∈ r.resources
  | .byResourceType type server => server = r.serverId ∧ (r.defaultResourceType = some type ∨
      ∃ resource ∈ r.resources, ∃ found, cat.resources resource = some found ∧
        found.type = some type)
  | .byResourceScope scope none server => server = r.serverId ∧ scope ∈ r.scopes
  | .byResourceScope scope (some resource) server =>
      server = r.serverId ∧ scope ∈ r.scopes ∧ resource ∈ r.resources

def Known (cat : Catalogue) (resources : List String) : Prop :=
  ∀ resource ∈ resources, (cat.resources resource).isSome

section

variable {cat : Catalogue} {r : Registration}

theorem mapM_eq_some_of_known {resources : List String} (h : Known cat resources) :
    ∃ found, resources.mapM cat.resources = some found ∧
      ∀ resource ∈ resources, ∀ x, cat.resources resource = some x → x ∈ found := by
  induction resources with
  | nil => exact ⟨[], rfl, fun resource hmem => absurd hmem List.not_mem_nil⟩
  | cons head rest ih =>
      obtain ⟨found, hfound, hmem⟩ := ih fun resource hmem => h resource (.tail _ hmem)
      obtain ⟨x, hx⟩ := Option.isSome_iff_exists.mp (h head (.head _))
      refine ⟨x :: found, ?_, ?_⟩
      · simp [List.mapM_cons, hx, hfound]
      · intro resource hresource y hy
        rcases List.mem_cons.mp hresource with rfl | hrest
        · rw [hx, Option.some.injEq] at hy
          exact hy ▸ List.mem_cons_self
        · exact List.mem_cons_of_mem _ (hmem resource hrest y hy)

/-- A registration of resources that exist has keys, among them those of the lookups that
it names. -/
theorem keys_of_known (h : Known cat r.resources) : ∃ keys, r.keys cat = some keys ∧
    r.id ∈ keys ∧ ∀ query, r.Names cat query → query.cacheKey ∈ keys := by
  obtain ⟨found, hfound, hmem⟩ := mapM_eq_some_of_known h
  refine ⟨_, by rw [Registration.keys, getResourceTypes, hfound]; rfl, ?_, ?_⟩
  · simp [policyUpdated]
  · intro query hnames
    cases query with
    | byResource resource server =>
        obtain ⟨rfl, hresource⟩ := hnames
        simp only [policyUpdated, List.mem_append, List.mem_flatMap]
        exact .inl (.inl (.inr ⟨resource, hresource, List.mem_cons_self⟩))
    | byResourceType type server =>
        obtain ⟨rfl, htype⟩ := hnames
        simp only [policyUpdated, List.mem_append, List.mem_map]
        refine .inl (.inr ⟨type, ?_, rfl⟩)
        rcases htype with hdefault | ⟨resource, hresource, x, hx, htype⟩
        · exact .inl (by rw [hdefault]; exact List.mem_singleton_self type)
        · exact .inr (List.mem_filterMap.mpr ⟨x, hmem resource hresource x hx, htype⟩)
    | byResourceScope scope resource server =>
        cases resource with
        | none =>
            obtain ⟨rfl, hscope⟩ := hnames
            simp only [policyUpdated, List.mem_append, List.mem_flatMap]
            exact .inr ⟨scope, hscope, by simp [Query.cacheKey]⟩
        | some resource =>
            obtain ⟨rfl, hscope, hresource⟩ := hnames
            simp only [policyUpdated, List.mem_append, List.mem_flatMap]
            refine .inl (.inl (.inr ⟨resource, hresource, List.mem_cons_of_mem _ ?_⟩))
            exact List.mem_map.mpr ⟨scope, hscope, rfl⟩

end

end Keycloak.Cache.PolicyQueries
