import Keycloak.Cache.PolicyQueries
import Mathlib.Data.List.ReduceOption

/-!
# Lookups of policies inside a transaction

While a transaction runs, everything that its invalidations do not name is as committed.
A lookup then delivers what the delegate returns, unless it meets its own invalidated key
through a consumer or the list of another lookup.
-/

namespace Keycloak.Cache.PolicyQueries

/-! ## What holds inside a transaction -/

/-- What is not among `invalidations` is as committed: rows, lookups, cached policies and
cached lists. -/
structure SessionInv (cat : Catalogue) (committed : Database) (c : StoreFactoryCacheManager)
    (tx : Session) (invalidations : List String) : Prop where
  unchanged : ∀ {id}, id ∉ invalidations → tx.entities.lookup id = committed.lookup id ∧
    tx.flushed.lookup id = committed.lookup id
  lookups : ∀ {query : Query}, query.cacheKey ∉ invalidations → ∀ id,
    tx.entities.selected cat query id = committed.selected cat query id ∧
      tx.flushed.selected cat query id = committed.selected cat query id
  policies : ∀ {id p}, c.object id = some (.policy p) →
    Known cat p.resources ∧ (id ∉ invalidations → committed.lookup id = some p)
  lists : ∀ {key query policies}, c.object key = some (.list query policies) →
    query.cacheKey = key ∧ (key ∉ invalidations →
      ∀ id, id ∈ policies ↔ committed.selected cat query id = true)
  adapters : ∀ a ∈ tx.adapters, Known cat a.cached.resources ∧
    (a.id ∉ invalidations → committed.lookup a.id = some a.cached)
  flagged : ∀ a ∈ tx.adapters, a.updated ∨ a.invalidated → a.id ∈ invalidations
  managed : ∀ {id index}, tx.managedPolicies id = some index →
    ∃ a, tx.adapters[index]? = some a ∧ a.id = id
  known : ∀ {id p}, tx.entities.lookup id = some p → Known cat p.resources
  committedKnown : ∀ {id p}, committed.lookup id = some p → Known cat p.resources

section

variable {cat : Catalogue} {committed : Database} {c c' : StoreFactoryCacheManager}
  {tx tx' : Session} {inv inv' : List String}

theorem SessionInv.mono (h : SessionInv cat committed c tx inv) (hsub : inv ⊆ inv') :
    SessionInv cat committed c tx inv' where
  unchanged hid := h.unchanged fun hmem => hid (hsub hmem)
  lookups hkey := h.lookups fun hmem => hkey (hsub hmem)
  policies hobject := ⟨(h.policies hobject).1, fun hid => (h.policies hobject).2 fun hmem =>
    hid (hsub hmem)⟩
  lists hobject := ⟨(h.lists hobject).1, fun hkey => (h.lists hobject).2 fun hmem =>
    hkey (hsub hmem)⟩
  adapters a ha := ⟨(h.adapters a ha).1, fun hid => (h.adapters a ha).2 fun hmem =>
    hid (hsub hmem)⟩
  flagged a ha hflag := hsub (h.flagged a ha hflag)
  managed := h.managed
  known := h.known
  committedKnown := h.committedKnown

theorem SessionInv.of_cache (h : SessionInv cat committed c tx inv)
    (hcache : ∀ {key o}, c'.object key = some o → c.object key = some o) :
    SessionInv cat committed c' tx inv where
  unchanged := h.unchanged
  lookups := h.lookups
  policies hobject := h.policies (hcache hobject)
  lists hobject := h.lists (hcache hobject)
  adapters := h.adapters
  flagged := h.flagged
  managed := h.managed
  known := h.known
  committedKnown := h.committedKnown

/-- Invalidations were registered: nothing else has changed but the flags of adapters
whose policies are among them. -/
structure Registered (tx tx' : Session) : Prop where
  entities : tx'.entities = tx.entities
  flushed : tx'.flushed = tx.flushed
  subset : tx.invalidations ⊆ tx'.invalidations
  adapters : tx'.adapters.map (fun a => (a.id, a.cached)) =
    tx.adapters.map fun a => (a.id, a.cached)
  flagged : ∀ {inv}, tx'.invalidations ⊆ inv →
    (∀ a ∈ tx.adapters, a.updated ∨ a.invalidated → a.id ∈ inv) →
    ∀ a ∈ tx'.adapters, a.updated ∨ a.invalidated → a.id ∈ inv
  managed : tx'.managedPolicies = tx.managedPolicies

theorem Registered.refl (tx : Session) : Registered tx tx :=
  ⟨rfl, rfl, fun _ hmem => hmem, rfl, fun _ hflagged => hflagged, rfl⟩

theorem Registered.trans {tx'' : Session} (h : Registered tx tx') (h' : Registered tx' tx'') :
    Registered tx tx'' where
  entities := h'.entities.trans h.entities
  flushed := h'.flushed.trans h.flushed
  subset _ hmem := h'.subset (h.subset hmem)
  adapters := h'.adapters.trans h.adapters
  flagged hsub hflagged :=
    h'.flagged hsub (h.flagged (fun _ hmem => hsub (h'.subset hmem)) hflagged)
  managed := h'.managed.trans h.managed

theorem Registered.getElem? (h : Registered tx tx') {index : Nat} {a : PolicyAdapter}
    (ha : tx.adapters[index]? = some a) :
    ∃ b, tx'.adapters[index]? = some b ∧ b.id = a.id ∧ b.cached = a.cached := by
  have hmap := congrArg (fun pairs => pairs[index]?) h.adapters
  simp only [List.getElem?_map, ha, Option.map_some, Option.map_eq_some_iff] at hmap
  obtain ⟨b, hb, heq⟩ := hmap
  exact ⟨b, hb, congrArg Prod.fst heq, congrArg Prod.snd heq⟩

theorem SessionInv.registered (h : SessionInv cat committed c tx inv)
    (hreg : Registered tx tx') (hsub : tx'.invalidations ⊆ inv) :
    SessionInv cat committed c tx' inv where
  unchanged hid := by
    rw [hreg.entities, hreg.flushed]
    exact h.unchanged hid
  lookups hkey id := by
    rw [hreg.entities, hreg.flushed]
    exact h.lookups hkey id
  policies := h.policies
  lists := h.lists
  adapters b hb := by
    have hmem : (b.id, b.cached) ∈ tx.adapters.map fun a => (a.id, a.cached) :=
      hreg.adapters ▸ List.mem_map_of_mem hb
    obtain ⟨a, ha, heq⟩ := List.mem_map.mp hmem
    have hadapter := h.adapters a ha
    rw [Prod.mk.injEq] at heq
    rwa [heq.1, heq.2] at hadapter
  flagged := hreg.flagged hsub h.flagged
  managed hindex := by
    rw [hreg.managed] at hindex
    obtain ⟨a, ha, hid⟩ := h.managed hindex
    obtain ⟨b, hb, hid', -⟩ := hreg.getElem? ha
    exact ⟨b, hb, hid'.trans hid⟩
  known hlookup := h.known (hreg.entities ▸ hlookup)
  committedKnown := h.committedKnown

/-- Lookups by id were made: they cache policies as the transaction sees them. -/
structure Looked (c : StoreFactoryCacheManager) (tx : Session)
    (c' : StoreFactoryCacheManager) (tx' : Session) : Prop where
  entities : tx'.entities = tx.entities
  flushed : tx'.flushed = tx.flushed
  invalidations : tx'.invalidations = tx.invalidations
  policies : ∀ {id p}, c'.object id = some (.policy p) →
    c.object id = some (.policy p) ∨ tx.entities.lookup id = some p
  lists : ∀ {key query policies}, c'.object key = some (.list query policies) →
    c.object key = some (.list query policies)
  adapters : ∀ a ∈ tx'.adapters, a ∈ tx.adapters ∨
    c.object a.id = some (.policy a.cached) ∨ tx.entities.lookup a.id = some a.cached
  flagged : ∀ a ∈ tx'.adapters, a.updated ∨ a.invalidated → a ∈ tx.adapters
  managed : (∀ id index, tx.managedPolicies id = some index →
      ∃ a, tx.adapters[index]? = some a ∧ a.id = id) →
    ∀ id index, tx'.managedPolicies id = some index →
      ∃ a, tx'.adapters[index]? = some a ∧ a.id = id
  get : ∀ {key o}, c.get key = some o → c'.get key = some o

theorem Looked.refl (c : StoreFactoryCacheManager) (tx : Session) : Looked c tx c tx :=
  ⟨rfl, rfl, rfl, .inl, id, fun _ => .inl, fun _ ha _ => ha, id, id⟩

theorem Looked.trans {c'' : StoreFactoryCacheManager} {tx'' : Session}
    (h : Looked c tx c' tx') (h' : Looked c' tx' c'' tx'') : Looked c tx c'' tx'' where
  entities := h'.entities.trans h.entities
  flushed := h'.flushed.trans h.flushed
  invalidations := h'.invalidations.trans h.invalidations
  policies hobject := by
    rcases h'.policies hobject with hobject | hlookup
    · exact h.policies hobject
    · exact .inr (h.entities ▸ hlookup)
  lists hobject := h.lists (h'.lists hobject)
  adapters a ha := by
    rcases h'.adapters a ha with hmem | hobject | hlookup
    · exact h.adapters a hmem
    · exact .inr (h.policies hobject)
    · exact .inr (.inr (h.entities ▸ hlookup))
  flagged a ha hflag := h.flagged a (h'.flagged a ha hflag) hflag
  managed hmanaged := h'.managed (h.managed hmanaged)
  get hget := h'.get (h.get hget)

theorem SessionInv.looked (h : SessionInv cat committed c tx inv) (hlooked : Looked c tx c' tx') :
    SessionInv cat committed c' tx' inv := by
  have hrow : ∀ {id p}, tx.entities.lookup id = some p →
      Known cat p.resources ∧ (id ∉ inv → committed.lookup id = some p) :=
    fun hlookup => ⟨h.known hlookup, fun hid => (h.unchanged hid).1 ▸ hlookup⟩
  constructor
  · intro id hid
    rw [hlooked.entities, hlooked.flushed]
    exact h.unchanged hid
  · intro query hkey id
    rw [hlooked.entities, hlooked.flushed]
    exact h.lookups hkey id
  · intro id p hobject
    rcases hlooked.policies hobject with hobject | hlookup
    · exact h.policies hobject
    · exact hrow hlookup
  · exact fun hobject => h.lists (hlooked.lists hobject)
  · intro a ha
    rcases hlooked.adapters a ha with hmem | hobject | hlookup
    · exact h.adapters a hmem
    · exact h.policies hobject
    · exact hrow hlookup
  · exact fun a ha hflag => h.flagged a (hlooked.flagged a ha hflag) hflag
  · exact hlooked.managed (fun _ _ => h.managed) _ _
  · exact fun hlookup => h.known (hlooked.entities ▸ hlookup)
  · exact h.committedKnown

theorem looked_manage {id : String} {p : PolicyEntity}
    (h : c.object id = some (.policy p) ∨ tx.entities.lookup id = some p) :
    Looked c tx c (tx.manage id p).2 where
  entities := rfl
  flushed := rfl
  invalidations := rfl
  policies := .inl
  lists := fun hobject => hobject
  adapters a ha := by
    rcases List.mem_append.mp ha with hmem | hnew
    · exact .inl hmem
    · rw [List.mem_singleton.mp hnew]
      exact .inr h
  flagged a ha hflag := by
    rcases List.mem_append.mp ha with hmem | hnew
    · exact hmem
    · rw [List.mem_singleton.mp hnew] at hflag
      simp at hflag
  managed hmanaged id' index hindex := by
    rcases eq_or_ne id' id with rfl | hne
    · simp only [Session.manage, Function.update_self, Option.some.injEq] at hindex
      subst hindex
      exact ⟨_, List.getElem?_concat_length, rfl⟩
    · simp only [Session.manage, Function.update_of_ne hne] at hindex
      obtain ⟨a, ha, hid⟩ := hmanaged id' index hindex
      exact ⟨a, List.getElem?_append_left (List.getElem?_eq_some_iff.mp ha).1 ▸ ha, hid⟩
  get := fun hget => hget

theorem looked_add {id : String} {p : PolicyEntity} (h : tx.entities.lookup id = some p) :
    Looked c tx (c.addRevisioned id ⟨c.getCurrentRevision id, .policy p⟩ tx.startupRevision)
      tx where
  entities := rfl
  flushed := rfl
  invalidations := rfl
  policies hobject := by
    rcases ObjectCache.object_addRevisioned hobject with hobject | ⟨rfl, heq⟩
    · exact .inl hobject
    · rw [Revisioned.policy.injEq] at heq
      exact .inr (heq ▸ h)
  lists hobject := by
    rcases ObjectCache.object_addRevisioned hobject with hobject | ⟨-, heq⟩
    · exact hobject
    · cases heq
  adapters _ := .inl
  flagged _ ha _ := ha
  managed hmanaged := hmanaged
  get := ObjectCache.get_addRevisioned_of_get

theorem object_of_getPolicy {id : String} {p : PolicyEntity} (h : getPolicy c id = some p) :
    c.object id = some (.policy p) := by
  unfold getPolicy at h
  split at h
  · rename_i hget
    rw [Option.some.injEq] at h
    exact h ▸ ObjectCache.object_of_get hget
  · cases h

theorem findById_looked (tx : Session) (c : StoreFactoryCacheManager) (id : String) :
    Looked c tx (tx.findById c id).2.1 (tx.findById c id).2.2 := by
  unfold Session.findById
  split
  · dsimp only
    split
    · exact .refl c tx
    · rename_i model hmodel
      split
      · exact .refl c tx
      · exact (looked_add hmodel).trans (looked_manage (.inr hmodel))
  · rename_i cached hcached
    split
    · exact .refl c tx
    · split
      · exact .refl c tx
      · exact looked_manage (.inl (object_of_getPolicy hcached))

theorem findAll_looked (tx : Session) (c : StoreFactoryCacheManager) (ids : List String) :
    Looked c tx (tx.findAll c ids).2.1 (tx.findAll c ids).2.2 := by
  induction ids generalizing tx c with
  | nil => exact .refl c tx
  | cons id ids ih => exact (findById_looked tx c id).trans (ih _ _)

end

/-! ## Lookups -/

/-- What a lookup of one list must not meet: its own invalidated key, for a consumer that
has something to receive, and the list of another lookup under its key. -/
def Session.CarefulQuery (tx : Session) (cat : Catalogue) (c : StoreFactoryCacheManager)
    (consumer : Bool) (query : Query) : Prop :=
  (query.cacheKey ∈ tx.invalidations → consumer = true →
    (getQuery c query).isSome ∨ tx.expected cat query.request = []) ∧
  (query.cacheKey ∉ tx.invalidations → ∀ cached policies,
    c.object query.cacheKey = some (.list cached policies) →
    cached.queryType = query.queryType → cached = query)

def Delivers (delivered : List (Option String)) (expected : List String) : Prop :=
  ∀ x, x ∈ delivered ↔ ∃ id ∈ expected, x = some id

section

variable {cat : Catalogue} {committed : Database} {c c' : StoreFactoryCacheManager}
  {tx tx' : Session}

theorem delivers_map_some (ids : List String) : Delivers (ids.map some) ids := by
  intro x
  rw [List.mem_map]
  exact exists_congr fun id => and_congr_right fun _ => eq_comm

theorem mem_expected {request : Request} {id : String} : id ∈ tx.expected cat request ↔
    (tx.flushed.lookup id).any (request.selects cat) = true ∧
      (tx.entities.lookup id).isSome := by
  rw [Session.expected, List.mem_filter, mem_getResultList]

/-- The delegate returns what it returns for the lists of the lookup. -/
theorem mem_expected_iff {request : Request} {id : String} : id ∈ tx.expected cat request ↔
    ∃ query ∈ request.queries, id ∈ tx.expected cat query.request := by
  simp only [mem_expected, Option.any_eq_true]
  constructor
  · rintro ⟨⟨p, hp, hselects⟩, hsome⟩
    obtain ⟨query, hquery, hselects⟩ := selects_iff.mp hselects
    exact ⟨query, hquery, ⟨p, hp, hselects⟩, hsome⟩
  · rintro ⟨query, hquery, ⟨p, hp, hselects⟩, hsome⟩
    exact ⟨⟨p, hp, selects_iff.mpr ⟨query, hquery, hselects⟩⟩, hsome⟩

theorem findById_isSome (h : SessionInv cat committed c tx tx.invalidations) (id : String) :
    (tx.findById c id).1.isSome = (tx.entities.lookup id).isSome := by
  unfold Session.findById
  split
  · dsimp only
    split
    · rename_i hmodel
      rw [hmodel]
      rfl
    · rename_i model hmodel
      rw [hmodel]
      split <;> rfl
  · rename_i cached hcached
    split
    · rw [Option.isSome_map]
    · rename_i hvalid
      have hcommitted := (h.policies (object_of_getPolicy hcached)).2 hvalid
      rw [(h.unchanged hvalid).1, hcommitted]
      split <;> rfl

theorem findAll_eq (h : SessionInv cat committed c tx tx.invalidations) (ids : List String) :
    (tx.findAll c ids).1 =
      ids.map fun id => if (tx.entities.lookup id).isSome then some id else none := by
  induction ids generalizing tx c with
  | nil => rfl
  | cons id ids ih =>
      have hlooked := findById_looked tx c id
      have hnext := h.looked hlooked
      rw [← hlooked.invalidations] at hnext
      have hrest := ih hnext
      rw [hlooked.entities] at hrest
      rw [Session.findAll, List.map_cons, ← findById_isSome h id, ← hrest]
      dsimp only
      congr 1
      cases (tx.findById c id).1 <;> rfl

theorem delegateFind_looked (tx : Session) (cat : Catalogue) (c : StoreFactoryCacheManager)
    (request : Request) :
    Looked c tx (tx.delegateFind cat c request).2.1 (tx.delegateFind cat c request).2.2 :=
  findAll_looked tx c _

theorem delegateFind_eq (h : SessionInv cat committed c tx tx.invalidations)
    (request : Request) : (tx.delegateFind cat c request).1 = tx.expected cat request := by
  rw [Session.delegateFind, Session.expected]
  dsimp only
  rw [findAll_eq h]
  induction tx.flushed.getResultList cat request with
  | nil => rfl
  | cons id ids ih =>
      rw [List.map_cons, List.filter_cons]
      split
      · rw [List.reduceOption_cons_of_some, ih]
      · rw [List.reduceOption_cons_of_none, ih]

theorem object_of_getQuery {query cached : Query} {policies : List String}
    (h : getQuery c query = some (cached, policies)) :
    c.object query.cacheKey = some (.list cached policies) ∧
      cached.queryType = query.queryType := by
  unfold getQuery at h
  split at h
  · rename_i hget
    split at h
    · rename_i htype
      cases h
      exact ⟨ObjectCache.object_of_get hget, htype⟩
    · cases h
  · cases h

structure Served (cat : Catalogue) (committed : Database) (c : StoreFactoryCacheManager)
    (tx : Session) (queries : List Query) (c' : StoreFactoryCacheManager) (tx' : Session) :
    Prop where
  inv : SessionInv cat committed c' tx' tx'.invalidations
  entities : tx'.entities = tx.entities
  flushed : tx'.flushed = tx.flushed
  invalidations : tx'.invalidations = tx.invalidations
  lists : ∀ {key cached policies}, c'.object key = some (.list cached policies) →
    c.object key = some (.list cached policies) ∨ cached ∈ queries ∧ cached.cacheKey = key
  get : ∀ {key o}, key ∈ tx.invalidations → c.get key = some o → c'.get key = some o

theorem Served.of_looked (h : SessionInv cat committed c tx tx.invalidations)
    (hlooked : Looked c tx c' tx') (queries : List Query) :
    Served cat committed c tx queries c' tx' where
  inv := by
    rw [hlooked.invalidations]
    exact h.looked hlooked
  entities := hlooked.entities
  flushed := hlooked.flushed
  invalidations := hlooked.invalidations
  lists hobject := .inl (hlooked.lists hobject)
  get _ hget := hlooked.get hget

theorem served_add {query : Query} (loaded : Nat)
    (h : SessionInv cat committed c tx tx.invalidations)
    (hvalid : query.cacheKey ∉ tx.invalidations) :
    Served cat committed c tx [query] (c.addRevisioned query.cacheKey
      ⟨loaded, .list query (tx.expected cat query.request)⟩ tx.startupRevision) tx where
  inv := by
    refine ⟨h.unchanged, h.lookups, ?_, ?_, h.adapters, h.flagged, h.managed, h.known,
      h.committedKnown⟩
    · intro id p hobject
      rcases ObjectCache.object_addRevisioned hobject with hobject | ⟨-, heq⟩
      · exact h.policies hobject
      · cases heq
    · intro key cached policies hobject
      rcases ObjectCache.object_addRevisioned hobject with hobject | ⟨rfl, heq⟩
      · exact h.lists hobject
      · cases heq
        refine ⟨rfl, fun _ id => ?_⟩
        obtain ⟨hentities, hflushed⟩ := h.lookups hvalid id
        rw [mem_expected]
        change tx.flushed.selected cat query id = true ∧ _ ↔ _
        rw [hflushed]
        refine and_iff_left_of_imp fun hselected => ?_
        rw [← hentities, Database.selected, Option.any_eq_true] at hselected
        obtain ⟨p, hp, -⟩ := hselected
        rw [hp]
        rfl
  entities := rfl
  flushed := rfl
  invalidations := rfl
  lists hobject := by
    rcases ObjectCache.object_addRevisioned hobject with hobject | ⟨rfl, heq⟩
    · exact .inl hobject
    · cases heq
      exact .inr ⟨List.mem_singleton_self query, rfl⟩
  get hmem hget := by
    have hne : _ ≠ query.cacheKey := fun heq => hvalid (heq ▸ hmem)
    rwa [ObjectCache.get_addRevisioned_of_ne hne]

theorem Served.trans {queries queries' : List Query} {c'' : StoreFactoryCacheManager}
    {tx'' : Session} (h : Served cat committed c tx queries c' tx')
    (h' : Served cat committed c' tx' queries' c'' tx'') :
    Served cat committed c tx (queries ++ queries') c'' tx'' where
  inv := h'.inv
  entities := h'.entities.trans h.entities
  flushed := h'.flushed.trans h.flushed
  invalidations := h'.invalidations.trans h.invalidations
  lists hobject := by
    rcases h'.lists hobject with hobject | ⟨hmem, hkey⟩
    · rcases h.lists hobject with hobject | ⟨hmem, hkey⟩
      · exact .inl hobject
      · exact .inr ⟨List.mem_append_left _ hmem, hkey⟩
    · exact .inr ⟨List.mem_append_right _ hmem, hkey⟩
  get hmem hget := h'.get (h.invalidations ▸ hmem) (h.get hmem hget)

theorem expected_congr (hentities : tx'.entities = tx.entities)
    (hflushed : tx'.flushed = tx.flushed) (request : Request) :
    tx'.expected cat request = tx.expected cat request := by
  rw [Session.expected, Session.expected, hentities, hflushed]

theorem cacheQuery_spec (h : SessionInv cat committed c tx tx.invalidations) {query : Query}
    {consumer : Bool} (hcareful : tx.CarefulQuery cat c consumer query) :
    Delivers (tx.cacheQuery cat c query consumer).1 (tx.expected cat query.request) ∧
      Served cat committed c tx [query] (tx.cacheQuery cat c query consumer).2.1
        (tx.cacheQuery cat c query consumer).2.2 := by
  have hlooked := delegateFind_looked tx cat c query.request
  have hmodel := delegateFind_eq h query.request
  unfold Session.cacheQuery
  split
  · rename_i hmiss
    dsimp only
    rw [hmodel, hlooked.invalidations]
    split
    · rename_i hinvalid
      refine ⟨?_, .of_looked h hlooked _⟩
      dsimp only
      split
      · rename_i hconsumer
        rcases hcareful.1 hinvalid hconsumer with hsome | hempty
        · rw [hmiss] at hsome
          cases hsome
        · rw [hempty]
          exact delivers_map_some []
      · exact delivers_map_some _
    · rename_i hvalid
      refine ⟨delivers_map_some _, ?_⟩
      have hserved := Served.of_looked h hlooked []
      have hadd := hserved.trans (served_add (c.getCurrentRevision query.cacheKey) hserved.inv
        (hlooked.invalidations ▸ hvalid))
      rw [expected_congr hlooked.entities hlooked.flushed] at hadd
      exact hadd
  · rename_i cached policies hhit
    obtain ⟨hobject, htype⟩ := object_of_getQuery hhit
    obtain ⟨hkey, hlist⟩ := h.lists hobject
    split
    · exact ⟨hmodel ▸ delivers_map_some _, .of_looked h hlooked _⟩
    · rename_i hnotInvalid
      have hvalid : query.cacheKey ∉ tx.invalidations := by
        rw [Session.isInvalid, hkey] at hnotInvalid
        simp only [Bool.or_eq_true, List.contains_eq_mem, decide_eq_true_eq, not_or]
          at hnotInvalid
        exact hnotInvalid.1.1
      refine ⟨?_, .of_looked h (findAll_looked tx c policies) _⟩
      obtain rfl := hcareful.2 hvalid cached policies hobject htype
      have hmem : ∀ id, id ∈ policies ↔ tx.entities.selected cat cached id = true := fun id =>
        (hlist hvalid id).trans (by rw [(h.lookups hvalid id).1])
      have hfound : ∀ id ∈ policies, (tx.entities.lookup id).isSome := by
        intro id hid
        obtain ⟨p, hp, -⟩ := (Option.any_eq_true _ _).mp ((hmem id).mp hid)
        rw [hp]
        rfl
      have hall : (tx.findAll c policies).1 = policies.map some := by
        rw [findAll_eq h]
        exact List.map_congr_left fun id hid => if_pos (hfound id hid)
      rw [hall]
      intro x
      rw [delivers_map_some policies x]
      refine exists_congr fun id => and_congr_left fun _ => ?_
      rw [mem_expected]
      change _ ↔ tx.flushed.selected cat cached id = true ∧ _
      rw [(h.lookups hvalid id).2, hlist hvalid id]
      refine (and_iff_left_of_imp fun hselected => ?_).symm
      exact hfound id ((hlist hvalid id).mpr hselected)

theorem toList_cacheKey (scope : String) (resource : Option String) (server : String) :
    (Query.byResourceScope scope resource server).cacheKey.toList =
      "policy.resource. ".toList ++ (resource.getD "null").toList ++ ".scope.".toList ++
        scope.toList ++ (".".toList ++ server.toList) := by
  unfold Query.cacheKey getPolicyByResourceScope
  rw [String.toList_append, String.toList_append, String.toList_append, String.toList_append,
    String.toList_append, List.append_assoc (_ ++ _)]

theorem eq_of_cacheKey_eq {request : Request} {query query' : Query}
    (hmem : query ∈ request.queries) (hmem' : query' ∈ request.queries)
    (hkey : query.cacheKey = query'.cacheKey) : query = query' := by
  cases request with
  | findByResource resource server =>
      rw [Request.queries, List.mem_singleton] at hmem hmem'
      exact hmem.trans hmem'.symm
  | findByResourceType type server =>
      rw [Request.queries, List.mem_singleton] at hmem hmem'
      exact hmem.trans hmem'.symm
  | findByScopeIds scopes resource server =>
      rw [Request.queries, List.mem_map] at hmem hmem'
      obtain ⟨scope, -, rfl⟩ := hmem
      obtain ⟨scope', -, rfl⟩ := hmem'
      have htext := congrArg String.toList hkey
      rw [toList_cacheKey, toList_cacheKey] at htext
      rw [String.toList_inj.mp (List.append_cancel_left (List.append_cancel_right htext))]

theorem getQuery_isSome_of_served {queries : List Query} {query : Query}
    (hserved : Served cat committed c tx queries c' tx')
    (hmem : query.cacheKey ∈ tx.invalidations) (h : (getQuery c query).isSome) :
    (getQuery c' query).isSome := by
  unfold getQuery at h
  split at h
  · rename_i cached policies hget
    unfold getQuery
    rw [hserved.get hmem hget]
    exact h
  · cases h

theorem CarefulQuery.served {query query' : Query} {consumer : Bool}
    (h : tx.CarefulQuery cat c consumer query)
    (hserved : Served cat committed c tx [query'] c' tx')
    (hkey : query'.cacheKey = query.cacheKey → query' = query) :
    tx'.CarefulQuery cat c' consumer query := by
  constructor
  · intro hmem hconsumer
    rw [hserved.invalidations] at hmem
    rw [expected_congr hserved.entities hserved.flushed]
    exact (h.1 hmem hconsumer).imp_left (getQuery_isSome_of_served hserved hmem)
  · intro hvalid cached policies hobject htype
    rw [hserved.invalidations] at hvalid
    rcases hserved.lists hobject with hobject | ⟨hmem, hcached⟩
    · exact h.2 hvalid cached policies hobject htype
    · obtain rfl := List.mem_singleton.mp hmem
      exact hkey hcached

theorem cacheQueries_spec {queries : List Query} {consumer : Bool}
    (h : SessionInv cat committed c tx tx.invalidations)
    (hkeys : ∀ query ∈ queries, ∀ query' ∈ queries,
      query.cacheKey = query'.cacheKey → query = query')
    (hcareful : ∀ query ∈ queries, tx.CarefulQuery cat c consumer query) :
    (∀ x, x ∈ (tx.cacheQueries cat c consumer queries).1 ↔
      ∃ query ∈ queries, ∃ id ∈ tx.expected cat query.request, x = some id) ∧
    Served cat committed c tx queries (tx.cacheQueries cat c consumer queries).2.1
      (tx.cacheQueries cat c consumer queries).2.2 := by
  induction queries generalizing tx c with
  | nil =>
      refine ⟨fun x => ?_, .of_looked h (.refl c tx) []⟩
      simp [Session.cacheQueries]
  | cons query queries ih =>
      obtain ⟨hdelivers, hserved⟩ := cacheQuery_spec h (hcareful query (.head _))
      obtain ⟨hrest, hserved'⟩ := ih hserved.inv
        (fun q hq q' hq' => hkeys q (.tail _ hq) q' (.tail _ hq'))
        (fun q hq => CarefulQuery.served (hcareful q (.tail _ hq)) hserved
          (hkeys query (.head _) q (.tail _ hq)))
      rw [Session.cacheQueries]
      refine ⟨fun x => ?_, hserved.trans hserved'⟩
      dsimp only
      rw [List.mem_append, hdelivers x, hrest x, List.exists_mem_cons_iff]
      simp only [expected_congr hserved.entities hserved.flushed]

/-- A careful lookup delivers what the delegate returns. -/
theorem find_spec {request : Request} {consumer : Bool}
    (h : SessionInv cat committed c tx tx.invalidations)
    (hcareful : ∀ query ∈ request.queries, tx.CarefulQuery cat c consumer query) :
    Delivers (tx.find cat c request consumer).1 (tx.expected cat request) ∧
      Served cat committed c tx request.queries (tx.find cat c request consumer).2.1
        (tx.find cat c request consumer).2.2 := by
  obtain ⟨hdelivers, hserved⟩ := cacheQueries_spec h
    (fun _ hmem _ hmem' => eq_of_cacheKey_eq hmem hmem') hcareful
  refine ⟨fun x => ?_, hserved⟩
  rw [Session.find, hdelivers x]
  constructor
  · rintro ⟨query, hquery, id, hid, rfl⟩
    exact ⟨id, mem_expected_iff.mpr ⟨query, hquery, hid⟩, rfl⟩
  · rintro ⟨id, hid, rfl⟩
    obtain ⟨query, hquery, hid⟩ := mem_expected_iff.mp hid
    exact ⟨query, hquery, id, hid, rfl⟩

end

end Keycloak.Cache.PolicyQueries
