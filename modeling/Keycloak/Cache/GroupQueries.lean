import Keycloak.Groups.Hierarchy
import Keycloak.Lib.Machine
import Mathlib.Data.List.AList

/-!
# Cached pages of top-level groups

`RealmCacheSession` in front of `JpaRealmProvider`, for the requests that create, move
and remove groups and for the paged query `getTopLevelGroups`.  Transactions run one
after the other on one node; entries of the caches may be evicted at any time.

The tables of the realms are those of the group hierarchy.  Ids are unique across
realms, so an id is the realm with the number of the row.  Both sides end with a sort
by name, which is left out: the results are compared as sets.
-/

namespace Keycloak.Cache.GroupQueries

abbrev RealmId := String

structure GroupId where
  realm : RealmId
  number : Nat
  deriving DecidableEq, Repr

/-! ## `JpaRealmProvider` -/

/-- The groups of every realm, as one transaction sees them. -/
abbrev Database := RealmId → Groups.Table

def Database.getGroupById (db : Database) (id : GroupId) (realm : RealmId) : Option GroupId :=
  if id.realm = realm then ((db realm).getGroupById id.number).map fun _ => id else none

def Database.getTopLevelGroups (db : Database) (realm : RealmId) : List GroupId :=
  ((List.range (db realm).nextId).filter fun number =>
    ((db realm).rows number).isSome && (db realm).getParentId number = none).map
    fun number => ⟨realm, number⟩

/-- What the database makes of `setFirstResult` and `setMaxResults`: some of the rows. -/
structure PageQuery where
  limit : List GroupId → Nat → Nat → List GroupId
  subset : ∀ ids first max, limit ids first max ⊆ ids

@[ext]
structure Page where
  realm : RealmId
  first : Nat
  max : Nat
  deriving DecidableEq, Repr

def Database.getPage (db : Database) (query : PageQuery) (page : Page) : List GroupId :=
  query.limit (db.getTopLevelGroups page.realm) page.first page.max

/-! ## `CacheManager` -/

inductive CacheKey where
  | group (id : GroupId)
  | query (key : String)
  deriving DecidableEq, Repr

structure CachedGroup where
  revision : Nat
  realm : RealmId
  deriving DecidableEq, Repr

structure GroupListQuery where
  revision : Nat
  realm : RealmId
  groups : List GroupId
  deriving DecidableEq, Repr

structure CacheManager where
  counter : Nat
  revisions : CacheKey → Option Nat
  groups : GroupId → Option CachedGroup
  queries : AList fun _ : String => GroupListQuery

namespace CacheManager

def isCurrent (c : CacheManager) (key : CacheKey) (revision : Nat) : Bool :=
  match c.revisions key with
  | none => false
  | some rev => !(rev > revision)

def getGroup (c : CacheManager) (id : GroupId) : Option CachedGroup :=
  (c.groups id).filter fun o => c.isCurrent (.group id) o.revision

def getQuery (c : CacheManager) (key : String) : Option GroupListQuery :=
  (c.queries.lookup key).filter fun o => c.isCurrent (.query key) o.revision

def getCurrentRevision (c : CacheManager) (key : CacheKey) : Nat :=
  (c.revisions key).getD c.counter

/-- The part of `addRevisioned` that concerns the revisions: whether the object is put
into the cache, and the revisions after it. -/
def addRevisioned (c : CacheManager) (key : CacheKey) (revision startupRevision : Nat) :
    Bool × CacheManager :=
  let rev := c.getCurrentRevision key
  let c := { c with revisions := Function.update c.revisions key (some rev) }
  if rev > startupRevision then (false, c)
  else if rev = revision then (true, c)
  else if rev > revision then (false, c)
  else (true, { c with revisions := Function.update c.revisions key (some revision) })

/-- `addRevisioned` of a group; `putForExternalRead` keeps an entry that is there. -/
def addGroup (c : CacheManager) (id : GroupId) (o : CachedGroup) (startupRevision : Nat) :
    CacheManager :=
  match c.addRevisioned (.group id) o.revision startupRevision with
  | (true, c) => { c with groups := Function.update c.groups id (some ((c.groups id).getD o)) }
  | (false, c) => c

def addQuery (c : CacheManager) (key : String) (o : GroupListQuery) (startupRevision : Nat) :
    CacheManager :=
  match c.addRevisioned (.query key) o.revision startupRevision with
  | (true, c) =>
      match c.queries.lookup key with
      | some _ => c
      | none => { c with queries := c.queries.insert key o }
  | (false, c) => c

def invalidateObject (c : CacheManager) (key : CacheKey) : CacheManager :=
  let next := c.counter + 1
  let c := { c with counter := next, revisions := Function.update c.revisions key (some next) }
  match key with
  | .group id => { c with groups := Function.update c.groups id none }
  | .query key => { c with queries := c.queries.erase key }

end CacheManager

/-! ## `RealmCacheSession` -/

def getGroupsQueryCacheKey (realm : String) : String :=
  realm ++ ".groups"

def getTopGroupsQueryCacheKey (realm : String) : String :=
  realm ++ ".top.groups"

def Page.text (page : Page) : String :=
  page.realm ++ toString page.first ++ toString page.max

def Page.cacheKey (page : Page) : String :=
  getTopGroupsQueryCacheKey page.text

def groupQueriesInvalidations (c : CacheManager) (realm : RealmId) : List CacheKey :=
  [.query (getGroupsQueryCacheKey realm), .query (getTopGroupsQueryCacheKey realm)] ++
    (c.queries.entries.filter fun entry => entry.2.realm = realm).map fun entry =>
      .query entry.1

/-- A transaction: the database as it sees it, and the fields of its session. -/
structure Session where
  db : Database
  startupRevision : Nat
  invalidations : List CacheKey
  listInvalidations : List String

namespace Session

def getGroupById (tx : Session) (c : CacheManager) (id : GroupId) (realm : RealmId) :
    Option GroupId × CacheManager :=
  match (c.getGroup id).filter fun cached => cached.realm = realm with
  | none =>
      let loaded := c.getCurrentRevision (.group id)
      match tx.db.getGroupById id realm with
      | none => (none, c)
      | some model =>
          if .group id ∈ tx.invalidations then (some model, c)
          else (some model, c.addGroup id ⟨loaded, realm⟩ tx.startupRevision)
  | some _ =>
      if .group id ∈ tx.invalidations then (tx.db.getGroupById id realm, c)
      else (some id, c)

/-- The loop over the ids of a cached query; it stops at a group that is not found. -/
def collectGroups (tx : Session) (realm : RealmId) :
    List GroupId → CacheManager → Option (List GroupId) × CacheManager
  | [], c => (some [], c)
  | id :: ids, c =>
      match tx.getGroupById c id realm with
      | (none, c) => (none, c)
      | (some group, c) =>
          match tx.collectGroups realm ids c with
          | (none, c) => (none, c)
          | (some list, c) => (some (group :: list), c)

def getTopLevelGroups (tx : Session) (query : PageQuery) (c : CacheManager) (page : Page) :
    List GroupId × CacheManager × Session :=
  let cacheKey := page.cacheKey
  let queryDB := .query cacheKey ∈ tx.invalidations ∨ page.text ∈ tx.listInvalidations
  if queryDB then (tx.db.getPage query page, c, tx)
  else
    match c.getQuery cacheKey with
    | none =>
        let loaded := c.getCurrentRevision (.query cacheKey)
        let model := tx.db.getPage query page
        (model, c.addQuery cacheKey ⟨loaded, page.realm, model⟩ tx.startupRevision, tx)
    | some cached =>
        match tx.collectGroups page.realm cached.groups c with
        | (some list, c) => (list, c, tx)
        | (none, c) =>
            (tx.db.getTopLevelGroups page.realm, c,
              { tx with invalidations := .query cacheKey :: tx.invalidations })

/-- The rows of the realm become `table`, and the session registers the invalidations of
the given groups, of the cached queries and of the lists of the realm. -/
def write (tx : Session) (c : CacheManager) (realm : RealmId) (table : Groups.Table)
    (groups : List Nat) : Session :=
  { tx with
    db := Function.update tx.db realm table
    invalidations := groups.map (fun number => .group ⟨realm, number⟩) ++
      groupQueriesInvalidations c realm ++ tx.invalidations
    listInvalidations := realm :: tx.listInvalidations }

def createGroup (tx : Session) (c : CacheManager) (realm : RealmId) (name : Option String) :
    Session :=
  tx.write c realm ((tx.db realm).createGroup name) [(tx.db realm).nextId]

/-- `moveGroup`.  The invalidations of parents, which the group adapters register, have no
part in the query and are left out. -/
def moveGroup (tx : Session) (c : CacheManager) (realm : RealmId) (group : Nat)
    (toParent : Option Nat) : Session :=
  tx.write c realm (((tx.db realm).moveGroup group toParent).getD (tx.db realm)) [group]

/-- `removeGroup`; the session is called again for every subgroup. -/
def removeGroup (tx : Session) (c : CacheManager) (realm : RealmId) (group : Nat) : Session :=
  let before := tx.db realm
  let after := (Groups.Table.removeGroup before.nextId before group).getD before
  let removed := (List.range before.nextId).filter fun number =>
    (before.rows number).isSome && (after.rows number).isNone
  tx.write c realm after (group :: removed ++ (before.getParentId group).toList)

end Session

def runInvalidations (c : CacheManager) (tx : Session) : CacheManager :=
  tx.invalidations.foldl CacheManager.invalidateObject c

/-! ## Transactions one after the other -/

/-- A read that was made: its page, what it returned, and what the database returns to
the same transaction. -/
structure Read where
  page : Page
  result : List GroupId
  expected : List GroupId
  deriving DecidableEq, Repr

structure State where
  committed : Database
  cache : CacheManager
  session : Option Session
  log : List Read

inductive Label where
  | begin
  | createGroup (realm : RealmId) (name : Option String)
  | moveGroup (realm : RealmId) (group : Nat) (toParent : Option Nat)
  | removeGroup (realm : RealmId) (group : Nat)
  | getTopLevelGroups (page : Page)
  | commit
  | rollback
  | evictRevision (key : CacheKey)
  | evictGroup (id : GroupId)
  | evictQuery (key : String)
  deriving DecidableEq, Repr

def step (query : PageQuery) (s : State) (label : Label) : Option State :=
  match s.session, label with
  | none, .begin =>
      some { s with session := some ⟨s.committed, s.cache.counter, [], []⟩ }
  | some tx, .createGroup realm name =>
      some { s with session := some (tx.createGroup s.cache realm name) }
  | some tx, .moveGroup realm group toParent =>
      if (tx.db realm).Exists group ∧ ∀ p ∈ toParent, (tx.db realm).Exists p then
        some { s with session := some (tx.moveGroup s.cache realm group toParent) }
      else none
  | some tx, .removeGroup realm group =>
      if (tx.db realm).Exists group then
        some { s with session := some (tx.removeGroup s.cache realm group) }
      else none
  | some tx, .getTopLevelGroups page =>
      let (result, cache, tx') := tx.getTopLevelGroups query s.cache page
      some { s with
        cache, session := some tx'
        log := ⟨page, result, tx.db.getPage query page⟩ :: s.log }
  | some tx, .commit =>
      some { s with committed := tx.db, cache := runInvalidations s.cache tx, session := none }
  | some tx, .rollback =>
      some { s with cache := runInvalidations s.cache tx, session := none }
  | _, .evictRevision key =>
      some { s with
        cache := { s.cache with revisions := Function.update s.cache.revisions key none } }
  | _, .evictGroup id =>
      some { s with cache := { s.cache with groups := Function.update s.cache.groups id none } }
  | _, .evictQuery key =>
      some { s with cache := { s.cache with queries := s.cache.queries.erase key } }
  | _, _ => none

def initial (committed : Database) : State where
  committed
  cache := ⟨0, fun _ => none, fun _ => none, ∅⟩
  session := none
  log := []

/-! ## The cached queries under the operations of the cache -/

section

variable {c : CacheManager} {key : CacheKey} {k : String} {q : GroupListQuery}

theorem addRevisioned_queries (c : CacheManager) (key : CacheKey) (revision startup : Nat) :
    (c.addRevisioned key revision startup).2.queries = c.queries := by
  unfold CacheManager.addRevisioned
  grind

theorem addGroup_queries (c : CacheManager) (id : GroupId) (o : CachedGroup) (startup : Nat) :
    (c.addGroup id o startup).queries = c.queries := by
  have hqueries := addRevisioned_queries c (.group id) o.revision startup
  unfold CacheManager.addGroup
  split
  · rename_i heq
    rw [heq] at hqueries
    exact hqueries
  · rename_i heq
    rw [heq] at hqueries
    exact hqueries

theorem lookup_addQuery {o : GroupListQuery} {startup : Nat} {k' : String}
    (h : (c.addQuery k o startup).queries.lookup k' = some q) :
    c.queries.lookup k' = some q ∨ k' = k ∧ q = o := by
  have hqueries := addRevisioned_queries c (.query k) o.revision startup
  unfold CacheManager.addQuery at h
  split at h
  · rename_i c' heq
    rw [heq] at hqueries
    change c'.queries = c.queries at hqueries
    split at h
    · rw [hqueries] at h
      exact .inl h
    · rcases eq_or_ne k' k with rfl | hne
      · rw [AList.lookup_insert, Option.some.injEq] at h
        exact .inr ⟨rfl, h.symm⟩
      · rw [AList.lookup_insert_ne hne, hqueries] at h
        exact .inl h
  · rename_i heq
    rw [heq] at hqueries
    rw [hqueries] at h
    exact .inl h

theorem getQuery_eq_some (h : c.getQuery k = some q) : c.queries.lookup k = some q := by
  rw [CacheManager.getQuery, Option.filter_eq_some_iff] at h
  exact h.1

theorem lookup_erase_some {k' : String} (h : (c.queries.erase k').lookup k = some q) :
    k ≠ k' ∧ c.queries.lookup k = some q := by
  rcases eq_or_ne k k' with rfl | hne
  · rw [AList.lookup_erase] at h
    cases h
  · rw [AList.lookup_erase_ne hne] at h
    exact ⟨hne, h⟩

theorem lookup_runInvalidations {invalidations : List CacheKey}
    (h : (invalidations.foldl CacheManager.invalidateObject c).queries.lookup k = some q) :
    CacheKey.query k ∉ invalidations ∧ c.queries.lookup k = some q := by
  induction invalidations generalizing c with
  | nil => exact ⟨List.not_mem_nil, h⟩
  | cons key rest ih =>
      obtain ⟨hnotMem, hlookup⟩ := ih h
      cases key with
      | group id => exact ⟨by simpa using hnotMem, hlookup⟩
      | query k' =>
          obtain ⟨hne, hlookup'⟩ := lookup_erase_some hlookup
          exact ⟨by simp [hne, hnotMem], hlookup'⟩

theorem mem_groupQueriesInvalidations {realm : RealmId} (h : c.queries.lookup k = some q)
    (hrealm : q.realm = realm) : CacheKey.query k ∈ groupQueriesInvalidations c realm := by
  refine List.mem_append_right _ (List.mem_map.mpr ⟨⟨k, q⟩, ?_, rfl⟩)
  refine List.mem_filter.mpr ⟨AList.mem_lookup_iff.mp h, ?_⟩
  exact decide_eq_true hrealm

end

/-! ## Reads -/

section

variable {tx : Session} {c : CacheManager}

theorem getGroupById_queries (tx : Session) (c : CacheManager) (id : GroupId) (realm : RealmId) :
    (tx.getGroupById c id realm).2.queries = c.queries := by
  unfold Session.getGroupById
  split
  · dsimp only
    split
    · rfl
    · split
      · rfl
      · exact addGroup_queries ..
  · split <;> rfl

theorem jpa_getGroupById {db : Database} {realm : RealmId} {id : GroupId}
    (h : id ∈ db.getTopLevelGroups realm) : db.getGroupById id realm = some id := by
  rw [Database.getTopLevelGroups, List.mem_map] at h
  obtain ⟨number, hmem, rfl⟩ := h
  obtain ⟨-, hrow⟩ := List.mem_filter.mp hmem
  rw [Bool.and_eq_true] at hrow
  obtain ⟨e, he⟩ := Option.isSome_iff_exists.mp hrow.1
  simp [Database.getGroupById, Groups.Table.getGroupById, he]

theorem getGroupById_of_mem {realm : RealmId} {id : GroupId}
    (h : id ∈ tx.db.getTopLevelGroups realm) (c : CacheManager) :
    (tx.getGroupById c id realm).1 = some id := by
  have hjpa := jpa_getGroupById h
  unfold Session.getGroupById
  split
  · rw [hjpa]
    dsimp only
    split <;> rfl
  · split
    · exact hjpa
    · rfl

theorem collectGroups_of_subset {realm : RealmId} {ids : List GroupId}
    (h : ∀ id ∈ ids, id ∈ tx.db.getTopLevelGroups realm) (c : CacheManager) :
    ∃ c', tx.collectGroups realm ids c = (some ids, c') ∧ c'.queries = c.queries := by
  induction ids generalizing c with
  | nil => exact ⟨c, rfl, rfl⟩
  | cons id ids ih =>
      have hfound := getGroupById_of_mem (h id List.mem_cons_self) c
      have hqueries := getGroupById_queries tx c id realm
      obtain ⟨c', hrest, hqueries'⟩ :=
        ih (fun id' hid' => h id' (List.mem_cons_of_mem id hid')) (tx.getGroupById c id realm).2
      refine ⟨c', ?_, hqueries'.trans hqueries⟩
      rw [Session.collectGroups]
      rw [← Prod.eta (tx.getGroupById c id realm), hfound]
      dsimp only
      rw [hrest]

def SameSet (ids ids' : List GroupId) : Prop :=
  ∀ id, id ∈ ids ↔ id ∈ ids'

/-- A read returns the page of the database, if the query cached under its key is either
that page or registered for invalidation.  It adds at most this page to the cache. -/
theorem getTopLevelGroups_spec {query : PageQuery} {page : Page}
    (hcached : ∀ q, c.queries.lookup page.cacheKey = some q →
      .query page.cacheKey ∉ tx.invalidations → SameSet q.groups (tx.db.getPage query page)) :
    ∃ result c', tx.getTopLevelGroups query c page = (result, c', tx) ∧
      SameSet result (tx.db.getPage query page) ∧
      ∀ k q, c'.queries.lookup k = some q → c.queries.lookup k = some q ∨
        k = page.cacheKey ∧ q.realm = page.realm ∧ q.groups = tx.db.getPage query page := by
  unfold Session.getTopLevelGroups
  dsimp only
  split
  · exact ⟨_, c, rfl, fun _ => Iff.rfl, fun k q h => .inl h⟩
  · rename_i hnotDB
    have hvalid : .query page.cacheKey ∉ tx.invalidations := fun h => hnotDB (.inl h)
    split
    · refine ⟨_, _, rfl, fun _ => Iff.rfl, fun k q h => ?_⟩
      rcases lookup_addQuery h with hold | ⟨rfl, rfl⟩
      · exact .inl hold
      · exact .inr ⟨rfl, rfl, rfl⟩
    · rename_i cached hget
      have hsame := hcached cached (getQuery_eq_some hget) hvalid
      have hsubset : ∀ id ∈ cached.groups, id ∈ tx.db.getTopLevelGroups page.realm :=
        fun id hid => query.subset _ _ _ ((hsame id).mp hid)
      obtain ⟨c', hcollect, hqueries⟩ := collectGroups_of_subset hsubset c
      rw [hcollect]
      exact ⟨_, c', rfl, hsame, fun k q h => .inl (hqueries ▸ h)⟩

end

/-! ## Keys -/

/-- Digits at the end of `first` of the one page stand at the front of `max` of the
other, and without them the two pages agree. -/
def DigitsShift (page page' : Page) : Prop :=
  ∃ shifted, shifted ≠ [] ∧
    Nat.toDigits 10 page.first = Nat.toDigits 10 page'.first ++ shifted ∧
    Nat.toDigits 10 page'.max = shifted ++ Nat.toDigits 10 page.max

def Apart (page page' : Page) : Prop :=
  if page.realm = page'.realm then ¬ DigitsShift page page' ∧ ¬ DigitsShift page' page
  else page.text ≠ page'.text

section

variable {page page' : Page}

theorem toDigits_inj {m n : Nat} : Nat.toDigits 10 m = Nat.toDigits 10 n ↔ m = n := by
  constructor
  · intro h
    have hvalue := congrArg (fun digits => Nat.ofDigitChars 10 digits 0) h
    simpa using hvalue
  · exact fun h => h ▸ rfl

theorem text_toList (page : Page) : page.text.toList =
    page.realm.toList ++ (Nat.toDigits 10 page.first ++ Nat.toDigits 10 page.max) := by
  simp [Page.text, String.toList_append, Nat.toList_repr]

theorem cacheKey_eq_iff_text : page.cacheKey = page'.cacheKey ↔ page.text = page'.text := by
  rw [Page.cacheKey, Page.cacheKey, getTopGroupsQueryCacheKey, getTopGroupsQueryCacheKey,
    ← String.toList_inj, String.toList_append, String.toList_append, List.append_left_inj,
    String.toList_inj]

/-- The keys of two pages of one realm are the same only for one page, or when digits
shift from `first` to `max`. -/
theorem cacheKey_eq_iff (hrealm : page.realm = page'.realm) :
    page.cacheKey = page'.cacheKey ↔
      page = page' ∨ DigitsShift page page' ∨ DigitsShift page' page := by
  rw [cacheKey_eq_iff_text, ← String.toList_inj, text_toList, text_toList, hrealm,
    List.append_right_inj]
  constructor
  · intro h
    by_cases hsame : page.first = page'.first
    · rw [hsame, List.append_right_inj, toDigits_inj] at h
      exact .inl (Page.ext hrealm hsame h)
    · have hshifted : ∀ shifted : List Char, Nat.toDigits 10 page.first =
          Nat.toDigits 10 page'.first ++ shifted ∨
          Nat.toDigits 10 page'.first = Nat.toDigits 10 page.first ++ shifted →
          shifted ≠ [] := by
        rintro _ (hfirst | hfirst) rfl
        · exact hsame (toDigits_inj.mp (hfirst.trans (List.append_nil _)))
        · exact hsame (toDigits_inj.mp (hfirst.trans (List.append_nil _)).symm)
      rcases List.append_eq_append_iff.mp h with
        ⟨shifted, hfirst, hmax⟩ | ⟨shifted, hfirst, hmax⟩
      · exact .inr (.inr ⟨shifted, hshifted shifted (.inr hfirst), hfirst, hmax⟩)
      · exact .inr (.inl ⟨shifted, hshifted shifted (.inl hfirst), hfirst, hmax⟩)
  · rintro (rfl | ⟨shifted, -, hfirst, hmax⟩ | ⟨shifted, -, hfirst, hmax⟩)
    · rfl
    · rw [hfirst, hmax, List.append_assoc]
    · rw [hfirst, hmax, List.append_assoc]

theorem not_digitsShift_self : ¬ DigitsShift page page := by
  rintro ⟨shifted, hne, hfirst, -⟩
  exact hne (List.self_eq_append_right.mp hfirst)

theorem apart_iff : Apart page page' ↔ (page.cacheKey = page'.cacheKey → page = page') := by
  unfold Apart
  split
  · rename_i hrealm
    rw [cacheKey_eq_iff hrealm]
    constructor
    · rintro ⟨hnot, hnot'⟩ (heq | hshift | hshift)
      · exact heq
      · exact absurd hshift hnot
      · exact absurd hshift hnot'
    · intro h
      refine ⟨fun hshift => ?_, fun hshift => ?_⟩
      · obtain rfl := h (.inr (.inl hshift))
        exact not_digitsShift_self hshift
      · obtain rfl := h (.inr (.inr hshift))
        exact not_digitsShift_self hshift
  · rename_i hrealm
    rw [cacheKey_eq_iff_text]
    constructor
    · exact fun hne heq => absurd heq hne
    · exact fun h heq => hrealm (h heq ▸ rfl)

end

/-! ## Runs -/

/-- A page that is read has a key apart from the keys of the pages read before.  A
transaction is not rolled back while the cache holds a page of a realm to which it has
written that its invalidations do not name. -/
def Careful (s : State) : Label → Prop
  | .getTopLevelGroups page => ∀ read ∈ s.log, Apart read.page page
  | .rollback => ∀ tx, s.session = some tx → ∀ key q, s.cache.queries.lookup key = some q →
      q.realm ∈ tx.listInvalidations → .query key ∈ tx.invalidations
  | _ => True

def State.visible (s : State) : Database :=
  match s.session with
  | some tx => tx.db
  | none => s.committed

def State.invalidations (s : State) : List CacheKey :=
  match s.session with
  | some tx => tx.invalidations
  | none => []

structure Inv (query : PageQuery) (s : State) : Prop where
  cached : ∀ {key q}, s.cache.queries.lookup key = some q →
    ∃ read ∈ s.log, read.page.cacheKey = key ∧ q.realm = read.page.realm ∧
      (.query key ∉ s.invalidations → SameSet q.groups (s.visible.getPage query read.page))
  transparent : ∀ read ∈ s.log, SameSet read.result read.expected
  apart : ∀ read ∈ s.log, ∀ read' ∈ s.log,
    read.page.cacheKey = read'.page.cacheKey → read.page = read'.page
  /-- The realms that the transaction has not written to are as committed. -/
  unwritten : ∀ {tx realm}, s.session = some tx → realm ∉ tx.listInvalidations →
    tx.db realm = s.committed realm

section

variable {query : PageQuery} {s s' : State} {tx : Session}

theorem getPage_congr {db db' : Database} {page : Page} (h : db page.realm = db' page.realm) :
    db.getPage query page = db'.getPage query page := by
  rw [Database.getPage, Database.getPage, Database.getTopLevelGroups,
    Database.getTopLevelGroups, h]

theorem initial_inv (db : Database) : Inv query (initial db) where
  cached h := by cases h
  transparent _ h := by cases h
  apart _ h := by cases h
  unwritten h := by cases h

theorem Inv.of_cache (h : Inv query s) {c : CacheManager}
    (hcache : ∀ {key q}, c.queries.lookup key = some q → s.cache.queries.lookup key = some q) :
    Inv query { s with cache := c } where
  cached hlookup := h.cached (hcache hlookup)
  transparent := h.transparent
  apart := h.apart
  unwritten := h.unwritten

theorem begin_inv (h : Inv query s) (hsession : s.session = none) :
    Inv query { s with session := some ⟨s.committed, s.cache.counter, [], []⟩ } where
  cached hlookup := by
    obtain ⟨read, hmem, hkey, hrealm, hsame⟩ := h.cached hlookup
    refine ⟨read, hmem, hkey, hrealm, fun _ => ?_⟩
    rw [State.visible, State.invalidations, hsession] at hsame
    exact hsame List.not_mem_nil
  transparent := h.transparent
  apart := h.apart
  unwritten hopen _ := by
    cases hopen
    rfl

theorem write_inv (h : Inv query s) (hsession : s.session = some tx) (realm : RealmId)
    (table : Groups.Table) (groups : List Nat) :
    Inv query { s with session := some (tx.write s.cache realm table groups) } where
  cached hlookup := by
    obtain ⟨read, hmem, hkey, hrealm, hsame⟩ := h.cached hlookup
    refine ⟨read, hmem, hkey, hrealm, fun hvalid => ?_⟩
    rw [State.visible, State.invalidations, hsession] at hsame
    simp only [State.invalidations, Session.write, List.mem_append, not_or] at hvalid
    have hother : read.page.realm ≠ realm := fun heq =>
      hvalid.1.2 (mem_groupQueriesInvalidations hlookup (hrealm.trans heq))
    have hdb : Database.getPage (Function.update tx.db realm table) query read.page =
        tx.db.getPage query read.page := getPage_congr (Function.update_of_ne hother ..)
    exact hdb ▸ hsame hvalid.2
  transparent := h.transparent
  apart := h.apart
  unwritten hopen hrealm := by
    cases hopen
    rw [Session.write, List.mem_cons, not_or] at hrealm
    exact (Function.update_of_ne hrealm.1 ..).trans (h.unwritten hsession hrealm.2)

theorem read_inv (h : Inv query s) (hsession : s.session = some tx) {page : Page}
    (hapart : ∀ read ∈ s.log, Apart read.page page) :
    ∃ result c, tx.getTopLevelGroups query s.cache page = (result, c, tx) ∧
      Inv query { s with
        cache := c, log := ⟨page, result, tx.db.getPage query page⟩ :: s.log } := by
  have hvisible : s.visible = tx.db := by rw [State.visible, hsession]
  have hkeys : ∀ read ∈ s.log, read.page.cacheKey = page.cacheKey → read.page = page :=
    fun read hmem => apart_iff.mp (hapart read hmem)
  obtain ⟨result, c, hread, hsame, hqueries⟩ :
      ∃ result c, tx.getTopLevelGroups query s.cache page = (result, c, tx) ∧ _ ∧ _ :=
    getTopLevelGroups_spec fun q hlookup hvalid => by
      obtain ⟨read, hmem, hkey, -, hsame⟩ := h.cached hlookup
      rw [State.invalidations, hsession, hvisible, hkeys read hmem hkey] at hsame
      exact hsame hvalid
  refine ⟨result, c, hread, ?_, ?_, ?_, h.unwritten⟩
  · intro key q hlookup
    rcases hqueries key q hlookup with hold | ⟨rfl, hrealm, hgroups⟩
    · obtain ⟨read, hmem, hrest⟩ := h.cached hold
      exact ⟨read, List.mem_cons_of_mem _ hmem, hrest⟩
    · refine ⟨_, List.mem_cons_self, rfl, hrealm, fun _ => ?_⟩
      change SameSet q.groups (s.visible.getPage query page)
      rw [hgroups, hvisible]
      exact fun _ => Iff.rfl
  · intro read hmem
    rcases List.mem_cons.mp hmem with rfl | hold
    · exact hsame
    · exact h.transparent read hold
  · intro read hmem read' hmem' hkey
    rcases List.mem_cons.mp hmem with rfl | hold
    · rcases List.mem_cons.mp hmem' with rfl | hold'
      · rfl
      · exact (hkeys read' hold' hkey.symm).symm
    · rcases List.mem_cons.mp hmem' with rfl | hold'
      · exact hkeys read hold hkey
      · exact h.apart read hold read' hold' hkey

theorem commit_inv (h : Inv query s) (hsession : s.session = some tx) :
    Inv query { s with
      committed := tx.db, cache := runInvalidations s.cache tx, session := none } where
  cached hlookup := by
    obtain ⟨hvalid, hold⟩ := lookup_runInvalidations hlookup
    obtain ⟨read, hmem, hkey, hrealm, hsame⟩ := h.cached hold
    rw [State.visible, State.invalidations, hsession] at hsame
    exact ⟨read, hmem, hkey, hrealm, fun _ => hsame hvalid⟩
  transparent := h.transparent
  apart := h.apart
  unwritten hopen := by cases hopen

theorem rollback_inv (h : Inv query s) (hsession : s.session = some tx)
    (hok : Careful s .rollback) :
    Inv query { s with cache := runInvalidations s.cache tx, session := none } where
  cached hlookup := by
    obtain ⟨hvalid, hold⟩ := lookup_runInvalidations hlookup
    obtain ⟨read, hmem, hkey, hrealm, hsame⟩ := h.cached hold
    refine ⟨read, hmem, hkey, hrealm, fun _ => ?_⟩
    rw [State.visible, State.invalidations, hsession] at hsame
    have hunwritten : read.page.realm ∉ tx.listInvalidations := fun hwritten =>
      hvalid (hok tx hsession _ _ hold (hrealm ▸ hwritten))
    have hdb : tx.db.getPage query read.page = s.committed.getPage query read.page :=
      getPage_congr (h.unwritten hsession hunwritten)
    exact hdb ▸ hsame hvalid
  transparent := h.transparent
  apart := h.apart
  unwritten hopen := by cases hopen

theorem step_evictRevision (key : CacheKey) : step query s (.evictRevision key) = some { s with
    cache := { s.cache with revisions := Function.update s.cache.revisions key none } } := by
  obtain ⟨committed, cache, _ | tx, log⟩ := s <;> rfl

theorem step_evictGroup (id : GroupId) : step query s (.evictGroup id) = some { s with
    cache := { s.cache with groups := Function.update s.cache.groups id none } } := by
  obtain ⟨committed, cache, _ | tx, log⟩ := s <;> rfl

theorem step_evictQuery (key : String) : step query s (.evictQuery key) = some { s with
    cache := { s.cache with queries := s.cache.queries.erase key } } := by
  obtain ⟨committed, cache, _ | tx, log⟩ := s <;> rfl

theorem step_inv (h : Inv query s) {label : Label} (hok : Careful s label)
    (hstep : step query s label = some s') : Inv query s' := by
  cases label with
  | begin =>
      cases hsession : s.session with
      | some tx => simp [step, hsession] at hstep
      | none =>
          simp only [step, hsession, Option.some.injEq] at hstep
          exact hstep ▸ begin_inv h hsession
  | createGroup realm name =>
      cases hsession : s.session with
      | none => simp [step, hsession] at hstep
      | some tx =>
          simp only [step, hsession, Option.some.injEq] at hstep
          exact hstep ▸ write_inv h hsession ..
  | moveGroup realm group toParent =>
      cases hsession : s.session with
      | none => simp [step, hsession] at hstep
      | some tx =>
          simp only [step, hsession, Option.ite_none_right_eq_some, Option.some.injEq] at hstep
          exact hstep.2 ▸ write_inv h hsession ..
  | removeGroup realm group =>
      cases hsession : s.session with
      | none => simp [step, hsession] at hstep
      | some tx =>
          simp only [step, hsession, Option.ite_none_right_eq_some, Option.some.injEq] at hstep
          exact hstep.2 ▸ write_inv h hsession ..
  | getTopLevelGroups page =>
      cases hsession : s.session with
      | none => simp [step, hsession] at hstep
      | some tx =>
          obtain ⟨result, c, hread, hinv⟩ := read_inv h hsession hok
          simp only [step, hsession, hread, Option.some.injEq] at hstep
          have hopen : { s with
              cache := c, session := some tx
              log := ⟨page, result, tx.db.getPage query page⟩ :: s.log } = s' := hstep
          rw [← hsession] at hopen
          exact hopen ▸ hinv
  | commit =>
      cases hsession : s.session with
      | none => simp [step, hsession] at hstep
      | some tx =>
          simp only [step, hsession, Option.some.injEq] at hstep
          exact hstep ▸ commit_inv h hsession
  | rollback =>
      cases hsession : s.session with
      | none => simp [step, hsession] at hstep
      | some tx =>
          simp only [step, hsession, Option.some.injEq] at hstep
          exact hstep ▸ rollback_inv h hsession hok
  | evictRevision key =>
      rw [step_evictRevision, Option.some.injEq] at hstep
      exact hstep ▸ h.of_cache fun hlookup => hlookup
  | evictGroup id =>
      rw [step_evictGroup, Option.some.injEq] at hstep
      exact hstep ▸ h.of_cache fun hlookup => hlookup
  | evictQuery key =>
      rw [step_evictQuery, Option.some.injEq] at hstep
      exact hstep ▸ h.of_cache fun hlookup => (lookup_erase_some hlookup).2

/-- In a run whose pages have keys apart, and that rolls no written page back into the
cache, every read returns the page of the database, and no two pages of a realm share a
key. -/
theorem pagedQuery_transparent (query : PageQuery) (db : Database) {labels : List Label}
    {s : State} (hok : Machine.Meets (step query) Careful (initial db) labels)
    (hrun : Machine.run (step query) (initial db) labels = some s) :
    (∀ read ∈ s.log, SameSet read.result read.expected) ∧
      ∀ read ∈ s.log, ∀ read' ∈ s.log, read.page ≠ read'.page →
        read.page.cacheKey ≠ read'.page.cacheKey := by
  have hinv : Inv query s := Machine.run_invariant
    (fun _ _ _ hinv hok hstep => step_inv hinv hok hstep) (initial_inv db) hok hrun
  exact ⟨hinv.transparent, fun read hmem read' hmem' hne hkey =>
    hne (hinv.apart read hmem read' hmem' hkey)⟩

end

def inOrder : PageQuery where
  limit ids first max := (ids.drop first).take max
  subset _ _ _ _ hid := List.mem_of_mem_drop (List.mem_of_mem_take hid)

def noGroups : Database := fun _ => ⟨fun _ => none, 0⟩

/-- Two groups are created and committed; each of the two pages is read in a transaction
of its own. -/
def readBoth (page page' : Page) : List Label :=
  [.begin, .createGroup page.realm (some "A"), .createGroup page.realm (some "B"), .commit,
    .begin, .getTopLevelGroups page, .commit,
    .begin, .getTopLevelGroups page', .getTopLevelGroups page, .commit]

/-- A page that holds a group of the transaction is cached, and the transaction is rolled
back. -/
def readAndRollback (page : Page) : List Label :=
  [.begin, .createGroup page.realm (some "A"), .commit,
    .begin, .createGroup page.realm (some "B"), .getTopLevelGroups page, .rollback,
    .begin, .getTopLevelGroups page, .commit]

theorem readBoth_transparent :
    ∃ s, Machine.run (step inOrder) (initial noGroups)
        (readBoth ⟨"master", 0, 1⟩ ⟨"master", 1, 1⟩) = some s ∧
      (∀ read ∈ s.log, SameSet read.result read.expected) ∧
      ∀ read ∈ s.log, ∀ read' ∈ s.log, read.page ≠ read'.page →
        read.page.cacheKey ≠ read'.page.cacheKey := by
  have hapart : Apart ⟨"master", 0, 1⟩ ⟨"master", 1, 1⟩ := apart_iff.mpr (by decide)
  have hself : Apart ⟨"master", 0, 1⟩ ⟨"master", 0, 1⟩ := apart_iff.mpr fun _ => rfl
  have hapart' : Apart ⟨"master", 1, 1⟩ ⟨"master", 0, 1⟩ := apart_iff.mpr (by decide)
  have hok : Machine.Meets (step inOrder) Careful (initial noGroups)
      (readBoth ⟨"master", 0, 1⟩ ⟨"master", 1, 1⟩) :=
    .cons trivial rfl (.cons trivial rfl (.cons trivial rfl (.cons trivial rfl
      (.cons trivial rfl (.cons (List.forall_mem_nil _) rfl (.cons trivial rfl
      (.cons trivial rfl (.cons (List.forall_mem_cons.mpr ⟨hapart, List.forall_mem_nil _⟩) rfl
      (.cons (List.forall_mem_cons.mpr ⟨hapart', List.forall_mem_cons.mpr
        ⟨hself, List.forall_mem_nil _⟩⟩) rfl (.cons trivial rfl trivial))))))))))
  exact ⟨_, rfl, pagedQuery_transparent inOrder noGroups hok rfl⟩

/-- The pages `(1, 11)` and `(11, 1)` of one realm have one key, and the second one is
answered with the groups of the first.  A page that was cached before a rollback is
answered with all groups of the top level. -/
theorem pagedQuery_not_transparent :
    (∃ s read read', Machine.run (step inOrder) (initial noGroups)
        (readBoth ⟨"master", 1, 11⟩ ⟨"master", 11, 1⟩) = some s ∧
      s.log = [read, ⟨⟨"master", 11, 1⟩, [⟨"master", 1⟩], []⟩, read'] ∧
      (⟨"master", 1, 11⟩ : Page).cacheKey = (⟨"master", 11, 1⟩ : Page).cacheKey) ∧
    ∃ s read, Machine.run (step inOrder) (initial noGroups)
        (readAndRollback ⟨"master", 1, 1⟩) = some s ∧
      s.log = [⟨⟨"master", 1, 1⟩, [⟨"master", 0⟩], []⟩, read] :=
  ⟨⟨_, _, _, rfl, rfl, rfl⟩, _, _, rfl, rfl⟩

end Keycloak.Cache.GroupQueries
