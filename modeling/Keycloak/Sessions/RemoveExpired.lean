import Keycloak.Sessions.SessionTimeouts
import Mathlib.Data.List.Nodup

/-!
# The periodic removal of expired sessions

`InfinispanUserSessionProvider.removeExpired` against the tests by which a request
accepts a session, `AuthenticationManager.isSessionValid` and `isOfflineSessionValid`.

Times are seconds.  The sums that the source computes stay within the range of `int`,
so they are sums of integers here.
-/

namespace Keycloak.Sessions.Expiration

def idleTimeoutWindowSeconds : Int := 120

def periodicCleanerIdleTimeoutWindowSeconds : Int := 180

structure Realm where
  id : Nat
  ssoSessionIdleTimeout : Int
  ssoSessionMaxLifespan : Int
  offlineSessionIdleTimeout : Int
  offlineSessionMaxLifespanEnabled : Bool
  offlineSessionMaxLifespan : Int
  deriving DecidableEq, Repr

/-- A user session; `authenticatedClientSessions` maps the UUIDs of clients to the ids of
their client sessions. -/
structure UserSession where
  id : Nat
  realmId : Nat
  user : Nat
  brokerSessionId : Option Nat
  brokerUserId : Option Nat
  started : Int
  lastSessionRefresh : Int
  authenticatedClientSessions : List (Nat × Nat)
  deriving DecidableEq, Repr

structure ClientSession where
  id : Nat
  realmId : Nat
  timestamp : Int
  deriving DecidableEq, Repr

/-! ## What a request accepts -/

def isSessionValid (realm : Realm) (currentTime : Int) (userSession : UserSession) : Bool :=
  let max := userSession.started + realm.ssoSessionMaxLifespan
  let maxIdle := realm.ssoSessionIdleTimeout + idleTimeoutWindowSeconds
  userSession.lastSessionRefresh + maxIdle > currentTime && max > currentTime

def isOfflineSessionValid (realm : Realm) (currentTime : Int) (userSession : UserSession) :
    Bool :=
  let maxIdle := realm.offlineSessionIdleTimeout + idleTimeoutWindowSeconds
  if realm.offlineSessionMaxLifespanEnabled then
    let max := userSession.started + realm.offlineSessionMaxLifespan
    userSession.lastSessionRefresh + maxIdle > currentTime && max > currentTime
  else userSession.lastSessionRefresh + maxIdle > currentTime

/-! ## What the job removes -/

structure UserSessionPredicate where
  realm : Nat
  user : Option Nat := none
  client : Option Nat := none
  expired : Option Int := none
  expiredRefresh : Option Int := none
  brokerSessionId : Option Nat := none
  brokerUserId : Option Nat := none
  deriving DecidableEq, Repr

def UserSessionPredicate.test (p : UserSessionPredicate) (entity : UserSession) : Bool :=
  if p.realm ≠ entity.realmId then false
  else if p.user ≠ none ∧ p.user ≠ some entity.user then false
  else if ∃ client ∈ p.client, client ∉ entity.authenticatedClientSessions.map Prod.fst then false
  else if p.brokerSessionId ≠ none ∧ p.brokerSessionId ≠ entity.brokerSessionId then false
  else if p.brokerUserId ≠ none ∧ p.brokerUserId ≠ entity.brokerUserId then false
  else
    match p.expired, p.expiredRefresh with
    | some expired, some expiredRefresh =>
        !(entity.started > expired && entity.lastSessionRefresh > expiredRefresh)
    | none, some expiredRefresh => !(entity.lastSessionRefresh > expiredRefresh)
    | _, none => true

structure AuthenticatedClientSessionPredicate where
  realm : Nat
  expired : Option Int := none
  deriving DecidableEq, Repr

def AuthenticatedClientSessionPredicate.test (p : AuthenticatedClientSessionPredicate)
    (entity : ClientSession) : Bool :=
  if p.realm ≠ entity.realmId then false
  else if ∃ expired ∈ p.expired, entity.timestamp > expired then false
  else true

def ClientSession.BelongsTo (c : ClientSession) (u : UserSession) : Prop :=
  c.id ∈ u.authenticatedClientSessions.map Prod.snd

instance (c : ClientSession) (u : UserSession) : Decidable (c.BelongsTo u) :=
  inferInstanceAs (Decidable (_ ∈ _))

/-- A pair of caches, for user sessions and their client sessions.  Keys are unique, a
client session belongs to one user session, its timestamp is not before the start of
that session, and the user session is refreshed with it. -/
structure SessionCaches where
  userSessions : List UserSession
  clientSessions : List ClientSession
  userIds_nodup : (userSessions.map UserSession.id).Nodup
  owner_unique : ∀ c ∈ clientSessions, ∀ u ∈ userSessions, ∀ u' ∈ userSessions,
    c.BelongsTo u → c.BelongsTo u' → u = u'
  clientIds_nodup : (clientSessions.map ClientSession.id).Nodup
  started_le : ∀ u ∈ userSessions, ∀ c ∈ clientSessions, c.BelongsTo u →
    u.started ≤ c.timestamp
  timestamp_le : ∀ u ∈ userSessions, ∀ c ∈ clientSessions, c.BelongsTo u →
    c.timestamp ≤ u.lastSessionRefresh

structure LocalCache where
  userSession : Nat → Bool
  clientSession : Nat → Bool

namespace SessionCaches

def expiredUserSessions (caches : SessionCaches) (localCache : LocalCache)
    (predicate : UserSessionPredicate) : List UserSession :=
  caches.userSessions.filter fun e => localCache.userSession e.id && predicate.test e

def expiredClientSessions (caches : SessionCaches) (localCache : LocalCache)
    (predicate : AuthenticatedClientSessionPredicate) : List ClientSession :=
  caches.clientSessions.filter fun e => localCache.clientSession e.id && predicate.test e

/-- The two streams of the job: expired user sessions go with the client sessions that
they list, and expired client sessions go by themselves. -/
def removeMatching (caches : SessionCaches) (localCache : LocalCache)
    (predicate : UserSessionPredicate) (clientPredicate : AuthenticatedClientSessionPredicate) :
    SessionCaches :=
  let expired := caches.expiredUserSessions localCache predicate
  let detached := caches.expiredClientSessions localCache clientPredicate
  { userSessions := caches.userSessions.filter fun e => e.id ∉ expired.map UserSession.id
    clientSessions := caches.clientSessions.filter fun e =>
      (∀ u ∈ expired, ¬ e.BelongsTo u) ∧ e.id ∉ detached.map ClientSession.id
    userIds_nodup := caches.userIds_nodup.sublist (List.filter_sublist.map _)
    clientIds_nodup := caches.clientIds_nodup.sublist (List.filter_sublist.map _)
    owner_unique := fun c hc u hu u' hu' =>
      caches.owner_unique c (List.mem_of_mem_filter hc) u (List.mem_of_mem_filter hu)
        u' (List.mem_of_mem_filter hu')
    started_le := fun u hu c hc =>
      caches.started_le u (List.mem_of_mem_filter hu) c (List.mem_of_mem_filter hc)
    timestamp_le := fun u hu c hc =>
      caches.timestamp_le u (List.mem_of_mem_filter hu) c (List.mem_of_mem_filter hc) }

end SessionCaches

/-- The online and the offline caches, and the ids of the offline user sessions that the
persister has. -/
structure Store where
  online : SessionCaches
  offline : SessionCaches
  persisted : List Nat

structure Node where
  online : LocalCache
  offline : LocalCache

def onlinePredicate (realm : Realm) (currentTime : Int) : UserSessionPredicate where
  realm := realm.id
  expired := some (currentTime - realm.ssoSessionMaxLifespan)
  expiredRefresh := some (currentTime - realm.ssoSessionIdleTimeout -
    periodicCleanerIdleTimeoutWindowSeconds)

def onlineClientPredicate (realm : Realm) (currentTime : Int) :
    AuthenticatedClientSessionPredicate where
  realm := realm.id
  expired := some (currentTime - realm.ssoSessionMaxLifespan)

/-- `expiredOffline`, the limit of the offline user sessions and of their client sessions. -/
def expiredOffline (realm : Realm) (currentTime : Int) : Int :=
  currentTime - realm.offlineSessionIdleTimeout - periodicCleanerIdleTimeoutWindowSeconds

def offlinePredicate (realm : Realm) (currentTime : Int) : UserSessionPredicate where
  realm := realm.id
  expiredRefresh := some (expiredOffline realm currentTime)

def offlineClientPredicate (realm : Realm) (currentTime : Int) :
    AuthenticatedClientSessionPredicate where
  realm := realm.id
  expired := some (expiredOffline realm currentTime)

def removeExpiredUserSessions (realm : Realm) (currentTime : Int) (node : Node)
    (store : Store) : Store :=
  { store with
    online := store.online.removeMatching node.online (onlinePredicate realm currentTime)
      (onlineClientPredicate realm currentTime) }

def removeExpiredOfflineUserSessions (realm : Realm) (currentTime : Int) (node : Node)
    (store : Store) : Store :=
  let predicate := offlinePredicate realm currentTime
  let expired := store.offline.expiredUserSessions node.offline predicate
  { store with
    offline := store.offline.removeMatching node.offline predicate
      (offlineClientPredicate realm currentTime)
    persisted := store.persisted.filter fun id => id ∉ expired.map UserSession.id }

def removeExpired (realm : Realm) (currentTime : Int) (node : Node) (store : Store) : Store :=
  removeExpiredOfflineUserSessions realm currentTime node
    (removeExpiredUserSessions realm currentTime node store)

/-! ## What is left of the caches -/

namespace SessionCaches

variable {caches : SessionCaches} {localCache : LocalCache} {predicate : UserSessionPredicate}
  {clientPredicate : AuthenticatedClientSessionPredicate}

theorem mem_map_id_filter {α : Type} {id : α → Nat} {entries : List α}
    (hnodup : (entries.map id).Nodup) {e : α} (he : e ∈ entries) (p : α → Bool) :
    id e ∈ (entries.filter p).map id ↔ p e := by
  rw [List.mem_map]
  constructor
  · rintro ⟨e', he', heq⟩
    rw [List.mem_filter] at he'
    have hsame : e' = e := List.inj_on_of_nodup_map hnodup he'.1 he heq
    exact hsame ▸ he'.2
  · exact fun hp => ⟨e, List.mem_filter.mpr ⟨he, hp⟩, rfl⟩

theorem id_mem_expiredUserSessions {u : UserSession} (hu : u ∈ caches.userSessions) :
    u.id ∈ (caches.expiredUserSessions localCache predicate).map UserSession.id ↔
      localCache.userSession u.id ∧ predicate.test u := by
  rw [expiredUserSessions, mem_map_id_filter caches.userIds_nodup hu, Bool.and_eq_true]

theorem mem_userSessions_removeMatching {u : UserSession} (hu : u ∈ caches.userSessions) :
    u ∈ (caches.removeMatching localCache predicate clientPredicate).userSessions ↔
      ¬ (localCache.userSession u.id ∧ predicate.test u) := by
  simp only [removeMatching, List.mem_filter, hu, true_and, decide_eq_true_eq]
  rw [id_mem_expiredUserSessions hu]

theorem mem_clientSessions_removeMatching {u : UserSession} {c : ClientSession}
    (hu : u ∈ caches.userSessions) (hc : c ∈ caches.clientSessions) (howner : c.BelongsTo u) :
    c ∈ (caches.removeMatching localCache predicate clientPredicate).clientSessions ↔
      ¬ (localCache.userSession u.id ∧ predicate.test u) ∧
        ¬ (localCache.clientSession c.id ∧ clientPredicate.test c) := by
  simp only [removeMatching, List.mem_filter, hc, true_and, decide_eq_true_eq]
  refine and_congr ?_ ?_
  · constructor
    · intro hnone hexpired
      refine hnone u ?_ howner
      exact List.mem_filter.mpr ⟨hu, by simpa using hexpired⟩
    · intro hkept u' hu' howner'
      obtain ⟨hu'mem, hu'test⟩ := List.mem_filter.mp hu'
      have hsame := caches.owner_unique c hc u hu u' hu'mem howner howner'
      subst hsame
      exact hkept (by simpa using hu'test)
  · rw [expiredClientSessions, mem_map_id_filter caches.clientIds_nodup hc, Bool.and_eq_true]

end SessionCaches

/-! ## The tests of the job and of the requests -/

variable {realm : Realm} {currentTime : Int} {u : UserSession} {c : ClientSession}

theorem isSessionValid_iff :
    isSessionValid realm currentTime u ↔
      currentTime < u.lastSessionRefresh + (realm.ssoSessionIdleTimeout + 120) ∧
        currentTime < u.started + realm.ssoSessionMaxLifespan := by
  simp [isSessionValid, idleTimeoutWindowSeconds]

/-- The tests of `SessionTimeouts`, whose sums wrap around, for sums that stay in range. -/
theorem isSessionValid_eq {model : SessionTimeouts.RealmModel}
    (hidle : model.ssoSessionIdleTimeout = realm.ssoSessionIdleTimeout)
    (hmax : model.ssoSessionMaxLifespan = realm.ssoSessionMaxLifespan) (offline : Bool)
    (hwindow : JavaInt.InRange (realm.ssoSessionIdleTimeout + 120))
    (hrefresh : JavaInt.InRange (u.lastSessionRefresh + (realm.ssoSessionIdleTimeout + 120)))
    (hstarted : JavaInt.InRange (u.started + realm.ssoSessionMaxLifespan)) :
    SessionTimeouts.isSessionValid model (some ⟨u.started, u.lastSessionRefresh, offline⟩)
      currentTime = isSessionValid realm currentTime u := by
  simp only [SessionTimeouts.isSessionValid, SessionTimeouts.IDLE_TIMEOUT_WINDOW_SECONDS,
    isSessionValid, idleTimeoutWindowSeconds, hidle, hmax, JavaInt.wrap_eq hwindow,
    JavaInt.wrap_eq hrefresh, JavaInt.wrap_eq hstarted]
  rfl

theorem isOfflineSessionValid_eq {model : SessionTimeouts.RealmModel}
    (hidle : model.offlineSessionIdleTimeout = realm.offlineSessionIdleTimeout)
    (henabled : model.offlineSessionMaxLifespanEnabled = realm.offlineSessionMaxLifespanEnabled)
    (hmax : model.offlineSessionMaxLifespan = realm.offlineSessionMaxLifespan) (offline : Bool)
    (hwindow : JavaInt.InRange (realm.offlineSessionIdleTimeout + 120))
    (hrefresh : JavaInt.InRange (u.lastSessionRefresh + (realm.offlineSessionIdleTimeout + 120)))
    (hstarted : JavaInt.InRange (u.started + realm.offlineSessionMaxLifespan)) :
    SessionTimeouts.isOfflineSessionValid model (some ⟨u.started, u.lastSessionRefresh, offline⟩)
      currentTime = isOfflineSessionValid realm currentTime u := by
  simp only [SessionTimeouts.isOfflineSessionValid, SessionTimeouts.IDLE_TIMEOUT_WINDOW_SECONDS,
    isOfflineSessionValid, idleTimeoutWindowSeconds, hidle, henabled, hmax,
    JavaInt.wrap_eq hwindow, JavaInt.wrap_eq hrefresh, JavaInt.wrap_eq hstarted]
  rfl

theorem isOfflineSessionValid_refresh (h : isOfflineSessionValid realm currentTime u) :
    currentTime < u.lastSessionRefresh + (realm.offlineSessionIdleTimeout + 120) := by
  rw [isOfflineSessionValid] at h
  split at h
  · rw [Bool.and_eq_true] at h
    simpa [idleTimeoutWindowSeconds] using h.1
  · simpa [idleTimeoutWindowSeconds] using h

theorem onlinePredicate_test :
    (onlinePredicate realm currentTime).test u ↔
      realm.id = u.realmId ∧
        (u.started ≤ currentTime - realm.ssoSessionMaxLifespan ∨
          u.lastSessionRefresh ≤ currentTime - realm.ssoSessionIdleTimeout - 180) := by
  simp only [UserSessionPredicate.test, onlinePredicate, periodicCleanerIdleTimeoutWindowSeconds]
  by_cases hrealm : realm.id = u.realmId
  · simp [hrealm]
  · simp [hrealm]

theorem offlinePredicate_test :
    (offlinePredicate realm currentTime).test u ↔
      realm.id = u.realmId ∧
        u.lastSessionRefresh ≤ currentTime - realm.offlineSessionIdleTimeout - 180 := by
  simp only [UserSessionPredicate.test, offlinePredicate, expiredOffline,
    periodicCleanerIdleTimeoutWindowSeconds]
  by_cases hrealm : realm.id = u.realmId <;> simp [hrealm]

theorem clientPredicate_test {realmId : Nat} {expired : Int} :
    AuthenticatedClientSessionPredicate.test ⟨realmId, some expired⟩ c ↔
      realmId = c.realmId ∧ c.timestamp ≤ expired := by
  rw [AuthenticatedClientSessionPredicate.test]
  by_cases hrealm : realmId = c.realmId <;> simp [hrealm]

/-- An online user session that is valid is not expired for the job. -/
theorem onlinePredicate_of_valid (h : isSessionValid realm currentTime u) :
    ¬ (onlinePredicate realm currentTime).test u := by
  rw [isSessionValid_iff] at h
  rw [onlinePredicate_test]
  omega

/-- The client sessions of a valid online user session are not older than its start, and
so within the maximal lifespan. -/
theorem onlineClientPredicate_of_valid (h : isSessionValid realm currentTime u)
    (hstarted : u.started ≤ c.timestamp) :
    ¬ (onlineClientPredicate realm currentTime).test c := by
  rw [isSessionValid_iff] at h
  rw [onlineClientPredicate, clientPredicate_test]
  omega

theorem offlinePredicate_of_valid (h : isOfflineSessionValid realm currentTime u) :
    ¬ (offlinePredicate realm currentTime).test u := by
  have hrefresh := isOfflineSessionValid_refresh h
  rw [offlinePredicate_test]
  omega

/-! ## The job and the valid sessions -/

/-- Nothing that belongs to a valid session is lost between two stores. -/
structure KeepsValid (realm : Realm) (currentTime : Int) (before after : Store) : Prop where
  user : ∀ u ∈ before.online.userSessions, isSessionValid realm currentTime u →
    u ∈ after.online.userSessions
  client : ∀ u ∈ before.online.userSessions, isSessionValid realm currentTime u →
    ∀ c ∈ before.online.clientSessions, c.BelongsTo u → c ∈ after.online.clientSessions
  offlineUser : ∀ u ∈ before.offline.userSessions, isOfflineSessionValid realm currentTime u →
    u ∈ after.offline.userSessions
  persisted : ∀ u ∈ before.offline.userSessions, isOfflineSessionValid realm currentTime u →
    u.id ∈ before.persisted → u.id ∈ after.persisted
  offlineClient : ∀ u ∈ before.offline.userSessions, isOfflineSessionValid realm currentTime u →
    ∀ c ∈ before.offline.clientSessions, c.BelongsTo u → c ∈ after.offline.clientSessions

/-- A client session of a valid offline user session stays when the job does not find it
older than the idle timeout of the offline session itself. -/
theorem mem_offlineClientSessions {node : Node} {store : Store}
    (hu : u ∈ store.offline.userSessions) (hvalid : isOfflineSessionValid realm currentTime u)
    (hc : c ∈ store.offline.clientSessions) (howner : c.BelongsTo u) :
    c ∈ (removeExpired realm currentTime node store).offline.clientSessions ↔
      (node.offline.clientSession c.id → c.realmId = realm.id →
        expiredOffline realm currentTime < c.timestamp) := by
  have hkept := offlinePredicate_of_valid hvalid
  change c ∈ (store.offline.removeMatching ..).clientSessions ↔ _
  rw [SessionCaches.mem_clientSessions_removeMatching hu hc howner, offlineClientPredicate,
    clientPredicate_test]
  constructor
  · intro ⟨_, hclient⟩ hlocal hrealm
    exact Int.lt_of_not_ge fun hle => hclient ⟨hlocal, hrealm.symm, hle⟩
  · intro h
    refine ⟨fun hexpired => hkept hexpired.2, fun ⟨hlocal, hrealm, hle⟩ => ?_⟩
    exact Int.not_lt.mpr hle (h hlocal hrealm.symm)

/-- The job keeps what the request path accepts exactly when no client session of a valid
offline user session is older than the idle timeout and window of the offline session. -/
theorem removeExpired_keepsValid_iff (realm : Realm) (currentTime : Int) (node : Node)
    (store : Store) :
    KeepsValid realm currentTime store (removeExpired realm currentTime node store) ↔
      ∀ u ∈ store.offline.userSessions, isOfflineSessionValid realm currentTime u →
        ∀ c ∈ store.offline.clientSessions, c.BelongsTo u →
          node.offline.clientSession c.id → c.realmId = realm.id →
            currentTime - realm.offlineSessionIdleTimeout - 180 < c.timestamp := by
  constructor
  · intro h u hu hvalid c hc howner
    exact (mem_offlineClientSessions hu hvalid hc howner).mp
      (h.offlineClient u hu hvalid c hc howner)
  · intro h
    refine ⟨?_, ?_, ?_, ?_, ?_⟩
    · intro u hu hvalid
      refine (SessionCaches.mem_userSessions_removeMatching hu).mpr fun hexpired => ?_
      exact onlinePredicate_of_valid hvalid hexpired.2
    · intro u hu hvalid c hc howner
      refine (SessionCaches.mem_clientSessions_removeMatching hu hc howner).mpr
        ⟨fun hexpired => ?_, fun hexpired => ?_⟩
      · exact onlinePredicate_of_valid hvalid hexpired.2
      · exact onlineClientPredicate_of_valid hvalid (store.online.started_le u hu c hc howner)
          hexpired.2
    · intro u hu hvalid
      refine (SessionCaches.mem_userSessions_removeMatching hu).mpr fun hexpired => ?_
      exact offlinePredicate_of_valid hvalid hexpired.2
    · intro u hu hvalid hpersisted
      refine List.mem_filter.mpr ⟨hpersisted, decide_eq_true ?_⟩
      intro hmem
      exact offlinePredicate_of_valid hvalid
        ((SessionCaches.id_mem_expiredUserSessions hu).mp hmem).2
    · intro u hu hvalid c hc howner
      exact (mem_offlineClientSessions hu hvalid hc howner).mpr (h u hu hvalid c hc howner)

/-- An offline session of two clients: client 1 has not used it since the start, client 2
has refreshed it a quarter of an hour ago. -/
def twoClientsSession : UserSession where
  id := 1
  realmId := 0
  user := 7
  brokerSessionId := none
  brokerUserId := none
  started := 0
  lastSessionRefresh := 2999100
  authenticatedClientSessions := [(1, 11), (2, 12)]

def twoClientsStore : Store where
  online := ⟨[], [], by decide, by decide, by decide, by decide, by decide⟩
  offline := ⟨[twoClientsSession], [⟨11, 0, 0⟩, ⟨12, 0, 2999100⟩],
    by decide, by decide, by decide, by decide, by decide⟩
  persisted := [1]

def defaultTimeouts : Realm :=
  ⟨0, 1800, 36000, 2592000, false, 5184000⟩

/-- After 30 days the session is valid, and its client session 11 is gone. -/
theorem twoClientsStore_loses :
    isOfflineSessionValid defaultTimeouts 3000000 twoClientsSession = true ∧
      ¬ KeepsValid defaultTimeouts 3000000 twoClientsStore
        (removeExpired defaultTimeouts 3000000 ⟨⟨fun _ => true, fun _ => true⟩,
          ⟨fun _ => true, fun _ => true⟩⟩ twoClientsStore) := by
  refine ⟨by decide, fun h => ?_⟩
  have hkept := h.offlineClient twoClientsSession (by decide) (by decide) ⟨11, 0, 0⟩ (by decide)
    (by decide)
  revert hkept
  decide

end Keycloak.Sessions.Expiration
