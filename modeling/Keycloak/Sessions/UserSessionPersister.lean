import Keycloak.Lib.KeyedTable
import Keycloak.Lib.Pages
import Keycloak.Sessions.RemoveExpired
import Mathlib.Data.Prod.Lex
import Mathlib.Data.String.Basic

/-!
# The persister of the offline sessions

`JpaUserSessionPersisterProvider`.  Two tables hold the offline user sessions and their
client sessions.  Nothing but the code below keeps them together: there is no foreign key.

A page of sessions is loaded only once all of its users exist.  When one of them is gone, the
rows of that user are deleted, on whatever page they stand, and the same page is read again.
-/

namespace Keycloak.Sessions.Offline

open Expiration (UserSession ClientSession)

/-- The id of a client with its parts, as they are parsed; a local client has no provider. -/
structure StorageId where
  providerId : Option String
  externalId : String
  deriving DecidableEq, Repr

/-- The users and the clients that a lookup by id finds.  An id is given out once, to a user, a
client or a user session of one realm.  A lookup of a user that throws counts as one that finds
the user. -/
structure Directory where
  userRealm : Nat → Nat
  clientRealm : StorageId → Nat
  sessionRealm : Nat → Nat
  users : List Nat
  clients : List StorageId

def Directory.getUserById (directory : Directory) (id realmId : Nat) : Bool :=
  id ∈ directory.users && directory.userRealm id = realmId

def Directory.getClientById (directory : Directory) (id : StorageId) (realmId : Nat) : Bool :=
  id ∈ directory.clients && directory.clientRealm id = realmId

structure PersistentUserSessionData where
  brokerSessionId : Option Nat
  brokerUserId : Option Nat
  started : Int
  deriving DecidableEq, Repr

structure PersistentUserSessionEntity where
  userSessionId : Nat
  realmId : Nat
  userId : Nat
  lastSessionRefresh : Int
  data : PersistentUserSessionData
  deriving DecidableEq, Repr

structure PersistentClientSessionEntity where
  userSessionId : Nat
  clientId : String
  clientStorageProvider : String
  externalClientId : String
  timestamp : Int
  deriving DecidableEq, Repr

namespace PersistentClientSessionEntity

def localClient : String := "local"

def externalClient : String := "external"

/-- What the columns `clientId`, `clientStorageProvider` and `externalClientId` have for a
client. -/
def columns (client : StorageId) : String ×ₗ String ×ₗ String :=
  match client.providerId with
  | none => toLex (client.externalId, toLex (localClient, localClient))
  | some providerId => toLex (externalClient, toLex (providerId, client.externalId))

def key (entity : PersistentClientSessionEntity) : Nat ×ₗ String ×ₗ String ×ₗ String :=
  toLex (entity.userSessionId, toLex (entity.clientId,
    toLex (entity.clientStorageProvider, entity.externalClientId)))

def ofClient (userSessionId : Nat) (client : StorageId) (timestamp : Int) :
    PersistentClientSessionEntity where
  userSessionId := userSessionId
  clientId := (ofLex (columns client)).1
  clientStorageProvider := (ofLex (ofLex (columns client)).2).1
  externalClientId := (ofLex (ofLex (columns client)).2).2
  timestamp := timestamp

/-- The client that `toAdapter` looks up.  For one of a client storage, the storage is taken from
the column `clientId`, which has the constant. -/
def lookedUp (entity : PersistentClientSessionEntity) : StorageId :=
  if entity.externalClientId ≠ localClient then ⟨some entity.clientId, entity.externalClientId⟩
  else ⟨none, entity.clientId⟩

/-- A map of client sessions under the column `clientId`, into which they are put in turn. -/
def putAll (clientSessions : List PersistentClientSessionEntity) :
    List PersistentClientSessionEntity :=
  clientSessions.foldl (fun current sess =>
    current.filter (fun other => other.clientId ≠ sess.clientId) ++ [sess]) []

end PersistentClientSessionEntity

open PersistentClientSessionEntity (columns lookedUp putAll)

structure Database where
  userSessions : KeyedTable PersistentUserSessionEntity.userSessionId
  clientSessions : KeyedTable PersistentClientSessionEntity.key

def PersistentUserSessionEntity.ofSession (userSession : UserSession) :
    PersistentUserSessionEntity where
  userSessionId := userSession.id
  realmId := userSession.realmId
  userId := userSession.user
  lastSessionRefresh := userSession.lastSessionRefresh
  data :=
    { brokerSessionId := userSession.brokerSessionId
      brokerUserId := userSession.brokerUserId
      started := userSession.started }

structure PersistentUserSessionAdapter where
  entity : PersistentUserSessionEntity
  authenticatedClientSessions : List PersistentClientSessionEntity
  deriving DecidableEq, Repr

namespace Database

def empty : Database := ⟨.empty, .empty⟩

/-- `createUserSession`; to persist a row with a key that is taken throws. -/
def createUserSession (db : Database) (userSession : UserSession) : Option Database :=
  (db.userSessions.insert (.ofSession userSession)).map fun userSessions =>
    { db with userSessions }

def createClientSession (db : Database) (userSessionId : Nat) (client : StorageId)
    (timestamp : Int) : Option Database :=
  (db.clientSessions.insert (.ofClient userSessionId client timestamp)).map fun clientSessions =>
    { db with clientSessions }

def removeUserSession (db : Database) (userSessionId : Nat) : Database where
  clientSessions := db.clientSessions.filter fun sess => sess.userSessionId ≠ userSessionId
  userSessions := db.userSessions.filter fun sess => sess.userSessionId ≠ userSessionId

def getClientSessionsByUserSession (db : Database) (userSessionId : Nat) :
    List PersistentClientSessionEntity :=
  db.clientSessions.rows.filter fun sess => sess.userSessionId = userSessionId

def removeClientSession (db : Database) (userSessionId : Nat) (clientUUID : StorageId) :
    Database :=
  match db.clientSessions.find (toLex (userSessionId, columns clientUUID)) with
  | none => db
  | some sessionEntity =>
      let db := { db with
        clientSessions := db.clientSessions.filter fun sess => sess.key ≠ sessionEntity.key }
      -- the user session goes with its last client session
      if db.getClientSessionsByUserSession userSessionId = [] then
        { db with
          userSessions := db.userSessions.filter fun sess => sess.userSessionId ≠ userSessionId }
      else db

def deleteDetachedClientSessions (db : Database) : Database :=
  { db with
    clientSessions := db.clientSessions.filter fun sess =>
      db.userSessions.rows.any fun u => u.userSessionId = sess.userSessionId }

def deleteDetachedUserSessions (db : Database) : Database :=
  { db with
    userSessions := db.userSessions.filter fun sess =>
      db.clientSessions.rows.any fun c => c.userSessionId = sess.userSessionId }

/-- The queries that delete the client sessions of some user sessions and then these, as
`deleteClientSessionsByRealm` with `deleteUserSessionsByRealm`. -/
def deleteSessionsBy (db : Database) (p : PersistentUserSessionEntity → Bool) : Database where
  clientSessions := db.clientSessions.filter fun sess =>
    !db.userSessions.rows.any fun u => p u && u.userSessionId = sess.userSessionId
  userSessions := db.userSessions.filter fun sess => !p sess

def onRealmRemoved (db : Database) (realmId : Nat) : Database :=
  db.deleteSessionsBy fun sess => sess.realmId = realmId

def onUserRemoved (db : Database) (userId : Nat) : Database :=
  db.deleteSessionsBy fun sess => sess.userId = userId

/-- The queries `deleteClientSessionsByClient` and `deleteClientSessionsByExternalClient`. -/
def onClientRemoved (db : Database) (clientUUID : StorageId) : Database :=
  { db with
    clientSessions := db.clientSessions.filter fun sess =>
      match clientUUID.providerId with
      | none => sess.clientId ≠ clientUUID.externalId
      | some providerId =>
          ¬ (sess.clientStorageProvider = providerId ∧
            sess.externalClientId = clientUUID.externalId) }.deleteDetachedUserSessions

def clearDetachedUserSessions (db : Database) : Database :=
  db.deleteDetachedClientSessions.deleteDetachedUserSessions

def updateAllTimestamps (db : Database) (time : Int) : Database where
  clientSessions := db.clientSessions.update (fun sess => { sess with timestamp := time })
    fun _ => rfl
  userSessions := db.userSessions.update (fun sess => { sess with lastSessionRefresh := time })
    fun _ => rfl

def getUserSessionsCount (db : Database) : Nat := db.userSessions.rows.length

/-- The query `findUserSessions` with the bounds of a page; it is ordered by the key. -/
def findUserSessions (db : Database) (firstResult maxResults : Nat) :
    List PersistentUserSessionEntity :=
  (db.userSessions.rows.drop firstResult).take maxResults

/-- The query `findClientSessionsByUserSessions`, ordered by the user session. -/
def findClientSessionsByUserSessions (db : Database) (userSessionIds : List Nat) :
    List PersistentClientSessionEntity :=
  db.clientSessions.rows.filter fun sess => sess.userSessionId ∈ userSessionIds

/-- The second half of `loadUserSessions`, when all users of the page exist: the client sessions
are attached, and those of a client that is not found are deleted in the end, by the column
`clientId`. -/
def attachClientSessions (directory : Directory) (results : List PersistentUserSessionEntity)
    (db : Database) : List PersistentUserSessionAdapter × Database :=
  let clientSessions := db.findClientSessionsByUserSessions
    (results.map PersistentUserSessionEntity.userSessionId)
  let attached := KeyedTable.attach PersistentUserSessionEntity.userSessionId
    PersistentClientSessionEntity.userSessionId results clientSessions
  let found := fun (entity : PersistentUserSessionEntity) (sess : PersistentClientSessionEntity) =>
    directory.getClientById sess.lookedUp entity.realmId
  let removedClientUUIDs := attached.flatMap fun e =>
    (e.2.filter fun sess => !found e.1 sess).map PersistentClientSessionEntity.clientId
  (attached.map fun e => ⟨e.1, putAll (e.2.filter (found e.1))⟩,
    removedClientUUIDs.dedup.foldl (fun db clientUUID => db.onClientRemoved ⟨none, clientUUID⟩) db)

/-- `loadUserSessions`, with a bound for the number of times that the page is read. -/
def loadUserSessionsWithin (directory : Directory) (firstResult maxResults : Nat) :
    Nat → Database → Option (List PersistentUserSessionAdapter × Database)
  | 0, _ => none
  | bound + 1, db =>
      let results := db.findUserSessions firstResult maxResults
      match results.find? fun entity => !directory.getUserById entity.userId entity.realmId with
      | some entity =>
          loadUserSessionsWithin directory firstResult maxResults bound
            (db.onUserRemoved entity.userId)
      | none => some (attachClientSessions directory results db)

/-- Every reading but the last deletes a row, so there are no more of them than rows and one. -/
def loadUserSessions (directory : Directory) (firstResult maxResults : Nat) (db : Database) :
    Option (List PersistentUserSessionAdapter × Database) :=
  loadUserSessionsWithin directory firstResult maxResults (db.getUserSessionsCount + 1) db

/-! ## Which rows there are -/

def HasUserSession (db : Database) (userSessionId : Nat) : Prop :=
  ∃ row ∈ db.userSessions, row.userSessionId = userSessionId

def HasClientSession (db : Database) (userSessionId : Nat) (client : StorageId) : Prop :=
  ∃ row ∈ db.clientSessions, row.key = toLex (userSessionId, columns client)

variable {db db' : Database} {userSession : UserSession} {userSessionId : Nat}
  {client : StorageId} {timestamp : Int} {u : PersistentUserSessionEntity} {c : PersistentClientSessionEntity}

theorem key_ofClient : (PersistentClientSessionEntity.ofClient userSessionId client timestamp).key =
    toLex (userSessionId, columns client) := rfl

theorem createUserSession_isSome :
    (db.createUserSession userSession).isSome ↔ ¬ db.HasUserSession userSession.id := by
  rw [createUserSession, Option.isSome_map, KeyedTable.insert_isSome]
  simp only [HasUserSession, not_exists, not_and]
  rfl

theorem createUserSession_eq_some (h : db.createUserSession userSession = some db') :
    ¬ db.HasUserSession userSession.id ∧ db'.clientSessions = db.clientSessions ∧
      ∀ row, row ∈ db'.userSessions ↔ row = .ofSession userSession ∨ row ∈ db.userSessions := by
  have hfresh := createUserSession_isSome.mp (Option.isSome_iff_exists.mpr ⟨db', h⟩)
  obtain ⟨userSessions, hinsert, rfl⟩ := Option.map_eq_some_iff.mp h
  exact ⟨hfresh, rfl, fun row => KeyedTable.mem_of_insert hinsert⟩

theorem createClientSession_isSome :
    (db.createClientSession userSessionId client timestamp).isSome ↔
      ¬ db.HasClientSession userSessionId client := by
  rw [createClientSession, Option.isSome_map, KeyedTable.insert_isSome]
  simp only [HasClientSession, not_exists, not_and, ne_eq, key_ofClient]

theorem createClientSession_eq_some
    (h : db.createClientSession userSessionId client timestamp = some db') :
    ¬ db.HasClientSession userSessionId client ∧ db'.userSessions = db.userSessions ∧
      ∀ row, row ∈ db'.clientSessions ↔
        row = .ofClient userSessionId client timestamp ∨ row ∈ db.clientSessions := by
  have hfresh := createClientSession_isSome.mp (Option.isSome_iff_exists.mpr ⟨db', h⟩)
  obtain ⟨clientSessions, hinsert, rfl⟩ := Option.map_eq_some_iff.mp h
  exact ⟨hfresh, rfl, fun row => KeyedTable.mem_of_insert hinsert⟩

@[simp] theorem mem_userSessions_removeUserSession :
    u ∈ (db.removeUserSession userSessionId).userSessions ↔
      u ∈ db.userSessions ∧ u.userSessionId ≠ userSessionId := by
  simp [removeUserSession]

@[simp] theorem mem_clientSessions_removeUserSession :
    c ∈ (db.removeUserSession userSessionId).clientSessions ↔
      c ∈ db.clientSessions ∧ c.userSessionId ≠ userSessionId := by
  simp [removeUserSession]

theorem mem_clientSessions_removeClientSession :
    c ∈ (db.removeClientSession userSessionId client).clientSessions ↔
      c ∈ db.clientSessions ∧ c.key ≠ toLex (userSessionId, columns client) := by
  rw [removeClientSession]
  split
  · rename_i hnone
    have hall := KeyedTable.find_eq_none.mp hnone
    exact ⟨fun hc => ⟨hc, hall c hc⟩, fun h => h.1⟩
  · rename_i sessionEntity hsome
    have hentity := (KeyedTable.find_eq_some.mp hsome).2
    dsimp only
    split <;> simp [hentity]

/-- The row of the user session goes only with its last client session. -/
theorem mem_userSessions_removeClientSession :
    u ∈ (db.removeClientSession userSessionId client).userSessions ↔
      u ∈ db.userSessions ∧ (u.userSessionId = userSessionId →
        db.HasClientSession userSessionId client →
          ∃ row ∈ (db.removeClientSession userSessionId client).clientSessions,
            row.userSessionId = userSessionId) := by
  rw [removeClientSession]
  split
  · rename_i hnone
    have hall := KeyedTable.find_eq_none.mp hnone
    exact ⟨fun hu => ⟨hu, fun _ ⟨row, hrow, hkey⟩ => absurd hkey (hall row hrow)⟩, fun h => h.1⟩
  · rename_i sessionEntity hsome
    obtain ⟨hmem, hentity⟩ := KeyedTable.find_eq_some.mp hsome
    have hhas : db.HasClientSession userSessionId client := ⟨sessionEntity, hmem, hentity⟩
    dsimp only
    split
    · rename_i hnone
      rw [getClientSessionsByUserSession, List.filter_eq_nil_iff] at hnone
      simp only [KeyedTable.mem_filter, decide_eq_true_eq]
      refine and_congr_right fun _ => ⟨fun hne heq => absurd heq hne, fun h heq => ?_⟩
      obtain ⟨row, hrow, hid⟩ := h heq hhas
      exact absurd (by simpa using hid)
        (hnone row (KeyedTable.mem_filter.mpr ⟨hrow.1, decide_eq_true hrow.2⟩))
    · rename_i hsome
      rw [getClientSessionsByUserSession, List.filter_eq_nil_iff] at hsome
      push Not at hsome
      obtain ⟨row, hrow, hid⟩ := hsome
      exact ⟨fun hu => ⟨hu, fun _ _ => ⟨row, hrow, by simpa using hid⟩⟩, fun h => h.1⟩

theorem mem_userSessions_deleteSessionsBy {p : PersistentUserSessionEntity → Bool} :
    u ∈ (db.deleteSessionsBy p).userSessions ↔ u ∈ db.userSessions ∧ p u = false := by
  simp [deleteSessionsBy]

theorem mem_clientSessions_deleteSessionsBy {p : PersistentUserSessionEntity → Bool} :
    c ∈ (db.deleteSessionsBy p).clientSessions ↔ c ∈ db.clientSessions ∧
      ∀ u ∈ db.userSessions, u.userSessionId = c.userSessionId → p u = false := by
  simp only [deleteSessionsBy, KeyedTable.mem_filter, Bool.not_eq_true', List.any_eq_false,
    KeyedTable.mem_rows, Bool.and_eq_true, decide_eq_true_eq, not_and]
  refine and_congr_right fun _ => forall₂_congr fun u _ => ?_
  cases p u <;> simp

theorem mem_userSessions_deleteDetachedUserSessions :
    u ∈ db.deleteDetachedUserSessions.userSessions ↔ u ∈ db.userSessions ∧
      ∃ c ∈ db.clientSessions, c.userSessionId = u.userSessionId := by
  simp [deleteDetachedUserSessions, KeyedTable.mem_rows]

theorem mem_clientSessions_onClientRemoved {clientUUID : String} :
    c ∈ (db.onClientRemoved ⟨none, clientUUID⟩).clientSessions ↔
      c ∈ db.clientSessions ∧ c.clientId ≠ clientUUID := by
  simp [onClientRemoved, deleteDetachedUserSessions]

theorem mem_of_mem_onClientRemoved {clientUUID : StorageId}
    (h : c ∈ (db.onClientRemoved clientUUID).clientSessions) : c ∈ db.clientSessions :=
  (KeyedTable.mem_filter.mp h).1

theorem mem_userSessions_onClientRemoved {clientUUID : StorageId} :
    u ∈ (db.onClientRemoved clientUUID).userSessions ↔ u ∈ db.userSessions ∧
      ∃ c ∈ (db.onClientRemoved clientUUID).clientSessions,
        c.userSessionId = u.userSessionId := by
  rw [onClientRemoved, mem_userSessions_deleteDetachedUserSessions]
  rfl

theorem mem_clientSessions_clearDetachedUserSessions :
    c ∈ db.clearDetachedUserSessions.clientSessions ↔
      c ∈ db.clientSessions ∧ db.HasUserSession c.userSessionId := by
  simp [clearDetachedUserSessions, deleteDetachedUserSessions, deleteDetachedClientSessions,
    HasUserSession, KeyedTable.mem_rows]

theorem mem_userSessions_clearDetachedUserSessions :
    u ∈ db.clearDetachedUserSessions.userSessions ↔ u ∈ db.userSessions ∧
      ∃ c ∈ db.clientSessions, c.userSessionId = u.userSessionId := by
  rw [clearDetachedUserSessions, mem_userSessions_deleteDetachedUserSessions]
  refine and_congr_right fun hu => exists_congr fun c => ?_
  simp only [deleteDetachedClientSessions, KeyedTable.mem_filter, List.any_eq_true,
    KeyedTable.mem_rows, decide_eq_true_eq, and_assoc]
  refine and_congr_right fun _ => ⟨fun h => h.2, fun h => ⟨⟨u, hu, h.symm⟩, h⟩⟩

end Database

end Keycloak.Sessions.Offline
