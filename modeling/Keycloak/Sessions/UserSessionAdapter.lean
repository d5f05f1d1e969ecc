import Keycloak.Lib.Utf16
import Keycloak.Sessions.CommittedEntries

/-!
# Detaching clients from a user session

`UserSessionAdapter.removeAuthenticatedClientSessions`: the client sessions of the given clients
are queued for removal, and from five clients on the references to them are taken out of the user
session first.  The adapter's entity is usually the object that the transaction holds, so that this
task runs on it at once.
-/

namespace Keycloak.Sessions.ClientSessions

/-- `UserSessionEntity`, with the fields that its `equals`, its `toString` and the update below
use.  The client sessions are an `AuthenticatedClientSessionStore`: from the ids of clients to those
of their sessions. -/
structure UserSessionEntity (UUID : Type) where
  id : String
  realmId : String
  lastSessionRefresh : Nat
  authenticatedClientSessions : AList fun _ : String => UUID

section

variable {UUID C : Type}

instance : SessionEntity (UserSessionEntity UUID) where
  equals this that := this.id == that.id
  toText entity :=
    "UserSessionEntity [id=" ++ entity.id ++ ", realm=" ++ entity.realmId ++
      ", lastSessionRefresh=" ++ toString entity.lastSessionRefresh ++ ", clients=" ++
      toString (entity.authenticatedClientSessions.keys.mergeSort
        fun client client' => decide (Utf16.NotAfter client client')) ++ "]"

/-- The entity with the sorted ids of its clients, as `Changelog` has it. -/
def UserSessionEntity.listed (entity : UserSessionEntity UUID) : Sessions.UserSessionEntity where
  id := entity.id
  realmId := entity.realmId
  lastSessionRefresh := entity.lastSessionRefresh
  authenticatedClientSessions := entity.authenticatedClientSessions.keys.mergeSort
    fun client client' => decide (Utf16.NotAfter client client')

/-- To a transaction the entities are the same: `equals` and `toString` only see the clients. -/
theorem UserSessionEntity.listed_spec (entity other : UserSessionEntity UUID) :
    SessionEntity.equals entity.listed other.listed = SessionEntity.equals entity other ∧
      SessionEntity.toText entity.listed = SessionEntity.toText entity :=
  ⟨rfl, rfl⟩

def UserSessionEntity.clientSession (entity : UserSessionEntity UUID) (clientUUID : String) :
    Option UUID :=
  entity.authenticatedClientSessions.lookup clientUUID

def removeClients (removedClientUUIDS : List String) (entity : UserSessionEntity UUID) :
    UserSessionEntity UUID :=
  { entity with
    authenticatedClientSessions := removedClientUUIDS.foldl (fun store clientUUID =>
      store.erase clientUUID) entity.authenticatedClientSessions }

/-- The `UserSessionUpdateTask`, with the operation and the status of its superclass. -/
def removeClientsTask (removedClientUUIDS : List String) :
    SessionUpdateTask (UserSessionEntity UUID) :=
  ⟨removeClients removedClientUUIDS, fun _ => .replace, fun _ => .sync⟩

/-- `UserSessionAdapter`.  The entity is shared when it is the object that the transaction for user
sessions finds under its id, and otherwise a copy that no task runs on. -/
structure UserSessionAdapter (UUID C : Type) where
  userSessionUpdateTx : Transaction String (UserSessionEntity UUID)
  clientSessionUpdateTx : Transaction UUID C
  entity : UserSessionEntity UUID
  shared : Bool

namespace UserSessionAdapter

def Reaches (adapter : UserSessionAdapter UUID C) : Prop :=
  adapter.shared = true ∧ (adapter.userSessionUpdateTx.pending adapter.entity.id).isSome

instance (adapter : UserSessionAdapter UUID C) : Decidable adapter.Reaches :=
  inferInstanceAs (Decidable (_ ∧ _))

def update (adapter : UserSessionAdapter UUID C)
    (task : SessionUpdateTask (UserSessionEntity UUID)) : UserSessionAdapter UUID C :=
  { adapter with
    userSessionUpdateTx := adapter.userSessionUpdateTx.addTask (.onCached adapter.entity.id task)
    entity := if adapter.Reaches then task.runUpdate adapter.entity else adapter.entity }

def MINIMUM_INACTIVE_CLIENT_SESSIONS_TO_CLEANUP : Nat := 5

variable [DecidableEq UUID]

def removeAuthenticatedClientSessions (adapter : UserSessionAdapter UUID C)
    (removedClientUUIDS : Option (List String)) : UserSessionAdapter UUID C :=
  match removedClientUUIDS with
  | none => adapter
  | some [] => adapter
  | some removedClientUUIDS =>
      let adapter :=
        if MINIMUM_INACTIVE_CLIENT_SESSIONS_TO_CLEANUP ≤ removedClientUUIDS.length then
          adapter.update (removeClientsTask removedClientUUIDS)
        else adapter
      let clientSessionUuids := removedClientUUIDS.filterMap adapter.entity.clientSession
      { adapter with
        clientSessionUpdateTx := queueRemovals adapter.clientSessionUpdateTx clientSessionUuids }

/-- No client session that the user session had for one of the clients is in the cache after the
commits.  The references to other clients are the same in the adapter's entity, and in the entity
that is in the cache they are what they would be if only the transaction had been committed. -/
structure Detaches (adapter : UserSessionAdapter UUID C) (removedClientUUIDS : Option (List String))
    (userSessions : SessionCache String (UserSessionEntity UUID))
    (clientSessions : SessionCache UUID C) : Prop where
  gone : ∀ clientUUID ∈ removedClientUUIDS.getD [], ∀ id,
    adapter.entity.clientSession clientUUID = some id → clientSessions.entries id = none
  kept : ∀ clientUUID ∉ removedClientUUIDS.getD [],
    (adapter.removeAuthenticatedClientSessions removedClientUUIDS).entity.clientSession clientUUID =
      adapter.entity.clientSession clientUUID
  committed : ∀ clientUUID ∉ removedClientUUIDS.getD [], ∀ without w,
    adapter.userSessionUpdateTx.commitImpl = (without, .ok ()) →
      without.entries adapter.entity.id = some w →
        ∃ w', userSessions.entries adapter.entity.id = some w' ∧
          w'.entity.clientSession clientUUID = w.entity.clientSession clientUUID

/-- Every client session of the clients is looked up before its reference is taken out and its
removal takes effect, or is gone anyway when the transaction is committed. -/
def Detachable [SessionEntity C] (adapter : UserSessionAdapter UUID C)
    (removedClientUUIDS : Option (List String)) : Prop :=
  ∀ clientUUID ∈ removedClientUUIDS.getD [], ∀ id,
    adapter.entity.clientSession clientUUID = some id →
      ((removedClientUUIDS.getD []).length < MINIMUM_INACTIVE_CLIENT_SESSIONS_TO_CLEANUP ∨
          ¬ adapter.Reaches) ∧
          ¬ adapter.clientSessionUpdateTx.OverridesRemoval id ∨
        adapter.clientSessionUpdateTx.GoneAtCommit id

end UserSessionAdapter

/-! ## Taking references out -/

theorem clientSession_removeClients (removedClientUUIDS : List String)
    (entity : UserSessionEntity UUID) (clientUUID : String) :
    (removeClients removedClientUUIDS entity).clientSession clientUUID =
      if clientUUID ∈ removedClientUUIDS then none else entity.clientSession clientUUID := by
  unfold removeClients UserSessionEntity.clientSession
  dsimp only
  induction removedClientUUIDS generalizing entity with
  | nil => rfl
  | cons first rest ih =>
      rw [List.foldl_cons]
      have hrest := ih { entity with
        authenticatedClientSessions := entity.authenticatedClientSessions.erase first }
      rw [hrest]
      by_cases hclient : clientUUID = first
      · subst hclient
        simp
      · simp [hclient, AList.lookup_erase_ne hclient]

def DifferIn (removedClientUUIDS : List String) (entity entity' : UserSessionEntity UUID) : Prop :=
  entity'.id = entity.id ∧ ∀ clientUUID ∉ removedClientUUIDS,
    entity'.clientSession clientUUID = entity.clientSession clientUUID

theorem indifferent_differIn (removedClientUUIDS : List String) :
    Indifferent (@DifferIn UUID removedClientUUIDS) where
  refl _ := ⟨rfl, fun _ _ => rfl⟩
  self entity := beq_self_eq_true entity.id
  equals h stored := congrArg (stored.id == ·) h.1

theorem replacesBy_removeClientsTask (removedClientUUIDS : List String) :
    ReplacesBy (@DifferIn UUID removedClientUUIDS)
      (removeClientsTask removedClientUUIDS) where
  operation _ := rfl
  related entity := ⟨rfl, fun clientUUID hclient => by
    rw [removeClientsTask, clientSession_removeClients, if_neg hclient]⟩

namespace UserSessionAdapter

/-- The adapter when the references have been taken out, if there are enough of them. -/
def cleanedUp (adapter : UserSessionAdapter UUID C) (removedClientUUIDS : List String) :
    UserSessionAdapter UUID C :=
  if MINIMUM_INACTIVE_CLIENT_SESSIONS_TO_CLEANUP ≤ removedClientUUIDS.length then
    adapter.update (removeClientsTask removedClientUUIDS)
  else adapter

variable {adapter : UserSessionAdapter UUID C} {removedClientUUIDS : List String}

theorem cleanedUp_entity : (adapter.cleanedUp removedClientUUIDS).entity =
    if MINIMUM_INACTIVE_CLIENT_SESSIONS_TO_CLEANUP ≤ removedClientUUIDS.length ∧ adapter.Reaches
    then removeClients removedClientUUIDS adapter.entity else adapter.entity := by
  unfold cleanedUp
  by_cases hmany : MINIMUM_INACTIVE_CLIENT_SESSIONS_TO_CLEANUP ≤ removedClientUUIDS.length
  · simp only [hmany, if_true, true_and, update, removeClientsTask]
  · simp only [hmany, if_false, false_and]

/-- The references to other clients stay, whether or not the adapter's entity is updated. -/
theorem differIn_cleanedUp :
    DifferIn removedClientUUIDS adapter.entity (adapter.cleanedUp removedClientUUIDS).entity := by
  rw [cleanedUp_entity]
  split
  · exact (replacesBy_removeClientsTask removedClientUUIDS).related adapter.entity
  · exact (indifferent_differIn removedClientUUIDS).refl adapter.entity

/-- In the cache, too, only references to the given clients are taken out. -/
theorem committed_cleanedUp (htx : adapter.userSessionUpdateTx.Reached)
    {without userSessions : SessionCache String (UserSessionEntity UUID)}
    (hwithout : adapter.userSessionUpdateTx.commitImpl = (without, .ok ()))
    (huser : (adapter.cleanedUp removedClientUUIDS).userSessionUpdateTx.commitImpl =
      (userSessions, .ok ()))
    {w : SessionEntityWrapper (UserSessionEntity UUID)}
    (hw : without.entries adapter.entity.id = some w) :
    ∃ w', userSessions.entries adapter.entity.id = some w' ∧
      DifferIn removedClientUUIDS w.entity w'.entity := by
  unfold cleanedUp at huser
  split at huser
  · exact commitImpl_addTask_related (indifferent_differIn removedClientUUIDS)
      (replacesBy_removeClientsTask removedClientUUIDS) htx.consistent hwithout huser hw
  · cases hwithout.symm.trans huser
    exact ⟨w, hw, (indifferent_differIn removedClientUUIDS).refl w.entity⟩

variable [DecidableEq UUID]

theorem removeAuthenticatedClientSessions_some (hne : removedClientUUIDS ≠ []) :
    adapter.removeAuthenticatedClientSessions (some removedClientUUIDS) =
      { adapter.cleanedUp removedClientUUIDS with
        clientSessionUpdateTx := queueRemovals adapter.clientSessionUpdateTx
          (removedClientUUIDS.filterMap
            (adapter.cleanedUp removedClientUUIDS).entity.clientSession) } := by
  obtain ⟨first, rest, rfl⟩ := List.exists_cons_of_ne_nil hne
  unfold removeAuthenticatedClientSessions cleanedUp
  dsimp only
  split <;> rfl

variable [SessionEntity C]

/-- The removal of a client session is queued unless its reference has been taken out. -/
theorem goneAtCommit_iff {clientSessions : SessionCache UUID C}
    (hcommit : (queueRemovals adapter.clientSessionUpdateTx (removedClientUUIDS.filterMap
      (adapter.cleanedUp removedClientUUIDS).entity.clientSession)).commitImpl =
        (clientSessions, .ok ()))
    {clientUUID : String} (hclient : clientUUID ∈ removedClientUUIDS) {id : UUID}
    (hid : adapter.entity.clientSession clientUUID = some id) :
    clientSessions.entries id = none ↔
      (removedClientUUIDS.length < MINIMUM_INACTIVE_CLIENT_SESSIONS_TO_CLEANUP ∨
          ¬ adapter.Reaches) ∧
          ¬ adapter.clientSessionUpdateTx.OverridesRemoval id ∨
        adapter.clientSessionUpdateTx.GoneAtCommit id := by
  rw [commitImpl_eq_none_iff hcommit]
  by_cases htaken : MINIMUM_INACTIVE_CLIENT_SESSIONS_TO_CLEANUP ≤ removedClientUUIDS.length ∧
      adapter.Reaches
  · -- the references are gone when the client sessions are looked up
    have hnone : removedClientUUIDS.filterMap
        (adapter.cleanedUp removedClientUUIDS).entity.clientSession = [] := by
      rw [List.filterMap_eq_nil_iff]
      intro other hother
      rw [cleanedUp_entity, if_pos htaken, clientSession_removeClients, if_pos hother]
    rw [hnone, goneAtCommit_queueRemovals_of_not_mem List.not_mem_nil]
    simp [htaken.2, Nat.not_lt.mpr htaken.1]
  · have hmem : id ∈ removedClientUUIDS.filterMap
        (adapter.cleanedUp removedClientUUIDS).entity.clientSession := by
      rw [cleanedUp_entity, if_neg htaken]
      exact List.mem_filterMap.mpr ⟨clientUUID, hclient, hid⟩
    rw [goneAtCommit_queueRemovals hmem hcommit]
    rw [not_and_or, Nat.not_le] at htaken
    simp only [htaken, true_and]

/-- Clients are detached exactly when every client session of theirs is looked up before the
reference to it is taken out, or is gone anyway. -/
theorem detaches_iff {removedClientUUIDS : Option (List String)}
    {userSessions : SessionCache String (UserSessionEntity UUID)}
    {clientSessions : SessionCache UUID C} (htx : adapter.userSessionUpdateTx.Reached)
    (huser : (adapter.removeAuthenticatedClientSessions
      removedClientUUIDS).userSessionUpdateTx.commitImpl = (userSessions, .ok ()))
    (hclient : (adapter.removeAuthenticatedClientSessions
      removedClientUUIDS).clientSessionUpdateTx.commitImpl = (clientSessions, .ok ())) :
    adapter.Detaches removedClientUUIDS userSessions clientSessions ↔
      adapter.Detachable removedClientUUIDS := by
  by_cases hempty : removedClientUUIDS.getD [] = []
  · -- nothing is done
    have hsame : adapter.removeAuthenticatedClientSessions removedClientUUIDS = adapter := by
      match removedClientUUIDS, hempty with
      | none, _ => rfl
      | some [], _ => rfl
    rw [hsame] at huser
    refine ⟨fun _ => by simp [Detachable, hempty], fun _ => ⟨by simp [hempty], ?_, ?_⟩⟩
    · rw [hsame]
      exact fun _ _ => rfl
    · intro clientUUID _ without w hwithout hw
      cases hwithout.symm.trans huser
      exact ⟨w, hw, rfl⟩
  · obtain ⟨removed, rfl⟩ : ∃ removed, removedClientUUIDS = some removed := by
      cases removedClientUUIDS with
      | none => exact absurd rfl hempty
      | some removed => exact ⟨removed, rfl⟩
    rw [Option.getD_some] at hempty
    rw [removeAuthenticatedClientSessions_some hempty] at huser hclient
    constructor
    · intro h clientUUID hmem id hid
      exact (goneAtCommit_iff hclient hmem hid).mp (h.gone clientUUID hmem id hid)
    · intro h
      refine ⟨fun clientUUID hmem id hid => ?_, fun clientUUID hmem => ?_, ?_⟩
      · exact (goneAtCommit_iff hclient hmem hid).mpr (h clientUUID hmem id hid)
      · rw [removeAuthenticatedClientSessions_some hempty]
        exact differIn_cleanedUp.2 clientUUID hmem
      · intro clientUUID hmem without w hwithout hw
        obtain ⟨w', hw', hdiffer⟩ := committed_cleanedUp htx hwithout huser hw
        exact ⟨w', hw', hdiffer.2 clientUUID hmem⟩

end UserSessionAdapter

end

/-! ## Five clients -/

structure AuthenticatedClientSessionEntity where
  id : Nat
  deriving DecidableEq

instance : SessionEntity AuthenticatedClientSessionEntity where
  equals this that := this.id == that.id
  toText entity := "AuthenticatedClientSessionEntity [id=" ++ toString entity.id ++ "]"

def fiveClients : List String := ["a", "b", "c", "d", "e"]

def fiveSessions : UserSessionEntity Nat :=
  ⟨"s", "master", 10, [⟨"a", 1⟩, ⟨"b", 2⟩, ⟨"c", 3⟩, ⟨"d", 4⟩, ⟨"e", 5⟩].toAList⟩

def userSessionCache : SessionCache String (UserSessionEntity Nat) :=
  ⟨fun key => if key = "s" then some ⟨0, fiveSessions⟩ else none, 1⟩

def clientSessionCache : SessionCache Nat AuthenticatedClientSessionEntity :=
  ⟨fun key => if 1 ≤ key ∧ key ≤ 5 then some ⟨key, ⟨key⟩⟩ else none, 6⟩

def fiveAdapter : UserSessionAdapter Nat AuthenticatedClientSessionEntity :=
  ⟨((Transaction.start userSessionCache).get "s").2, Transaction.start clientSessionCache,
    fiveSessions, true⟩

theorem reached_fiveAdapter : fiveAdapter.userSessionUpdateTx.Reached :=
  .get "s" (.start userSessionCache)

theorem four_of_five_detached :
    fiveAdapter.Detaches (some ["a", "b", "c", "d"])
      (fiveAdapter.removeAuthenticatedClientSessions
        (some ["a", "b", "c", "d"])).userSessionUpdateTx.commitImpl.1
      (fiveAdapter.removeAuthenticatedClientSessions
        (some ["a", "b", "c", "d"])).clientSessionUpdateTx.commitImpl.1 := by
  refine (UserSessionAdapter.detaches_iff reached_fiveAdapter (Prod.ext rfl rfl)
    (Prod.ext rfl rfl)).mpr ?_
  intro clientUUID _ id _
  refine .inl ⟨.inl (by decide), ?_⟩
  -- no task is queued for a client session before
  rintro ⟨u, hu, hoverridden⟩
  obtain ⟨w, -, rfl⟩ := Option.map_eq_some_iff.mp hu
  cases hoverridden

/-- Five client sessions stay in the cache when their clients are detached together. -/
theorem five_not_detached :
    ¬ ∀ (adapter : UserSessionAdapter Nat AuthenticatedClientSessionEntity)
        (removedClientUUIDS : Option (List String))
        (userSessions : SessionCache String (UserSessionEntity Nat))
        (clientSessions : SessionCache Nat AuthenticatedClientSessionEntity),
      adapter.userSessionUpdateTx.Reached →
      (adapter.removeAuthenticatedClientSessions
        removedClientUUIDS).userSessionUpdateTx.commitImpl = (userSessions, .ok ()) →
      (adapter.removeAuthenticatedClientSessions
        removedClientUUIDS).clientSessionUpdateTx.commitImpl = (clientSessions, .ok ()) →
        adapter.Detaches removedClientUUIDS userSessions clientSessions := by
  intro h
  have hdetaches := h fiveAdapter (some fiveClients) _ _ reached_fiveAdapter (Prod.ext rfl rfl)
    (Prod.ext rfl rfl)
  have hgone := hdetaches.gone "a" (by decide) 1 (by decide)
  revert hgone
  decide

end Keycloak.Sessions.ClientSessions
