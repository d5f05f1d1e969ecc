import Keycloak.Lib.Machine
import Keycloak.Sessions.CacheInitializer
import Keycloak.Sessions.UserSessionPersister

/-!
# Preloading the offline sessions

When the cluster starts, `OfflinePersistentUserSessionLoader` reads the offline sessions from the
persister, a segment at a time, and imports them.  Reading a page deletes the rows of users that
are gone, so the rows behind them move to the front; the pages that are still to be read are
counted from there.
-/

namespace Keycloak.Sessions.Offline

open Expiration (UserSession)

open PersistentClientSessionEntity (columns lookedUp putAll localClient externalClient)

variable {directory : Directory} {db db' db'' : Database} {clientUUID : String}

theorem Directory.getClientById_iff {id : StorageId} {realmId : Nat} :
    directory.getClientById id realmId = true ↔
      id ∈ directory.clients ∧ directory.clientRealm id = realmId := by
  simp [getClientById]

theorem Directory.getUserById_iff {id realmId : Nat} :
    directory.getUserById id realmId = true ↔
      id ∈ directory.users ∧ directory.userRealm id = realmId := by
  simp [getUserById]

/-! ## The loader -/

def init (db : Database) (clusterStartupTime : Int) : Database :=
  db.clearDetachedUserSessions.updateAllTimestamps clusterStartupTime

/-- `OfflinePersistentUserSessionLoader.loadSessions` for one segment after the other, with the
sessions that are imported. -/
def loadSegments (directory : Directory) (loader : Initializer.Loader)
    (ctx : Initializer.LoaderContext) :
    List Nat → Database → Option (List PersistentUserSessionAdapter × Database)
  | [], db => some ([], db)
  | segment :: rest, db => do
      let (first, max) := loader.loadSessions ctx segment
      let (sessions, db) ← db.loadUserSessions directory first max
      let (others, db) ← loadSegments directory loader ctx rest db
      pure (sessions ++ others, db)

/-- The initializer loads each segment once; which node loads one, and when, is left to it. -/
def startLoading (directory : Directory) (loader : Initializer.Loader) (clusterStartupTime : Int)
    (segments : List Nat) (db : Database) :
    Option (List PersistentUserSessionAdapter × Database) :=
  let db := init db clusterStartupTime
  let ctx := loader.computeLoaderContext db.getUserSessionsCount
  if 0 < loader.sessionsPerSegment ∧ segments.Perm (List.range ctx.segmentsCount) then
    loadSegments directory loader ctx segments db
  else none

/-! ## What reading a page deletes -/

def OfLocalClient (directory : Directory) (row : PersistentClientSessionEntity) : Prop :=
  row.clientId ≠ externalClient ∧ ⟨none, row.clientId⟩ ∈ directory.clients

/-- Rows are deleted, but none of a local client that exists in a session of a user that
exists. -/
structure Thinned (directory : Directory) (db db' : Database) : Prop where
  userSessions : ∀ row ∈ db'.userSessions, row ∈ db.userSessions
  clientSessions : ∀ row ∈ db'.clientSessions, row ∈ db.clientSessions
  kept : ∀ row ∈ db.clientSessions, OfLocalClient directory row →
    (∀ u ∈ db.userSessions, u.userSessionId = row.userSessionId → u.userId ∈ directory.users) →
      row ∈ db'.clientSessions

theorem Thinned.refl (directory : Directory) (db : Database) : Thinned directory db db :=
  ⟨fun _ h => h, fun _ h => h, fun _ h _ _ => h⟩

theorem Thinned.trans (h : Thinned directory db db') (h' : Thinned directory db' db'') :
    Thinned directory db db'' :=
  ⟨fun row hrow => h.userSessions row (h'.userSessions row hrow),
    fun row hrow => h.clientSessions row (h'.clientSessions row hrow),
    fun row hrow hclient huser => h'.kept row (h.kept row hrow hclient huser) hclient
      fun u hu => huser u (h.userSessions u hu)⟩

theorem thinned_onUserRemoved {user : Nat} (hgone : user ∉ directory.users) :
    Thinned directory db (db.onUserRemoved user) where
  userSessions _ hrow := (Database.mem_userSessions_deleteSessionsBy.mp hrow).1
  clientSessions _ hrow := (Database.mem_clientSessions_deleteSessionsBy.mp hrow).1
  kept _ hrow _ huser := by
    refine Database.mem_clientSessions_deleteSessionsBy.mpr ⟨hrow, fun u hu hid => ?_⟩
    refine decide_eq_false fun heq => hgone ?_
    rw [← heq]
    exact huser u hu hid

theorem thinned_onClientRemoved
    (hgone : clientUUID ≠ externalClient → ⟨none, clientUUID⟩ ∉ directory.clients) :
    Thinned directory db (db.onClientRemoved ⟨none, clientUUID⟩) where
  userSessions _ hrow := (Database.mem_userSessions_onClientRemoved.mp hrow).1
  clientSessions _ hrow := (Database.mem_clientSessions_onClientRemoved.mp hrow).1
  kept _ hrow hclient _ := Database.mem_clientSessions_onClientRemoved.mpr
    ⟨hrow, fun heq => hgone (heq ▸ hclient.1) (heq ▸ hclient.2)⟩

theorem thinned_foldl {step : Database → String → Database} {ids : List String}
    (hstep : ∀ db, ∀ id ∈ ids, Thinned directory db (step db id)) :
    Thinned directory db (ids.foldl step db) := by
  induction ids generalizing db with
  | nil => exact .refl directory db
  | cons first rest ih =>
      have hfirst := hstep db first List.mem_cons_self
      exact hfirst.trans (ih fun db id hid => hstep db id (List.mem_cons_of_mem first hid))

def sessionsOf (db : Database) (row : PersistentUserSessionEntity) :
    List PersistentClientSessionEntity :=
  db.clientSessions.rows.filter fun sess => sess.userSessionId = row.userSessionId

structure Purged (directory : Directory) (db db' : Database) : Prop where
  rows : ∃ gone : List Nat, (∀ user ∈ gone, user ∉ directory.users) ∧
    db'.userSessions.rows = db.userSessions.rows.filter fun row => row.userId ∉ gone
  sessions : ∀ row ∈ db.userSessions, row.userId ∈ directory.users →
    sessionsOf db' row = sessionsOf db row

theorem Purged.refl (directory : Directory) (db : Database) : Purged directory db db :=
  ⟨⟨[], by simp, by simp⟩, fun _ _ _ => rfl⟩

theorem Purged.mem_iff (h : Purged directory db db') {row : PersistentUserSessionEntity}
    (huser : row.userId ∈ directory.users) : row ∈ db'.userSessions ↔ row ∈ db.userSessions := by
  obtain ⟨gone, hgone, hrows⟩ := h.rows
  rw [← KeyedTable.mem_rows, hrows, List.mem_filter, KeyedTable.mem_rows]
  exact and_iff_left (by simpa using fun hmem => hgone row.userId hmem huser)

theorem Purged.trans (h : Purged directory db db') (h' : Purged directory db' db'') :
    Purged directory db db'' := by
  obtain ⟨gone, hgone, hrows⟩ := h.rows
  obtain ⟨gone', hgone', hrows'⟩ := h'.rows
  refine ⟨⟨gone ++ gone', fun user huser => ?_, ?_⟩, fun row hrow huser => ?_⟩
  · exact (List.mem_append.mp huser).elim (hgone user) (hgone' user)
  · rw [hrows', hrows, List.filter_filter]
    refine List.filter_congr fun row _ => ?_
    by_cases h : row.userId ∈ gone <;> by_cases h' : row.userId ∈ gone' <;> simp [h, h']
  · rw [h'.sessions row ((h.mem_iff huser).mpr hrow) huser, h.sessions row hrow huser]

theorem purged_onUserRemoved {user : Nat} (hgone : user ∉ directory.users) :
    Purged directory db (db.onUserRemoved user) := by
  refine ⟨⟨[user], by simpa using hgone, ?_⟩, fun row hrow huser => ?_⟩
  · change db.userSessions.rows.filter _ = _
    simp
  · change (db.clientSessions.rows.filter _).filter _ = _
    rw [List.filter_filter, sessionsOf]
    refine List.filter_congr fun sess _ => ?_
    by_cases hid : sess.userSessionId = row.userSessionId
    · -- the row of the user session is the only one, and it is of another user
      have hkept : ∀ u ∈ db.userSessions.rows, u.userId = user →
          ¬ u.userSessionId = row.userSessionId := by
        intro u hu huser' hid'
        have hsame : u = row := KeyedTable.eq_of_key_eq hu hrow hid'
        subst hsame
        exact hgone (huser' ▸ huser)
      simpa [hid] using hkept
    · simp [hid]

theorem Purged.filter_present (h : Purged directory db db') :
    (db'.userSessions.rows.filter fun row => row.userId ∈ directory.users) =
      db.userSessions.rows.filter fun row => row.userId ∈ directory.users := by
  obtain ⟨gone, hgone, hrows⟩ := h.rows
  rw [hrows, List.filter_filter]
  refine List.filter_congr fun row _ => ?_
  by_cases huser : row.userId ∈ directory.users
  · have hnot : row.userId ∉ gone := fun hmem => hgone row.userId hmem huser
    simp [huser, hnot]
  · simp [huser]

/-! ## Loading a page -/

/-- The rows belong to the realms of their ids, and those of local clients have the constants. -/
structure RowsPlaced (directory : Directory) (db : Database) : Prop where
  userSession : ∀ row ∈ db.userSessions,
    directory.sessionRealm row.userSessionId = row.realmId ∧
      directory.userRealm row.userId = row.realmId
  clientSession : ∀ row ∈ db.clientSessions, row.clientId ≠ externalClient →
    row.clientStorageProvider = localClient ∧ row.externalClientId = localClient ∧
      directory.clientRealm ⟨none, row.clientId⟩ = directory.sessionRealm row.userSessionId

theorem RowsPlaced.of_subset (h : RowsPlaced directory db)
    (husers : ∀ row ∈ db'.userSessions, row ∈ db.userSessions)
    (hclients : ∀ row ∈ db'.clientSessions, row ∈ db.clientSessions) : RowsPlaced directory db' :=
  ⟨fun row hrow => h.userSession row (husers row hrow),
    fun row hrow => h.clientSession row (hclients row hrow)⟩

theorem RowsPlaced.of_thinned (h : RowsPlaced directory db) (hthinned : Thinned directory db db') :
    RowsPlaced directory db' :=
  h.of_subset hthinned.userSessions hthinned.clientSessions

/-- The page is read again until all of its users exist, after the rows of some that do not are
deleted. -/
theorem loadUserSessionsWithin_spec {first max bound : Nat} (hplaced : RowsPlaced directory db)
    (hbound : db.userSessions.rows.length < bound) :
    ∃ read, Purged directory db read ∧ Thinned directory db read ∧
      (∀ row ∈ read.findUserSessions first max, row.userId ∈ directory.users) ∧
      Database.loadUserSessionsWithin directory first max bound db =
        some (Database.attachClientSessions directory (read.findUserSessions first max) read) := by
  induction bound generalizing db with
  | zero => exact absurd hbound (Nat.not_lt_zero _)
  | succ bound ih =>
      rw [Database.loadUserSessionsWithin]
      cases hfind : (db.findUserSessions first max).find? fun entity =>
          !directory.getUserById entity.userId entity.realmId with
      | none =>
          refine ⟨db, .refl directory db, .refl directory db, fun row hrow => ?_, rfl⟩
          have hfound := List.find?_eq_none.mp hfind row hrow
          exact (Directory.getUserById_iff.mp (by simpa using hfound)).1
      | some entity =>
          have hentity : entity ∈ db.userSessions :=
            List.mem_of_mem_drop (List.mem_of_mem_take (List.mem_of_find?_eq_some hfind))
          have hgone : entity.userId ∉ directory.users := by
            intro hmem
            have hnot := List.find?_some hfind
            rw [Directory.getUserById_iff.mpr ⟨hmem, (hplaced.userSession entity hentity).2⟩]
              at hnot
            cases hnot
          have hthinned : Thinned directory db (db.onUserRemoved entity.userId) :=
            thinned_onUserRemoved hgone
          have hlength : (db.onUserRemoved entity.userId).userSessions.rows.length < bound := by
            have hless : (db.onUserRemoved entity.userId).userSessions.rows.length <
                db.userSessions.rows.length :=
              List.length_filter_lt_length_iff_exists.mpr ⟨entity, hentity, by simp⟩
            omega
          obtain ⟨read, hpurged, hthinned', hpage, hload⟩ :=
            ih (hplaced.of_thinned hthinned) hlength
          exact ⟨read, (purged_onUserRemoved hgone).trans hpurged, hthinned.trans hthinned',
            hpage, hload⟩

theorem RowsPlaced.lookedUp (h : RowsPlaced directory db) {row : PersistentClientSessionEntity}
    (hrow : row ∈ db.clientSessions) (hlocal : row.clientId ≠ externalClient) :
    row.lookedUp = ⟨none, row.clientId⟩ :=
  if_neg (not_not_intro (h.clientSession row hrow hlocal).2.1)

theorem attachClientSessions_spec {results : List PersistentUserSessionEntity}
    (hplaced : RowsPlaced directory db) (hresults : results.Sublist db.userSessions.rows) :
    (Database.attachClientSessions directory results db).1 = results.map (fun row =>
      ⟨row, putAll ((db.clientSessions.rows.filter fun sess =>
        sess.userSessionId = row.userSessionId).filter fun sess =>
          directory.getClientById sess.lookedUp row.realmId)⟩) ∧
    Thinned directory db (Database.attachClientSessions directory results db).2 ∧
    ((∀ row ∈ db.clientSessions, OfLocalClient directory row) →
      (Database.attachClientSessions directory results db).2 = db) := by
  have hsorted : results.Pairwise fun a b => a.userSessionId < b.userSessionId :=
    db.userSessions.sorted.sublist hresults
  have hrefs : (db.findClientSessionsByUserSessions
      (results.map PersistentUserSessionEntity.userSessionId)).Pairwise fun a b =>
        a.userSessionId ≤ b.userSessionId := by
    refine (db.clientSessions.sorted.filter _).imp fun {a b} hlt => ?_
    rcases Prod.Lex.toLex_lt_toLex.mp hlt with hless | ⟨heq, -⟩
    · exact hless.le
    · exact heq.le
  have hmem : ∀ sess ∈ db.findClientSessionsByUserSessions
      (results.map PersistentUserSessionEntity.userSessionId),
        ∃ row ∈ results, row.userSessionId = sess.userSessionId := by
    intro sess hsess
    exact List.mem_map.mp (of_decide_eq_true (List.mem_filter.mp hsess).2)
  have hattach := KeyedTable.attach_eq_map hsorted hrefs hmem
  have hown : ∀ row ∈ results, (db.findClientSessionsByUserSessions
      (results.map PersistentUserSessionEntity.userSessionId)).filter
        (fun sess => sess.userSessionId = row.userSessionId) =
      db.clientSessions.rows.filter fun sess => sess.userSessionId = row.userSessionId := by
    intro row hrow
    rw [Database.findClientSessionsByUserSessions, List.filter_filter]
    refine List.filter_congr fun sess _ => ?_
    by_cases hid : sess.userSessionId = row.userSessionId
    · simp only [hid, decide_true, Bool.true_and, decide_eq_true_eq]
      exact List.mem_map.mpr ⟨row, hrow, rfl⟩
    · simp [hid]
  have hremoved : ∀ client ∈ ((KeyedTable.attach PersistentUserSessionEntity.userSessionId
      PersistentClientSessionEntity.userSessionId results (db.findClientSessionsByUserSessions
        (results.map PersistentUserSessionEntity.userSessionId))).flatMap fun e =>
          (e.2.filter fun sess => !directory.getClientById sess.lookedUp e.1.realmId).map
            PersistentClientSessionEntity.clientId).dedup,
      (client ≠ externalClient → ⟨none, client⟩ ∉ directory.clients) ∧
        ∃ sess ∈ db.clientSessions, sess.clientId = client := by
    intro client hclient
    rw [List.mem_dedup, hattach, List.flatMap_map, List.mem_flatMap] at hclient
    obtain ⟨row, hrow, hclient⟩ := hclient
    obtain ⟨sess, hsess, rfl⟩ := List.mem_map.mp hclient
    rw [hown row hrow] at hsess
    obtain ⟨hsess, hnot⟩ := List.mem_filter.mp hsess
    obtain ⟨hsess, hid⟩ := List.mem_filter.mp hsess
    refine ⟨fun hlocal hin => ?_, sess, hsess, rfl⟩
    have hrealm : directory.clientRealm ⟨none, sess.clientId⟩ = row.realmId := by
      rw [(hplaced.clientSession sess hsess hlocal).2.2, of_decide_eq_true hid]
      exact (hplaced.userSession row (hresults.subset hrow)).1
    rw [hplaced.lookedUp hsess hlocal, Directory.getClientById_iff.mpr ⟨hin, hrealm⟩] at hnot
    cases hnot
  refine ⟨?_, thinned_foldl fun db client hclient =>
    thinned_onClientRemoved (hremoved client hclient).1, fun hall => ?_⟩
  · rw [Database.attachClientSessions]
    dsimp only
    rw [hattach, List.map_map]
    refine List.map_congr_left fun row hrow => ?_
    simp only [Function.comp_apply, hown row hrow]
  · have hnone := List.eq_nil_iff_forall_not_mem.mpr fun client hclient => by
      obtain ⟨hgone, sess, hsess, rfl⟩ := hremoved client hclient
      exact hgone (hall sess hsess).1 (hall sess hsess).2
    rw [Database.attachClientSessions]
    dsimp only
    rw [hnone, List.foldl_nil]

/-! ## Loading the segments -/

/-- The session of a row of the table, of a user that exists, with client sessions that are rows
of it and whose clients are found. -/
structure Sound (directory : Directory) (db : Database) (adapter : PersistentUserSessionAdapter) :
    Prop where
  row : adapter.entity ∈ db.userSessions
  user : adapter.entity.userId ∈ directory.users
  clientRows : ∀ sess ∈ adapter.authenticatedClientSessions, sess ∈ db.clientSessions ∧
    sess.userSessionId = adapter.entity.userSessionId ∧ sess.lookedUp ∈ directory.clients

theorem Sound.of_thinned {adapter : PersistentUserSessionAdapter} (h : Sound directory db' adapter)
    (hthinned : Thinned directory db db') : Sound directory db adapter where
  row := hthinned.userSessions _ h.row
  user := h.user
  clientRows sess hsess := by
    obtain ⟨hrow, hrest⟩ := h.clientRows sess hsess
    exact ⟨hthinned.clientSessions sess hrow, hrest⟩

def adapterOf (db : Database) (row : PersistentUserSessionEntity) : PersistentUserSessionAdapter :=
  ⟨row, sessionsOf db row⟩

theorem Purged.adapterOf_eq (h : Purged directory db db') {row : PersistentUserSessionEntity}
    (hrow : row ∈ db'.userSessions) (huser : row.userId ∈ directory.users) :
    adapterOf db' row = adapterOf db row :=
  congrArg (PersistentUserSessionAdapter.mk row)
    (h.sessions row ((h.mem_iff huser).mp hrow) huser)

theorem mem_of_mem_putAll {clientSessions : List PersistentClientSessionEntity}
    {sess : PersistentClientSessionEntity} (h : sess ∈ putAll clientSessions) :
    sess ∈ clientSessions := by
  induction clientSessions using List.reverseRecOn with
  | nil => cases h
  | append_singleton rest last ih =>
      rw [putAll, List.foldl_append, List.foldl_cons, List.foldl_nil] at h
      rcases List.mem_append.mp h with hin | hin
      · exact List.mem_append_left _ (ih (List.mem_of_mem_filter hin))
      · exact List.mem_append_right _ hin

theorem putAll_eq_self {clientSessions : List PersistentClientSessionEntity}
    (h : (clientSessions.map (·.clientId)).Nodup) : putAll clientSessions = clientSessions := by
  induction clientSessions using List.reverseRecOn with
  | nil => rfl
  | append_singleton rest last ih =>
      rw [List.map_append, List.map_singleton, List.nodup_append] at h
      have hrest : rest.filter (fun other => other.clientId ≠ last.clientId) = rest :=
        List.filter_eq_self.mpr fun other hother => decide_eq_true
          (h.2.2 _ (List.mem_map_of_mem hother) _ (List.mem_singleton_self _))
      rw [putAll, List.foldl_append, List.foldl_cons, List.foldl_nil]
      exact congrArg (· ++ [last]) ((congrArg _ (ih h.1)).trans hrest)

theorem putAll_sessionsOf (hplaced : RowsPlaced directory db)
    (hlocal : ∀ sess ∈ db.clientSessions, sess.clientId ≠ externalClient)
    (row : PersistentUserSessionEntity) : putAll (sessionsOf db row) = sessionsOf db row := by
  refine putAll_eq_self (List.pairwise_map.mpr ?_)
  refine (db.clientSessions.sorted.filter _).imp_of_mem fun {a b} ha hb hlt heq => ?_
  obtain ⟨ha, hida⟩ := List.mem_filter.mp ha
  obtain ⟨hb, hidb⟩ := List.mem_filter.mp hb
  obtain ⟨hprovider, hexternal, -⟩ := hplaced.clientSession a ha (hlocal a ha)
  obtain ⟨hprovider', hexternal', -⟩ := hplaced.clientSession b hb (hlocal b hb)
  refine hlt.ne ?_
  rw [PersistentClientSessionEntity.key, PersistentClientSessionEntity.key,
    of_decide_eq_true hida, of_decide_eq_true hidb, heq, hprovider, hexternal, hprovider',
    hexternal']

theorem mem_of_mem_page {size k : Nat} {row : PersistentUserSessionEntity}
    (h : row ∈ Pages.page size k db.userSessions.rows) : row ∈ db.userSessions :=
  List.mem_of_mem_drop (List.mem_of_mem_take h)

/-- What is read is the page as it is after the rows of some users were deleted. -/
theorem loadUserSessions_spec (first max : Nat) (hplaced : RowsPlaced directory db) :
    ∃ read sessions t, db.loadUserSessions directory first max = some (sessions, t) ∧
      Purged directory db read ∧ Thinned directory db t ∧
      (∀ row ∈ read.findUserSessions first max, row.userId ∈ directory.users) ∧
      (∀ adapter ∈ sessions, Sound directory db adapter) ∧
      ((∀ sess ∈ db.clientSessions, OfLocalClient directory sess) →
        t = read ∧ sessions = (read.findUserSessions first max).map (adapterOf read)) := by
  obtain ⟨read, hpurged, hthinned, hpage, hload⟩ := loadUserSessionsWithin_spec hplaced
    (Nat.lt_succ_self db.getUserSessionsCount)
  have hsublist : (read.findUserSessions first max).Sublist read.userSessions.rows :=
    (List.take_sublist _ _).trans (List.drop_sublist _ _)
  have hplaced' := hplaced.of_thinned hthinned
  obtain ⟨hadapters, hthinned', hsame⟩ := attachClientSessions_spec hplaced' hsublist
  generalize Database.attachClientSessions directory (read.findUserSessions first max) read =
    attached at hload hadapters hthinned' hsame
  obtain ⟨sessions, t⟩ := attached
  dsimp only at hadapters hthinned' hsame
  refine ⟨read, sessions, t, hload, hpurged, hthinned.trans hthinned', hpage,
    fun adapter hadapter => ?_, fun hall => ⟨?_, ?_⟩⟩
  · rw [hadapters] at hadapter
    obtain ⟨row, hrow, rfl⟩ := List.mem_map.mp hadapter
    have hsound : Sound directory read ⟨row, putAll ((read.clientSessions.rows.filter fun sess =>
        sess.userSessionId = row.userSessionId).filter fun sess =>
          directory.getClientById sess.lookedUp row.realmId)⟩ := by
      refine ⟨hsublist.subset hrow, hpage row hrow, fun sess hsess => ?_⟩
      obtain ⟨hsess, hfound⟩ := List.mem_filter.mp (mem_of_mem_putAll hsess)
      obtain ⟨hsess, hid⟩ := List.mem_filter.mp hsess
      exact ⟨hsess, of_decide_eq_true hid, (Directory.getClientById_iff.mp hfound).1⟩
    exact hsound.of_thinned hthinned
  · exact hsame fun sess hsess => hall sess (hthinned.clientSessions sess hsess)
  · rw [hadapters]
    refine List.map_congr_left fun row hrow => ?_
    -- the clients of the rows exist, and they are of the realm
    have hfound : ∀ sess ∈ sessionsOf read row,
        directory.getClientById sess.lookedUp row.realmId = true := by
      intro sess hsess
      obtain ⟨hsess, hid⟩ := List.mem_filter.mp hsess
      obtain ⟨hlocal, hin⟩ := hall sess (hthinned.clientSessions sess hsess)
      rw [hplaced'.lookedUp hsess hlocal]
      refine Directory.getClientById_iff.mpr ⟨hin, ?_⟩
      rw [(hplaced'.clientSession sess hsess hlocal).2.2, of_decide_eq_true hid]
      exact (hplaced'.userSession row (hsublist.subset hrow)).1
    refine congrArg (PersistentUserSessionAdapter.mk row)
      ((congrArg putAll (List.filter_eq_self.mpr hfound)).trans ?_)
    exact putAll_sessionsOf hplaced'
      (fun sess hsess => (hall sess (hthinned.clientSessions sess hsess)).1) row

theorem loadSegments_cons {loader : Initializer.Loader} {ctx : Initializer.LoaderContext}
    {segment : Nat} {rest : List Nat} {sessions others : List PersistentUserSessionAdapter}
    (hload : db.loadUserSessions directory (loader.loadSessions ctx segment).1
      (loader.loadSessions ctx segment).2 = some (sessions, db'))
    (hrest : loadSegments directory loader ctx rest db' = some (others, db'')) :
    loadSegments directory loader ctx (segment :: rest) db = some (sessions ++ others, db'') := by
  change (db.loadUserSessions directory (loader.loadSessions ctx segment).1
    (loader.loadSessions ctx segment).2).bind _ = _
  rw [hload, Option.bind_some]
  change (loadSegments directory loader ctx rest db').bind _ = _
  rw [hrest]
  rfl

/-- Whatever the order of the segments, the loading ends, and what is loaded is in the tables. -/
theorem loadSegments_sound (loader : Initializer.Loader) (ctx : Initializer.LoaderContext)
    (segments : List Nat) (hplaced : RowsPlaced directory db) :
    ∃ loaded t, loadSegments directory loader ctx segments db = some (loaded, t) ∧
      Thinned directory db t ∧ ∀ adapter ∈ loaded, Sound directory db adapter := by
  induction segments generalizing db with
  | nil => exact ⟨[], db, rfl, .refl directory db, by simp⟩
  | cons segment rest ih =>
      obtain ⟨-, sessions, m, hm, -, hthinned, -, hsound, -⟩ := loadUserSessions_spec
        (loader.loadSessions ctx segment).1 (loader.loadSessions ctx segment).2 hplaced
      obtain ⟨others, t, ht, hthinned', hsound'⟩ := ih (hplaced.of_thinned hthinned)
      refine ⟨sessions ++ others, t, ?_, hthinned.trans hthinned', fun adapter hadapter => ?_⟩
      · exact loadSegments_cons hm ht
      · rcases List.mem_append.mp hadapter with hin | hin
        · exact hsound adapter hin
        · exact (hsound' adapter hin).of_thinned hthinned

/-! ## Every session once -/

/-- Pages that were read stay as they are, when no row of a user that is gone is in front of them:
there is none at all, or the pages are read in their order. -/
theorem page_of_purged {size n k : Nat} {done rest : List Nat} (hsize : 0 < size)
    (hpurged : Purged directory db db')
    (horder : (∀ row ∈ db.userSessions, row.userId ∈ directory.users) ∨
      done ++ k :: rest = List.range n)
    (hdone : ∀ j ∈ done, ∀ row ∈ Pages.page size j db.userSessions.rows,
      row.userId ∈ directory.users) :
    ∀ j ∈ done, Pages.page size j db'.userSessions.rows =
      Pages.page size j db.userSessions.rows := by
  intro j hj
  obtain ⟨gone, hgone, hrows⟩ := hpurged.rows
  rw [hrows]
  rcases horder with hpresent | hrange
  · congr 1
    refine List.filter_eq_self.mpr fun row hrow => ?_
    simpa using fun hmem => hgone row.userId hmem (hpresent row hrow)
  · have hsorted : (done ++ k :: rest).Pairwise (· < ·) := hrange ▸ List.pairwise_lt_range
    obtain ⟨-, htodo, hbefore⟩ := List.pairwise_append.mp hsorted
    refine Pages.page_filter hsize (fun i hi row hrow => ?_) (hbefore j hj k List.mem_cons_self)
    have hk : k < n := by
      rw [← List.mem_range, ← hrange]
      simp
    have hmem : i ∈ done ++ k :: rest := by
      rw [hrange, List.mem_range]
      exact hi.trans hk
    have hidone : i ∈ done := by
      rcases List.mem_append.mp hmem with h | h
      · exact h
      · rcases List.mem_cons.mp h with rfl | h
        · exact absurd hi (Nat.lt_irrefl i)
        · exact absurd (List.rel_of_pairwise_cons htodo h) (Nat.lt_asymm hi)
    simpa using fun hmem => hgone row.userId hmem (hdone i hidone row hrow)

theorem loadSegments_exact {loader : Initializer.Loader} (total : Nat) {n : Nat}
    {done todo : List Nat} (hsize : 0 < loader.sessionsPerSegment)
    (hplaced : RowsPlaced directory db)
    (hall : ∀ sess ∈ db.clientSessions, OfLocalClient directory sess)
    (horder : (∀ row ∈ db.userSessions, row.userId ∈ directory.users) ∨
      done ++ todo = List.range n)
    (hdone : ∀ j ∈ done, ∀ row ∈ Pages.page loader.sessionsPerSegment j db.userSessions.rows,
      row.userId ∈ directory.users) :
    ∃ t, loadSegments directory loader (loader.computeLoaderContext total) todo db =
        some (todo.flatMap fun j =>
          (Pages.page loader.sessionsPerSegment j t.userSessions.rows).map (adapterOf db), t) ∧
      Purged directory db t ∧
      (∀ j ∈ done, Pages.page loader.sessionsPerSegment j t.userSessions.rows =
        Pages.page loader.sessionsPerSegment j db.userSessions.rows) ∧
      ∀ j ∈ done ++ todo, ∀ row ∈ Pages.page loader.sessionsPerSegment j t.userSessions.rows,
        row.userId ∈ directory.users := by
  induction todo generalizing db done with
  | nil =>
      refine ⟨db, rfl, .refl directory db, fun _ _ => rfl, ?_⟩
      rw [List.append_nil]
      exact hdone
  | cons k rest ih =>
      obtain ⟨m, sessions, m', hm, hpurged, hthinned, hpresent, -, hexact⟩ :=
        loadUserSessions_spec (loader.sessionsPerSegment * k) loader.sessionsPerSegment hplaced
      obtain ⟨rfl, hsessions⟩ := hexact hall
      have hpage : m'.findUserSessions (loader.sessionsPerSegment * k) loader.sessionsPerSegment =
          Pages.page loader.sessionsPerSegment k m'.userSessions.rows := by
        rw [Pages.page, Nat.mul_comm]
        rfl
      rw [hpage] at hpresent hsessions
      have hsame := page_of_purged hsize hpurged horder hdone
      have hdone' : ∀ j ∈ done ++ [k],
          ∀ row ∈ Pages.page loader.sessionsPerSegment j m'.userSessions.rows,
            row.userId ∈ directory.users := by
        intro j hj row hrow
        rcases List.mem_append.mp hj with hj | hj
        · rw [hsame j hj] at hrow
          exact hdone j hj row hrow
        · rw [List.mem_singleton] at hj
          subst hj
          exact hpresent row hrow
      have horder' : (∀ row ∈ m'.userSessions, row.userId ∈ directory.users) ∨
          (done ++ [k]) ++ rest = List.range n := by
        rw [List.append_assoc]
        exact horder.imp_left fun h row hrow => h row (hthinned.userSessions row hrow)
      obtain ⟨t, ht, hpurged', hkept, hpages⟩ := ih (hplaced.of_thinned hthinned)
        (fun sess hsess => hall sess (hthinned.clientSessions sess hsess)) horder' hdone'
      rw [List.append_assoc] at hpages
      refine ⟨t, ?_, hpurged.trans hpurged', fun j hj => ?_, hpages⟩
      · have hfirst : (Pages.page loader.sessionsPerSegment k t.userSessions.rows).map
            (adapterOf db) = sessions := by
          rw [hkept k (by simp), hsessions]
          refine List.map_congr_left fun row hrow => ?_
          exact (hpurged.adapterOf_eq (mem_of_mem_page hrow) (hpresent row hrow)).symm
        have hothers : rest.flatMap (fun j =>
            (Pages.page loader.sessionsPerSegment j t.userSessions.rows).map (adapterOf db)) =
              rest.flatMap fun j =>
                (Pages.page loader.sessionsPerSegment j t.userSessions.rows).map
                  (adapterOf m') := by
          refine List.flatMap_congr fun j hj => List.map_congr_left fun row hrow => ?_
          have huser := hpages j (by simp [hj]) row hrow
          have hrow' := (hpurged'.mem_iff huser).mp (mem_of_mem_page hrow)
          exact (hpurged.adapterOf_eq hrow' huser).symm
        rw [List.flatMap_cons, hfirst, hothers]
        exact loadSegments_cons hm ht
      · rw [hkept j (List.mem_append_left [k] hj), hsame j hj]

/-! ## Runs of the persister -/

inductive PersisterLabel where
  | createUserSession (userSession : UserSession)
  | createClientSession (userSessionId : Nat) (client : StorageId) (timestamp : Int)
  | removeUserSession (userSessionId : Nat)
  | removeClientSession (userSessionId : Nat) (clientUUID : StorageId)
  | onRealmRemoved (realmId : Nat)
  | onUserRemoved (userId : Nat)
  | onClientRemoved (clientUUID : StorageId)
  | init (clusterStartupTime : Int)
  /-- With the users and the clients that exist at the time. -/
  | loadUserSessions (users : List Nat) (clients : List StorageId) (firstResult maxResults : Nat)

/-- A session is made in the realm of its user, and a client session with a client of it. -/
def persisterStep (directory : Directory) (db : Database) : PersisterLabel → Option Database
  | .createUserSession userSession =>
      if directory.sessionRealm userSession.id = userSession.realmId ∧
          directory.userRealm userSession.user = userSession.realmId then
        db.createUserSession userSession
      else none
  | .createClientSession userSessionId client timestamp =>
      if directory.clientRealm client = directory.sessionRealm userSessionId then
        db.createClientSession userSessionId client timestamp
      else none
  | .removeUserSession userSessionId => some (db.removeUserSession userSessionId)
  | .removeClientSession userSessionId clientUUID =>
      some (db.removeClientSession userSessionId clientUUID)
  | .onRealmRemoved realmId => some (db.onRealmRemoved realmId)
  | .onUserRemoved userId => some (db.onUserRemoved userId)
  | .onClientRemoved clientUUID => some (db.onClientRemoved clientUUID)
  | .init clusterStartupTime => some (init db clusterStartupTime)
  | .loadUserSessions users clients firstResult maxResults =>
      (db.loadUserSessions { directory with users, clients } firstResult maxResults).map Prod.snd

theorem mem_userSessions_init {time : Int} {row : PersistentUserSessionEntity} :
    row ∈ (init db time).userSessions ↔ ∃ old ∈ db.userSessions,
      (∃ c ∈ db.clientSessions, c.userSessionId = old.userSessionId) ∧
        { old with lastSessionRefresh := time } = row := by
  have hupdate : row ∈ (init db time).userSessions ↔
      ∃ old ∈ db.clearDetachedUserSessions.userSessions,
        { old with lastSessionRefresh := time } = row :=
    List.mem_map
  simp only [hupdate, Database.mem_userSessions_clearDetachedUserSessions, and_assoc]

theorem mem_clientSessions_init {time : Int} {row : PersistentClientSessionEntity} :
    row ∈ (init db time).clientSessions ↔ ∃ old ∈ db.clientSessions,
      db.HasUserSession old.userSessionId ∧ { old with timestamp := time } = row := by
  have hupdate : row ∈ (init db time).clientSessions ↔
      ∃ old ∈ db.clearDetachedUserSessions.clientSessions, { old with timestamp := time } = row :=
    List.mem_map
  simp only [hupdate, Database.mem_clientSessions_clearDetachedUserSessions, and_assoc]

theorem placed_init (hplaced : RowsPlaced directory db) (time : Int) :
    RowsPlaced directory (init db time) := by
  refine ⟨fun row hrow => ?_, fun row hrow => ?_⟩
  · obtain ⟨old, hold, -, rfl⟩ := mem_userSessions_init.mp hrow
    exact hplaced.userSession old hold
  · obtain ⟨old, hold, -, rfl⟩ := mem_clientSessions_init.mp hrow
    exact hplaced.clientSession old hold

theorem placed_step {a : PersisterLabel} (hplaced : RowsPlaced directory db)
    (h : persisterStep directory db a = some db') : RowsPlaced directory db' := by
  cases a with
  | createUserSession userSession =>
      rw [persisterStep] at h
      split at h
      · rename_i hguard
        obtain ⟨-, hclients, hrows⟩ := Database.createUserSession_eq_some h
        refine ⟨fun row hrow => ?_, fun row hrow => ?_⟩
        · rcases (hrows row).mp hrow with rfl | hold
          · exact hguard
          · exact hplaced.userSession row hold
        · exact hplaced.clientSession row (hclients ▸ hrow)
      · cases h
  | createClientSession userSessionId client timestamp =>
      rw [persisterStep] at h
      split at h
      · rename_i hguard
        obtain ⟨-, husers, hrows⟩ := Database.createClientSession_eq_some h
        refine ⟨fun row hrow => ?_, fun row hrow => ?_⟩
        · exact hplaced.userSession row (husers ▸ hrow)
        · rcases (hrows row).mp hrow with rfl | hold
          · intro hlocal
            obtain ⟨providerId, externalId⟩ := client
            cases providerId with
            | none => exact ⟨rfl, rfl, hguard⟩
            | some providerId => exact absurd rfl hlocal
          · exact hplaced.clientSession row hold
      · cases h
  | removeUserSession userSessionId =>
      cases h
      exact hplaced.of_subset
        (fun row hrow => (Database.mem_userSessions_removeUserSession.mp hrow).1)
        fun row hrow => (Database.mem_clientSessions_removeUserSession.mp hrow).1
  | removeClientSession userSessionId clientId =>
      cases h
      exact hplaced.of_subset
        (fun row hrow => (Database.mem_userSessions_removeClientSession.mp hrow).1)
        fun row hrow => (Database.mem_clientSessions_removeClientSession.mp hrow).1
  | onRealmRemoved realmId =>
      cases h
      exact hplaced.of_subset
        (fun row hrow => (Database.mem_userSessions_deleteSessionsBy.mp hrow).1)
        fun row hrow => (Database.mem_clientSessions_deleteSessionsBy.mp hrow).1
  | onUserRemoved userId =>
      cases h
      exact hplaced.of_subset
        (fun row hrow => (Database.mem_userSessions_deleteSessionsBy.mp hrow).1)
        fun row hrow => (Database.mem_clientSessions_deleteSessionsBy.mp hrow).1
  | onClientRemoved clientId =>
      cases h
      exact hplaced.of_subset
        (fun row hrow => (Database.mem_userSessions_onClientRemoved.mp hrow).1)
        fun row hrow => Database.mem_of_mem_onClientRemoved hrow
  | init time =>
      cases h
      exact placed_init hplaced time
  | loadUserSessions users clients first max =>
      obtain ⟨-, sessions, t, ht, -, hthinned, -⟩ :=
        @loadUserSessions_spec { directory with users, clients } db first max
          ⟨hplaced.userSession, hplaced.clientSession⟩
      rw [persisterStep, ht] at h
      cases h
      exact hplaced.of_subset hthinned.userSessions hthinned.clientSessions

theorem placed_run {labels : List PersisterLabel}
    (hrun : Machine.run (persisterStep directory) .empty labels = some db) :
    RowsPlaced directory db :=
  Machine.run_invariant (fun _ _ _ hplaced _ hstep => placed_step hplaced hstep)
    ⟨fun _ hrow => absurd hrow KeyedTable.not_mem_empty,
      fun _ hrow => absurd hrow KeyedTable.not_mem_empty⟩
    (Machine.meets_true (persisterStep directory) .empty labels) hrun

/-! ## The start of the cluster -/

theorem startLoading_eq {loader : Initializer.Loader} {time : Int} {segments : List Nat}
    (hsize : 0 < loader.sessionsPerSegment)
    (hsegments : segments.Perm (List.range (loader.computeLoaderContext
      (init db time).getUserSessionsCount).segmentsCount)) :
    startLoading directory loader time segments db = loadSegments directory loader
      (loader.computeLoaderContext (init db time).getUserSessionsCount) segments (init db time) :=
  if_pos ⟨hsize, hsegments⟩

/-- The segments are enough for the sessions that were counted. -/
theorem le_segmentsCount_mul {loader : Initializer.Loader} {total : Nat}
    (hsize : 0 < loader.sessionsPerSegment) :
    total ≤ (loader.computeLoaderContext total).segmentsCount * loader.sessionsPerSegment := by
  refine Nat.le_of_not_lt fun hlt => ?_
  have hless := Initializer.div_lt_segmentsCount hsize hlt
  rw [Nat.mul_div_cancel _ hsize] at hless
  exact Nat.lt_irrefl _ hless

/-- After every run of the persister the loading ends, whatever the order of the segments; what
is loaded are sessions in the tables of users that exist, and no row of a local client that exists
in such a session is deleted. -/
theorem preload_sound {labels : List PersisterLabel} {loader : Initializer.Loader} {time : Int}
    {segments : List Nat}
    (hrun : Machine.run (persisterStep directory) .empty labels = some db)
    (hsize : 0 < loader.sessionsPerSegment)
    (hsegments : segments.Perm (List.range (loader.computeLoaderContext
      (init db time).getUserSessionsCount).segmentsCount)) :
    ∃ loaded t, startLoading directory loader time segments db = some (loaded, t) ∧
      Thinned directory (init db time) t ∧
      ∀ adapter ∈ loaded, Sound directory (init db time) adapter := by
  obtain ⟨loaded, t, hload, hkept⟩ := loadSegments_sound loader
    (loader.computeLoaderContext (init db time).getUserSessionsCount) segments
    (placed_init (placed_run hrun) time)
  exact ⟨loaded, t, (startLoading_eq hsize hsegments).trans hload, hkept⟩

/-- When the clients of all rows are local and exist, and either all users exist or the segments are loaded in
their order, each session of a user that exists is loaded once, with all of its client sessions,
and the rows of the other users are deleted. -/
theorem preload_exact {labels : List PersisterLabel} {loader : Initializer.Loader} {time : Int}
    {segments : List Nat}
    (hrun : Machine.run (persisterStep directory) .empty labels = some db)
    (hclients : ∀ sess ∈ db.clientSessions, OfLocalClient directory sess)
    (horder : (∀ row ∈ db.userSessions, row.userId ∈ directory.users) ∨
      segments = List.range segments.length)
    (hsize : 0 < loader.sessionsPerSegment)
    (hsegments : segments.Perm (List.range (loader.computeLoaderContext
      (init db time).getUserSessionsCount).segmentsCount)) :
    ∃ loaded t, startLoading directory loader time segments db = some (loaded, t) ∧
      t.userSessions.rows =
        (init db time).userSessions.rows.filter (fun row => row.userId ∈ directory.users) ∧
      loaded.Perm (t.userSessions.rows.map (adapterOf (init db time))) := by
  have hclients' : ∀ sess ∈ (init db time).clientSessions, OfLocalClient directory sess := by
    intro sess hsess
    obtain ⟨old, hold, -, rfl⟩ := mem_clientSessions_init.mp hsess
    exact hclients old hold
  have horder' : (∀ row ∈ (init db time).userSessions, row.userId ∈ directory.users) ∨
      [] ++ segments = List.range segments.length := by
    refine horder.imp_left fun husers row hrow => ?_
    obtain ⟨old, hold, -, rfl⟩ := mem_userSessions_init.mp hrow
    exact husers old hold
  obtain ⟨t, hload, hpurged, -, hpages⟩ := loadSegments_exact
    (init db time).getUserSessionsCount hsize (placed_init (placed_run hrun) time) hclients'
    horder' (by simp)
  have hlength : t.userSessions.rows.length ≤ (init db time).getUserSessionsCount := by
    obtain ⟨gone, -, hrows⟩ := hpurged.rows
    rw [hrows]
    exact List.length_filter_le _ _
  have hpresent : ∀ row ∈ t.userSessions.rows, row.userId ∈ directory.users := by
    intro row hrow
    obtain ⟨i, hi⟩ := List.mem_iff_getElem?.mp hrow
    have hlt : i < (init db time).getUserSessionsCount :=
      (List.getElem?_eq_some_iff.mp hi).1.trans_le hlength
    have hsegment : i / loader.sessionsPerSegment ∈ segments :=
      hsegments.mem_iff.mpr (List.mem_range.mpr (Initializer.div_lt_segmentsCount hsize hlt))
    exact hpages _ (by simpa using hsegment) row ((Pages.mem_page hsize).mpr ⟨i, rfl, hi⟩)
  have hcount := hlength.trans (le_segmentsCount_mul hsize)
  refine ⟨_, t, (startLoading_eq hsize hsegments).trans hload, ?_, ?_⟩
  · rw [← hpurged.filter_present]
    exact (List.filter_eq_self.mpr fun row hrow => decide_eq_true (hpresent row hrow)).symm
  · refine (hsegments.flatMap_right _).trans (List.Perm.of_eq ?_)
    rw [← List.map_flatMap, Pages.flatMap_page_range, List.take_of_length_le hcount]

/-! A user is gone, and the segments are not loaded in their order: the rows move while the pages
are read. -/

def smallDirectory : Directory where
  userRealm _ := 0
  clientRealm _ := 0
  sessionRealm _ := 0
  users := [1]
  clients := [⟨none, "app"⟩]

def smallSession (id user : Nat) : UserSession where
  id := id
  realmId := 0
  user := user
  brokerSessionId := none
  brokerUserId := none
  started := 0
  lastSessionRefresh := 0
  authenticatedClientSessions := []

def persisting : List PersisterLabel :=
  [.createUserSession (smallSession 1 9), .createClientSession 1 ⟨none, "app"⟩ 0,
    .createUserSession (smallSession 2 1), .createClientSession 2 ⟨none, "app"⟩ 0,
    .createUserSession (smallSession 3 1), .createClientSession 3 ⟨none, "app"⟩ 0]

def persisted : Database :=
  (Machine.run (persisterStep smallDirectory) .empty persisting).get (by decide +kernel)

theorem run_persisting :
    Machine.run (persisterStep smallDirectory) .empty persisting = some persisted :=
  (Option.some_get _).symm

theorem preload_sound_unordered : ∃ loaded t,
    startLoading smallDirectory ⟨1⟩ 5 [1, 0, 2] persisted = some (loaded, t) ∧
      ∀ adapter ∈ loaded, adapter.entity.userId ∈ smallDirectory.users := by
  obtain ⟨loaded, t, hload, -, hsound⟩ := @preload_sound smallDirectory persisted persisting ⟨1⟩ 5
    [1, 0, 2] run_persisting (by decide +kernel) (by decide +kernel)
  exact ⟨loaded, t, hload, fun adapter hadapter => (hsound adapter hadapter).user⟩

/-- The session 2 is loaded twice, and the session 3 is not loaded. -/
example : (startLoading smallDirectory ⟨1⟩ 5 [1, 0, 2] persisted).map (fun result =>
    result.1.map fun adapter => adapter.entity.userSessionId) = some [2, 2] := by
  decide +kernel

theorem preload_exact_ordered : ∃ loaded t,
    startLoading smallDirectory ⟨1⟩ 5 [0, 1, 2] persisted = some (loaded, t) ∧
      loaded.Perm [⟨⟨2, 0, 1, 5, none, none, 0⟩, [⟨2, "app", "local", "local", 5⟩]⟩,
        ⟨⟨3, 0, 1, 5, none, none, 0⟩, [⟨3, "app", "local", "local", 5⟩]⟩] := by
  have hclients : ∀ sess ∈ persisted.clientSessions.rows,
      sess.clientId ≠ externalClient ∧ ⟨none, sess.clientId⟩ ∈ smallDirectory.clients := by
    decide +kernel
  obtain ⟨loaded, t, hload, hrows, hperm⟩ := @preload_exact smallDirectory persisted persisting ⟨1⟩
    5 [0, 1, 2] run_persisting hclients (.inr rfl) (by decide +kernel) (by decide +kernel)
  refine ⟨loaded, t, hload, hperm.trans (List.Perm.of_eq ?_)⟩
  rw [hrows]
  decide +kernel

/-- A session whose one client is in a client storage is loaded without it, and its rows go. -/
example :
    let directory := { smallDirectory with clients := [⟨some "ldap", "app"⟩] }
    ((Machine.run (persisterStep directory) .empty
        [.createUserSession (smallSession 1 1), .createClientSession 1 ⟨some "ldap", "app"⟩ 0]).bind
      (startLoading directory ⟨1⟩ 5 [0])).map (fun result =>
        (result.1.map fun adapter => adapter.authenticatedClientSessions,
          result.2.getUserSessionsCount)) = some ([[]], 0) := by
  decide +kernel

end Keycloak.Sessions.Offline
