import Keycloak.Sessions.KeycloakTransaction

/-!
# Tabs of one root authentication session

Transactions on one root authentication session.  Each reads a private copy of the whole
entity, changes tabs in it, and replaces the cached entity by its copy when it commits.

Each tab belongs to one transaction, the only one that creates or changes it.
-/

namespace Keycloak.Sessions.RootAuthenticationSession

open Machine KeycloakTransaction

inductive ExecutionStatus where
  | failed
  | success
  | setupRequired
  | attempted
  | skipped
  | challenged
  deriving DecidableEq, Repr

/-- The auth notes are null until the first one is set. -/
structure AuthenticationSessionEntity where
  clientUUID : String
  executionStatus : String → Option ExecutionStatus
  authNotes : Option (String → Option String)

structure RootAuthenticationSessionEntity where
  timestamp : Nat
  authenticationSessions : String → Option AuthenticationSessionEntity

inductive Setter where
  | setAuthNote (name value : Option String)
  | removeAuthNote (name : Option String)
  | clearAuthNotes
  | setExecutionStatus (authenticator : String) (status : ExecutionStatus)
  | clearExecutionStatus
  deriving DecidableEq, Repr

def Setter.set (entity : AuthenticationSessionEntity) : Setter → AuthenticationSessionEntity
  | .setAuthNote name value =>
      let authNotes := entity.authNotes.getD fun _ => none
      match name with
      | none => { entity with authNotes := some authNotes }
      | some name => { entity with authNotes := some (Function.update authNotes name value) }
  | .removeAuthNote name =>
      match entity.authNotes, name with
      | some authNotes, some name =>
          { entity with authNotes := some (Function.update authNotes name none) }
      | _, _ => entity
  | .clearAuthNotes => { entity with authNotes := some fun _ => none }
  | .setExecutionStatus authenticator status =>
      { entity with
        executionStatus := Function.update entity.executionStatus authenticator (some status) }
  | .clearExecutionStatus => { entity with executionStatus := fun _ => none }

inductive Change where
  | createAuthenticationSession (tabId clientUUID : String) (currentTime : Nat)
  | set (tabId : String) (setter : Setter)
  deriving DecidableEq, Repr

def Change.tabId : Change → String
  | .createAuthenticationSession tabId _ _ => tabId
  | .set tabId _ => tabId

def Change.slot (tab : Option AuthenticationSessionEntity) :
    Change → Option AuthenticationSessionEntity
  | .createAuthenticationSession _ clientUUID _ => some ⟨clientUUID, fun _ => none, none⟩
  | .set _ setter => tab.map setter.set

/-- A change of the entity in place.  A setter is called on the adapter of a tab that the
entity has. -/
def Change.apply (entity : RootAuthenticationSessionEntity) :
    Change → Option RootAuthenticationSessionEntity
  | .createAuthenticationSession tabId clientUUID currentTime =>
      some {
        timestamp := currentTime
        authenticationSessions := Function.update entity.authenticationSessions tabId
          (some ⟨clientUUID, fun _ => none, none⟩) }
  | .set tabId setter =>
      match entity.authenticationSessions tabId with
      | none => none
      | some tab =>
          some { entity with
            authenticationSessions :=
              Function.update entity.authenticationSessions tabId (some (setter.set tab)) }

theorem apply_authenticationSessions {entity entity' : RootAuthenticationSessionEntity}
    {change : Change} (h : change.apply entity = some entity') (tabId : String) :
    entity'.authenticationSessions tabId =
      if change.tabId = tabId then change.slot (entity.authenticationSessions tabId)
      else entity.authenticationSessions tabId := by
  cases change with
  | createAuthenticationSession tab clientUUID currentTime =>
      cases h
      by_cases heq : tab = tabId
      · subst heq
        simp [Change.tabId, Change.slot]
      · simp [Change.tabId, heq, Ne.symm heq]
  | set tab setter =>
      simp only [Change.apply] at h
      split at h
      · cases h
      · rename_i tabEntity htab
        cases h
        by_cases heq : tab = tabId
        · subst heq
          simp [Change.tabId, Change.slot, htab]
        · simp [Change.tabId, heq, Ne.symm heq]

/-! ## Transactions -/

abbrev SessionTransaction :=
  KeycloakTransaction.Transaction RootAuthenticationSessionEntity Unit

/-- How far a transaction is: with the entity it has read and changed, its cache
transaction, and as ghost state the changes it has made. -/
inductive Tx where
  | idle
  | opened (entity : RootAuthenticationSessionEntity) (tx : SessionTransaction)
      (changes : List Change)
  | committed (changes : List Change)

structure State where
  caches : Caches RootAuthenticationSessionEntity
  txs : Nat → Tx

inductive Label where
  | get (tx : Nat)
  | change (tx : Nat) (change : Change)
  | commit (tx : Nat)
  deriving DecidableEq, Repr

def cacheName : String := "authenticationSessions"

def State.setTx (s : State) (i : Nat) (tx : Tx) : State :=
  { s with txs := Function.update s.txs i tx }

section Run

variable (id : String) (owner : String → Nat)

def update (tx : SessionTransaction) (entity : RootAuthenticationSessionEntity) :
    Option SessionTransaction :=
  tx.call (.replace cacheName id entity)

def step (s : State) : Label → Option State
  | .get i =>
      match s.txs i with
      | .idle =>
          let tx : SessionTransaction := .initial
          (tx.get s.caches cacheName id).map fun entity => s.setTx i (.opened entity tx [])
      | .opened _ tx changes => (tx.get s.caches cacheName id).map fun entity =>
          s.setTx i (.opened entity tx changes)
      | .committed _ => none
  | .change i change =>
      match s.txs i with
      | .opened entity tx changes =>
          if owner change.tabId = i then
            (change.apply entity).bind fun entity => (update id tx entity).map fun tx =>
              s.setTx i (.opened entity tx (changes ++ [change]))
          else none
      | _ => none
  | .commit i =>
      match s.txs i with
      | .opened _ tx changes => (tx.commit s.caches).map fun result =>
          { s.setTx i (.committed changes) with caches := result.1 }
      | _ => none

def initial (entity : RootAuthenticationSessionEntity) : State :=
  ⟨Function.update (fun _ => none) (cacheName, id) (some entity), fun _ => .idle⟩

end Run

/-! ## What the cache keeps -/

def changed (changes : List Change) (tabId : String) (tab : Option AuthenticationSessionEntity) :
    Option AuthenticationSessionEntity :=
  changes.foldl (fun tab change => if change.tabId = tabId then change.slot tab else tab) tab

theorem changed_snoc (changes : List Change) (change : Change) (tabId : String)
    (tab : Option AuthenticationSessionEntity) :
    changed (changes ++ [change]) tabId tab =
      if change.tabId = tabId then change.slot (changed changes tabId tab)
      else changed changes tabId tab := by
  simp [changed, List.foldl_append]

section Kept

variable (id : String) (owner : String → Nat) (entity₀ : RootAuthenticationSessionEntity)

def expected (s : State) (tabId : String) : Option AuthenticationSessionEntity :=
  match s.txs (owner tabId) with
  | .committed changes => changed changes tabId (entity₀.authenticationSessions tabId)
  | _ => entity₀.authenticationSessions tabId

def Kept (s : State) : Prop :=
  ∃ entity, s.caches (cacheName, id) = some entity ∧
    ∀ tabId, entity.authenticationSessions tabId = expected owner entity₀ s tabId

/-- A transaction that commits changes finds the tabs of the others in the cache as in its
own copy. -/
def OthersUnchanged (s : State) : Label → Prop
  | .commit i => ∀ entity tx changes, s.txs i = .opened entity tx changes → changes ≠ [] →
      ∀ cached, s.caches (cacheName, id) = some cached → ∀ tabId, owner tabId ≠ i →
        cached.authenticationSessions tabId = entity.authenticationSessions tabId
  | _ => True

structure Recorded (tx : SessionTransaction)
    (entity : RootAuthenticationSessionEntity) (changes : List Change) : Prop where
  rollback : tx.rollback = false
  tasks : tx.tasks = if changes = [] then []
    else [(getTaskKey cacheName id, .replace cacheName id entity)]

/-- `Kept`, and an open transaction has made its changes to its own tabs. -/
structure Isolated (s : State) : Prop where
  kept : Kept id owner entity₀ s
  recorded : ∀ i entity tx changes, s.txs i = .opened entity tx changes →
    Recorded id tx entity changes
  own : ∀ i entity tx changes, s.txs i = .opened entity tx changes → ∀ tabId, owner tabId = i →
    entity.authenticationSessions tabId =
      changed changes tabId (entity₀.authenticationSessions tabId)

end Kept

variable {id : String} {owner : String → Nat} {entity₀ : RootAuthenticationSessionEntity}
  {s t : State}

theorem Recorded.tasks_nil {tx : SessionTransaction}
    {entity : RootAuthenticationSessionEntity} (h : Recorded id tx entity []) : tx.tasks = [] := by
  simpa using h.tasks

theorem Recorded.tasks_cons {tx : SessionTransaction}
    {entity : RootAuthenticationSessionEntity} {changes : List Change}
    (h : Recorded id tx entity changes) (hne : changes ≠ []) :
    tx.tasks = [(getTaskKey cacheName id, .replace cacheName id entity)] := by
  simpa [hne] using h.tasks

theorem Recorded.get_eq {tx : SessionTransaction}
    {entity : RootAuthenticationSessionEntity} {changes : List Change}
    (h : Recorded id tx entity changes) (caches : Caches RootAuthenticationSessionEntity) :
    tx.get caches cacheName id =
      if changes = [] then caches (cacheName, id) else some entity := by
  unfold KeycloakTransaction.Transaction.get
  by_cases hnil : changes = []
  · subst hnil
    simp [h.tasks_nil]
  · simp [h.tasks_cons hnil, hnil, CacheTask.getValue]

theorem Recorded.update {tx : SessionTransaction}
    {entity : RootAuthenticationSessionEntity} {changes : List Change}
    (h : Recorded id tx entity changes) (entity' : RootAuthenticationSessionEntity)
    (change : Change) :
    ∃ tx', update id tx entity' = some tx' ∧ Recorded id tx' entity' (changes ++ [change]) := by
  unfold RootAuthenticationSession.update KeycloakTransaction.Transaction.call
  by_cases hnil : changes = []
  · subst hnil
    simp only [h.tasks_nil, List.lookup_nil]
    exact ⟨_, rfl, h.rollback, by
      simp [KeycloakTransaction.Transaction.putTask, h.tasks_nil, LinkedMap.alter]⟩
  · have htasks := h.tasks_cons hnil
    simp only [htasks, List.lookup_cons_self]
    exact ⟨_, rfl, h.rollback, by
      simp [KeycloakTransaction.Transaction.putTask, htasks, LinkedMap.alter, CacheTask.setValue]⟩

theorem Recorded.commit_eq {tx : SessionTransaction}
    {entity cached : RootAuthenticationSessionEntity} {changes : List Change}
    (h : Recorded id tx entity changes) {caches : Caches RootAuthenticationSessionEntity}
    (hcached : caches (cacheName, id) = some cached) :
    tx.commit caches = some
      (if changes = [] then caches
        else Function.update caches (cacheName, id) (some entity), []) := by
  unfold KeycloakTransaction.Transaction.commit
  by_cases hnil : changes = []
  · subst hnil
    simp [h.rollback, h.tasks_nil, KeycloakTransaction.Transaction.executeAll]
  · simp [h.rollback, h.tasks_cons hnil, KeycloakTransaction.Transaction.executeAll,
      CacheTask.execute, hcached, hnil]

theorem setTx_txs (s : State) (i : Nat) (tx : Tx) (j : Nat) :
    (s.setTx i tx).txs j = if j = i then tx else s.txs j :=
  Function.update_apply s.txs i tx j

theorem initial_isolated (id : String) (owner : String → Nat)
    (entity₀ : RootAuthenticationSessionEntity) :
    Isolated id owner entity₀ (initial id entity₀) := by
  refine ⟨⟨entity₀, by simp [initial], fun tabId => rfl⟩, ?_, ?_⟩
  · intro i entity tx changes h
    cases h
  · intro i entity tx changes h
    cases h

theorem expected_of_not_committed {tabId : String}
    (h : ∀ changes, s.txs (owner tabId) ≠ .committed changes) :
    expected owner entity₀ s tabId = entity₀.authenticationSessions tabId := by
  unfold expected
  split
  · rename_i changes hcommitted
    exact absurd hcommitted (h changes)
  · rfl

theorem expected_setTx {i : Nat} {tx : Tx} (hs : ∀ changes, s.txs i ≠ .committed changes)
    (htx : ∀ changes, tx ≠ .committed changes) (tabId : String) :
    expected owner entity₀ (s.setTx i tx) tabId = expected owner entity₀ s tabId := by
  by_cases howner : owner tabId = i
  · have hs' : ∀ changes, (s.setTx i tx).txs (owner tabId) ≠ .committed changes := by
      rw [setTx_txs, if_pos howner]
      exact htx
    rw [expected_of_not_committed hs', expected_of_not_committed (howner ▸ hs)]
  · unfold expected
    rw [setTx_txs, if_neg howner]

theorem Isolated.setOpened (h : Isolated id owner entity₀ s) {i : Nat}
    {entity : RootAuthenticationSessionEntity}
    {tx : SessionTransaction} {changes : List Change}
    (hs : ∀ changes, s.txs i ≠ .committed changes) (hrecorded : Recorded id tx entity changes)
    (hown : ∀ tabId, owner tabId = i → entity.authenticationSessions tabId =
      changed changes tabId (entity₀.authenticationSessions tabId)) :
    Isolated id owner entity₀ (s.setTx i (.opened entity tx changes)) := by
  refine ⟨?_, ?_, ?_⟩
  · obtain ⟨cached, hcached, htabs⟩ := h.kept
    refine ⟨cached, hcached, fun tabId => ?_⟩
    rw [htabs tabId, expected_setTx hs (fun _ heq => Tx.noConfusion heq)]
  · intro j entity' tx' changes' hj
    rw [setTx_txs] at hj
    split_ifs at hj with heq
    · cases hj
      exact hrecorded
    · exact h.recorded j entity' tx' changes' hj
  · intro j entity' tx' changes' hj
    rw [setTx_txs] at hj
    split_ifs at hj with heq
    · cases hj
      exact heq ▸ hown
    · exact h.own j entity' tx' changes' hj

theorem Isolated.get (h : Isolated id owner entity₀ s) {i : Nat}
    (hstep : step id owner s (.get i) = some t) : Isolated id owner entity₀ t := by
  obtain ⟨cached, hcached, htabs⟩ := h.kept
  have hrecorded : Recorded id (.initial : SessionTransaction) cached [] :=
    ⟨rfl, rfl⟩
  -- the tabs of a transaction that has not committed are as they were at first
  have hown : (∀ changes, s.txs i ≠ .committed changes) → ∀ tabId, owner tabId = i →
      cached.authenticationSessions tabId = entity₀.authenticationSessions tabId := by
    rintro hs tabId rfl
    rw [htabs tabId, expected_of_not_committed hs]
  cases htx : s.txs i with
  | idle =>
      have hs : ∀ changes, s.txs i ≠ .committed changes := by simp [htx]
      simp only [step, htx, hrecorded.get_eq, if_true, hcached, Option.map_some,
        Option.some.injEq] at hstep
      exact hstep ▸ h.setOpened hs hrecorded (hown hs)
  | opened entity tx changes =>
      have hs : ∀ changes, s.txs i ≠ .committed changes := by simp [htx]
      have hrecorded' := h.recorded i entity tx changes htx
      simp only [step, htx, hrecorded'.get_eq, hcached] at hstep
      by_cases hnil : changes = []
      · subst hnil
        simp only [if_true, Option.map_some, Option.some.injEq] at hstep
        exact hstep ▸ h.setOpened hs ⟨hrecorded'.rollback, hrecorded'.tasks⟩ (hown hs)
      · simp only [if_neg hnil, Option.map_some, Option.some.injEq] at hstep
        exact hstep ▸ h.setOpened hs hrecorded' (h.own i entity tx changes htx)
  | committed changes => simp [step, htx] at hstep

theorem Isolated.change (h : Isolated id owner entity₀ s) {i : Nat} {change : Change}
    (hstep : step id owner s (.change i change) = some t) : Isolated id owner entity₀ t := by
  cases htx : s.txs i with
  | idle => simp [step, htx] at hstep
  | committed changes => simp [step, htx] at hstep
  | opened entity tx changes =>
      have hs : ∀ changes, s.txs i ≠ .committed changes := by simp [htx]
      simp only [step, htx] at hstep
      split_ifs at hstep with howner
      obtain ⟨entity', happly, hstep⟩ := Option.bind_eq_some_iff.mp hstep
      obtain ⟨tx', hupdate, hrecorded⟩ := (h.recorded i entity tx changes htx).update entity' change
      simp only [hupdate, Option.map_some, Option.some.injEq] at hstep
      refine hstep ▸ h.setOpened hs hrecorded fun tabId htab => ?_
      rw [apply_authenticationSessions happly, changed_snoc,
        h.own i entity tx changes htx tabId htab]

theorem commit_eq_some (h : Isolated id owner entity₀ s) {i : Nat}
    {entity cached : RootAuthenticationSessionEntity}
    {tx : SessionTransaction} {changes : List Change}
    (htx : s.txs i = .opened entity tx changes) (hcached : s.caches (cacheName, id) = some cached) :
    step id owner s (.commit i) = some { s.setTx i (.committed changes) with
      caches := if changes = [] then s.caches
        else Function.update s.caches (cacheName, id) (some entity) } := by
  simp only [step, htx, (h.recorded i entity tx changes htx).commit_eq hcached, Option.map_some]

theorem expected_commit {i : Nat} {changes : List Change} (tabId : String)
    (caches : Caches RootAuthenticationSessionEntity) :
    expected owner entity₀ { s.setTx i (.committed changes) with caches := caches } tabId =
      if owner tabId = i then changed changes tabId (entity₀.authenticationSessions tabId)
      else expected owner entity₀ s tabId := by
  unfold expected
  change (match (s.setTx i (.committed changes)).txs (owner tabId) with
    | .committed changes => _ | _ => _) = _
  rw [setTx_txs]
  split_ifs <;> rfl

/-- A commit is right when the entity that is cached afterwards has the tabs as expected. -/
theorem Isolated.committed (h : Isolated id owner entity₀ s) {i : Nat} {changes : List Change}
    {caches : Caches RootAuthenticationSessionEntity}
    (hkept : Kept id owner entity₀ { s.setTx i (.committed changes) with caches := caches }) :
    Isolated id owner entity₀ { s.setTx i (.committed changes) with caches := caches } := by
  have hopened : ∀ j entity tx changes', (s.setTx i (.committed changes)).txs j =
      .opened entity tx changes' → s.txs j = .opened entity tx changes' := by
    intro j entity tx changes' hj
    rw [setTx_txs] at hj
    split_ifs at hj
    exact hj
  exact ⟨hkept, fun j entity tx changes' hj => h.recorded j entity tx changes' (hopened j _ _ _ hj),
    fun j entity tx changes' hj => h.own j entity tx changes' (hopened j _ _ _ hj)⟩

theorem Isolated.commit (h : Isolated id owner entity₀ s) {i : Nat}
    (hok : OthersUnchanged id owner s (.commit i))
    (hstep : step id owner s (.commit i) = some t) : Isolated id owner entity₀ t := by
  obtain ⟨cached, hcached, htabs⟩ := h.kept
  cases htx : s.txs i with
  | idle => simp [step, htx] at hstep
  | committed changes => simp [step, htx] at hstep
  | opened entity tx changes =>
      rw [commit_eq_some h htx hcached, Option.some.injEq] at hstep
      subst hstep
      apply h.committed
      by_cases hnil : changes = []
      · subst hnil
        refine ⟨cached, hcached, fun tabId => ?_⟩
        rw [expected_commit, htabs tabId]
        split_ifs with howner
        · exact expected_of_not_committed (by simp [howner, htx])
        · rfl
      · refine ⟨entity, by simp [hnil], fun tabId => ?_⟩
        rw [expected_commit]
        split_ifs with howner
        · exact h.own i entity tx changes htx tabId howner
        · rw [← htabs tabId]
          exact (hok entity tx changes htx hnil cached hcached tabId howner).symm

theorem step_isolated {label : Label} (h : Isolated id owner entity₀ s)
    (hok : OthersUnchanged id owner s label) (hstep : step id owner s label = some t) :
    Isolated id owner entity₀ t := by
  cases label with
  | get i => exact h.get hstep
  | change i change => exact h.change hstep
  | commit i => exact h.commit hok hstep

/-- A commit that does not find another's tab as in its copy takes that tab back. -/
theorem step_overwrites {label : Label} (h : Isolated id owner entity₀ s)
    (hok : ¬ OthersUnchanged id owner s label) :
    ∃ t, step id owner s label = some t ∧ ¬ Kept id owner entity₀ t := by
  cases label with
  | get i => exact absurd trivial hok
  | change i change => exact absurd trivial hok
  | commit i =>
      obtain ⟨cached, hcached, htabs⟩ := h.kept
      simp only [OthersUnchanged, not_forall] at hok
      obtain ⟨entity, tx, changes, htx, hne, cached', hcached', tabId, howner, hdiffer⟩ := hok
      rw [hcached, Option.some.injEq] at hcached'
      subst hcached'
      refine ⟨_, commit_eq_some h htx hcached, ?_⟩
      rintro ⟨entity', hentity', hkept⟩
      simp only [if_neg hne, Function.update_self, Option.some.injEq] at hentity'
      subst hentity'
      have htab := hkept tabId
      rw [expected_commit, if_neg howner, ← htabs tabId] at htab
      exact hdiffer htab.symm

/-- Whatever tabs the transactions own, in every state of a run the cached entity has the
tabs as the committed transactions left them exactly if each commit of changes finds the
tabs of the others as in its own copy. -/
theorem tabs_kept_iff (id : String) (owner : String → Nat)
    (entity₀ : RootAuthenticationSessionEntity) (labels : List Label) :
    Meets (step id owner) (OthersUnchanged id owner) (initial id entity₀) labels ↔
      ∀ pre t, pre <+: labels → run (step id owner) (initial id entity₀) pre = some t →
        Kept id owner entity₀ t :=
  meets_iff_forall_prefix (Isolated id owner entity₀) (fun _ h => h.kept)
    (fun _ _ _ h hok hstep => step_isolated h hok hstep) (fun _ _ h hok => step_overwrites h hok)
    (initial_isolated id owner entity₀) labels

/-- Two tabs are opened at once: both transactions read the session before either commits. -/
def twoTabs : List Label :=
  [.get 0, .get 1, .change 0 (.createAuthenticationSession "first" "account" 10),
    .change 1 (.createAuthenticationSession "second" "account" 10), .commit 0, .commit 1]

/-- The first of the two tabs is gone after both transactions have committed. -/
theorem twoTabs_lost :
    ∃ t, run (step "root" fun tabId => if tabId = "first" then 0 else 1)
        (initial "root" ⟨10, fun _ => none⟩) twoTabs = some t ∧
      t.txs 0 = .committed [.createAuthenticationSession "first" "account" 10] ∧
      t.txs 1 = .committed [.createAuthenticationSession "second" "account" 10] ∧
      ¬ Kept "root" (fun tabId => if tabId = "first" then 0 else 1) ⟨10, fun _ => none⟩ t := by
  refine ⟨_, rfl, rfl, rfl, ?_⟩
  rintro ⟨entity, hentity, hkept⟩
  have hfirst := congrArg (Option.map fun entity : RootAuthenticationSessionEntity =>
    (entity.authenticationSessions "first").isSome) hentity
  have hlost : some false = some (entity.authenticationSessions "first").isSome := hfirst
  rw [hkept "first"] at hlost
  cases hlost

end Keycloak.Sessions.RootAuthenticationSession
