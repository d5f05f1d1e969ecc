import Keycloak.Lib.Machine
import Mathlib.Data.List.Basic

/-!
# Synchronising the users of a storage provider

Full and incremental runs of `UserStorageSyncManager` for one provider.  Runs do not
overlap; between the start of a run, when `lastSync` is advanced, and its end users are
modified and time passes.  Times are whole seconds.

The modifications stand in the order in which they were made, and importing a user imports
all that were made to it so far.
-/

namespace Keycloak.Storage.UserStorageSync

open Machine

structure UserStorageProviderModel where
  id : String
  lastSync : Nat
  deriving DecidableEq, Repr

structure Modification where
  user : String
  time : Nat
  deriving DecidableEq, Repr

inductive Kind where
  | full
  | changed
  deriving DecidableEq, Repr

/-- A run that has begun: `since` is the `lastSync` it found.  `before` is ghost state: how
many modifications had been made when it began. -/
structure Started where
  kind : Kind
  since : Nat
  start : Nat
  before : Nat
  deriving DecidableEq, Repr

structure Run where
  started : Started
  imported : List String
  count : Nat
  deriving DecidableEq, Repr

/-- `thrown` is ghost state as well: the `lastSync` that a run replaced and the one it set,
for the runs that threw since the last full run that succeeded. -/
structure State where
  now : Nat
  provider : UserStorageProviderModel
  persistentFedProviders : List UserStorageProviderModel
  modifications : List Modification
  running : Option Started
  runs : List Run
  thrown : List (Nat × Nat)
  deriving DecidableEq, Repr

inductive Label where
  | tick (seconds : Nat)
  | modify (user : String)
  | syncAllUsers
  | syncChangedUsers
  /-- The run that has begun imports these users and returns. -/
  | succeed (imported : List String)
  /-- The run that has begun throws, whatever it has imported. -/
  | throw
  deriving DecidableEq, Repr

/-- `updateLastSyncInterval`: the provider of the caller and the persistent ones. -/
def updateLastSyncInterval (currentTime : Nat) (provider : UserStorageProviderModel)
    (persistentFedProviders : List UserStorageProviderModel) :
    UserStorageProviderModel × List UserStorageProviderModel :=
  if persistentFedProviders.any (provider.id = ·.id) then
    ({ provider with lastSync := currentTime },
      persistentFedProviders.map fun persistentFedProvider =>
        if provider.id = persistentFedProvider.id then
          { persistentFedProvider with lastSync := currentTime }
        else persistentFedProvider)
  else (provider, persistentFedProviders)

/-- The task of both kinds of run up to the call of the provider. -/
def begin (s : State) (kind : Kind) : Option State :=
  match s.running with
  | some _ => none
  | none =>
      let oldLastSync := s.provider.lastSync
      let updated := updateLastSyncInterval s.now s.provider s.persistentFedProviders
      some { s with
        provider := updated.1
        persistentFedProviders := updated.2
        running := some ⟨kind, oldLastSync, s.now, s.modifications.length⟩ }

/-- The users that a run has to import to succeed: all of them, or those modified at or
after the time it is given. -/
def Started.Requires (r : Started) (m : Modification) : Bool :=
  match r.kind with
  | .full => true
  | .changed => decide (r.since ≤ m.time)

def State.succeeded (s : State) (r : Started) (imported : List String) : State :=
  { s with
    running := none
    runs := s.runs ++ [⟨r, imported, s.modifications.length⟩]
    thrown := match r.kind with
      | .full => []
      | .changed => s.thrown }

def State.threw (s : State) (r : Started) : State :=
  { s with
    running := none
    thrown := s.thrown ++ [(r.since, s.provider.lastSync)] }

def step (s : State) : Label → Option State
  | .tick seconds => some { s with now := s.now + seconds }
  | .modify user =>
      some { s with modifications := s.modifications ++ [⟨user, s.now⟩] }
  | .syncAllUsers => begin s .full
  | .syncChangedUsers => begin s .changed
  | .succeed imported =>
      match s.running with
      | none => none
      | some r =>
          if s.modifications.all fun m => !r.Requires m || imported.contains m.user then
            some (s.succeeded r imported)
          else none
  | .throw =>
      match s.running with
      | none => none
      | some r =>
          some (s.threw r)

def initial (provider : UserStorageProviderModel)
    (persistentFedProviders : List UserStorageProviderModel) : State :=
  ⟨0, { provider with lastSync := 0 }, persistentFedProviders, [], none, [], []⟩

/-! ## What has been imported -/

def Run.Imports (r : Run) (modifications : List Modification) (i : Nat) : Prop :=
  i < r.count ∧ ∃ m, modifications[i]? = some m ∧ m.user ∈ r.imported

def Run.Covers (r : Run) (modifications : List Modification) (i : Nat) : Prop :=
  r.Imports modifications i ∧ ∀ m, modifications[i]? = some m → m.time ≤ r.started.start

def State.Covered (s : State) (i : Nat) : Prop := ∃ r ∈ s.runs, r.Covers s.modifications i

/-- What was modified before an incremental run that succeeded is imported by it or by an
earlier run that started at or after the modification. -/
def Complete (s : State) : Prop :=
  ∀ pre r post, s.runs = pre ++ r :: post → r.started.kind = .changed →
    ∀ i < r.started.before, r.Imports s.modifications i ∨
      ∃ earlier ∈ pre, earlier.Covers s.modifications i

/-- When an incremental run begins, a user modified between the `lastSync` that a run that
threw had replaced and the one it had set has been imported by a run that succeeded and
started at or after the modification, or has been modified again since the present
`lastSync`.  Only the runs count that threw since the last full run that succeeded. -/
def NothingSkipped (s : State) : Label → Prop
  | .syncChangedUsers => ∀ window ∈ s.thrown, ∀ i m, s.modifications[i]? = some m →
      window.1 ≤ m.time → m.time < window.2 →
      s.Covered i ∨ ∃ m' ∈ s.modifications, m'.user = m.user ∧ s.provider.lastSync ≤ m'.time
  | _ => True

/-! ## The invariant -/

/-- The `i`th modification needs no further run: one has covered it, or it lies in the window
of a run that threw. -/
def State.Settled (s : State) (i : Nat) (m : Modification) : Prop :=
  s.Covered i ∨ ∃ window ∈ s.thrown, window.1 ≤ m.time ∧ m.time < window.2

/-- What is known of a run that has begun: what was settled before it, and for an incremental
run that nothing it has to find is older than the time it is given. -/
structure Underway (s : State) (r : Started) : Prop where
  since_le : r.since ≤ r.start
  start_le : r.start ≤ s.now
  lastSync_le : s.provider.lastSync ≤ r.start
  before : ∀ i < r.before, ∃ m, s.modifications[i]? = some m ∧ m.time ≤ r.start
  settled : ∀ i m, s.modifications[i]? = some m → m.time < r.since → s.Settled i m
  found : r.kind = .changed → ∀ i < r.before, ∀ m, s.modifications[i]? = some m →
    m.time < r.since → s.Covered i ∨
      ∃ m' ∈ s.modifications, m'.user = m.user ∧ r.since ≤ m'.time

structure Tracks (s : State) : Prop where
  times : ∀ m ∈ s.modifications, m.time ≤ s.now
  lastSync_le : s.provider.lastSync ≤ s.now
  counts : ∀ r ∈ s.runs, r.started.before ≤ r.count ∧ r.count ≤ s.modifications.length
  underway : ∀ r, s.running = some r → Underway s r
  idle : s.running = none → ∀ i m, s.modifications[i]? = some m → m.time < s.provider.lastSync →
    s.Settled i m
  complete : Complete s

variable {s t : State}

theorem initial_tracks (provider : UserStorageProviderModel)
    (persistentFedProviders : List UserStorageProviderModel) :
    Tracks (initial provider persistentFedProviders) where
  times m h := by simp [initial] at h
  lastSync_le := Nat.le_refl 0
  counts r h := by simp [initial] at h
  underway r h := by simp [initial] at h
  idle _ i m h := by simp [initial] at h
  complete pre r post h := by simp [initial] at h

theorem Run.imports_append {r : Run} {modifications : List Modification}
    (h : r.count ≤ modifications.length) (rest : List Modification) (i : Nat) :
    r.Imports (modifications ++ rest) i ↔ r.Imports modifications i := by
  unfold Run.Imports
  constructor
  · rintro ⟨hlt, m, hm, huser⟩
    rw [List.getElem?_append_left (by omega)] at hm
    exact ⟨hlt, m, hm, huser⟩
  · rintro ⟨hlt, m, hm, huser⟩
    exact ⟨hlt, m, by rw [List.getElem?_append_left (by omega), hm], huser⟩

theorem Run.covers_append {r : Run} {modifications : List Modification}
    (h : r.count ≤ modifications.length) (rest : List Modification) (i : Nat) :
    r.Covers (modifications ++ rest) i ↔ r.Covers modifications i := by
  unfold Run.Covers
  rw [Run.imports_append h]
  apply and_congr_right
  intro himports
  rw [List.getElem?_append_left (Nat.lt_of_lt_of_le himports.1 h)]

/-- A further modification leaves what was covered. -/
theorem Tracks.covered_append (h : Tracks s) {rest : List Modification} {i : Nat}
    (hcovered : s.Covered i) :
    State.Covered { s with modifications := s.modifications ++ rest } i := by
  obtain ⟨r, hr, hcovers⟩ := hcovered
  exact ⟨r, hr, (Run.covers_append (h.counts r hr).2 rest i).mpr hcovers⟩

theorem getElem?_snoc_cases {modifications : List Modification} {m m' : Modification} {i : Nat}
    (h : (modifications ++ [m'])[i]? = some m) :
    modifications[i]? = some m ∨ i = modifications.length ∧ m = m' := by
  rcases Nat.lt_or_ge i modifications.length with hlt | hge
  · rw [List.getElem?_append_left hlt] at h
    exact .inl h
  · rw [List.getElem?_append_right hge, List.getElem?_singleton] at h
    split_ifs at h with hzero
    cases h
    exact .inr ⟨by omega, rfl⟩

theorem Tracks.tick (h : Tracks s) (seconds : Nat) :
    Tracks { s with now := s.now + seconds } where
  times m hm := Nat.le_trans (h.times m hm) (Nat.le_add_right _ _)
  lastSync_le := Nat.le_trans h.lastSync_le (Nat.le_add_right _ _)
  counts := h.counts
  underway r hr :=
    have hr := h.underway r hr
    ⟨hr.since_le, Nat.le_trans hr.start_le (Nat.le_add_right _ _), hr.lastSync_le, hr.before,
      hr.settled, hr.found⟩
  idle := h.idle
  complete := h.complete

theorem Tracks.modify (h : Tracks s) (user : String) :
    Tracks { s with modifications := s.modifications ++ [⟨user, s.now⟩] } := by
  -- what is older than a time that has passed is not the new modification
  have hold : ∀ (i : Nat) (m : Modification), (s.modifications ++ [⟨user, s.now⟩])[i]? = some m →
      m.time < s.now → s.modifications[i]? = some m := by
    intro i m hm hlt
    rcases getElem?_snoc_cases hm with hm | ⟨_, rfl⟩
    · exact hm
    · exact absurd hlt (Nat.lt_irrefl _)
  refine ⟨?_, h.lastSync_le, ?_, ?_, ?_, ?_⟩
  · intro m hm
    rcases List.mem_append.mp hm with hm | hm
    · exact h.times m hm
    · cases List.mem_singleton.mp hm
      exact Nat.le_refl _
  · intro r hr
    obtain ⟨hbefore, hcount⟩ := h.counts r hr
    rw [List.length_append]
    exact ⟨hbefore, Nat.le_add_right_of_le hcount⟩
  · intro r hr
    have hunder := h.underway r hr
    have hnow := Nat.le_trans hunder.since_le hunder.start_le
    refine ⟨hunder.since_le, hunder.start_le, hunder.lastSync_le, ?_, ?_, ?_⟩
    · intro i hi
      obtain ⟨m, hm, htime⟩ := hunder.before i hi
      exact ⟨m, by rw [List.getElem?_append_left (List.getElem?_eq_some_iff.mp hm).1, hm], htime⟩
    · intro i m hm hlt
      exact (hunder.settled i m (hold i m hm (Nat.lt_of_lt_of_le hlt hnow)) hlt).imp_left
        h.covered_append
    · intro hkind i hi m hm hlt
      rcases hunder.found hkind i hi m (hold i m hm (Nat.lt_of_lt_of_le hlt hnow)) hlt with
        hcovered | ⟨m', hm', huser, hsince⟩
      · exact .inl (h.covered_append hcovered)
      · exact .inr ⟨m', List.mem_append_left _ hm', huser, hsince⟩
  · intro hidle i m hm hlt
    exact (h.idle hidle i m (hold i m hm (Nat.lt_of_lt_of_le hlt h.lastSync_le)) hlt).imp_left
      h.covered_append
  · intro pre r post hruns hkind i hi
    have hmem : ∀ q ∈ pre ++ r :: post, q.count ≤ s.modifications.length :=
      fun q hq => (h.counts q (hruns ▸ hq)).2
    rw [Run.imports_append (hmem r (by simp))]
    refine (h.complete pre r post hruns hkind i hi).imp_right ?_
    rintro ⟨earlier, hearlier, hcovers⟩
    exact ⟨earlier, hearlier, (Run.covers_append
      (hmem earlier (List.mem_append_left _ hearlier)) _ i).mpr hcovers⟩

/-- The new `lastSync` is the present time, or the provider is not found and keeps its own. -/
theorem updateLastSyncInterval_lastSync (currentTime : Nat) (provider : UserStorageProviderModel)
    (persistentFedProviders : List UserStorageProviderModel) :
    (updateLastSyncInterval currentTime provider persistentFedProviders).1.lastSync = currentTime ∨
      (updateLastSyncInterval currentTime provider persistentFedProviders).1.lastSync =
        provider.lastSync := by
  unfold updateLastSyncInterval
  split
  · exact .inl rfl
  · exact .inr rfl

theorem Tracks.begin (h : Tracks s) {kind : Kind}
    (hfound : kind = .changed → NothingSkipped s .syncChangedUsers)
    (hstep : begin s kind = some t) : Tracks t := by
  unfold UserStorageSync.begin at hstep
  cases hrunning : s.running with
  | some r => simp [hrunning] at hstep
  | none =>
      simp only [hrunning, Option.some.injEq] at hstep
      subst hstep
      have hlast := updateLastSyncInterval_lastSync s.now s.provider s.persistentFedProviders
      have hle := h.lastSync_le
      have hnow : (updateLastSyncInterval s.now s.provider s.persistentFedProviders).1.lastSync ≤
          s.now := by
        omega
      refine ⟨h.times, hnow, h.counts, ?_, (fun hnone => by cases hnone), h.complete⟩
      intro r hr
      cases hr
      refine ⟨hle, Nat.le_refl _, hnow, ?_, h.idle hrunning, ?_⟩
      · intro i hi
        exact ⟨s.modifications[i], List.getElem?_eq_getElem hi, h.times _ (List.getElem_mem hi)⟩
      · intro hkind i _ m hm hlt
        rcases h.idle hrunning i m hm hlt with hcovered | ⟨window, hwindow, hge, hlt'⟩
        · exact .inl hcovered
        · exact hfound hkind window hwindow i m hm hge hlt'

/-- A run that succeeds has imported each modification that it had to find. -/
theorem imports_of_requires {r : Started} {imported : List String} {i : Nat} {m m' : Modification}
    (hall : (s.modifications.all fun m => !r.Requires m || imported.contains m.user) = true)
    (hm : s.modifications[i]? = some m) (hm' : m' ∈ s.modifications) (huser : m'.user = m.user)
    (hrequires : r.Requires m' = true) :
    (Run.mk r imported s.modifications.length).Imports s.modifications i := by
  have himported := List.all_eq_true.mp hall m' hm'
  rw [hrequires, huser] at himported
  exact ⟨(List.getElem?_eq_some_iff.mp hm).1, m, hm, by simpa using himported⟩

theorem Tracks.threw (h : Tracks s) {r : Started} (hrunning : s.running = some r) :
    Tracks (s.threw r) := by
  refine ⟨h.times, h.lastSync_le, h.counts, (fun r hr => by cases hr), ?_, h.complete⟩
  intro _ i m hm hlt
  rcases Nat.lt_or_ge m.time r.since with hsince | hsince
  · refine ((h.underway r hrunning).settled i m hm hsince).imp_right ?_
    rintro ⟨window, hwindow, hin⟩
    exact ⟨window, List.mem_append_left _ hwindow, hin⟩
  · exact .inr ⟨_, List.mem_append_right _ List.mem_cons_self, hsince, hlt⟩

theorem Underway.before_le {r : Started} (h : Underway s r) :
    r.before ≤ s.modifications.length := by
  rcases Nat.eq_zero_or_pos r.before with hzero | hpos
  · omega
  · obtain ⟨m, hm, _⟩ := h.before (r.before - 1) (by omega)
    have hlt := (List.getElem?_eq_some_iff.mp hm).1
    omega

/-- What was modified since the time a run was given, and everything after a full run, has
been covered by it. -/
theorem Underway.settled_succeeded {r : Started} (h : Underway s r) {imported : List String}
    (hall : (s.modifications.all fun m => !r.Requires m || imported.contains m.user) = true)
    {i : Nat} {m : Modification} (hm : s.modifications[i]? = some m)
    (hlt : m.time < s.provider.lastSync) : (s.succeeded r imported).Settled i m := by
  by_cases hrequires : r.Requires m = true
  · have himports := imports_of_requires hall hm (List.mem_of_getElem? hm) rfl hrequires
    refine .inl ⟨_, List.mem_append_right _ List.mem_cons_self, himports, ?_⟩
    intro m' hm'
    cases hm.symm.trans hm'
    exact Nat.le_trans (Nat.le_of_lt hlt) h.lastSync_le
  · unfold Started.Requires at hrequires
    cases hkind : r.kind with
    | full => simp [hkind] at hrequires
    | changed =>
        simp only [hkind, decide_eq_true_eq, Nat.not_le] at hrequires
        rcases h.settled i m hm hrequires with ⟨q, hq, hcovers⟩ | hwindow
        · exact .inl ⟨q, List.mem_append_left _ hq, hcovers⟩
        · refine .inr ?_
          simp only [State.succeeded, hkind]
          exact hwindow

/-- The incremental run that succeeds finds what was modified before it, unless that has been
covered. -/
theorem Underway.complete_succeeded {r : Started} (h : Underway s r) {imported : List String}
    (hall : (s.modifications.all fun m => !r.Requires m || imported.contains m.user) = true)
    (hkind : r.kind = .changed) {i : Nat} (hi : i < r.before) :
    (Run.mk r imported s.modifications.length).Imports s.modifications i ∨ s.Covered i := by
  have hrequires : ∀ m : Modification, r.since ≤ m.time → r.Requires m = true := by
    intro m hsince
    simp [Started.Requires, hkind, hsince]
  obtain ⟨m, hm, _⟩ := h.before i hi
  rcases Nat.lt_or_ge m.time r.since with hsince | hsince
  · rcases h.found hkind i hi m hm hsince with hcovered | ⟨m', hm', huser, hsince'⟩
    · exact .inr hcovered
    · exact .inl (imports_of_requires hall hm hm' huser (hrequires m' hsince'))
  · exact .inl (imports_of_requires hall hm (List.mem_of_getElem? hm) rfl (hrequires m hsince))

theorem Tracks.succeeded (h : Tracks s) {r : Started} {imported : List String}
    (hrunning : s.running = some r)
    (hall : (s.modifications.all fun m => !r.Requires m || imported.contains m.user) = true) :
    Tracks (s.succeeded r imported) := by
  have hunder := h.underway r hrunning
  refine ⟨h.times, h.lastSync_le, ?_, (fun r hr => by cases hr),
    fun _ i m hm hlt => hunder.settled_succeeded hall hm hlt, ?_⟩
  · intro q hq
    rcases List.mem_append.mp hq with hq | hq
    · exact h.counts q hq
    · rw [List.mem_singleton.mp hq]
      exact ⟨hunder.before_le, Nat.le_refl _⟩
  · intro pre q post hruns hkind i hi
    rcases List.eq_nil_or_concat post with rfl | ⟨post', last, rfl⟩
    · obtain ⟨rfl, hq⟩ := List.append_inj' hruns rfl
      cases hq
      exact hunder.complete_succeeded hall hkind hi
    · rw [List.concat_eq_append, ← List.cons_append, ← List.append_assoc] at hruns
      exact h.complete pre q post' (List.append_inj' hruns rfl).1 hkind i hi

theorem step_tracks {label : Label} (h : Tracks s) (hok : NothingSkipped s label)
    (hstep : step s label = some t) : Tracks t := by
  cases label with
  | tick seconds =>
      cases hstep
      exact h.tick seconds
  | modify user =>
      cases hstep
      exact h.modify user
  | syncAllUsers => exact h.begin (fun hkind => by cases hkind) hstep
  | syncChangedUsers => exact h.begin (fun _ => hok) hstep
  | succeed imported =>
      simp only [step] at hstep
      split at hstep
      · cases hstep
      · rename_i r hrunning
        split_ifs at hstep with hall
        cases hstep
        exact h.succeeded hrunning hall
  | throw =>
      simp only [step] at hstep
      split at hstep
      · cases hstep
      · rename_i r hrunning
        cases hstep
        exact h.threw hrunning

/-- In a run of the manager in which no incremental synchronisation begins after a window of
one that threw was skipped, every state is complete. -/
theorem sync_complete (provider : UserStorageProviderModel)
    (persistentFedProviders : List UserStorageProviderModel) {labels : List Label} {s : State}
    (hok : Meets step NothingSkipped (initial provider persistentFedProviders) labels)
    (hrun : run step (initial provider persistentFedProviders) labels = some s) : Complete s :=
  (run_invariant (fun _ _ _ htracks hok hstep => step_tracks htracks hok hstep)
    (initial_tracks provider persistentFedProviders) hok hrun).complete

def ldap : UserStorageProviderModel := ⟨"ldap", 0⟩

def repaired : List Label :=
  [.modify "user", .tick 10, .syncChangedUsers, .throw, .tick 10, .syncAllUsers, .succeed ["user"],
    .tick 10, .syncChangedUsers, .succeed []]

theorem sync_complete_repaired :
    Meets step NothingSkipped (initial ldap [ldap]) repaired ∧
    ∃ s, run step (initial ldap [ldap]) repaired = some s ∧ Complete s := by
  have hok : Meets step NothingSkipped (initial ldap [ldap]) repaired := by
    refine Meets.cons trivial rfl (Meets.cons trivial rfl (Meets.cons ?_ rfl
      (Meets.cons trivial rfl (Meets.cons trivial rfl (Meets.cons trivial rfl
        (Meets.cons trivial rfl (Meets.cons trivial rfl
          (Meets.cons ?_ rfl (Meets.cons trivial rfl trivial)))))))))
    · intro window hwindow
      cases hwindow
    · intro window hwindow
      cases hwindow
  obtain ⟨s, hs⟩ : ∃ s, run step (initial ldap [ldap]) repaired = some s := ⟨_, rfl⟩
  exact ⟨hok, s, hs, sync_complete ldap [ldap] hok hs⟩

def skipped : List Label :=
  [.modify "user", .tick 10, .syncChangedUsers, .throw, .tick 10, .syncChangedUsers, .succeed []]

/-- The incremental run only looks for what was modified since the run that threw. -/
theorem skipped_not_complete :
    ∃ s, run step (initial ldap [ldap]) skipped = some s ∧ ¬ Complete s := by
  refine ⟨_, rfl, fun h => ?_⟩
  rcases h [] _ [] rfl rfl 0 (by decide) with ⟨_, m, _, huser⟩ | ⟨earlier, hearlier, _⟩
  · cases huser
  · cases hearlier

end Keycloak.Storage.UserStorageSync
