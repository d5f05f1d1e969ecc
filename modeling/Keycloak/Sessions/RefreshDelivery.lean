import Keycloak.Sessions.LastSessionRefreshStore

/-!
# Refreshes in the other data center

`LastSessionRefreshListener.eventReceived` for the messages of a store, with the refreshes of
the user sessions of the other data center.  A session that is not there is left alone, and a
node handles the sessions it owns.  Messages may come in any order and more than once.
-/

namespace Keycloak.Sessions.LastSessionRefreshStore

open Machine

def refreshReceived (amIOwner : String → Bool) (sessions : String → Option Int)
    (entry : String × SessionData) : String → Option Int :=
  if amIOwner entry.1 then
    match sessions entry.1 with
    | none => sessions
    | some lastSessionRefresh =>
        if entry.2.lastSessionRefresh > lastSessionRefresh then
          Function.update sessions entry.1 (some entry.2.lastSessionRefresh)
        else sessions
  else sessions

def eventReceived (amIOwner : String → Bool) (sessions : String → Option Int)
    (lastSessionRefreshes : List (String × SessionData)) : String → Option Int :=
  lastSessionRefreshes.foldl (refreshReceived amIOwner) sessions

def eventsReceived (amIOwner : String → Bool) (sessions : String → Option Int)
    (events : List (Nat × List (String × SessionData))) : String → Option Int :=
  events.foldl (fun sessions event => eventReceived amIOwner sessions event.2) sessions

structure Highest (lastSessionRefresh : Int) (received : Int → Prop) (refresh : Int) : Prop where
  start : lastSessionRefresh ≤ refresh
  bound : ∀ time, received time → time ≤ refresh
  reached : refresh = lastSessionRefresh ∨ received refresh

theorem Highest.unique {lastSessionRefresh refresh refresh' : Int} {received : Int → Prop}
    (h : Highest lastSessionRefresh received refresh)
    (h' : Highest lastSessionRefresh received refresh') : refresh = refresh' := by
  apply Int.le_antisymm
  · rcases h.reached with rfl | hreceived
    · exact h'.start
    · exact h'.bound _ hreceived
  · rcases h'.reached with rfl | hreceived
    · exact h.start
    · exact h.bound _ hreceived

theorem Highest.congr {lastSessionRefresh refresh : Int} {received received' : Int → Prop}
    (h : Highest lastSessionRefresh received refresh) (heq : ∀ time, received time ↔ received' time) :
    Highest lastSessionRefresh received' refresh :=
  ⟨h.start, fun time htime => h.bound time ((heq time).mpr htime),
    h.reached.imp_right (heq refresh).mp⟩

theorem Highest.trans {first second third : Int} {received received' : Int → Prop}
    (h : Highest first received second) (h' : Highest second received' third) :
    Highest first (fun time => received time ∨ received' time) third := by
  refine ⟨Int.le_trans h.start h'.start, fun time htime => ?_, ?_⟩
  · rcases htime with hfirst | hsecond
    · exact Int.le_trans (h.bound time hfirst) h'.start
    · exact h'.bound time hsecond
  · rcases h'.reached with rfl | hreceived
    · exact h.reached.imp_right .inl
    · exact .inr (.inr hreceived)

section

variable {amIOwner : String → Bool} {sessions : String → Option Int} {sessionId : String}
  {lastSessionRefresh : Int}

theorem refreshReceived_spec (howner : amIOwner sessionId = true)
    (hsession : sessions sessionId = some lastSessionRefresh) (entry : String × SessionData) :
    ∃ refresh, refreshReceived amIOwner sessions entry sessionId = some refresh ∧
      Highest lastSessionRefresh
        (fun time => entry.1 = sessionId ∧ entry.2.lastSessionRefresh = time) refresh := by
  by_cases hid : entry.1 = sessionId
  · rw [refreshReceived, hid, if_pos howner, hsession]
    dsimp only
    split_ifs with hlater
    · exact ⟨_, Function.update_self .., Int.le_of_lt hlater,
        fun time htime => Int.le_of_eq htime.2.symm, .inr ⟨rfl, rfl⟩⟩
    · exact ⟨_, hsession, Int.le_refl _, fun time htime => htime.2 ▸ Int.not_lt.mp hlater, .inl rfl⟩
  · refine ⟨lastSessionRefresh, ?_, Int.le_refl _, fun time htime => absurd htime.1 hid, .inl rfl⟩
    rw [refreshReceived]
    split_ifs
    · cases sessions entry.1 with
      | none => exact hsession
      | some other =>
          dsimp only
          split_ifs
          · exact (Function.update_of_ne (Ne.symm hid) _ _).trans hsession
          · exact hsession
    · exact hsession

theorem eventReceived_spec (howner : amIOwner sessionId = true)
    (hsession : sessions sessionId = some lastSessionRefresh)
    (entries : List (String × SessionData)) :
    ∃ refresh, eventReceived amIOwner sessions entries sessionId = some refresh ∧
      Highest lastSessionRefresh
        (fun time => ∃ data, (sessionId, data) ∈ entries ∧ data.lastSessionRefresh = time)
        refresh := by
  induction entries generalizing sessions lastSessionRefresh with
  | nil =>
      exact ⟨lastSessionRefresh, hsession, Int.le_refl _,
        fun _ ⟨_, hmem, _⟩ => absurd hmem List.not_mem_nil, .inl rfl⟩
  | cons entry entries ih =>
      obtain ⟨middle, hmiddle, hfirst⟩ := refreshReceived_spec howner hsession entry
      obtain ⟨refresh, hrefresh, hrest⟩ := ih hmiddle
      refine ⟨refresh, hrefresh, (hfirst.trans hrest).congr fun time => ⟨?_, ?_⟩⟩
      · rintro (⟨rfl, rfl⟩ | ⟨data, hmem, rfl⟩)
        · exact ⟨entry.2, List.mem_cons_self, rfl⟩
        · exact ⟨data, List.mem_cons_of_mem entry hmem, rfl⟩
      · rintro ⟨data, hmem, rfl⟩
        rcases List.mem_cons.mp hmem with rfl | hmem
        · exact .inl ⟨rfl, rfl⟩
        · exact .inr ⟨data, hmem, rfl⟩

theorem eventsReceived_spec (howner : amIOwner sessionId = true)
    (hsession : sessions sessionId = some lastSessionRefresh)
    (events : List (Nat × List (String × SessionData))) :
    ∃ refresh, eventsReceived amIOwner sessions events sessionId = some refresh ∧
      Highest lastSessionRefresh
        (fun time => ∃ map content data, (map, content) ∈ events ∧ (sessionId, data) ∈ content ∧
          data.lastSessionRefresh = time) refresh := by
  induction events generalizing sessions lastSessionRefresh with
  | nil =>
      exact ⟨lastSessionRefresh, hsession, Int.le_refl _,
        fun _ ⟨_, _, _, hmem, _⟩ => absurd hmem List.not_mem_nil, .inl rfl⟩
  | cons event events ih =>
      obtain ⟨middle, hmiddle, hfirst⟩ := eventReceived_spec howner hsession event.2
      obtain ⟨refresh, hrefresh, hrest⟩ := ih hmiddle
      refine ⟨refresh, hrefresh, (hfirst.trans hrest).congr fun time => ⟨?_, ?_⟩⟩
      · rintro (⟨data, hmem, rfl⟩ | ⟨map, content, data, hevent, hmem, rfl⟩)
        · exact ⟨event.1, event.2, data, List.mem_cons_self, hmem, rfl⟩
        · exact ⟨map, content, data, List.mem_cons_of_mem event hevent, hmem, rfl⟩
      · rintro ⟨map, content, data, hevent, hmem, rfl⟩
        rcases List.mem_cons.mp hevent with rfl | hevent
        · exact .inl ⟨data, hmem, rfl⟩
        · exact .inr ⟨map, content, data, hevent, hmem, rfl⟩

end

section

variable {maxInterval maxCount start : Int} {labels : List Label} {s : State}
  {amIOwner : String → Bool} {sessions : String → Option Int} {sessionId : String}
  {lastSessionRefresh : Int}

end

end Keycloak.Sessions.LastSessionRefreshStore
