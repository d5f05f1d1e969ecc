import Keycloak.Lib.JavaInt
import Keycloak.Lib.LinkedMap
import Keycloak.Lib.Machine
import Mathlib.Logic.Function.Basic

/-!
# Refreshes on their way to the other data centers

`LastSessionRefreshStore` collects the refreshes of one host in a map and sends the map as one
message when it is full or old.  Requests and the timer use the store at the same time.  Every
label is one access of one thread: to the field with the map, to a map, to `lastRun`, to the
monitor of `prepareSendingMessage`, or the marshalling of a message, which is one step.

A map is named by the number of maps before it, so the field holds the highest name in use.
-/

namespace Keycloak.Sessions.LastSessionRefreshStore

open Machine JavaInt

structure SessionData where
  realmId : String
  lastSessionRefresh : Int
  deriving DecidableEq, Repr

/-- Where a thread stands.  In `checkSendingMessage` and in `prepareSendingMessage`, which
holds the monitor, the same condition is evaluated. -/
inductive Phase where
  | idle
  /-- In `putLastSessionRefresh`, with the map that the field held. -/
  | putting (map : Nat) (sessionId : String) (data : SessionData)
  /-- Before it reads the field. -/
  | checking (synchronized : Bool) (currentTime : Int)
  /-- Before `size`. -/
  | sizing (synchronized : Bool) (currentTime : Int) (map : Nat)
  /-- Before it reads `lastRun`. -/
  | comparing (synchronized : Bool) (currentTime : Int)
  /-- Before the call of `prepareSendingMessage`. -/
  | entering (currentTime : Int)
  /-- In `prepareSendingMessage`, before the field is set. -/
  | swapping (currentTime : Int)
  /-- Before `lastRun` is set. -/
  | leaving (currentTime : Int) (copiedRefreshesToSend : Nat)
  /-- Before the event is marshalled. -/
  | sending (refreshesToSend : Nat)
  deriving DecidableEq, Repr

/-- One call of `put` on a map; it is late if the map was marshalled before. -/
structure Put where
  map : Nat
  sessionId : String
  data : SessionData
  late : Bool
  deriving DecidableEq, Repr

/-- `messages` are the marshalled events with the names of their maps and `puts` the calls of
`put`, both with the last one first; nothing reads `puts`. -/
structure State where
  maps : Nat → List (String × SessionData)
  lastSessionRefreshes : Nat
  lastRun : Int
  monitor : Option Nat
  phase : Nat → Phase
  messages : List (Nat × List (String × SessionData))
  puts : List Put

inductive Label where
  /-- A thread calls `putLastSessionRefresh` and reads the field. -/
  | putLastSessionRefresh (thread : Nat) (sessionId : String) (data : SessionData)
  | put (thread : Nat)
  /-- The timer calls `checkSendingMessage`. -/
  | checkSendingMessage (thread : Nat) (currentTime : Int)
  | readField (thread : Nat)
  | size (thread : Nat)
  | readLastRun (thread : Nat)
  | enter (thread : Nat)
  | setField (thread : Nat)
  /-- `lastRun` is set and the monitor is left. -/
  | setLastRun (thread : Nat)
  | sendMessage (thread : Nat)
  deriving DecidableEq, Repr

def State.setPhase (s : State) (thread : Nat) (phase : Phase) : State :=
  { s with phase := Function.update s.phase thread phase }

/-- Where the condition leads when it holds. -/
def proceed (synchronized : Bool) (currentTime : Int) : Phase :=
  if synchronized then .swapping currentTime else .entering currentTime

def State.marshalled (s : State) : List Nat := s.messages.map Prod.fst

def step (maxIntervalBetweenMessagesSeconds maxCount : Int) (s : State) : Label → Option State
  | .putLastSessionRefresh thread sessionId data =>
      match s.phase thread with
      | .idle => some (s.setPhase thread (.putting s.lastSessionRefreshes sessionId data))
      | _ => none
  | .put thread =>
      match s.phase thread with
      | .putting map sessionId data =>
          some { s.setPhase thread (.checking false data.lastSessionRefresh) with
            maps := Function.update s.maps map
              (LinkedMap.alter sessionId (fun _ => data) (s.maps map))
            puts := ⟨map, sessionId, data, map ∈ s.marshalled⟩ :: s.puts }
      | _ => none
  | .checkSendingMessage thread currentTime =>
      match s.phase thread with
      | .idle => some (s.setPhase thread (.checking false currentTime))
      | _ => none
  | .readField thread =>
      match s.phase thread with
      | .checking synchronized currentTime =>
          some (s.setPhase thread (.sizing synchronized currentTime s.lastSessionRefreshes))
      | _ => none
  | .size thread =>
      match s.phase thread with
      | .sizing synchronized currentTime map =>
          if (s.maps map).length ≥ maxCount then
            some (s.setPhase thread (proceed synchronized currentTime))
          else some (s.setPhase thread (.comparing synchronized currentTime))
      | _ => none
  | .readLastRun thread =>
      match s.phase thread with
      | .comparing synchronized currentTime =>
          if wrap (s.lastRun + maxIntervalBetweenMessagesSeconds) ≤ currentTime then
            some (s.setPhase thread (proceed synchronized currentTime))
          else if synchronized then some { s.setPhase thread .idle with monitor := none }
          else some (s.setPhase thread .idle)
      | _ => none
  | .enter thread =>
      match s.phase thread with
      | .entering currentTime =>
          if s.monitor = none then
            some { s.setPhase thread (.checking true currentTime) with monitor := some thread }
          else none
      | _ => none
  | .setField thread =>
      match s.phase thread with
      | .swapping currentTime =>
          some { s.setPhase thread (.leaving currentTime s.lastSessionRefreshes) with
            lastSessionRefreshes := s.lastSessionRefreshes + 1 }
      | _ => none
  | .setLastRun thread =>
      match s.phase thread with
      | .leaving currentTime copiedRefreshesToSend =>
          some { s.setPhase thread (.sending copiedRefreshesToSend) with
            lastRun := currentTime
            monitor := none }
      | _ => none
  | .sendMessage thread =>
      match s.phase thread with
      | .sending refreshesToSend =>
          some { s.setPhase thread .idle with
            messages := (refreshesToSend, s.maps refreshesToSend) :: s.messages }
      | _ => none

def initial (currentTime : Int) : State :=
  ⟨fun _ => [], 0, currentTime, none, fun _ => .idle, [], []⟩

/-! ## What a step does -/

/-- The map that a thread has taken out of the field. -/
def Phase.taken : Phase → Option Nat
  | .leaving _ map | .sending map => some map
  | _ => none

def Phase.inside : Phase → Bool
  | .checking synchronized _ | .sizing synchronized _ _ | .comparing synchronized _ => synchronized
  | .swapping _ | .leaving _ _ => true
  | _ => false

/-- Between the call of `checkSendingMessage` and the swap. -/
def Phase.deciding : Phase → Option Int
  | .checking _ currentTime | .sizing _ currentTime _ | .comparing _ currentTime => some currentTime
  | .entering currentTime | .swapping currentTime => some currentTime
  | _ => none

section

variable {maxInterval maxCount : Int} {s t : State} {label : Label}

@[simp] theorem proceed_taken (synchronized : Bool) (currentTime : Int) :
    (proceed synchronized currentTime).taken = none := by
  cases synchronized <;> rfl

@[simp] theorem proceed_inside (synchronized : Bool) (currentTime : Int) :
    (proceed synchronized currentTime).inside = synchronized := by
  cases synchronized <;> rfl

@[simp] theorem proceed_deciding (synchronized : Bool) (currentTime : Int) :
    (proceed synchronized currentTime).deciding = some currentTime := by
  cases synchronized <;> rfl

theorem proceed_ne_putting (synchronized : Bool) (currentTime : Int) (map : Nat)
    (sessionId : String) (data : SessionData) :
    proceed synchronized currentTime ≠ .putting map sessionId data := by
  cases synchronized <;> exact Phase.noConfusion

structure Quiet (s : State) (thread : Nat) (phase : Phase) (t : State) : Prop where
  eq : ∃ monitor, t = { s.setPhase thread phase with monitor }
  before : (s.phase thread).taken = none
  after : phase.taken = none
  putting : ∀ map sessionId data, phase = .putting map sessionId data →
    map = s.lastSessionRefreshes

theorem quiet_setPhase {thread : Nat} {old phase : Phase} (hphase : s.phase thread = old)
    (hbefore : old.taken = none) (hafter : phase.taken = none)
    (hputting : ∀ map sessionId data, phase ≠ .putting map sessionId data) (monitor : Option Nat) :
    Quiet s thread phase { s.setPhase thread phase with monitor } :=
  ⟨⟨monitor, rfl⟩, hphase ▸ hbefore, hafter, fun map sessionId data heq =>
    absurd heq (hputting map sessionId data)⟩

theorem step_cases (hstep : step maxInterval maxCount s label = some t) :
    (∃ thread phase, Quiet s thread phase t) ∨
    (∃ thread map sessionId data, s.phase thread = .putting map sessionId data ∧
      t = { s.setPhase thread (.checking false data.lastSessionRefresh) with
        maps := Function.update s.maps map
          (LinkedMap.alter sessionId (fun _ => data) (s.maps map))
        puts := ⟨map, sessionId, data, map ∈ s.marshalled⟩ :: s.puts }) ∨
    (∃ thread currentTime, s.phase thread = .swapping currentTime ∧
      t = { s.setPhase thread (.leaving currentTime s.lastSessionRefreshes) with
        lastSessionRefreshes := s.lastSessionRefreshes + 1 }) ∨
    (∃ thread currentTime map, s.phase thread = .leaving currentTime map ∧
      t = { s.setPhase thread (.sending map) with lastRun := currentTime, monitor := none }) ∨
    (∃ thread map, s.phase thread = .sending map ∧
      t = { s.setPhase thread .idle with messages := (map, s.maps map) :: s.messages }) := by
  cases label with
  | putLastSessionRefresh thread sessionId data =>
      simp only [step] at hstep
      split at hstep <;> cases hstep
      rename_i hphase
      refine .inl ⟨thread, _, ⟨s.monitor, rfl⟩, by rw [hphase]; rfl, rfl, ?_⟩
      intro map sessionId data heq
      cases heq
      rfl
  | put thread =>
      simp only [step] at hstep
      split at hstep <;> cases hstep
      exact .inr (.inl ⟨thread, _, _, _, ‹_›, rfl⟩)
  | checkSendingMessage thread currentTime =>
      simp only [step] at hstep
      split at hstep <;> cases hstep
      exact .inl ⟨thread, _, quiet_setPhase ‹_› rfl rfl (fun _ _ _ => Phase.noConfusion) s.monitor⟩
  | readField thread =>
      simp only [step] at hstep
      split at hstep <;> cases hstep
      exact .inl ⟨thread, _, quiet_setPhase ‹_› rfl rfl (fun _ _ _ => Phase.noConfusion) s.monitor⟩
  | size thread =>
      simp only [step] at hstep
      split at hstep
      · rename_i hphase
        split at hstep <;> cases hstep
        · exact .inl ⟨thread, _, quiet_setPhase hphase rfl (proceed_taken ..)
            (proceed_ne_putting _ _) s.monitor⟩
        · exact .inl ⟨thread, _, quiet_setPhase hphase rfl rfl
            (fun _ _ _ => Phase.noConfusion) s.monitor⟩
      · cases hstep
  | readLastRun thread =>
      simp only [step] at hstep
      split at hstep
      · rename_i hphase
        split at hstep
        · cases hstep
          exact .inl ⟨thread, _, quiet_setPhase hphase rfl (proceed_taken ..)
            (proceed_ne_putting _ _) s.monitor⟩
        · split at hstep <;> cases hstep
          · exact .inl ⟨thread, _, quiet_setPhase hphase rfl rfl
              (fun _ _ _ => Phase.noConfusion) none⟩
          · exact .inl ⟨thread, _, quiet_setPhase hphase rfl rfl
              (fun _ _ _ => Phase.noConfusion) s.monitor⟩
      · cases hstep
  | enter thread =>
      simp only [step] at hstep
      split at hstep
      · rename_i hphase
        split at hstep <;> cases hstep
        exact .inl ⟨thread, _, quiet_setPhase hphase rfl rfl
          (fun _ _ _ => Phase.noConfusion) (some thread)⟩
      · cases hstep
  | setField thread =>
      simp only [step] at hstep
      split at hstep <;> cases hstep
      exact .inr (.inr (.inl ⟨thread, _, ‹_›, rfl⟩))
  | setLastRun thread =>
      simp only [step] at hstep
      split at hstep <;> cases hstep
      exact .inr (.inr (.inr (.inl ⟨thread, _, _, ‹_›, rfl⟩)))
  | sendMessage thread =>
      simp only [step] at hstep
      split at hstep <;> cases hstep
      exact .inr (.inr (.inr (.inr ⟨thread, _, ‹_›, rfl⟩)))

theorem setPhase_phase (s : State) (thread : Nat) (phase : Phase) (other : Nat) :
    (s.setPhase thread phase).phase other = if other = thread then phase else s.phase other :=
  Function.update_apply s.phase thread phase other

/-! ## Where the refreshes are -/

def latest (puts : List Put) (map : Nat) (sessionId : String) : Option SessionData :=
  (puts.find? fun p => p.map = map ∧ p.sessionId = sessionId).map (·.data)

theorem latest_cons (p : Put) (puts : List Put) (map : Nat) (sessionId : String) :
    latest (p :: puts) map sessionId =
      if p.map = map ∧ p.sessionId = sessionId then some p.data else latest puts map sessionId := by
  unfold latest
  rw [List.find?_cons]
  split_ifs with h
  · rw [decide_eq_true h, Option.map_some]
  · rw [decide_eq_false h]

theorem latest_isSome {puts : List Put} {p : Put} (hp : p ∈ puts) :
    (latest puts p.map p.sessionId).isSome := by
  rw [latest, Option.isSome_map, List.find?_isSome]
  exact ⟨p, hp, decide_eq_true ⟨rfl, rfl⟩⟩

def onTime (puts : List Put) : List Put := puts.filter fun p => !p.late

theorem latest_onTime {puts : List Put} {map : Nat} (h : ∀ p ∈ puts, p.map = map → p.late = false)
    (sessionId : String) : latest (onTime puts) map sessionId = latest puts map sessionId := by
  induction puts with
  | nil => rfl
  | cons p puts ih =>
      have hrest := ih fun q hq => h q (List.mem_cons_of_mem p hq)
      rw [onTime, List.filter_cons]
      by_cases hmap : p.map = map
      · rw [h p List.mem_cons_self hmap, if_pos (by rfl), latest_cons, latest_cons]
        exact ite_congr rfl (fun _ => rfl) fun _ => hrest
      · have hother : ¬ (p.map = map ∧ p.sessionId = sessionId) := fun heq => hmap heq.1
        split_ifs
        · rw [latest_cons, latest_cons, if_neg hother, if_neg hother]
          exact hrest
        · rw [latest_cons, if_neg hother]
          exact hrest

/-- Every map in use is in the field, taken by one thread or marshalled, and a map and its
message hold what was put. -/
structure Accounted (s : State) : Prop where
  taken : ∀ thread map, (s.phase thread).taken = some map →
    map < s.lastSessionRefreshes ∧ map ∉ s.marshalled
  takenOnce : ∀ thread other map, (s.phase thread).taken = some map →
    (s.phase other).taken = some map → thread = other
  marshalled : ∀ map ∈ s.marshalled, map < s.lastSessionRefreshes
  marshalledOnce : s.marshalled.Nodup
  covered : ∀ map, map < s.lastSessionRefreshes →
    map ∈ s.marshalled ∨ ∃ thread, (s.phase thread).taken = some map
  putting : ∀ thread map sessionId data, s.phase thread = .putting map sessionId data →
    map ≤ s.lastSessionRefreshes
  puts : ∀ p ∈ s.puts, p.map ≤ s.lastSessionRefreshes
  late : ∀ p ∈ s.puts, p.late = true → p.map ∈ s.marshalled
  maps : ∀ map sessionId, (s.maps map).lookup sessionId = latest s.puts map sessionId
  messages : ∀ map content, (map, content) ∈ s.messages → ∀ sessionId,
    content.lookup sessionId = latest (onTime s.puts) map sessionId
  distinct : ∀ map, (LinkedMap.keys (s.maps map)).Nodup
  distinctMessages : ∀ map content, (map, content) ∈ s.messages → (LinkedMap.keys content).Nodup

theorem initial_accounted (currentTime : Int) : Accounted (initial currentTime) where
  taken _ _ h := by cases h
  takenOnce _ _ _ h := by cases h
  marshalled _ h := absurd h List.not_mem_nil
  marshalledOnce := List.nodup_nil
  covered _ h := absurd h (Nat.not_lt_zero _)
  putting _ _ _ _ h := by cases h
  puts _ h := absurd h List.not_mem_nil
  late _ h := absurd h List.not_mem_nil
  maps _ _ := rfl
  messages _ _ h := absurd h List.not_mem_nil
  distinct _ := List.nodup_nil
  distinctMessages _ _ h := absurd h List.not_mem_nil

theorem Accounted.quiet {thread : Nat} {phase : Phase} (h : Accounted s)
    (hquiet : Quiet s thread phase t) : Accounted t := by
  obtain ⟨⟨monitor, rfl⟩, hbefore, hafter, hputting⟩ := hquiet
  have htaken : ∀ other map, ((s.setPhase thread phase).phase other).taken = some map ↔
      (s.phase other).taken = some map := by
    intro other map
    rw [setPhase_phase]
    split_ifs with heq
    · rw [heq, hbefore, hafter]
    · rfl
  refine ⟨fun other map hother => h.taken other map ((htaken other map).mp hother),
    fun thread' other map h₁ h₂ => h.takenOnce thread' other map ((htaken thread' map).mp h₁)
      ((htaken other map).mp h₂), h.marshalled, h.marshalledOnce, fun map hmap => ?_,
    fun other map sessionId data hother => ?_, h.puts, h.late, h.maps, h.messages, h.distinct,
    h.distinctMessages⟩
  · rcases h.covered map hmap with hdone | ⟨other, hother⟩
    · exact .inl hdone
    · exact .inr ⟨other, (htaken other map).mpr hother⟩
  · change (s.setPhase thread phase).phase other = _ at hother
    rw [setPhase_phase] at hother
    split_ifs at hother with heq
    · exact Nat.le_of_eq (hputting map sessionId data hother)
    · exact h.putting other map sessionId data hother

theorem taken_setPhase_of_eq {thread : Nat} {phase : Phase}
    (heq : phase.taken = (s.phase thread).taken) (other : Nat) :
    ((s.setPhase thread phase).phase other).taken = (s.phase other).taken := by
  rw [setPhase_phase]
  split_ifs with hother
  · rw [hother, heq]
  · rfl

theorem Accounted.put {thread map : Nat} {sessionId : String} {data : SessionData}
    (h : Accounted s) (hphase : s.phase thread = .putting map sessionId data) :
    Accounted { s.setPhase thread (.checking false data.lastSessionRefresh) with
      maps := Function.update s.maps map (LinkedMap.alter sessionId (fun _ => data) (s.maps map))
      puts := ⟨map, sessionId, data, map ∈ s.marshalled⟩ :: s.puts } := by
  have htaken : ∀ other, ((s.setPhase thread
      (.checking false data.lastSessionRefresh)).phase other).taken = (s.phase other).taken :=
    taken_setPhase_of_eq (by rw [hphase]; rfl)
  refine ⟨fun other map' hother => h.taken other map' (htaken other ▸ hother),
    fun thread' other map' h₁ h₂ =>
      h.takenOnce thread' other map' (htaken thread' ▸ h₁) (htaken other ▸ h₂),
    h.marshalled, h.marshalledOnce, fun map' hmap => ?_, fun other map' id data' hother => ?_,
    fun q hq => ?_, fun q hq hlate => ?_, fun map' id => ?_, fun map' content hmem id => ?_,
    fun map' => ?_, h.distinctMessages⟩
  · rcases h.covered map' hmap with hdone | ⟨other, hother⟩
    · exact .inl hdone
    · exact .inr ⟨other, (htaken other).trans hother⟩
  · change (s.setPhase thread _).phase other = _ at hother
    rw [setPhase_phase] at hother
    split_ifs at hother
    exact h.putting other map' id data' hother
  · rcases List.mem_cons.mp hq with rfl | hq
    · exact h.putting thread map sessionId data hphase
    · exact h.puts q hq
  · rcases List.mem_cons.mp hq with rfl | hq
    · exact of_decide_eq_true hlate
    · exact h.late q hq hlate
  · change (Function.update s.maps map _ map').lookup id = _
    rw [latest_cons]
    by_cases hmap : map' = map
    · subst hmap
      rw [Function.update_self]
      by_cases hid : id = sessionId
      · rw [hid, LinkedMap.lookup_alter_self, if_pos ⟨rfl, rfl⟩]
      · rw [LinkedMap.lookup_alter_of_ne hid, if_neg fun heq => hid heq.2.symm]
        exact h.maps map' id
    · rw [Function.update_of_ne hmap, if_neg fun heq => hmap heq.1.symm]
      exact h.maps map' id
  · have hmarshalled : map' ∈ s.marshalled := List.mem_map_of_mem hmem
    rw [h.messages map' content hmem id, onTime, onTime, List.filter_cons]
    split_ifs with hlate
    · -- a call in time is not on the map of a message
      rw [latest_cons, if_neg]
      rintro ⟨rfl, -⟩
      simp [hmarshalled] at hlate
    · rfl
  · change (LinkedMap.keys (Function.update s.maps map _ map')).Nodup
    rw [Function.update_apply]
    split_ifs
    · exact LinkedMap.nodup_keys_alter (h.distinct map) _
    · exact h.distinct map'

theorem Accounted.setField {thread : Nat} {currentTime : Int} (h : Accounted s)
    (hphase : s.phase thread = .swapping currentTime) :
    Accounted { s.setPhase thread (.leaving currentTime s.lastSessionRefreshes) with
      lastSessionRefreshes := s.lastSessionRefreshes + 1 } := by
  have htaken : ∀ other map, ((s.setPhase thread
      (.leaving currentTime s.lastSessionRefreshes)).phase other).taken = some map →
      (other = thread ∧ map = s.lastSessionRefreshes) ∨
        other ≠ thread ∧ (s.phase other).taken = some map := by
    intro other map hother
    rw [setPhase_phase] at hother
    split_ifs at hother with heq
    · exact .inl ⟨heq, (Option.some.inj hother).symm⟩
    · exact .inr ⟨heq, hother⟩
  have hfresh : s.lastSessionRefreshes ∉ s.marshalled := fun hmem =>
    absurd (h.marshalled _ hmem) (Nat.lt_irrefl _)
  refine ⟨fun other map hother => ?_, fun thread' other map h₁ h₂ => ?_,
    fun map hmap => Nat.lt_succ_of_lt (h.marshalled map hmap), h.marshalledOnce,
    fun map hmap => ?_, fun other map id data hother => ?_,
    fun q hq => Nat.le_succ_of_le (h.puts q hq), h.late, h.maps, h.messages, h.distinct,
    h.distinctMessages⟩
  · rcases htaken other map hother with ⟨-, rfl⟩ | ⟨-, hold⟩
    · exact ⟨Nat.lt_succ_self _, hfresh⟩
    · exact ⟨Nat.lt_succ_of_lt (h.taken other map hold).1, (h.taken other map hold).2⟩
  · rcases htaken thread' map h₁ with ⟨rfl, rfl⟩ | ⟨-, hold⟩
    · rcases htaken other _ h₂ with ⟨rfl, -⟩ | ⟨-, hold'⟩
      · rfl
      · exact absurd (h.taken other _ hold').1 (Nat.lt_irrefl _)
    · rcases htaken other map h₂ with ⟨-, rfl⟩ | ⟨-, hold'⟩
      · exact absurd (h.taken thread' _ hold).1 (Nat.lt_irrefl _)
      · exact h.takenOnce thread' other map hold hold'
  · rcases Nat.lt_succ_iff_lt_or_eq.mp hmap with hlt | rfl
    · rcases h.covered map hlt with hdone | ⟨other, hother⟩
      · exact .inl hdone
      · refine .inr ⟨other, ?_⟩
        change ((s.setPhase thread _).phase other).taken = _
        rw [setPhase_phase, if_neg]
        · exact hother
        · rintro rfl
          rw [hphase] at hother
          cases hother
    · refine .inr ⟨thread, ?_⟩
      change ((s.setPhase thread _).phase thread).taken = _
      rw [setPhase_phase, if_pos rfl]
      rfl
  · change (s.setPhase thread _).phase other = _ at hother
    rw [setPhase_phase] at hother
    split_ifs at hother
    exact Nat.le_succ_of_le (h.putting other map id data hother)

theorem Accounted.setLastRun {thread map : Nat} {currentTime : Int} (h : Accounted s)
    (hphase : s.phase thread = .leaving currentTime map) :
    Accounted { s.setPhase thread (.sending map) with
      lastRun := currentTime, monitor := none } := by
  have htaken : ∀ other, ((s.setPhase thread (.sending map)).phase other).taken =
      (s.phase other).taken := taken_setPhase_of_eq (by rw [hphase]; rfl)
  refine ⟨fun other map' hother => h.taken other map' (htaken other ▸ hother),
    fun thread' other map' h₁ h₂ =>
      h.takenOnce thread' other map' (htaken thread' ▸ h₁) (htaken other ▸ h₂),
    h.marshalled, h.marshalledOnce, fun map' hmap => ?_, fun other map' id data hother => ?_,
    h.puts, h.late, h.maps, h.messages, h.distinct, h.distinctMessages⟩
  · rcases h.covered map' hmap with hdone | ⟨other, hother⟩
    · exact .inl hdone
    · exact .inr ⟨other, (htaken other).trans hother⟩
  · change (s.setPhase thread _).phase other = _ at hother
    rw [setPhase_phase] at hother
    split_ifs at hother
    exact h.putting other map' id data hother

theorem Accounted.sendMessage {thread map : Nat} (h : Accounted s)
    (hphase : s.phase thread = .sending map) :
    Accounted { s.setPhase thread .idle with messages := (map, s.maps map) :: s.messages } := by
  have hmine : (s.phase thread).taken = some map := by rw [hphase]; rfl
  obtain ⟨hlt, hnew⟩ := h.taken thread map hmine
  have htaken : ∀ other map', ((s.setPhase thread .idle).phase other).taken = some map' →
      other ≠ thread ∧ (s.phase other).taken = some map' := by
    intro other map' hother
    rw [setPhase_phase] at hother
    split_ifs at hother with heq
    · cases hother
    · exact ⟨heq, hother⟩
  have hall : ∀ p ∈ s.puts, p.map = map → p.late = false := by
    intro p hp heq
    by_contra hlate
    exact hnew (heq ▸ h.late p hp (by simpa using hlate))
  refine ⟨fun other map' hother => ?_, fun thread' other map' h₁ h₂ =>
      h.takenOnce thread' other map' (htaken thread' map' h₁).2 (htaken other map' h₂).2,
    fun map' hmap => ?_, List.nodup_cons.mpr ⟨hnew, h.marshalledOnce⟩, fun map' hmap => ?_,
    fun other map' id data hother => ?_, h.puts,
    fun p hp hlate => List.mem_cons_of_mem map (h.late p hp hlate), h.maps,
    fun map' content hmem id => ?_, h.distinct, fun map' content hmem => ?_⟩
  · obtain ⟨hne, hold⟩ := htaken other map' hother
    refine ⟨(h.taken other map' hold).1, fun hmem => ?_⟩
    rcases List.mem_cons.mp hmem with rfl | hmem
    · exact hne (h.takenOnce other thread map' hold hmine)
    · exact (h.taken other map' hold).2 hmem
  · rcases List.mem_cons.mp hmap with rfl | hmap
    · exact hlt
    · exact h.marshalled map' hmap
  · rcases h.covered map' hmap with hdone | ⟨other, hother⟩
    · exact .inl (List.mem_cons_of_mem map hdone)
    · by_cases hsame : other = thread
      · rw [hsame, hmine] at hother
        exact .inl (Option.some.inj hother ▸ List.mem_cons_self)
      · refine .inr ⟨other, ?_⟩
        change ((s.setPhase thread .idle).phase other).taken = _
        rw [setPhase_phase, if_neg hsame]
        exact hother
  · change (s.setPhase thread .idle).phase other = _ at hother
    rw [setPhase_phase] at hother
    split_ifs at hother
    exact h.putting other map' id data hother
  · rcases List.mem_cons.mp hmem with heq | hmem
    · cases heq
      exact (h.maps map id).trans (latest_onTime hall id).symm
    · exact h.messages map' content hmem id
  · rcases List.mem_cons.mp hmem with heq | hmem
    · cases heq
      exact h.distinct map
    · exact h.distinctMessages map' content hmem

theorem step_accounted (h : Accounted s) (hstep : step maxInterval maxCount s label = some t) :
    Accounted t := by
  rcases step_cases hstep with ⟨thread, phase, hquiet⟩ | ⟨thread, map, sessionId, data, hphase, rfl⟩
    | ⟨thread, currentTime, hphase, rfl⟩ | ⟨thread, currentTime, map, hphase, rfl⟩
    | ⟨thread, map, hphase, rfl⟩
  · exact h.quiet hquiet
  · exact h.put hphase
  · exact h.setField hphase
  · exact h.setLastRun hphase
  · exact h.sendMessage hphase

theorem run_accounted {currentTime : Int} {labels : List Label}
    (hrun : run (step maxInterval maxCount) (initial currentTime) labels = some s) :
    Accounted s :=
  run_invariant_all (fun _ _ _ => step_accounted) (initial_accounted currentTime) hrun

/-! ## When a message is sent -/

/-- One thread at a time is in `prepareSendingMessage`, it sees the map that is in the field,
and it swaps a map that is full or old. -/
structure Locked (maxInterval maxCount : Int) (s : State) : Prop where
  monitor : ∀ thread, (s.phase thread).inside = true → s.monitor = some thread
  sizing : ∀ thread currentTime map, s.phase thread = .sizing true currentTime map →
    map = s.lastSessionRefreshes
  due : ∀ thread currentTime, s.phase thread = .swapping currentTime →
    maxCount ≤ (s.maps s.lastSessionRefreshes).length ∨
      wrap (s.lastRun + maxInterval) ≤ currentTime

theorem initial_locked (currentTime : Int) : Locked maxInterval maxCount (initial currentTime) where
  monitor _ h := by cases h
  sizing _ _ _ h := by cases h
  due _ _ h := by cases h

theorem Locked.move {thread : Nat} {phase : Phase} (h : Locked maxInterval maxCount s)
    (hphase : t.phase = Function.update s.phase thread phase)
    (hothers : ∀ other, other ≠ thread → (s.phase other).inside = true →
      t.monitor = s.monitor ∧ t.lastSessionRefreshes = s.lastSessionRefreshes ∧
        t.lastRun = s.lastRun)
    (hmaps : ∀ map, (s.maps map).length ≤ (t.maps map).length)
    (hmonitor : phase.inside = true → t.monitor = some thread)
    (hsizing : ∀ currentTime map, phase = .sizing true currentTime map →
      map = t.lastSessionRefreshes)
    (hdue : ∀ currentTime, phase = .swapping currentTime →
      maxCount ≤ (t.maps t.lastSessionRefreshes).length ∨
        wrap (t.lastRun + maxInterval) ≤ currentTime) :
    Locked maxInterval maxCount t := by
  refine ⟨fun other hother => ?_, fun other currentTime map hother => ?_,
    fun other currentTime hother => ?_⟩
  · rw [hphase, Function.update_apply] at hother
    split_ifs at hother with heq
    · rw [heq]
      exact hmonitor hother
    · rw [(hothers other heq hother).1]
      exact h.monitor other hother
  · rw [hphase, Function.update_apply] at hother
    split_ifs at hother with heq
    · exact hsizing currentTime map hother
    · rw [(hothers other heq (by rw [hother]; rfl)).2.1]
      exact h.sizing other currentTime map hother
  · rw [hphase, Function.update_apply] at hother
    split_ifs at hother with heq
    · exact hdue currentTime hother
    · obtain ⟨-, hfield, hlastRun⟩ := hothers other heq (by rw [hother]; rfl)
      rw [hfield, hlastRun]
      exact (h.due other currentTime hother).imp_left fun hfull =>
        Int.le_trans hfull (Int.ofNat_le.mpr (hmaps _))

theorem Locked.alone {thread : Nat} (h : Locked maxInterval maxCount s)
    (hinside : (s.phase thread).inside = true) {other : Nat} (hne : other ≠ thread) :
    (s.phase other).inside ≠ true := by
  intro hother
  have heq := (h.monitor other hother).symm.trans (h.monitor thread hinside)
  exact hne (Option.some.inj heq)

theorem Locked.setPhase {thread : Nat} {phase : Phase} (h : Locked maxInterval maxCount s)
    (hmonitor : phase.inside = true → (s.phase thread).inside = true)
    (hsizing : ∀ currentTime map, phase = .sizing true currentTime map →
      map = s.lastSessionRefreshes)
    (hdue : ∀ currentTime, phase = .swapping currentTime →
      maxCount ≤ (s.maps s.lastSessionRefreshes).length ∨
        wrap (s.lastRun + maxInterval) ≤ currentTime) :
    Locked maxInterval maxCount (s.setPhase thread phase) :=
  h.move rfl (fun _ _ _ => ⟨rfl, rfl, rfl⟩) (fun _ => Nat.le_refl _)
    (fun hinside => h.monitor thread (hmonitor hinside)) hsizing hdue

theorem length_le_alter {K V : Type} [DecidableEq K] (k : K) (f : Option V → V)
    (m : List (K × V)) : m.length ≤ (LinkedMap.alter k f m).length := by
  induction m with
  | nil => exact Nat.zero_le _
  | cons e rest ih =>
      rw [LinkedMap.alter]
      split
      · exact Nat.le_refl _
      · exact Nat.succ_le_succ ih

theorem proceed_swapping {synchronized : Bool} {currentTime time : Int}
    (h : proceed synchronized currentTime = .swapping time) :
    synchronized = true ∧ time = currentTime := by
  cases synchronized with
  | false => cases h
  | true => cases h; exact ⟨rfl, rfl⟩

theorem proceed_ne_sizing (synchronized : Bool) (currentTime time : Int) (map : Nat) :
    proceed synchronized currentTime ≠ .sizing true time map := by
  cases synchronized <;> exact Phase.noConfusion

theorem step_locked (h : Locked maxInterval maxCount s)
    (hstep : step maxInterval maxCount s label = some t) : Locked maxInterval maxCount t := by
  cases label with
  | putLastSessionRefresh thread sessionId data =>
      simp only [step] at hstep
      split at hstep <;> cases hstep
      exact h.setPhase Bool.noConfusion (fun _ _ => Phase.noConfusion) fun _ => Phase.noConfusion
  | put thread =>
      simp only [step] at hstep
      split at hstep <;> cases hstep
      rename_i map sessionId data hphase
      refine h.move rfl (fun _ _ _ => ⟨rfl, rfl, rfl⟩) (fun other => ?_) Bool.noConfusion
        (fun _ _ => Phase.noConfusion) fun _ => Phase.noConfusion
      change (s.maps other).length ≤ (Function.update s.maps map _ other).length
      rw [Function.update_apply]
      split_ifs with heq
      · rw [heq]
        exact length_le_alter ..
      · exact Nat.le_refl _
  | checkSendingMessage thread currentTime =>
      simp only [step] at hstep
      split at hstep <;> cases hstep
      exact h.setPhase Bool.noConfusion (fun _ _ => Phase.noConfusion) fun _ => Phase.noConfusion
  | readField thread =>
      simp only [step] at hstep
      split at hstep <;> cases hstep
      rename_i hphase
      refine h.setPhase (fun hinside => by rw [hphase]; exact hinside) (fun _ _ heq => ?_)
        fun _ => Phase.noConfusion
      cases heq
      rfl
  | size thread =>
      simp only [step] at hstep
      split at hstep
      · rename_i synchronized currentTime map hphase
        split at hstep <;> cases hstep
        · rename_i hfull
          refine h.setPhase (fun hinside => ?_)
            (fun _ _ heq => (proceed_ne_sizing _ _ _ _ heq).elim) fun time heq => ?_
          · rw [proceed_inside] at hinside
            rw [hphase]
            exact hinside
          · obtain ⟨rfl, rfl⟩ := proceed_swapping heq
            exact .inl (h.sizing thread _ map hphase ▸ hfull)
        · exact h.setPhase (fun hinside => by rw [hphase]; exact hinside)
            (fun _ _ => Phase.noConfusion) fun _ => Phase.noConfusion
      · cases hstep
  | readLastRun thread =>
      simp only [step] at hstep
      split at hstep
      · rename_i synchronized currentTime hphase
        split at hstep
        · rename_i hold
          cases hstep
          refine h.setPhase (fun hinside => ?_)
            (fun _ _ heq => (proceed_ne_sizing _ _ _ _ heq).elim) fun time heq => ?_
          · rw [proceed_inside] at hinside
            rw [hphase]
            exact hinside
          · obtain ⟨-, rfl⟩ := proceed_swapping heq
            exact .inr hold
        · split at hstep <;> cases hstep
          · rename_i hsynchronized
            have hinside : (s.phase thread).inside = true := by
              rw [hphase]
              exact hsynchronized
            exact h.move rfl (fun other hne hother => absurd hother (h.alone hinside hne))
              (fun _ => Nat.le_refl _) Bool.noConfusion (fun _ _ => Phase.noConfusion)
              fun _ => Phase.noConfusion
          · exact h.setPhase Bool.noConfusion (fun _ _ => Phase.noConfusion)
              fun _ => Phase.noConfusion
      · cases hstep
  | enter thread =>
      simp only [step] at hstep
      split at hstep
      · split at hstep <;> cases hstep
        rename_i hfree
        refine h.move rfl (fun other _ hother => ?_) (fun _ => Nat.le_refl _) (fun _ => rfl)
          (fun _ _ => Phase.noConfusion) fun _ => Phase.noConfusion
        cases hfree.symm.trans (h.monitor other hother)
      · cases hstep
  | setField thread =>
      simp only [step] at hstep
      split at hstep <;> cases hstep
      rename_i hphase
      have hinside : (s.phase thread).inside = true := by rw [hphase]; rfl
      exact h.move rfl (fun other hne hother => absurd hother (h.alone hinside hne))
        (fun _ => Nat.le_refl _) (fun _ => h.monitor thread hinside)
        (fun _ _ => Phase.noConfusion) fun _ => Phase.noConfusion
  | setLastRun thread =>
      simp only [step] at hstep
      split at hstep <;> cases hstep
      rename_i hphase
      have hinside : (s.phase thread).inside = true := by rw [hphase]; rfl
      exact h.move rfl (fun other hne hother => absurd hother (h.alone hinside hne))
        (fun _ => Nat.le_refl _) Bool.noConfusion (fun _ _ => Phase.noConfusion)
        fun _ => Phase.noConfusion
  | sendMessage thread =>
      simp only [step] at hstep
      split at hstep <;> cases hstep
      exact h.move rfl (fun _ _ _ => ⟨rfl, rfl, rfl⟩) (fun _ => Nat.le_refl _) Bool.noConfusion
        (fun _ _ => Phase.noConfusion) fun _ => Phase.noConfusion

theorem run_locked {currentTime : Int} {labels : List Label}
    (hrun : run (step maxInterval maxCount) (initial currentTime) labels = some s) :
    Locked maxInterval maxCount s :=
  run_invariant_all (fun _ _ _ => step_locked) (initial_locked currentTime) hrun

/-- The interval is over at `currentTime`, whatever is about to be written to `lastRun`. -/
def Due (maxInterval currentTime : Int) (s : State) : Prop :=
  wrap (s.lastRun + maxInterval) ≤ currentTime ∧
    ∀ thread time map, s.phase thread = .leaving time map → wrap (time + maxInterval) ≤ currentTime

theorem field_le (hstep : step maxInterval maxCount s label = some t) :
    s.lastSessionRefreshes ≤ t.lastSessionRefreshes := by
  rcases step_cases hstep with ⟨thread, phase, ⟨monitor, rfl⟩, -⟩ | ⟨_, _, _, _, -, rfl⟩
    | ⟨_, _, -, rfl⟩ | ⟨_, _, _, -, rfl⟩ | ⟨_, _, -, rfl⟩
  case inr.inr.inl => exact Nat.le_succ _
  all_goals exact Nat.le_refl _

theorem Due.step {currentTime : Int} (h : Due maxInterval currentTime s)
    (hstep : step maxInterval maxCount s label = some t) :
    s.lastSessionRefreshes < t.lastSessionRefreshes ∨ Due maxInterval currentTime t := by
  have hkeep : ∀ {thread : Nat} {phase : Phase}, phase.taken = none ∨
      (∃ map, phase = .sending map) → ∀ other time map,
      (s.setPhase thread phase).phase other = .leaving time map →
      wrap (time + maxInterval) ≤ currentTime := by
    intro thread phase hphase other time map hother
    rw [setPhase_phase] at hother
    split_ifs at hother
    · rcases hphase with hnone | ⟨_, rfl⟩
      · rw [hother] at hnone
        cases hnone
      · cases hother
    · exact h.2 other time map hother
  rcases step_cases hstep with ⟨thread, phase, ⟨monitor, rfl⟩, -, hafter, -⟩
    | ⟨thread, map, sessionId, data, -, rfl⟩ | ⟨thread, time, -, rfl⟩
    | ⟨thread, time, map, hphase, rfl⟩ | ⟨thread, map, -, rfl⟩
  · exact .inr ⟨h.1, hkeep (.inl hafter)⟩
  · exact .inr ⟨h.1, hkeep (.inl rfl)⟩
  · exact .inl (Nat.lt_succ_self _)
  · exact .inr ⟨h.2 thread time map hphase, hkeep (.inr ⟨map, rfl⟩)⟩
  · exact .inr ⟨h.1, hkeep (.inl rfl)⟩

/-- A thread that decides at a time when the interval is over goes on until the map is
swapped. -/
theorem deciding_step {thread : Nat} {currentTime : Int}
    (hdeciding : (s.phase thread).deciding = some currentTime)
    (hdue : wrap (s.lastRun + maxInterval) ≤ currentTime)
    (hstep : step maxInterval maxCount s label = some t) :
    s.lastSessionRefreshes < t.lastSessionRefreshes ∨
      (t.phase thread).deciding = some currentTime := by
  have hmove : ∀ {mover : Nat} {old phase : Phase}, s.phase mover = old →
      (∀ time, old.deciding = some time → wrap (s.lastRun + maxInterval) ≤ time →
        phase.deciding = some time) →
      ((s.setPhase mover phase).phase thread).deciding = some currentTime := by
    intro mover old phase hold hphase
    rw [setPhase_phase]
    split_ifs with heq
    · subst heq
      rw [hold] at hdeciding
      exact hphase currentTime hdeciding hdue
    · exact hdeciding
  cases label with
  | putLastSessionRefresh mover sessionId data =>
      simp only [step] at hstep
      split at hstep <;> cases hstep
      exact .inr (hmove ‹_› fun _ htime _ => by cases htime)
  | put mover =>
      simp only [step] at hstep
      split at hstep <;> cases hstep
      exact .inr (hmove ‹_› fun _ htime _ => by cases htime)
  | checkSendingMessage mover time =>
      simp only [step] at hstep
      split at hstep <;> cases hstep
      exact .inr (hmove ‹_› fun _ htime _ => by cases htime)
  | readField mover =>
      simp only [step] at hstep
      split at hstep <;> cases hstep
      rename_i hphase
      exact .inr (hmove hphase fun _ htime _ => htime)
  | size mover =>
      simp only [step] at hstep
      split at hstep
      · rename_i hphase
        split at hstep <;> cases hstep
        · exact .inr (hmove hphase fun _ htime _ => (proceed_deciding ..).trans htime)
        · exact .inr (hmove hphase fun _ htime _ => htime)
      · cases hstep
  | readLastRun mover =>
      simp only [step] at hstep
      split at hstep
      · rename_i hphase
        split at hstep
        · cases hstep
          exact .inr (hmove hphase fun _ htime _ => (proceed_deciding ..).trans htime)
        · rename_i hearly
          split at hstep <;> cases hstep <;>
            exact .inr (hmove hphase fun _ htime hdue =>
              absurd (Option.some.inj htime ▸ hdue) hearly)
      · cases hstep
  | enter mover =>
      simp only [step] at hstep
      split at hstep
      · rename_i hphase
        split at hstep <;> cases hstep
        exact .inr (hmove hphase fun _ htime _ => htime)
      · cases hstep
  | setField mover =>
      simp only [step] at hstep
      split at hstep <;> cases hstep
      exact .inl (Nat.lt_succ_self _)
  | setLastRun mover =>
      simp only [step] at hstep
      split at hstep <;> cases hstep
      exact .inr (hmove ‹_› fun _ htime _ => by cases htime)
  | sendMessage mover =>
      simp only [step] at hstep
      split at hstep <;> cases hstep
      exact .inr (hmove ‹_› fun _ htime _ => by cases htime)

/-- The map of the beginning is swapped, or the thread still decides. -/
def Swapped (maxInterval currentTime : Int) (thread map : Nat) (s : State) : Prop :=
  map < s.lastSessionRefreshes ∨
    (map = s.lastSessionRefreshes ∧ Due maxInterval currentTime s ∧
      (s.phase thread).deciding = some currentTime)

theorem Swapped.step {thread map : Nat} {currentTime : Int}
    (h : Swapped maxInterval currentTime thread map s)
    (hstep : step maxInterval maxCount s label = some t) :
    Swapped maxInterval currentTime thread map t := by
  have hle := field_le hstep
  rcases h with hlt | ⟨rfl, hdue, hdeciding⟩
  · exact .inl (Nat.lt_of_lt_of_le hlt hle)
  · rcases Nat.lt_or_eq_of_le hle with hlt | heq
    · exact .inl hlt
    · have hsame : ¬ s.lastSessionRefreshes < t.lastSessionRefreshes := by omega
      exact .inr ⟨heq, (hdue.step hstep).resolve_left hsame,
        (deciding_step hdeciding hdue.1 hstep).resolve_left hsame⟩

/-- A check that begins when the interval is over ends with another map in the field. -/
theorem check_swaps {thread : Nat} {currentTime : Int} {labels : List Label}
    (hdeciding : (s.phase thread).deciding = some currentTime)
    (hdue : Due maxInterval currentTime s)
    (hrun : run (step maxInterval maxCount) s labels = some t)
    (hdone : (t.phase thread).deciding = none) :
    s.lastSessionRefreshes < t.lastSessionRefreshes := by
  have hkeep : ∀ u label u', Swapped maxInterval currentTime thread s.lastSessionRefreshes u →
      LastSessionRefreshStore.step maxInterval maxCount u label = some u' →
      Swapped maxInterval currentTime thread s.lastSessionRefreshes u' :=
    fun _ _ _ => Swapped.step
  rcases run_invariant_all hkeep (.inr ⟨rfl, hdue, hdeciding⟩) hrun with hlt | ⟨-, -, hstill⟩
  · exact hlt
  · rw [hdone] at hstill
    cases hstill

/-- In every interleaving: no map is sent twice; a message holds for every session what the
last call in time put; what a call in time put is in the message of its map, or in its map,
which is then in the field or about to be sent by one thread; and a thread that swaps a map has
found it full or the interval over. -/
theorem refreshes_accounted {currentTime : Int} {labels : List Label}
    (hrun : run (step maxInterval maxCount) (initial currentTime) labels = some s) :
    s.marshalled.Nodup ∧
    (∀ map content, (map, content) ∈ s.messages → ∀ sessionId,
      content.lookup sessionId = latest (onTime s.puts) map sessionId) ∧
    (∀ p ∈ s.puts, p.late = false →
      (∃ content, (p.map, content) ∈ s.messages ∧ (content.lookup p.sessionId).isSome) ∨
      ((s.maps p.map).lookup p.sessionId = latest s.puts p.map p.sessionId ∧
        (p.map = s.lastSessionRefreshes ∨
          ∃ thread, (s.phase thread).taken = some p.map ∧
            ∀ other, (s.phase other).taken = some p.map → other = thread))) ∧
    ∀ thread time, s.phase thread = .swapping time →
      maxCount ≤ (s.maps s.lastSessionRefreshes).length ∨ wrap (s.lastRun + maxInterval) ≤ time := by
  have h := run_accounted hrun
  refine ⟨h.marshalledOnce, h.messages, fun p hp hlate => ?_, (run_locked hrun).due⟩
  rcases Nat.lt_or_eq_of_le (h.puts p hp) with hlt | heq
  · rcases h.covered p.map hlt with hdone | ⟨thread, hthread⟩
    · obtain ⟨⟨map, content⟩, hmem, rfl⟩ := List.mem_map.mp hdone
      have honTime : p ∈ onTime s.puts := List.mem_filter.mpr ⟨hp, by rw [hlate]; rfl⟩
      refine .inl ⟨content, hmem, ?_⟩
      rw [h.messages _ content hmem]
      exact latest_isSome honTime
    · exact .inr ⟨h.maps _ _, .inr ⟨thread, hthread, fun other hother =>
        h.takenOnce other thread p.map hother hthread⟩⟩
  · exact .inr ⟨h.maps _ _, .inl heq⟩

/-- The timer sends the map between the read of the field and the `put` of a request, which
comes too late. -/
def lateRun : List Label :=
  [.putLastSessionRefresh 0 "session" ⟨"realm", 69⟩, .checkSendingMessage 1 70, .readField 1,
    .size 1, .readLastRun 1, .enter 1, .readField 1, .size 1, .readLastRun 1, .setField 1,
    .setLastRun 1, .sendMessage 1, .put 0]

theorem refreshes_accounted_lateRun : ∃ s,
    run (step 60 100) (initial 0) lateRun = some s ∧
      s.puts = [⟨0, "session", ⟨"realm", 69⟩, true⟩] ∧ s.marshalled.Nodup ∧
      ∀ map content, (map, content) ∈ s.messages → content.lookup "session" = none := by
  obtain ⟨s, hs⟩ : ∃ s, run (step 60 100) (initial 0) lateRun = some s := ⟨_, rfl⟩
  have hputs : s.puts = [⟨0, "session", ⟨"realm", 69⟩, true⟩] := by
    cases hs
    rfl
  obtain ⟨hnodup, hmessages, -⟩ := refreshes_accounted hs
  refine ⟨s, hs, hputs, hnodup, fun map content hmem => ?_⟩
  rw [hmessages map content hmem, hputs]
  rfl

theorem puts_step (hstep : step maxInterval maxCount s label = some t) : s.puts ⊆ t.puts := by
  rcases step_cases hstep with ⟨thread, phase, ⟨⟨monitor, rfl⟩, -⟩⟩ |
    ⟨thread, map, sessionId, data, -, rfl⟩ | ⟨thread, currentTime, -, rfl⟩ |
    ⟨thread, currentTime, map, -, rfl⟩ | ⟨thread, map, -, rfl⟩
  · exact List.Subset.refl _
  · exact List.subset_cons_self _ _
  · exact List.Subset.refl _
  · exact List.Subset.refl _
  · exact List.Subset.refl _

/-- Once a check has run that began when the interval was over: for every refresh that was put in
time before that check, its session is in the message of its map with what the last call in time
put, or the map, with what the last call put, is taken by a thread that is about to send it. -/
theorem sent_after_check {start currentTime : Int} {pre labels : List Label} {thread : Nat}
    (hpre : run (step maxInterval maxCount) (initial start) pre = some s)
    (hdeciding : (s.phase thread).deciding = some currentTime) (hdue : Due maxInterval currentTime s)
    (hrun : run (step maxInterval maxCount) s labels = some t)
    (hdone : (t.phase thread).deciding = none) :
    ∀ p ∈ s.puts, p.late = false →
      (∃ content data, (p.map, content) ∈ t.messages ∧
        content.lookup p.sessionId = some data ∧
        latest (onTime t.puts) p.map p.sessionId = some data) ∨
      ∃ other data, (t.phase other).taken = some p.map ∧
        (t.maps p.map).lookup p.sessionId = some data ∧
        latest t.puts p.map p.sessionId = some data := by
  intro p hp hlate
  have hlt := check_swaps hdeciding hdue hrun hdone
  have ht := run_accounted (run_append_eq_some.mpr ⟨s, hpre, hrun⟩)
  have hkept : ∀ (u : State) label u', p ∈ u.puts → step maxInterval maxCount u label = some u' →
      p ∈ u'.puts := fun _ _ _ hu hstep => puts_step hstep hu
  have hput : p ∈ t.puts := run_invariant_all hkept hp hrun
  rcases ht.covered p.map (Nat.lt_of_le_of_lt ((run_accounted hpre).puts p hp) hlt) with
    hsent | ⟨other, hother⟩
  · obtain ⟨⟨map, content⟩, hmessage, rfl⟩ := List.mem_map.mp hsent
    have honTime : p ∈ onTime t.puts := List.mem_filter.mpr ⟨hput, by rw [hlate]; rfl⟩
    obtain ⟨data, hdata⟩ := Option.isSome_iff_exists.mp (latest_isSome honTime)
    exact .inl ⟨content, data, hmessage, (ht.messages _ content hmessage _).trans hdata, hdata⟩
  · obtain ⟨data, hdata⟩ := Option.isSome_iff_exists.mp (latest_isSome hput)
    exact .inr ⟨other, data, hother, (ht.maps _ _).trans hdata, hdata⟩

def timerRun : List Label :=
  [.readField 1, .size 1, .readLastRun 1, .enter 1, .readField 1, .size 1, .readLastRun 1,
    .setField 1, .setLastRun 1, .sendMessage 1]

def onePut : List Label :=
  [.putLastSessionRefresh 0 "session" ⟨"realm", 10⟩, .put 0, .checkSendingMessage 1 70]

/-- The refresh at 10, put before the check at 70, is in the message of the first map. -/
theorem sent_after_check_timer : ∃ s t,
    run (step 60 100) (initial 0) onePut = some s ∧ run (step 60 100) s timerRun = some t ∧
      ∃ content, (0, content) ∈ t.messages ∧
        content.lookup "session" = some ⟨"realm", 10⟩ := by
  obtain ⟨s, hs⟩ : ∃ s, run (step 60 100) (initial 0) onePut = some s := ⟨_, rfl⟩
  obtain ⟨t, ht⟩ : ∃ t, run (step 60 100) s timerRun = some t := by
    cases hs
    exact ⟨_, rfl⟩
  have hdue : Due 60 70 s := by
    cases hs
    refine ⟨by decide, fun thread time map hthread => ?_⟩
    simp only [State.setPhase, Function.update_apply, initial] at hthread
    split_ifs at hthread
  have hdeciding : (s.phase 1).deciding = some 70 := by
    cases hs
    rfl
  have hdone : (t.phase 1).deciding = none ∧
      t.puts = [⟨0, "session", ⟨"realm", 10⟩, false⟩] := by
    cases hs
    cases ht
    exact ⟨rfl, rfl⟩
  have hidle : ∀ other, (t.phase other).taken = none := by
    intro other
    cases hs
    cases ht
    simp only [State.setPhase, Function.update_apply, initial]
    split_ifs <;> rfl
  have hput : (⟨0, "session", ⟨"realm", 10⟩, false⟩ : Put) ∈ s.puts := by
    cases hs
    exact List.mem_singleton_self _
  rcases sent_after_check hs hdeciding hdue ht hdone.1 _ hput rfl with
    ⟨content, data, hmessage, hlookup, hlatest⟩ | ⟨other, -, hother, -⟩
  · rw [hdone.2] at hlatest
    cases hlatest
    exact ⟨s, t, hs, ht, content, hmessage, hlookup⟩
  · rw [hidle] at hother
    cases hother

end

end Keycloak.Sessions.LastSessionRefreshStore
