import Keycloak.Lib.Machine
import Mathlib.Data.List.Count
import Mathlib.Data.List.Perm.Basic

/-!
# Logout of a user session in the browser

`AuthenticationManager.browserLogout` is called again for every redirect that a client answers,
and goes through the client sessions from the start each time.  What has been done so far stands
in the notes of the logout authentication session: one action for each client, which is written
before the client is called.
-/

namespace Keycloak.BrowserLogout

inductive Action where
  | oauthGrant
  | authenticate
  | loggedOut
  | loggingOut
  | requiredActions
  deriving DecidableEq, Repr

structure ClientModel where
  id : String
  isFrontchannelLogout : Bool
  deriving DecidableEq, Repr

structure AuthenticatedClientSessionModel where
  client : ClientModel
  protocol : Option String
  action : Option Action
  deriving DecidableEq, Repr

/-- `getAuthenticatedClientSessions` is a map from the ids of the clients. -/
structure UserSessionModel where
  authenticatedClientSessions : List AuthenticatedClientSessionModel
  nodup : (authenticatedClientSessions.map (·.client.id)).Nodup

inductive FrontchannelResult (R : Type) where
  | redirect (response : R)
  | null
  | throws
  deriving DecidableEq, Repr

inductive BrokerResult (R : Type) where
  | response (response : R)
  | none
  | throws
  deriving DecidableEq, Repr

/-- One request: the values of the map in their order, and what the calls to the outside give. -/
structure Request (userSession : UserSessionModel) (R : Type) where
  clientSessions : List AuthenticatedClientSessionModel
  perm : clientSessions.Perm userSession.authenticatedClientSessions
  frontchannelLogout : AuthenticatedClientSessionModel → FrontchannelResult R
  /-- Whether the call succeeds; otherwise it throws. -/
  backchannelLogout : AuthenticatedClientSessionModel → Bool
  broker : BrokerResult R

inductive Answer (R : Type) where
  | redirect (clientId : String) (response : R)
  | broker (response : R)
  /-- The exception of the broker. -/
  | failed
  | finishBrowserLogout
  deriving DecidableEq, Repr

/-- The notes of the logout authentication session under the ids of the clients, the clients whose
logout has been called, and the answers given so far. -/
structure LogoutSession (R : Type) where
  clientLogoutAction : String → Option Action
  invoked : List String
  answers : List (Answer R)

variable {R : Type} {userSession : UserSessionModel}

def LogoutSession.new : LogoutSession R := ⟨fun _ => none, [], []⟩

namespace LogoutSession

def setClientLogoutAction (s : LogoutSession R) (clientId : String) (action : Action) :
    LogoutSession R :=
  { s with
    clientLogoutAction := fun id => if id = clientId then some action else s.clientLogoutAction id }

def invoke (s : LogoutSession R) (clientId : String) : LogoutSession R :=
  { s with invoked := s.invoked ++ [clientId] }

def answer (s : LogoutSession R) (answer : Answer R) : LogoutSession R :=
  { s with answers := s.answers ++ [answer] }

end LogoutSession

/-! ## The code -/

def backchannelLogoutClientSession (backchannelLogout : AuthenticatedClientSessionModel → Bool)
    (s : LogoutSession R) (clientSession : AuthenticatedClientSessionModel) :
    LogoutSession R × Bool :=
  let client := clientSession.client
  if client.isFrontchannelLogout ∨ clientSession.action = some .loggedOut then (s, false)
  else if s.clientLogoutAction client.id = some .loggedOut ∨
      s.clientLogoutAction client.id = some .loggingOut then (s, true)
  else
    let s := s.setClientLogoutAction client.id .loggingOut
    match clientSession.protocol with
    | none => (s, true)
    | some _ =>
        let s := s.invoke client.id
        if backchannelLogout clientSession then
          (s.setClientLogoutAction client.id .loggedOut, true)
        else (s, false)

def frontchannelLogoutClientSession
    (frontchannelLogout : AuthenticatedClientSessionModel → FrontchannelResult R)
    (s : LogoutSession R) (clientSession : AuthenticatedClientSessionModel) :
    LogoutSession R × Option R :=
  let client := clientSession.client
  if !client.isFrontchannelLogout ∨ clientSession.action = some .loggedOut then (s, none)
  else if s.clientLogoutAction client.id = some .loggedOut ∨
      s.clientLogoutAction client.id = some .loggingOut then (s, none)
  else
    let s := s.setClientLogoutAction client.id .loggingOut
    match clientSession.protocol with
    | none => (s, none)
    | some _ =>
        let s := s.invoke client.id
        match frontchannelLogout clientSession with
        | .redirect response => (s.setClientLogoutAction client.id .loggedOut, some response)
        | .null => (s, none)
        | .throws => (s, none)

def logoutRedirectClients
    (frontchannelLogout : AuthenticatedClientSessionModel → FrontchannelResult R) :
    List AuthenticatedClientSessionModel → LogoutSession R →
      LogoutSession R × Option (Answer R)
  | [], s => (s, none)
  | nextRedirectClient :: rest, s =>
      match frontchannelLogoutClientSession frontchannelLogout s nextRedirectClient with
      | (s, some response) => (s, some (.redirect nextRedirectClient.client.id response))
      | (s, none) => logoutRedirectClients frontchannelLogout rest s

def toLogout (clientSessions : List AuthenticatedClientSessionModel) :
    List AuthenticatedClientSessionModel :=
  (clientSessions.filter fun clientSession => clientSession.action ≠ some .loggedOut).filter
    fun clientSession => clientSession.protocol ≠ none

def browserLogoutAllClients (request : Request userSession R) (s : LogoutSession R) :
    LogoutSession R × Option (Answer R) :=
  let acss := toLogout request.clientSessions
  let backendLogoutSessions := acss.filter fun acs => !acs.client.isFrontchannelLogout
  let s := backendLogoutSessions.foldl
    (fun s acs => (backchannelLogoutClientSession request.backchannelLogout s acs).1) s
  let redirectClients := acss.filter (·.client.isFrontchannelLogout)
  logoutRedirectClients request.frontchannelLogout redirectClients s

def browserLogout (s : LogoutSession R) (request : Request userSession R) : LogoutSession R :=
  match browserLogoutAllClients request s with
  | (s, some answer) => s.answer answer
  | (s, none) =>
      match request.broker with
      | .response response => s.answer (.broker response)
      | .throws => s.answer .failed
      | .none => s.answer .finishBrowserLogout

def Answer.isFinish : Answer R → Bool
  | .finishBrowserLogout => true
  | _ => false

def Answer.redirected : Answer R → Option String
  | .redirect clientId _ => some clientId
  | _ => none

def LogoutSession.Finished (s : LogoutSession R) : Prop := s.answers.any Answer.isFinish = true

instance (s : LogoutSession R) : Decidable s.Finished := inferInstanceAs (Decidable (_ = true))

def LogoutSession.redirects (s : LogoutSession R) : List String :=
  s.answers.filterMap Answer.redirected

def step (s : LogoutSession R) (request : Request userSession R) : Option (LogoutSession R) :=
  if s.Finished then none else some (browserLogout s request)

/-! ## One client -/

def LogoutSession.Marked (s : LogoutSession R) (clientId : String) : Prop :=
  s.clientLogoutAction clientId = some .loggedOut ∨
    s.clientLogoutAction clientId = some .loggingOut

instance (s : LogoutSession R) (clientId : String) : Decidable (s.Marked clientId) :=
  inferInstanceAs (Decidable (_ ∨ _))

/-- A client is called once at most, and the notes tell whether it has been. -/
structure Counted (s : LogoutSession R) : Prop where
  once : ∀ clientId, s.invoked.count clientId ≤ 1
  marked_iff : ∀ clientId, s.Marked clientId ↔ clientId ∈ s.invoked

structure Progress (s s' : LogoutSession R) : Prop where
  counted : Counted s → Counted s'
  answers : s'.answers = s.answers
  marked : ∀ clientId, s.Marked clientId → s'.Marked clientId

theorem Progress.refl (s : LogoutSession R) : Progress s s := ⟨id, rfl, fun _ => id⟩

theorem Progress.trans {s s' s'' : LogoutSession R} (h : Progress s s') (h' : Progress s' s'') :
    Progress s s'' where
  counted hs := h'.counted (h.counted hs)
  answers := h'.answers.trans h.answers
  marked clientId hs := h'.marked clientId (h.marked clientId hs)

structure Called (s s' : LogoutSession R) (clientId : String) : Prop where
  unmarked : ¬ s.Marked clientId
  marked : s'.Marked clientId
  invoked : s'.invoked = s.invoked ++ [clientId]
  answers : s'.answers = s.answers
  others : ∀ other, other ≠ clientId → s'.clientLogoutAction other = s.clientLogoutAction other

theorem Called.progress {s s' : LogoutSession R} {clientId : String} (h : Called s s' clientId) :
    Progress s s' where
  counted hs := by
    have hnew : clientId ∉ s.invoked := fun hmem => h.unmarked ((hs.marked_iff clientId).mpr hmem)
    constructor
    · intro other
      rw [h.invoked, List.count_append]
      by_cases hother : other = clientId
      · subst hother
        exact Nat.le_of_eq
          (by rw [List.count_eq_zero_of_not_mem hnew, List.count_singleton_self])
      · rw [List.count_singleton, if_neg (by simpa using Ne.symm hother)]
        exact hs.once other
    · intro other
      rw [h.invoked, List.mem_append, List.mem_singleton]
      by_cases hother : other = clientId
      · subst hother
        exact ⟨fun _ => .inr rfl, fun _ => h.marked⟩
      · rw [or_iff_left hother, ← hs.marked_iff, LogoutSession.Marked, h.others other hother]
        rfl
  answers := h.answers
  marked other hs := by
    have hne : other ≠ clientId := fun heq => h.unmarked (heq ▸ hs)
    rw [LogoutSession.Marked, h.others other hne]
    exact hs

theorem backchannelLogoutClientSession_cases
    (backchannelLogout : AuthenticatedClientSessionModel → Bool) (s : LogoutSession R)
    {clientSession : AuthenticatedClientSessionModel}
    (hback : clientSession.client.isFrontchannelLogout = false)
    (haction : clientSession.action ≠ some .loggedOut) (hprotocol : clientSession.protocol ≠ none) :
    (s.Marked clientSession.client.id ∧
      (backchannelLogoutClientSession backchannelLogout s clientSession).1 = s) ∨
    Called s (backchannelLogoutClientSession backchannelLogout s clientSession).1
      clientSession.client.id := by
  obtain ⟨protocol, hsome⟩ := Option.ne_none_iff_exists'.mp hprotocol
  unfold backchannelLogoutClientSession
  dsimp only
  rw [if_neg (by simp [hback, haction]), hsome]
  by_cases hmark : s.clientLogoutAction clientSession.client.id = some .loggedOut ∨
      s.clientLogoutAction clientSession.client.id = some .loggingOut
  · exact .inl ⟨hmark, by rw [if_pos hmark]⟩
  · rw [if_neg hmark]
    dsimp only
    refine .inr ?_
    split
    · refine ⟨hmark, .inl (if_pos rfl), rfl, rfl, fun other hother => ?_⟩
      simp only [LogoutSession.setClientLogoutAction, LogoutSession.invoke, if_neg hother]
    · refine ⟨hmark, .inr (if_pos rfl), rfl, rfl, fun other hother => ?_⟩
      exact if_neg hother

theorem frontchannelLogoutClientSession_cases
    (frontchannelLogout : AuthenticatedClientSessionModel → FrontchannelResult R)
    (s : LogoutSession R) {clientSession : AuthenticatedClientSessionModel}
    (hfront : clientSession.client.isFrontchannelLogout = true)
    (haction : clientSession.action ≠ some .loggedOut) (hprotocol : clientSession.protocol ≠ none) :
    (s.Marked clientSession.client.id ∧
      frontchannelLogoutClientSession frontchannelLogout s clientSession = (s, none)) ∨
    Called s (frontchannelLogoutClientSession frontchannelLogout s clientSession).1
      clientSession.client.id := by
  obtain ⟨protocol, hsome⟩ := Option.ne_none_iff_exists'.mp hprotocol
  unfold frontchannelLogoutClientSession
  dsimp only
  rw [if_neg (by simp [hfront, haction]), hsome]
  by_cases hmark : s.clientLogoutAction clientSession.client.id = some .loggedOut ∨
      s.clientLogoutAction clientSession.client.id = some .loggingOut
  · exact .inl ⟨hmark, by rw [if_pos hmark]⟩
  · rw [if_neg hmark]
    dsimp only
    refine .inr ?_
    have hcalled : Called s ((s.setClientLogoutAction clientSession.client.id .loggingOut).invoke
        clientSession.client.id) clientSession.client.id :=
      ⟨hmark, .inr (if_pos rfl), rfl, rfl, fun other hother => if_neg hother⟩
    split
    · refine ⟨hmark, .inl (if_pos rfl), rfl, rfl, fun other hother => ?_⟩
      simp only [LogoutSession.setClientLogoutAction, LogoutSession.invoke, if_neg hother]
    · exact hcalled
    · exact hcalled

/-! ## The loops -/

def Eligible (clientSessions : List AuthenticatedClientSessionModel) (front : Bool) : Prop :=
  ∀ clientSession ∈ clientSessions, clientSession.client.isFrontchannelLogout = front ∧
    clientSession.action ≠ some .loggedOut ∧ clientSession.protocol ≠ none

theorem foldl_backchannel (backchannelLogout : AuthenticatedClientSessionModel → Bool)
    {clientSessions : List AuthenticatedClientSessionModel} (h : Eligible clientSessions false)
    (s : LogoutSession R) :
    Progress s (clientSessions.foldl
      (fun s acs => (backchannelLogoutClientSession backchannelLogout s acs).1) s) ∧
    ∀ clientSession ∈ clientSessions, (clientSessions.foldl
      (fun s acs => (backchannelLogoutClientSession backchannelLogout s acs).1) s).Marked
        clientSession.client.id := by
  induction clientSessions generalizing s with
  | nil => exact ⟨.refl s, fun _ hmem => nomatch hmem⟩
  | cons acs rest ih =>
      obtain ⟨⟨hback, haction, hprotocol⟩, hrest⟩ := List.forall_mem_cons.mp h
      have hfirst : Progress s (backchannelLogoutClientSession backchannelLogout s acs).1 ∧
          (backchannelLogoutClientSession backchannelLogout s acs).1.Marked acs.client.id := by
        rcases backchannelLogoutClientSession_cases backchannelLogout s hback haction hprotocol with
          ⟨hmark, heq⟩ | hcalled
        · rw [heq]
          exact ⟨.refl s, hmark⟩
        · exact ⟨hcalled.progress, hcalled.marked⟩
      obtain ⟨hprogress, hmarked⟩ := ih hrest
        (backchannelLogoutClientSession backchannelLogout s acs).1
      rw [List.foldl_cons, List.forall_mem_cons]
      exact ⟨hfirst.1.trans hprogress, hprogress.marked _ hfirst.2, hmarked⟩

/-- The loop over front-channel clients marks all of them, or ends with a client that has had no
mark. -/
theorem logoutRedirectClients_spec
    (frontchannelLogout : AuthenticatedClientSessionModel → FrontchannelResult R)
    {clientSessions : List AuthenticatedClientSessionModel} (h : Eligible clientSessions true)
    (s : LogoutSession R) :
    Progress s (logoutRedirectClients frontchannelLogout clientSessions s).1 ∧
    (((logoutRedirectClients frontchannelLogout clientSessions s).2 = none ∧
        ∀ clientSession ∈ clientSessions,
          (logoutRedirectClients frontchannelLogout clientSessions s).1.Marked
            clientSession.client.id) ∨
      ∃ clientSession ∈ clientSessions, ∃ response,
        (logoutRedirectClients frontchannelLogout clientSessions s).2 =
          some (.redirect clientSession.client.id response) ∧
        ¬ s.Marked clientSession.client.id ∧
        (logoutRedirectClients frontchannelLogout clientSessions s).1.Marked
          clientSession.client.id) := by
  induction clientSessions generalizing s with
  | nil => exact ⟨.refl s, .inl ⟨rfl, fun _ hmem => nomatch hmem⟩⟩
  | cons acs rest ih =>
      obtain ⟨⟨hfront, haction, hprotocol⟩, hrest⟩ := List.forall_mem_cons.mp h
      have hcases :=
        frontchannelLogoutClientSession_cases frontchannelLogout s hfront haction hprotocol
      rw [logoutRedirectClients]
      cases hcall : frontchannelLogoutClientSession frontchannelLogout s acs with
      | mk s₁ answer =>
          rw [hcall] at hcases
          cases answer with
          | some response =>
              rcases hcases with ⟨-, heq⟩ | hcalled
              · cases heq
              · exact ⟨hcalled.progress, .inr ⟨acs, List.mem_cons_self, response, rfl,
                  hcalled.unmarked, hcalled.marked⟩⟩
          | none =>
              have hfirst : Progress s s₁ ∧ s₁.Marked acs.client.id := by
                rcases hcases with ⟨hmark, heq⟩ | hcalled
                · cases heq
                  exact ⟨.refl s, hmark⟩
                · exact ⟨hcalled.progress, hcalled.marked⟩
              dsimp only
              obtain ⟨hprogress, hend⟩ := ih hrest s₁
              refine ⟨hfirst.1.trans hprogress, ?_⟩
              rcases hend with ⟨hnone, hmarked⟩ | ⟨cs, hmem, response, hsome, hunmarked, hmarked⟩
              · refine .inl ⟨hnone, List.forall_mem_cons.mpr ⟨?_, hmarked⟩⟩
                exact hprogress.marked _ hfirst.2
              · refine .inr ⟨cs, List.mem_cons_of_mem acs hmem, response, hsome, ?_, hmarked⟩
                exact fun hs => hunmarked (hfirst.1.marked _ hs)

/-! ## The requests -/

def UserSessionModel.Due (userSession : UserSessionModel)
    (clientSession : AuthenticatedClientSessionModel) : Prop :=
  clientSession ∈ userSession.authenticatedClientSessions ∧
    clientSession.action ≠ some .loggedOut ∧ clientSession.protocol ≠ none

theorem mem_toLogout {request : Request userSession R}
    {clientSession : AuthenticatedClientSessionModel} :
    clientSession ∈ toLogout request.clientSessions ↔ userSession.Due clientSession := by
  simp only [toLogout, List.mem_filter, decide_eq_true_eq, request.perm.mem_iff,
    UserSessionModel.Due, and_assoc]

structure Inv (userSession : UserSessionModel) (s : LogoutSession R) : Prop where
  counted : Counted s
  redirects_le : ∀ clientId, s.redirects.count clientId ≤ s.invoked.count clientId
  front : ∀ clientId ∈ s.redirects, ∃ clientSession, userSession.Due clientSession ∧
    clientSession.client.id = clientId ∧ clientSession.client.isFrontchannelLogout = true
  finished : s.Finished → ∀ clientSession, userSession.Due clientSession →
    clientSession.client.id ∈ s.invoked

theorem Inv.new : Inv userSession (LogoutSession.new : LogoutSession R) where
  counted := {
    once := fun _ => Nat.zero_le 1
    marked_iff := fun _ => by simp [LogoutSession.Marked, LogoutSession.new] }
  redirects_le _ := Nat.le_refl 0
  front _ hmem := nomatch hmem
  finished h := nomatch h

theorem browserLogoutAllClients_spec (request : Request userSession R) (s : LogoutSession R) :
    Progress s (browserLogoutAllClients request s).1 ∧
    (((browserLogoutAllClients request s).2 = none ∧
        ∀ clientSession, userSession.Due clientSession →
          (browserLogoutAllClients request s).1.Marked clientSession.client.id) ∨
      ∃ clientSession, ∃ response, userSession.Due clientSession ∧
        clientSession.client.isFrontchannelLogout = true ∧
        (browserLogoutAllClients request s).2 =
          some (.redirect clientSession.client.id response) ∧
        ¬ s.Marked clientSession.client.id ∧
        (browserLogoutAllClients request s).1.Marked clientSession.client.id) := by
  have hback : Eligible ((toLogout request.clientSessions).filter
      fun acs => !acs.client.isFrontchannelLogout) false := by
    intro acs hmem
    obtain ⟨hdue, hkind⟩ := List.mem_filter.mp hmem
    exact ⟨by simpa using hkind, (mem_toLogout.mp hdue).2⟩
  have hfront : Eligible ((toLogout request.clientSessions).filter
      (·.client.isFrontchannelLogout)) true := by
    intro acs hmem
    obtain ⟨hdue, hkind⟩ := List.mem_filter.mp hmem
    exact ⟨hkind, (mem_toLogout.mp hdue).2⟩
  obtain ⟨hprogress, hmarked⟩ := foldl_backchannel request.backchannelLogout hback s
  obtain ⟨hprogress', hend⟩ := logoutRedirectClients_spec request.frontchannelLogout hfront
    (((toLogout request.clientSessions).filter fun acs => !acs.client.isFrontchannelLogout).foldl
      (fun s acs => (backchannelLogoutClientSession request.backchannelLogout s acs).1) s)
  refine ⟨hprogress.trans hprogress', ?_⟩
  rcases hend with ⟨hnone, hmarked'⟩ | ⟨acs, hmem, response, hsome, hunmarked, hmark⟩
  · refine .inl ⟨hnone, fun acs hdue => ?_⟩
    have hlisted : acs ∈ toLogout request.clientSessions := mem_toLogout.mpr hdue
    by_cases hkind : acs.client.isFrontchannelLogout = true
    · exact hmarked' acs (List.mem_filter.mpr ⟨hlisted, hkind⟩)
    · exact hprogress'.marked _ (hmarked acs (List.mem_filter.mpr ⟨hlisted, by simpa using hkind⟩))
  · obtain ⟨hlisted, hkind⟩ := List.mem_filter.mp hmem
    exact .inr ⟨acs, response, mem_toLogout.mp hlisted, hkind, hsome,
      fun hs => hunmarked (hprogress.marked _ hs), hmark⟩

section

variable {s s₁ : LogoutSession R}

theorem redirects_answer (answer : Answer R) :
    (s.answer answer).redirects = s.redirects ++ answer.redirected.toList := by
  rw [LogoutSession.redirects, LogoutSession.answer, List.filterMap_append]
  rfl

theorem finished_answer (answer : Answer R) :
    (s.answer answer).Finished ↔ s.Finished ∨ answer.isFinish = true := by
  simp [LogoutSession.Finished, LogoutSession.answer]

theorem Progress.count_le (h : Progress s s₁) (hs : Counted s) (clientId : String) :
    s.invoked.count clientId ≤ s₁.invoked.count clientId := by
  by_cases hmem : clientId ∈ s.invoked
  · have hmark := h.marked clientId ((hs.marked_iff clientId).mpr hmem)
    have hpos := List.count_pos_iff.mpr (((h.counted hs).marked_iff clientId).mp hmark)
    exact Nat.le_trans (hs.once clientId) hpos
  · rw [List.count_eq_zero_of_not_mem hmem]
    exact Nat.zero_le _

theorem Inv.answer (h : Inv userSession s) (hprogress : Progress s s₁) (hopen : ¬ s.Finished)
    {answer : Answer R} (hanswer : answer.redirected = none)
    (hfinish : answer.isFinish = true → ∀ clientSession, userSession.Due clientSession →
      s₁.Marked clientSession.client.id) : Inv userSession (s₁.answer answer) := by
  have hcounted := hprogress.counted h.counted
  have hredirects : (s₁.answer answer).redirects = s.redirects := by
    rw [redirects_answer, hanswer, LogoutSession.redirects, hprogress.answers, Option.toList_none,
      List.append_nil]
    rfl
  refine ⟨⟨hcounted.once, hcounted.marked_iff⟩, ?_, ?_, ?_⟩
  · intro clientId
    rw [hredirects]
    exact Nat.le_trans (h.redirects_le clientId) (hprogress.count_le h.counted clientId)
  · rw [hredirects]
    exact h.front
  · intro hfinished clientSession hdue
    rw [finished_answer, LogoutSession.Finished, hprogress.answers] at hfinished
    exact (hcounted.marked_iff _).mp (hfinish (hfinished.resolve_left hopen) _ hdue)

theorem Inv.redirect (h : Inv userSession s) (hprogress : Progress s s₁) (hopen : ¬ s.Finished)
    {clientSession : AuthenticatedClientSessionModel} (hdue : userSession.Due clientSession)
    (hfront : clientSession.client.isFrontchannelLogout = true)
    (hunmarked : ¬ s.Marked clientSession.client.id)
    (hmarked : s₁.Marked clientSession.client.id) (response : R) :
    Inv userSession (s₁.answer (.redirect clientSession.client.id response)) := by
  have hcounted := hprogress.counted h.counted
  have hredirects : (s₁.answer (.redirect clientSession.client.id response)).redirects =
      s.redirects ++ [clientSession.client.id] := by
    rw [redirects_answer, LogoutSession.redirects, hprogress.answers]
    rfl
  refine ⟨⟨hcounted.once, hcounted.marked_iff⟩, ?_, ?_, ?_⟩
  · intro clientId
    rw [hredirects, List.count_append]
    by_cases hid : clientId = clientSession.client.id
    · subst hid
      have hnew : clientSession.client.id ∉ s.invoked := fun hmem =>
        hunmarked ((h.counted.marked_iff _).mpr hmem)
      have hnone := h.redirects_le clientSession.client.id
      rw [List.count_eq_zero_of_not_mem hnew] at hnone
      have hpos := List.count_pos_iff.mpr ((hcounted.marked_iff _).mp hmarked)
      rw [Nat.le_zero.mp hnone, List.count_singleton_self]
      exact hpos
    · rw [List.count_singleton, if_neg (by simpa using Ne.symm hid)]
      exact Nat.le_trans (h.redirects_le clientId) (hprogress.count_le h.counted clientId)
  · intro clientId hmem
    rw [hredirects, List.mem_append, List.mem_singleton] at hmem
    rcases hmem with hmem | rfl
    · exact h.front clientId hmem
    · exact ⟨clientSession, hdue, rfl, hfront⟩
  · intro hfinished
    rw [finished_answer, LogoutSession.Finished, hprogress.answers] at hfinished
    exact absurd (hfinished.resolve_right Bool.false_ne_true) hopen

end

theorem step_inv (s : LogoutSession R) (request : Request userSession R) (t : LogoutSession R)
    (h : Inv userSession s) (hstep : step s request = some t) : Inv userSession t := by
  rw [step] at hstep
  split_ifs at hstep with hopen
  cases hstep
  obtain ⟨hprogress, hend⟩ := browserLogoutAllClients_spec request s
  rw [browserLogout]
  cases hall : browserLogoutAllClients request s with
  | mk s₁ answer =>
      rw [hall] at hprogress hend
      rcases hend with ⟨hnone, hmarked⟩ | ⟨acs, response, hdue, hfront, hsome, hunmarked, hmarked⟩
      · cases hnone
        dsimp only
        cases request.broker with
        | response response => exact h.answer hprogress hopen rfl fun hfinish => nomatch hfinish
        | throws => exact h.answer hprogress hopen rfl fun hfinish => nomatch hfinish
        | none => exact h.answer hprogress hopen rfl fun _ => hmarked
      · cases hsome
        exact h.redirect hprogress hopen hdue hfront hunmarked hmarked response

/-- Over the requests of a logout every client is called once at most, and the browser is sent to
it once at most; once `finishBrowserLogout` is reached, all clients that were to be logged out have
been called. -/
theorem run_once (userSession : UserSessionModel) (requests : List (Request userSession R))
    {s : LogoutSession R} (hrun : Machine.run step .new requests = some s) :
    (∀ clientId, s.invoked.count clientId ≤ 1) ∧
    (∀ clientId, s.redirects.count clientId ≤ 1) ∧
    (∀ clientId ∈ s.redirects, ∃ clientSession, userSession.Due clientSession ∧
      clientSession.client.id = clientId ∧ clientSession.client.isFrontchannelLogout = true) ∧
    (s.Finished → ∀ clientSession, userSession.Due clientSession →
      s.invoked.count clientSession.client.id = 1) := by
  have h : Inv userSession s := Machine.run_invariant_all step_inv .new hrun
  refine ⟨h.counted.once, fun clientId => ?_, h.front, fun hfinished clientSession hdue => ?_⟩
  · exact Nat.le_trans (h.redirects_le clientId) (h.counted.once clientId)
  · have hpos := List.count_pos_iff.mpr (h.finished hfinished clientSession hdue)
    exact Nat.le_antisymm (h.counted.once _) hpos

/-- A back-channel client, two front-channel clients of which one has no service to redirect to,
and the account console. -/
def mixedSession : UserSessionModel where
  authenticatedClientSessions := [⟨⟨"app", false⟩, some "openid-connect", none⟩,
    ⟨⟨"saml", true⟩, some "saml", none⟩, ⟨⟨"plain", true⟩, some "saml", none⟩,
    ⟨⟨"account", false⟩, none, none⟩]
  nodup := by decide

def mixedRequest : Request mixedSession String where
  clientSessions := mixedSession.authenticatedClientSessions
  perm := .refl _
  frontchannelLogout acs := if acs.client.id = "saml" then .redirect "LogoutRequest" else .null
  backchannelLogout _ := false
  broker := .none

theorem run_once_mixed :
    ∃ s, Machine.run step .new [mixedRequest, mixedRequest] = some s ∧ s.Finished ∧
      s.redirects = ["saml"] ∧
      ∀ clientSession, mixedSession.Due clientSession →
        s.invoked.count clientSession.client.id = 1 := by
  have hrun : Machine.run step .new [mixedRequest, mixedRequest] =
      some (browserLogout (browserLogout .new mixedRequest) mixedRequest) := rfl
  have hfinished : (browserLogout (browserLogout .new mixedRequest) mixedRequest).Finished := by
    decide
  exact ⟨_, hrun, hfinished, by decide, (run_once mixedSession _ hrun).2.2.2 hfinished⟩

end Keycloak.BrowserLogout
