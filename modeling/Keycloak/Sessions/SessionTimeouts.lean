import Keycloak.Lib.JavaInt
import Keycloak.Lib.Split

/-!
# Lifespans of sessions and tokens

`AuthenticationManager.isSessionValid` and `isOfflineSessionValid`, and the expirations of
`TokenManager`.  The times are seconds in an `int`, and so are their sums.
-/

namespace Keycloak.SessionTimeouts

open JavaInt

structure RealmModel where
  ssoSessionIdleTimeout : Int
  ssoSessionMaxLifespan : Int
  offlineSessionIdleTimeout : Int
  offlineSessionMaxLifespanEnabled : Bool
  offlineSessionMaxLifespan : Int
  accessTokenLifespan : Int
  accessTokenLifespanForImplicitFlow : Int
  deriving DecidableEq, Repr

structure UserSessionModel where
  started : Int
  lastSessionRefresh : Int
  offline : Bool
  deriving DecidableEq, Repr

/-! ## `OIDCResponseType` -/

inductive ParseException where
  | illegalArgument (message : String)
  | illegalState (message : String)
  deriving DecidableEq, Repr

def allowedResponseTypes : List String := ["code", "token", "id_token", "none"]

def parseResponseType (responseTypeParam : String) : Except ParseException (List String) :=
  let responseTypes := (Split.split ' ' (Split.trim responseTypeParam.toList)).map String.ofList
  if ∃ current ∈ responseTypes, current ∉ allowedResponseTypes then
    .error (.illegalArgument ("Unsupported response_type: " ++ responseTypeParam))
  else if responseTypes.length = 0 then .error (.illegalState "No responseType provided")
  else if "none" ∈ responseTypes ∧ responseTypes.length > 1 then
    .error (.illegalArgument "'None' not allowed with some other response_type")
  else .ok responseTypes

def isImplicitFlow (responseTypes : List String) : Bool :=
  ("token" ∈ responseTypes || "id_token" ∈ responseTypes) && "code" ∉ responseTypes

/-- The flow of the client session with this note. -/
def implicitFlow (responseType : Option String) : Except ParseException Bool :=
  match responseType with
  | none => .ok false
  | some responseTypeParam => (parseResponseType responseTypeParam).map isImplicitFlow

/-! ## `AuthenticationManager` -/

def IDLE_TIMEOUT_WINDOW_SECONDS : Int := 120

def isSessionValid (realm : RealmModel) (userSession : Option UserSessionModel)
    (currentTime : Int) : Bool :=
  match userSession with
  | none => false
  | some userSession =>
      let max := wrap (userSession.started + realm.ssoSessionMaxLifespan)
      let maxIdle := wrap (realm.ssoSessionIdleTimeout + IDLE_TIMEOUT_WINDOW_SECONDS)
      wrap (userSession.lastSessionRefresh + maxIdle) > currentTime && max > currentTime

def isOfflineSessionValid (realm : RealmModel) (userSession : Option UserSessionModel)
    (currentTime : Int) : Bool :=
  match userSession with
  | none => false
  | some userSession =>
      let maxIdle := wrap (realm.offlineSessionIdleTimeout + IDLE_TIMEOUT_WINDOW_SECONDS)
      if realm.offlineSessionMaxLifespanEnabled then
        let max := wrap (userSession.started + realm.offlineSessionMaxLifespan)
        wrap (userSession.lastSessionRefresh + maxIdle) > currentTime && max > currentTime
      else wrap (userSession.lastSessionRefresh + maxIdle) > currentTime

/-! ## `TokenManager` -/

def RealmModel.tokenLifespan (realm : RealmModel) (implicitFlow : Bool) : Int :=
  if implicitFlow then realm.accessTokenLifespanForImplicitFlow else realm.accessTokenLifespan

def getTokenExpiration (realm : RealmModel) (userSession : UserSessionModel)
    (responseType : Option String) (currentTime : Int) : Except ParseException Int := do
  let implicitFlow ← implicitFlow responseType
  let expiration := wrap (currentTime + realm.tokenLifespan implicitFlow)
  if userSession.offline then return expiration
  else
    let sessionExpires := wrap (userSession.started + realm.ssoSessionMaxLifespan)
    return if expiration ≤ sessionExpires then expiration else sessionExpires

def getRefreshExpiration (realm : RealmModel) (userSession : UserSessionModel)
    (currentTime : Int) : Int :=
  let sessionExpires := wrap (userSession.started + realm.ssoSessionMaxLifespan)
  let expiration := wrap (currentTime + realm.ssoSessionIdleTimeout)
  if expiration ≤ sessionExpires then expiration else sessionExpires

/-! ## A larger timeout -/

inductive Timeout where
  | ssoSessionIdleTimeout
  | ssoSessionMaxLifespan
  | offlineSessionIdleTimeout
  | offlineSessionMaxLifespan
  | accessTokenLifespan
  | accessTokenLifespanForImplicitFlow
  deriving DecidableEq, Repr

def Timeout.get (realm : RealmModel) : Timeout → Int
  | .ssoSessionIdleTimeout => realm.ssoSessionIdleTimeout
  | .ssoSessionMaxLifespan => realm.ssoSessionMaxLifespan
  | .offlineSessionIdleTimeout => realm.offlineSessionIdleTimeout
  | .offlineSessionMaxLifespan => realm.offlineSessionMaxLifespan
  | .accessTokenLifespan => realm.accessTokenLifespan
  | .accessTokenLifespanForImplicitFlow => realm.accessTokenLifespanForImplicitFlow

def Timeout.set (realm : RealmModel) (value : Int) : Timeout → RealmModel
  | .ssoSessionIdleTimeout => { realm with ssoSessionIdleTimeout := value }
  | .ssoSessionMaxLifespan => { realm with ssoSessionMaxLifespan := value }
  | .offlineSessionIdleTimeout => { realm with offlineSessionIdleTimeout := value }
  | .offlineSessionMaxLifespan => { realm with offlineSessionMaxLifespan := value }
  | .accessTokenLifespan => { realm with accessTokenLifespan := value }
  | .accessTokenLifespanForImplicitFlow =>
      { realm with accessTokenLifespanForImplicitFlow := value }

/-- No expiration lies behind the end of an online session. -/
def Bounded (realm : RealmModel) (userSession : UserSessionModel) (responseType : Option String)
    (currentTime : Int) : Prop :=
  userSession.offline = false →
    (∀ expiration, getTokenExpiration realm userSession responseType currentTime = .ok expiration →
      expiration ≤ userSession.started + realm.ssoSessionMaxLifespan) ∧
    getRefreshExpiration realm userSession currentTime ≤
      userSession.started + realm.ssoSessionMaxLifespan

/-- What is valid with the first realm is valid with the second, and the expirations are no
earlier. -/
structure Longer (realm realm' : RealmModel) (userSession : UserSessionModel)
    (responseType : Option String) (currentTime : Int) : Prop where
  session : isSessionValid realm (some userSession) currentTime →
    isSessionValid realm' (some userSession) currentTime
  offlineSession : isOfflineSessionValid realm (some userSession) currentTime →
    isOfflineSessionValid realm' (some userSession) currentTime
  token : ∀ expiration expiration',
    getTokenExpiration realm userSession responseType currentTime = .ok expiration →
      getTokenExpiration realm' userSession responseType currentTime = .ok expiration' →
        expiration ≤ expiration'
  refresh : getRefreshExpiration realm userSession currentTime ≤
    getRefreshExpiration realm' userSession currentTime

/-! ## When a larger timeout shortens nothing -/

section

variable (realm : RealmModel) (userSession : UserSessionModel) (responseType : Option String)
  (currentTime value : Int)

def UserSessionModel.idleSince : Int :=
  userSession.lastSessionRefresh + IDLE_TIMEOUT_WINDOW_SECONDS

def sessionExpires : Int := wrap (userSession.started + realm.ssoSessionMaxLifespan)

def TokenSafe (implicit : Bool) : Prop :=
  implicitFlow responseType = .ok implicit →
    if userSession.offline then ¬ Overflows currentTime (realm.tokenLifespan implicit) value
    else ¬ Lowers currentTime (realm.tokenLifespan implicit) value
      (sessionExpires realm userSession)

/-- No sum with the larger timeout leaves the range, unless the results do not depend on it. -/
def Safe : Timeout → Prop
  | .ssoSessionIdleTimeout =>
      ¬ (Shortens userSession.idleSince realm.ssoSessionIdleTimeout value currentTime ∧
        currentTime < sessionExpires realm userSession) ∧
      ¬ Lowers currentTime realm.ssoSessionIdleTimeout value (sessionExpires realm userSession)
  | .ssoSessionMaxLifespan =>
      ¬ (Shortens userSession.started realm.ssoSessionMaxLifespan value currentTime ∧
        currentTime < wrap (userSession.idleSince + realm.ssoSessionIdleTimeout)) ∧
      (∀ implicit, implicitFlow responseType = .ok implicit → userSession.offline = false →
        ¬ Lowers userSession.started realm.ssoSessionMaxLifespan value
          (wrap (currentTime + realm.tokenLifespan implicit))) ∧
      ¬ Lowers userSession.started realm.ssoSessionMaxLifespan value
        (wrap (currentTime + realm.ssoSessionIdleTimeout))
  | .offlineSessionIdleTimeout =>
      ¬ (Shortens userSession.idleSince realm.offlineSessionIdleTimeout value currentTime ∧
        (realm.offlineSessionMaxLifespanEnabled →
          currentTime < wrap (userSession.started + realm.offlineSessionMaxLifespan)))
  | .offlineSessionMaxLifespan =>
      realm.offlineSessionMaxLifespanEnabled →
        ¬ (Shortens userSession.started realm.offlineSessionMaxLifespan value currentTime ∧
          currentTime < wrap (userSession.idleSince + realm.offlineSessionIdleTimeout))
  | .accessTokenLifespan => TokenSafe realm userSession responseType currentTime value false
  | .accessTokenLifespanForImplicitFlow =>
      TokenSafe realm userSession responseType currentTime value true

end

section

variable {realm : RealmModel} {userSession : UserSessionModel} {responseType : Option String}
  {currentTime value : Int}

theorem idle_sum (refresh idle : Int) :
    wrap (refresh + wrap (idle + IDLE_TIMEOUT_WINDOW_SECONDS)) =
      wrap (refresh + IDLE_TIMEOUT_WINDOW_SECONDS + idle) := by
  rw [wrap_add_wrap, Int.add_comm idle, Int.add_assoc]

theorem isSessionValid_iff :
    isSessionValid realm (some userSession) currentTime ↔
      currentTime < wrap (userSession.idleSince + realm.ssoSessionIdleTimeout) ∧
        currentTime < sessionExpires realm userSession := by
  simp only [isSessionValid, idle_sum, gt_iff_lt, Bool.and_eq_true, decide_eq_true_eq]
  rfl

theorem isOfflineSessionValid_iff :
    isOfflineSessionValid realm (some userSession) currentTime ↔
      currentTime < wrap (userSession.idleSince + realm.offlineSessionIdleTimeout) ∧
        (realm.offlineSessionMaxLifespanEnabled →
          currentTime < wrap (userSession.started + realm.offlineSessionMaxLifespan)) := by
  simp only [isOfflineSessionValid, idle_sum]
  cases realm.offlineSessionMaxLifespanEnabled with
  | true =>
      simp only [if_true, gt_iff_lt, Bool.and_eq_true, decide_eq_true_eq, forall_const]
      rfl
  | false =>
      simp only [Bool.false_eq_true, if_false, gt_iff_lt, decide_eq_true_eq, false_implies,
        and_true]
      rfl

theorem getRefreshExpiration_eq :
    getRefreshExpiration realm userSession currentTime =
      min (wrap (currentTime + realm.ssoSessionIdleTimeout)) (sessionExpires realm userSession) :=
  (min_def _ _).symm

def tokenExpiration (realm : RealmModel) (userSession : UserSessionModel) (currentTime : Int)
    (implicit : Bool) : Int :=
  if userSession.offline then wrap (currentTime + realm.tokenLifespan implicit)
  else min (wrap (currentTime + realm.tokenLifespan implicit)) (sessionExpires realm userSession)

theorem getTokenExpiration_eq :
    getTokenExpiration realm userSession responseType currentTime =
      (implicitFlow responseType).map (tokenExpiration realm userSession currentTime) := by
  unfold getTokenExpiration tokenExpiration
  cases implicitFlow responseType with
  | error exception => rfl
  | ok implicit =>
      dsimp only [bind, Except.bind, Except.map]
      by_cases hoffline : userSession.offline
      · simp only [hoffline, if_true]
        rfl
      · simp only [hoffline, Bool.false_eq_true, if_false, min_def]
        rfl

theorem token_iff {realm' : RealmModel} :
    (∀ expiration expiration',
      getTokenExpiration realm userSession responseType currentTime = .ok expiration →
        getTokenExpiration realm' userSession responseType currentTime = .ok expiration' →
          expiration ≤ expiration') ↔
      ∀ implicit, implicitFlow responseType = .ok implicit →
        tokenExpiration realm userSession currentTime implicit ≤
          tokenExpiration realm' userSession currentTime implicit := by
  rw [getTokenExpiration_eq, getTokenExpiration_eq]
  cases implicitFlow responseType with
  | error exception => exact ⟨fun _ _ h => (nomatch h), fun _ _ _ h => (nomatch h)⟩
  | ok implicit =>
      constructor
      · rintro h _ ⟨⟩
        exact h _ _ rfl rfl
      · rintro h _ _ ⟨⟩ ⟨⟩
        exact h implicit rfl

theorem longer_iff_parts {realm' : RealmModel} :
    Longer realm realm' userSession responseType currentTime ↔
      (currentTime < wrap (userSession.idleSince + realm.ssoSessionIdleTimeout) ∧
          currentTime < sessionExpires realm userSession →
        currentTime < wrap (userSession.idleSince + realm'.ssoSessionIdleTimeout) ∧
          currentTime < sessionExpires realm' userSession) ∧
      (currentTime < wrap (userSession.idleSince + realm.offlineSessionIdleTimeout) ∧
          (realm.offlineSessionMaxLifespanEnabled →
            currentTime < wrap (userSession.started + realm.offlineSessionMaxLifespan)) →
        currentTime < wrap (userSession.idleSince + realm'.offlineSessionIdleTimeout) ∧
          (realm'.offlineSessionMaxLifespanEnabled →
            currentTime < wrap (userSession.started + realm'.offlineSessionMaxLifespan))) ∧
      (∀ implicit, implicitFlow responseType = .ok implicit →
        tokenExpiration realm userSession currentTime implicit ≤
          tokenExpiration realm' userSession currentTime implicit) ∧
      min (wrap (currentTime + realm.ssoSessionIdleTimeout)) (sessionExpires realm userSession) ≤
        min (wrap (currentTime + realm'.ssoSessionIdleTimeout))
          (sessionExpires realm' userSession) := by
  simp only [← isSessionValid_iff, ← isOfflineSessionValid_iff, ← token_iff,
    ← getRefreshExpiration_eq]
  exact ⟨fun h => ⟨h.session, h.offlineSession, h.token, h.refresh⟩,
    fun ⟨hsession, hoffline, htoken, hrefresh⟩ => ⟨hsession, hoffline, htoken, hrefresh⟩⟩

theorem and_iff_of_imp_iff {p p' q s : Prop} (h : (p → p') ↔ ¬ s) :
    (p ∧ q → p' ∧ q) ↔ ¬ (s ∧ q) := by
  constructor
  · rintro hkept ⟨hs, hq⟩
    exact h.mp (fun hp => (hkept ⟨hp, hq⟩).1) hs
  · rintro hsafe ⟨hp, hq⟩
    exact ⟨h.mpr (fun hs => hsafe ⟨hs, hq⟩) hp, hq⟩

theorem and_iff_of_imp_iff' {p p' q s : Prop} (h : (p → p') ↔ ¬ s) :
    (q ∧ p → q ∧ p') ↔ ¬ (s ∧ q) := by
  rw [and_comm, and_comm (b := p')]
  exact and_iff_of_imp_iff h

end

/-! ## The numbers are of type `int` -/

structure RealmModel.InRange (realm : RealmModel) : Prop where
  ssoSessionIdleTimeout : JavaInt.InRange realm.ssoSessionIdleTimeout
  ssoSessionMaxLifespan : JavaInt.InRange realm.ssoSessionMaxLifespan
  offlineSessionIdleTimeout : JavaInt.InRange realm.offlineSessionIdleTimeout
  offlineSessionMaxLifespan : JavaInt.InRange realm.offlineSessionMaxLifespan
  accessTokenLifespan : JavaInt.InRange realm.accessTokenLifespan
  accessTokenLifespanForImplicitFlow : JavaInt.InRange realm.accessTokenLifespanForImplicitFlow

def IsTime (x : Int) : Prop := 0 ≤ x ∧ x ≤ maxValue

instance (x : Int) : Decidable (IsTime x) := inferInstanceAs (Decidable (_ ∧ _))

structure UserSessionModel.InRange (userSession : UserSessionModel) : Prop where
  started : IsTime userSession.started
  lastSessionRefresh : IsTime userSession.lastSessionRefresh

theorem Timeout.get_inRange {realm : RealmModel} (h : realm.InRange) (timeout : Timeout) :
    JavaInt.InRange (timeout.get realm) := by
  cases timeout with
  | ssoSessionIdleTimeout => exact h.ssoSessionIdleTimeout
  | ssoSessionMaxLifespan => exact h.ssoSessionMaxLifespan
  | offlineSessionIdleTimeout => exact h.offlineSessionIdleTimeout
  | offlineSessionMaxLifespan => exact h.offlineSessionMaxLifespan
  | accessTokenLifespan => exact h.accessTokenLifespan
  | accessTokenLifespanForImplicitFlow => exact h.accessTokenLifespanForImplicitFlow

theorem Timeout.set_inRange {realm : RealmModel} {value : Int} (h : realm.InRange)
    (hvalue : JavaInt.InRange value) (timeout : Timeout) : (timeout.set realm value).InRange := by
  cases timeout with
  | ssoSessionIdleTimeout => exact { h with ssoSessionIdleTimeout := hvalue }
  | ssoSessionMaxLifespan => exact { h with ssoSessionMaxLifespan := hvalue }
  | offlineSessionIdleTimeout => exact { h with offlineSessionIdleTimeout := hvalue }
  | offlineSessionMaxLifespan => exact { h with offlineSessionMaxLifespan := hvalue }
  | accessTokenLifespan => exact { h with accessTokenLifespan := hvalue }
  | accessTokenLifespanForImplicitFlow =>
      exact { h with accessTokenLifespanForImplicitFlow := hvalue }

section

variable {x a b : Int} (ha : JavaInt.InRange a) (hb : JavaInt.InRange b) (hlt : a < b)

include ha hb hlt

/-- What is needed of a time, and of a time with the window for the updates. -/
theorem lt_since_iff (hx : 0 ≤ x ∧ x ≤ maxValue + IDLE_TIMEOUT_WINDOW_SECONDS) (now : Int) :
    (now < wrap (x + a) → now < wrap (x + b)) ↔ ¬ Shortens x a b now := by
  have hlow := inRange_iff.mp ha
  have hhigh := inRange_iff.mp hb
  unfold maxValue IDLE_TIMEOUT_WINDOW_SECONDS at hx
  exact lt_wrap_add_iff (by unfold minValue; omega) hlt (by unfold maxValue; omega)

theorem min_since_iff (hx : IsTime x) (limit : Int) :
    min (wrap (x + a)) limit ≤ min (wrap (x + b)) limit ↔ ¬ Lowers x a b limit := by
  have hlow := inRange_iff.mp ha
  have hhigh := inRange_iff.mp hb
  unfold IsTime maxValue at hx
  exact min_wrap_add_iff (by unfold minValue; omega) hlt (by unfold maxValue; omega) (by omega)

theorem le_since_iff (hx : IsTime x) :
    wrap (x + a) ≤ wrap (x + b) ↔ ¬ Overflows x a b := by
  have hlow := inRange_iff.mp ha
  have hhigh := inRange_iff.mp hb
  unfold IsTime maxValue at hx
  exact wrap_add_le_iff (by unfold minValue; omega) hlt (by unfold maxValue; omega) (by omega)

end

section

variable {realm : RealmModel} {userSession : UserSessionModel} {responseType : Option String}
  {currentTime value : Int} (hrealm : realm.InRange) (hvalue : JavaInt.InRange value)
  (hsession : userSession.InRange) (htime : IsTime currentTime)

include hrealm hsession in
theorem bounded : Bounded realm userSession responseType currentTime := by
  intro honline
  have hstarted := hsession.started
  have hmax := inRange_iff.mp hrealm.ssoSessionMaxLifespan
  have hend : sessionExpires realm userSession ≤
      userSession.started + realm.ssoSessionMaxLifespan := by
    unfold IsTime at hstarted
    exact wrap_le (by unfold minValue; omega)
  constructor
  · rw [getTokenExpiration_eq]
    cases implicitFlow responseType with
    | error exception => exact fun _ h => nomatch h
    | ok implicit =>
        rintro _ ⟨⟩
        simp only [tokenExpiration, honline, Bool.false_eq_true, if_false]
        exact (min_le_right _ _).trans hend
  · rw [getRefreshExpiration_eq]
    exact (min_le_right _ _).trans hend

include hrealm hvalue htime in
/-- A larger lifespan of the tokens of one flow. -/
theorem tokenExpiration_iff (userSession : UserSessionModel) (responseType : Option String)
    (realm' : RealmModel) (implicit : Bool)
    (hexpires : sessionExpires realm' userSession = sessionExpires realm userSession)
    (hlifespan : realm'.tokenLifespan implicit = value)
    (hother : realm'.tokenLifespan (!implicit) = realm.tokenLifespan (!implicit))
    (hlt : realm.tokenLifespan implicit < value) :
    (∀ flow, implicitFlow responseType = .ok flow →
        tokenExpiration realm userSession currentTime flow ≤
          tokenExpiration realm' userSession currentTime flow) ↔
      TokenSafe realm userSession responseType currentTime value implicit := by
  have hold : JavaInt.InRange (realm.tokenLifespan implicit) := by
    cases implicit with
    | false => exact hrealm.accessTokenLifespan
    | true => exact hrealm.accessTokenLifespanForImplicitFlow
  have hflow : tokenExpiration realm userSession currentTime implicit ≤
      tokenExpiration realm' userSession currentTime implicit ↔
      if userSession.offline then ¬ Overflows currentTime (realm.tokenLifespan implicit) value
      else ¬ Lowers currentTime (realm.tokenLifespan implicit) value
        (sessionExpires realm userSession) := by
    unfold tokenExpiration
    rw [hexpires, hlifespan]
    split_ifs
    · exact le_since_iff hold hvalue hlt htime
    · exact min_since_iff hold hvalue hlt htime _
  constructor
  · exact fun h hparsed => hflow.mp (h implicit hparsed)
  · intro h flow hparsed
    by_cases hsame : flow = implicit
    · exact hsame ▸ hflow.mpr (h (hsame ▸ hparsed))
    · -- the tokens of the other flow have the lifespan they had
      obtain rfl : flow = !implicit := by
        cases flow <;> cases implicit <;> first | rfl | exact absurd rfl hsame
      unfold tokenExpiration
      rw [hexpires, hother]

include hrealm hvalue hsession htime in
/-- A larger timeout shortens nothing exactly if no sum with it leaves the range, as far as
something depends on the sum. -/
theorem longer_iff (timeout : Timeout) (hlt : timeout.get realm < value) :
    Longer realm (timeout.set realm value) userSession responseType currentTime ↔
      Safe realm userSession responseType currentTime value timeout := by
  have hold := timeout.get_inRange hrealm
  have hsince : 0 ≤ userSession.idleSince ∧
      userSession.idleSince ≤ maxValue + IDLE_TIMEOUT_WINDOW_SECONDS := by
    have hrefresh := hsession.lastSessionRefresh
    unfold IsTime at hrefresh
    unfold UserSessionModel.idleSince IDLE_TIMEOUT_WINDOW_SECONDS
    omega
  have hstarted : 0 ≤ userSession.started ∧
      userSession.started ≤ maxValue + IDLE_TIMEOUT_WINDOW_SECONDS := by
    have h := hsession.started
    unfold IsTime at h
    unfold IDLE_TIMEOUT_WINDOW_SECONDS
    omega
  rw [longer_iff_parts]
  cases timeout with
  | ssoSessionIdleTimeout =>
      have hvalid := lt_since_iff hold hvalue hlt hsince currentTime
      have hrefresh := min_since_iff hold hvalue hlt htime (sessionExpires realm userSession)
      exact ⟨fun h => ⟨(and_iff_of_imp_iff hvalid).mp h.1, hrefresh.mp h.2.2.2⟩,
        fun h => ⟨(and_iff_of_imp_iff hvalid).mpr h.1, id, fun _ _ => le_rfl, hrefresh.mpr h.2⟩⟩
  | ssoSessionMaxLifespan =>
      have hvalid := lt_since_iff hold hvalue hlt hstarted currentTime
      have hexpires (limit : Int) :
          min limit (wrap (userSession.started + realm.ssoSessionMaxLifespan)) ≤
              min limit (wrap (userSession.started + value)) ↔
            ¬ Lowers userSession.started realm.ssoSessionMaxLifespan value limit := by
        rw [min_comm, min_comm limit]
        exact min_since_iff hold hvalue hlt hsession.started limit
      constructor
      · rintro ⟨hsession, -, htoken, hrefresh⟩
        refine ⟨(and_iff_of_imp_iff' hvalid).mp hsession, fun flow hparsed honline => ?_,
          (hexpires _).mp hrefresh⟩
        have hle := htoken flow hparsed
        simp only [tokenExpiration, honline, Bool.false_eq_true, if_false] at hle
        exact (hexpires _).mp hle
      · rintro ⟨hsession, htoken, hrefresh⟩
        refine ⟨(and_iff_of_imp_iff' hvalid).mpr hsession, id, fun flow hparsed => ?_,
          (hexpires _).mpr hrefresh⟩
        unfold tokenExpiration
        split_ifs with hoffline
        · exact le_rfl
        · exact (hexpires _).mpr (htoken flow hparsed (by simpa using hoffline))
  | offlineSessionIdleTimeout =>
      have hvalid := lt_since_iff hold hvalue hlt hsince currentTime
      exact ⟨fun h => (and_iff_of_imp_iff hvalid).mp h.2.1,
        fun h => ⟨id, (and_iff_of_imp_iff hvalid).mpr h, fun _ _ => le_rfl, le_rfl⟩⟩
  | offlineSessionMaxLifespan =>
      have hvalid := lt_since_iff hold hvalue hlt hstarted currentTime
      constructor
      · rintro ⟨-, hoffline, -, -⟩ henabled
        refine (and_iff_of_imp_iff' hvalid).mp fun ⟨hidle, hmax⟩ => ?_
        obtain ⟨-, hkept⟩ := hoffline ⟨hidle, fun _ => hmax⟩
        exact ⟨hidle, hkept henabled⟩
      · intro hsafe
        refine ⟨id, fun ⟨hidle, hmax⟩ => ⟨hidle, fun henabled => ?_⟩, fun _ _ => le_rfl, le_rfl⟩
        exact ((and_iff_of_imp_iff' hvalid).mpr (hsafe henabled) ⟨hidle, hmax henabled⟩).2
  | accessTokenLifespan =>
      have htoken := tokenExpiration_iff hrealm hvalue htime userSession responseType
        { realm with accessTokenLifespan := value } false rfl rfl rfl hlt
      exact ⟨fun h => htoken.mp h.2.2.1, fun h => ⟨id, id, htoken.mpr h, le_rfl⟩⟩
  | accessTokenLifespanForImplicitFlow =>
      have htoken := tokenExpiration_iff hrealm hvalue htime userSession responseType
        { realm with accessTokenLifespanForImplicitFlow := value } true rfl rfl rfl hlt
      exact ⟨fun h => htoken.mp h.2.2.1, fun h => ⟨id, id, htoken.mpr h, le_rfl⟩⟩

end

/-- A larger timeout shortens nothing, and no expiration lies behind the end of the session, exactly
if no sum with the larger timeout leaves the range, as far as something depends on the sum. -/
theorem longer_and_bounded_iff {realm : RealmModel} {userSession : UserSessionModel}
    {responseType : Option String} {currentTime value : Int} (hrealm : realm.InRange)
    (hvalue : JavaInt.InRange value) (hsession : userSession.InRange) (htime : IsTime currentTime)
    (timeout : Timeout) (hlt : timeout.get realm < value) :
    (Longer realm (timeout.set realm value) userSession responseType currentTime ∧
        Bounded realm userSession responseType currentTime ∧
        Bounded (timeout.set realm value) userSession responseType currentTime) ↔
      Safe realm userSession responseType currentTime value timeout := by
  rw [longer_iff hrealm hvalue hsession htime timeout hlt, and_iff_left]
  exact ⟨bounded hrealm hsession, bounded (timeout.set_inRange hrealm hvalue) hsession⟩

def masterRealm : RealmModel where
  ssoSessionIdleTimeout := 1800
  ssoSessionMaxLifespan := 36000
  offlineSessionIdleTimeout := 2592000
  offlineSessionMaxLifespanEnabled := false
  offlineSessionMaxLifespan := 5184000
  accessTokenLifespan := 60
  accessTokenLifespanForImplicitFlow := 900

theorem masterRealm_inRange : masterRealm.InRange :=
  ⟨by decide, by decide, by decide, by decide, by decide, by decide⟩

/-- A session of the year 2018 lives longer with a lifespan of a day. -/
theorem longer_and_bounded_of_day :
    Longer masterRealm (Timeout.set masterRealm 86400 .ssoSessionMaxLifespan)
      ⟨1540000000, 1540000000, false⟩ (some "code") 1540000060 := by
  refine ((longer_and_bounded_iff masterRealm_inRange (by decide) ⟨by decide, by decide⟩ (by decide)
    .ssoSessionMaxLifespan (by decide)).mpr ⟨?_, ?_, ?_⟩).1
  · exact fun h => absurd h.1 (by decide)
  · exact fun _ _ _ h => absurd h.1 (by decide)
  · exact fun h => absurd h.1 (by decide)

/-- The largest lifespan ends the session at once. -/
theorem not_longer_of_maxValue :
    ¬ Longer masterRealm (Timeout.set masterRealm maxValue .ssoSessionMaxLifespan)
      ⟨1540000000, 1540000000, false⟩ (some "code") 1540000060 := by
  intro h
  have hvalid : isSessionValid masterRealm (some ⟨1540000000, 1540000000, false⟩) 1540000060 := by
    decide
  exact absurd (h.session hvalid) (by decide)

end Keycloak.SessionTimeouts
