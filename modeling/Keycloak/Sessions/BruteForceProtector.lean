import Mathlib.Algebra.Ring.Int.Defs
import Mathlib.Algebra.Ring.Nat
import Mathlib.Data.List.Induction
import Mathlib.Tactic.SplitIfs

/-!
# Brute force detection

`DefaultBruteForceProtector.failure`, `success` and `isTemporarilyDisabled` for one user, over
the `LoginFailureEntity` of this user.  Times are in milliseconds, waits in seconds.

What arithmetic does with a result that is too large is a parameter: Java's `int` and `long`
wrap around, and for claims without overflow nothing happens.
-/

namespace Keycloak.BruteForce

/-- The `int` and the `long` that a result becomes. -/
structure Arithmetic where
  int : Int → Int
  long : Int → Int

def Arithmetic.java : Arithmetic :=
  ⟨fun x => x.bmod (2 ^ 32), fun x => x.bmod (2 ^ 64)⟩

def Arithmetic.unbounded : Arithmetic := ⟨id, id⟩

structure RealmModel where
  permanentLockout : Bool
  failureFactor : Int
  waitIncrementSeconds : Int
  maxFailureWaitSeconds : Int
  maxDeltaTimeSeconds : Int
  quickLoginCheckMilliSeconds : Int
  minimumQuickLoginWaitSeconds : Int
deriving DecidableEq, Repr

structure LoginFailureEntity where
  failedLoginNotBefore : Int
  numFailures : Int
  lastFailure : Int
  lastIPFailure : Option String
deriving DecidableEq, Repr

def LoginFailureEntity.new : LoginFailureEntity := ⟨0, 0, 0, none⟩

def LoginFailureEntity.clearFailures (_ : LoginFailureEntity) : LoginFailureEntity := .new

structure UserModel where
  loginFailure : Option LoginFailureEntity
  enabled : Bool
deriving DecidableEq, Repr

section

variable (arith : Arithmetic) (realm : RealmModel)

def LoginFailureEntity.incrementFailures (e : LoginFailureEntity) : LoginFailureEntity :=
  { e with numFailures := arith.int (e.numFailures + 1) }

def LoginFailureEntity.deltaTime (e : LoginFailureEntity) (currentTime : Int) : Int :=
  if e.lastFailure > 0 then arith.long (currentTime - e.lastFailure) else 0

/-- `failure` for an existing user; the division by a failure factor of zero throws. -/
def failure (user : UserModel) (ip : Option String) (currentTime : Int) : Option UserModel :=
  let userLoginFailure := user.loginFailure.getD .new
  let last := userLoginFailure.lastFailure
  let deltaTime := userLoginFailure.deltaTime arith currentTime
  let entity := { userLoginFailure with lastIPFailure := ip, lastFailure := currentTime }
  let notBefore := fun waitSeconds => arith.int (arith.int (currentTime.tdiv 1000) + waitSeconds)
  if realm.permanentLockout then
    let entity := entity.incrementFailures arith
    if entity.numFailures = realm.failureFactor then some ⟨some entity, false⟩
    else if last > 0 ∧ deltaTime < realm.quickLoginCheckMilliSeconds then
      some { user with loginFailure := some { entity with
        failedLoginNotBefore := notBefore realm.minimumQuickLoginWaitSeconds } }
    else some { user with loginFailure := some entity }
  else
    let entity :=
      if deltaTime > 0 ∧ deltaTime > arith.long (realm.maxDeltaTimeSeconds * 1000) then
        entity.clearFailures
      else entity
    let entity := entity.incrementFailures arith
    if realm.failureFactor = 0 then none
    else
      let waitSeconds := arith.int (realm.waitIncrementSeconds *
        arith.int (entity.numFailures.tdiv realm.failureFactor))
      let waitSeconds :=
        if waitSeconds = 0 ∧ last > 0 ∧ deltaTime < realm.quickLoginCheckMilliSeconds then
          realm.minimumQuickLoginWaitSeconds
        else waitSeconds
      if waitSeconds > 0 then
        some { user with loginFailure := some { entity with
          failedLoginNotBefore := notBefore (min realm.maxFailureWaitSeconds waitSeconds) } }
      else some { user with loginFailure := some entity }

def success (user : UserModel) : UserModel :=
  { user with loginFailure := user.loginFailure.map LoginFailureEntity.clearFailures }

def isTemporarilyDisabled (user : UserModel) (currentTime : Int) : Bool :=
  match user.loginFailure with
  | none => false
  | some entity => arith.int (currentTime.tdiv 1000) < entity.failedLoginNotBefore

end

/-! ## What a failure leaves -/

namespace LoginFailureEntity

variable (arith : Arithmetic) (realm : RealmModel) (e : LoginFailureEntity) (currentTime : Int)

/-- The last failure is so long ago that the failures are cleared. -/
def Expired : Prop :=
  0 < e.deltaTime arith currentTime ∧
    arith.long (realm.maxDeltaTimeSeconds * 1000) < e.deltaTime arith currentTime

instance : Decidable (e.Expired arith realm currentTime) :=
  inferInstanceAs (Decidable (_ ∧ _))

/-- The last failure is known, and only just past. -/
def Quick : Prop :=
  0 < e.lastFailure ∧ e.deltaTime arith currentTime < realm.quickLoginCheckMilliSeconds

instance : Decidable (e.Quick arith realm currentTime) :=
  inferInstanceAs (Decidable (_ ∧ _))

def counted : Int :=
  arith.int ((if e.Expired arith realm currentTime then 0 else e.numFailures) + 1)

/-- The old lock, unless it is cleared. -/
def leftOver : Int :=
  if e.Expired arith realm currentTime then 0 else e.failedLoginNotBefore

def counterWait : Int :=
  arith.int (realm.waitIncrementSeconds *
    arith.int ((e.counted arith realm currentTime).tdiv realm.failureFactor))

def wait : Int :=
  if e.counterWait arith realm currentTime = 0 ∧ e.Quick arith realm currentTime then
    realm.minimumQuickLoginWaitSeconds
  else e.counterWait arith realm currentTime

def notBefore : Int :=
  if 0 < e.wait arith realm currentTime then
    arith.int (arith.int (currentTime.tdiv 1000) +
      min realm.maxFailureWaitSeconds (e.wait arith realm currentTime))
  else e.leftOver arith realm currentTime

def afterFailure (ip : Option String) : LoginFailureEntity where
  failedLoginNotBefore := e.notBefore arith realm currentTime
  numFailures := e.counted arith realm currentTime
  lastFailure := if e.Expired arith realm currentTime then 0 else currentTime
  lastIPFailure := if e.Expired arith realm currentTime then none else ip

end LoginFailureEntity

section

variable {arith : Arithmetic} {realm : RealmModel} {user : UserModel} {ip : Option String}
  {currentTime : Int}

theorem failure_eq_none (hpermanent : realm.permanentLockout = false)
    (hfactor : realm.failureFactor = 0) :
    failure arith realm user ip currentTime = none := by
  rw [failure]
  dsimp only
  rw [hpermanent, if_neg Bool.false_ne_true, if_pos hfactor]

/-- Without the permanent lockout: what is stored after a failure. -/
theorem failure_eq (hpermanent : realm.permanentLockout = false)
    (hfactor : realm.failureFactor ≠ 0) : failure arith realm user ip currentTime =
      some { user with
        loginFailure :=
          some ((user.loginFailure.getD .new).afterFailure arith realm currentTime ip) } := by
  rw [failure]
  generalize user.loginFailure.getD .new = e
  dsimp only
  rw [hpermanent, if_neg Bool.false_ne_true, if_neg hfactor]
  have hentity : (if e.deltaTime arith currentTime > 0 ∧
      e.deltaTime arith currentTime > arith.long (realm.maxDeltaTimeSeconds * 1000) then
        LoginFailureEntity.clearFailures { e with lastIPFailure := ip, lastFailure := currentTime }
      else { e with lastIPFailure := ip, lastFailure := currentTime }).incrementFailures arith =
      { e.afterFailure arith realm currentTime ip with
        failedLoginNotBefore := e.leftOver arith realm currentTime } := by
    by_cases hexpired : e.Expired arith realm currentTime
    · refine (congrArg (LoginFailureEntity.incrementFailures arith) (if_pos hexpired)).trans ?_
      rw [LoginFailureEntity.afterFailure, LoginFailureEntity.leftOver,
        LoginFailureEntity.counted, if_pos hexpired, if_pos hexpired, if_pos hexpired,
        if_pos hexpired]
      rfl
    · refine (congrArg (LoginFailureEntity.incrementFailures arith) (if_neg hexpired)).trans ?_
      rw [LoginFailureEntity.afterFailure, LoginFailureEntity.leftOver,
        LoginFailureEntity.counted, if_neg hexpired, if_neg hexpired, if_neg hexpired,
        if_neg hexpired]
      rfl
  rw [hentity]
  dsimp only
  show (if e.wait arith realm currentTime > 0 then _ else _) = _
  by_cases hwait : 0 < e.wait arith realm currentTime
  · have hlock : e.notBefore arith realm currentTime = _ := if_pos hwait
    rw [if_pos hwait, LoginFailureEntity.afterFailure, hlock]
    rfl
  · have hlock : e.notBefore arith realm currentTime = _ := if_neg hwait
    rw [if_neg hwait, LoginFailureEntity.afterFailure, hlock]

end

/-! ## How long the lock lasts -/

structure RealmModel.Valid (realm : RealmModel) : Prop where
  failureFactor : 1 ≤ realm.failureFactor ∧ realm.failureFactor < 2 ^ 31
  waitIncrement : 0 ≤ realm.waitIncrementSeconds ∧ realm.waitIncrementSeconds < 2 ^ 31
  maxFailureWait : 0 ≤ realm.maxFailureWaitSeconds ∧ realm.maxFailureWaitSeconds < 2 ^ 31
  maxDeltaTime : 0 ≤ realm.maxDeltaTimeSeconds ∧ realm.maxDeltaTimeSeconds < 2 ^ 31
  quickLoginCheck :
    0 ≤ realm.quickLoginCheckMilliSeconds ∧ realm.quickLoginCheckMilliSeconds < 2 ^ 31
  minimumQuickLoginWait :
    0 ≤ realm.minimumQuickLoginWaitSeconds ∧ realm.minimumQuickLoginWaitSeconds < 2 ^ 31

structure LoginFailureEntity.InRange (e : LoginFailureEntity) : Prop where
  failedLoginNotBefore : -2 ^ 31 ≤ e.failedLoginNotBefore ∧ e.failedLoginNotBefore < 2 ^ 31
  numFailures : -2 ^ 31 ≤ e.numFailures ∧ e.numFailures < 2 ^ 31
  lastFailure : -2 ^ 63 ≤ e.lastFailure ∧ e.lastFailure < 2 ^ 63

/-- After a failure that reaches the failure factor the user is disabled for the configured wait,
computed without overflow. -/
def LocksLongEnough (realm : RealmModel) (user : UserModel) (ip : Option String)
    (currentTime : Int) : Prop :=
  ∀ user' e', failure .java realm user ip currentTime = some user' →
    user'.loginFailure = some e' → realm.failureFactor ≤ e'.numFailures →
    0 < realm.waitIncrementSeconds → 0 < realm.maxFailureWaitSeconds →
    ∀ second, currentTime.tdiv 1000 ≤ second →
      second < currentTime.tdiv 1000 + min realm.maxFailureWaitSeconds
        (realm.waitIncrementSeconds * (e'.numFailures / realm.failureFactor)) →
      isTemporarilyDisabled .java user' (second * 1000) = true

/-- The wait is not too large for an `int`, or what is left of it is still enough; and the time
when it ends is not too large either. -/
def LoginFailureEntity.Fits (e : LoginFailureEntity) (realm : RealmModel) (currentTime : Int) :
    Prop :=
  let wait := realm.waitIncrementSeconds *
    (e.counted .java realm currentTime / realm.failureFactor)
  let second := Arithmetic.java.int (currentTime.tdiv 1000)
  if wait < 2 ^ 31 then second + min realm.maxFailureWaitSeconds wait < 2 ^ 31
  else if 0 < Arithmetic.java.int wait then
    realm.maxFailureWaitSeconds ≤ Arithmetic.java.int wait ∧
      second + realm.maxFailureWaitSeconds < 2 ^ 31
  else if Arithmetic.java.int wait = 0 ∧ e.Quick .java realm currentTime ∧
      0 < realm.minimumQuickLoginWaitSeconds then
    realm.maxFailureWaitSeconds ≤ realm.minimumQuickLoginWaitSeconds ∧
      second + realm.maxFailureWaitSeconds < 2 ^ 31
  else second + realm.maxFailureWaitSeconds ≤ e.leftOver .java realm currentTime

theorem java_int_spec (x : Int) : ∃ q, Arithmetic.java.int x = x - 2 ^ 32 * q ∧
    -2 ^ 31 ≤ Arithmetic.java.int x ∧ Arithmetic.java.int x < 2 ^ 31 := by
  have hpos : 0 < 2 ^ 32 := by decide
  have hlow : -(((2 ^ 32 : Nat) : Int) / 2) ≤ x.bmod (2 ^ 32) := Int.le_bmod hpos
  have hhigh : x.bmod (2 ^ 32) < (((2 ^ 32 : Nat) : Int) + 1) / 2 := Int.bmod_lt hpos
  have hsplit := Int.bmod_add_bdiv x (2 ^ 32)
  have hint : Arithmetic.java.int x = x.bmod (2 ^ 32) := rfl
  refine ⟨x.bdiv (2 ^ 32), ?_, ?_, ?_⟩
  · omega
  · omega
  · omega

theorem java_int_eq {x : Int} (hlow : -2 ^ 31 ≤ x) (hhigh : x < 2 ^ 31) :
    Arithmetic.java.int x = x := by
  obtain ⟨q, hq, hqlow, hqhigh⟩ := java_int_spec x
  omega

/-- A lock ends where the counter of the seconds reaches it, unless that wraps around before. -/
theorem all_before_iff {second wait lock : Int} (hwait : 0 < wait) (hlock : lock < 2 ^ 31) :
    (∀ s, second ≤ s → s < second + wait → Arithmetic.java.int s < lock) ↔
      Arithmetic.java.int second + wait ≤ lock := by
  obtain ⟨q, hq, hlow, hhigh⟩ := java_int_spec second
  constructor
  · intro hall
    have hfirst := hall second (by omega) (by omega)
    by_contra hlate
    have hend := hall (second + (lock - Arithmetic.java.int second)) (by omega) (by omega)
    obtain ⟨q', hq', hlow', hhigh'⟩ :=
      java_int_spec (second + (lock - Arithmetic.java.int second))
    omega
  · intro hend s hfrom hto
    obtain ⟨q', hq', hlow', hhigh'⟩ := java_int_spec s
    omega

/-- A new lock is long enough if it is not cut down and does not overflow. -/
theorem le_lock_iff {second wait given : Int} (hlow : -2 ^ 31 ≤ second) (hhigh : second < 2 ^ 31)
    (hwait : 0 < wait) (hgiven : 0 < given) (hbound : given < 2 ^ 31) :
    second + wait ≤ Arithmetic.java.int (second + given) ↔
      wait ≤ given ∧ second + given < 2 ^ 31 := by
  obtain ⟨q, hq, hqlow, hqhigh⟩ := java_int_spec (second + given)
  constructor
  · intro h
    constructor
    · omega
    · omega
  · intro h
    omega

section

variable {realm : RealmModel} {e : LoginFailureEntity} {currentTime : Int}

theorem counterWait_java (hrealm : realm.Valid)
    (hcount : realm.failureFactor ≤ e.counted .java realm currentTime) :
    e.counterWait .java realm currentTime = Arithmetic.java.int (realm.waitIncrementSeconds *
      (e.counted .java realm currentTime / realm.failureFactor)) := by
  have hfactor := hrealm.failureFactor
  obtain ⟨q, hq, hlow, hhigh⟩ := java_int_spec
    ((if e.Expired .java realm currentTime then 0 else e.numFailures) + 1)
  have hcounted : e.counted .java realm currentTime < 2 ^ 31 := hhigh
  have hnonneg : 0 ≤ e.counted .java realm currentTime := by omega
  have hdiv : e.counted .java realm currentTime / realm.failureFactor ≤
      e.counted .java realm currentTime := Int.ediv_le_self _ hnonneg
  have hdivNonneg : 0 ≤ e.counted .java realm currentTime / realm.failureFactor :=
    Int.ediv_nonneg hnonneg (by omega)
  have hquotient : Arithmetic.java.int
      (e.counted .java realm currentTime / realm.failureFactor) = _ :=
    java_int_eq (by omega) (by omega)
  rw [LoginFailureEntity.counterWait, Int.tdiv_eq_ediv_of_nonneg hnonneg, hquotient]

/-- The lock that is stored, compared with the configured wait. -/
theorem fits_iff (hrealm : realm.Valid) (hinc : 0 < realm.waitIncrementSeconds)
    (hmax : 0 < realm.maxFailureWaitSeconds)
    (hcount : realm.failureFactor ≤ e.counted .java realm currentTime) :
    Arithmetic.java.int (currentTime.tdiv 1000) + min realm.maxFailureWaitSeconds
        (realm.waitIncrementSeconds *
          (e.counted .java realm currentTime / realm.failureFactor)) ≤
      e.notBefore .java realm currentTime ↔ e.Fits realm currentTime := by
  have hfactor := hrealm.failureFactor
  have hmaxBound := hrealm.maxFailureWait
  have hquickBound := hrealm.minimumQuickLoginWait
  have hquotient : 1 ≤ e.counted .java realm currentTime / realm.failureFactor :=
    (Int.le_ediv_iff_mul_le (by omega)).mpr (by omega)
  have hpositive : 0 < realm.waitIncrementSeconds *
      (e.counted .java realm currentTime / realm.failureFactor) :=
    Int.mul_pos hinc (by omega)
  obtain ⟨q, hq, hlow, hhigh⟩ := java_int_spec (currentTime.tdiv 1000)
  rw [LoginFailureEntity.notBefore, LoginFailureEntity.wait, counterWait_java hrealm hcount,
    LoginFailureEntity.Fits]
  generalize realm.waitIncrementSeconds *
    (e.counted .java realm currentTime / realm.failureFactor) = wait at hpositive ⊢
  generalize Arithmetic.java.int (currentTime.tdiv 1000) = second at hlow hhigh ⊢
  by_cases hsmall : wait < 2 ^ 31
  · have hcounter : ¬ (wait = 0 ∧ e.Quick .java realm currentTime) :=
      fun h => absurd h.1 (by omega)
    rw [if_pos hsmall, java_int_eq (by omega) hsmall, if_neg hcounter, if_pos hpositive,
      le_lock_iff hlow hhigh (by omega) (by omega) (by omega)]
    exact and_iff_right (Int.le_refl _)
  · rw [if_neg hsmall]
    have hmin : min realm.maxFailureWaitSeconds wait = realm.maxFailureWaitSeconds := by omega
    rw [hmin]
    by_cases hleft : 0 < Arithmetic.java.int wait
    · have hcounter : ¬ (Arithmetic.java.int wait = 0 ∧ e.Quick .java realm currentTime) :=
        fun h => absurd h.1 (by omega)
      rw [if_neg hcounter, if_pos hleft, if_pos hleft,
        le_lock_iff hlow hhigh hmax (by omega) (by omega)]
      omega
    · rw [if_neg hleft]
      by_cases hquick : Arithmetic.java.int wait = 0 ∧ e.Quick .java realm currentTime
      · rw [if_pos hquick]
        by_cases hminimum : 0 < realm.minimumQuickLoginWaitSeconds
        · rw [if_pos hminimum, if_pos ⟨hquick.1, hquick.2, hminimum⟩,
            le_lock_iff hlow hhigh hmax (by omega) (by omega)]
          omega
        · rw [if_neg hminimum, if_neg fun h => hminimum h.2.2]
      · rw [if_neg hquick, if_neg hleft, if_neg fun h => hquick ⟨h.1, h.2.1⟩]

theorem notBefore_java_lt (he : e.InRange) : e.notBefore .java realm currentTime < 2 ^ 31 := by
  rw [LoginFailureEntity.notBefore]
  split
  · obtain ⟨q, hq, hlow, hhigh⟩ := java_int_spec
      (Arithmetic.java.int (currentTime.tdiv 1000) +
        min realm.maxFailureWaitSeconds (e.wait .java realm currentTime))
    exact hhigh
  · have hbound := he.failedLoginNotBefore
    rw [LoginFailureEntity.leftOver]
    split
    · omega
    · omega

end

/-- The lock lasts as long as configured exactly when neither the wait nor the time of its end
overflows, or when what the overflow leaves happens to be enough. -/
theorem locksLongEnough_iff (realm : RealmModel) (user : UserModel) (ip : Option String)
    (currentTime : Int) (hpermanent : realm.permanentLockout = false) (hrealm : realm.Valid)
    (huser : (user.loginFailure.getD .new).InRange) :
    LocksLongEnough realm user ip currentTime ↔
      (realm.failureFactor ≤ (user.loginFailure.getD .new).counted .java realm currentTime →
        0 < realm.waitIncrementSeconds → 0 < realm.maxFailureWaitSeconds →
        (user.loginFailure.getD .new).Fits realm currentTime) := by
  have hfactor := hrealm.failureFactor
  have hafter : failure .java realm user ip currentTime = _ := failure_eq hpermanent (by omega)
  generalize user.loginFailure.getD .new = e at huser hafter ⊢
  have hdisabled (second : Int) : isTemporarilyDisabled .java
      { user with loginFailure := some (e.afterFailure .java realm currentTime ip) }
      (second * 1000) = true ↔
        Arithmetic.java.int second < e.notBefore .java realm currentTime := by
    rw [isTemporarilyDisabled, decide_eq_true_eq, Int.mul_tdiv_cancel _ (by decide)]
    rfl
  have hspan (hcount : realm.failureFactor ≤ e.counted .java realm currentTime)
      (hinc : 0 < realm.waitIncrementSeconds) (hmax : 0 < realm.maxFailureWaitSeconds) :
      (∀ second, currentTime.tdiv 1000 ≤ second →
        second < currentTime.tdiv 1000 + min realm.maxFailureWaitSeconds
          (realm.waitIncrementSeconds *
            (e.counted .java realm currentTime / realm.failureFactor)) →
        Arithmetic.java.int second < e.notBefore .java realm currentTime) ↔
      e.Fits realm currentTime := by
    have hquotient : 1 ≤ e.counted .java realm currentTime / realm.failureFactor :=
      (Int.le_ediv_iff_mul_le (by omega)).mpr (by omega)
    have hpositive : 0 < realm.waitIncrementSeconds *
        (e.counted .java realm currentTime / realm.failureFactor) :=
      Int.mul_pos hinc (by omega)
    rw [all_before_iff (by omega) (notBefore_java_lt huser), fits_iff hrealm hinc hmax hcount]
  constructor
  · intro hlocks hcount hinc hmax
    rw [← hspan hcount hinc hmax]
    intro second hfrom hto
    exact (hdisabled second).mp (hlocks _ _ hafter rfl hcount hinc hmax second hfrom hto)
  · intro hfits user' e' hrun he' hcount hinc hmax second hfrom hto
    rw [hafter] at hrun
    cases hrun
    cases he'
    exact (hdisabled second).mpr
      ((hspan hcount hinc hmax).mpr (hfits hcount hinc hmax) second hfrom hto)

/-- With the defaults the thirtieth failure locks. -/
theorem defaults_lock : LocksLongEnough ⟨false, 30, 60, 900, 43200, 1000, 60⟩
    ⟨some ⟨0, 29, 1500000000000, none⟩, true⟩ none 1500003600000 := by
  refine (locksLongEnough_iff _ _ _ _ rfl ?_ ?_).mpr fun _ _ _ => ?_
  · constructor <;> decide
  · constructor <;> decide
  · rw [LoginFailureEntity.Fits]
    decide

/-- The second failure after an hour: twice the largest `int` is -2. -/
theorem overflow_does_not_lock : ¬ LocksLongEnough
    ⟨false, 1, 2 ^ 31 - 1, 900, 43200, 1000, 60⟩
    ⟨some ⟨0, 1, 1500000000000, none⟩, true⟩ none 1500003600000 := by
  intro h
  have hdisabled := h _ _ rfl rfl (by decide) (by decide) (by decide) 1500003600
    (by decide) (by decide)
  exact absurd hdisabled (by decide)

/-! ## Quick failures -/

structure LoginEvent where
  time : Int
  successful : Bool
  ip : Option String
deriving DecidableEq, Repr

/-- When the processing of an event throws, the transaction is rolled back. -/
def process (arith : Arithmetic) (realm : RealmModel) (user : UserModel) (event : LoginEvent) :
    UserModel :=
  if event.successful then success user
  else (failure arith realm user event.ip event.time).getD user

def after (realm : RealmModel) (events : List LoginEvent) : UserModel :=
  events.foldl (process .unbounded realm) ⟨none, true⟩

structure QuickFailures (realm : RealmModel) (events before : List LoginEvent)
    (first second : LoginEvent) : Prop where
  consecutive : before ++ [first, second] <+: events
  first_failed : first.successful = false
  second_failed : second.successful = false
  quick : second.time - first.time < realm.quickLoginCheckMilliSeconds

def NoticesQuickFailures (realm : RealmModel) (events : List LoginEvent) : Prop :=
  ∀ before first second, QuickFailures realm events before first second →
    isTemporarilyDisabled .unbounded (after realm (before ++ [first, second])) second.time = true

/-- A further failure is noticed: the counter gives a wait, or it gives none and the last failure
is known, or the old lock lasts. -/
def LoginFailureEntity.Noticed (e : LoginFailureEntity) (realm : RealmModel)
    (currentTime : Int) : Prop :=
  realm.failureFactor ≠ 0 ∧
    (0 < e.counterWait .unbounded realm currentTime ∨
      e.counterWait .unbounded realm currentTime = 0 ∧ 0 < e.lastFailure ∨
      currentTime.tdiv 1000 < e.leftOver .unbounded realm currentTime)

section

variable {realm : RealmModel} {e : LoginFailureEntity} {events before : List LoginEvent}
  {first second : LoginEvent} {currentTime : Int}

theorem after_concat (events : List LoginEvent) (event : LoginEvent) :
    after realm (events ++ [event]) = process .unbounded realm (after realm events) event := by
  rw [after, List.foldl_append]
  rfl

/-- With a failure factor of zero nothing is ever stored. -/
theorem after_of_zero (hpermanent : realm.permanentLockout = false)
    (hfactor : realm.failureFactor = 0) : after realm events = ⟨none, true⟩ := by
  induction events using List.reverseRecOn with
  | nil => rfl
  | append_singleton events event ih =>
      rw [after_concat, ih, process, failure_eq_none hpermanent hfactor]
      split
      · rfl
      · rfl

theorem process_failed {user : UserModel} {event : LoginEvent}
    (hpermanent : realm.permanentLockout = false) (hfactor : realm.failureFactor ≠ 0)
    (hfailed : event.successful = false) :
    process .unbounded realm user event = { user with
      loginFailure := some
        ((user.loginFailure.getD .new).afterFailure .unbounded realm event.time event.ip) } := by
  rw [process, hfailed, if_neg Bool.false_ne_true, failure_eq hpermanent hfactor]
  rfl

theorem lastFailure_afterFailure (ip : Option String) :
    (e.afterFailure .unbounded realm currentTime ip).lastFailure = 0 ∨
      (e.afterFailure .unbounded realm currentTime ip).lastFailure = currentTime := by
  rw [LoginFailureEntity.afterFailure]
  dsimp only
  split
  · exact .inl rfl
  · exact .inr rfl

/-- A quick failure disables the user exactly if it is noticed. -/
theorem lt_notBefore_iff (hfactor : realm.failureFactor ≠ 0)
    (hminimum : 0 < realm.minimumQuickLoginWaitSeconds)
    (hmax : 0 < realm.maxFailureWaitSeconds)
    (hquick : e.Quick .unbounded realm currentTime ↔ 0 < e.lastFailure) :
    currentTime.tdiv 1000 < e.notBefore .unbounded realm currentTime ↔
      e.Noticed realm currentTime := by
  have hnew (wait : Int) (hwait : 0 < wait) :
      currentTime.tdiv 1000 < Arithmetic.unbounded.int
        (Arithmetic.unbounded.int (currentTime.tdiv 1000) +
          min realm.maxFailureWaitSeconds wait) := by
    show currentTime.tdiv 1000 < currentTime.tdiv 1000 + min realm.maxFailureWaitSeconds wait
    omega
  rw [LoginFailureEntity.notBefore, LoginFailureEntity.wait, LoginFailureEntity.Noticed,
    ← hquick, and_iff_right hfactor]
  by_cases hcounter : e.counterWait .unbounded realm currentTime = 0 ∧
      e.Quick .unbounded realm currentTime
  · rw [if_pos hcounter, if_pos hminimum]
    exact iff_of_true (hnew _ hminimum) (.inr (.inl hcounter))
  · rw [if_neg hcounter]
    by_cases hwait : 0 < e.counterWait .unbounded realm currentTime
    · rw [if_pos hwait]
      exact iff_of_true (hnew _ hwait) (.inl hwait)
    · rw [if_neg hwait, or_iff_right hwait, or_iff_right hcounter]

end

/-- Quick failures are noticed exactly when, before each second one, the last failure is still
known, the failures that are counted give a wait, or the old lock lasts. -/
theorem noticesQuickFailures_iff (realm : RealmModel) (events : List LoginEvent)
    (hpermanent : realm.permanentLockout = false)
    (hminimum : 0 < realm.minimumQuickLoginWaitSeconds)
    (hmax : 0 < realm.maxFailureWaitSeconds) :
    NoticesQuickFailures realm events ↔ ∀ before first second,
      QuickFailures realm events before first second →
      ((after realm (before ++ [first])).loginFailure.getD .new).Noticed realm second.time := by
  refine forall_congr' fun before => forall_congr' fun first => forall_congr' fun second =>
    forall_congr' fun hpair => ?_
  by_cases hfactor : realm.failureFactor = 0
  · refine iff_of_false ?_ fun h => h.1 hfactor
    rw [after_of_zero hpermanent hfactor]
    exact Bool.false_ne_true
  · have hsplit : before ++ [first, second] = before ++ [first] ++ [second] := by simp
    rw [hsplit, after_concat, process_failed hpermanent hfactor hpair.second_failed,
      isTemporarilyDisabled, decide_eq_true_eq]
    refine lt_notBefore_iff hfactor hminimum hmax ⟨And.left, fun hknown => ⟨hknown, ?_⟩⟩
    rw [LoginFailureEntity.deltaTime, if_pos hknown]
    rw [after_concat, process_failed hpermanent hfactor hpair.first_failed] at hknown ⊢
    rcases lastFailure_afterFailure first.ip with hlast | hlast
    · exact absurd hknown (by rw [Option.getD_some, hlast]; exact Int.lt_irrefl 0)
    · rw [Option.getD_some, hlast]
      exact hpair.quick

/-- With a failure factor of one every failure is noticed. -/
theorem noticed_at_once : NoticesQuickFailures ⟨false, 1, 60, 900, 43200, 1000, 60⟩
    [⟨1500000000000, false, none⟩, ⟨1500000000100, false, none⟩] := by
  refine (noticesQuickFailures_iff _ _ rfl (by decide) (by decide)).mpr
    fun before first second hpair => ?_
  have hlength := hpair.consecutive.length_le
  rw [List.length_append, List.length_cons, List.length_cons] at hlength
  have hnil : before = [] := List.eq_nil_of_length_eq_zero (Nat.le_zero.mp (by simpa using hlength))
  subst hnil
  obtain ⟨rfl, rfl⟩ : first = _ ∧ second = _ := by
    have hsame := hpair.consecutive.eq_of_length rfl
    rw [List.nil_append, List.cons.injEq, List.cons.injEq] at hsame
    exact ⟨hsame.1, hsame.2.1⟩
  exact ⟨by decide, .inl (by decide)⟩

/-- Two quick failures after a day: the first of them clears its own time. -/
theorem quick_failures_after_a_day : ¬ NoticesQuickFailures
    ⟨false, 30, 60, 900, 43200, 1000, 60⟩
    [⟨1500000000000, false, none⟩, ⟨1500086400000, false, none⟩,
      ⟨1500086400100, false, none⟩] := by
  intro h
  have hdisabled := h [⟨1500000000000, false, none⟩] ⟨1500086400000, false, none⟩
    ⟨1500086400100, false, none⟩ ⟨List.prefix_rfl, rfl, rfl, by decide⟩
  exact absurd hdisabled (by decide)

end Keycloak.BruteForce
