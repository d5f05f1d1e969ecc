import Keycloak.Lib.Machine
import Mathlib.Logic.Function.Basic

/-!
# Redeeming an authorization code

One code, issued by `retrieveCode`, and any number of attempts to redeem it.  Time is
in milliseconds; the code carries whole seconds, while an entry of the single-use store
expires to the millisecond.  An attempt makes two observable steps, the `putIfAbsent`
of `verifyCode` and the clock reading of `isExpired`, between which time may pass and
other attempts may run.
-/

namespace Keycloak.Tokens.AuthorizationCode

def currentTime (millis : Nat) : Nat := millis / 1000

/-- The claims of the code that decide whether it is active.  `notBefore` is never set. -/
structure CodeJWT where
  issuedAt : Nat
  expiration : Nat
  notBefore : Nat
  deriving DecidableEq, Repr

def retrieveCode (millis accessCodeLifespan : Nat) : CodeJWT :=
  let issuedAt := currentTime millis
  ⟨issuedAt, issuedAt + accessCodeLifespan, 0⟩

namespace CodeJWT

def isExpired (code : CodeJWT) (millis : Nat) : Bool := currentTime millis > code.expiration

def isNotBefore (code : CodeJWT) (allowedTimeSkew millis : Nat) : Bool :=
  currentTime millis + allowedTimeSkew ≥ code.notBefore

def isActive (code : CodeJWT) (allowedTimeSkew millis : Nat) : Bool :=
  (!code.isExpired millis || code.expiration == 0) &&
    (code.isNotBefore allowedTimeSkew millis || code.notBefore == 0)

end CodeJWT

inductive ParseResult where
  | authSessionNotFound
  | illegalHash
  | expiredToken
  | code
  deriving DecidableEq, Repr

inductive Phase where
  | idle
  /-- `verifyCode` has returned `true`. -/
  | verified
  | ended (result : ParseResult)
  deriving DecidableEq, Repr

/-- How a call of the remote store goes: it answers, or it throws a
`HotRodClientException` before or after it has done its work. -/
inductive StoreCall where
  | answers
  | throwsBefore
  | throwsAfter
  deriving DecidableEq, Repr

structure State (ι : Type) where
  now : Nat
  codeCache : Option Nat
  attempts : ι → Phase

section Code

variable {ι : Type} [DecidableEq ι]

def present (accessCodeLifespan now : Nat) : Option Nat → Bool
  | none => false
  | some put => now < put + accessCodeLifespan * 1000

/-- `InfinispanCodeToTokenStoreProvider.putIfAbsent`: the entry afterwards and the answer. -/
def putIfAbsent (accessCodeLifespan now : Nat) (codeCache : Option Nat) :
    StoreCall → Option Nat × Bool
  | .answers =>
      if present accessCodeLifespan now codeCache then (codeCache, false) else (some now, true)
  | .throwsBefore => (codeCache, false)
  | .throwsAfter =>
      if present accessCodeLifespan now codeCache then (codeCache, false) else (some now, false)

inductive Label (ι : Type) where
  /-- Time passes. -/
  | tick (millis : Nat)
  /-- The first part of `parseResult`: the client session was found or not, and the code
  is put into the store. -/
  | verifyCode (attempt : ι) (clientSessionFound : Bool) (store : StoreCall)
  /-- The second part: the clock is read. -/
  | isExpired (attempt : ι)
  deriving DecidableEq, Repr

def State.setPhase (s : State ι) (attempt : ι) (phase : Phase) : State ι :=
  { s with attempts := Function.update s.attempts attempt phase }

def step (accessCodeLifespan : Nat) (code : CodeJWT) (s : State ι) :
    Label ι → Option (State ι)
  | .tick millis => some { s with now := s.now + millis }
  | .verifyCode attempt clientSessionFound store =>
      match s.attempts attempt with
      | .idle =>
          if clientSessionFound then
            let (codeCache, unused) := putIfAbsent accessCodeLifespan s.now s.codeCache store
            let s := { s with codeCache := codeCache }
            some (s.setPhase attempt (if unused then .verified else .ended .illegalHash))
          else some (s.setPhase attempt (.ended .authSessionNotFound))
      | _ => none
  | .isExpired attempt =>
      match s.attempts attempt with
      | .verified =>
          some (s.setPhase attempt
            (if code.isActive 0 s.now then .ended .code else .ended .expiredToken))
      | _ => none

/-- The moment of issue: no attempt has been made and the code is not in the store. -/
def issued (millis : Nat) : State ι := ⟨millis, none, fun _ => .idle⟩

end Code

/-! ## At most one attempt gets the code -/

section SingleUse

variable {ι : Type} {accessCodeLifespan issue : Nat}

theorem isActive_iff {now : Nat} :
    (retrieveCode issue accessCodeLifespan).isActive 0 now = true ↔
      currentTime now ≤ currentTime issue + accessCodeLifespan ∨
        currentTime issue + accessCodeLifespan = 0 := by
  simp [CodeJWT.isActive, CodeJWT.isExpired, CodeJWT.isNotBefore, retrieveCode]

/-- Once a code is not active any more, it stays so. -/
theorem isActive_of_later {now later : Nat} (hle : now ≤ later)
    (h : (retrieveCode issue accessCodeLifespan).isActive 0 later = true) :
    (retrieveCode issue accessCodeLifespan).isActive 0 now = true := by
  have htime : currentTime now ≤ currentTime later := Nat.div_le_div_right hle
  rw [isActive_iff] at h ⊢
  omega

def Claims (code : CodeJWT) (s : State ι) (attempt : ι) : Prop :=
  s.attempts attempt = .ended .code ∨
    (s.attempts attempt = .verified ∧ code.isActive 0 s.now = true)

/-- One attempt at most claims the code, and then the code has been in the store. -/
structure SingleUse (code : CodeJWT) (s : State ι) : Prop where
  unique : ∀ i j, Claims code s i → Claims code s j → i = j
  stored : ∀ i, Claims code s i → s.codeCache ≠ none

/-- No `putIfAbsent` of the code finds its former entry expired while the code is active. -/
def EntryOutlivesCode (accessCodeLifespan : Nat) (code : CodeJWT) (s : State ι) :
    Label ι → Prop
  | .verifyCode _ true .answers => ∀ put, s.codeCache = some put →
      put + accessCodeLifespan * 1000 ≤ s.now → code.isActive 0 s.now = false
  | _ => True

theorem issued_singleUse (code : CodeJWT) (millis : Nat) :
    SingleUse code (issued millis : State ι) := by
  refine ⟨?_, ?_⟩
  · rintro i j (hi | ⟨hi, -⟩) - <;> cases hi
  · rintro i (hi | ⟨hi, -⟩) <;> cases hi

/-- A step after which every claim was one before, and the store keeps its entry. -/
theorem SingleUse.of_claims {code : CodeJWT} {s t : State ι} (h : SingleUse code s)
    (hclaims : ∀ i, Claims code t i → Claims code s i)
    (hstored : s.codeCache ≠ none → t.codeCache ≠ none) : SingleUse code t :=
  ⟨fun i j hi hj => h.unique i j (hclaims i hi) (hclaims j hj),
    fun i hi => hstored (h.stored i (hclaims i hi))⟩

variable [DecidableEq ι]

omit [DecidableEq ι] in
theorem claims_tick {s : State ι} {millis : Nat} {i : ι}
    (h : Claims (retrieveCode issue accessCodeLifespan) { s with now := s.now + millis } i) :
    Claims (retrieveCode issue accessCodeLifespan) s i := by
  rcases h with hcode | ⟨hverified, hactive⟩
  · exact .inl hcode
  · exact .inr ⟨hverified, isActive_of_later (Nat.le_add_right s.now millis) hactive⟩

theorem claims_setPhase_ended {code : CodeJWT} {s : State ι} {attempt i : ι}
    {result : ParseResult} (hresult : result ≠ .code)
    (h : Claims code (s.setPhase attempt (.ended result)) i) : Claims code s i := by
  unfold Claims State.setPhase at h
  by_cases hi : i = attempt
  · subst hi
    simp only [Function.update_self, Phase.ended.injEq, reduceCtorEq, false_and, or_false] at h
    exact absurd h hresult
  · simpa [Claims, hi] using h

/-- The code is put into the store for an attempt: either it was never there, or its entry
has expired and so has the code. -/
theorem SingleUse.put {s : State ι} {attempt : ι} {code : CodeJWT} (h : SingleUse code s)
    (hpresent : present accessCodeLifespan s.now s.codeCache = false)
    (hentry : ∀ put, s.codeCache = some put → put + accessCodeLifespan * 1000 ≤ s.now →
      code.isActive 0 s.now = false) :
    SingleUse code (State.setPhase { s with codeCache := some s.now } attempt .verified) := by
  have hclaims : ∀ i, Claims code
      (State.setPhase { s with codeCache := some s.now } attempt .verified) i →
      (i = attempt ∧ code.isActive 0 s.now = true) ∨ (i ≠ attempt ∧ Claims code s i) := by
    intro i hi
    unfold Claims State.setPhase at hi
    by_cases heq : i = attempt
    · subst heq
      simp only [Function.update_self, reduceCtorEq, false_or, true_and] at hi
      exact .inl ⟨rfl, hi⟩
    · exact .inr ⟨heq, by simpa [Claims, heq] using hi⟩
  -- with the code active, nobody claimed it before
  have hfirst : code.isActive 0 s.now = true → ∀ i, ¬ Claims code s i := by
    intro hactive i hi
    obtain ⟨put, hput⟩ := Option.ne_none_iff_exists'.mp (h.stored i hi)
    have hexpired : put + accessCodeLifespan * 1000 ≤ s.now := by
      simpa [present, hput] using hpresent
    rw [hentry put hput hexpired] at hactive
    cases hactive
  refine ⟨?_, fun _ _ => Option.some_ne_none _⟩
  intro i j hi hj
  rcases hclaims i hi with ⟨hi, hactive⟩ | ⟨-, hbefore⟩
  · rcases hclaims j hj with ⟨hj, -⟩ | ⟨-, hbefore⟩
    · rw [hi, hj]
    · exact absurd hbefore (hfirst hactive j)
  · rcases hclaims j hj with ⟨-, hactive⟩ | ⟨-, hbefore'⟩
    · exact absurd hbefore (hfirst hactive i)
    · exact h.unique i j hbefore hbefore'

theorem verifyCode_singleUse {s t : State ι} {attempt : ι} {clientSessionFound : Bool}
    {store : StoreCall} (h : SingleUse (retrieveCode issue accessCodeLifespan) s)
    (hentry : EntryOutlivesCode accessCodeLifespan (retrieveCode issue accessCodeLifespan) s
      (.verifyCode attempt clientSessionFound store))
    (hstep : step accessCodeLifespan (retrieveCode issue accessCodeLifespan) s
      (.verifyCode attempt clientSessionFound store) = some t) :
    SingleUse (retrieveCode issue accessCodeLifespan) t := by
  simp only [step] at hstep
  cases hphase : s.attempts attempt with
  | verified => simp [hphase] at hstep
  | ended result => simp [hphase] at hstep
  | idle =>
      simp only [hphase] at hstep
      cases clientSessionFound with
      | false =>
          cases hstep
          exact h.of_claims (fun i hi => claims_setPhase_ended (by decide) hi) id
      | true =>
          simp only [if_true, Option.some.injEq] at hstep
          cases hpresent : present accessCodeLifespan s.now s.codeCache with
          | true =>
              -- the code has been used: whatever the store does, its entry stays
              have hput : putIfAbsent accessCodeLifespan s.now s.codeCache store =
                  (s.codeCache, false) := by
                cases store <;> simp [putIfAbsent, hpresent]
              rw [hput] at hstep
              subst hstep
              exact h.of_claims (fun i hi => claims_setPhase_ended (by decide) hi) id
          | false =>
              cases store with
              | throwsBefore =>
                  subst hstep
                  exact h.of_claims (fun i hi => claims_setPhase_ended (by decide) hi) id
              | throwsAfter =>
                  simp only [putIfAbsent, hpresent] at hstep
                  subst hstep
                  exact h.of_claims (fun i hi => claims_setPhase_ended (by decide) hi)
                    fun _ => Option.some_ne_none _
              | answers =>
                  simp only [putIfAbsent, hpresent] at hstep
                  subst hstep
                  exact h.put hpresent hentry

theorem isExpired_singleUse {s t : State ι} {attempt : ι} {code : CodeJWT}
    (h : SingleUse code s)
    (hstep : step accessCodeLifespan code s (.isExpired attempt) = some t) :
    SingleUse code t := by
  simp only [step] at hstep
  cases hphase : s.attempts attempt with
  | idle => simp [hphase] at hstep
  | ended result => simp [hphase] at hstep
  | verified =>
      simp only [hphase, Option.some.injEq] at hstep
      subst hstep
      cases hactive : code.isActive 0 s.now with
      | false => exact h.of_claims (fun i hi => claims_setPhase_ended (by decide) hi) id
      | true =>
          refine h.of_claims ?_ id
          intro i hi
          by_cases heq : i = attempt
          · exact .inr ⟨heq ▸ hphase, hactive⟩
          · unfold Claims State.setPhase at hi
            simpa [Claims, heq] using hi

theorem step_singleUse {s t : State ι} {label : Label ι}
    (h : SingleUse (retrieveCode issue accessCodeLifespan) s)
    (hentry : EntryOutlivesCode accessCodeLifespan (retrieveCode issue accessCodeLifespan) s
      label)
    (hstep : step accessCodeLifespan (retrieveCode issue accessCodeLifespan) s label = some t) :
    SingleUse (retrieveCode issue accessCodeLifespan) t := by
  cases label with
  | tick millis =>
      cases hstep
      exact h.of_claims (fun i hi => claims_tick hi) id
  | verifyCode attempt clientSessionFound store => exact verifyCode_singleUse h hentry hstep
  | isExpired attempt => exact isExpired_singleUse h hstep

/-- In every run of attempts to redeem one code in which no `putIfAbsent` finds the former
entry of the code expired while the code is still active, at most one attempt gets the
code. -/
theorem code_redeemed_once (accessCodeLifespan issue : Nat) (labels : List (Label ι))
    (s : State ι)
    (hentry : Machine.Meets (step accessCodeLifespan (retrieveCode issue accessCodeLifespan))
      (EntryOutlivesCode accessCodeLifespan (retrieveCode issue accessCodeLifespan))
      (issued issue) labels)
    (hrun : Machine.run (step accessCodeLifespan (retrieveCode issue accessCodeLifespan))
      (issued issue) labels = some s) :
    ∀ i j, s.attempts i = .ended .code → s.attempts j = .ended .code → i = j := by
  have h : SingleUse (retrieveCode issue accessCodeLifespan) s :=
    Machine.run_invariant (fun _ _ _ hinv hok hstep => step_singleUse hinv hok hstep)
      (issued_singleUse _ issue) hentry hrun
  intro i j hi hj
  exact h.unique i j (.inl hi) (.inl hj)

def redeemedAgainSoon : List (Label Nat) :=
  [.verifyCode 1 true .answers, .isExpired 1, .tick 500, .verifyCode 2 true .answers]

theorem redeemedAgainSoon_once :
    ∃ s, Machine.run (step 60 (retrieveCode 100 60)) (issued 100) redeemedAgainSoon = some s ∧
      s.attempts 1 = .ended .code ∧ s.attempts 2 = .ended .illegalHash ∧
      ∀ i j, s.attempts i = .ended .code → s.attempts j = .ended .code → i = j := by
  have hentry : Machine.Meets (step 60 (retrieveCode 100 60))
      (EntryOutlivesCode 60 (retrieveCode 100 60)) (issued 100) redeemedAgainSoon := by
    refine .cons ?_ rfl (.cons trivial rfl (.cons trivial rfl (.cons ?_ rfl trivial)))
    · intro put hput
      cases hput
    · intro put hput hle
      cases hput
      exact absurd hle (by decide)
  exact ⟨_, rfl, rfl, rfl, code_redeemed_once 60 100 redeemedAgainSoon _ hentry rfl⟩

/-- The code is issued at 0.1 s and redeemed at 0.2 s; the entry expires at 60.2 s and the
code after the 60th second. -/
theorem code_redeemed_twice :
    ∃ s, Machine.run (step 60 (retrieveCode 100 60)) (issued 100)
        [.tick 100, .verifyCode 1 true .answers, .isExpired 1, .tick 60100,
          .verifyCode 2 true .answers, .isExpired 2] = some s ∧
      s.attempts 1 = .ended .code ∧ s.attempts 2 = .ended .code :=
  ⟨_, rfl, rfl, rfl⟩

end SingleUse

end Keycloak.Tokens.AuthorizationCode
