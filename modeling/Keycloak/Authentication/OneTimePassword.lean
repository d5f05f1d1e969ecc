import Keycloak.Lib.JavaInt
import Keycloak.Lib.Machine

/-!
# HOTP credentials

`HmacOTP.validateHOTP` looks for the counter of a token, and `OTPCredentialProvider.isValid`
stores the counter behind it.  The HMAC is a function from the counters to the tokens.

The bound of the loop and its variable are of type `int`.  A loop that comes round to its start
never ends; the fuel of the model pays for its rounds.
-/

namespace Keycloak.OTP

open JavaInt

variable {Token : Type*} [DecidableEq Token]

structure HmacOTP where
  numberDigits : Int
  algorithm : String
  lookAheadWindow : Int
  deriving DecidableEq, Repr

/-! ## `HmacOTP` -/

section

variable (generateHOTP : Int → Token) (token : Token)

def validateFrom (bound : Int) : Nat → Int → Option Int
  | 0, _ => none
  | fuel + 1, newCounter =>
      if newCounter ≤ bound then
        if generateHOTP newCounter = token then some (wrap (newCounter + 1))
        else validateFrom bound fuel (wrap (newCounter + 1))
      else some (-1)

def validateHOTP (fuel : Nat) (lookAheadWindow counter : Int) : Option Int :=
  validateFrom generateHOTP token (wrap (counter + lookAheadWindow)) fuel counter

end

/-! ## `OTPCredentialProvider` -/

inductive OTPType where
  | hotp
  | totp
  deriving DecidableEq, Repr

structure OTPPolicy where
  type : OTPType
  validator : HmacOTP
  deriving DecidableEq, Repr

structure CredentialModel where
  id : String
  value : String
  counter : Int
  deriving DecidableEq, Repr

/-- A validation of a token: the policy of the realm at this time, and the input, if it is a
`UserCredentialModel` with a value. -/
structure Call (Token : Type*) where
  policy : OTPPolicy
  input : Option Token

structure Accepted where
  id : String
  before : Int
  after : Int
  deriving DecidableEq, Repr

structure Store where
  creds : List CredentialModel
  accepted : List Accepted
  deriving DecidableEq, Repr

def updateCredential (creds : List CredentialModel) (id : String) (counter : Int) :
    List CredentialModel :=
  creds.map fun cred => if cred.id = id then { cred with counter } else cred

section

variable (generateHOTP : HmacOTP → String → Int → Token)
  (validTOTP : OTPPolicy → Token → Bool) (fuel : Nat)

/-- The loop over the stored credentials: the first one with the token, and its new counter. -/
def findValid (validator : HmacOTP) (token : Token) :
    List CredentialModel → Option (Option (CredentialModel × Int))
  | [] => some none
  | cred :: rest => do
      let counter ← validateHOTP (generateHOTP validator cred.value) token fuel
        validator.lookAheadWindow cred.counter
      if counter < 0 then findValid validator token rest else some (some (cred, counter))

def isValid (store : Store) (call : Call Token) : Option (Bool × Store) :=
  match call.input with
  | none => some (false, store)
  | some token =>
      match call.policy.type with
      | .totp => some (validTOTP call.policy token, store)
      | .hotp => do
          match ← findValid generateHOTP fuel call.policy.validator token store.creds with
          | none => some (false, store)
          | some (cred, counter) =>
              let accepted := ⟨cred.id, cred.counter, counter⟩
              some (true, ⟨updateCredential store.creds cred.id counter,
                store.accepted ++ [accepted]⟩)

def step (store : Store) (call : Call Token) : Option Store :=
  (isValid generateHOTP validTOTP fuel store call).map (·.2)

end

/-! ## What is expected -/

def Expected (P : Int → Prop) (lookAheadWindow counter result : Int) : Prop :=
  (∃ c, FirstIn P counter (counter + lookAheadWindow) c ∧ result = c + 1) ∨
    NoneIn P counter (counter + lookAheadWindow) ∧ result = -1

/-- The result is as expected.  At the end of the range the loop has to find a token before the
last counter, or else none at all until it is back at the counter `-2`; beyond the range there
must be no token to find. -/
def Safe (P : Int → Prop) (lookAheadWindow counter : Int) : Prop :=
  counter + lookAheadWindow < maxValue ∨
  (counter + lookAheadWindow = maxValue ∧
    ((∃ c, FirstIn P counter (maxValue - 1) c) ∨
      NoneIn P counter maxValue ∧ FirstIn P minValue maxValue (-2))) ∨
  (maxValue < counter + lookAheadWindow ∧ NoneIn P counter (counter + lookAheadWindow))

section

variable {generateHOTP : Int → Token} {token : Token} {bound a b c r : Int} {fuel : Nat}

theorem validateFrom_add {n : Nat} (h : validateFrom generateHOTP token bound fuel a = some r) :
    validateFrom generateHOTP token bound (fuel + n) a = some r := by
  induction fuel generalizing a with
  | zero => cases h
  | succ fuel ih =>
      rw [Nat.succ_add_eq_add_succ, Nat.add_succ]
      unfold validateFrom at h ⊢
      split_ifs at h ⊢
      · exact h
      · exact ih h
      · exact h

theorem validateFrom_unique {fuel' : Nat} {r' : Int}
    (h : validateFrom generateHOTP token bound fuel a = some r)
    (h' : validateFrom generateHOTP token bound fuel' a = some r') : r = r' := by
  have hboth := validateFrom_add (n := fuel') h
  rw [Nat.add_comm, validateFrom_add h'] at hboth
  exact (Option.some.inj hboth).symm

theorem validateFrom_skip (n : Nat) (hlow : minValue ≤ a) (hn : a + n ≤ maxValue)
    (hskip : ∀ x, a ≤ x → x < a + n → x ≤ bound ∧ generateHOTP x ≠ token) :
    validateFrom generateHOTP token bound (fuel + n) a =
      validateFrom generateHOTP token bound fuel (a + n) := by
  induction n generalizing a with
  | zero => simp
  | succ n ih =>
      obtain ⟨hle, hne⟩ := hskip a (by omega) (by omega)
      have hnext : wrap (a + 1) = a + 1 := wrap_eq ⟨by omega, by omega⟩
      rw [← Nat.add_assoc, validateFrom, if_pos hle, if_neg hne, hnext, ih (by omega)]
      · congr 1
        omega
      · omega
      · intro x hx hlt
        exact hskip x (by omega) (by omega)

theorem validateFrom_firstIn {high : Int} (hfirst : FirstIn (generateHOTP · = token) a high c)
    (hlow : minValue ≤ a) (hbound : high ≤ bound) (hc : c ≤ maxValue) {n : Nat}
    (hn : c - a < n) : validateFrom generateHOTP token bound n a = some (wrap (c + 1)) := by
  obtain ⟨k, hk⟩ := Int.eq_ofNat_of_zero_le (Int.sub_nonneg.mpr hfirst.low_le)
  obtain ⟨extra, rfl⟩ : ∃ extra, n = extra + 1 + k := ⟨n - 1 - k, by omega⟩
  have hhigh := hfirst.le_high
  rw [validateFrom_skip k hlow (by omega), show a + k = c by omega, validateFrom,
    if_pos (by omega), if_pos hfirst.holds]
  exact fun x hx hlt => ⟨by omega, hfirst.first x hx (by omega)⟩

theorem validateFrom_noneIn (hnone : NoneIn (generateHOTP · = token) a bound)
    (hlow : minValue ≤ a) (hbound : bound < maxValue) {n : Nat} (hn : 0 < n)
    (hlong : bound + 1 - a < n) : validateFrom generateHOTP token bound n a = some (-1) := by
  by_cases hempty : bound < a
  · obtain ⟨extra, rfl⟩ : ∃ extra, n = extra + 1 := ⟨n - 1, by omega⟩
    rw [validateFrom, if_neg (by omega)]
  · obtain ⟨k, hk⟩ := Int.eq_ofNat_of_zero_le (show 0 ≤ bound + 1 - a by omega)
    obtain ⟨extra, rfl⟩ : ∃ extra, n = extra + 1 + k := ⟨n - 1 - k, by omega⟩
    rw [validateFrom_skip k hlow (by omega), validateFrom, if_neg (by omega)]
    exact fun x hx hlt => ⟨by omega, hnone x hx (by omega)⟩

theorem validateFrom_turn (hnone : NoneIn (generateHOTP · = token) a maxValue)
    (hrange : InRange a) {n : Nat} (hn : n = maxValue + 1 - a) :
    validateFrom generateHOTP token maxValue (fuel + n) a =
      validateFrom generateHOTP token maxValue fuel minValue := by
  obtain ⟨hlow, hhigh⟩ := hrange
  obtain ⟨k, rfl⟩ : ∃ k, n = 1 + k := ⟨n - 1, by omega⟩
  have hlast : a + k = maxValue := by omega
  rw [← Nat.add_assoc, validateFrom_skip k hlow (by omega), hlast, validateFrom, if_pos le_rfl,
    if_neg (hnone maxValue hhigh le_rfl), wrap_maxValue_add_one]
  exact fun x hx hlt => ⟨by omega, hnone x hx (by omega)⟩

theorem validateFrom_forever (hnone : NoneIn (generateHOTP · = token) minValue maxValue)
    (hrange : InRange a) : validateFrom generateHOTP token maxValue fuel a = none := by
  induction fuel generalizing a with
  | zero => rfl
  | succ fuel ih =>
      rw [validateFrom, if_pos hrange.2, if_neg (hnone a hrange.1 hrange.2)]
      exact ih (wrap_inRange (a + 1))

end

section

variable {generateHOTP : Int → Token} {token : Token} {lookAheadWindow counter : Int} {fuel : Nat}

theorem validateHOTP_unique {fuel' : Nat} {r r' : Int}
    (h : validateHOTP generateHOTP token fuel lookAheadWindow counter = some r)
    (h' : validateHOTP generateHOTP token fuel' lookAheadWindow counter = some r') : r = r' :=
  validateFrom_unique h h'

variable (hcounter : InRange counter) (hwindow : 0 ≤ lookAheadWindow ∧ lookAheadWindow ≤ maxValue)
  (hfuel : 2 ^ 32 < fuel)

include hcounter hwindow hfuel

theorem validateHOTP_inside (hinside : counter + lookAheadWindow < maxValue) :
    ∃ r, validateHOTP generateHOTP token fuel lookAheadWindow counter = some r ∧
      InRange r ∧ Expected (generateHOTP · = token) lookAheadWindow counter r := by
  have hrange := inRange_iff.mp hcounter
  unfold maxValue at hinside
  have hsum : InRange (counter + lookAheadWindow) := inRange_iff.mpr ⟨by omega, by omega⟩
  unfold validateHOTP
  rw [wrap_eq hsum]
  rcases firstIn_or_noneIn (generateHOTP · = token) counter (counter + lookAheadWindow) with
    ⟨c, hfirst⟩ | hnone
  · have hc := hfirst.le_high
    have hlow := hfirst.low_le
    have hnext : InRange (c + 1) := inRange_iff.mpr ⟨by omega, by omega⟩
    refine ⟨c + 1, ?_, hnext, .inl ⟨c, hfirst, rfl⟩⟩
    rw [validateFrom_firstIn hfirst hcounter.1 le_rfl (by unfold maxValue; omega) (by omega),
      wrap_eq hnext]
  · refine ⟨-1, ?_, by decide, .inr ⟨hnone, rfl⟩⟩
    exact validateFrom_noneIn hnone hcounter.1 (by unfold maxValue; omega) (by omega) (by omega)

theorem validateHOTP_beyond (hbeyond : maxValue < counter + lookAheadWindow) :
    validateHOTP generateHOTP token fuel lookAheadWindow counter = some (-1) := by
  have hrange := inRange_iff.mp hcounter
  have hsum := wrap_of_maxValue_lt hbeyond (by unfold maxValue at *; omega)
  unfold validateHOTP
  unfold maxValue at hwindow
  obtain ⟨extra, rfl⟩ : ∃ extra, fuel = extra + 1 := ⟨fuel - 1, by omega⟩
  rw [validateFrom, if_neg (by omega)]

theorem validateHOTP_last {c : Int} (hend : counter + lookAheadWindow = maxValue)
    (hfirst : FirstIn (generateHOTP · = token) counter maxValue c) :
    validateHOTP generateHOTP token fuel lookAheadWindow counter = some (wrap (c + 1)) := by
  have hrange := inRange_iff.mp hcounter
  have hc := hfirst.le_high
  unfold validateHOTP
  rw [hend, wrap_eq (show InRange maxValue by decide)]
  refine validateFrom_firstIn hfirst hcounter.1 le_rfl hc ?_
  unfold maxValue at hc
  omega

theorem validateHOTP_round {c : Int} (hend : counter + lookAheadWindow = maxValue)
    (hnone : NoneIn (generateHOTP · = token) counter maxValue)
    (hfirst : FirstIn (generateHOTP · = token) minValue maxValue c) :
    c < counter ∧
      validateHOTP generateHOTP token fuel lookAheadWindow counter = some (c + 1) := by
  have hrange := inRange_iff.mp hcounter
  have hlow := hfirst.low_le
  have hlt : c < counter := by
    by_contra hle
    exact hnone c (by omega) hfirst.le_high hfirst.holds
  have hnext : InRange (c + 1) := by
    unfold minValue at hlow
    exact inRange_iff.mpr ⟨by omega, by omega⟩
  have hleft : 0 ≤ maxValue + 1 - counter := by
    unfold maxValue
    omega
  obtain ⟨n, hn⟩ := Int.eq_ofNat_of_zero_le hleft
  have hturn : n + (c - minValue) < 2 ^ 32 := by
    rw [← hn]
    unfold maxValue minValue
    omega
  obtain ⟨extra, rfl⟩ : ∃ extra, fuel = extra + n := by
    refine ⟨fuel - n, ?_⟩
    omega
  refine ⟨hlt, ?_⟩
  unfold validateHOTP
  rw [hend, wrap_eq (show InRange maxValue by decide), validateFrom_turn hnone hcounter hn.symm,
    validateFrom_firstIn hfirst le_rfl le_rfl hfirst.le_high (by omega), wrap_eq hnext]

omit hwindow hfuel in
theorem validateHOTP_forever (hend : counter + lookAheadWindow = maxValue)
    (hnone : NoneIn (generateHOTP · = token) minValue maxValue) :
    validateHOTP generateHOTP token fuel lookAheadWindow counter = none := by
  unfold validateHOTP
  rw [hend, wrap_eq (show InRange maxValue by decide)]
  exact validateFrom_forever hnone hcounter

theorem validateHOTP_of_safe (h : Safe (generateHOTP · = token) lookAheadWindow counter) :
    ∃ r, validateHOTP generateHOTP token fuel lookAheadWindow counter = some r ∧
      InRange r ∧ Expected (generateHOTP · = token) lookAheadWindow counter r := by
  rcases h with hinside | ⟨hend, ⟨c, hfirst⟩ | ⟨hnone, hround⟩⟩ | ⟨hbeyond, hnone⟩
  · exact validateHOTP_inside hcounter hwindow hfuel hinside
  · have hc := hfirst.le_high
    have hnext : InRange (c + 1) := ⟨by have := hcounter.1; have := hfirst.low_le; omega, by omega⟩
    have hfirst' : FirstIn (generateHOTP · = token) counter maxValue c :=
      ⟨hfirst.low_le, by omega, hfirst.holds, hfirst.first⟩
    have hresult := validateHOTP_last hcounter hwindow hfuel hend hfirst'
    rw [wrap_eq hnext] at hresult
    exact ⟨c + 1, hresult, hnext, .inl ⟨c, hend ▸ hfirst', rfl⟩⟩
  · obtain ⟨-, hresult⟩ := validateHOTP_round hcounter hwindow hfuel hend hnone hround
    exact ⟨-2 + 1, hresult, by decide, .inr ⟨hend ▸ hnone, by decide⟩⟩
  · exact ⟨-1, validateHOTP_beyond hcounter hwindow hfuel hbeyond, by decide, .inr ⟨hnone, rfl⟩⟩

omit hfuel in
theorem safe_of_expected {r : Int}
    (h : validateHOTP generateHOTP token fuel lookAheadWindow counter = some r)
    (hexpected : Expected (generateHOTP · = token) lookAheadWindow counter r) :
    Safe (generateHOTP · = token) lookAheadWindow counter := by
  have hfuel : 2 ^ 32 < 2 ^ 32 + 1 := Nat.lt_succ_self _
  have hrange := inRange_iff.mp hcounter
  rcases lt_trichotomy (counter + lookAheadWindow) maxValue with hinside | hend | hbeyond
  · exact .inl hinside
  · refine .inr (.inl ⟨hend, ?_⟩)
    unfold Expected at hexpected
    rw [hend] at hexpected
    rcases firstIn_or_noneIn (generateHOTP · = token) counter maxValue with ⟨c, hfirst⟩ | hnone
    · by_cases hlast : c = maxValue
      · -- the counter behind the last one is the smallest
        have hresult := validateHOTP_unique h (validateHOTP_last hcounter hwindow hfuel hend hfirst)
        rw [hlast, wrap_maxValue_add_one] at hresult
        rcases hexpected with ⟨c', hfirst', hr⟩ | ⟨hnone, -⟩
        · have hlow := hfirst'.low_le
          unfold minValue at hresult
          omega
        · exact absurd hnone hfirst.not_noneIn
      · have hc := hfirst.le_high
        exact .inl ⟨c, hfirst.low_le, by omega, hfirst.holds, hfirst.first⟩
    · rcases hexpected with ⟨c', hfirst', -⟩ | ⟨-, hr⟩
      · exact absurd hnone hfirst'.not_noneIn
      · rcases firstIn_or_noneIn (generateHOTP · = token) minValue maxValue with
          ⟨c, hround⟩ | hnever
        · obtain ⟨-, hresult⟩ := validateHOTP_round hcounter hwindow hfuel hend hnone hround
          have hc := validateHOTP_unique h hresult
          obtain rfl : c = -2 := by omega
          exact .inr ⟨hnone, hround⟩
        · rw [validateHOTP_forever hcounter hend hnever] at h
          cases h
  · refine .inr (.inr ⟨hbeyond, ?_⟩)
    have hresult := validateHOTP_unique h (validateHOTP_beyond hcounter hwindow hfuel hbeyond)
    rcases hexpected with ⟨c, hfirst, hr⟩ | ⟨hnone, -⟩
    · have hlow := hfirst.low_le
      omega
    · exact hnone

end

/-! ## Runs -/

section

variable (generateHOTP : HmacOTP → String → Int → Token)

def CredsSafe (validator : HmacOTP) (token : Token) : List CredentialModel → Prop
  | [] => True
  | cred :: rest =>
      let P := (generateHOTP validator cred.value · = token)
      Safe P validator.lookAheadWindow cred.counter ∧
        ((∀ c, FirstIn P cred.counter (cred.counter + validator.lookAheadWindow) c → c < -1) →
          CredsSafe validator token rest)

def CallSafe (store : Store) (call : Call Token) : Prop :=
  ∀ token, call.input = some token → call.policy.type = .hotp →
    CredsSafe generateHOTP call.policy.validator token store.creds

end

def HmacOTP.WellFormed (validator : HmacOTP) : Prop :=
  0 ≤ validator.lookAheadWindow ∧ validator.lookAheadWindow ≤ maxValue

structure CredsWellFormed (creds : List CredentialModel) : Prop where
  ids : (creds.map (·.id)).Nodup
  counters : ∀ cred ∈ creds, InRange cred.counter

structure Store.Consistent (store : Store) : Prop where
  creds : CredsWellFormed store.creds
  increasing : ∀ a ∈ store.accepted, a.before < a.after
  ordered : store.accepted.Pairwise fun a b => a.id = b.id → a.after ≤ b.before
  stored : ∀ a ∈ store.accepted, ∀ cred ∈ store.creds, cred.id = a.id → a.after ≤ cred.counter

section

variable {generateHOTP : HmacOTP → String → Int → Token} {validTOTP : OTPPolicy → Token → Bool}
  {fuel : Nat}

theorem findValid_of_safe (hfuel : 2 ^ 32 < fuel) {validator : HmacOTP}
    (hvalidator : validator.WellFormed) {token : Token} {creds : List CredentialModel}
    (hcreds : ∀ cred ∈ creds, InRange cred.counter)
    (h : CredsSafe generateHOTP validator token creds) :
    ∃ found, findValid generateHOTP fuel validator token creds = some found ∧
      ∀ cred counter, found = some (cred, counter) →
        cred ∈ creds ∧ cred.counter < counter ∧ InRange counter := by
  induction creds with
  | nil => exact ⟨none, rfl, fun _ _ h => nomatch h⟩
  | cons cred rest ih =>
      obtain ⟨hsafe, hrest⟩ := h
      obtain ⟨hcred, hothers⟩ := List.forall_mem_cons.mp hcreds
      obtain ⟨r, hresult, hrange, hexpected⟩ := validateHOTP_of_safe hcred hvalidator hfuel hsafe
      rw [findValid, hresult]
      dsimp only [bind, Option.bind]
      split_ifs with hnegative
      · have hlater : ∀ c, FirstIn (generateHOTP validator cred.value · = token) cred.counter
            (cred.counter + validator.lookAheadWindow) c → c < -1 := by
          intro c hfirst
          rcases hexpected with ⟨c', hfirst', rfl⟩ | ⟨hnone, -⟩
          · have heq := hfirst.unique hfirst'
            omega
          · exact absurd hnone hfirst.not_noneIn
        obtain ⟨found, hfound, hspec⟩ := ih hothers (hrest hlater)
        refine ⟨found, hfound, fun cred' counter heq => ?_⟩
        obtain ⟨hmem, hcounter⟩ := hspec cred' counter heq
        exact ⟨List.mem_cons_of_mem _ hmem, hcounter⟩
      · refine ⟨some (cred, r), rfl, ?_⟩
        rintro _ _ ⟨⟩
        rcases hexpected with ⟨c, hfirst, rfl⟩ | ⟨-, rfl⟩
        · have hlow := hfirst.low_le
          exact ⟨List.mem_cons_self, by omega, hrange⟩
        · omega

theorem mem_updateCredential {creds : List CredentialModel} {id : String} {counter : Int}
    {cred : CredentialModel} (h : cred ∈ updateCredential creds id counter) :
    (cred.id = id ∧ cred.counter = counter) ∨ cred ∈ creds ∧ cred.id ≠ id := by
  obtain ⟨old, hold, rfl⟩ := List.mem_map.mp h
  split_ifs with hid
  · exact .inl ⟨hid, rfl⟩
  · exact .inr ⟨hold, hid⟩

theorem ids_updateCredential (creds : List CredentialModel) (id : String) (counter : Int) :
    (updateCredential creds id counter).map (·.id) = creds.map (·.id) := by
  rw [updateCredential, List.map_map]
  refine List.map_congr_left fun cred _ => ?_
  dsimp only [Function.comp]
  split_ifs <;> rfl

theorem Store.Consistent.update {store : Store} (h : store.Consistent) {cred : CredentialModel}
    {counter : Int} (hcred : cred ∈ store.creds) (hlt : cred.counter < counter)
    (hrange : InRange counter) :
    Store.Consistent ⟨updateCredential store.creds cred.id counter,
      store.accepted ++ [⟨cred.id, cred.counter, counter⟩]⟩ where
  creds := by
    refine ⟨?_, fun cred' hmem => ?_⟩
    · rw [ids_updateCredential]
      exact h.creds.ids
    · rcases mem_updateCredential hmem with ⟨-, heq⟩ | ⟨hold, -⟩
      · rw [heq]
        exact hrange
      · exact h.creds.counters cred' hold
  increasing a ha := by
    rcases List.mem_append.mp ha with hold | hnew
    · exact h.increasing a hold
    · rw [List.mem_singleton.mp hnew]
      exact hlt
  ordered := by
    refine List.pairwise_append.mpr
      ⟨h.ordered, List.pairwise_singleton _ _, fun a ha b hb hid => ?_⟩
    rw [List.mem_singleton.mp hb] at hid ⊢
    exact h.stored a ha cred hcred hid.symm
  stored a ha cred' hmem hid := by
    rcases mem_updateCredential hmem with ⟨hself, heq⟩ | ⟨hold, hother⟩
    · rw [heq]
      rcases List.mem_append.mp ha with hbefore | hnew
      · have hle := h.stored a hbefore cred hcred (hself ▸ hid)
        omega
      · rw [List.mem_singleton.mp hnew]
    · rcases List.mem_append.mp ha with hbefore | hnew
      · exact h.stored a hbefore cred' hold hid
      · rw [List.mem_singleton.mp hnew] at hid
        exact absurd hid hother

theorem step_of_safe (hfuel : 2 ^ 32 < fuel) {store : Store} {call : Call Token}
    (hstore : store.Consistent)
    (h : CallSafe generateHOTP store call ∧ call.policy.validator.WellFormed) :
    ∃ store', step generateHOTP validTOTP fuel store call = some store' ∧ store'.Consistent := by
  obtain ⟨hsafe, hvalidator⟩ := h
  unfold step isValid
  cases hinput : call.input with
  | none => exact ⟨store, rfl, hstore⟩
  | some token =>
      cases htype : call.policy.type with
      | totp => exact ⟨store, rfl, hstore⟩
      | hotp =>
          obtain ⟨found, hfound, hspec⟩ := findValid_of_safe hfuel hvalidator
            hstore.creds.counters (hsafe token hinput htype)
          dsimp only
          rw [hfound]
          cases found with
          | none => exact ⟨store, rfl, hstore⟩
          | some result =>
              obtain ⟨cred, counter⟩ := result
              obtain ⟨hmem, hlt, hrange⟩ := hspec cred counter rfl
              exact ⟨_, rfl, hstore.update hmem hlt hrange⟩

/-- The counters of a credential that are accepted are in order, so they are different. -/
theorem Store.Consistent.positions_nodup {store : Store} (h : store.Consistent) :
    (store.accepted.map fun a => (a.id, a.after - 1)).Nodup := by
  refine List.pairwise_map.mpr (h.ordered.imp_of_mem fun ha hb hle heq => ?_)
  obtain ⟨hid, hposition⟩ := Prod.mk.inj heq
  have hbefore := hle hid
  have hlt := h.increasing _ hb
  omega

end

/-- A validation gives the expected result exactly for a safe window, and when the calls of a run
meet safe windows only, every accepted token makes its counter larger and no counter is accepted
twice. -/
theorem validateHOTP_expected_iff :
    (∀ (generateHOTP : Int → Token) (token : Token) (lookAheadWindow counter : Int),
      InRange counter → 0 ≤ lookAheadWindow → lookAheadWindow ≤ maxValue →
      ((∃ fuel r, validateHOTP generateHOTP token fuel lookAheadWindow counter = some r ∧
          Expected (generateHOTP · = token) lookAheadWindow counter r) ↔
        Safe (generateHOTP · = token) lookAheadWindow counter)) ∧
    (∀ (generateHOTP : HmacOTP → String → Int → Token) (validTOTP : OTPPolicy → Token → Bool)
      (fuel : Nat) (creds : List CredentialModel) (calls : List (Call Token)),
      2 ^ 32 < fuel → CredsWellFormed creds →
      (∀ call ∈ calls, call.policy.validator.WellFormed) →
      Machine.Meets (step generateHOTP validTOTP fuel) (CallSafe generateHOTP) ⟨creds, []⟩ calls →
      ∃ store, Machine.run (step generateHOTP validTOTP fuel) ⟨creds, []⟩ calls = some store ∧
        (∀ a ∈ store.accepted, a.before < a.after) ∧
        (store.accepted.map fun a => (a.id, a.after - 1)).Nodup) := by
  constructor
  · intro generateHOTP token lookAheadWindow counter hcounter hwindow hmax
    constructor
    · rintro ⟨fuel, r, hresult, hexpected⟩
      exact safe_of_expected hcounter ⟨hwindow, hmax⟩ hresult hexpected
    · intro hsafe
      obtain ⟨r, hresult, -, hexpected⟩ :=
        validateHOTP_of_safe hcounter ⟨hwindow, hmax⟩ (Nat.lt_succ_self _) hsafe
      exact ⟨_, r, hresult, hexpected⟩
  · intro generateHOTP validTOTP fuel creds calls hfuel hcreds hcalls hmeets
    have hstart : Store.Consistent ⟨creds, []⟩ :=
      ⟨hcreds, fun _ ha => (nomatch ha), .nil, fun _ ha => (nomatch ha)⟩
    obtain ⟨store, hrun, hstore⟩ := Machine.exists_run
      (fun _ _ hinv hok => step_of_safe hfuel hinv hok) hstart
      (hmeets.and (Machine.Meets.of_forall hcalls _))
    exact ⟨store, hrun, hstore.increasing, hstore.positions_nodup⟩

/-- A credential with the counter 5 that accepts the token of the counter 7. -/
theorem validateHOTP_expected_iff_of_seven :
    (∃ fuel r, validateHOTP (fun c => c) (7 : Int) fuel 10 5 = some r ∧
      Expected (fun c => c = 7) 10 5 r) ∧
    ∃ store, Machine.run (step (fun _ _ c => c) (fun _ _ => false) (2 ^ 32 + 1))
        ⟨[⟨"otp", "secret", 5⟩], []⟩ [⟨⟨.hotp, ⟨6, "HmacSHA1", 10⟩⟩, some (7 : Int)⟩] = some store ∧
      (∀ a ∈ store.accepted, a.before < a.after) ∧
      (store.accepted.map fun a => (a.id, a.after - 1)).Nodup := by
  have hsafe : Safe (fun c => c = 7) 10 5 := .inl (by decide)
  refine ⟨(validateHOTP_expected_iff.1 (fun c => c) (7 : Int) 10 5 (by decide) (by decide)
    (by decide)).mpr hsafe, ?_⟩
  refine validateHOTP_expected_iff.2 _ _ _ _ _ (Nat.lt_succ_self _) ⟨by decide, by decide⟩
    (fun call hcall => ?_) ⟨fun token htoken _ => ?_, fun _ _ => trivial⟩
  · rw [List.mem_singleton.mp hcall]
    exact ⟨by decide, by decide⟩
  · cases htoken
    exact ⟨hsafe, fun _ => trivial⟩

/-- Behind the largest counter the loop comes to the token of a counter that is long used. -/
theorem validateHOTP_comes_round :
    validateHOTP (fun c => c) (5 : Int) (2 ^ 32 + 1) 0 maxValue = some 6 ∧
      ¬ Expected (fun c => c = 5) 0 maxValue 6 := by
  have hnone : NoneIn (fun c : Int => c = 5) maxValue maxValue := by
    intro x hlow _ hx
    unfold maxValue at hlow
    omega
  have hround : FirstIn (fun c : Int => c = 5) minValue maxValue 5 :=
    ⟨by decide, by decide, rfl, fun x _ hlt hx => absurd hx (Int.ne_of_lt hlt)⟩
  refine ⟨(validateHOTP_round (by decide) (by decide) (Nat.lt_succ_self _) (by decide) hnone
    hround).2, ?_⟩
  rintro (⟨c, hfirst, hc⟩ | ⟨-, hr⟩)
  · have hholds : c = 5 := hfirst.holds
    have hlow := hfirst.low_le
    unfold maxValue at hlow
    omega
  · omega

end Keycloak.OTP
