import Keycloak.Lib.Machine
import Mathlib.Data.List.Forall2
import Mathlib.Data.List.Perm.Basic
import Mathlib.Data.List.Nodup
import Mathlib.Data.List.Sort

/-!
# Password history

The passwords that a user has had are kept as credentials, the one in force and those that the
history policy looks at.  An update validates against them, lets the password in force expire
and stores the new one; a login may store the password in force again under another hash.
Credentials come from the store in any order, and the user cache keeps those it has read.
-/

namespace Keycloak.Authentication.PasswordHistory

/-- What the providers use of the JDK; `encodedCredential` has none where it throws. -/
structure Jdk (Password Salt Value : Type) where
  encodedCredential : (pbkdf2Algorithm : String) → Password → (iterations : Int) → Salt →
    (derivedKeySize : Nat) → Option Value
  keySize : Value → Nat
  keySize_eq : ∀ {pbkdf2Algorithm rawPassword iterations salt derivedKeySize value},
    8 ∣ derivedKeySize →
    encodedCredential pbkdf2Algorithm rawPassword iterations salt derivedKeySize = some value →
    keySize value = derivedKeySize

structure HashProvider where
  providerId : String
  pbkdf2Algorithm : String
  defaultIterations : Int
  derivedKeySize : Nat
  bytes : 8 ∣ derivedKeySize

structure Providers where
  get : String → Option HashProvider
  get_providerId : ∀ {id hash}, get id = some hash → hash.providerId = id

structure Hashed (Salt Value : Type) where
  algorithm : String
  salt : Salt
  hashIterations : Int
  value : Value
  deriving DecidableEq

inductive CredentialType where
  | password
  | passwordHistory
  deriving DecidableEq

structure Credential (Salt Value : Type) extends Hashed Salt Value where
  id : Nat
  type : CredentialType
  createdDate : Option Int
  deriving DecidableEq

structure PolicyError where
  message : String
  parameters : List Int
  deriving DecidableEq

inductive Thrown where
  | model (error : PolicyError)
  | runtime
  deriving DecidableEq

/-- An entry of a password policy; `validate` is what another provider says of a password. -/
inductive Policy (Password : Type) where
  | hashAlgorithm (value : String)
  | hashIterations (value : Int)
  | passwordHistory (value : Int)
  | other (validate : Password → Option PolicyError)

abbrev PasswordPolicy (Password : Type) := List (Policy Password)

section

variable {Password Salt Value : Type}

def getHashAlgorithm (policy : PasswordPolicy Password) : String :=
  (policy.findSome? fun
    | .hashAlgorithm value => some value
    | _ => none).getD "pbkdf2-sha256"

def getHashIterations (policy : PasswordPolicy Password) : Int :=
  (policy.findSome? fun
    | .hashIterations value => some value
    | _ => none).getD (-1)

def getExpiredPasswords (policy : PasswordPolicy Password) : Int :=
  (policy.findSome? fun
    | .passwordHistory value => some value
    | _ => none).getD (-1)

/-- The credentials of one user, those that the user cache holds, and the policy of the realm.
`active` and `accepted` are ghosts: the password in force, and all passwords that updates
accepted, newest first. -/
structure State (Password Salt Value : Type) where
  policy : PasswordPolicy Password
  rows : List (Credential Salt Value)
  cached : Option (List (Credential Salt Value))
  nextId : Nat
  active : Option Password
  accepted : List Password

def initial (policy : PasswordPolicy Password) : State Password Salt Value :=
  ⟨policy, [], none, 0, none, []⟩

/-! ## Hashing -/

section

variable (jdk : Jdk Password Salt Value)

def HashProvider.encode (hash : HashProvider) (rawPassword : Password) (iterations : Int)
    (salt : Salt) : Except Thrown (Hashed Salt Value) :=
  let iterations := if iterations = -1 then hash.defaultIterations else iterations
  match jdk.encodedCredential hash.pbkdf2Algorithm rawPassword iterations salt
      hash.derivedKeySize with
  | some value => .ok ⟨hash.providerId, salt, iterations, value⟩
  | none => .error .runtime

def HashProvider.policyCheck (hash : HashProvider) (policy : PasswordPolicy Password)
    (credential : Hashed Salt Value) : Bool :=
  let iterations := getHashIterations policy
  let policyHashIterations := if iterations = -1 then hash.defaultIterations else iterations
  credential.hashIterations = policyHashIterations ∧ hash.providerId = credential.algorithm ∧
    hash.derivedKeySize = jdk.keySize credential.value

variable [DecidableEq Value]

def HashProvider.verify (hash : HashProvider) (rawPassword : Password)
    (credential : Hashed Salt Value) : Except Thrown Bool :=
  match jdk.encodedCredential hash.pbkdf2Algorithm rawPassword credential.hashIterations
      credential.salt (jdk.keySize credential.value) with
  | some value => .ok (value = credential.value)
  | none => .error .runtime

end

/-! ## The store of credentials -/

namespace State

variable (s : State Password Salt Value)

def getStoredCredentialsByType (type : CredentialType) : List (Credential Salt Value) :=
  s.rows.filter (·.type = type)

def removeStoredCredential (id : Nat) : State Password Salt Value :=
  { s with rows := s.rows.filter (·.id ≠ id) }

def updateStoredCredential (credential : Credential Salt Value) : State Password Salt Value :=
  { s with rows := s.rows.map fun row => if row.id = credential.id then credential else row }

def createCredential (credential : Credential Salt Value) : State Password Salt Value :=
  { s with rows := s.rows ++ [{ credential with id := s.nextId }], nextId := s.nextId + 1 }

def evict : State Password Salt Value := { s with cached := none }

end State

/-! ## `PasswordCredentialProvider` -/

section

variable (s : State Password Salt Value)

def getPassword : Option (Credential Salt Value) :=
  match s.cached with
  | some passwords => passwords.head?
  | none => (s.getStoredCredentialsByType .password).head?

/-- The date by which the history is sorted, `Long.MIN_VALUE` for none. -/
def dateOf (credential : Credential Salt Value) : Int :=
  credential.createdDate.getD (-9223372036854775808)

def sortedByDate (list : List (Credential Salt Value)) : List (Credential Salt Value) :=
  list.mergeSort fun o₁ o₂ => dateOf o₂ ≤ dateOf o₁

/-- `oldPassword.setType`: the object is the one that the cache holds. -/
def setCachedType (type : CredentialType) : State Password Salt Value :=
  { s with cached := s.cached.map fun
      | oldPassword :: rest => { oldPassword with type } :: rest
      | [] => [] }

def expirePassword : State Password Salt Value :=
  match getPassword s with
  | none => s
  | some oldPassword =>
      let expiredPasswordsPolicyValue := getExpiredPasswords s.policy
      if 1 < expiredPasswordsPolicyValue then
        let list := s.getStoredCredentialsByType .passwordHistory
        let passwordsToLeave := (expiredPasswordsPolicyValue - 2).toNat
        let left := if passwordsToLeave < list.length then
            ((sortedByDate list).drop passwordsToLeave).foldl
              (fun s p => s.removeStoredCredential p.id) s
          else s
        (setCachedType left .passwordHistory).updateStoredCredential
          { oldPassword with type := .passwordHistory }
      else s.removeStoredCredential oldPassword.id

variable (providers : Providers)

def getHashProvider (policy : PasswordPolicy Password) : Option HashProvider :=
  match providers.get (getHashAlgorithm policy) with
  | some hash => some hash
  | none => providers.get "pbkdf2-sha256"

variable (jdk : Jdk Password Salt Value) [DecidableEq Value]

/-- A loop of the history policy: whether a credential has the password.  A credential without
a provider is passed over in the first loop, and throws in the second. -/
def anyVerifies (passOver : Bool) (password : Password) :
    List (Credential Salt Value) → Except Thrown Bool
  | [] => .ok false
  | cred :: rest =>
      match providers.get cred.algorithm with
      | none => if passOver then anyVerifies passOver password rest else .error .runtime
      | some hash =>
          match hash.verify jdk password cred.toHashed with
          | .error thrown => .error thrown
          | .ok true => .ok true
          | .ok false => anyVerifies passOver password rest

/-- `HistoryPasswordPolicyProvider.validate`. -/
def validateHistory (password : Password) : Except Thrown (Option PolicyError) :=
  let passwordHistoryPolicyValue := getExpiredPasswords s.policy
  if passwordHistoryPolicyValue = -1 then .ok none
  else
    match anyVerifies providers jdk true password (s.getStoredCredentialsByType .password) with
    | .error thrown => .error thrown
    | .ok true => .ok (some ⟨"invalidPasswordHistoryMessage", [passwordHistoryPolicyValue]⟩)
    | .ok false =>
        match anyVerifies providers jdk false password
            (s.getStoredCredentialsByType .passwordHistory) with
        | .error thrown => .error thrown
        | .ok true => .ok (some ⟨"invalidPasswordHistoryMessage", [passwordHistoryPolicyValue]⟩)
        | .ok false => .ok none

/-- `DefaultPasswordPolicyManagerProvider.validate`; hashing has nothing to say of a
password. -/
def validate (password : Password) : PasswordPolicy Password → Except Thrown (Option PolicyError)
  | [] => .ok none
  | policy :: rest =>
      let policyError := match policy with
        | .passwordHistory _ => validateHistory s providers jdk password
        | .other validate => .ok (validate password)
        | .hashAlgorithm _ | .hashIterations _ => .ok none
      match policyError with
      | .ok none => validate password rest
      | result => result

/-- The answer and the state after it.  When a request throws its changes to the store are rolled
back, not those to an object of the cache. -/
def updateCredential (password : Password) (now : Int) (salt : Salt) :
    Except Thrown Bool × State Password Salt Value :=
  match validate s providers jdk password s.policy with
  | .error thrown => (.error thrown, s)
  | .ok (some error) => (.error (.model error), s)
  | .ok none =>
      match getHashProvider providers s.policy with
      | none => (.ok false, s)
      | some hash =>
          let expired := expirePassword s
          match hash.encode jdk password (getHashIterations s.policy) salt with
          | .error thrown => (.error thrown, { s with cached := expired.cached })
          | .ok hashed =>
              let stored := (expired.createCredential
                { hashed with id := 0, type := .password, createdDate := some now }).evict
              (.ok true,
                { stored with active := some password, accepted := password :: s.accepted })

def disableCredentialType : State Password Salt Value :=
  { expirePassword s with active := none }

/-- The answer, and the credential that is stored where the policy asks for another hash. -/
def isValid (password : Password) (salt : Salt) :
    Except Thrown (Bool × Option (Credential Salt Value)) :=
  match getPassword s with
  | none => .ok (false, none)
  | some credential =>
      match providers.get credential.algorithm with
      | none => .ok (false, none)
      | some hash =>
          match hash.verify jdk password credential.toHashed with
          | .error thrown => .error thrown
          | .ok false => .ok (false, none)
          | .ok true =>
              match getHashProvider providers s.policy with
              | none => .ok (true, none)
              | some hash =>
                  if hash.policyCheck jdk s.policy credential.toHashed then .ok (true, none)
                  else
                    match hash.encode jdk password (getHashIterations s.policy) salt with
                    | .error thrown => .error thrown
                    | .ok hashed =>
                        .ok (true, some { credential with toHashed := hashed, type := .password })

end

/-! ## The system -/

/-- What happens to the user: the policy of the realm changes, a request, the cache reads or
drops the user, or the store comes to list the credentials in another order. -/
inductive Label (Password Salt Value : Type) where
  | setPasswordPolicy (policy : PasswordPolicy Password)
  | updateCredential (password : Password) (now : Int) (salt : Salt)
  | disableCredentialType
  | isValid (password : Password) (salt : Salt)
  | onCache
  | evict
  | reorder (rows : List (Credential Salt Value))

variable (providers : Providers) (jdk : Jdk Password Salt Value)
variable [DecidableEq Salt] [DecidableEq Value]

def step (s : State Password Salt Value) :
    Label Password Salt Value → Option (State Password Salt Value)
  | .setPasswordPolicy policy => some { s with policy }
  | .updateCredential password now salt =>
      some (updateCredential s providers jdk password now salt).2
  | .disableCredentialType => some (disableCredentialType s)
  | .isValid password salt =>
      match isValid s providers jdk password salt with
      | .ok (_, some newPassword) => some (s.updateStoredCredential newPassword).evict
      | _ => some s
  | .onCache => some { s with cached := some (s.getStoredCredentialsByType .password) }
  | .evict => some s.evict
  | .reorder rows => if rows.isPerm s.rows then some { s with rows } else none

end

/-! ## What is remembered -/

structure Vault (α : Type) where
  active : Option α
  history : List α

namespace Vault

variable {α β : Type} {v : Vault α} {value : Int}

def all (v : Vault α) : List α := v.active.toList ++ v.history

/-- The value in force becomes the newest of those before it, as far as the policy asks. -/
def expire (value : Int) (v : Vault α) : Vault α :=
  match v.active with
  | none => v
  | some a => if 1 < value then ⟨none, a :: v.history.take (value - 2).toNat⟩ else ⟨none, v.history⟩

def set (a : α) (v : Vault α) : Vault α := { v with active := some a }

@[simp] theorem all_set (a : α) (v : Vault α) : (v.set a).all = a :: v.history := rfl

theorem expire_none (h : v.active = none) : v.expire value = v := by
  rw [expire, h]

theorem expire_some {a : α} (h : v.active = some a) : v.expire value =
    if 1 < value then ⟨none, a :: v.history.take (value - 2).toNat⟩ else ⟨none, v.history⟩ := by
  rw [expire, h]

theorem expire_active (value : Int) (v : Vault α) : (v.expire value).active = none := by
  cases h : v.active with
  | none => rw [expire_none h, h]
  | some a =>
      rw [expire_some h]
      split <;> rfl

theorem expire_all (value : Int) (v : Vault α) :
    (v.expire value).all = (v.expire value).history := by
  rw [all, expire_active]
  rfl

theorem expire_history_sublist (value : Int) (v : Vault α) :
    (v.expire value).history.Sublist v.all := by
  cases h : v.active with
  | none =>
      rw [expire_none h]
      exact List.sublist_append_right ..
  | some a =>
      rw [expire_some h, all, h]
      split
      · exact (List.take_sublist _ _).cons_cons a
      · exact List.sublist_append_right ..

theorem length_expire {m : Nat} (hvalue : value ≤ m) (hv : v.history.length + 1 ≤ max 1 m) :
    (v.expire value).history.length + 1 ≤ max 1 m := by
  cases h : v.active with
  | none => rwa [expire_none h]
  | some a =>
      rw [expire_some h]
      split
      · rw [List.length_cons, List.length_take]
        omega
      · exact hv

theorem take_expire_set {accepted : List α} {k : Nat} (hk : 0 < k → (k : Int) ≤ value)
    (hv : accepted.take k <+: v.all) (a : α) :
    (a :: accepted).take k <+: ((v.expire value).set a).all := by
  cases k with
  | zero => exact List.nil_prefix
  | succ k =>
      have hvalue := hk (Nat.succ_pos k)
      have hshort : accepted.take k <+: v.all.take k :=
        List.prefix_take_iff.mpr ⟨(List.take_prefix_take_left (Nat.le_succ k)).trans hv,
          List.length_take_le ..⟩
      rw [List.take_succ_cons, all_set, List.prefix_cons_inj]
      cases h : v.active with
      | none =>
          rw [all, h] at hshort
          rw [expire_none h]
          exact hshort.trans (List.take_prefix ..)
      | some b =>
          rw [all, h] at hshort
          rw [expire_some h]
          split
          · -- one more than the policy leaves in the history
            have hlen : k ≤ (value - 2).toNat + 1 := by omega
            have htake : (b :: v.history).take k <+:
                (b :: v.history).take ((value - 2).toNat + 1) := List.take_prefix_take_left hlen
            exact hshort.trans htake
          · have hzero : k = 0 := by omega
            subst hzero
            exact List.nil_prefix

theorem take_expire {accepted : List α} {k : Nat} (hk : 0 < k → (k : Int) + 1 ≤ value)
    (hv : accepted.take k <+: v.all) : accepted.take k <+: (v.expire value).all := by
  rw [expire_all]
  cases k with
  | zero => exact List.nil_prefix
  | succ k =>
      have hvalue := hk (Nat.succ_pos k)
      cases h : v.active with
      | none =>
          rw [all, h] at hv
          rw [expire_none h]
          exact hv
      | some b =>
          rw [all, h] at hv
          rw [expire_some h, if_pos (by omega)]
          have hlen : k + 1 ≤ (value - 2).toNat + 1 := by omega
          have htake : (b :: v.history).take (k + 1) <+:
              (b :: v.history).take ((value - 2).toNat + 1) := List.take_prefix_take_left hlen
          exact (List.prefix_take_iff.mpr ⟨hv, List.length_take_le ..⟩).trans htake

structure Related (R : α → β → Prop) (v : Vault α) (w : Vault β) : Prop where
  active : List.Forall₂ R v.active.toList w.active.toList
  history : List.Forall₂ R v.history w.history

theorem Related.all {R : α → β → Prop} {w : Vault β} (h : Related R v w) :
    List.Forall₂ R v.all w.all :=
  List.rel_append h.active h.history

theorem Related.set {R : α → β → Prop} {w : Vault β} {a : α} {b : β} (h : Related R v w)
    (hab : R a b) : Related R (v.set a) (w.set b) :=
  ⟨.cons hab .nil, h.history⟩

theorem Related.expire {R : α → β → Prop} {w : Vault β} (h : Related R v w) (value : Int) :
    Related R (v.expire value) (w.expire value) := by
  have hactive := h.active
  cases hv : v.active with
  | none =>
      rw [hv] at hactive
      cases hw : w.active with
      | none => rwa [expire_none hv, expire_none hw]
      | some b =>
          rw [hw] at hactive
          cases hactive
  | some a =>
      rw [hv] at hactive
      cases hw : w.active with
      | none =>
          rw [hw] at hactive
          cases hactive
      | some b =>
          rw [hw] at hactive
          rw [expire_some hv, expire_some hw]
          have hab : R a b := (List.forall₂_cons.mp hactive).1
          split
          · exact ⟨.nil, .cons hab (List.forall₂_take _ h.history)⟩
          · exact ⟨.nil, h.history⟩

end Vault

/-! ## The stored credentials as a vault -/

section

variable {Password Salt Value : Type}

def retag (type : CredentialType) (credential : Credential Salt Value) : Credential Salt Value :=
  { credential with type }

variable {s t : State Password Salt Value} {v : Vault (Credential Salt Value)}
  {type type' : CredentialType} {c a : Credential Salt Value}

@[simp] theorem retag_id : (retag type c).id = c.id := rfl

@[simp] theorem retag_type : (retag type c).type = type := rfl

@[simp] theorem retag_retag : retag type (retag type' c) = retag type c := rfl

theorem retag_eq (h : retag type c = retag type a) (type' : CredentialType) :
    retag type' c = retag type' a := by
  rw [← retag_retag, h, retag_retag]

namespace Vault

def activeRows (v : Vault (Credential Salt Value)) : List (Credential Salt Value) :=
  v.active.toList.map (retag .password)

def historyRows (v : Vault (Credential Salt Value)) : List (Credential Salt Value) :=
  v.history.map (retag .passwordHistory)

theorem map_rows {β : Type} {f : Credential Salt Value → β}
    (hf : ∀ type c, f (retag type c) = f c) (v : Vault (Credential Salt Value)) :
    (v.activeRows ++ v.historyRows).map f = v.all.map f := by
  rw [activeRows, historyRows, all, List.map_append, List.map_append, List.map_map, List.map_map]
  have hcomp : ∀ type, f ∘ retag type = f := fun type => funext (hf type)
  rw [hcomp, hcomp]

theorem filter_activeRows (v : Vault (Credential Salt Value)) :
    (v.activeRows ++ v.historyRows).filter (·.type = .password) = v.activeRows := by
  rw [List.filter_append, activeRows, historyRows, List.filter_eq_self.mpr,
    List.filter_eq_nil_iff.mpr, List.append_nil]
  · simp
  · simp

theorem filter_historyRows (v : Vault (Credential Salt Value)) :
    (v.activeRows ++ v.historyRows).filter (·.type = .passwordHistory) = v.historyRows := by
  rw [List.filter_append, activeRows, historyRows, List.filter_eq_nil_iff.mpr,
    List.filter_eq_self.mpr, List.nil_append]
  · simp
  · simp

end Vault

/-- The rows are those of the vault, in some order; the ids are different, and later passwords
have later dates. -/
structure Arranged (s : State Password Salt Value) (v : Vault (Credential Salt Value)) : Prop where
  rows : s.rows.Perm (v.activeRows ++ v.historyRows)
  order : v.all.Pairwise fun newer older => dateOf older < dateOf newer
  ids : (v.all.map (·.id)).Nodup
  fresh : ∀ c ∈ v.all, c.id < s.nextId

def Cached (s : State Password Salt Value) (v : Vault (Credential Salt Value)) : Prop :=
  ∀ passwords ∈ s.cached, passwords.map (retag .password) = v.activeRows

theorem activeRows_eq_of_perm {l : List (Credential Salt Value)} (h : l.Perm v.activeRows) :
    l = v.activeRows := by
  rw [Vault.activeRows] at h ⊢
  cases hv : v.active with
  | none =>
      rw [hv] at h
      exact h.eq_nil
  | some a =>
      rw [hv] at h
      exact List.perm_singleton.mp h

theorem Arranged.stored_password (h : Arranged s v) :
    s.getStoredCredentialsByType .password = v.activeRows := by
  refine activeRows_eq_of_perm ?_
  rw [← v.filter_activeRows]
  exact h.rows.filter _

theorem Arranged.stored_history (h : Arranged s v) :
    (s.getStoredCredentialsByType .passwordHistory).Perm v.historyRows := by
  rw [← v.filter_historyRows]
  exact h.rows.filter _

/-- The password that the code works with is the one in force, whatever type the cache has it
under. -/
theorem getPassword_eq (h : Arranged s v) (hcached : Cached s v) :
    (getPassword s).map (retag .password) = v.active.map (retag .password) := by
  have hhead : ∀ passwords : List (Credential Salt Value),
      passwords.map (retag .password) = v.activeRows →
      passwords.head?.map (retag .password) = v.active.map (retag .password) := by
    intro passwords hpasswords
    rw [← List.head?_map, hpasswords, Vault.activeRows]
    cases v.active <;> rfl
  rw [getPassword]
  split
  · exact hhead _ (hcached _ ‹_›)
  · rw [h.stored_password]
    refine hhead _ ?_
    rw [Vault.activeRows, List.map_map]
    rfl

theorem getPassword_none (h : Arranged s v) (hcached : Cached s v) (hv : v.active = none) :
    getPassword s = none := by
  have heq := getPassword_eq h hcached
  rw [hv] at heq
  exact Option.map_eq_none_iff.mp heq

theorem getPassword_some (h : Arranged s v) (hcached : Cached s v) (hv : v.active = some a) :
    ∃ c, getPassword s = some c ∧ ∀ type, retag type c = retag type a := by
  have heq := getPassword_eq h hcached
  rw [hv] at heq
  obtain ⟨c, hc, hretag⟩ := Option.map_eq_some_iff.mp heq
  exact ⟨c, hc, retag_eq hretag⟩

/-! ## Letting the password in force expire -/

theorem Arranged.sorted_history (h : Arranged s v) :
    sortedByDate (s.getStoredCredentialsByType .passwordHistory) = v.historyRows := by
  have hperm : (sortedByDate (s.getStoredCredentialsByType .passwordHistory)).Perm
      v.historyRows := (List.mergeSort_perm ..).trans h.stored_history
  have hstrict : v.historyRows.Pairwise fun newer older => dateOf older < dateOf newer := by
    rw [Vault.historyRows, List.pairwise_map]
    exact h.order.sublist (List.sublist_append_right ..)
  have hsorted : (sortedByDate (s.getStoredCredentialsByType .passwordHistory)).Pairwise
      fun newer older => dateOf older ≤ dateOf newer := by
    refine (List.pairwise_mergeSort ?_ ?_ _).imp of_decide_eq_true
    · intro a b c hab hbc
      simp only [decide_eq_true_eq] at hab hbc ⊢
      exact hbc.trans hab
    · intro a b
      simp only [Bool.or_eq_true, decide_eq_true_eq]
      exact le_total _ _
  -- two credentials of one date are the same one
  have hdates : (v.historyRows.map dateOf).Nodup :=
    List.pairwise_map.mpr (hstrict.imp fun hlt => hlt.ne')
  exact hperm.eq_of_pairwise
    (fun a b ha hb hab hba =>
      List.inj_on_of_nodup_map hdates (hperm.mem_iff.mp ha) hb (le_antisymm hba hab))
    hsorted (hstrict.imp fun hlt => hlt.le)

theorem foldl_removeStoredCredential (list : List (Credential Salt Value))
    (s : State Password Salt Value) :
    list.foldl (fun s p => s.removeStoredCredential p.id) s =
      { s with rows := s.rows.filter fun row => row.id ∉ list.map (·.id) } := by
  induction list generalizing s with
  | nil => simp
  | cons p rest ih =>
      rw [List.foldl_cons, ih, State.removeStoredCredential, List.filter_filter]
      congr 1
      refine List.filter_congr fun row _ => ?_
      simp only [List.map_cons, List.mem_cons, not_or, Bool.decide_and, ne_eq, Bool.and_comm]

theorem filter_drop {l : List (Credential Salt Value)} (hids : (l.map (·.id)).Nodup) (k : Nat) :
    l.filter (fun row => row.id ∉ (l.drop k).map (·.id)) = l.take k := by
  have hsplit := List.take_append_drop k l
  rw [← hsplit, List.map_append, List.nodup_append] at hids
  conv_lhs => rw [← hsplit]
  rw [List.filter_append, List.filter_eq_self.mpr, List.filter_eq_nil_iff.mpr, List.append_nil]
  · intro row hrow
    simp only [hsplit, decide_eq_true_eq, not_not]
    exact List.mem_map_of_mem hrow
  · intro row hrow
    simp only [hsplit, decide_eq_true_eq]
    exact fun hmem => hids.2.2 _ (List.mem_map_of_mem hrow) _ hmem rfl

theorem Arranged.left_eq (h : Arranged s v) (passwordsToLeave : Nat) :
    (if passwordsToLeave < (s.getStoredCredentialsByType .passwordHistory).length then
        ((sortedByDate (s.getStoredCredentialsByType .passwordHistory)).drop
          passwordsToLeave).foldl (fun s p => s.removeStoredCredential p.id) s
      else s) =
    { s with rows := s.rows.filter fun row =>
        row.id ∉ (v.historyRows.drop passwordsToLeave).map (·.id) } := by
  split
  · rw [h.sorted_history, foldl_removeStoredCredential]
  · rename_i hshort
    have hlen : v.historyRows.length ≤ passwordsToLeave := by
      rw [← h.stored_history.length_eq]
      exact Nat.le_of_not_lt hshort
    rw [List.drop_eq_nil_of_le hlen]
    simp

theorem Arranged.cut (h : Arranged s v) (k : Nat) :
    (s.rows.filter fun row => row.id ∉ (v.historyRows.drop k).map (·.id)).Perm
      (v.activeRows ++ v.historyRows.take k) := by
  have hids : ((v.activeRows ++ v.historyRows).map (·.id)).Nodup := by
    rw [Vault.map_rows fun _ _ => rfl]
    exact h.ids
  rw [List.map_append, List.nodup_append] at hids
  refine (h.rows.filter _).trans (List.Perm.of_eq ?_)
  rw [List.filter_append, filter_drop hids.2.1, List.filter_eq_self.mpr]
  intro row hrow
  simp only [decide_eq_true_eq]
  intro hmem
  obtain ⟨other, hother, heq⟩ := List.mem_map.mp hmem
  exact hids.2.2 _ (List.mem_map_of_mem hrow) _
    (List.mem_map_of_mem (List.mem_of_mem_drop hother)) heq.symm

theorem Arranged.expirePassword (h : Arranged s v) (hcached : Cached s v) :
    Arranged (expirePassword s) (v.expire (getExpiredPasswords s.policy)) := by
  have hsub := v.expire_history_sublist (getExpiredPasswords s.policy)
  have hids := h.ids
  rw [← v.expire_all] at hsub
  suffices hrows : (PasswordHistory.expirePassword s).rows.Perm
      (v.expire (getExpiredPasswords s.policy)).historyRows ∧
      (PasswordHistory.expirePassword s).nextId = s.nextId by
    refine ⟨?_, h.order.sublist hsub, hids.sublist (hsub.map _), fun c hc => ?_⟩
    · rw [Vault.activeRows, v.expire_active]
      exact hrows.1
    · rw [hrows.2]
      exact h.fresh c (hsub.subset hc)
  rw [PasswordHistory.expirePassword]
  cases hv : v.active with
  | none =>
      rw [getPassword_none h hcached hv, Vault.expire_none hv]
      have hrows := h.rows
      rw [Vault.activeRows, hv] at hrows
      exact ⟨hrows, rfl⟩
  | some a =>
      obtain ⟨c, hc, hretag⟩ := getPassword_some h hcached hv
      have hid : c.id = a.id := congrArg (·.id) (hretag .password)
      have hold : ({ c with type := .passwordHistory } : Credential Salt Value) =
          retag .passwordHistory a := hretag .passwordHistory
      rw [Vault.all, hv, List.map_append, List.nodup_append] at hids
      have hother : ∀ row ∈ v.historyRows, row.id ≠ a.id := by
        intro row hrow heq
        obtain ⟨b, hb, rfl⟩ := List.mem_map.mp hrow
        exact hids.2.2 _ (List.mem_cons_self ..) _ (List.mem_map_of_mem hb) heq.symm
      have hactive : v.activeRows = [retag .password a] := by
        rw [Vault.activeRows, hv]
        rfl
      rw [hc, Vault.expire_some hv]
      dsimp only
      rw [h.left_eq]
      split
      · -- the history is cut, and the old password comes to its front
        rename_i hvalue
        refine ⟨?_, rfl⟩
        have hkeep : ∀ n, (v.historyRows.take n).map
            (fun row => if row.id = a.id then retag .passwordHistory a else row) =
            v.historyRows.take n := by
          intro n
          rw [List.map_congr_left fun row hrow => if_neg (hother row (List.mem_of_mem_take hrow)),
            List.map_id']
        have hrows := (h.cut (getExpiredPasswords s.policy - 2).toNat).map fun row =>
          if row.id = a.id then retag .passwordHistory a else row
        rw [hactive, List.map_append, List.map_singleton, retag_id, if_pos rfl, hkeep] at hrows
        rw [hold]
        refine hrows.trans (List.Perm.of_eq ?_)
        rw [Vault.historyRows, Vault.historyRows, List.map_cons, List.map_take]
        rfl
      · refine ⟨?_, rfl⟩
        have hkeep : v.historyRows.filter (fun row => row.id ≠ a.id) = v.historyRows :=
          List.filter_eq_self.mpr fun row hrow => decide_eq_true (hother row hrow)
        have hrows := h.rows.filter fun row => row.id ≠ a.id
        have hnone : [retag .password a].filter (fun row => row.id ≠ a.id) = [] := by simp
        rw [hactive, List.filter_append, hkeep, hnone, List.nil_append] at hrows
        rw [hid]
        exact hrows

theorem expirePassword_eq (s : State Password Salt Value) : ∃ rows,
    expirePassword s = { s with rows } ∨
      expirePassword s = setCachedType { s with rows } .passwordHistory := by
  rw [expirePassword]
  split
  · exact ⟨s.rows, .inl rfl⟩
  · dsimp only
    split
    · refine exists_or.mpr (.inr ?_)
      split
      · rw [foldl_removeStoredCredential]
        exact ⟨_, rfl⟩
      · exact ⟨_, rfl⟩
    · exact ⟨_, .inl rfl⟩

theorem expirePassword_policy (s : State Password Salt Value) :
    (expirePassword s).policy = s.policy := by
  obtain ⟨rows, h | h⟩ := expirePassword_eq s <;> rw [h]
  rfl

theorem Cached.expirePassword (h : Cached s v) :
    Cached { s with cached := (expirePassword s).cached } v := by
  obtain ⟨rows, heq | heq⟩ := expirePassword_eq s
  · rw [heq]
    exact h
  · intro passwords hpasswords
    change passwords ∈ (PasswordHistory.expirePassword s).cached at hpasswords
    rw [heq] at hpasswords
    obtain ⟨before, hbefore, rfl⟩ := Option.map_eq_some_iff.mp hpasswords
    rw [← h before hbefore]
    cases before <;> rfl

theorem Arranged.setActive (h : Arranged s v) (hv : v.active = none) (hashed : Hashed Salt Value)
    (now : Int) (hnow : ∀ c ∈ v.all, dateOf c < now) (type : CredentialType) (id : Nat) :
    Arranged (s.createCredential { hashed with id, type := .password, createdDate := some now })
      (v.set { hashed with id := s.nextId, type, createdDate := some now }) := by
  have hall : v.all = v.history := by
    rw [Vault.all, hv]
    rfl
  have hrows := h.rows
  rw [Vault.activeRows, hv] at hrows
  refine ⟨?_, ?_, ?_, ?_⟩
  · exact (List.perm_append_comm).trans (hrows.cons _)
  · rw [Vault.all_set, List.pairwise_cons, ← hall]
    exact ⟨hnow, h.order⟩
  · rw [Vault.all_set, List.map_cons, List.nodup_cons, ← hall]
    refine ⟨fun hmem => ?_, h.ids⟩
    obtain ⟨c, hc, heq⟩ := List.mem_map.mp hmem
    exact (h.fresh c hc).ne heq
  · rw [Vault.all_set, ← hall]
    intro c hc
    rcases List.mem_cons.mp hc with rfl | hc
    · exact Nat.lt_succ_self _
    · exact Nat.lt_succ_of_lt (h.fresh c hc)

theorem Arranged.rehash (h : Arranged s v) (hv : v.active = some a) (hashed : Hashed Salt Value) :
    Arranged (s.updateStoredCredential { a with toHashed := hashed, type := .password })
      (v.set { a with toHashed := hashed }) := by
  have hall : v.all = a :: v.history := by
    rw [Vault.all, hv]
    rfl
  have hids := h.ids
  rw [hall, List.map_cons, List.nodup_cons] at hids
  have hkeep : v.historyRows.map (fun row => if row.id = a.id then
      ({ a with toHashed := hashed, type := .password } : Credential Salt Value) else row) =
      v.historyRows := by
    rw [List.map_congr_left fun row hrow => if_neg fun heq => ?_, List.map_id']
    obtain ⟨b, hb, rfl⟩ := List.mem_map.mp hrow
    exact hids.1 (heq ▸ (List.mem_map_of_mem hb : b.id ∈ v.history.map (·.id)))
  refine ⟨?_, ?_, ?_, ?_⟩
  · have hrows := h.rows.map fun row => if row.id = a.id then
      ({ a with toHashed := hashed, type := .password } : Credential Salt Value) else row
    rw [List.map_append, hkeep, Vault.activeRows, hv, Option.toList_some, List.map_singleton,
      List.map_singleton, retag_id, if_pos rfl] at hrows
    exact hrows
  · have horder := h.order
    rw [hall, List.pairwise_cons] at horder
    rw [Vault.all_set, List.pairwise_cons]
    exact horder
  · rw [Vault.all_set, List.map_cons, List.nodup_cons]
    exact hids
  · have hfresh := h.fresh
    rw [hall, List.forall_mem_cons] at hfresh
    rw [Vault.all_set, List.forall_mem_cons]
    exact hfresh

theorem Arranged.dateOf_lt (h : Arranged s v) {now : Int}
    (hnow : ∀ row ∈ s.rows, dateOf row < now) : ∀ c ∈ v.all, dateOf c < now := by
  intro c hc
  rw [Vault.all] at hc
  rcases List.mem_append.mp hc with hc | hc
  · exact hnow (retag .password c) (h.rows.mem_iff.mpr
      (List.mem_append_left _ (List.mem_map_of_mem hc)))
  · exact hnow (retag .passwordHistory c) (h.rows.mem_iff.mpr
      (List.mem_append_right _ (List.mem_map_of_mem hc)))

/-! ## Passwords that verify -/

variable {providers : Providers} {jdk : Jdk Password Salt Value} {password : Password}

theorem encode_algorithm {hash : HashProvider} {iterations : Int} {salt : Salt}
    {hashed : Hashed Salt Value} (h : hash.encode jdk password iterations salt = .ok hashed) :
    hashed.algorithm = hash.providerId := by
  rw [HashProvider.encode] at h
  split at h
  · cases h
    rfl
  · cases h

variable [DecidableEq Value]

def Verifies (providers : Providers) (jdk : Jdk Password Salt Value)
    (credential : Credential Salt Value) (password : Password) : Prop :=
  ∃ hash, providers.get credential.algorithm = some hash ∧
    hash.verify jdk password credential.toHashed = .ok true

/-- A password verifies against what it was encoded to, with the iterations and the key size
that were in force then. -/
theorem verify_encode {hash : HashProvider} {iterations : Int} {salt : Salt}
    {hashed : Hashed Salt Value} (h : hash.encode jdk password iterations salt = .ok hashed) :
    hash.verify jdk password hashed = .ok true := by
  rw [HashProvider.encode] at h
  split at h
  · rename_i value hvalue
    cases h
    simp only [HashProvider.verify, jdk.keySize_eq hash.bytes hvalue, hvalue, decide_true]
  · cases h

theorem getHashProvider_get {policy : PasswordPolicy Password} {hash : HashProvider}
    (h : getHashProvider providers policy = some hash) :
    providers.get hash.providerId = some hash := by
  rw [getHashProvider] at h
  split at h
  · rename_i found hfound
    cases h
    rwa [providers.get_providerId hfound]
  · rwa [providers.get_providerId h]

theorem verifies_encode {hash : HashProvider} {policy : PasswordPolicy Password}
    {iterations : Int} {salt : Salt} {hashed : Hashed Salt Value}
    (hhash : getHashProvider providers policy = some hash)
    (h : hash.encode jdk password iterations salt = .ok hashed)
    {credential : Credential Salt Value} (hcredential : credential.toHashed = hashed) :
    Verifies providers jdk credential password := by
  refine ⟨hash, ?_, ?_⟩
  · rw [hcredential, encode_algorithm h]
    exact getHashProvider_get hhash
  · rw [hcredential]
    exact verify_encode h

theorem anyVerifies_false {passOver : Bool} {list : List (Credential Salt Value)}
    (h : anyVerifies providers jdk passOver password list = .ok false) :
    ∀ c ∈ list, ¬ Verifies providers jdk c password := by
  induction list with
  | nil => exact fun _ hc => absurd hc List.not_mem_nil
  | cons cred rest ih =>
      rw [anyVerifies] at h
      split at h
      · rename_i hnone
        split at h
        · refine List.forall_mem_cons.mpr ⟨fun ⟨hash, hhash, _⟩ => ?_, ih h⟩
          rw [hnone] at hhash
          cases hhash
        · cases h
      · rename_i hash hhash
        split at h
        · cases h
        · cases h
        · rename_i hverify
          refine List.forall_mem_cons.mpr ⟨fun ⟨other, hother, htrue⟩ => ?_, ih h⟩
          rw [hhash] at hother
          cases hother
          rw [hverify] at htrue
          cases htrue

theorem validateHistory_none (h : validateHistory s providers jdk password = .ok none)
    (hvalue : getExpiredPasswords s.policy ≠ -1) :
    ∀ row ∈ s.rows, ¬ Verifies providers jdk row password := by
  rw [validateHistory, if_neg hvalue] at h
  split at h
  · cases h
  · cases h
  · rename_i hactive
    split at h
    · cases h
    · cases h
    · rename_i hhistory
      intro row hrow
      cases htype : row.type with
      | password =>
          exact anyVerifies_false hactive row (List.mem_filter.mpr ⟨hrow, decide_eq_true htype⟩)
      | passwordHistory =>
          exact anyVerifies_false hhistory row (List.mem_filter.mpr ⟨hrow, decide_eq_true htype⟩)

theorem validateHistory_of_validate {value : Int} {policy : PasswordPolicy Password}
    (h : validate s providers jdk password policy = .ok none)
    (hmem : .passwordHistory value ∈ policy) :
    validateHistory s providers jdk password = .ok none := by
  induction policy with
  | nil => cases hmem
  | cons entry rest ih =>
      unfold validate at h
      dsimp only at h
      split at h
      · rename_i hentry
        rcases List.mem_cons.mp hmem with rfl | hmem
        · exact hentry
        · exact ih h hmem
      · rename_i hentry
        exact (hentry h).elim

theorem exists_passwordHistory {policy : PasswordPolicy Password}
    (h : 0 < getExpiredPasswords policy) : ∃ value, .passwordHistory value ∈ policy := by
  rw [getExpiredPasswords] at h
  cases hfind : policy.findSome? fun
      | .passwordHistory value => some value
      | _ => none with
  | none =>
      rw [hfind] at h
      cases h
  | some value =>
      obtain ⟨entry, hentry, hsome⟩ := List.exists_of_findSome?_eq_some hfind
      split at hsome
      · exact ⟨_, hentry⟩
      · cases hsome

theorem validate_none (h : validate s providers jdk password s.policy = .ok none)
    (hvalue : 0 < getExpiredPasswords s.policy) :
    ∀ row ∈ s.rows, ¬ Verifies providers jdk row password := by
  obtain ⟨value, hmem⟩ := exists_passwordHistory hvalue
  exact validateHistory_none (validateHistory_of_validate h hmem) (by omega)

/-! ## Steps -/

def NoReuse (k : Nat) : List Password → Prop
  | [] => True
  | password :: older => password ∉ older.take k ∧ NoReuse k older

/-- The rows are credentials for the passwords of a vault, which has the last `k` accepted
ones. -/
structure Remembers (providers : Providers) (jdk : Jdk Password Salt Value) (k : Nat)
    (s : State Password Salt Value) (v : Vault (Credential Salt Value))
    (w : Vault Password) : Prop where
  arranged : Arranged s v
  cached : Cached s v
  verifies : v.Related (Verifies providers jdk) w
  active : w.active = s.active
  recent : s.accepted.take k <+: w.all
  noReuse : NoReuse k s.accepted

/-- The history policy keeps `k` passwords, one more where a password is disabled, which is
then not in the cache; the clock has moved on since the stored passwords were set; and a
password that verifies is the one in force. -/
def Proper (providers : Providers) (jdk : Jdk Password Salt Value) (k : Nat)
    (s : State Password Salt Value) : Label Password Salt Value → Prop
  | .updateCredential _ now _ =>
      (0 < k → (k : Int) ≤ getExpiredPasswords s.policy) ∧ ∀ row ∈ s.rows, dateOf row < now
  | .disableCredentialType =>
      (0 < k → (k : Int) + 1 ≤ getExpiredPasswords s.policy) ∧ s.cached = none
  | .isValid password _ => ∀ row, getPassword s = some row → Verifies providers jdk row password →
      s.active = some password
  | _ => True

variable {k : Nat} {w : Vault Password}

theorem Remembers.exists_row (h : Remembers providers jdk k s v w) (hmem : password ∈ w.all) :
    ∃ row ∈ s.rows, Verifies providers jdk row password := by
  have hall := h.verifies.all
  obtain ⟨c, hc, hverifies⟩ : ∃ c ∈ v.all, Verifies providers jdk c password := by
    obtain ⟨i, hi, rfl⟩ := List.mem_iff_getElem.mp hmem
    have hlen := hall.length_eq
    exact ⟨v.all[i], List.getElem_mem _, List.forall₂_iff_get.mp hall |>.2 i (by omega) hi⟩
  rw [Vault.all] at hc
  rcases List.mem_append.mp hc with hc | hc
  · exact ⟨retag .password c, h.arranged.rows.mem_iff.mpr
      (List.mem_append_left _ (List.mem_map_of_mem hc)), hverifies⟩
  · exact ⟨retag .passwordHistory c, h.arranged.rows.mem_iff.mpr
      (List.mem_append_right _ (List.mem_map_of_mem hc)), hverifies⟩

theorem updateCredential_cases (providers : Providers) (jdk : Jdk Password Salt Value)
    (s : State Password Salt Value) (password : Password) (now : Int) (salt : Salt) :
    (updateCredential s providers jdk password now salt).2 = s ∨
    (updateCredential s providers jdk password now salt).2 =
      { s with cached := (expirePassword s).cached } ∨
    ∃ hash hashed, validate s providers jdk password s.policy = .ok none ∧
      getHashProvider providers s.policy = some hash ∧
      hash.encode jdk password (getHashIterations s.policy) salt = .ok hashed ∧
      (updateCredential s providers jdk password now salt).2 =
        { ((expirePassword s).createCredential
            { hashed with id := 0, type := .password, createdDate := some now }).evict with
          active := some password, accepted := password :: s.accepted } := by
  rw [updateCredential]
  split
  · exact .inl rfl
  · exact .inl rfl
  · rename_i hvalidate
    split
    · exact .inl rfl
    · rename_i hash hhash
      dsimp only
      split
      · exact .inr (.inl rfl)
      · rename_i hashed hencode
        exact .inr (.inr ⟨hash, hashed, hvalidate, hhash, hencode, rfl⟩)

theorem Remembers.updateCredential (h : Remembers providers jdk k s v w) {now : Int} {salt : Salt}
    (hok : Proper providers jdk k s (.updateCredential password now salt)) : ∃ v' w',
    Remembers providers jdk k (updateCredential s providers jdk password now salt).2 v' w' ∧
      (v'.history = v.history ∨
        v'.history = (v.expire (getExpiredPasswords s.policy)).history) := by
  rcases updateCredential_cases providers jdk s password now salt with
    heq | heq | ⟨hash, hashed, hvalidate, hhash, hencode, heq⟩
  · rw [heq]
    exact ⟨v, w, h, .inl rfl⟩
  · rw [heq]
    exact ⟨v, w, ⟨⟨h.arranged.rows, h.arranged.order, h.arranged.ids, h.arranged.fresh⟩,
      h.cached.expirePassword, h.verifies, h.active, h.recent, h.noReuse⟩, .inl rfl⟩
  · rw [heq]
    have hdates := h.arranged.dateOf_lt hok.2
    have hsub := v.expire_history_sublist (getExpiredPasswords s.policy)
    rw [← v.expire_all] at hsub
    have hset := (h.arranged.expirePassword h.cached).setActive (v.expire_active _) hashed now
      (fun c hc => hdates c (hsub.subset hc)) .password 0
    refine ⟨_, (w.expire (getExpiredPasswords s.policy)).set password,
      ⟨⟨hset.rows, hset.order, hset.ids, hset.fresh⟩, fun _ => nofun, ?_, rfl, ?_, ?_⟩, .inr rfl⟩
    · exact (h.verifies.expire _).set (verifies_encode hhash hencode rfl)
    · exact Vault.take_expire_set hok.1 h.recent password
    · refine ⟨fun hmem => ?_, h.noReuse⟩
      cases k with
      | zero => exact absurd hmem List.not_mem_nil
      | succ k =>
          have hvalue := hok.1 (Nat.succ_pos k)
          obtain ⟨row, hrow, hverifies⟩ := h.exists_row (h.recent.subset hmem)
          exact validate_none hvalidate (by omega) row hrow hverifies

theorem Remembers.disableCredentialType (h : Remembers providers jdk k s v w)
    (hok : Proper providers jdk k s .disableCredentialType) :
    Remembers providers jdk k (disableCredentialType s)
      (v.expire (getExpiredPasswords s.policy)) (w.expire (getExpiredPasswords s.policy)) := by
  have hexpired := h.arranged.expirePassword h.cached
  have hcached : (expirePassword s).cached = none := by
    obtain ⟨rows, heq | heq⟩ := expirePassword_eq s <;> rw [heq]
    · exact hok.2
    · rw [setCachedType, hok.2]
      rfl
  have haccepted : (expirePassword s).accepted = s.accepted := by
    obtain ⟨rows, heq | heq⟩ := expirePassword_eq s <;> rw [heq]
    rfl
  refine ⟨⟨hexpired.rows, hexpired.order, hexpired.ids, hexpired.fresh⟩,
    fun passwords hpasswords => ?_, h.verifies.expire _, w.expire_active _, ?_, ?_⟩
  · change passwords ∈ (expirePassword s).cached at hpasswords
    rw [hcached] at hpasswords
    cases hpasswords
  · change (expirePassword s).accepted.take k <+: _
    rw [haccepted]
    exact Vault.take_expire hok.1 h.recent
  · change NoReuse k (expirePassword s).accepted
    rw [haccepted]
    exact h.noReuse

theorem isValid_stores {salt : Salt} {answer : Bool} {newPassword : Credential Salt Value}
    (h : isValid s providers jdk password salt = .ok (answer, some newPassword)) :
    ∃ credential hash hashed, getPassword s = some credential ∧
      Verifies providers jdk credential password ∧
      getHashProvider providers s.policy = some hash ∧
      hash.encode jdk password (getHashIterations s.policy) salt = .ok hashed ∧
      newPassword = { credential with toHashed := hashed, type := .password } := by
  rw [isValid] at h
  split at h
  · cases h
  · rename_i credential hcredential
    split at h
    · cases h
    · rename_i hash hhash
      split at h
      · cases h
      · cases h
      · rename_i hverify
        split at h
        · cases h
        · rename_i hash' hhash'
          split at h
          · cases h
          · split at h
            · cases h
            · rename_i hashed hencode
              cases h
              exact ⟨credential, hash', hashed, hcredential, ⟨hash, hhash, hverify⟩, hhash',
                hencode, rfl⟩

theorem Remembers.rehash (h : Remembers providers jdk k s v w) {salt : Salt} {answer : Bool}
    {newPassword : Credential Salt Value}
    (hok : Proper providers jdk k s (.isValid password salt))
    (hvalid : isValid s providers jdk password salt = .ok (answer, some newPassword)) : ∃ v',
    Remembers providers jdk k (s.updateStoredCredential newPassword).evict v' w ∧
      v'.history = v.history := by
  obtain ⟨credential, hash, hashed, hcredential, hverifies, hhash, hencode, rfl⟩ :=
    isValid_stores hvalid
  have hsome := hok credential hcredential hverifies
  cases hv : v.active with
  | none =>
      rw [getPassword_none h.arranged h.cached hv] at hcredential
      cases hcredential
  | some a =>
      obtain ⟨c, hc, hretag⟩ := getPassword_some h.arranged h.cached hv
      rw [hcredential] at hc
      cases hc
      have hnew : ({ credential with toHashed := hashed, type := .password } :
          Credential Salt Value) = { a with toHashed := hashed, type := .password } :=
        congrArg (fun c : Credential Salt Value => { c with toHashed := hashed })
          (hretag .password)
      have hset := h.arranged.rehash hv hashed
      rw [hnew]
      refine ⟨v.set { a with toHashed := hashed },
        ⟨⟨hset.rows, hset.order, hset.ids, hset.fresh⟩, fun _ => nofun, ⟨?_, h.verifies.history⟩,
          h.active, h.recent, h.noReuse⟩, rfl⟩
      rw [h.active, hsome]
      exact .cons (verifies_encode hhash hencode rfl) .nil

theorem initial_remembers (policy : PasswordPolicy Password) :
    Remembers providers jdk k (initial policy : State Password Salt Value) ⟨none, []⟩
      ⟨none, []⟩ where
  arranged := ⟨.nil, .nil, .nil, fun _ hc => absurd hc List.not_mem_nil⟩
  cached _ h := by cases h
  verifies := ⟨.nil, .nil⟩
  active := rfl
  recent := by
    rw [initial, List.take_nil]
    exact List.nil_prefix
  noReuse := trivial

theorem isValid_of_verifies {credential : Credential Salt Value} {salt : Salt} {answer : Bool}
    {stored : Option (Credential Salt Value)} (hget : getPassword s = some credential)
    (hverifies : Verifies providers jdk credential password)
    (h : isValid s providers jdk password salt = .ok (answer, stored)) : answer = true := by
  obtain ⟨hash, hhash, hverify⟩ := hverifies
  simp only [isValid, hget, hhash, hverify] at h
  split at h
  · cases h
    rfl
  · split at h
    · cases h
      rfl
    · split at h <;> cases h
      rfl

variable [DecidableEq Salt] {label : Label Password Salt Value}

theorem step_policy (hstep : step providers jdk s label = some t) :
    t.policy = s.policy ∨ label = .setPasswordPolicy t.policy := by
  cases label with
  | setPasswordPolicy policy =>
      cases hstep
      exact .inr rfl
  | updateCredential password now salt =>
      cases hstep
      rcases updateCredential_cases providers jdk s password now salt with
        heq | heq | ⟨hash, hashed, -, -, -, heq⟩ <;> rw [heq]
      · exact .inl rfl
      · exact .inl rfl
      · exact .inl (expirePassword_policy s)
  | disableCredentialType =>
      cases hstep
      exact .inl (expirePassword_policy s)
  | isValid password salt =>
      simp only [step] at hstep
      split at hstep <;> cases hstep
      · exact .inl rfl
      · exact .inl rfl
  | onCache =>
      cases hstep
      exact .inl rfl
  | evict =>
      cases hstep
      exact .inl rfl
  | reorder rows =>
      simp only [step] at hstep
      split at hstep <;> cases hstep
      exact .inl rfl

theorem step_remembers (h : Remembers providers jdk k s v w) (hok : Proper providers jdk k s label)
    (hstep : step providers jdk s label = some t) : ∃ v' w', Remembers providers jdk k t v' w' ∧
      (v'.history = v.history ∨
        v'.history = (v.expire (getExpiredPasswords s.policy)).history) := by
  cases label with
  | setPasswordPolicy policy =>
      cases hstep
      exact ⟨v, w, ⟨⟨h.arranged.rows, h.arranged.order, h.arranged.ids, h.arranged.fresh⟩,
        h.cached, h.verifies, h.active, h.recent, h.noReuse⟩, .inl rfl⟩
  | updateCredential password now salt =>
      cases hstep
      exact h.updateCredential hok
  | disableCredentialType =>
      cases hstep
      exact ⟨_, _, h.disableCredentialType hok, .inr rfl⟩
  | isValid password salt =>
      simp only [step] at hstep
      split at hstep
      · rename_i hvalid
        cases hstep
        obtain ⟨v', hv', hhistory⟩ := h.rehash hok hvalid
        exact ⟨v', w, hv', .inl hhistory⟩
      · cases hstep
        exact ⟨v, w, h, .inl rfl⟩
  | onCache =>
      cases hstep
      refine ⟨v, w, ⟨⟨h.arranged.rows, h.arranged.order, h.arranged.ids, h.arranged.fresh⟩,
        fun passwords hpasswords => ?_, h.verifies, h.active, h.recent, h.noReuse⟩, .inl rfl⟩
      cases hpasswords
      rw [h.arranged.stored_password, Vault.activeRows, List.map_map]
      rfl
  | evict =>
      cases hstep
      exact ⟨v, w, ⟨⟨h.arranged.rows, h.arranged.order, h.arranged.ids, h.arranged.fresh⟩,
        fun _ => nofun, h.verifies, h.active, h.recent, h.noReuse⟩, .inl rfl⟩
  | reorder rows =>
      simp only [step] at hstep
      split at hstep
      · rename_i hperm
        cases hstep
        exact ⟨v, w, ⟨⟨(List.isPerm_iff.mp hperm).trans h.arranged.rows, h.arranged.order,
          h.arranged.ids, h.arranged.fresh⟩, h.cached, h.verifies, h.active, h.recent,
          h.noReuse⟩, .inl rfl⟩
      · cases hstep

/-! ## Runs -/

open Machine

variable {policy : PasswordPolicy Password} {labels : List (Label Password Salt Value)}

theorem NoReuse.of_append {newer older : List Password}
    (h : NoReuse k (newer ++ password :: older)) : password ∉ older.take k := by
  induction newer with
  | nil => exact h.1
  | cons p newer ih => exact ih h.2

/-- While the history policy keeps `k` passwords, an update accepts none of the last `k` that
updates accepted, whatever the policy asks of hashes, however the store orders the credentials
and whenever the user is cached. -/
theorem no_reuse (hok : Meets (step providers jdk) (Proper providers jdk k) (initial policy) labels)
    (hrun : run (step providers jdk) (initial policy) labels = some s) {newer older : List Password}
    (haccepted : s.accepted = newer ++ password :: older) : password ∉ older.take k := by
  have hkeep : ∀ s label t, (∃ v w, Remembers providers jdk k s v w) →
      Proper providers jdk k s label → step providers jdk s label = some t →
      ∃ v w, Remembers providers jdk k t v w := by
    rintro s label t ⟨v, w, h⟩ hok hstep
    obtain ⟨v', w', h', -⟩ := step_remembers h hok hstep
    exact ⟨v', w', h'⟩
  obtain ⟨v, w, h⟩ := run_invariant hkeep ⟨_, _, initial_remembers policy⟩ hok hrun
  have hnoReuse := h.noReuse
  rw [haccepted] at hnoReuse
  exact hnoReuse.of_append

def plainJdk : Jdk Nat Nat (Nat × Nat × Int × Nat) where
  encodedCredential _ rawPassword iterations salt derivedKeySize :=
    if 0 < iterations then some (rawPassword, salt, iterations, derivedKeySize) else none
  keySize value := value.2.2.2
  keySize_eq _ h := by
    split at h <;> cases h
    rfl

def pbkdf2Sha256 : HashProvider :=
  ⟨"pbkdf2-sha256", "PBKDF2WithHmacSHA256", 27500, 512, by decide⟩

def defaultProviders : Providers where
  get id := if id = "pbkdf2-sha256" then some pbkdf2Sha256 else none
  get_providerId {id hash} h := by
    split at h <;> cases h
    rename_i hid
    exact hid.symm

/-- Three passwords, a login that hashes the second one again, and two attempts to set a
password again while the policy keeps two. -/
def attempts : List (Label Nat Nat (Nat × Nat × Int × Nat)) :=
  [.updateCredential 1 10 7, .onCache, .updateCredential 2 20 8, .updateCredential 1 30 9,
    .onCache, .setPasswordPolicy [.passwordHistory 3, .hashIterations 5], .isValid 2 6,
    .updateCredential 3 40 5, .updateCredential 2 50 4]

theorem attempts_proper : Meets (step defaultProviders plainJdk)
    (Proper defaultProviders plainJdk 2) (initial [.passwordHistory 2]) attempts := by
  refine Meets.cons ⟨fun _ => by decide, by decide⟩ rfl ?_
  refine Meets.cons trivial rfl ?_
  refine Meets.cons ⟨fun _ => by decide, by decide⟩ rfl ?_
  refine Meets.cons ⟨fun _ => by decide, by decide⟩ rfl ?_
  refine Meets.cons trivial rfl ?_
  refine Meets.cons trivial rfl ?_
  refine Meets.cons (fun _ _ _ => rfl) rfl ?_
  refine Meets.cons ⟨fun _ => by decide, by decide⟩ rfl ?_
  refine Meets.cons ⟨fun _ => by decide, by decide⟩ rfl ?_
  trivial

theorem no_reuse_attempts : ∃ s, run (step defaultProviders plainJdk)
    (initial [.passwordHistory 2]) attempts = some s ∧ s.accepted = [3, 2, 1] ∧
    3 ∉ [2, 1].take 2 := by
  obtain ⟨s, hs⟩ : ∃ s, run (step defaultProviders plainJdk) (initial [.passwordHistory 2])
      attempts = some s := ⟨_, rfl⟩
  have haccepted : s.accepted = [3, 2, 1] := by
    cases hs
    rfl
  have hsplit : s.accepted = [] ++ 3 :: [2, 1] := haccepted
  exact ⟨s, hs, haccepted, no_reuse attempts_proper hs hsplit⟩

def Bounded (m : Nat) : Label Password Salt Value → Prop
  | .setPasswordPolicy policy => getExpiredPasswords policy ≤ m
  | _ => True

structure Holds (providers : Providers) (jdk : Jdk Password Salt Value) (m : Nat)
    (s : State Password Salt Value) (v : Vault (Credential Salt Value))
    (w : Vault Password) : Prop where
  remembers : Remembers providers jdk 0 s v w
  policy : getExpiredPasswords s.policy ≤ m
  history : v.history.length + 1 ≤ max 1 m

theorem step_holds {m : Nat} (h : ∃ v w, Holds providers jdk m s v w)
    (hok : Proper providers jdk 0 s label ∧ Bounded m label)
    (hstep : step providers jdk s label = some t) : ∃ v w, Holds providers jdk m t v w := by
  obtain ⟨v, w, h⟩ := h
  obtain ⟨v', w', h', hhistory⟩ := step_remembers h.remembers hok.1 hstep
  refine ⟨v', w', h', ?_, ?_⟩
  · rcases step_policy hstep with heq | rfl
    · rw [heq]
      exact h.policy
    · exact hok.2
  · rcases hhistory with heq | heq <;> rw [heq]
    · exact h.history
    · exact Vault.length_expire h.policy h.history

/-- At every moment of a run: a login with the password set last is not refused, however often
it was stored again under another hash; without a password in force every login is refused; and
there are no more credentials than the largest policy asks for. -/
theorem password_in_force {m : Nat} (hpolicy : getExpiredPasswords policy ≤ m)
    (hok : Meets (step providers jdk) (fun s label => Proper providers jdk 0 s label ∧
      Bounded m label) (initial policy) labels)
    (hrun : run (step providers jdk) (initial policy) labels = some s) :
    (∀ password, s.active = some password → ∀ salt answer stored,
      isValid s providers jdk password salt = .ok (answer, stored) → answer = true) ∧
    (s.active = none → ∀ password salt,
      isValid s providers jdk password salt = .ok (false, none)) ∧
    s.rows.length ≤ max 1 m := by
  have hstart : ∃ v w, Holds providers jdk m (initial policy : State Password Salt Value) v w :=
    ⟨_, _, initial_remembers policy, hpolicy, Nat.le_max_left 1 m⟩
  have hkeep : ∀ s label t, (∃ v w, Holds providers jdk m s v w) →
      Proper providers jdk 0 s label ∧ Bounded m label →
      step providers jdk s label = some t → ∃ v w, Holds providers jdk m t v w :=
    fun _ _ _ => step_holds
  obtain ⟨v, w, h⟩ := run_invariant hkeep hstart hok hrun
  have hactive := h.remembers.verifies.active
  rw [h.remembers.active] at hactive
  refine ⟨fun password hsome salt answer stored hvalid => ?_, fun hnone password salt => ?_, ?_⟩
  · rw [hsome] at hactive
    cases hv : v.active with
    | none =>
        rw [hv] at hactive
        cases hactive
    | some a =>
        rw [hv] at hactive
        obtain ⟨credential, hget, hretag⟩ :=
          getPassword_some h.remembers.arranged h.remembers.cached hv
        have hhashed : credential.toHashed = a.toHashed := congrArg (·.toHashed) (hretag .password)
        obtain ⟨hash, hhash, hverify⟩ := (List.forall₂_cons.mp hactive).1
        exact isValid_of_verifies hget ⟨hash, hhashed ▸ hhash, hhashed ▸ hverify⟩ hvalid
  · rw [hnone] at hactive
    cases hv : v.active with
    | none => rw [isValid, getPassword_none h.remembers.arranged h.remembers.cached hv]
    | some a =>
        rw [hv] at hactive
        cases hactive
  · rw [h.remembers.arranged.rows.length_eq, List.length_append, Vault.activeRows,
      Vault.historyRows, List.length_map, List.length_map]
    have hone : v.active.toList.length ≤ 1 := by cases v.active <;> simp
    have := h.history
    omega

def rehashed : List (Label Nat Nat (Nat × Nat × Int × Nat)) :=
  [.updateCredential 1 10 7, .setPasswordPolicy [.passwordHistory 2, .hashIterations 5],
    .isValid 1 6]

theorem password_in_force_rehashed : ∃ s, run (step defaultProviders plainJdk) (initial [])
    rehashed = some s ∧ s.active = some 1 ∧ s.rows.map (·.hashIterations) = [5] ∧
    (∀ salt answer stored,
      isValid s defaultProviders plainJdk 1 salt = .ok (answer, stored) → answer = true) ∧
    s.rows.length ≤ 2 := by
  have hok : Meets (step defaultProviders plainJdk) (fun s label =>
      Proper defaultProviders plainJdk 0 s label ∧ Bounded 2 label) (initial []) rehashed := by
    refine Meets.cons ⟨⟨fun h => absurd h (Nat.lt_irrefl 0), by decide⟩, trivial⟩ rfl ?_
    refine Meets.cons ⟨trivial, (by decide : (2 : Int) ≤ 2)⟩ rfl ?_
    exact Meets.cons ⟨fun _ _ _ => rfl, trivial⟩ rfl trivial
  obtain ⟨s, hs⟩ : ∃ s, run (step defaultProviders plainJdk) (initial []) rehashed = some s :=
    ⟨_, rfl⟩
  have hactive : s.active = some 1 ∧ s.rows.map (·.hashIterations) = [5] := by
    cases hs
    exact ⟨rfl, rfl⟩
  obtain ⟨hlogin, -, hrows⟩ := password_in_force (by decide) hok hs
  exact ⟨s, hs, hactive.1, hactive.2, hlogin 1 hactive.1, hrows⟩

end

end Keycloak.Authentication.PasswordHistory
