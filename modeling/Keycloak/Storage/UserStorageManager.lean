import Mathlib.Algebra.Order.Ring.Int
import Mathlib.Data.List.Basic

/-!
# Queries over several user storages

`UserStorageManager.query` asks the local storage, the storage providers and the federated
storage one after the other for a page of users.  What lies in front of the page is skipped in
batches.

The counters stay between zero and the arguments, so the `int`s are integers.
-/

namespace Keycloak.Storage.UserStorageManager

variable {Provider User : Type}

def maxValue : Int := 2147483647

/-- The inner loop, for one provider: where it stops in the provider, how many users are left to
skip, and whether the provider is exhausted. -/
def skip (pagedQuery : Int → Int → List User) (index leftToFirstResult : Int) :
    Int × Int × Bool :=
  let toRead := min 50 leftToFirstResult
  let tmp := pagedQuery index toRead
  let left := leftToFirstResult - tmp.length
  if tmp.length < toRead then (index + tmp.length, left, true)
  else if left > 0 then skip pagedQuery (index + tmp.length) left
  else (index + tmp.length, left, false)
termination_by leftToFirstResult.toNat
decreasing_by
  change left.toNat < leftToFirstResult.toNat
  omega

def readProviders (pagedQuery : Provider → Int → Int → List User) :
    List Provider → Int → Int → List User
  | [], _, _ => []
  | provider :: providers, leftToRead, leftToFirstResult =>
      if leftToRead = 0 then []
      else
        let (index, leftToFirstResult, exhausted) :=
          if leftToFirstResult > 0 then skip (pagedQuery provider) 0 leftToFirstResult
          else (0, leftToFirstResult, false)
        if exhausted then readProviders pagedQuery providers leftToRead leftToFirstResult
        else
          let tmp := pagedQuery provider index leftToRead
          let leftToRead := if leftToRead > 0 then leftToRead - tmp.length else leftToRead
          tmp ++ readProviders pagedQuery providers leftToRead leftToFirstResult

/-- The providers that `query` goes through, if there is a storage provider. -/
def providers (localStorage : Provider) (storageProviders : List Provider)
    (federatedStorage : Option Provider) : List Provider :=
  localStorage :: (storageProviders ++ federatedStorage.toList)

def query (pagedQuery : Provider → Int → Int → List User) (localStorage : Provider)
    (storageProviders : List Provider) (federatedStorage : Option Provider)
    (firstResult maxResults : Int) : List User :=
  if maxResults = 0 then []
  else
    let firstResult := if firstResult < 0 then 0 else firstResult
    let maxResults := if maxResults < 0 then maxValue - 1 else maxResults
    if storageProviders.isEmpty then pagedQuery localStorage firstResult maxResults
    else readProviders pagedQuery (providers localStorage storageProviders federatedStorage)
      maxResults firstResult

/-- The elements of a list from a first one on, at most as many as given. -/
def slice (users : List User) (first max : Int) : List User :=
  (users.drop first.toNat).take max.toNat

def Answers (pagedQuery : Provider → Int → Int → List User) (users : Provider → List User) :
    Prop :=
  ∀ provider first max, 0 ≤ first → 0 ≤ max →
    pagedQuery provider first max = slice (users provider) first max

/-! ## One provider -/

section

variable {pagedQuery : Int → Int → List User} {users : List User}

theorem slice_natCast (users : List User) (first max : Nat) :
    slice users first max = (users.drop first).take max := rfl

theorem skip_spec
    (h : ∀ first max, 0 ≤ first → 0 ≤ max → pagedQuery first max = slice users first max)
    {index left : Nat} (hindex : index ≤ users.length) (hleft : 0 < left) :
    skip pagedQuery index left =
      if index + left ≤ users.length then (((index + left : Nat) : Int), 0, false)
      else ((users.length : Int), ((index + left - users.length : Nat) : Int), true) := by
  induction left using Nat.strong_induction_on generalizing index with
  | _ left ih =>
      have htoRead : min (50 : Int) left = ((min 50 left : Nat) : Int) := by omega
      have htmp : (pagedQuery index (min 50 left)).length =
          min (min 50 left) (users.length - index) := by
        rw [h _ _ (by omega) (by omega), htoRead, slice_natCast, List.length_take,
          List.length_drop]
      rw [skip]
      rw [htmp]
      by_cases hshort : users.length - index < min 50 left
      · -- the provider ends within the batch
        rw [if_pos (by omega), if_neg (by omega)]
        simp only [Prod.mk.injEq, and_true]
        omega
      · rw [if_neg (by omega)]
        by_cases hmore : 50 < left
        · have hbatch : min (min 50 left) (users.length - index) = 50 := by omega
          have hnext := ih (left - 50) (by omega) (show index + 50 ≤ users.length by omega)
            (by omega)
          have hcast : ((left - 50 : Nat) : Int) = (left : Int) - 50 := by omega
          have hsum : index + 50 + (left - 50) = index + left := by omega
          rw [if_pos (by omega), hbatch]
          rw [hsum, hcast] at hnext
          simpa only [Nat.cast_add, Nat.cast_ofNat] using hnext
        · rw [if_neg (by omega), if_pos (by omega)]
          simp only [Prod.mk.injEq, and_true]
          omega

end

/-! ## All providers -/

section

variable {pagedQuery : Provider → Int → Int → List User} {users : Provider → List User}

theorem drop_take_append (l rest : List User) (first max : Nat) :
    ((l ++ rest).drop first).take max = (l.drop first).take max ++
      (rest.drop (first - l.length)).take (max - (l.drop first).length) := by
  rw [List.drop_append, List.take_append]

theorem readProviders_eq (h : Answers pagedQuery users) (providers : List Provider)
    (leftToRead leftToFirstResult : Nat) :
    readProviders pagedQuery providers leftToRead leftToFirstResult =
      ((providers.flatMap users).drop leftToFirstResult).take leftToRead := by
  induction providers generalizing leftToRead leftToFirstResult with
  | nil => simp [readProviders]
  | cons provider providers ih =>
      rw [readProviders, List.flatMap_cons, drop_take_append]
      by_cases hdone : leftToRead = 0
      · simp [hdone]
      · rw [if_neg (by omega)]
        have hstop : (if (leftToFirstResult : Int) > 0 then
              skip (pagedQuery provider) 0 leftToFirstResult
            else (0, (leftToFirstResult : Int), false)) =
            if leftToFirstResult ≤ (users provider).length then
              ((leftToFirstResult : Int), 0, false)
            else (((users provider).length : Int),
              ((leftToFirstResult - (users provider).length : Nat) : Int), true) := by
          by_cases hfirst : leftToFirstResult = 0
          · subst hfirst
            rfl
          · have hskip := skip_spec (h provider) (Nat.zero_le _)
              (Nat.pos_of_ne_zero hfirst)
            rw [Nat.zero_add] at hskip
            rw [if_pos (by omega)]
            exact hskip
        rw [hstop]
        by_cases hin : leftToFirstResult ≤ (users provider).length
        · rw [if_pos hin]
          have htmp : pagedQuery provider leftToFirstResult leftToRead =
              ((users provider).drop leftToFirstResult).take leftToRead := by
            rw [h provider _ _ (by omega) (by omega), slice_natCast]
          have hleft : (leftToRead : Int) -
              (((users provider).drop leftToFirstResult).take leftToRead).length =
              ((leftToRead - ((users provider).drop leftToFirstResult).length : Nat) : Int) := by
            rw [List.length_take]
            omega
          dsimp only
          rw [if_neg Bool.false_ne_true, htmp, if_pos (by omega), hleft]
          have hnext := ih (leftToRead - ((users provider).drop leftToFirstResult).length) 0
          rw [Nat.cast_zero] at hnext
          rw [hnext, Nat.sub_eq_zero_of_le hin]
        · rw [if_neg hin]
          dsimp only
          rw [if_pos rfl, ih]
          have hdrop : (users provider).drop leftToFirstResult = [] :=
            List.drop_eq_nil_of_le (by omega)
          rw [hdrop, List.take_nil, List.nil_append, List.length_nil, Nat.sub_zero]

/-- Over storages that answer with slices, `query` reads the slice of all their users. -/
theorem query_eq_slice (h : Answers pagedQuery users) (localStorage : Provider)
    {storageProviders : List Provider} (hproviders : storageProviders ≠ [])
    (federatedStorage : Option Provider) (firstResult maxResults : Int) :
    query pagedQuery localStorage storageProviders federatedStorage firstResult maxResults =
      slice ((providers localStorage storageProviders federatedStorage).flatMap users)
        (max firstResult 0) (if 0 ≤ maxResults then maxResults else maxValue - 1) := by
  have hnonempty : storageProviders.isEmpty = false := by
    rw [List.isEmpty_eq_false_iff]
    exact hproviders
  rw [query]
  by_cases hzero : maxResults = 0
  · rw [if_pos hzero, hzero]
    rfl
  · obtain ⟨first, hfirst⟩ : ∃ first : Nat, max firstResult 0 = first :=
      ⟨(max firstResult 0).toNat, by omega⟩
    obtain ⟨count, hcount⟩ :
        ∃ count : Nat, (if 0 ≤ maxResults then maxResults else maxValue - 1) = count := by
      refine ⟨(if 0 ≤ maxResults then maxResults else maxValue - 1).toNat, ?_⟩
      rw [maxValue]
      omega
    have hfirst' : (if firstResult < 0 then 0 else firstResult) = (first : Int) := by omega
    have hcount' : (if maxResults < 0 then maxValue - 1 else maxResults) = (count : Int) := by
      rw [← hcount, ← ite_not]
      simp only [not_lt]
    rw [if_neg hzero, hfirst, hcount]
    dsimp only
    rw [hfirst', hcount', hnonempty, if_neg Bool.false_ne_true, readProviders_eq h,
      slice_natCast]

def numbered (storage : Nat) : List Nat := List.replicate storage storage

theorem numbered_answers :
    Answers (fun storage first max => slice (numbered storage) first max) numbered :=
  fun _ _ _ _ _ => rfl

/-- The second and third of five users. -/
theorem query_eq_slice_of_three :
    query (fun storage first max => slice (numbered storage) first max) 0 [2] (some 3) 1 2 =
      [2, 3] :=
  (query_eq_slice numbered_answers 0 (List.cons_ne_nil 2 []) (some 3) 1 2).trans (by decide)

end

end Keycloak.Storage.UserStorageManager
