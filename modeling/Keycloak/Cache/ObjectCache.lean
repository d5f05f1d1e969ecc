import Mathlib.Data.List.Basic
import Mathlib.Logic.Function.Basic

/-!
# `CacheManager`, one call after the other

The object cache with its revisions as the calls of one thread see it.  An object is
stored with the revision it was loaded at; `get` returns it while the revision of its
key has not moved past that number.
-/

namespace Keycloak.Cache

/-- A stored object and its `getRevision`. -/
structure CacheEntry (Object : Type) where
  revision : Nat
  object : Object

structure ObjectCache (Object : Type) where
  counter : Nat
  revisions : String → Option Nat
  entries : String → Option (CacheEntry Object)

namespace ObjectCache

variable {Object : Type}

def empty : ObjectCache Object where
  counter := 0
  revisions _ := none
  entries _ := none

/-- What is stored under a key, whether `get` returns it or not. -/
def object (c : ObjectCache Object) (key : String) : Option Object :=
  (c.entries key).map (·.object)

def get (c : ObjectCache Object) (key : String) : Option Object :=
  match c.entries key, c.revisions key with
  | some o, some rev => if rev > o.revision then none else some o.object
  | _, _ => none

def getCurrentRevision (c : ObjectCache Object) (key : String) : Nat :=
  (c.revisions key).getD c.counter

/-- `cache.putForExternalRead`: an entry that is there stays. -/
def putForExternalRead (c : ObjectCache Object) (key : String) (o : CacheEntry Object) :
    ObjectCache Object :=
  { c with entries := Function.update c.entries key (some ((c.entries key).getD o)) }

def putRevision (c : ObjectCache Object) (key : String) (rev : Nat) : ObjectCache Object :=
  { c with revisions := Function.update c.revisions key (some rev) }

def addRevisioned (c : ObjectCache Object) (key : String) (o : CacheEntry Object)
    (startupRevision : Nat) : ObjectCache Object :=
  let rev := c.getCurrentRevision key
  let c := c.putRevision key rev
  if rev > startupRevision then c
  else if rev = o.revision then c.putForExternalRead key o
  else if rev > o.revision then c
  else (c.putRevision key o.revision).putForExternalRead key o

/-- `invalidateObject`, with its `bumpVersion`. -/
def invalidateObject (c : ObjectCache Object) (key : String) : ObjectCache Object where
  counter := c.counter + 1
  revisions := Function.update c.revisions key (some (c.counter + 1))
  entries := Function.update c.entries key none

def evictRevision (c : ObjectCache Object) (key : String) : ObjectCache Object :=
  { c with revisions := Function.update c.revisions key none }

def evictEntry (c : ObjectCache Object) (key : String) : ObjectCache Object :=
  { c with entries := Function.update c.entries key none }

variable {c : ObjectCache Object} {key k : String} {o x : Object}

theorem object_of_get (h : c.get key = some o) : c.object key = some o := by
  unfold get at h
  split at h
  · rename_i e rev he hrev
    split at h
    · cases h
    · rw [object, he]
      exact h
  · cases h

theorem get_eq_some_iff : c.get key = some o ↔ ∃ e rev, c.entries key = some e ∧
    c.revisions key = some rev ∧ rev ≤ e.revision ∧ e.object = o := by
  unfold get
  constructor
  · intro h
    split at h
    · rename_i e rev he hrev
      split at h
      · cases h
      · rename_i hle
        exact ⟨e, rev, he, hrev, Nat.le_of_not_lt hle, Option.some.inj h⟩
    · cases h
  · rintro ⟨e, rev, he, hrev, hle, rfl⟩
    rw [he, hrev]
    exact if_neg (Nat.not_lt_of_le hle)

theorem object_putForExternalRead {e : CacheEntry Object}
    (h : (c.putForExternalRead key e).object k = some x) :
    c.object k = some x ∨ k = key ∧ x = e.object := by
  rcases eq_or_ne k key with rfl | hne
  · simp only [object, putForExternalRead, Function.update_self] at h
    cases hentry : c.entries k with
    | none =>
        rw [hentry] at h
        exact .inr ⟨rfl, (Option.some.inj h).symm⟩
    | some e' =>
        rw [hentry] at h
        left
        rw [object, hentry]
        exact h
  · simp only [object, putForExternalRead, Function.update_of_ne hne] at h
    exact .inl h

theorem object_addRevisioned {e : CacheEntry Object} {startup : Nat}
    (h : (c.addRevisioned key e startup).object k = some x) :
    c.object k = some x ∨ k = key ∧ x = e.object := by
  unfold addRevisioned at h
  dsimp only at h
  split at h
  · exact .inl h
  · split at h
    · exact object_putForExternalRead h
    · split at h
      · exact .inl h
      · exact object_putForExternalRead h

/-- An object loaded at the current revision of its key takes the place of none that
`get` returns. -/
theorem get_addRevisioned_of_get {startup : Nat} (h : c.get k = some x) :
    (c.addRevisioned key ⟨c.getCurrentRevision key, o⟩ startup).get k = some x := by
  obtain ⟨e, rev, hentry, hrev, hle, hobject⟩ := get_eq_some_iff.mp h
  refine get_eq_some_iff.mpr ⟨e, rev, ?_, ?_, hle, hobject⟩
  · unfold addRevisioned
    dsimp only
    split
    · exact hentry
    · rw [if_pos rfl]
      rcases eq_or_ne k key with rfl | hne
      · simp [putForExternalRead, putRevision, hentry]
      · simp [putForExternalRead, putRevision, hne, hentry]
  · have hrevisions : ∀ c' : ObjectCache Object, c'.revisions =
        (c.putRevision key (c.getCurrentRevision key)).revisions → c'.revisions k = some rev := by
      intro c' hc'
      rw [hc', putRevision]
      rcases eq_or_ne k key with rfl | hne
      · simp [getCurrentRevision, hrev]
      · simp [hne, hrev]
    unfold addRevisioned
    dsimp only
    split
    · exact hrevisions _ rfl
    · rw [if_pos rfl]
      exact hrevisions _ rfl

theorem get_addRevisioned_of_ne {e : CacheEntry Object} {startup : Nat} (hne : k ≠ key) :
    (c.addRevisioned key e startup).get k = c.get k := by
  have hput : ∀ (c : ObjectCache Object) rev, (c.putRevision key rev).get k = c.get k := by
    intro c rev
    simp [get, putRevision, hne]
  have hexternal : ∀ c : ObjectCache Object, (c.putForExternalRead key e).get k = c.get k := by
    intro c
    simp [get, putForExternalRead, hne]
  unfold addRevisioned
  dsimp only
  split
  · exact hput ..
  · split
    · rw [hexternal, hput]
    · split
      · exact hput ..
      · rw [hexternal, hput, hput]

theorem object_invalidateObject (h : (c.invalidateObject key).object k = some x) :
    k ≠ key ∧ c.object k = some x := by
  rcases eq_or_ne k key with rfl | hne
  · simp only [object, invalidateObject, Function.update_self] at h
    cases h
  · simp only [object, invalidateObject, Function.update_of_ne hne] at h
    exact ⟨hne, h⟩

theorem object_evictEntry (h : (c.evictEntry key).object k = some x) : c.object k = some x := by
  rcases eq_or_ne k key with rfl | hne
  · simp only [object, evictEntry, Function.update_self] at h
    cases h
  · simp only [object, evictEntry, Function.update_of_ne hne] at h
    exact h

theorem object_foldl_invalidateObject {keys : List String}
    (h : (keys.foldl invalidateObject c).object k = some x) :
    k ∉ keys ∧ c.object k = some x := by
  induction keys generalizing c with
  | nil => exact ⟨List.not_mem_nil, h⟩
  | cons key rest ih =>
      obtain ⟨hrest, hobject⟩ := ih h
      obtain ⟨hne, hobject⟩ := object_invalidateObject hobject
      exact ⟨by simp [hne, hrest], hobject⟩

end ObjectCache

end Keycloak.Cache
