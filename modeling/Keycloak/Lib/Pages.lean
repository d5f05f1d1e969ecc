import Mathlib.Data.List.Range
import Mathlib.Data.List.Nodup

/-!
# Pages of a list

The pages of a list when each has the same size, and what they have in common.
-/

namespace Pages

variable {α : Type*} {size count k : Nat} {l : List α} {x : α}

/-- The page with this number, counted from 0. -/
def page (size k : Nat) (l : List α) : List α := (l.drop (k * size)).take size

theorem mem_page (hsize : 0 < size) :
    x ∈ page size k l ↔ ∃ i : Nat, i / size = k ∧ l[i]? = some x := by
  unfold page
  rw [List.mem_iff_getElem?]
  constructor
  · rintro ⟨i, hi⟩
    rw [List.getElem?_take] at hi
    split at hi
    · rename_i hlt
      rw [List.getElem?_drop] at hi
      refine ⟨k * size + i, ?_, hi⟩
      rw [Nat.mul_comm, Nat.mul_add_div hsize, Nat.div_eq_of_lt hlt, Nat.add_zero]
    · cases hi
  · rintro ⟨i, rfl, hi⟩
    refine ⟨i % size, ?_⟩
    rw [List.getElem?_take, if_pos (Nat.mod_lt i hsize), List.getElem?_drop, Nat.mul_comm,
      Nat.div_add_mod]
    exact hi

theorem exists_mem_page_iff (hsize : 0 < size) :
    (∃ k < count, x ∈ page size k l) ↔ x ∈ l.take (count * size) := by
  rw [List.mem_iff_getElem?]
  constructor
  · rintro ⟨k, hk, hx⟩
    obtain ⟨i, rfl, hi⟩ := (mem_page hsize).mp hx
    refine ⟨i, ?_⟩
    rw [List.getElem?_take, if_pos ((Nat.div_lt_iff_lt_mul hsize).mp hk)]
    exact hi
  · rintro ⟨i, hi⟩
    rw [List.getElem?_take] at hi
    split at hi
    · rename_i hlt
      exact ⟨i / size, (Nat.div_lt_iff_lt_mul hsize).mpr hlt, (mem_page hsize).mpr ⟨i, rfl, hi⟩⟩
    · cases hi

theorem flatMap_page_range :
    ((List.range count).flatMap fun k => page size k l) = l.take (count * size) := by
  induction count with
  | zero => simp
  | succ count ih =>
      rw [List.range_succ, List.flatMap_append, ih, List.flatMap_singleton, page, Nat.succ_mul,
        List.take_add]

/-- Leaving out elements that are not at the front keeps the front. -/
theorem take_filter {n : Nat} {p : α → Bool} (hfront : ∀ x ∈ l.take n, p x = true) :
    (l.filter p).take n = l.take n := by
  induction n generalizing l with
  | zero => simp
  | succ n ih =>
      cases l with
      | nil => rfl
      | cons x rest =>
          have hx : p x = true := hfront x (by simp)
          have hrest : ∀ y ∈ rest.take n, p y = true := fun y hy => hfront y (by simp [hy])
          rw [List.filter_cons_of_pos hx, List.take_succ_cons, List.take_succ_cons, ih hrest]

theorem page_eq_drop_take : page size k l = (l.take (k * size + size)).drop (k * size) := by
  rw [List.drop_take, Nat.add_sub_cancel_left, page]

/-- Leaving out elements that are not on the first pages keeps these pages. -/
theorem page_filter {p : α → Bool} (hsize : 0 < size)
    (hfront : ∀ j < count, ∀ x ∈ page size j l, p x = true) (hk : k < count) :
    page size k (l.filter p) = page size k l := by
  have hle : k * size + size ≤ count * size := by
    rw [← Nat.succ_mul]
    exact Nat.mul_le_mul_right size hk
  rw [page_eq_drop_take, page_eq_drop_take, take_filter]
  intro x hx
  have hx' : x ∈ l.take (count * size) := (List.take_subset_take_left l hle) hx
  obtain ⟨j, hj, hx⟩ := (exists_mem_page_iff hsize).mpr hx'
  exact hfront j hj x hx

def Apart (size : Nat) (l : List α) : Prop :=
  ∀ (i j : Nat) (x : α), l[i]? = some x → l[j]? = some x → i / size = j / size

/-- A list with one page. -/
theorem Apart.of_length_le (h : l.length ≤ size) : Apart size l := by
  intro i j x hi hj
  obtain ⟨hi, -⟩ := List.getElem?_eq_some_iff.mp hi
  obtain ⟨hj, -⟩ := List.getElem?_eq_some_iff.mp hj
  rw [Nat.div_eq_of_lt (hi.trans_le h), Nat.div_eq_of_lt (hj.trans_le h)]

/-- When each page stands for its elements, once each, all pages together have no element twice
exactly if equal elements are on one page. -/
theorem nodup_flatMap_iff (hsize : 0 < size) {f : Nat → List α}
    (hnodup : ∀ k < count, (f k).Nodup)
    (hmem : ∀ k < count, ∀ x, x ∈ f k ↔ x ∈ page size k l) :
    ((List.range count).flatMap f).Nodup ↔ Apart size (l.take (count * size)) := by
  have hindex {i : Nat} {x : α} (hi : (l.take (count * size))[i]? = some x) :
      i / size < count ∧ x ∈ f (i / size) := by
    rw [List.getElem?_take] at hi
    split at hi
    · rename_i hlt
      have hk := (Nat.div_lt_iff_lt_mul hsize).mpr hlt
      exact ⟨hk, (hmem _ hk x).mpr ((mem_page hsize).mpr ⟨i, rfl, hi⟩)⟩
    · cases hi
  have hplace {k : Nat} {x : α} (hk : k < count) (hx : x ∈ f k) :
      ∃ i : Nat, i / size = k ∧ (l.take (count * size))[i]? = some x := by
    obtain ⟨i, rfl, hi⟩ := (mem_page hsize).mp ((hmem k hk x).mp hx)
    refine ⟨i, rfl, ?_⟩
    rw [List.getElem?_take, if_pos ((Nat.div_lt_iff_lt_mul hsize).mp hk)]
    exact hi
  rw [List.nodup_flatMap]
  constructor
  · rintro ⟨-, hdisjoint⟩ i j x hi hj
    obtain ⟨hilt, hif⟩ := hindex hi
    obtain ⟨hjlt, hjf⟩ := hindex hj
    by_contra hne
    have : Std.Symm (Function.onFun List.Disjoint f) := ⟨fun _ _ h _ hx hx' => h hx' hx⟩
    have hpages := hdisjoint.forall (List.mem_range.mpr hilt) (List.mem_range.mpr hjlt) hne
    exact hpages hif hjf
  · intro hapart
    refine ⟨fun k hk => hnodup k (List.mem_range.mp hk), ?_⟩
    refine List.nodup_range.pairwise_of_forall_ne fun k hk k' hk' hne x hx hx' => hne ?_
    obtain ⟨i, rfl, hi⟩ := hplace (List.mem_range.mp hk) hx
    obtain ⟨j, rfl, hj⟩ := hplace (List.mem_range.mp hk') hx'
    exact hapart i j x hi hj

end Pages
