import Mathlib.Data.List.Nodup
import Mathlib.Data.List.Perm.Subperm
import Mathlib.Logic.Function.Basic
import Mathlib.Logic.Relation

/-!
# Parent links and the recursions along them

A table of parent links is a partial function; it is a forest when no node is a
proper ancestor of itself.  Taking links away keeps a forest, and so does hanging a
node below another one that is not in its own subtree.

The second half is about fuelled recursions along an acyclic relation between
numbers below a bound: the nodes on the current path are distinct, so as much fuel
as there are numbers is never used up.
-/

namespace ParentWalk

open Relation

section Links

variable {α : Type*}

def IsParent (parent : α → Option α) (a p : α) : Prop :=
  parent a = some p

/-- No node is a proper ancestor of itself. -/
def Acyclic (parent : α → Option α) : Prop :=
  ∀ a, ¬ TransGen (IsParent parent) a a

theorem Acyclic.mono {parent parent' : α → Option α} (h : Acyclic parent)
    (hsub : ∀ a p, parent' a = some p → parent a = some p) : Acyclic parent' :=
  fun a hcycle => h a (TransGen.mono hsub a a hcycle)

theorem acyclic_of_no_links {parent : α → Option α} (h : ∀ a, parent a = none) :
    Acyclic parent := by
  intro a hcycle
  cases hcycle with
  | single hlink => simp [IsParent, h] at hlink
  | tail _ hlink => simp [IsParent, h] at hlink

/-- Links that go to smaller numbers close no cycle. -/
theorem acyclic_of_lt {parent : Nat → Option Nat} (h : ∀ a p, parent a = some p → p < a) :
    Acyclic parent := by
  have hlt : ∀ a p, TransGen (IsParent parent) a p → p < a := by
    intro a p hreach
    induction hreach with
    | single hlink => exact h _ _ hlink
    | tail _ hlink ih => exact Nat.lt_trans (h _ _ hlink) ih
  exact fun a hcycle => Nat.lt_irrefl a (hlt a a hcycle)

variable [DecidableEq α]

/-- A path through the table with the new link is an old path, or it goes down to the
moved node on old links and comes out of its new parent on old links. -/
theorem transGen_update {parent : α → Option α} {child p x y : α}
    (hnot : ¬ ReflTransGen (IsParent parent) p child)
    (hpath : TransGen (IsParent (Function.update parent child (some p))) x y) :
    TransGen (IsParent parent) x y ∨
      (ReflTransGen (IsParent parent) x child ∧ ReflTransGen (IsParent parent) p y) := by
  -- one link of the new table: the new one, or an old one
  have hlink : ∀ {y z}, IsParent (Function.update parent child (some p)) y z →
      (y = child ∧ z = p) ∨ IsParent parent y z := by
    intro y z hyz
    rcases eq_or_ne y child with rfl | hne
    · rw [IsParent, Function.update_self, Option.some.injEq] at hyz
      exact .inl ⟨rfl, hyz.symm⟩
    · rw [IsParent, Function.update_of_ne hne] at hyz
      exact .inr hyz
  induction hpath with
  | single hyz =>
      rcases hlink hyz with ⟨rfl, rfl⟩ | hold
      · exact .inr ⟨.refl, .refl⟩
      · exact .inl (.single hold)
  | tail _ hyz ih =>
      rcases hlink hyz with ⟨rfl, rfl⟩ | hold
      · rcases ih with hxy | ⟨_, hpy⟩
        · exact .inr ⟨hxy.to_reflTransGen, .refl⟩
        · exact absurd hpy hnot
      · rcases ih with hxy | ⟨hxc, hpy⟩
        · exact .inl (hxy.tail hold)
        · exact .inr ⟨hxc, hpy.tail hold⟩

/-- Hanging a node below one that is not in its subtree keeps a forest. -/
theorem Acyclic.update_some {parent : α → Option α} {child p : α} (h : Acyclic parent)
    (hnot : ¬ ReflTransGen (IsParent parent) p child) :
    Acyclic (Function.update parent child (some p)) := by
  intro a hcycle
  rcases transGen_update hnot hcycle with hold | ⟨hac, hpa⟩
  · exact h a hold
  · exact hnot (hpa.trans hac)

/-- Making a node a root keeps a forest. -/
theorem Acyclic.update_none {parent : α → Option α} {child : α} (h : Acyclic parent) :
    Acyclic (Function.update parent child none) := by
  refine h.mono fun a p hlink => ?_
  rcases eq_or_ne a child with rfl | hne
  · simp at hlink
  · rwa [Function.update_of_ne hne] at hlink

/-- A path that ends in a node does not use the link out of that node. -/
theorem reflTransGen_update {parent : α → Option α} {child x : α} (q : Option α)
    (hreach : ReflTransGen (IsParent parent) x child) :
    ReflTransGen (IsParent (Function.update parent child q)) x child := by
  induction hreach using ReflTransGen.head_induction_on with
  | refl => exact .refl
  | @head x y hlink _ ih =>
      rcases eq_or_ne x child with rfl | hne
      · exact .refl
      · refine .head ?_ ih
        rwa [IsParent, Function.update_of_ne hne]

/-- Hanging a node below one of its descendants closes a cycle through the node. -/
theorem cycle_of_update {parent : α → Option α} {child p : α}
    (hreach : ReflTransGen (IsParent parent) p child) :
    TransGen (IsParent (Function.update parent child (some p))) child child :=
  .head' (Function.update_self ..) (reflTransGen_update (some p) hreach)

end Links

section Recursion

/-- A fuelled recursion along an acyclic relation between numbers below `n` is within
its fuel when that is at least `n`.  What is carried through the recursion is the
path that leads to the current node. -/
theorem recursion_within {R : Nat → Nat → Prop} {n : Nat} {P : Nat → Nat → Prop}
    (hacyclic : ∀ a, ¬ TransGen R a a) (hbound : ∀ a b, R a b → b < n)
    (hstep : ∀ fuel a, (∀ b, R a b → P fuel b) → P (fuel + 1) a)
    {a fuel : Nat} (ha : a < n) (hfuel : n ≤ fuel) : P fuel a := by
  suffices hpath : ∀ (fuel : Nat) (path : List Nat) (a : Nat), path.Nodup →
      (∀ x ∈ path, x < n) → (∀ x ∈ path, TransGen R x a) → a < n →
      n ≤ fuel + path.length → P fuel a by
    exact hpath fuel [] a List.nodup_nil (by simp) (by simp) ha (by simpa using hfuel)
  intro fuel
  induction fuel with
  | zero =>
      intro path a hnodup hlt hreach ha hlen
      have hfresh : a ∉ path := fun hmem => hacyclic a (hreach a hmem)
      have hsub : a :: path ⊆ List.range n := by
        intro x hx
        rcases List.mem_cons.mp hx with rfl | hmem
        · exact List.mem_range.mpr ha
        · exact List.mem_range.mpr (hlt x hmem)
      have hle := ((hnodup.cons hfresh).subperm hsub).length_le
      rw [List.length_cons, List.length_range] at hle
      omega
  | succ fuel ih =>
      intro path a hnodup hlt hreach ha hlen
      have hfresh : a ∉ path := fun hmem => hacyclic a (hreach a hmem)
      refine hstep fuel a fun b hab => ?_
      refine ih (a :: path) b (hnodup.cons hfresh) ?_ ?_ (hbound a b hab) ?_
      · intro x hx
        rcases List.mem_cons.mp hx with rfl | hmem
        · exact ha
        · exact hlt x hmem
      · intro x hx
        rcases List.mem_cons.mp hx with rfl | hmem
        · exact .single hab
        · exact (hreach x hmem).tail hab
      · rw [List.length_cons]
        omega

variable {parent : Nat → Option Nat} {n : Nat} {P : Nat → Nat → Prop}

/-- Recursion from a node to its parent. -/
theorem Acyclic.upward (h : Acyclic parent) (hbound : ∀ a p, parent a = some p → p < n)
    (hstep : ∀ fuel a, (∀ p, parent a = some p → P fuel p) → P (fuel + 1) a)
    {a fuel : Nat} (ha : a < n) (hfuel : n ≤ fuel) : P fuel a :=
  recursion_within h hbound hstep ha hfuel

/-- Recursion from a node to its children. -/
theorem Acyclic.downward (h : Acyclic parent) (hbound : ∀ a p, parent a = some p → a < n)
    (hstep : ∀ fuel a, (∀ c, parent c = some a → P fuel c) → P (fuel + 1) a)
    {a fuel : Nat} (ha : a < n) (hfuel : n ≤ fuel) : P fuel a := by
  refine recursion_within (R := fun a c => parent c = some a) ?_
    (fun a c hlink => hbound c a hlink) hstep ha hfuel
  intro a hcycle
  exact h a (transGen_swap.mp hcycle)

end Recursion

end ParentWalk
