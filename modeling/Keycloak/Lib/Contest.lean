import Mathlib.Data.List.Perm.Subperm
import Mathlib.Data.List.Nodup
import Mathlib.Data.List.Induction

/-!
# Contests

A scan over candidates whose result comes from the first that is found at once, or else from the
last that hits, from the last of a second register, or from the highest of a third one.  What a
candidate does depends on the highest level in front of it.

The result is the same for all orders of the candidates exactly when one of them outranks all
others wherever they stand, or none of them does anything.
-/

structure Contest (α : Type*) where
  level : α → Nat
  /-- A hit, given the highest level so far. -/
  hits : α → Nat → Bool
  second : α → Nat → Bool
  /-- A candidate for the third register, when it is matched or its level is the highest. -/
  wild : α → Bool
  matched : α → Bool
  height : α → Nat
  /-- The bid of a candidate whose level is the highest; otherwise it is its height. -/
  bound : α → Nat

namespace Contest

variable {α : Type*} (C : Contest α)

def count : List α → Nat
  | [] => 0
  | p :: rest => max (C.level p) (count rest)

def third (p : α) (c : Nat) : Bool := C.wild p && (decide (c < C.level p) || C.matched p)

def bid (p : α) (c : Nat) : Nat := if c < C.level p then C.bound p else C.height p

/-- A hit where no level has been seen is returned at once. -/
def returns (p : α) (c : Nat) : Bool := C.hits p c && decide (max c (C.level p) = 0)

/-! ## The registers -/

def firstReturn : Nat → List α → Option α
  | _, [] => none
  | c, p :: rest =>
      if C.returns p c then some p else firstReturn (max c (C.level p)) rest

def last (w : α → Nat → Bool) : Nat → List α → Option α → Option α
  | _, [], register => register
  | c, p :: rest, register =>
      last w (max c (C.level p)) rest (if w p c then some p else register)

def highest : Nat → List α → Option α → Option α
  | _, [], register => register
  | c, p :: rest, register =>
      highest (max c (C.level p)) rest
        (if C.third p c ∧ ∀ q ∈ register, C.height q < C.bid p c then some p else register)

def answer (order : List α) : Option α :=
  (C.firstReturn 0 order).or ((C.last C.hits 0 order none).or
    ((C.last C.second 0 order none).or (C.highest 0 order none)))

def Along (P : α → Nat → Prop) : Nat → List α → Prop
  | _, [] => True
  | c, p :: rest => P p c ∧ Along P (max c (C.level p)) rest

def rank (p : α) (c : Nat) : Nat :=
  if C.hits p c then (if max c (C.level p) = 0 then 4 else 3)
  else if C.second p c then 2
  else if C.third p c then 1
  else 0

/-! ## What decides -/

/-- A highest level that is met with at most one candidate, which is none of `apart`. -/
def Met (entries apart : List α) (c : Nat) : Prop :=
  c = 0 ∨ ∃ q ∈ entries, q ∉ apart ∧ C.level q = c

/-- The candidate counts, and more than each other one, whatever the highest levels are. -/
structure Wins (entries : List α) (m : α) : Prop where
  mem : m ∈ entries
  ranked : ∀ c, C.Met entries [m] c → 1 ≤ C.rank m c
  earlier : ∀ p ∈ entries, p ≠ m → ∀ k c, C.Met entries [p, m] k → C.Met entries [p, m] c →
    k ≤ c → C.rank p k ≠ 4 ∧ C.rank p k ≤ C.rank m (max c (C.level p))
  later : ∀ p ∈ entries, p ≠ m → ∀ k c, C.Met entries [m, p] k → C.Met entries [m, p] c →
    k ≤ c → C.rank m k ≠ 4 → C.rank p (max c (C.level m)) ≤ C.rank m k ∧
      (2 ≤ C.rank m k → C.rank p (max c (C.level m)) < C.rank m k)
  /-- In the third register nobody outbids it. -/
  kept : ∀ p ∈ entries, p ≠ m → ∀ k c, C.Met entries [m, p] k → C.Met entries [m, p] c →
    k ≤ c → C.rank m k = 1 → C.third p (max c (C.level m)) = true →
      C.bid p (max c (C.level m)) ≤ C.height m
  /-- In the third register it outbids a candidate that stands in front of it. -/
  outbids : ∀ q ∈ entries, q ≠ m → C.third q 0 = true → C.rank m (C.level q) = 1 →
    C.height q < C.bid m (C.level q)
  /-- It outbids a candidate that one with a higher level has not driven out. -/
  outbidsBehind : ∀ q ∈ entries, ∀ t ∈ entries, q ≠ m → t ≠ m → C.third q 0 = true →
    C.level q < C.level t →
    (C.matched q = true ∨ C.wild t = false ∨ C.bound t ≤ C.height q) →
      C.rank m (C.level t) = 1 → C.height q < C.bid m (C.level t)

def Idle (entries : List α) : Prop :=
  ∀ p ∈ entries, ∀ c, C.Met entries [p] c → C.rank p c = 0

/-- Different candidates that stand one behind the other. -/
def Arranged (entries l : List α) : Prop := l.Nodup ∧ l ⊆ entries

structure Decides (before : List α) (m : α) (after : List α) : Prop where
  ranked : 1 ≤ C.rank m (C.count before)
  earlier : C.Along (fun p k => C.rank p k ≠ 4 ∧ C.rank p k ≤ C.rank m (C.count before)) 0 before
  later : C.rank m (C.count before) ≠ 4 →
    C.Along (fun p k => C.rank p k ≤ C.rank m (C.count before) ∧
      (2 ≤ C.rank m (C.count before) → C.rank p k < C.rank m (C.count before)))
      (max (C.count before) (C.level m)) after
  kept : C.rank m (C.count before) = 1 →
    C.Along (fun p k => C.third p k = true → C.bid p k ≤ C.height m)
      (max (C.count before) (C.level m)) after
  outbids : C.rank m (C.count before) = 1 → ∀ q, C.highest 0 before none = some q →
    C.height q < C.bid m (C.count before)

variable {C}

/-! ## Levels along an order -/

theorem count_append (l l' : List α) : C.count (l ++ l') = max (C.count l) (C.count l') := by
  induction l with
  | nil => rw [List.nil_append, count, Nat.zero_max]
  | cons p rest ih => rw [List.cons_append, count, ih, count, Nat.max_assoc]

theorem count_singleton (p : α) : C.count [p] = C.level p := Nat.max_zero _

theorem count_concat (l : List α) (p : α) : C.count (l ++ [p]) = max (C.count l) (C.level p) := by
  rw [count_append, count_singleton]

theorem level_le_count {l : List α} {p : α} (h : p ∈ l) : C.level p ≤ C.count l := by
  induction l with
  | nil => cases h
  | cons q rest ih =>
      rw [count]
      rcases List.mem_cons.mp h with rfl | h
      · exact Nat.le_max_left _ _
      · exact Nat.le_trans (ih h) (Nat.le_max_right _ _)

theorem exists_level_eq {l : List α} (h : 0 < C.count l) : ∃ p ∈ l, C.level p = C.count l := by
  induction l with
  | nil => exact absurd h (Nat.lt_irrefl 0)
  | cons q rest ih =>
      rw [count] at h ⊢
      by_cases hle : C.count rest ≤ C.level q
      · exact ⟨q, List.mem_cons_self, (Nat.max_eq_left hle).symm⟩
      · have hlt := Nat.not_le.mp hle
        obtain ⟨p, hp, heq⟩ := ih (Nat.lt_of_le_of_lt (Nat.zero_le _) hlt)
        exact ⟨p, List.mem_cons_of_mem q hp, heq.trans (Nat.max_eq_right (Nat.le_of_lt hlt)).symm⟩

theorem along_append {P : α → Nat → Prop} {c : Nat} (l l' : List α) :
    C.Along P c (l ++ l') ↔ C.Along P c l ∧ C.Along P (max c (C.count l)) l' := by
  induction l generalizing c with
  | nil => rw [List.nil_append, Along, true_and, count, Nat.max_zero]
  | cons p rest ih => rw [List.cons_append, Along, Along, ih, count, and_assoc, Nat.max_assoc]

theorem along_iff {P : α → Nat → Prop} {c : Nat} {l : List α} :
    C.Along P c l ↔ ∀ before p after, l = before ++ p :: after → P p (max c (C.count before)) := by
  induction l generalizing c with
  | nil =>
      refine iff_of_true trivial fun before p after h => ?_
      cases before <;> cases h
  | cons q rest ih =>
      rw [Along, ih]
      constructor
      · intro h before p after heq
        cases before with
        | nil =>
            cases heq
            rw [count, Nat.max_zero]
            exact h.1
        | cons r before =>
            cases heq
            rw [count, ← Nat.max_assoc]
            exact h.2 before p after rfl
      · intro h
        constructor
        · have hfirst := h [] q rest rfl
          rw [count, Nat.max_zero] at hfirst
          exact hfirst
        · intro before p after heq
          have hnext := h (q :: before) p after (by rw [heq]; rfl)
          rw [count, ← Nat.max_assoc] at hnext
          exact hnext

theorem Along.mono {P Q : α → Nat → Prop} {c : Nat} {l : List α} (h : C.Along P c l)
    (hPQ : ∀ p k, P p k → Q p k) : C.Along Q c l := by
  rw [along_iff] at h ⊢
  exact fun before p after heq => hPQ _ _ (h before p after heq)

/-! ## The registers along an order -/

theorem firstReturn_eq_none {c : Nat} {l : List α} :
    C.firstReturn c l = none ↔ C.Along (fun p k => C.returns p k = false) c l := by
  induction l generalizing c with
  | nil => exact iff_of_true rfl trivial
  | cons p rest ih =>
      rw [firstReturn, Along]
      cases hreturns : C.returns p c with
      | true => simp
      | false =>
          rw [if_neg Bool.false_ne_true, ih]
          exact (and_iff_right rfl).symm

theorem mem_of_firstReturn {c : Nat} {l : List α} {p : α} (h : C.firstReturn c l = some p) :
    p ∈ l := by
  induction l generalizing c with
  | nil => cases h
  | cons q rest ih =>
      rw [firstReturn] at h
      split at h
      · cases h
        exact List.mem_cons_self
      · exact List.mem_cons_of_mem q (ih h)

theorem firstReturn_append {c : Nat} (l l' : List α) : C.firstReturn c (l ++ l') =
    (C.firstReturn c l).or (C.firstReturn (max c (C.count l)) l') := by
  induction l generalizing c with
  | nil => rw [List.nil_append, firstReturn, Option.none_or, count, Nat.max_zero]
  | cons p rest ih =>
      rw [List.cons_append, firstReturn, firstReturn]
      split
      · rfl
      · rw [ih, count, Nat.max_assoc]

theorem last_append {w : α → Nat → Bool} {c : Nat} (l l' : List α) (register : Option α) :
    C.last w c (l ++ l') register =
      C.last w (max c (C.count l)) l' (C.last w c l register) := by
  induction l generalizing c register with
  | nil => rw [List.nil_append, last, count, Nat.max_zero]
  | cons p rest ih => rw [List.cons_append, last, last, ih, count, Nat.max_assoc]

theorem highest_append {c : Nat} (l l' : List α) (register : Option α) :
    C.highest c (l ++ l') register =
      C.highest (max c (C.count l)) l' (C.highest c l register) := by
  induction l generalizing c register with
  | nil => rw [List.nil_append, highest, count, Nat.max_zero]
  | cons p rest ih => rw [List.cons_append, highest, highest, ih, count, Nat.max_assoc]

theorem last_cases {w : α → Nat → Bool} {c : Nat} (l : List α) (register : Option α) :
    C.Along (fun p k => w p k = false) c l ∧ C.last w c l register = register ∨
      ¬ C.Along (fun p k => w p k = false) c l ∧ ∃ p ∈ l, C.last w c l register = some p := by
  induction l generalizing c register with
  | nil => exact .inl ⟨trivial, rfl⟩
  | cons p rest ih =>
      rw [Along, last]
      obtain ⟨halong, heq⟩ | ⟨halong, q, hq, heq⟩ :=
        ih (c := max c (C.level p)) (if w p c then some p else register)
      · cases hw : w p c with
        | true =>
            rw [hw, if_pos rfl] at heq
            rw [if_pos rfl]
            exact .inr ⟨fun h => Bool.noConfusion h.1, p, List.mem_cons_self, heq⟩
        | false =>
            rw [hw, if_neg Bool.false_ne_true] at heq
            rw [if_neg Bool.false_ne_true]
            exact .inl ⟨⟨rfl, halong⟩, heq⟩
      · exact .inr ⟨fun h => halong h.2, q, List.mem_cons_of_mem p hq, heq⟩

theorem last_eq_none {w : α → Nat → Bool} {c : Nat} {l : List α} :
    C.last w c l none = none ↔ C.Along (fun p k => w p k = false) c l := by
  rcases C.last_cases l none with ⟨halong, heq⟩ | ⟨halong, p, -, heq⟩
  · exact iff_of_true heq halong
  · rw [heq]
    exact iff_of_false (fun h => by cases h) halong

theorem highest_cases {c : Nat} (l : List α) (register : Option α) :
    C.highest c l register = register ∨ ∃ p ∈ l, C.highest c l register = some p := by
  induction l generalizing c register with
  | nil => exact .inl rfl
  | cons p rest ih =>
      rw [highest]
      rcases ih (c := max c (C.level p)) (if C.third p c ∧ ∀ q ∈ register,
        C.height q < C.bid p c then some p else register) with heq | ⟨q, hq, heq⟩
      · by_cases hbid : C.third p c = true ∧ ∀ q ∈ register, C.height q < C.bid p c
        · rw [if_pos hbid] at heq ⊢
          exact .inr ⟨p, List.mem_cons_self, heq⟩
        · rw [if_neg hbid] at heq ⊢
          exact .inl heq
      · exact .inr ⟨q, List.mem_cons_of_mem p hq, heq⟩

theorem highest_eq_self {c : Nat} {l : List α} {m : α} (h : m ∉ l) :
    C.highest c l (some m) = some m ↔
      C.Along (fun p k => C.third p k = true → C.bid p k ≤ C.height m) c l := by
  induction l generalizing c with
  | nil => exact iff_of_true rfl trivial
  | cons p rest ih =>
      have hrest : m ∉ rest := fun hmem => h (List.mem_cons_of_mem p hmem)
      rw [highest, Along]
      by_cases hbid : C.third p c = true ∧ ∀ q ∈ some m, C.height q < C.bid p c
      · rw [if_pos hbid]
        refine iff_of_false (fun heq => ?_) fun hall => ?_
        · rcases C.highest_cases rest (some p) with hp | ⟨q, hq, hother⟩
          · rw [hp, Option.some.injEq] at heq
            exact h (heq ▸ List.mem_cons_self)
          · rw [hother, Option.some.injEq] at heq
            exact hrest (heq ▸ hq)
        · exact Nat.not_lt.mpr (hall.1 hbid.1) (hbid.2 m rfl)
      · rw [if_neg hbid, ih hrest, iff_and_self]
        intro _ hthird
        by_contra hlt
        refine hbid ⟨hthird, fun q hq => ?_⟩
        cases hq
        exact Nat.not_le.mp hlt

section

variable {before after : List α} {m : α}

theorem firstReturn_eq_some (hbefore : m ∉ before) (hafter : m ∉ after) :
    C.firstReturn 0 (before ++ m :: after) = some m ↔
      C.Along (fun p k => C.returns p k = false) 0 before ∧
        C.returns m (C.count before) = true := by
  rw [firstReturn_append, Option.or_eq_some_iff, ← firstReturn_eq_none, Nat.zero_max, firstReturn]
  constructor
  · rintro (hfound | ⟨hnone, hfound⟩)
    · exact absurd (mem_of_firstReturn hfound) hbefore
    · refine ⟨hnone, ?_⟩
      split at hfound
      · assumption
      · exact absurd (mem_of_firstReturn hfound) hafter
  · rintro ⟨hnone, hreturns⟩
    rw [if_pos hreturns]
    exact .inr ⟨hnone, rfl⟩

theorem last_eq_some {w : α → Nat → Bool} (hbefore : m ∉ before) (hafter : m ∉ after) :
    C.last w 0 (before ++ m :: after) none = some m ↔ w m (C.count before) = true ∧
      C.Along (fun p k => w p k = false) (max (C.count before) (C.level m)) after := by
  rw [last_append, Nat.zero_max, last]
  rcases C.last_cases after (if w m (C.count before) then some m else C.last w 0 before none) with
    ⟨halong, heq⟩ | ⟨halong, p, hp, heq⟩
  · rw [heq, and_iff_left halong]
    cases hw : w m (C.count before) with
    | true => exact iff_of_true rfl rfl
    | false =>
        refine iff_of_false (fun hm => ?_) Bool.false_ne_true
        rw [if_neg Bool.false_ne_true] at hm
        rcases C.last_cases before none with ⟨-, hnone⟩ | ⟨-, q, hq, hsome⟩
        · rw [hnone] at hm
          cases hm
        · rw [hsome, Option.some.injEq] at hm
          exact hbefore (hm ▸ hq)
  · rw [heq]
    refine iff_of_false (fun hm => ?_) fun h => halong h.2
    exact hafter (Option.some.inj hm ▸ hp)

theorem highest_eq_some (hbefore : m ∉ before) (hafter : m ∉ after) :
    C.highest 0 (before ++ m :: after) none = some m ↔
      (C.third m (C.count before) = true ∧ ∀ q, C.highest 0 before none = some q →
        C.height q < C.bid m (C.count before)) ∧
      C.Along (fun p k => C.third p k = true → C.bid p k ≤ C.height m)
        (max (C.count before) (C.level m)) after := by
  rw [highest_append, Nat.zero_max, highest]
  by_cases hbid : C.third m (C.count before) = true ∧
      ∀ q ∈ C.highest 0 before none, C.height q < C.bid m (C.count before)
  · rw [if_pos hbid, highest_eq_self hafter]
    exact (and_iff_right hbid).symm
  · rw [if_neg hbid]
    refine iff_of_false (fun hm => ?_) fun h => hbid h.1
    rcases C.highest_cases after (C.highest 0 before none) with heq | ⟨q, hq, heq⟩
    · rw [heq] at hm
      rcases C.highest_cases before none with hnone | ⟨q, hq, hsome⟩
      · rw [hnone] at hm
        cases hm
      · rw [hsome, Option.some.injEq] at hm
        exact hbefore (hm ▸ hq)
    · rw [heq, Option.some.injEq] at hm
      exact hafter (hm ▸ hq)

/-! ## Ranks -/

theorem rank_cases (p : α) (c : Nat) :
    C.rank p c = 4 ∧ C.returns p c = true ∧ C.hits p c = true ∨
    C.rank p c = 3 ∧ C.returns p c = false ∧ C.hits p c = true ∨
    C.rank p c = 2 ∧ C.returns p c = false ∧ C.hits p c = false ∧ C.second p c = true ∨
    C.rank p c = 1 ∧ C.returns p c = false ∧ C.hits p c = false ∧ C.second p c = false ∧
      C.third p c = true ∨
    C.rank p c = 0 ∧ C.returns p c = false ∧ C.hits p c = false ∧ C.second p c = false ∧
      C.third p c = false := by
  rw [rank, returns]
  cases C.hits p c with
  | true => by_cases hzero : max c (C.level p) = 0 <;> simp [hzero]
  | false => cases C.second p c <;> cases C.third p c <;> simp

theorem returns_eq_false {p : α} {c : Nat} : C.returns p c = false ↔ C.rank p c ≠ 4 := by
  rcases C.rank_cases p c with h | h | h | h | h <;> simp [h.1, h.2.1]

theorem hits_eq_false {p : α} {c : Nat} : C.hits p c = false ↔ C.rank p c ≤ 2 := by
  rcases C.rank_cases p c with h | h | h | h | h <;> simp [h.1, h.2.2]

theorem second_eq_false {p : α} {c : Nat} (h : C.rank p c ≤ 2) :
    C.second p c = false ↔ C.rank p c ≤ 1 := by
  rcases C.rank_cases p c with h' | h' | h' | h' | h'
  · omega
  · omega
  · simp [h'.1, h'.2.2.2]
  · simp [h'.1, h'.2.2.2]
  · simp [h'.1, h'.2.2.2]

theorem along_order {P : α → Nat → Prop} : C.Along P 0 (before ++ m :: after) ↔
    C.Along P 0 before ∧ P m (C.count before) ∧
      C.Along P (max (C.count before) (C.level m)) after := by
  rw [along_append, Nat.zero_max, Along]

theorem rank_le_four (p : α) (c : Nat) : C.rank p c ≤ 4 := by
  rcases C.rank_cases p c with h | h | h | h | h <;> omega

theorem Along.and {P Q : α → Nat → Prop} {c : Nat} {l : List α} (h : C.Along P c l)
    (h' : C.Along Q c l) : C.Along (fun p k => P p k ∧ Q p k) c l := by
  rw [along_iff] at h h' ⊢
  exact fun before p after heq => ⟨h before p after heq, h' before p after heq⟩

/-- The answer, register by register. -/
theorem answer_registers (hbefore : m ∉ before) (hafter : m ∉ after) :
    C.answer (before ++ m :: after) = some m ↔
      (C.Along (fun p k => C.rank p k ≠ 4) 0 before ∧ C.rank m (C.count before) = 4) ∨
      (C.Along (fun p k => C.rank p k ≠ 4) 0 before ∧ C.rank m (C.count before) ≠ 4 ∧
          C.Along (fun p k => C.rank p k ≠ 4) (max (C.count before) (C.level m)) after) ∧
        ((3 ≤ C.rank m (C.count before) ∧
            C.Along (fun p k => C.rank p k ≤ 2) (max (C.count before) (C.level m)) after) ∨
        (C.Along (fun p k => C.rank p k ≤ 2) 0 before ∧ C.rank m (C.count before) ≤ 2 ∧
            C.Along (fun p k => C.rank p k ≤ 2) (max (C.count before) (C.level m)) after) ∧
          ((C.second m (C.count before) = true ∧ C.Along (fun p k => C.second p k = false)
              (max (C.count before) (C.level m)) after) ∨
          (C.Along (fun p k => C.second p k = false) 0 before ∧
              C.second m (C.count before) = false ∧ C.Along (fun p k => C.second p k = false)
              (max (C.count before) (C.level m)) after) ∧
            C.highest 0 (before ++ m :: after) none = some m)) := by
  have hreturns : C.returns m (C.count before) = true ↔ C.rank m (C.count before) = 4 := by
    rw [← Bool.not_eq_false, returns_eq_false, not_not]
  have hhits : C.hits m (C.count before) = true ↔ 3 ≤ C.rank m (C.count before) := by
    rw [← Bool.not_eq_false, hits_eq_false, Nat.not_le]
    rfl
  rw [answer, Option.or_eq_some_iff, Option.or_eq_some_iff, Option.or_eq_some_iff,
    firstReturn_eq_some hbefore hafter, firstReturn_eq_none, last_eq_some hbefore hafter,
    last_eq_none, last_eq_some hbefore hafter, last_eq_none, along_order, along_order,
    along_order, hreturns, hhits]
  simp only [returns_eq_false, hits_eq_false]

/-- Ranks of at most two without a second register are at most one. -/
theorem along_le_one {c : Nat} {l : List α} (h : C.Along (fun p k => C.rank p k ≤ 2) c l) :
    C.Along (fun p k => C.second p k = false) c l ↔ C.Along (fun p k => C.rank p k ≤ 1) c l := by
  constructor
  · intro hsecond
    exact (h.and hsecond).mono fun p k hp => (second_eq_false hp.1).mp hp.2
  · intro hone
    exact hone.mono fun p k hp => (second_eq_false (by omega)).mpr hp

/-- A candidate is the answer exactly when it decides the order. -/
theorem answer_eq_some (hbefore : m ∉ before) (hafter : m ∉ after) :
    C.answer (before ++ m :: after) = some m ↔ C.Decides before m after := by
  rw [answer_registers hbefore hafter]
  rcases C.rank_cases m (C.count before) with h | h | h | h | h
  · -- it is returned at once
    constructor
    · rintro (⟨hearlier, -⟩ | ⟨⟨-, hne, -⟩, -⟩)
      · exact ⟨by omega, hearlier.mono fun p k hp => ⟨hp, h.1 ▸ C.rank_le_four p k⟩,
          fun hne => absurd h.1 hne, fun hone => by omega, fun hone => by omega⟩
      · exact absurd h.1 hne
    · exact fun hdecides => .inl ⟨hdecides.earlier.mono fun p k hp => hp.1, h.1⟩
  · -- it is the last that hits
    constructor
    · rintro (⟨-, hfour⟩ | ⟨⟨hearlier, hne, -⟩, ⟨-, hlater⟩ | ⟨⟨-, hle, -⟩, -⟩⟩)
      · omega
      · refine ⟨by omega, hearlier.mono fun p k hp => ⟨hp, ?_⟩, fun _ =>
          hlater.mono fun p k hp => by omega, fun hone => by omega, fun hone => by omega⟩
        have hfour := C.rank_le_four p k
        omega
      · omega
    · intro hdecides
      have hlater : C.Along (fun p k => C.rank p k ≤ 2) _ after :=
        (hdecides.later (by omega)).mono fun p k hp => by omega
      exact .inr ⟨⟨hdecides.earlier.mono fun p k hp => hp.1, by omega,
        hlater.mono fun p k hp => by omega⟩, .inl ⟨by omega, hlater⟩⟩
  · -- it is the last of the second register
    constructor
    · rintro (⟨-, hfour⟩ | ⟨-, ⟨hthree, -⟩ | ⟨⟨hearlier, -, hlater⟩,
        ⟨-, hsecond⟩ | ⟨⟨-, hsecond, -⟩, -⟩⟩⟩)
      · omega
      · omega
      · rw [along_le_one hlater] at hsecond
        exact ⟨by omega, hearlier.mono fun p k hp => by omega, fun _ =>
          hsecond.mono fun p k hp => by omega, fun hone => by omega, fun hone => by omega⟩
      · rw [h.2.2.2] at hsecond
        cases hsecond
    · intro hdecides
      have hearlier : C.Along (fun p k => C.rank p k ≤ 2) 0 before :=
        hdecides.earlier.mono fun p k hp => by omega
      have hone : C.Along (fun p k => C.rank p k ≤ 1) _ after :=
        (hdecides.later (by omega)).mono fun p k hp => by omega
      have hlater : C.Along (fun p k => C.rank p k ≤ 2) _ after :=
        hone.mono fun p k hp => by omega
      exact .inr ⟨⟨hearlier.mono fun p k hp => by omega, by omega,
        hlater.mono fun p k hp => by omega⟩,
        .inr ⟨⟨hearlier, by omega, hlater⟩, .inl ⟨h.2.2.2, (along_le_one hlater).mpr hone⟩⟩⟩
  · -- it is the highest of the third register
    rw [highest_eq_some hbefore hafter]
    constructor
    · rintro (⟨-, hfour⟩ | ⟨-, ⟨hthree, -⟩ | ⟨⟨hearlier, -, hlater⟩,
        ⟨hsecond, -⟩ | ⟨⟨hbeforeSecond, -, hafterSecond⟩, ⟨-, houtbids⟩, hkept⟩⟩⟩)
      · omega
      · omega
      · rw [h.2.2.2.1] at hsecond
        cases hsecond
      · rw [along_le_one hearlier] at hbeforeSecond
        rw [along_le_one hlater] at hafterSecond
        exact ⟨by omega, hbeforeSecond.mono fun p k hp => by omega, fun _ =>
          hafterSecond.mono fun p k hp => by omega, fun _ => hkept, fun _ => houtbids⟩
    · intro hdecides
      have hearlierOne : C.Along (fun p k => C.rank p k ≤ 1) 0 before :=
        hdecides.earlier.mono fun p k hp => by omega
      have hlaterOne : C.Along (fun p k => C.rank p k ≤ 1) _ after :=
        (hdecides.later (by omega)).mono fun p k hp => by omega
      have hearlier : C.Along (fun p k => C.rank p k ≤ 2) 0 before :=
        hearlierOne.mono fun p k hp => by omega
      have hlater : C.Along (fun p k => C.rank p k ≤ 2) _ after :=
        hlaterOne.mono fun p k hp => by omega
      exact .inr ⟨⟨hearlier.mono fun p k hp => by omega, by omega,
        hlater.mono fun p k hp => by omega⟩, .inr ⟨⟨hearlier, by omega, hlater⟩,
        .inr ⟨⟨(along_le_one hearlier).mpr hearlierOne, h.2.2.2.1,
          (along_le_one hlater).mpr hlaterOne⟩,
          ⟨h.2.2.2.2, hdecides.outbids h.1⟩, hdecides.kept h.1⟩⟩⟩
  · -- it does nothing
    rw [highest_eq_some hbefore hafter]
    constructor
    · rintro (⟨-, hfour⟩ | ⟨-, ⟨hthree, -⟩ | ⟨-, ⟨hsecond, -⟩ | ⟨-, ⟨hthird, -⟩, -⟩⟩⟩)
      · omega
      · omega
      · rw [h.2.2.2.1] at hsecond
        cases hsecond
      · rw [h.2.2.2.2] at hthird
        cases hthird
    · intro hdecides
      have hranked := hdecides.ranked
      omega

end

/-! ## The candidate in the third register -/

theorem third_iff {p : α} {c : Nat} :
    C.third p c = true ↔ C.wild p = true ∧ (c < C.level p ∨ C.matched p = true) := by
  rw [third, Bool.and_eq_true, Bool.or_eq_true, decide_eq_true_iff]

/-- The candidate in the third register has the highest level, or has not been driven out by the
one that has. -/
theorem highest_spec {l : List α} {q : α} (h : C.highest 0 l none = some q) :
    q ∈ l ∧ C.third q 0 = true ∧ (C.count l = C.level q ∨ ∃ t ∈ l, C.level t = C.count l ∧
      C.level q < C.level t ∧
        (C.matched q = true ∨ C.wild t = false ∨ C.bound t ≤ C.height q)) := by
  induction l using List.reverseRecOn generalizing q with
  | nil => cases h
  | append_singleton l p ih =>
      rw [highest_append, Nat.zero_max, highest, highest] at h
      rw [count_concat]
      by_cases hbid : C.third p (C.count l) = true ∧
          ∀ q ∈ C.highest 0 l none, C.height q < C.bid p (C.count l)
      · rw [if_pos hbid] at h
        cases h
        obtain ⟨hwild, hactive⟩ := third_iff.mp hbid.1
        have hthird : C.third p 0 = true :=
          third_iff.mpr ⟨hwild, hactive.imp_left (Nat.lt_of_le_of_lt (Nat.zero_le _))⟩
        refine ⟨List.mem_append_right l List.mem_cons_self, hthird, ?_⟩
        by_cases hlevel : C.count l ≤ C.level p
        · exact .inl (Nat.max_eq_right hlevel)
        · have hlt := Nat.not_le.mp hlevel
          rw [Nat.max_eq_left (Nat.le_of_lt hlt)]
          obtain ⟨t, ht, heq⟩ := exists_level_eq (Nat.lt_of_le_of_lt (Nat.zero_le _) hlt)
          exact .inr ⟨t, List.mem_append_left [p] ht, heq, heq ▸ hlt,
            .inl (hactive.resolve_left (Nat.not_lt.mpr (Nat.le_of_lt hlt)))⟩
      · rw [if_neg hbid] at h
        obtain ⟨hmem, hthird, hcase⟩ := ih h
        refine ⟨List.mem_append_left [p] hmem, hthird, ?_⟩
        by_cases hlevel : C.level p ≤ C.count l
        · rw [Nat.max_eq_left hlevel]
          exact hcase.imp_right fun ⟨t, ht, hrest⟩ => ⟨t, List.mem_append_left [p] ht, hrest⟩
        · -- the new candidate has the highest level and does not outbid
          have hlt := Nat.not_le.mp hlevel
          rw [Nat.max_eq_right (Nat.le_of_lt hlt)]
          have hle : C.level q ≤ C.count l := level_le_count hmem
          refine .inr ⟨p, List.mem_append_right l List.mem_cons_self, rfl,
            Nat.lt_of_le_of_lt hle hlt, .inr ?_⟩
          cases hwild : C.wild p with
          | false => exact .inl rfl
          | true =>
              refine .inr ?_
              by_contra hbound
              refine hbid ⟨third_iff.mpr ⟨hwild, .inl hlt⟩, fun q' hq' => ?_⟩
              have heq : q = q' := Option.some.inj (h.symm.trans hq')
              rw [bid, if_pos hlt, ← heq]
              exact Nat.not_le.mp hbound

/-! ## All orders -/

section

variable {entries : List α} {m : α}

theorem exists_order {l : List α} (h : Arranged entries l) :
    ∃ rest, (l ++ rest).Perm entries := by
  obtain ⟨l', hperm, hsublist⟩ := h.1.subperm h.2
  obtain ⟨rest, hrest⟩ := hsublist.exists_perm_append
  exact ⟨rest, (hperm.symm.append_right rest).trans hrest.symm⟩

theorem mem_of_answer {order : List α} (h : C.answer order = some m) : m ∈ order := by
  rw [answer, Option.or_eq_some_iff, Option.or_eq_some_iff, Option.or_eq_some_iff] at h
  rcases h with h | ⟨-, h | ⟨-, h | ⟨-, h⟩⟩⟩
  · exact mem_of_firstReturn h
  · rcases C.last_cases order none with ⟨-, heq⟩ | ⟨-, p, hp, heq⟩
    · cases heq.symm.trans h
    · exact Option.some.inj (heq.symm.trans h) ▸ hp
  · rcases C.last_cases order none with ⟨-, heq⟩ | ⟨-, p, hp, heq⟩
    · cases heq.symm.trans h
    · exact Option.some.inj (heq.symm.trans h) ▸ hp
  · rcases C.highest_cases order none with heq | ⟨p, hp, heq⟩
    · cases heq.symm.trans h
    · exact Option.some.inj (heq.symm.trans h) ▸ hp

/-- What every order with the candidate behind others asks of it. -/
theorem decides_of_always (hnodup : entries.Nodup)
    (h : ∀ order, order.Perm entries → C.answer order = some m) {before after : List α}
    (harranged : Arranged entries (before ++ m :: after)) :
    ∃ rest, C.Decides before m (after ++ rest) := by
  obtain ⟨rest, hperm⟩ := exists_order harranged
  have hanswer := h _ hperm
  have hdistinct := hperm.nodup_iff.mpr hnodup
  rw [List.append_assoc, List.cons_append] at hanswer hdistinct
  rw [List.nodup_middle, List.nodup_cons, List.mem_append, not_or] at hdistinct
  exact ⟨rest, (answer_eq_some hdistinct.1.1 hdistinct.1.2).mp hanswer⟩

theorem met_count {apart l : List α} (h : l ⊆ entries) (hapart : ∀ q ∈ l, q ∉ apart) :
    C.Met entries apart (C.count l) := by
  by_cases hpos : 0 < C.count l
  · obtain ⟨q, hq, heq⟩ := exists_level_eq hpos
    exact .inr ⟨q, h hq, hapart q hq, heq⟩
  · exact .inl (Nat.eq_zero_of_not_pos hpos)

theorem Met.exists_count {apart : List α} {c : Nat} (h : C.Met entries apart c) :
    ∃ l : List α, l.Nodup ∧ (∀ q ∈ l, q ∈ entries ∧ q ∉ apart ∧ C.level q = c) ∧
      C.count l = c := by
  rcases h with rfl | ⟨q, hq, hapart, heq⟩
  · exact ⟨[], List.nodup_nil, fun q hq => absurd hq List.not_mem_nil, rfl⟩
  · refine ⟨[q], List.nodup_singleton q, fun r hr => ?_, (count_singleton q).trans heq⟩
    cases List.mem_singleton.mp hr
    exact ⟨hq, hapart, heq⟩

theorem exists_before (hm : m ∈ entries) {c : Nat} (h : C.Met entries [m] c) :
    ∃ before, Arranged entries (before ++ m :: []) ∧ C.count before = c := by
  obtain ⟨before, hnodup, hmem, hcount⟩ := h.exists_count
  refine ⟨before, ⟨?_, ?_⟩, hcount⟩
  · rw [List.nodup_middle, List.append_nil, List.nodup_cons]
    exact ⟨fun h => (hmem m h).2.1 List.mem_cons_self, hnodup⟩
  · refine List.append_subset.mpr ⟨fun q hq => (hmem q hq).1, ?_⟩
    exact List.cons_subset.mpr ⟨hm, List.nil_subset _⟩

theorem exists_between {p : α} (hp : p ∈ entries) (hm : m ∈ entries) (hne : p ≠ m) {k c : Nat}
    (hk : C.Met entries [p, m] k) (hc : C.Met entries [p, m] c) (hle : k ≤ c) :
    ∃ before between, Arranged entries (before ++ p :: (between ++ m :: [])) ∧
      C.count before = k ∧ max (C.count before) (C.count between) = c := by
  obtain ⟨before, hbefore, hfront, hcount⟩ := hk.exists_count
  obtain ⟨between, hbetween, hmid, hcount'⟩ : ∃ between : List α, between.Nodup ∧
      (∀ q ∈ between, q ∈ entries ∧ q ∉ [p, m] ∧ q ∉ before) ∧
        max (C.count before) (C.count between) = c := by
    by_cases heq : k = c
    · refine ⟨[], List.nodup_nil, fun q hq => (by cases hq), ?_⟩
      rw [hcount, heq]
      exact Nat.max_zero c
    · obtain ⟨between, hnodup, hmem, hcount'⟩ := hc.exists_count
      refine ⟨between, hnodup, fun q hq => ?_, by omega⟩
      obtain ⟨hin, hapart, hlevel⟩ := hmem q hq
      exact ⟨hin, hapart, fun hback => heq ((hfront q hback).2.2.symm.trans hlevel)⟩
  refine ⟨before, between, ⟨?_, ?_⟩, hcount, hcount'⟩
  · rw [List.nodup_middle, List.nodup_cons, ← List.append_assoc, List.nodup_middle,
      List.append_nil, List.nodup_cons, List.nodup_append]
    simp only [List.mem_append, List.mem_cons, List.not_mem_nil, or_false] at hmid hfront ⊢
    refine ⟨?_, ?_, hbefore, hbetween, ?_⟩
    · rintro ((hin | hin) | heq)
      · exact (hfront p hin).2.1 (.inl rfl)
      · exact (hmid p hin).2.1 (.inl rfl)
      · exact hne heq
    · rintro (hin | hin)
      · exact (hfront m hin).2.1 (.inr rfl)
      · exact (hmid m hin).2.1 (.inr rfl)
    · rintro q hq r hr rfl
      exact (hmid q hr).2.2 hq
  · refine List.append_subset.mpr ⟨fun q hq => (hfront q hq).1, List.cons_subset.mpr ⟨hp, ?_⟩⟩
    exact List.append_subset.mpr ⟨fun q hq => (hmid q hq).1,
      List.cons_subset.mpr ⟨hm, List.nil_subset _⟩⟩

/-- The highest levels in front of two candidates. -/
theorem apart_of_perm {front between after : List α} {p : α} (hnodup : entries.Nodup)
    (h : (front ++ p :: (between ++ m :: after)).Perm entries) :
    p ∈ entries ∧ m ∈ entries ∧ p ≠ m ∧ C.Met entries [p, m] (C.count front) ∧
      C.Met entries [p, m] (max (C.count front) (C.count between)) := by
  have hdistinct := h.nodup_iff.mpr hnodup
  have hmem : ∀ q ∈ front ++ p :: (between ++ m :: after), q ∈ entries := fun q hq => h.subset hq
  rw [List.nodup_middle, List.nodup_cons, ← List.append_assoc, List.nodup_middle,
    List.nodup_cons] at hdistinct
  simp only [List.mem_append, List.mem_cons, not_or] at hdistinct hmem
  obtain ⟨⟨⟨hpfront, hpbetween⟩, hpm, -⟩, ⟨⟨hmfront, hmbetween⟩, -⟩, -⟩ := hdistinct
  have hfront : ∀ q ∈ front, q ∉ [p, m] := by
    intro q hq hin
    rcases List.mem_cons.mp hin with rfl | hin
    · exact hpfront hq
    · exact hmfront (List.mem_singleton.mp hin ▸ hq)
  have hbetween : ∀ q ∈ between, q ∉ [p, m] := by
    intro q hq hin
    rcases List.mem_cons.mp hin with rfl | hin
    · exact hpbetween hq
    · exact hmbetween (List.mem_singleton.mp hin ▸ hq)
  refine ⟨hmem p (.inr (.inl rfl)), hmem m (.inr (.inr (.inr (.inl rfl)))), hpm,
    met_count (fun q hq => hmem q (.inl hq)) hfront, ?_⟩
  rw [← count_append]
  refine met_count (fun q hq => ?_) fun q hq => (List.mem_append.mp hq).elim (hfront q) (hbetween q)
  exact (List.mem_append.mp hq).elim (fun hq => hmem q (.inl hq))
    fun hq => hmem q (.inr (.inr (.inl hq)))

theorem arranged_pair {q : α} (hq : q ∈ entries) (hm : m ∈ entries) (hqm : q ≠ m) :
    Arranged entries ([q] ++ m :: []) := by
  constructor
  · simp [hqm]
  · intro p hp
    rcases List.mem_cons.mp hp with rfl | hp
    · exact hq
    · exact List.mem_singleton.mp hp ▸ hm

theorem arranged_triple {q t : α} (hq : q ∈ entries) (ht : t ∈ entries) (hm : m ∈ entries)
    (hqt : q ≠ t) (hqm : q ≠ m) (htm : t ≠ m) : Arranged entries ([q, t] ++ m :: []) := by
  constructor
  · simp [hqt, hqm, htm]
  · intro p hp
    rcases List.mem_cons.mp hp with rfl | hp
    · exact hq
    · rcases List.mem_cons.mp hp with rfl | hp
      · exact ht
      · exact List.mem_singleton.mp hp ▸ hm

theorem highest_singleton {q : α} (hthird : C.third q 0 = true) :
    C.highest 0 [q] none = some q := by
  rw [highest, highest, if_pos ⟨hthird, fun q h => by cases h⟩]

theorem highest_pair {q t : α} (hthird : C.third q 0 = true) : C.highest 0 [q, t] none =
    if C.third t (C.level q) = true ∧ C.height q < C.bid t (C.level q) then some t
    else some q := by
  rw [highest, if_pos ⟨hthird, fun q h => by cases h⟩, highest, highest, Nat.zero_max]
  simp only [Option.mem_def, Option.some.injEq, forall_eq']

/-- A candidate that one with a higher level does not drive out stays in the third register, or
does not matter. -/
theorem height_lt_bid (hnodup : entries.Nodup)
    (h : ∀ order, order.Perm entries → C.answer order = some m) {q t : α} (hq : q ∈ entries)
    (ht : t ∈ entries) (hqm : q ≠ m) (htm : t ≠ m) (hthird : C.third q 0 = true)
    (hlevel : C.level q < C.level t)
    (hstays : C.matched q = true ∨ C.wild t = false ∨ C.bound t ≤ C.height q)
    (hone : C.rank m (C.level t) = 1) : C.height q < C.bid m (C.level t) := by
  have hm := mem_of_answer (h entries (List.Perm.refl _))
  have hqt : q ≠ t := fun heq => Nat.ne_of_lt hlevel (congrArg C.level heq)
  have hcount : C.count [q, t] = C.level t := by
    rw [count, count_singleton, Nat.max_eq_right (Nat.le_of_lt hlevel)]
  have hcount' : C.count [t, q] = C.level t := by
    rw [count, count_singleton, Nat.max_eq_left (Nat.le_of_lt hlevel)]
  obtain ⟨rest, hdecides⟩ := decides_of_always hnodup h (arranged_triple hq ht hm hqt hqm htm)
  obtain ⟨rest', hdecides'⟩ :=
    decides_of_always hnodup h (arranged_triple ht hq hm (Ne.symm hqt) htm hqm)
  have hfirst := hdecides.outbids
  have hbehind := hdecides'.outbids
  rw [hcount, highest_pair hthird] at hfirst
  rw [hcount'] at hbehind
  by_cases hdriven : C.third t (C.level q) = true ∧ C.height q < C.bid t (C.level q)
  · -- it is driven out, so that it is matched, and stands behind the other one
    have hbid : C.bid t (C.level q) = C.bound t := if_pos hlevel
    have hwild := (third_iff.mp hdriven.1).1
    have hmatched : C.matched q = true := by
      rcases hstays with hmatched | hnot | hbound
      · exact hmatched
      · rw [hwild] at hnot
        cases hnot
      · have hlt := hdriven.2
        omega
    have hthird' : C.third t 0 = true :=
      third_iff.mpr ⟨hwild, .inl (Nat.lt_of_le_of_lt (Nat.zero_le _) hlevel)⟩
    have hactive : C.third q (C.level t) = true :=
      third_iff.mpr ⟨(third_iff.mp hthird).1, .inr hmatched⟩
    have hheight : C.bid q (C.level t) = C.height q := if_neg (Nat.not_lt.mpr (Nat.le_of_lt hlevel))
    rw [highest_pair hthird', hheight] at hbehind
    by_cases hover : C.height t < C.height q
    · exact hbehind hone q (if_pos ⟨hactive, hover⟩)
    · have hlt := hbehind hone t (if_neg fun hpair => hover hpair.2)
      omega
  · exact hfirst hone q (if_neg hdriven)

theorem wins_of_always (hnodup : entries.Nodup)
    (h : ∀ order, order.Perm entries → C.answer order = some m) : C.Wins entries m where
  mem := mem_of_answer (h entries (List.Perm.refl _))
  ranked c hc := by
    obtain ⟨before, harranged, rfl⟩ :=
      exists_before (mem_of_answer (h entries (List.Perm.refl _))) hc
    obtain ⟨rest, hdecides⟩ := decides_of_always hnodup h harranged
    exact hdecides.ranked
  earlier p hp hne k c hk hc hle := by
    obtain ⟨before, between, harranged, rfl, rfl⟩ :=
      exists_between hp (mem_of_answer (h entries (List.Perm.refl _))) hne hk hc hle
    rw [← List.cons_append, ← List.append_assoc] at harranged
    obtain ⟨rest, hdecides⟩ := decides_of_always hnodup h harranged
    have hearlier := along_iff.mp hdecides.earlier before p between rfl
    rw [Nat.zero_max, count_append, count, Nat.max_left_comm, Nat.max_comm] at hearlier
    exact hearlier
  later p hp hne k c hk hc hle hfour := by
    obtain ⟨before, between, harranged, rfl, rfl⟩ :=
      exists_between (mem_of_answer (h entries (List.Perm.refl _))) hp hne.symm hk hc hle
    obtain ⟨rest, hdecides⟩ := decides_of_always hnodup h harranged
    have hlater := along_iff.mp (hdecides.later hfour) between p rest (List.append_assoc _ _ _)
    rw [Nat.max_right_comm] at hlater
    exact hlater
  kept p hp hne k c hk hc hle hone hthird := by
    obtain ⟨before, between, harranged, rfl, rfl⟩ :=
      exists_between (mem_of_answer (h entries (List.Perm.refl _))) hp hne.symm hk hc hle
    obtain ⟨rest, hdecides⟩ := decides_of_always hnodup h harranged
    have hkept := along_iff.mp (hdecides.kept hone) between p rest (List.append_assoc _ _ _)
    rw [Nat.max_right_comm] at hkept
    exact hkept hthird
  outbids q hq hne hthird hone := by
    have hm := mem_of_answer (h entries (List.Perm.refl _))
    obtain ⟨rest, hdecides⟩ := decides_of_always hnodup h (arranged_pair hq hm hne)
    have houtbids := hdecides.outbids
    rw [count_singleton] at houtbids
    exact houtbids hone q (highest_singleton hthird)
  outbidsBehind q hq t ht hqm htm hthird hlevel hstays hone :=
    height_lt_bid hnodup h hq ht hqm htm hthird hlevel hstays hone

/-- A candidate that wins decides every order. -/
theorem Wins.decides (hnodup : entries.Nodup) (h : C.Wins entries m) {before after : List α}
    (hperm : (before ++ m :: after).Perm entries) : C.Decides before m after where
  ranked := by
    have hdistinct := hperm.nodup_iff.mpr hnodup
    rw [List.nodup_middle, List.nodup_cons, List.mem_append, not_or] at hdistinct
    refine h.ranked _ (met_count (fun q hq => hperm.subset (List.mem_append_left _ hq)) ?_)
    rintro q hq hm
    exact hdistinct.1.1 (List.mem_singleton.mp hm ▸ hq)
  earlier := by
    rw [along_iff]
    rintro front p between rfl
    rw [List.append_assoc, List.cons_append] at hperm
    obtain ⟨hp, -, hne, hk, hc⟩ := apart_of_perm hnodup hperm
    rw [Nat.zero_max, count_append, count, Nat.max_left_comm, Nat.max_comm]
    exact h.earlier p hp hne _ _ hk hc (Nat.le_max_left _ _)
  later hfour := by
    rw [along_iff]
    rintro between p rest rfl
    obtain ⟨-, hp, hne, hk, hc⟩ := apart_of_perm hnodup hperm
    rw [Nat.max_right_comm]
    exact h.later p hp hne.symm _ _ hk hc (Nat.le_max_left _ _) hfour
  kept hone := by
    rw [along_iff]
    rintro between p rest rfl
    obtain ⟨-, hp, hne, hk, hc⟩ := apart_of_perm hnodup hperm
    rw [Nat.max_right_comm]
    exact h.kept p hp hne.symm _ _ hk hc (Nat.le_max_left _ _) hone
  outbids hone q hq := by
    obtain ⟨hmem, hthird, hcase⟩ := highest_spec hq
    have hdistinct := hperm.nodup_iff.mpr hnodup
    rw [List.nodup_middle, List.nodup_cons, List.mem_append, not_or] at hdistinct
    have hbefore : ∀ p ∈ before, p ∈ entries ∧ p ≠ m := fun p hp =>
      ⟨hperm.subset (List.mem_append_left _ hp), fun heq => hdistinct.1.1 (heq ▸ hp)⟩
    rcases hcase with heq | ⟨t, ht, heq, hlevel, hstays⟩
    · rw [heq] at hone ⊢
      exact h.outbids q (hbefore q hmem).1 (hbefore q hmem).2 hthird hone
    · rw [← heq] at hone ⊢
      exact h.outbidsBehind q (hbefore q hmem).1 t (hbefore t ht).1 (hbefore q hmem).2
        (hbefore t ht).2 hthird hlevel hstays hone

/-- A candidate is the answer for all orders exactly when it wins. -/
theorem answer_always_iff (hnodup : entries.Nodup) :
    (∀ order, order.Perm entries → C.answer order = some m) ↔ C.Wins entries m := by
  constructor
  · exact wins_of_always hnodup
  · intro h order hperm
    obtain ⟨before, after, rfl⟩ := List.append_of_mem (hperm.symm.subset h.mem)
    have hdistinct := hperm.nodup_iff.mpr hnodup
    rw [List.nodup_middle, List.nodup_cons, List.mem_append, not_or] at hdistinct
    exact (answer_eq_some hdistinct.1.1 hdistinct.1.2).mpr (h.decides hnodup hperm)

theorem highest_eq_none {c : Nat} {l : List α} :
    C.highest c l none = none ↔ C.Along (fun p k => C.third p k = false) c l := by
  induction l generalizing c with
  | nil => exact iff_of_true rfl trivial
  | cons p rest ih =>
      rw [highest, Along]
      cases hthird : C.third p c with
      | true =>
          rw [if_pos ⟨rfl, fun q h => by cases h⟩]
          refine iff_of_false (fun hnone => ?_) fun h => Bool.noConfusion h.1
          rcases C.highest_cases rest (some p) with heq | ⟨q, -, heq⟩
          · cases heq.symm.trans hnone
          · cases heq.symm.trans hnone
      | false =>
          rw [if_neg fun h => Bool.false_ne_true h.1, ih]
          exact (and_iff_right rfl).symm

theorem answer_eq_none {order : List α} :
    C.answer order = none ↔ C.Along (fun p k => C.rank p k = 0) 0 order := by
  rw [answer, Option.or_eq_none_iff, Option.or_eq_none_iff, Option.or_eq_none_iff,
    firstReturn_eq_none, last_eq_none, last_eq_none, highest_eq_none]
  constructor
  · rintro ⟨-, hhits, hsecond, hthird⟩
    refine ((hhits.and hsecond).and hthird).mono fun p k hp => ?_
    rw [rank, hp.1.1, hp.1.2, hp.2]
    rfl
  · intro hzero
    have hall : ∀ p k, C.rank p k = 0 → C.returns p k = false ∧ C.hits p k = false ∧
        C.second p k = false ∧ C.third p k = false := by
      intro p k hp
      rcases C.rank_cases p k with h | h | h | h | h
      · omega
      · omega
      · omega
      · omega
      · exact h.2
    exact ⟨hzero.mono fun p k hp => (hall p k hp).1, hzero.mono fun p k hp => (hall p k hp).2.1,
      hzero.mono fun p k hp => (hall p k hp).2.2.1, hzero.mono fun p k hp => (hall p k hp).2.2.2⟩

/-- There is no answer for any order exactly when no candidate ever counts. -/
theorem answer_never_iff (hnodup : entries.Nodup) :
    (∀ order, order.Perm entries → C.answer order = none) ↔ C.Idle entries := by
  constructor
  · intro h p hp c hc
    obtain ⟨before, harranged, rfl⟩ := exists_before hp hc
    obtain ⟨rest, hperm⟩ := exists_order harranged
    have hzero := along_iff.mp (answer_eq_none.mp (h _ hperm)) before p rest
      (List.append_assoc _ _ _)
    rw [Nat.zero_max] at hzero
    exact hzero
  · intro h order hperm
    rw [answer_eq_none, along_iff]
    rintro before p after rfl
    have hdistinct := hperm.nodup_iff.mpr hnodup
    rw [List.nodup_middle, List.nodup_cons, List.mem_append, not_or] at hdistinct
    rw [Nat.zero_max]
    refine h p (hperm.subset (by simp)) _
      (met_count (fun q hq => hperm.subset (List.mem_append_left _ hq)) ?_)
    rintro q hq hin
    exact hdistinct.1.1 (List.mem_singleton.mp hin ▸ hq)

end

end Contest
