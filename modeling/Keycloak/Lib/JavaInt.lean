import Mathlib.Algebra.Group.Nat.Defs
import Mathlib.Algebra.Ring.Int.Defs
import Mathlib.Data.Int.LeastGreatest

/-!
# 32-bit integers that wrap around

The values are integers of `Int` in a range; the result of an operation is the one number of the
range that differs from it by a multiple of `2 ^ 32`.
-/

namespace JavaInt

def minValue : Int := -2 ^ 31

def maxValue : Int := 2 ^ 31 - 1

def InRange (x : Int) : Prop := minValue ≤ x ∧ x ≤ maxValue

instance (x : Int) : Decidable (InRange x) := inferInstanceAs (Decidable (_ ∧ _))

def wrap (x : Int) : Int := x.bmod (2 ^ 32)

theorem inRange_iff {x : Int} : InRange x ↔ -2 ^ 31 ≤ x ∧ x < 2 ^ 31 := by
  unfold InRange minValue maxValue
  omega

theorem wrap_spec (x : Int) : (∃ q, wrap x = x - 2 ^ 32 * q) ∧ InRange (wrap x) := by
  have hpos : 0 < 2 ^ 32 := by decide
  have hlow : -(((2 ^ 32 : Nat) : Int) / 2) ≤ wrap x := Int.le_bmod hpos
  have hhigh : wrap x < (((2 ^ 32 : Nat) : Int) + 1) / 2 := Int.bmod_lt hpos
  have hsplit : wrap x + 2 ^ 32 * x.bdiv (2 ^ 32) = x := Int.bmod_add_bdiv x (2 ^ 32)
  rw [inRange_iff]
  exact ⟨⟨x.bdiv (2 ^ 32), by omega⟩, by omega⟩

theorem wrap_inRange (x : Int) : InRange (wrap x) := (wrap_spec x).2

theorem wrap_eq {x : Int} (h : InRange x) : wrap x = x := by
  obtain ⟨⟨q, hq⟩, hrange⟩ := wrap_spec x
  rw [inRange_iff] at h hrange
  omega

/-- A number that is too large by one turn at most. -/
theorem wrap_of_maxValue_lt {x : Int} (h : maxValue < x) (hx : x ≤ maxValue + 2 ^ 32) :
    wrap x = x - 2 ^ 32 := by
  obtain ⟨⟨q, hq⟩, hrange⟩ := wrap_spec x
  rw [inRange_iff] at hrange
  unfold maxValue at h hx
  omega

theorem wrap_le {x : Int} (h : minValue ≤ x) : wrap x ≤ x := by
  obtain ⟨⟨q, hq⟩, hrange⟩ := wrap_spec x
  rw [inRange_iff] at hrange
  unfold minValue at h
  omega

theorem wrap_add_wrap (x y : Int) : wrap (x + wrap y) = wrap (x + y) := Int.add_bmod_bmod

theorem wrap_maxValue_add_one : wrap (maxValue + 1) = minValue := by decide

/-! ## A larger summand -/

/-- The sum is a number of the range with the smaller summand only. -/
def Overflows (x a b : Int) : Prop := x + a ≤ maxValue ∧ maxValue < x + b

/-- The smaller sum is later than `now`, but no longer the larger one. -/
def Shortens (x a b now : Int) : Prop :=
  Overflows x a b ∧ now < x + a ∧ x + b ≤ now + 2 ^ 32

/-- The larger sum becomes less than the limit. -/
def Lowers (x a b limit : Int) : Prop := Overflows x a b ∧ x + b - 2 ^ 32 < limit

instance (x a b : Int) : Decidable (Overflows x a b) := inferInstanceAs (Decidable (_ ∧ _))

instance (x a b now : Int) : Decidable (Shortens x a b now) :=
  inferInstanceAs (Decidable (_ ∧ _))

instance (x a b limit : Int) : Decidable (Lowers x a b limit) :=
  inferInstanceAs (Decidable (_ ∧ _))

section

variable {x a b : Int} (hlow : minValue ≤ x + a) (hlt : a < b) (hhigh : x + b ≤ maxValue + 2 ^ 32)

include hlow hlt hhigh

omit hlt in
theorem wrap_add_of_overflows (h : Overflows x a b) :
    wrap (x + a) = x + a ∧ wrap (x + b) = x + b - 2 ^ 32 :=
  ⟨wrap_eq ⟨hlow, h.1⟩, wrap_of_maxValue_lt h.2 hhigh⟩

theorem wrap_add_lt_of_not_overflows (h : ¬ Overflows x a b) : wrap (x + a) < wrap (x + b) := by
  by_cases hsmall : x + b ≤ maxValue
  · rw [wrap_eq ⟨hlow, by omega⟩, wrap_eq ⟨by omega, hsmall⟩]
    omega
  · have hlarge : maxValue < x + a := by
      by_contra hle
      exact h ⟨by omega, by omega⟩
    rw [wrap_of_maxValue_lt hlarge (by omega), wrap_of_maxValue_lt (by omega) hhigh]
    omega

theorem wrap_add_le_iff (hgap : b - a < 2 ^ 32) :
    wrap (x + a) ≤ wrap (x + b) ↔ ¬ Overflows x a b := by
  constructor
  · intro hle hover
    obtain ⟨ha, hb⟩ := wrap_add_of_overflows hlow hhigh hover
    omega
  · exact fun hsafe => (wrap_add_lt_of_not_overflows hlow hlt hhigh hsafe).le

/-- What was before the smaller sum is before the larger one. -/
theorem lt_wrap_add_iff {now : Int} :
    (now < wrap (x + a) → now < wrap (x + b)) ↔ ¬ Shortens x a b now := by
  by_cases h : Overflows x a b
  · obtain ⟨ha, hb⟩ := wrap_add_of_overflows hlow hhigh h
    rw [ha, hb]
    constructor
    · rintro hkept ⟨-, hnow, hpast⟩
      have hlater := hkept hnow
      omega
    · intro hsafe hnow
      by_contra hpast
      exact hsafe ⟨h, hnow, by omega⟩
  · have hless := wrap_add_lt_of_not_overflows hlow hlt hhigh h
    exact ⟨fun _ hover => h hover.1, fun _ hnow => hnow.trans hless⟩

/-- The smaller sum under a limit is no more than the larger one under it. -/
theorem min_wrap_add_iff (hgap : b - a < 2 ^ 32) {limit : Int} :
    min (wrap (x + a)) limit ≤ min (wrap (x + b)) limit ↔ ¬ Lowers x a b limit := by
  by_cases h : Overflows x a b
  · obtain ⟨ha, hb⟩ := wrap_add_of_overflows hlow hhigh h
    rw [ha, hb]
    have hless : x + b - 2 ^ 32 < x + a := by omega
    constructor
    · rintro hle ⟨-, hlimit⟩
      omega
    · intro hsafe
      have hlimit : limit ≤ x + b - 2 ^ 32 := by
        by_contra hgt
        exact hsafe ⟨h, by omega⟩
      omega
  · have hless := wrap_add_lt_of_not_overflows hlow hlt hhigh h
    exact ⟨fun _ hover => h hover.1, fun _ => min_le_min_right limit hless.le⟩

end

/-! ## The first number with a property -/

/-- The first number with the property among those of an interval. -/
structure FirstIn (P : Int → Prop) (low high c : Int) : Prop where
  low_le : low ≤ c
  le_high : c ≤ high
  holds : P c
  first : ∀ x, low ≤ x → x < c → ¬ P x

def NoneIn (P : Int → Prop) (low high : Int) : Prop := ∀ x, low ≤ x → x ≤ high → ¬ P x

variable {P : Int → Prop} {low high c : Int}

theorem firstIn_or_noneIn (P : Int → Prop) (low high : Int) :
    (∃ c, FirstIn P low high c) ∨ NoneIn P low high := by
  by_cases hsome : ∃ c, low ≤ c ∧ c ≤ high ∧ P c
  · have hbelow : ∃ b, ∀ z, low ≤ z ∧ z ≤ high ∧ P z → b ≤ z := ⟨low, fun z hz => hz.1⟩
    obtain ⟨c, ⟨hlow, hhigh, hc⟩, hleast⟩ := Int.exists_least_of_bdd hbelow hsome
    refine .inl ⟨c, hlow, hhigh, hc, fun x hx hlt hP => ?_⟩
    have hle := hleast x ⟨hx, by omega, hP⟩
    omega
  · exact .inr fun x hlow hhigh hP => hsome ⟨x, hlow, hhigh, hP⟩

theorem FirstIn.not_noneIn (h : FirstIn P low high c) : ¬ NoneIn P low high :=
  fun hnone => hnone c h.low_le h.le_high h.holds

theorem FirstIn.unique {c' : Int} (h : FirstIn P low high c) (h' : FirstIn P low high c') :
    c = c' := by
  rcases lt_trichotomy c c' with hlt | heq | hgt
  · exact absurd h.holds (h'.first c h.low_le hlt)
  · exact heq
  · exact absurd h'.holds (h.first c' h'.low_le hgt)

end JavaInt
