import Keycloak.Lib.JavaInt
import Mathlib.Algebra.Order.GroupWithZero.Basic
import Mathlib.Tactic.Positivity

/-!
# Preloading from a remote cache

A remote cache has a number of segments of its own.  `RemoteCacheSessionsLoaderContext` computes
with `int` arithmetic how many workers load them, and `RemoteCacheSessionsLoader` which segments
one of the workers loads.

The number of workers is doubled until it is large enough.  A number that is doubled too often
becomes 0, which the loop then doubles for ever; the fuel of the model bounds its rounds.
-/

namespace Keycloak.Sessions

open JavaInt

/-- The loop of `computeSegmentsCount`. -/
def doubleUntil (seg ispnSegments : Int) : Nat → Int → Option Int
  | 0, _ => none
  | fuel + 1, seg2 =>
      if seg2 < seg ∧ seg2 < ispnSegments then doubleUntil seg ispnSegments fuel (wrap (seg2 * 2))
      else some seg2

def neededSegments (sessionsTotal sessionsPerSegment : Int) : Int :=
  let seg := wrap (sessionsTotal.tdiv sessionsPerSegment)
  if sessionsTotal.tmod sessionsPerSegment > 0 then wrap (seg + 1) else seg

def computeSegmentsCount (fuel : Nat) (sessionsTotal sessionsPerSegment ispnSegments : Int) :
    Option Int :=
  if ispnSegments < 0 then some 1
  else doubleUntil (neededSegments sessionsTotal sessionsPerSegment) ispnSegments fuel 1

structure RemoteCacheSessionsLoaderContext where
  ispnSegmentsCount : Int
  segmentsCount : Int
  sessionsPerSegment : Int
  sessionsTotal : Int
  deriving DecidableEq, Repr

def RemoteCacheSessionsLoaderContext.new (fuel : Nat)
    (ispnSegmentsCount sessionsPerSegment sessionsTotal : Int) :
    Option RemoteCacheSessionsLoaderContext := do
  let segmentsCount ← computeSegmentsCount fuel sessionsTotal sessionsPerSegment ispnSegmentsCount
  some { ispnSegmentsCount, segmentsCount, sessionsPerSegment, sessionsTotal }

def upTo (first last : Int) : Finset Int :=
  ((List.range (last + 1 - first).toNat).map fun (i : Nat) => first + i).toFinset

theorem mem_upTo {first last i : Int} : i ∈ upTo first last ↔ first ≤ i ∧ i ≤ last := by
  simp only [upTo, List.mem_toFinset, List.mem_map, List.mem_range]
  constructor
  · rintro ⟨n, hn, rfl⟩
    omega
  · rintro ⟨hfirst, hlast⟩
    exact ⟨(i - first).toNat, by omega, by omega⟩

/-- The segments of the remote cache for a worker, or the message of the exception.  The last one
is less than the number of segments, so that the loop over them ends. -/
def getMyIspnSegments (segment : Int) (ctx : RemoteCacheSessionsLoaderContext) :
    Except String (Option (Finset Int)) :=
  if ctx.ispnSegmentsCount < 0 then .ok none
  else if ctx.ispnSegmentsCount.tmod ctx.segmentsCount > 0 then
    .error (s!"Illegal state. IspnSegmentsCount: {ctx.ispnSegmentsCount}" ++
      s!", segmentsCount: {ctx.segmentsCount}")
  else
    let countPerSegment := ctx.ispnSegmentsCount.tdiv ctx.segmentsCount
    let first := wrap (segment * countPerSegment)
    let last := wrap (first + countPerSegment - 1)
    .ok (some (upTo first last))

/-- The segments of all workers are computed, and each segment of the remote cache is one of
exactly one worker. -/
structure LoadsOnce (ctx : RemoteCacheSessionsLoaderContext) (segments : Int → Finset Int) :
    Prop where
  computed : ∀ segment, 0 ≤ segment → segment < ctx.segmentsCount →
    getMyIspnSegments segment ctx = .ok (some (segments segment))
  nonempty : ∀ segment, 0 ≤ segment → segment < ctx.segmentsCount → (segments segment).Nonempty
  covered : ∀ i, 0 ≤ i ∧ i < ctx.ispnSegmentsCount ↔
    ∃ segment, 0 ≤ segment ∧ segment < ctx.segmentsCount ∧ i ∈ segments segment
  once : ∀ segment segment', 0 ≤ segment → segment < ctx.segmentsCount → 0 ≤ segment' →
    segment' < ctx.segmentsCount → ∀ i, i ∈ segments segment → i ∈ segments segment' →
      segment = segment'

/-! ## The loop -/

section

variable {seg ispnSegments : Int}

theorem wrap_pow_mul_two {n : Nat} (h : n < 30) : wrap ((2 : Int) ^ n * 2) = 2 ^ (n + 1) := by
  have hpow : (2 : Int) ^ (n + 1) ≤ 2 ^ 30 := pow_le_pow_right₀ (by decide) h
  have hpos : (0 : Int) < 2 ^ (n + 1) := by positivity
  rw [← pow_succ]
  exact wrap_eq (inRange_iff.mpr ⟨by omega, by omega⟩)

theorem doubleUntil_pow {i d : Nat} (hd : i + d ≤ 30)
    (hsmall : ∀ n, n < i + d → (2 : Int) ^ n < seg ∧ (2 : Int) ^ n < ispnSegments)
    (hstop : ¬ ((2 : Int) ^ (i + d) < seg ∧ (2 : Int) ^ (i + d) < ispnSegments)) :
    doubleUntil seg ispnSegments (d + 1) (2 ^ i) = some (2 ^ (i + d)) := by
  induction d generalizing i with
  | zero =>
      rw [Nat.add_zero] at hstop
      rw [doubleUntil, if_neg hstop]
      rfl
  | succ d ih =>
      have hshift : i + (d + 1) = i + 1 + d := by omega
      rw [hshift] at hd hsmall hstop ⊢
      rw [doubleUntil, if_pos (hsmall i (by omega)), wrap_pow_mul_two (by omega)]
      exact ih hd hsmall hstop

/-- The loop ends with a power of two only.  A number that is doubled too often goes through the
smallest value to 0. -/
theorem doubleUntil_eq_some {fuel : Nat} {seg2 c : Int}
    (hvalue : (∃ n ≤ 30, seg2 = 2 ^ n) ∨
      ((2 : Int) ^ 30 < seg ∧ (2 : Int) ^ 30 < ispnSegments) ∧ (seg2 = minValue ∨ seg2 = 0))
    (h : doubleUntil seg ispnSegments fuel seg2 = some c) :
    ∃ n ≤ 30, c = 2 ^ n ∧ ¬ (c < seg ∧ c < ispnSegments) := by
  induction fuel generalizing seg2 with
  | zero => cases h
  | succ fuel ih =>
      rw [doubleUntil] at h
      split_ifs at h with hless
      · refine ih ?_ h
        rcases hvalue with ⟨n, hn, rfl⟩ | ⟨hlarge, rfl | rfl⟩
        · by_cases hlast : n = 30
          · subst hlast
            exact .inr ⟨hless, .inl (by decide)⟩
          · exact .inl ⟨n + 1, by omega, wrap_pow_mul_two (by omega)⟩
        · exact .inr ⟨hlarge, .inr (by decide)⟩
        · exact .inr ⟨hlarge, .inr (by decide)⟩
      · cases h
        rcases hvalue with ⟨n, hn, rfl⟩ | ⟨hlarge, rfl | rfl⟩
        · exact ⟨n, hn, rfl, hless⟩
        · unfold minValue at hless
          omega
        · omega

/-- The loop ends with the first power of two that is large enough. -/
theorem exists_doubleUntil
    (hstop : ∃ k ≤ 30, ¬ ((2 : Int) ^ k < seg ∧ (2 : Int) ^ k < ispnSegments)) :
    ∃ j, doubleUntil seg ispnSegments (j + 1) 1 = some (2 ^ j) ∧
      ∀ k, ¬ ((2 : Int) ^ k < seg ∧ (2 : Int) ^ k < ispnSegments) → j ≤ k := by
  obtain ⟨k, hk, hlarge⟩ := hstop
  have hexists : ∃ j, ¬ ((2 : Int) ^ j < seg ∧ (2 : Int) ^ j < ispnSegments) := ⟨k, hlarge⟩
  refine ⟨Nat.find hexists, ?_, fun k hk => Nat.find_min' hexists hk⟩
  have hle := Nat.find_min' hexists hlarge
  have hloop := doubleUntil_pow (i := 0) (d := Nat.find hexists) (by omega)
    (fun n hn => not_not.mp (Nat.find_min hexists (by omega)))
    (by rw [Nat.zero_add]; exact Nat.find_spec hexists)
  rwa [pow_zero, Nat.zero_add] at hloop

end

/-! ## The segments of a worker -/

section

variable {ctx : RemoteCacheSessionsLoaderContext} {q : Int}
  (hq : 0 < q) (hcount : 0 < ctx.segmentsCount) (hrange : InRange ctx.ispnSegmentsCount)
  (hsplit : ctx.ispnSegmentsCount = ctx.segmentsCount * q)

include hq hcount hrange hsplit

theorem getMyIspnSegments_eq {segment : Int} (h0 : 0 ≤ segment)
    (hlt : segment < ctx.segmentsCount) :
    getMyIspnSegments segment ctx =
      .ok (some (upTo (segment * q) (segment * q + q - 1))) := by
  have hpos : 0 < ctx.ispnSegmentsCount := hsplit ▸ Int.mul_pos hcount hq
  have hmod : ctx.ispnSegmentsCount.tmod ctx.segmentsCount = 0 := by
    rw [hsplit]
    exact Int.mul_tmod_right _ _
  have hdiv : ctx.ispnSegmentsCount.tdiv ctx.segmentsCount = q := by
    rw [hsplit]
    exact Int.mul_tdiv_cancel_left _ (by omega)
  have hfirst : 0 ≤ segment * q := Int.mul_nonneg h0 hq.le
  have hlast : segment * q + q ≤ ctx.ispnSegmentsCount := by
    have hle : (segment + 1) * q ≤ ctx.segmentsCount * q :=
      Int.mul_le_mul_of_nonneg_right (by omega) hq.le
    rw [Int.add_mul, Int.one_mul, ← hsplit] at hle
    exact hle
  rw [inRange_iff] at hrange
  rw [getMyIspnSegments, if_neg (by omega), hmod, if_neg (by omega), hdiv]
  dsimp only
  rw [wrap_eq (x := segment * q) (inRange_iff.mpr ⟨by omega, by omega⟩),
    wrap_eq (inRange_iff.mpr ⟨by omega, by omega⟩)]

/-- When the number of workers divides the number of segments, every segment is loaded once. -/
theorem exists_loadsOnce : ∃ segments, LoadsOnce ctx segments := by
  have hmem : ∀ segment i, i ∈ upTo (segment * q) (segment * q + q - 1) ↔ i / q = segment := by
    intro segment i
    rw [mem_upTo, Int.ediv_eq_iff_of_pos hq]
    omega
  refine ⟨fun segment => upTo (segment * q) (segment * q + q - 1), ?_, ?_, ?_, ?_⟩
  · exact fun segment h0 hlt => getMyIspnSegments_eq hq hcount hrange hsplit h0 hlt
  · intro segment _ _
    exact ⟨segment * q, mem_upTo.mpr ⟨le_rfl, by omega⟩⟩
  · intro i
    rw [← Int.ediv_nonneg_iff_of_pos hq, hsplit, ← Int.ediv_lt_iff_lt_mul hq]
    simp only [hmem, exists_eq_right', ← and_assoc]
  · intro segment segment' _ _ _ _ i hi hi'
    rw [hmem] at hi hi'
    exact hi.symm.trans hi'

end

/-! ## When the segments are loaded once -/

/-- The bound of the loop: so many workers are enough for the sessions. -/
theorem neededSegments_le_iff {sessionsTotal sessionsPerSegment c : Int}
    (hper : 0 < sessionsPerSegment) (htotal : 0 ≤ sessionsTotal ∧ sessionsTotal ≤ maxValue) :
    neededSegments sessionsTotal sessionsPerSegment ≤ c ↔
      sessionsTotal ≤ sessionsPerSegment * c := by
  obtain ⟨h0, hmax⟩ := htotal
  have hdiv := Int.mul_ediv_add_emod sessionsTotal sessionsPerSegment
  have hmod0 := Int.emod_nonneg sessionsTotal hper.ne'
  have hmod := Int.emod_lt_of_pos sessionsTotal hper
  have hq0 := Int.ediv_nonneg h0 hper.le
  unfold neededSegments
  rw [Int.tdiv_eq_ediv_of_nonneg h0, Int.tmod_eq_emod_of_nonneg h0]
  generalize sessionsTotal / sessionsPerSegment = q at hdiv hq0 ⊢
  generalize sessionsTotal % sessionsPerSegment = r at hdiv hmod0 hmod ⊢
  have hle : q ≤ sessionsPerSegment * q := by
    have hmul := Int.mul_le_mul_of_nonneg_right (show 1 ≤ sessionsPerSegment from hper) hq0
    rwa [Int.one_mul] at hmul
  unfold maxValue at hmax
  have hwrap : wrap q = q := wrap_eq (inRange_iff.mpr ⟨by omega, by omega⟩)
  dsimp only
  rw [hwrap]
  split
  · -- the sessions that are left over need a worker of their own
    rename_i hrest
    rw [wrap_eq (inRange_iff.mpr ⟨by omega, by omega⟩)]
    constructor
    · intro hc
      have hmul := Int.mul_le_mul_of_nonneg_left hc hper.le
      rw [Int.mul_add, Int.mul_one] at hmul
      omega
    · intro hc
      by_contra hcq
      have hmul := Int.mul_le_mul_of_nonneg_left (show c ≤ q by omega) hper.le
      omega
  · obtain rfl : r = 0 := by omega
    rw [← hdiv, Int.add_zero]
    exact (Int.mul_le_mul_left hper).symm

/-- A power of two divides the number of segments, and it is either enough for the sessions or the
whole number. -/
def EnoughSegments (ispnSegmentsCount sessionsPerSegment sessionsTotal : Int) : Prop :=
  ∃ k : Nat, (2 : Int) ^ k ∣ ispnSegmentsCount ∧
    (sessionsTotal ≤ sessionsPerSegment * 2 ^ k ∨ ispnSegmentsCount = 2 ^ k)

/-- A power of two at which the loop stops and that divides the number of segments. -/
theorem enoughSegments_iff {ispnSegmentsCount sessionsPerSegment sessionsTotal : Int}
    (hispn : 0 < ispnSegmentsCount) (hper : 0 < sessionsPerSegment)
    (htotal : 0 ≤ sessionsTotal ∧ sessionsTotal ≤ maxValue) :
    EnoughSegments ispnSegmentsCount sessionsPerSegment sessionsTotal ↔
      ∃ k : Nat, (2 : Int) ^ k ∣ ispnSegmentsCount ∧
        ¬ ((2 : Int) ^ k < neededSegments sessionsTotal sessionsPerSegment ∧
          (2 : Int) ^ k < ispnSegmentsCount) := by
  refine exists_congr fun k => and_congr_right fun hdvd => ?_
  have hle := Int.le_of_dvd hispn hdvd
  rw [not_and_or, Int.not_lt, Int.not_lt, neededSegments_le_iff hper htotal]
  refine or_congr_right ?_
  omega

section

variable {ispnSegmentsCount sessionsPerSegment sessionsTotal : Int}
  (hispn : 0 < ispnSegmentsCount ∧ ispnSegmentsCount ≤ maxValue)

include hispn

theorem new_eq_some {fuel : Nat} {ctx : RemoteCacheSessionsLoaderContext} :
    RemoteCacheSessionsLoaderContext.new fuel ispnSegmentsCount sessionsPerSegment sessionsTotal =
        some ctx ↔
      ∃ segmentsCount, doubleUntil (neededSegments sessionsTotal sessionsPerSegment)
          ispnSegmentsCount fuel 1 = some segmentsCount ∧
        ctx = ⟨ispnSegmentsCount, segmentsCount, sessionsPerSegment, sessionsTotal⟩ := by
  rw [RemoteCacheSessionsLoaderContext.new, Option.bind_eq_bind, Option.bind_eq_some_iff,
    computeSegmentsCount, if_neg (by omega)]
  simp only [Option.some.injEq, eq_comm]

/-- The number of workers divides the number of segments. -/
theorem exists_pow_of_loadsOnce {fuel : Nat} {ctx : RemoteCacheSessionsLoaderContext}
    {segments : Int → Finset Int}
    (hctx : RemoteCacheSessionsLoaderContext.new fuel ispnSegmentsCount sessionsPerSegment
      sessionsTotal = some ctx) (hloads : LoadsOnce ctx segments) :
    ∃ n : Nat, (2 : Int) ^ n ∣ ispnSegmentsCount ∧
      ¬ ((2 : Int) ^ n < neededSegments sessionsTotal sessionsPerSegment ∧
        (2 : Int) ^ n < ispnSegmentsCount) := by
  obtain ⟨segmentsCount, hloop, rfl⟩ := (new_eq_some hispn).mp hctx
  obtain ⟨n, -, rfl, hstop⟩ := doubleUntil_eq_some (.inl ⟨0, by omega, rfl⟩) hloop
  refine ⟨n, ?_, hstop⟩
  have hpow : (0 : Int) < 2 ^ n := by positivity
  have hfirst := hloads.computed 0 le_rfl hpow
  rw [getMyIspnSegments, if_neg (by dsimp only; omega)] at hfirst
  split at hfirst
  · cases hfirst
  · rename_i hmod
    dsimp only at hmod
    rw [Int.tmod_eq_emod_of_nonneg hispn.1.le] at hmod
    have hmod0 := Int.emod_nonneg ispnSegmentsCount hpow.ne'
    exact Int.dvd_of_emod_eq_zero (by omega)

/-- The first power of two at which the loop stops divides every later one. -/
theorem exists_loadsOnce_of_pow {k : Nat} (hdvd : (2 : Int) ^ k ∣ ispnSegmentsCount)
    (hlarge : ¬ ((2 : Int) ^ k < neededSegments sessionsTotal sessionsPerSegment ∧
      (2 : Int) ^ k < ispnSegmentsCount)) :
    ∃ fuel ctx, RemoteCacheSessionsLoaderContext.new fuel ispnSegmentsCount sessionsPerSegment
      sessionsTotal = some ctx ∧ ∃ segments, LoadsOnce ctx segments := by
  obtain ⟨hpos, hmax⟩ := hispn
  have hrange : InRange ispnSegmentsCount := ⟨by unfold minValue; omega, hmax⟩
  have hk : k ≤ 30 := by
    by_contra hgt
    have hpow : (2 : Int) ^ 31 ≤ 2 ^ k := pow_le_pow_right₀ (by decide) (by omega)
    have hle := Int.le_of_dvd hpos hdvd
    unfold maxValue at hmax
    omega
  obtain ⟨j, hloop, hleast⟩ := exists_doubleUntil ⟨k, hk, hlarge⟩
  obtain ⟨q, hq⟩ := (pow_dvd_pow (2 : Int) (hleast k hlarge)).trans hdvd
  have hpow : (0 : Int) < 2 ^ j := by positivity
  have hq0 : 0 < q := pos_of_mul_pos_right (hq ▸ hpos) hpow.le
  refine ⟨j + 1, _, (new_eq_some ⟨hpos, hmax⟩).mpr ⟨_, hloop, rfl⟩, ?_⟩
  exact exists_loadsOnce hq0 hpow hrange hq

end

/-- The number of workers is found and every segment of the remote cache is loaded by one of them
exactly if a power of two that divides the number of segments is large enough. -/
theorem loadsOnce_iff {ispnSegmentsCount sessionsPerSegment sessionsTotal : Int}
    (hispn : 0 < ispnSegmentsCount ∧ ispnSegmentsCount ≤ maxValue)
    (hper : 0 < sessionsPerSegment ∧ sessionsPerSegment ≤ maxValue)
    (htotal : 0 ≤ sessionsTotal ∧ sessionsTotal ≤ maxValue) :
    (∃ fuel ctx, RemoteCacheSessionsLoaderContext.new fuel ispnSegmentsCount sessionsPerSegment
      sessionsTotal = some ctx ∧ ∃ segments, LoadsOnce ctx segments) ↔
      EnoughSegments ispnSegmentsCount sessionsPerSegment sessionsTotal := by
  rw [enoughSegments_iff hispn.1 hper.1 htotal]
  constructor
  · rintro ⟨fuel, ctx, hctx, segments, hloads⟩
    exact exists_pow_of_loadsOnce hispn hctx hloads
  · rintro ⟨k, hdvd, hlarge⟩
    exact exists_loadsOnce_of_pow hispn hdvd hlarge

/-- 256 segments, and at most 70 sessions for a worker. -/
theorem loadsOnce_iff_of_256 :
    (∃ fuel ctx, RemoteCacheSessionsLoaderContext.new fuel 256 70 500 = some ctx ∧
      ∃ segments, LoadsOnce ctx segments) ∧ EnoughSegments 256 70 500 := by
  have henough : EnoughSegments 256 70 500 := ⟨8, by decide, .inr (by decide)⟩
  exact ⟨(loadsOnce_iff (by decide) (by decide) (by decide)).mpr henough, henough⟩

/-- Ten segments are not divided among four workers. -/
theorem not_loadsOnce_of_ten :
    RemoteCacheSessionsLoaderContext.new 3 10 1 4 = some ⟨10, 4, 1, 4⟩ ∧
    getMyIspnSegments 0 ⟨10, 4, 1, 4⟩ =
      .error "Illegal state. IspnSegmentsCount: 10, segmentsCount: 4" ∧
    ¬ ∃ fuel ctx, RemoteCacheSessionsLoaderContext.new fuel 10 1 4 = some ctx ∧
      ∃ segments, LoadsOnce ctx segments := by
  refine ⟨by decide, by decide, ?_⟩
  rintro ⟨fuel, ctx, hctx, segments, hloads⟩
  obtain ⟨n, hdvd, hlarge⟩ := exists_pow_of_loadsOnce (by decide) hctx hloads
  have hneeded : neededSegments 4 1 = 4 := by decide
  rw [hneeded] at hlarge
  have hn : 2 ≤ n := by
    by_contra hlt
    have hpow : (2 : Int) ^ n ≤ 2 ^ 1 := pow_le_pow_right₀ (by decide) (by omega)
    omega
  exact absurd ((pow_dvd_pow (2 : Int) hn).trans hdvd) (by decide)

end Keycloak.Sessions
