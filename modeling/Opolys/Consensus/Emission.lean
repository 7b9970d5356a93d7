import Opolys.Core.Constants
import Opolys.Library.IntegerSqrt
import Opolys.Library.MachineInt

/-!
# Block rewards and fees

Rewards follow from chain state alone. A mined block earns the base reward divided by the
difficulty, times the vein yield `1 + sqrt(ln(target / hash))`, all in fixed-point integer
arithmetic. 128-bit intermediate results are natural numbers, with the saturation of the
source where it saturates.
-/

namespace Opolys

open MachineInt (saturatingAdd saturatingSub saturatingMul saturatingAdd128 saturatingMul128)

namespace Emission

/-- One in fixed point with 32 fractional bits. -/
def q32One : ℕ := 2 ^ 32

/-- `ln 2` in fixed point. -/
def ln2Q32 : ℕ := 2977044471

/-- The amount nearest to a 128-bit value. -/
def saturatingU128ToFlakes (value : ℕ) : FlakeAmount := UInt64.ofNatClamp value

/-- The square root of a 128-bit number, rounded down. -/
def integerSqrtFloor (n : ℕ) : ℕ :=
  if n < 2 then n
  else
    let bitLen := Nat.log2 n + 1
    IntegerSqrt.binarySearch (fun m => saturatingMul128 m m) n (2 ^ ((bitLen + 1) / 2))

/-- The root is exact below the greatest 128-bit word, where a square that saturates is still too
large. -/
theorem integerSqrtFloor_eq_sqrt {n : ℕ} (h : n < 2 ^ 128 - 1) :
    integerSqrtFloor n = Nat.sqrt n := by
  unfold integerSqrtFloor
  split
  · rename_i hsmall
    have hn : n = 0 ∨ n = 1 := by omega
    rcases hn with rfl | rfl <;> simp
  · rename_i hbig
    dsimp only
    have hlog : n < 2 ^ (Nat.log2 n + 1) := Nat.lt_log2_self
    have hhalf : Nat.log2 n + 1 ≤ (Nat.log2 n + 1 + 1) / 2 + (Nat.log2 n + 1 + 1) / 2 := by omega
    have hsquare : n < 2 ^ ((Nat.log2 n + 1 + 1) / 2) * 2 ^ ((Nat.log2 n + 1 + 1) / 2) := by
      rw [← Nat.pow_add]
      exact hlog.trans_le (Nat.pow_le_pow_right (by omega) hhalf)
    refine IntegerSqrt.binarySearch_eq_sqrt (by omega) (fun m _ => ?_) ?_
    · unfold MachineInt.saturatingMul128 MachineInt.max128
      omega
    · generalize 2 ^ ((Nat.log2 n + 1 + 1) / 2) = root at hsquare
      have hmul : root * root ≤ (root + 1) * (root + 1) :=
        Nat.mul_le_mul (Nat.le_succ root) (Nat.le_succ root)
      omega

/-- The root of a word is exact. -/
theorem integerSqrtFloor_eq {n : ℕ} (h : n < 2 ^ 64) : integerSqrtFloor n = Nat.sqrt n :=
  integerSqrtFloor_eq_sqrt (by omega)

/-- The square root of a 128-bit number, rounded to the nearest. -/
def integerSqrtRound (n : ℕ) : ℕ :=
  let floor := integerSqrtFloor n
  let floorSquare := saturatingMul128 floor floor
  let next := saturatingAdd128 floor 1
  let nextSquare := saturatingMul128 next next
  if nextSquare - n < n - floorSquare then next else floor

/-- Where the next square saturates, the comparison is the same: the exact one is never a tie. -/
theorem rounded_eq_nearest {n : ℕ} (h : n < 2 ^ 128 - 1) :
    (if saturatingMul128 (saturatingAdd128 (Nat.sqrt n) 1) (saturatingAdd128 (Nat.sqrt n) 1) - n <
        n - saturatingMul128 (Nat.sqrt n) (Nat.sqrt n) then saturatingAdd128 (Nat.sqrt n) 1
      else Nat.sqrt n) = IntegerSqrt.nearest n := by
  have hle : Nat.sqrt n * Nat.sqrt n ≤ n := Nat.sqrt_le n
  have hroot : Nat.sqrt n < 2 ^ 64 := Nat.sqrt_lt.mpr (by omega)
  unfold IntegerSqrt.nearest
  dsimp only
  generalize Nat.sqrt n = r at hle hroot
  have hnext : saturatingAdd128 r 1 = r + 1 := by
    unfold saturatingAdd128 MachineInt.max128
    omega
  have hsquare : saturatingMul128 r r = r * r := MachineInt.saturatingMul128_of_lt (by omega)
  rw [hnext, hsquare]
  by_cases hlast : r = 2 ^ 64 - 1
  · subst hlast
    have hsaturated : saturatingMul128 (2 ^ 64 - 1 + 1) (2 ^ 64 - 1 + 1) = 2 ^ 128 - 1 := by
      decide
    rw [hsaturated]
    by_cases hup : 2 ^ 128 - 1 - n < n - (2 ^ 64 - 1) * (2 ^ 64 - 1)
    · rw [if_pos hup, if_pos (by omega)]
    · rw [if_neg hup, if_neg (by omega)]
  · have hnextSquare : saturatingMul128 (r + 1) (r + 1) = (r + 1) * (r + 1) := by
      apply MachineInt.saturatingMul128_of_lt
      calc (r + 1) * (r + 1) ≤ (2 ^ 64 - 1) * (2 ^ 64 - 1) :=
            Nat.mul_le_mul (by omega) (by omega)
        _ < 2 ^ 128 := by norm_num
    rw [hnextSquare]

theorem integerSqrtRound_eq_nearest {n : ℕ} (h : n < 2 ^ 128 - 1) :
    integerSqrtRound n = IntegerSqrt.nearest n := by
  unfold integerSqrtRound
  rw [integerSqrtFloor_eq_sqrt h]
  exact rounded_eq_nearest h

/-- The divisors 1, 3, .., 39 of the logarithm's series. -/
def lnDivisors : List ℕ := (List.range 20).map fun i => 2 * i + 1

/-- Sum the series of the logarithm until a term vanishes. -/
def lnSeries (y2Q32 : ℕ) : List ℕ → ℕ → ℕ → ℕ
  | [], _, sumQ32 => sumQ32
  | divisor :: divisors, termQ32, sumQ32 =>
    let sumQ32 := saturatingAdd128 sumQ32 (termQ32 / divisor)
    let termQ32 := (termQ32 * y2Q32) >>> 32
    if termQ32 = 0 then sumQ32 else lnSeries y2Q32 divisors termQ32 sumQ32

/-- The logarithm of a number in `[1, 2)`. -/
def lnMantissaQ32 (mantissaQ32 : ℕ) : ℕ :=
  if mantissaQ32 ≤ q32One then 0
  else
    let yQ32 := ((mantissaQ32 - q32One) <<< 32) / (mantissaQ32 + q32One)
    let y2Q32 := (yQ32 * yQ32) >>> 32
    saturatingMul128 (lnSeries y2Q32 lnDivisors yQ32 0) 2

/-- The logarithm of a word. -/
def lnU64Q32 (value : UInt64) : ℕ :=
  if value ≤ 1 then 0
  else
    let log2Floor := Nat.log2 value.toNat
    let mantissaQ32 :=
      if log2Floor ≤ 32 then value.toNat <<< (32 - log2Floor)
      else value.toNat >>> (log2Floor - 32)
    saturatingAdd128 (saturatingMul128 log2Floor ln2Q32) (lnMantissaQ32 mantissaQ32)

/-- A fixed-point value in thousandths, rounded to the nearest. -/
def q32ToMilli (q32 : ℕ) : UInt64 :=
  UInt64.ofNatClamp (saturatingAdd128 (saturatingMul128 q32 1000) (q32One / 2) / q32One)

/-- `ln(numerator / denominator)` in thousandths, 0 where it would not be positive. -/
def lnRatioMilli (numerator denominator : UInt64) : UInt64 :=
  if denominator = 0 ∨ numerator ≤ denominator then 0
  else q32ToMilli (lnU64Q32 numerator - lnU64Q32 denominator)

/-- The greatest 64-bit value below the target of a difficulty in leading zero bits. -/
def difficultyToTarget (difficulty : UInt64) : UInt64 :=
  if difficulty = 0 ∨ difficulty > 64 then 0
  else UInt64.ofNat (2 ^ (64 - difficulty.toNat) - 1)

/-- `1 + sqrt(ln(target / hash))` in thousandths, at least 1000. -/
def computeVeinYield (difficulty hashInt : UInt64) : UInt64 :=
  if difficulty = 0 ∨ hashInt = 0 then 1000
  else
    let target := difficultyToTarget difficulty
    if target = 0 then 1000
    else if target ≤ hashInt then 1000
    else
      let lnVal := integerSqrtRound ((lnRatioMilli target hashInt).toNat * 1000)
      saturatingAdd 1000 (UInt64.ofNatClamp lnVal)

/-- The gross reward of a mined block. -/
def computeBlockReward (baseReward : FlakeAmount) (difficulty powHashValue : UInt64) :
    FlakeAmount :=
  let effectiveDifficulty := max difficulty minDifficulty
  let base := baseReward / effectiveDifficulty
  let yieldMilli := computeVeinYield difficulty powHashValue
  saturatingU128ToFlakes (base.toNat * yieldMilli.toNat / 1000)

/-- A bond entry weighs its stake, whatever its age. -/
def computeRefinerWeight (stake : FlakeAmount) (_ageYearsMilli : UInt64) : FlakeAmount := stake

/-- The fee suggested for the next block, a moving average over the average fee. -/
def computeSuggestedFee (previousBlockFees : FlakeAmount) (successfulTransactionCount : UInt64)
    (previousSuggestedFee : FlakeAmount) : FlakeAmount :=
  let current :=
    if successfulTransactionCount = 0 then minFee
    else previousBlockFees / successfulTransactionCount
  let window := max capacityRatio 1
  let oldWeight := saturatingSub window 1
  let ema := saturatingAdd current (saturatingMul previousSuggestedFee oldWeight) / window
  max ema minFee

theorem toNat_difficultyToTarget {difficulty : UInt64} (h1 : 1 ≤ difficulty.toNat)
    (h64 : difficulty.toNat ≤ 64) :
    (difficultyToTarget difficulty).toNat = 2 ^ (64 - difficulty.toNat) - 1 := by
  have h0 : difficulty ≠ 0 := by
    rintro rfl
    exact absurd h1 (by decide)
  have hle : ¬difficulty > 64 := by
    intro h
    exact absurd (UInt64.lt_iff_toNat_lt.mp h) (not_lt.mpr h64)
  rw [difficultyToTarget, if_neg (by tauto)]
  refine MachineInt.toNat_ofNat_of_lt ?_
  have := Nat.pow_le_pow_right (show 0 < 2 by omega) (show 64 - difficulty.toNat ≤ 63 by omega)
  omega

end Emission

end Opolys
