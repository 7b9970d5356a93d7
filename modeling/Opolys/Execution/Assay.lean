import Opolys.Execution.Dispatcher

/-!
# The arithmetic of the assays

The assays are computed from saturating products of 128 bits. Over all words of amounts, stakes and
supply the products stay below the greatest word, so the assays are those of the exact formula. Only
the stake after a bond is a word itself, and it stops at the greatest one.

* `assays_exact` : the assays over unbounded integers.
-/

namespace Opolys

open MachineInt (saturatingMul128 saturatingMul128_of_lt toNat_clamp)

/-! ## The formula -/

/-- `amount * sqrt(pressure) / (6 * sqrt(limit))`, with a million as the unit of the roots. -/
def exactAssay (amount numerator denominator limit : ℕ) : ℕ :=
  amount * Nat.sqrt (numerator * 10 ^ 12 / denominator) / (6 * Nat.sqrt (limit * 10 ^ 12))

/-- `960 + sqrt(issued OPL)`. -/
def exactLimit (issued : ℕ) : ℕ := 960 + Nat.sqrt (issued / 10 ^ 6)

/-- `max(1, sqrt(issued OPL))` OPL for every active refiner. -/
def exactBaseline (issued : ℕ) : ℕ :=
  max (Nat.sqrt (issued / 10 ^ 6)) 1 * 10 ^ 6 * exactLimit issued

theorem exactAssay_mono {amount amount' numerator numerator' : ℕ} (hamount : amount ≤ amount')
    (hnumerator : numerator ≤ numerator') (denominator limit : ℕ) :
    exactAssay amount numerator denominator limit ≤
      exactAssay amount' numerator' denominator limit := by
  unfold exactAssay
  gcongr

/-- The root of the issued supply is a number of 23 bits. -/
theorem sqrt_issued_lt (issued : FlakeAmount) : Nat.sqrt (issued.toNat / 10 ^ 6) < 4294968 := by
  have hword := issued.toNat_lt
  rw [Nat.sqrt_lt]
  omega

/-! ## The limit and the baseline -/

namespace RefinerSet

theorem toNat_issuedOpl (issued : FlakeAmount) :
    (issued / flakesPerOpl).toNat = issued.toNat / 10 ^ 6 := UInt64.toNat_div issued flakesPerOpl

theorem activeRefinerLimit_eq (issued : FlakeAmount) :
    activeRefinerLimit issued = exactLimit issued.toNat := by
  have hroot := sqrt_issued_lt issued
  have hepoch : epoch.toNat = 960 := rfl
  unfold activeRefinerLimit exactLimit MachineInt.saturatingAdd128 MachineInt.max128
  dsimp only
  rw [integerSqrtFloor, Emission.integerSqrtFloor_eq (UInt64.toNat_lt _), toNat_issuedOpl]
  omega

theorem toNat_minimumBondStake (issued : FlakeAmount) :
    (minimumBondStake issued).toNat = max (Nat.sqrt (issued.toNat / 10 ^ 6)) 1 * 10 ^ 6 := by
  have hroot := sqrt_issued_lt issued
  have hunit : flakesPerOpl.toNat = 10 ^ 6 := rfl
  unfold minimumBondStake
  dsimp only
  rw [integerSqrtFloor, Emission.integerSqrtFloor_eq (UInt64.toNat_lt _), toNat_issuedOpl, hunit,
    saturatingMul128_of_lt (by omega), toNat_clamp]
  omega

end RefinerSet

namespace TransactionDispatcher

theorem bondBaseline_eq (issued : FlakeAmount) :
    bondBaseline issued = exactBaseline issued.toNat := by
  unfold bondBaseline exactBaseline
  rw [RefinerSet.toNat_minimumBondStake, RefinerSet.activeRefinerLimit_eq]

theorem exactBaseline_lt (issued : FlakeAmount) : exactBaseline issued.toNat < 2 ^ 65 := by
  have hroot := sqrt_issued_lt issued
  unfold exactBaseline exactLimit
  generalize Nat.sqrt (issued.toNat / 10 ^ 6) = root at hroot ⊢
  have hbond : max root 1 * 10 ^ 6 ≤ 4294968 * 10 ^ 6 := Nat.mul_le_mul_right _ (by omega)
  calc max root 1 * 10 ^ 6 * (960 + root)
      ≤ 4294968 * 10 ^ 6 * (960 + root) := Nat.mul_le_mul_right _ hbond
    _ ≤ 4294968 * 10 ^ 6 * 4295928 := Nat.mul_le_mul_left _ (by omega)
    _ < 2 ^ 65 := by decide

/-! ## The root -/

theorem integerSqrtFloor_eq (n : ℕ) : integerSqrtFloor n = Nat.sqrt n := by
  unfold integerSqrtFloor
  by_cases h : n < 2
  · have hn : n = 0 ∨ n = 1 := by omega
    rcases hn with rfl | rfl <;> simp
  · rw [if_neg h]
    exact IntegerSqrt.newton_eq_sqrt (by omega)

/-- A pressure of 65 bits and a limit of 23 bits leave room in every product. -/
theorem toNat_dynamicAssay (amount : FlakeAmount) {numerator denominator limit : ℕ}
    (hnumerator : numerator < 2 ^ 65) (hpos : 0 < limit) (hlimit : limit < 2 ^ 23) :
    (dynamicAssay amount numerator denominator limit).toNat =
      min (exactAssay amount.toNat numerator denominator limit) (2 ^ 64 - 1) := by
  have hscale : flakesPerOpl.toNat = 10 ^ 6 := rfl
  have hplaces : decimalPlaces.toNat = 6 := rfl
  have hamount := amount.toNat_lt
  unfold dynamicAssay
  by_cases hzero : amount = 0 ∨ numerator = 0 ∨ denominator = 0
  · rw [if_pos hzero]
    unfold exactAssay
    rcases hzero with rfl | rfl | rfl <;> simp
  rw [if_neg hzero]
  dsimp only
  have hscaled {n : ℕ} (h : n < 2 ^ 65) :
      saturatingMul128 (saturatingMul128 n (10 ^ 6)) (10 ^ 6) = n * 10 ^ 12 := by
    have hinner : saturatingMul128 n (10 ^ 6) = n * 10 ^ 6 := saturatingMul128_of_lt (by omega)
    rw [hinner, saturatingMul128_of_lt (by omega)]
    ring
  have hpressure : Nat.sqrt (numerator * 10 ^ 12 / denominator) < 2 ^ 53 := by
    rw [Nat.sqrt_lt]
    have hdiv := Nat.div_le_self (numerator * 10 ^ 12) denominator
    omega
  have hroot : Nat.sqrt (limit * 10 ^ 12) < 2 ^ 32 := by
    rw [Nat.sqrt_lt]
    omega
  have hrootpos : 0 < Nat.sqrt (limit * 10 ^ 12) := by
    rw [Nat.sqrt_pos]
    omega
  have hproduct : amount.toNat * Nat.sqrt (numerator * 10 ^ 12 / denominator) < 2 ^ 128 := by
    calc amount.toNat * Nat.sqrt (numerator * 10 ^ 12 / denominator)
        ≤ 2 ^ 64 * 2 ^ 53 := Nat.mul_le_mul hamount.le hpressure.le
      _ < 2 ^ 128 := by decide
  have hdenominator : saturatingMul128 6 (Nat.sqrt (limit * 10 ^ 12)) =
      6 * Nat.sqrt (limit * 10 ^ 12) := saturatingMul128_of_lt (by omega)
  rw [hscale, hplaces, hscaled hnumerator, hscaled (by omega), integerSqrtFloor_eq,
    integerSqrtFloor_eq, hdenominator, saturatingMul128_of_lt hproduct, if_neg (by omega),
    toNat_clamp]
  rfl

/-! ## The assays -/

variable (refiners : RefinerSet) (issued : FlakeAmount)

/-- The assay of a bond, where the stake after it is at most the greatest word. -/
theorem toNat_bondAssay (amount : FlakeAmount) :
    (bondAssay amount refiners issued).toNat =
      min (exactAssay amount.toNat
          (min (refiners.totalBondedStake.toNat + amount.toNat) (2 ^ 64 - 1))
          (exactBaseline issued.toNat) (exactLimit issued.toNat)) (2 ^ 64 - 1) := by
  have hroot := sqrt_issued_lt issued
  unfold bondAssay
  rw [bondBaseline_eq, RefinerSet.activeRefinerLimit_eq, toNat_dynamicAssay,
    MachineInt.toNat_saturatingAdd]
  · have hword := (MachineInt.saturatingAdd refiners.totalBondedStake amount).toNat_lt
    omega
  · unfold exactLimit
    omega
  · unfold exactLimit
    omega

/-- The assay of an unbond. Without any stake both sides are 0. -/
theorem toNat_unbondAssay (amount : FlakeAmount) :
    (unbondAssay amount refiners issued).toNat =
      min (exactAssay amount.toNat (exactBaseline issued.toNat) refiners.totalBondedStake.toNat
        (exactLimit issued.toNat)) (2 ^ 64 - 1) := by
  have hroot := sqrt_issued_lt issued
  unfold unbondAssay
  dsimp only
  by_cases hnone : refiners.totalBondedStake = 0
  · rw [if_pos hnone, hnone]
    unfold exactAssay
    simp
  · rw [if_neg hnone, bondBaseline_eq, RefinerSet.activeRefinerLimit_eq,
      toNat_dynamicAssay amount (exactBaseline_lt issued)]
    · unfold exactLimit
      omega
    · unfold exactLimit
      omega

/-- For all amounts, stakes and supplies, the assays are those of the exact formula, where the
stake after a bond stops at the greatest word, and a greater amount does not pay less. -/
theorem assays_exact :
    (∀ amount, (bondAssay amount refiners issued).toNat =
        min (exactAssay amount.toNat
          (min (refiners.totalBondedStake.toNat + amount.toNat) (2 ^ 64 - 1))
          (exactBaseline issued.toNat) (exactLimit issued.toNat)) (2 ^ 64 - 1)) ∧
      (∀ amount, (unbondAssay amount refiners issued).toNat =
        min (exactAssay amount.toNat (exactBaseline issued.toNat) refiners.totalBondedStake.toNat
          (exactLimit issued.toNat)) (2 ^ 64 - 1)) ∧
      (∀ amount amount', amount ≤ amount' →
        bondAssay amount refiners issued ≤ bondAssay amount' refiners issued) ∧
      ∀ amount amount', amount ≤ amount' →
        unbondAssay amount refiners issued ≤ unbondAssay amount' refiners issued := by
  refine ⟨toNat_bondAssay refiners issued, toNat_unbondAssay refiners issued, ?_, ?_⟩
  · intro amount amount' hle
    rw [UInt64.le_iff_toNat_le] at hle ⊢
    rw [toNat_bondAssay, toNat_bondAssay]
    apply min_le_min_right
    apply exactAssay_mono hle
    omega
  · intro amount amount' hle
    rw [UInt64.le_iff_toNat_le] at hle ⊢
    rw [toNat_unbondAssay, toNat_unbondAssay]
    apply min_le_min_right
    exact exactAssay_mono hle le_rfl _ _

end TransactionDispatcher

namespace Reference

/-- A refiner that has bonded all that a word can hold. -/
def hoarder : RefinerSet where
  cachedRefiners := Registry.empty.put (RefinerInfo.new ObjectId.zero (2 ^ 64 - 1) 0 0)
  activeSet := []
  unbondingQueue := []

/-- On top of the greatest stake, a bond is assayed as if it added nothing. -/
theorem bond_not_exact :
    (TransactionDispatcher.bondAssay (10 ^ 12) hoarder 0).toNat ≠
      min (exactAssay (10 ^ 12) (hoarder.totalBondedStake.toNat + 10 ^ 12) (exactBaseline 0)
        (exactLimit 0)) (2 ^ 64 - 1) := by
  unfold exactAssay exactBaseline exactLimit
  simp only [← TransactionDispatcher.integerSqrtFloor_eq]
  decide +kernel

end Reference

end Opolys
