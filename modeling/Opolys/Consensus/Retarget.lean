import Mathlib.Algebra.Order.Round
import Mathlib.Data.Rat.Floor
import Mathlib.Tactic.FieldSimp
import Mathlib.Tactic.Ring
import Opolys.Consensus.Difficulty

/-!
# The retarget over a full window

Before the first epoch is over the difficulty is held. After it, while the window holds an
epoch of blocks and the one before, the retarget is the proportional adjustment over this
window, whatever the height.

* `computeRetarget_of_full` : the retarget of every later height.
* `adjustedDifficulty_eq_iff` : which windows leave the difficulty as it is.
* `adjustedDifficulty_exact_iff` : which windows are rounded as they should be.
-/

namespace Opolys

open MachineInt (saturatingAdd saturatingSub saturatingMul)

/-- The time an epoch should take, in milliseconds. -/
def epochTimeMs : ℕ := epoch.toNat * blockTargetTimeMs.toNat

theorem epochTimeMs_eq : epochTimeMs = 86400000 := rfl

/-- The proportional adjustment: the difficulty times the time an epoch should take over the
time it took. An epoch without any time makes it four times as hard. -/
def adjustedDifficulty (difficulty elapsedMs : UInt64) : UInt64 :=
  if elapsedMs = 0 then saturatingMul difficulty 4
  else
    max (UInt64.ofNat ((difficulty.toNat * epochTimeMs + elapsedMs.toNat / 2) / elapsedMs.toNat))
      minDifficulty

/-- The milliseconds a full window spans. At the last height a word can name the window is
taken to start one block later. -/
def windowMs (height : BlockHeight) (timestamps : List UInt64) : UInt64 :=
  saturatingMul (saturatingSub (timestamps.getD 960 0)
    (timestamps.getD (if height.toNat + 1 < 2 ^ 64 then 0 else 1) 0)) 1000

theorem computeRetarget_of_lt {height : BlockHeight} (h : height < epoch) (difficulty : UInt64)
    (timestamps : List UInt64) :
    computeRetarget difficulty height timestamps = max difficulty minDifficulty := by
  unfold computeRetarget
  rw [if_pos h]

theorem computeRetarget_of_full {height : BlockHeight} {timestamps : List UInt64}
    (h : ¬height < epoch) (hfull : timestamps.length = 961) (difficulty : UInt64) :
    computeRetarget difficulty height timestamps =
      adjustedDifficulty difficulty (windowMs height timestamps) := by
  have hge : epoch.toNat ≤ height.toNat := not_lt.mp (mt UInt64.lt_iff_toNat_lt.mpr h)
  have hlt := height.toNat_lt
  have hlength : (UInt64.ofNat 961).toNat = 961 := rfl
  have hone : (1 : UInt64).toNat = 1 := rfl
  have hepoch := toNat_epoch
  rw [hepoch] at hge
  have hstart : ¬saturatingSub height epoch <
      saturatingSub (saturatingAdd height 1) (UInt64.ofNat 961) := by
    rw [UInt64.lt_iff_toNat_lt, MachineInt.toNat_saturatingSub, MachineInt.toNat_saturatingSub,
      MachineInt.toNat_saturatingAdd, hlength, hepoch, hone]
    omega
  have hindex : (saturatingSub height epoch -
      saturatingSub (saturatingAdd height 1) (UInt64.ofNat 961)).toNat =
        if height.toNat + 1 < 2 ^ 64 then 0 else 1 := by
    rw [MachineInt.toNat_sub_of_le
      (not_lt.mp (mt UInt64.lt_iff_toNat_lt.mpr hstart)), MachineInt.toNat_saturatingSub,
      MachineInt.toNat_saturatingSub, MachineInt.toNat_saturatingAdd, hlength, hepoch, hone]
    split <;> omega
  have hend : ¬961 - 1 ≤ if height.toNat + 1 < 2 ^ 64 then 0 else 1 := by
    split <;> omega
  unfold computeRetarget
  dsimp only
  rw [if_neg h, hfull, if_neg hstart, hindex, if_neg hend]
  rfl

/-- Whether a window leaves the difficulty as it is: the difficulty times the time an epoch
should take is the difficulty times the time it took, but for the rounding. A word drops
multiples of `2 ^ 64`, and below 1 nothing is left to lower. -/
def OnSchedule (difficulty elapsedMs : UInt64) : Prop :=
  if elapsedMs = 0 then difficulty.toNat = 2 ^ 64 - 1
  else
    let least := if difficulty.toNat ≤ 1 then 0 else difficulty.toNat
    ∃ k, (k * 2 ^ 64 + least) * elapsedMs.toNat ≤
        difficulty.toNat * epochTimeMs + elapsedMs.toNat / 2 ∧
      difficulty.toNat * epochTimeMs + elapsedMs.toNat / 2 <
        (k * 2 ^ 64 + (max difficulty.toNat 1 + 1)) * elapsedMs.toNat

theorem adjustedDifficulty_eq_iff (difficulty elapsedMs : UInt64) :
    adjustedDifficulty difficulty elapsedMs = max difficulty minDifficulty ↔
      OnSchedule difficulty elapsedMs := by
  have hd := difficulty.toNat_lt
  have hfour : (4 : UInt64).toNat = 4 := rfl
  unfold adjustedDifficulty OnSchedule
  rw [← UInt64.toNat_inj, MachineInt.toNat_max, toNat_minDifficulty]
  split
  · rw [MachineInt.toNat_saturatingMul, hfour]
    omega
  · rename_i hne
    have hpos : 0 < elapsedMs.toNat := by
      have hzero : elapsedMs.toNat ≠ (0 : UInt64).toNat := mt UInt64.toNat_inj.mp hne
      rw [UInt64.toNat_zero] at hzero
      omega
    rw [MachineInt.toNat_max, toNat_minDifficulty, UInt64.toNat_ofNat']
    generalize difficulty.toNat * epochTimeMs + elapsedMs.toNat / 2 = numerator
    have hquotient (k least : ℕ) : (k * 2 ^ 64 + least) * elapsedMs.toNat ≤ numerator ↔
        k * 2 ^ 64 + least ≤ numerator / elapsedMs.toNat :=
      (Nat.le_div_iff_mul_le hpos).symm
    have hquotient' (k most : ℕ) : numerator < (k * 2 ^ 64 + most) * elapsedMs.toNat ↔
        numerator / elapsedMs.toNat < k * 2 ^ 64 + most :=
      (Nat.div_lt_iff_lt_mul hpos).symm
    dsimp only
    simp only [hquotient, hquotient']
    generalize numerator / elapsedMs.toNat = quotient
    constructor
    · intro h
      refine ⟨quotient / 2 ^ 64, ?_, ?_⟩
      · split <;> omega
      · omega
    · rintro ⟨k, hle, hlt⟩
      split at hle <;> omega

/-! ## The exact retarget -/

/-- A quotient of natural numbers rounded to the nearest, as it is computed: half of the
divisor is added first. -/
theorem round_div_eq (n : ℕ) {d : ℕ} (hd : 0 < d) :
    round ((n : ℚ) / d) = ((n + d / 2) / d : ℕ) := by
  have hne : (d : ℚ) ≠ 0 := Nat.cast_ne_zero.mpr hd.ne'
  have hhalf : (n : ℚ) / d + 1 / 2 = ((2 * n + d : ℕ) : ℚ) / (2 * d : ℕ) := by
    push_cast
    field_simp
  have hquotient : (2 * n + d) / (2 * d) = (n + d / 2) / d := by
    rw [← Nat.div_div_eq_div_mul]
    congr 1
    omega
  rw [round_eq, hhalf, Rat.floor_natCast_div_natCast, ← hquotient]
  rfl

/-- What the retarget should be: the difficulty times the time an epoch should take over the
time it took, rounded to the nearest, and at least 1. -/
def exactRetarget (difficulty elapsedMs : ℕ) : ℤ :=
  max 1 (round ((difficulty * epochTimeMs : ℕ) / (elapsedMs : ℚ)))

theorem exactRetarget_eq (difficulty : ℕ) {elapsedMs : ℕ} (h : 0 < elapsedMs) :
    exactRetarget difficulty elapsedMs =
      (max 1 ((difficulty * epochTimeMs + elapsedMs / 2) / elapsedMs) : ℕ) := by
  unfold exactRetarget
  rw [round_div_eq _ h]
  push_cast
  rfl

/-- Where a window takes at least half its time, the retarget is exact and at most doubles the
difficulty, as long as the quotient fits into a word. -/
theorem adjustedDifficulty_exact_iff {difficulty elapsedMs : UInt64}
    (hpos : 1 ≤ difficulty.toNat) (hhalf : epochTimeMs ≤ 2 * elapsedMs.toNat) :
    ((adjustedDifficulty difficulty elapsedMs).toNat : ℤ) =
          exactRetarget difficulty.toNat elapsedMs.toNat ∧
        (adjustedDifficulty difficulty elapsedMs).toNat ≤ 2 * difficulty.toNat ↔
      difficulty.toNat * epochTimeMs + elapsedMs.toNat / 2 < 2 ^ 64 * elapsedMs.toNat := by
  have hms := epochTimeMs_eq
  have helapsed : 0 < elapsedMs.toNat := by omega
  have hne : elapsedMs ≠ 0 := by
    rintro rfl
    exact absurd helapsed (by decide)
  have hdouble : (difficulty.toNat * epochTimeMs + elapsedMs.toNat / 2) / elapsedMs.toNat ≤
      2 * difficulty.toNat := by
    refine Nat.le_of_lt_add_one ((Nat.div_lt_iff_lt_mul helapsed).mpr ?_)
    have hmul := Nat.mul_le_mul_left difficulty.toNat hhalf
    have hcomm : (2 * difficulty.toNat + 1) * elapsedMs.toNat =
        difficulty.toNat * (2 * elapsedMs.toNat) + elapsedMs.toNat := by ring
    rw [hcomm]
    omega
  rw [exactRetarget_eq _ helapsed, Nat.cast_inj, ← Nat.div_lt_iff_lt_mul helapsed]
  unfold adjustedDifficulty
  rw [if_neg hne, MachineInt.toNat_max, toNat_minDifficulty, UInt64.toNat_ofNat']
  generalize (difficulty.toNat * epochTimeMs + elapsedMs.toNat / 2) / elapsedMs.toNat = quotient
    at hdouble ⊢
  have hmod := Nat.mod_lt quotient (by decide : 0 < 2 ^ 64)
  constructor
  · rintro ⟨hexact, -⟩
    omega
  · intro hfits
    rw [Nat.mod_eq_of_lt hfits]
    exact ⟨Nat.max_comm _ _, by omega⟩
end Opolys
