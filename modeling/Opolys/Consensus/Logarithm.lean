import Mathlib.Analysis.Complex.ExponentialBounds
import Opolys.Consensus.Emission
import Opolys.Library.FixedLog

/-!
# The accuracy of the logarithm

The logarithm of the vein yield, with its series cut off when a term vanishes and its saturating
sums, is the fixed-point logarithm with 32 fractional bits, 20 terms and the constant of the source
for `ln 2`. It is at most 128 units of `2⁻³²` below the real logarithm, never above it, and
monotone, so that the ratio of two words is known to a thousandth.
-/

namespace Opolys

namespace Emission

open MachineInt (saturatingAdd128 saturatingMul128 max128)

/-- The loop that stops at a vanishing term computes the whole series. -/
theorem lnSeries_eq {q : ℕ} (hq : q ≤ 2 ^ 32) {ds : List ℕ} {t sum : ℕ}
    (h : sum + ds.length * t < 2 ^ 128) :
    lnSeries q ds t sum = sum + FixedLog.series (2 ^ 32) q ds t := by
  induction ds generalizing t sum with
  | nil => rfl
  | cons d ds ih =>
    have hfirst := Nat.div_le_self t d
    have hnext : t * q / 2 ^ 32 ≤ t := Nat.div_le_of_le_mul (by
      rw [Nat.mul_comm]
      exact Nat.mul_le_mul_right t hq)
    have hrest := Nat.mul_le_mul_left ds.length hnext
    rw [List.length_cons, Nat.succ_mul] at h
    have hadd : saturatingAdd128 sum (t / d) = sum + t / d := by
      unfold saturatingAdd128 max128
      omega
    unfold lnSeries FixedLog.series
    simp only [hadd, Nat.shiftRight_eq_div_pow]
    by_cases hzero : t * q / 2 ^ 32 = 0
    · rw [if_pos hzero, hzero, FixedLog.series_zero, Nat.add_zero]
    · rw [if_neg hzero, ih (by omega), Nat.add_assoc]

theorem lnMantissaQ32_eq {m : ℕ} (hm : m < 2 ^ 33) :
    lnMantissaQ32 m = FixedLog.mantissa (2 ^ 32) 20 m := by
  unfold lnMantissaQ32 FixedLog.mantissa q32One
  by_cases hone : m ≤ 2 ^ 32
  · rw [if_pos hone, if_pos hone]
  rw [if_neg hone, if_neg hone]
  simp only [Nat.shiftLeft_eq, Nat.shiftRight_eq_div_pow]
  have hy : (m - 2 ^ 32) * 2 ^ 32 / (m + 2 ^ 32) ≤ 2 ^ 32 := by
    apply Nat.div_le_of_le_mul
    apply Nat.mul_le_mul_right
    omega
  generalize (m - 2 ^ 32) * 2 ^ 32 / (m + 2 ^ 32) = y at hy
  have hsquare : y * y / 2 ^ 32 ≤ 2 ^ 32 := Nat.div_le_of_le_mul (Nat.mul_le_mul hy hy)
  have hseries := FixedLog.series_le (t := y) lnDivisors hsquare
  have hlength : lnDivisors.length = 20 := rfl
  rw [hlength] at hseries
  rw [lnSeries_eq hsquare (by rw [hlength]; omega), Nat.zero_add,
    MachineInt.saturatingMul128_of_lt (by omega), Nat.mul_comm]
  rfl

/-- The logarithm of a word is the fixed-point logarithm. -/
theorem lnU64Q32_eq (value : UInt64) : lnU64Q32 value = FixedLog.word 32 20 ln2Q32 value.toNat := by
  unfold lnU64Q32 FixedLog.word
  by_cases hone : value ≤ 1
  · rw [if_pos hone, if_pos (show value.toNat ≤ 1 from UInt64.le_iff_toNat_le.mp hone)]
  have hpos : ¬value.toNat ≤ 1 := by
    intro h
    exact hone (UInt64.le_iff_toNat_le.mpr h)
  rw [if_neg hone, if_neg hpos]
  have hlog : Nat.log2 value.toNat < 64 := (Nat.log2_lt (by omega)).mpr value.toNat_lt
  have hnormalize := (FixedLog.normalize_bounds (not_le.mp hpos).le 32).2
  have hmantissa := FixedLog.mantissa_mono (s := 2 ^ 32) 20 hnormalize.le
  have hlargest : FixedLog.mantissa (2 ^ 32) 20 (2 ^ (32 + 1)) < 2 ^ 32 := by decide +kernel
  have hmul : saturatingMul128 (Nat.log2 value.toNat) ln2Q32 = Nat.log2 value.toNat * ln2Q32 := by
    apply MachineInt.saturatingMul128_of_lt
    unfold ln2Q32
    omega
  simp only [Nat.shiftLeft_eq, Nat.shiftRight_eq_div_pow, hmul]
  change saturatingAdd128 _ (lnMantissaQ32 (FixedLog.normalize 32 value.toNat)) = _
  rw [lnMantissaQ32_eq hnormalize]
  unfold saturatingAdd128 max128 ln2Q32
  omega

/-- The constant is not greater than `ln 2`, and hardly more than a unit smaller. -/
theorem ln2Q32_bounds : (ln2Q32 : ℝ) ≤ 2 ^ 32 * Real.log 2 ∧
    2 ^ 32 * Real.log 2 - ln2Q32 ≤ 31 / 25 := by
  have hnear := abs_sub_le_iff.mp Real.log_two_near_10
  unfold ln2Q32
  constructor
  · norm_num
    linarith [hnear.2]
  · norm_num
    linarith [hnear.1]

/-- What the twenty terms of the series can lose. -/
theorem slack_le : FixedLog.slack (2 ^ 32) 20 ≤ 487 / 10 := by
  unfold FixedLog.slack FixedLog.odds
  norm_num [List.range_succ]

/-- The logarithm of a word is never too large. -/
theorem lnU64Q32_le_log {v : UInt64} (hv : 1 ≤ v.toNat) :
    (lnU64Q32 v : ℝ) ≤ 2 ^ 32 * Real.log v.toNat := by
  rw [lnU64Q32_eq]
  exact FixedLog.word_le_log ln2Q32_bounds.1 hv

/-- And it is at most 128 units too small. -/
theorem log_sub_lnU64Q32_le {v : UInt64} (hv : 1 ≤ v.toNat) :
    2 ^ 32 * Real.log v.toNat - lnU64Q32 v ≤ 128 := by
  have hword := FixedLog.log_sub_word_le (f := 32) (n := 20) (c := ln2Q32) hv
  have hlog : Nat.log2 v.toNat ≤ 63 := by
    have := (Nat.log2_lt (by omega)).mpr v.toNat_lt
    omega
  have hlog' : (Nat.log2 v.toNat : ℝ) ≤ 63 := by exact_mod_cast hlog
  obtain ⟨hle, hge⟩ := ln2Q32_bounds
  have hoctaves : (Nat.log2 v.toNat : ℝ) * (2 ^ 32 * Real.log 2 - ln2Q32) ≤
      63 * (31 / 25) := by
    apply mul_le_mul hlog' hge
    · linarith
    · norm_num
  have hslack := slack_le
  rw [lnU64Q32_eq]
  calc (2 : ℝ) ^ 32 * Real.log v.toNat - FixedLog.word 32 20 ln2Q32 v.toNat
      ≤ Nat.log2 v.toNat * (2 ^ 32 * Real.log 2 - ln2Q32) + 1 + FixedLog.slack (2 ^ 32) 20 := hword
    _ ≤ 63 * (31 / 25) + 1 + 487 / 10 := by
        apply add_le_add _ hslack
        exact add_le_add_left hoctaves 1
    _ ≤ 128 := by norm_num

theorem lnU64Q32_mono {v w : UInt64} (h : v ≤ w) : lnU64Q32 v ≤ lnU64Q32 w := by
  rw [lnU64Q32_eq, lnU64Q32_eq]
  apply FixedLog.word_mono
  · decide +kernel
  · exact UInt64.le_iff_toNat_le.mp h

theorem lnU64Q32_lt (v : UInt64) : lnU64Q32 v < 2 ^ 38 := by
  have hmax : v ≤ UInt64.ofNat (2 ^ 64 - 1) := by
    apply UInt64.le_iff_toNat_le.mpr
    have hlt := v.toNat_lt
    rw [MachineInt.toNat_ofNat_of_lt (by omega)]
    omega
  have hlargest : lnU64Q32 (UInt64.ofNat (2 ^ 64 - 1)) < 2 ^ 38 := by decide +kernel
  exact (lnU64Q32_mono hmax).trans_lt hlargest

/-! ## Ratios -/

/-- Below the saturation a value is rounded to the nearest thousandth. -/
theorem toNat_q32ToMilli {q : ℕ} (hq : q < 2 ^ 38) :
    (q32ToMilli q).toNat = (q * 1000 + 2 ^ 31) / 2 ^ 32 := by
  have hmul : saturatingMul128 q 1000 = q * 1000 := MachineInt.saturatingMul128_of_lt (by omega)
  have hadd : saturatingAdd128 (q * 1000) (2 ^ 32 / 2) = q * 1000 + 2 ^ 31 := by
    unfold saturatingAdd128 max128
    omega
  unfold q32ToMilli q32One
  rw [hmul, hadd, MachineInt.toNat_clamp, Nat.min_eq_left (by omega)]

theorem abs_q32ToMilli_sub_le {q : ℕ} (hq : q < 2 ^ 38) :
    |((q32ToMilli q).toNat : ℝ) - 1000 * (q / 2 ^ 32)| ≤ 1 / 2 := by
  have hle := FixedLog.cast_div_le_real (q * 1000 + 2 ^ 31) (2 ^ 32)
  have hlt : q * 1000 + 2 ^ 31 < ((q * 1000 + 2 ^ 31) / 2 ^ 32 + 1) * 2 ^ 32 :=
    Nat.lt_mul_of_div_lt (Nat.lt_succ_self _) (by norm_num)
  have hlt' : (q * 1000 + 2 ^ 31 : ℝ) < (((q * 1000 + 2 ^ 31) / 2 ^ 32 : ℕ) + 1) * 2 ^ 32 := by
    exact_mod_cast hlt
  rw [toNat_q32ToMilli hq, abs_sub_le_iff]
  generalize (q * 1000 + 2 ^ 31) / 2 ^ 32 = r at hle hlt'
  push_cast at hle
  constructor
  · linarith
  · linarith

theorem abs_lnRatioMilli_sub_le {n d : UInt64} (hd : 1 ≤ d) (hn : d < n) :
    |((lnRatioMilli n d).toNat : ℝ) - 1000 * Real.log ((n.toNat : ℝ) / d.toNat)| ≤ 1 := by
  have hd' : 1 ≤ d.toNat := UInt64.le_iff_toNat_le.mp hd
  have hn' : d.toNat < n.toNat := UInt64.lt_iff_toNat_lt.mp hn
  have hmono : lnU64Q32 d ≤ lnU64Q32 n := lnU64Q32_mono (UInt64.le_iff_toNat_le.mpr hn'.le)
  have hsmall : lnU64Q32 n - lnU64Q32 d < 2 ^ 38 := (Nat.sub_le _ _).trans_lt (lnU64Q32_lt n)
  have hdne : (d.toNat : ℝ) ≠ 0 := Nat.cast_ne_zero.mpr (by omega)
  have hnne : (n.toNat : ℝ) ≠ 0 := Nat.cast_ne_zero.mpr (by omega)
  have hround := abs_sub_le_iff.mp (abs_q32ToMilli_sub_le hsmall)
  have hn0 := lnU64Q32_le_log (hd'.trans hn'.le)
  have hn1 := log_sub_lnU64Q32_le (hd'.trans hn'.le)
  have hd0 := lnU64Q32_le_log hd'
  have hd1 := log_sub_lnU64Q32_le hd'
  have hratio : lnRatioMilli n d = q32ToMilli (lnU64Q32 n - lnU64Q32 d) := by
    unfold lnRatioMilli
    rw [if_neg]
    rintro (hzero | hle)
    · rw [hzero] at hd'
      exact absurd hd' (by decide)
    · exact absurd (UInt64.le_iff_toNat_le.mp hle) (not_le.mpr hn')
  rw [hratio, Real.log_div hnne hdne, abs_sub_le_iff]
  rw [Nat.cast_sub hmono] at hround
  constructor
  · linarith [hround.1]
  · linarith [hround.2]

/-- The logarithm of every positive word is at most 128 units below the real one and never above
it, a greater word has no smaller logarithm, and the logarithm of a ratio above 1 is exact to a
thousandth. -/
theorem logarithm_accurate (v : UInt64) :
    (1 ≤ v → 0 ≤ 2 ^ 32 * Real.log v.toNat - lnU64Q32 v ∧
      2 ^ 32 * Real.log v.toNat - lnU64Q32 v ≤ 128) ∧
    (∀ w : UInt64, v ≤ w → lnU64Q32 v ≤ lnU64Q32 w) ∧
    ∀ n : UInt64, 1 ≤ v → v < n →
      |((lnRatioMilli n v).toNat : ℝ) - 1000 * Real.log ((n.toNat : ℝ) / v.toNat)| ≤ 1 := by
  refine ⟨?_, ?_, ?_⟩
  · intro hv
    have hv' : 1 ≤ v.toNat := UInt64.le_iff_toNat_le.mp hv
    constructor
    · linarith [lnU64Q32_le_log hv']
    · exact log_sub_lnU64Q32_le hv'
  · intro w h
    exact lnU64Q32_mono h
  · intro n hv hn
    exact abs_lnRatioMilli_sub_le hv hn

/-- Ten is just above the octave of 8. -/
theorem logarithm_accurate_ten :
    (0 ≤ 2 ^ 32 * Real.log (10 : UInt64).toNat - lnU64Q32 10 ∧
      2 ^ 32 * Real.log (10 : UInt64).toNat - lnU64Q32 10 ≤ 128) ∧
    lnU64Q32 10 ≤ lnU64Q32 11 ∧
      |((lnRatioMilli 11 10).toNat : ℝ) -
        1000 * Real.log (((11 : UInt64).toNat : ℝ) / (10 : UInt64).toNat)| ≤ 1 :=
  ⟨(logarithm_accurate 10).1 (by decide), (logarithm_accurate 10).2.1 11 (by decide),
    (logarithm_accurate 10).2.2 11 (by decide) (by decide)⟩

end Emission

end Opolys
