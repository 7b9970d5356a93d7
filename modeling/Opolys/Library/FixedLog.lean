import Mathlib.Analysis.SpecialFunctions.Log.Deriv
import Mathlib.Analysis.SpecificLimits.Basic

/-!
# Logarithms in fixed point

A program without floating point finds the logarithm of a number by its octave and its mantissa
`m` in `[1, 2)`, where `ln m` is twice the series of `artanh y` at `y = (m - 1) / (m + 1)`. All
numbers are multiples of `1 / s`, and every product and quotient is rounded down.

* `mantissa_le_log`, `log_sub_mantissa_le` : the mantissa is never too large, and the sum of the
  roundings is all it is too small by.
* `word_mono`, `word_le_log`, `log_sub_word_le` : the same for all positive numbers.
-/

namespace FixedLog

variable {s : ℕ}

/-! ## Series in fixed point -/

/-- The sum of `t / d` over the divisors, where `t` is multiplied by `q / s` after each of them. -/
def series (s q : ℕ) : List ℕ → ℕ → ℕ
  | [], _ => 0
  | d :: ds, t => t / d + series s q ds (t * q / s)

@[simp] theorem series_zero (s q : ℕ) (ds : List ℕ) : series s q ds 0 = 0 := by
  induction ds with
  | nil => rfl
  | cons d ds ih => simp [series, ih]

theorem series_mono {q q' t t' : ℕ} (ds : List ℕ) (hq : q ≤ q') (ht : t ≤ t') :
    series s q ds t ≤ series s q' ds t' := by
  induction ds generalizing t t' with
  | nil => exact le_rfl
  | cons d ds ih =>
    unfold series
    apply Nat.add_le_add
    · exact Nat.div_le_div_right ht
    · exact ih (Nat.div_le_div_right (Nat.mul_le_mul ht hq))

theorem series_le {q t : ℕ} (ds : List ℕ) (hq : q ≤ s) : series s q ds t ≤ ds.length * t := by
  induction ds generalizing t with
  | nil => simp [series]
  | cons d ds ih =>
    have hnext : t * q / s ≤ t := Nat.div_le_of_le_mul (by
      rw [Nat.mul_comm s]
      exact Nat.mul_le_mul_left t hq)
    have hfirst := Nat.div_le_self t d
    have hrest := (ih (t := t * q / s)).trans (Nat.mul_le_mul_left ds.length hnext)
    unfold series
    rw [List.length_cons, Nat.succ_mul]
    omega

/-! ## The exact series -/

/-- The same sum without rounding. -/
noncomputable def realSeries (q : ℝ) : List ℕ → ℝ → ℝ
  | [], _ => 0
  | d :: ds, x => x / d + realSeries q ds (x * q)

theorem cast_div_le_real (t d : ℕ) : ((t / d : ℕ) : ℝ) ≤ (t : ℝ) / d := Nat.cast_div_le

theorem real_div_le_cast (t d : ℕ) : (t : ℝ) / d ≤ ((t / d : ℕ) : ℝ) + 1 := by
  rcases Nat.eq_zero_or_pos d with rfl | hd
  · simp
  · rw [div_le_iff₀ (Nat.cast_pos.mpr hd)]
    have hlt : t < (t / d + 1) * d := Nat.lt_mul_of_div_lt (Nat.lt_succ_self _) hd
    exact_mod_cast hlt.le

/-- From arguments that are not too large, the sum is not too large. -/
theorem series_le_real (hs : 0 < s) {q t : ℕ} {q' x : ℝ} (ds : List ℕ) (ht : (t : ℝ) ≤ s * x)
    (hq : (q : ℝ) ≤ s * q') : (series s q ds t : ℝ) ≤ s * realSeries q' ds x := by
  induction ds generalizing t x with
  | nil => simp [series, realSeries]
  | cons d ds ih =>
    have hs' : (0 : ℝ) < s := Nat.cast_pos.mpr hs
    have hfirst : ((t / d : ℕ) : ℝ) ≤ s * (x / d) := by
      calc ((t / d : ℕ) : ℝ) ≤ (t : ℝ) / d := cast_div_le_real t d
        _ ≤ s * x / d := div_le_div_of_nonneg_right ht (Nat.cast_nonneg d)
        _ = s * (x / d) := mul_div_assoc _ _ _
    have hnext : ((t * q / s : ℕ) : ℝ) ≤ s * (x * q') := by
      calc ((t * q / s : ℕ) : ℝ) ≤ ((t * q : ℕ) : ℝ) / s := cast_div_le_real _ _
        _ = t * q / s := by rw [Nat.cast_mul]
        _ ≤ (s * x) * (s * q') / s := by
            apply div_le_div_of_nonneg_right _ hs'.le
            exact mul_le_mul ht hq (Nat.cast_nonneg q) ((Nat.cast_nonneg t).trans ht)
        _ = s * (x * q') := by field_simp
    unfold series realSeries
    rw [Nat.cast_add, mul_add]
    exact add_le_add hfirst (ih hnext)

/-- Every term loses at most one unit, and the part of an error `e` that its divisor leaves. The
error of the factor adds to that of the next term, and one more unit is lost. -/
theorem real_sub_series_le (hs : 0 < s) {q t : ℕ} {q' x e δ : ℝ} (ds : List ℕ) (hx : 0 ≤ x)
    (hq0 : 0 ≤ q') (hq1 : q' ≤ 1) (he : 0 ≤ e) (hδ : 0 ≤ δ) (ht : s * x - t ≤ e)
    (hqle : (q : ℝ) ≤ s * q') (hq : s * q' - q ≤ δ) (hstep : x * δ + q' * e + 1 ≤ e) :
    s * realSeries q' ds x - series s q ds t ≤ (ds.map fun d : ℕ => 1 + e / d).sum := by
  induction ds generalizing t x with
  | nil => simp [series, realSeries]
  | cons d ds ih =>
    have hs' : (0 : ℝ) < s := Nat.cast_pos.mpr hs
    have hfirst : s * (x / d) - ((t / d : ℕ) : ℝ) ≤ 1 + e / d := by
      have hround := real_div_le_cast t d
      have herror : (s * x - t) / d ≤ e / d := div_le_div_of_nonneg_right ht (Nat.cast_nonneg d)
      have hsplit : (s * x - t) / d = s * (x / d) - (t : ℝ) / d := by ring
      linarith
    have hless : x * q' ≤ x := mul_le_of_le_one_right hx hq1
    have hnext : s * (x * q') - ((t * q / s : ℕ) : ℝ) ≤ e := by
      have hround := real_div_le_cast (t * q) s
      have hfactor : x * (s * q' - q) ≤ x * δ := mul_le_mul_of_nonneg_left hq hx
      have hterm : (q / s : ℝ) * (s * x - t) ≤ q' * e := by
        have hratio : (q / s : ℝ) ≤ q' := by
          rw [div_le_iff₀ hs']
          linarith
        calc (q / s : ℝ) * (s * x - t) ≤ (q / s : ℝ) * e :=
              mul_le_mul_of_nonneg_left ht (by positivity)
          _ ≤ q' * e := mul_le_mul_of_nonneg_right hratio he
      have hsplit : s * (x * q') - (t * q : ℝ) / s =
          x * (s * q' - q) + (q / s : ℝ) * (s * x - t) := by
        field_simp
        ring
      rw [Nat.cast_mul] at hround
      linarith
    have hstep' : x * q' * δ + q' * e + 1 ≤ e := by
      have hδ' : x * q' * δ ≤ x * δ := mul_le_mul_of_nonneg_right hless hδ
      linarith
    have hrest := ih (mul_nonneg hx hq0) hnext hstep'
    unfold series realSeries
    rw [List.map_cons, List.sum_cons, Nat.cast_add, mul_add]
    linarith

/-! ## The series of the logarithm -/

/-- The divisors `1, 3, .., 2 n - 1`. -/
def odds (n : ℕ) : List ℕ := (List.range n).map fun i => 2 * i + 1

theorem realSeries_map_range (q x : ℝ) (n : ℕ) (f : ℕ → ℕ) :
    realSeries q ((List.range n).map f) x = ∑ i ∈ Finset.range n, x * q ^ i / f i := by
  induction n generalizing x f with
  | zero => simp [realSeries]
  | succ n ih =>
    rw [List.range_succ_eq_map, List.map_cons, List.map_map, realSeries, ih,
      Finset.sum_range_succ']
    simp only [Function.comp_apply, pow_zero, mul_one]
    rw [add_comm]
    congr 1
    apply Finset.sum_congr rfl
    intro i _
    rw [pow_succ', mul_assoc]

theorem two_mul_realSeries_odds (y : ℝ) (n : ℕ) :
    2 * realSeries (y ^ 2) (odds n) y =
      ∑ i ∈ Finset.range n, 2 * (1 / (2 * (i : ℝ) + 1)) * y ^ (2 * i + 1) := by
  unfold odds
  rw [realSeries_map_range, Finset.mul_sum]
  apply Finset.sum_congr rfl
  intro i _
  push_cast
  rw [← pow_mul, pow_succ]
  ring

/-- The series stays below the logarithm. -/
theorem two_mul_realSeries_le_log {y : ℝ} (hy0 : 0 ≤ y) (hy1 : y < 1) (n : ℕ) :
    2 * realSeries (y ^ 2) (odds n) y ≤ Real.log (1 + y) - Real.log (1 - y) := by
  have habs : |y| < 1 := by rwa [abs_of_nonneg hy0]
  rw [two_mul_realSeries_odds]
  apply sum_le_hasSum _ _ (Real.hasSum_log_sub_log_of_abs_lt_one habs)
  intro i _
  positivity

/-- What is missing after `n` terms. -/
theorem log_sub_two_mul_realSeries_le {y : ℝ} (hy0 : 0 ≤ y) (hy1 : y < 1) (n : ℕ) :
    Real.log (1 + y) - Real.log (1 - y) - 2 * realSeries (y ^ 2) (odds n) y ≤
      2 * y ^ (2 * n + 1) / (1 - y ^ 2) := by
  have habs : |y| < 1 := by rwa [abs_of_nonneg hy0]
  have hsquare : y ^ 2 < 1 := pow_lt_one₀ hy0 hy1 two_ne_zero
  have htail := (hasSum_nat_add_iff' n).mpr (Real.hasSum_log_sub_log_of_abs_lt_one habs)
  have hgeometric := (hasSum_geometric_of_lt_one (sq_nonneg y) hsquare).mul_left
    (2 * y ^ (2 * n + 1))
  rw [two_mul_realSeries_odds, div_eq_mul_inv]
  apply hasSum_le _ htail hgeometric
  intro i
  have hpow : y ^ (2 * (i + n) + 1) = y ^ (2 * n + 1) * (y ^ 2) ^ i := by
    rw [← pow_mul, ← pow_add]
    congr 1
    ring
  have hdivisor : (1 : ℝ) / (2 * ((i + n : ℕ) : ℝ) + 1) ≤ 1 := by
    rw [div_le_one (by positivity)]
    have := Nat.cast_nonneg (α := ℝ) (i + n)
    linarith
  rw [hpow]
  calc 2 * (1 / (2 * ((i + n : ℕ) : ℝ) + 1)) * (y ^ (2 * n + 1) * (y ^ 2) ^ i)
      ≤ 2 * 1 * (y ^ (2 * n + 1) * (y ^ 2) ^ i) := by gcongr
    _ = 2 * y ^ (2 * n + 1) * (y ^ 2) ^ i := by ring

/-! ## Mantissas -/

/-- The logarithm of `m / s` by `n` terms of the series, 0 up to `s`. -/
def mantissa (s n m : ℕ) : ℕ :=
  if m ≤ s then 0
  else
    let y := (m - s) * s / (m + s)
    2 * series s (y * y / s) (odds n) y

theorem argument_mono {k k' : ℕ} (h : k ≤ k') : k * s / (k + s + s) ≤ k' * s / (k' + s + s) := by
  rcases Nat.eq_zero_or_pos s with rfl | hs
  · simp
  rw [Nat.le_div_iff_mul_le (by omega)]
  apply Nat.le_of_mul_le_mul_right (c := k + s + s) _ (by omega)
  calc k * s / (k + s + s) * (k' + s + s) * (k + s + s)
      = k * s / (k + s + s) * (k + s + s) * (k' + s + s) := Nat.mul_right_comm _ _ _
    _ ≤ k * s * (k' + s + s) := Nat.mul_le_mul_right _ (Nat.div_mul_le_self _ _)
    _ ≤ k' * s * (k + s + s) := by nlinarith [Nat.mul_le_mul_right (s * s) h]

/-- A greater mantissa has no smaller logarithm. -/
theorem mantissa_mono (n : ℕ) {m m' : ℕ} (h : m ≤ m') : mantissa s n m ≤ mantissa s n m' := by
  unfold mantissa
  by_cases hm : m ≤ s
  · rw [if_pos hm]
    exact Nat.zero_le _
  · obtain ⟨k, rfl⟩ := Nat.exists_eq_add_of_le' (not_le.mp hm).le
    obtain ⟨k', rfl⟩ := Nat.exists_eq_add_of_le' ((not_le.mp hm).le.trans h)
    rw [if_neg hm, if_neg (by omega), Nat.add_sub_cancel, Nat.add_sub_cancel]
    have hargument := argument_mono (s := s) (Nat.le_of_add_le_add_right h)
    apply Nat.mul_le_mul_left
    exact series_mono _ (Nat.div_le_div_right (Nat.mul_le_mul hargument hargument)) hargument

/-- The argument of the series for a mantissa. -/
noncomputable def argument (s m : ℕ) : ℝ := ((m : ℝ) - s) / (m + s)

section Argument

variable {m : ℕ} (hs : 0 < s) (hm : s ≤ m)

include hs hm

theorem argument_nonneg : 0 ≤ argument s m := by
  have hs' : (0 : ℝ) < s := Nat.cast_pos.mpr hs
  have hm' : (s : ℝ) ≤ m := Nat.cast_le.mpr hm
  unfold argument
  apply div_nonneg
  · linarith
  · linarith

theorem argument_lt_one : argument s m < 1 := by
  have hs' : (0 : ℝ) < s := Nat.cast_pos.mpr hs
  have hm' : (s : ℝ) ≤ m := Nat.cast_le.mpr hm
  unfold argument
  rw [div_lt_one (by linarith)]
  linarith

theorem argument_le_third (hm2 : m ≤ 2 * s) : argument s m ≤ 1 / 3 := by
  have hs' : (0 : ℝ) < s := Nat.cast_pos.mpr hs
  have hm' : (s : ℝ) ≤ m := Nat.cast_le.mpr hm
  have hm2' : (m : ℝ) ≤ 2 * s := by exact_mod_cast hm2
  unfold argument
  rw [div_le_div_iff₀ (by linarith) (by norm_num)]
  linarith

/-- The two logarithms of the series are that of the mantissa. -/
theorem log_argument : Real.log (1 + argument s m) - Real.log (1 - argument s m) =
    Real.log ((m : ℝ) / s) := by
  have hs' : (0 : ℝ) < s := Nat.cast_pos.mpr hs
  have hm' : (s : ℝ) ≤ m := Nat.cast_le.mpr hm
  have hnonneg := argument_nonneg hs hm
  have hlt := argument_lt_one hs hm
  rw [← Real.log_div (by linarith) (by linarith)]
  congr 1
  have hsum : (m : ℝ) + s ≠ 0 := by linarith
  have hnum : 1 + argument s m = 2 * m / (m + s) := by
    unfold argument
    field_simp
    ring
  have hden : 1 - argument s m = 2 * s / (m + s) := by
    unfold argument
    field_simp
    ring
  rw [hnum, hden, div_div_div_cancel_right₀ hsum, mul_div_mul_left _ _ two_ne_zero]

omit hs in
/-- The argument in fixed point is less than a unit below the exact one. -/
theorem fixedArgument_bounds :
    (((m - s) * s / (m + s) : ℕ) : ℝ) ≤ s * argument s m ∧
      s * argument s m - (((m - s) * s / (m + s) : ℕ) : ℝ) ≤ 1 := by
  have hle := cast_div_le_real ((m - s) * s) (m + s)
  have hge := real_div_le_cast ((m - s) * s) (m + s)
  have hexact : (((m - s) * s : ℕ) : ℝ) / ((m + s : ℕ) : ℝ) = s * argument s m := by
    unfold argument
    rw [Nat.cast_mul, Nat.cast_sub hm, Nat.cast_add, mul_comm, mul_div_assoc]
  rw [hexact] at hle hge
  exact ⟨hle, by linarith⟩

omit hm in
/-- The square of an argument in fixed point is not too large. -/
theorem fixedSquare_le {y : ℕ} {x : ℝ} (hy : (y : ℝ) ≤ s * x) :
    ((y * y / s : ℕ) : ℝ) ≤ s * x ^ 2 := by
  have hs' : (0 : ℝ) < s := Nat.cast_pos.mpr hs
  calc ((y * y / s : ℕ) : ℝ) ≤ ((y * y : ℕ) : ℝ) / s := cast_div_le_real _ _
    _ = y * y / s := by rw [Nat.cast_mul]
    _ ≤ (s * x) * (s * x) / s := by
        apply div_le_div_of_nonneg_right _ hs'.le
        exact mul_le_mul hy hy (Nat.cast_nonneg y) ((Nat.cast_nonneg y).trans hy)
    _ = s * x ^ 2 := by field_simp

omit hm in
/-- And it loses a unit besides what the argument has lost. -/
theorem sub_fixedSquare_le {y : ℕ} {x : ℝ} (hy : (y : ℝ) ≤ s * x) (hy1 : s * x - y ≤ 1) :
    s * x ^ 2 - ((y * y / s : ℕ) : ℝ) ≤ 2 * x + 1 := by
  have hs' : (0 : ℝ) < s := Nat.cast_pos.mpr hs
  have hround := real_div_le_cast (y * y) s
  have hfactor : (s * x - y) * (s * x + y) ≤ 1 * (s * x + s * x) := by
    apply mul_le_mul hy1 _ _ zero_le_one
    · linarith
    · have := Nat.cast_nonneg (α := ℝ) y
      linarith
  have hsplit : s * x ^ 2 - (y * y : ℝ) / s = (s * x - y) * (s * x + y) / s := by
    field_simp
    ring
  have hquotient : (s * x - y) * (s * x + y) / s ≤ 2 * x := by
    rw [div_le_iff₀ hs']
    linarith
  rw [Nat.cast_mul] at hround
  linarith

theorem mantissa_le_log (n : ℕ) : (mantissa s n m : ℝ) ≤ s * Real.log ((m : ℝ) / s) := by
  have hs' : (0 : ℝ) < s := Nat.cast_pos.mpr hs
  have hlog := two_mul_realSeries_le_log (argument_nonneg hs hm) (argument_lt_one hs hm) n
  rw [log_argument hs hm] at hlog
  obtain ⟨hy, -⟩ := fixedArgument_bounds hm
  unfold mantissa
  by_cases hone : m ≤ s
  · obtain rfl : m = s := le_antisymm hone hm
    rw [if_pos le_rfl, div_self hs'.ne']
    simp
  · rw [if_neg hone]
    dsimp only
    generalize (m - s) * s / (m + s) = y at hy
    have hsquare := fixedSquare_le hs hy
    have hseries := series_le_real hs (odds n) hy hsquare
    push_cast
    calc 2 * (series s (y * y / s) (odds n) y : ℝ)
        ≤ 2 * (s * realSeries (argument s m ^ 2) (odds n) (argument s m)) := by linarith
      _ = s * (2 * realSeries (argument s m ^ 2) (odds n) (argument s m)) := by ring
      _ ≤ s * Real.log ((m : ℝ) / s) := mul_le_mul_of_nonneg_left hlog hs'.le

/-- How far the logarithm of a mantissa can be off: twice a unit and 7/4 of a unit over the divisor
for every term, and what the series leaves out. -/
noncomputable def slack (s n : ℕ) : ℝ :=
  2 * ((odds n).map fun d : ℕ => 1 + (7 / 4 : ℝ) / d).sum + s * (9 / 4 * (1 / 3) ^ (2 * n + 1))

theorem log_sub_mantissa_le (hm2 : m ≤ 2 * s) (n : ℕ) :
    s * Real.log ((m : ℝ) / s) - mantissa s n m ≤ slack s n := by
  have hs' : (0 : ℝ) < s := Nat.cast_pos.mpr hs
  have hnonneg := argument_nonneg hs hm
  have hthird := argument_le_third hs hm hm2
  have hlog := log_sub_two_mul_realSeries_le hnonneg (argument_lt_one hs hm) n
  rw [log_argument hs hm] at hlog
  obtain ⟨hy, hy1⟩ := fixedArgument_bounds hm
  have htail : 2 * argument s m ^ (2 * n + 1) / (1 - argument s m ^ 2) ≤
      9 / 4 * (1 / 3) ^ (2 * n + 1) := by
    have hpow : argument s m ^ (2 * n + 1) ≤ (1 / 3) ^ (2 * n + 1) :=
      pow_le_pow_left₀ hnonneg hthird _
    have hsquare : argument s m ^ 2 ≤ (1 / 3) ^ 2 := pow_le_pow_left₀ hnonneg hthird _
    have hrest : (0 : ℝ) < 1 - argument s m ^ 2 := by linarith
    have hnonneg' : (0 : ℝ) ≤ (1 / 3) ^ (2 * n + 1) := by positivity
    rw [div_le_iff₀ hrest]
    calc 2 * argument s m ^ (2 * n + 1) ≤ 2 * (1 / 3) ^ (2 * n + 1) := by linarith
      _ = 9 / 4 * (1 / 3) ^ (2 * n + 1) * (1 - (1 / 3) ^ 2) := by ring
      _ ≤ 9 / 4 * (1 / 3) ^ (2 * n + 1) * (1 - argument s m ^ 2) := by gcongr
  have hlog' : s * Real.log ((m : ℝ) / s) -
      2 * (s * realSeries (argument s m ^ 2) (odds n) (argument s m)) ≤
        s * (9 / 4 * (1 / 3) ^ (2 * n + 1)) := by
    have hscaled := mul_le_mul_of_nonneg_left (hlog.trans htail) hs'.le
    linarith
  unfold mantissa slack
  by_cases hone : m ≤ s
  · obtain rfl : m = s := le_antisymm hone hm
    rw [if_pos le_rfl, div_self hs'.ne', Real.log_one, mul_zero, Nat.cast_zero, sub_zero]
    have hsum : 0 ≤ ((odds n).map fun d : ℕ => 1 + (7 / 4 : ℝ) / d).sum := by
      apply List.sum_nonneg
      intro r hr
      obtain ⟨d, -, rfl⟩ := List.mem_map.mp hr
      positivity
    positivity
  · rw [if_neg hone]
    dsimp only
    generalize (m - s) * s / (m + s) = y at hy hy1
    have hsquare := fixedSquare_le hs hy
    have hsquare1 := sub_fixedSquare_le hs hy hy1
    have hargument : argument s m ^ 2 ≤ 1 / 9 := by
      have := pow_le_pow_left₀ hnonneg hthird 2
      linarith
    have hseries : s * realSeries (argument s m ^ 2) (odds n) (argument s m) -
        series s (y * y / s) (odds n) y ≤ ((odds n).map fun d : ℕ => 1 + (7 / 4 : ℝ) / d).sum := by
      apply real_sub_series_le hs (δ := 5 / 3) (odds n) hnonneg (sq_nonneg _) (by linarith)
        (by norm_num) (by norm_num) (by linarith) hsquare (by linarith)
      linarith
    push_cast
    linarith

end Argument

/-! ## Words -/

/-- The mantissa of a number with `f` fractional bits. -/
def normalize (f v : ℕ) : ℕ :=
  if Nat.log2 v ≤ f then v * 2 ^ (f - Nat.log2 v) else v / 2 ^ (Nat.log2 v - f)

/-- The logarithm of a number, where `c` is that of 2. -/
def word (f n c v : ℕ) : ℕ :=
  if v ≤ 1 then 0 else Nat.log2 v * c + mantissa (2 ^ f) n (normalize f v)

theorem word_eq (f n c : ℕ) {v : ℕ} (hv : 1 ≤ v) :
    word f n c v = Nat.log2 v * c + mantissa (2 ^ f) n (normalize f v) := by
  unfold word
  by_cases hone : v ≤ 1
  · obtain rfl : v = 1 := le_antisymm hone hv
    have hlog : Nat.log2 1 = 0 := by decide
    unfold normalize mantissa
    simp [hlog]
  · rw [if_neg hone]

section Normalize

variable {v : ℕ} (hv : 1 ≤ v) (f : ℕ)

include hv

theorem two_pow_log2_le : 2 ^ Nat.log2 v ≤ v := Nat.log2_self_le (by omega)

theorem normalize_bounds : 2 ^ f ≤ normalize f v ∧ normalize f v < 2 ^ (f + 1) := by
  have hle := two_pow_log2_le hv
  have hlt : v < 2 ^ (Nat.log2 v + 1) := Nat.lt_log2_self
  unfold normalize
  generalize Nat.log2 v = k at hle hlt
  by_cases hk : k ≤ f
  · rw [if_pos hk]
    have hpow : 2 ^ f = 2 ^ k * 2 ^ (f - k) := by rw [← pow_add, Nat.add_sub_cancel' hk]
    constructor
    · rw [hpow]
      exact Nat.mul_le_mul_right _ hle
    · calc v * 2 ^ (f - k) < 2 ^ (k + 1) * 2 ^ (f - k) :=
            Nat.mul_lt_mul_of_pos_right hlt (by positivity)
        _ = 2 ^ (f + 1) := by rw [pow_succ, pow_succ, hpow]; ring
  · rw [if_neg hk]
    obtain ⟨j, rfl⟩ := Nat.exists_eq_add_of_le (not_le.mp hk).le
    rw [Nat.add_sub_cancel_left]
    constructor
    · rw [Nat.le_div_iff_mul_le (by positivity), ← pow_add]
      exact hle
    · rw [Nat.div_lt_iff_lt_mul (by positivity), ← pow_add]
      calc v < 2 ^ (f + j + 1) := hlt
        _ = 2 ^ (f + 1 + j) := by congr 1; omega

/-- A mantissa is cut off by less than a unit. -/
theorem normalize_real : (normalize f v : ℝ) / 2 ^ f ≤ v / 2 ^ Nat.log2 v ∧
    (v : ℝ) / 2 ^ Nat.log2 v ≤ (normalize f v + 1) / 2 ^ f := by
  have hf : (0 : ℝ) < 2 ^ f := by positivity
  unfold normalize
  generalize Nat.log2 v = k
  by_cases hk : k ≤ f
  · rw [if_pos hk]
    obtain ⟨j, rfl⟩ := Nat.exists_eq_add_of_le hk
    rw [Nat.add_sub_cancel_left]
    have hexact : ((v * 2 ^ j : ℕ) : ℝ) / 2 ^ (k + j) = v / 2 ^ k := by
      push_cast
      rw [pow_add]
      field_simp
    rw [add_div, hexact]
    refine ⟨le_rfl, ?_⟩
    have hunit : (0 : ℝ) ≤ 1 / 2 ^ (k + j) := by positivity
    linarith
  · rw [if_neg hk]
    obtain ⟨j, rfl⟩ := Nat.exists_eq_add_of_le (not_le.mp hk).le
    rw [Nat.add_sub_cancel_left]
    have hle := cast_div_le_real v (2 ^ j)
    have hge := real_div_le_cast v (2 ^ j)
    have hexact : (v : ℝ) / 2 ^ (f + j) = (v : ℝ) / ((2 ^ j : ℕ) : ℝ) / 2 ^ f := by
      push_cast
      rw [div_div, pow_add, mul_comm]
    rw [hexact]
    exact ⟨div_le_div_of_nonneg_right hle hf.le, div_le_div_of_nonneg_right hge hf.le⟩

end Normalize

theorem normalize_mono (f : ℕ) {v w : ℕ} (hlog : Nat.log2 v = Nat.log2 w) (h : v ≤ w) :
    normalize f v ≤ normalize f w := by
  unfold normalize
  rw [hlog]
  by_cases hk : Nat.log2 w ≤ f
  · rw [if_pos hk, if_pos hk]
    exact Nat.mul_le_mul_right _ h
  · rw [if_neg hk, if_neg hk]
    exact Nat.div_le_div_right h

theorem log2_mono {v w : ℕ} (hv : 1 ≤ v) (h : v ≤ w) : Nat.log2 v ≤ Nat.log2 w := by
  rw [Nat.le_log2 (by omega)]
  exact (two_pow_log2_le hv).trans h

/-- Within an octave the mantissa grows, and between octaves it falls by no more than the logarithm
of 2, which the greatest mantissa does not exceed. -/
theorem word_mono {f n c : ℕ} (hc : mantissa (2 ^ f) n (2 ^ (f + 1) - 1) ≤ c) {v w : ℕ}
    (h : v ≤ w) : word f n c v ≤ word f n c w := by
  by_cases hv : v ≤ 1
  · unfold word
    rw [if_pos hv]
    exact Nat.zero_le _
  have hv1 : 1 ≤ v := by omega
  rw [word_eq f n c hv1, word_eq f n c (hv1.trans h)]
  rcases (log2_mono hv1 h).eq_or_lt with hlog | hlog
  · rw [hlog]
    apply Nat.add_le_add_left
    exact mantissa_mono n (normalize_mono f hlog h)
  · have hgreatest : normalize f v ≤ 2 ^ (f + 1) - 1 := by
      have := (normalize_bounds hv1 f).2
      omega
    calc Nat.log2 v * c + mantissa (2 ^ f) n (normalize f v)
        ≤ Nat.log2 v * c + c := Nat.add_le_add_left ((mantissa_mono n hgreatest).trans hc) _
      _ = (Nat.log2 v + 1) * c := (Nat.succ_mul _ _).symm
      _ ≤ Nat.log2 w * c := Nat.mul_le_mul_right _ hlog
      _ ≤ Nat.log2 w * c + mantissa (2 ^ f) n (normalize f w) := Nat.le_add_right _ _

/-- The logarithm of a number is that of its octave and that of its mantissa. -/
theorem log_eq_octave {v : ℕ} (hv : 1 ≤ v) :
    Real.log v = Nat.log2 v * Real.log 2 + Real.log ((v : ℝ) / 2 ^ Nat.log2 v) := by
  have hpos : (0 : ℝ) < v := Nat.cast_pos.mpr hv
  rw [Real.log_div hpos.ne' (by positivity), Real.log_pow]
  ring

/-- With a logarithm of 2 that is not too large, no logarithm is. -/
theorem word_le_log {f n c v : ℕ} (hc : (c : ℝ) ≤ 2 ^ f * Real.log 2) (hv : 1 ≤ v) :
    (word f n c v : ℝ) ≤ 2 ^ f * Real.log v := by
  have hf : (0 : ℝ) < 2 ^ f := by positivity
  obtain ⟨hlo, -⟩ := normalize_bounds hv f
  have hmantissa := mantissa_le_log (Nat.two_pow_pos f) hlo n
  have hpos : (0 : ℝ) < normalize f v := Nat.cast_pos.mpr ((Nat.two_pow_pos f).trans_le hlo)
  have hcut : Real.log ((normalize f v : ℝ) / 2 ^ f) ≤ Real.log ((v : ℝ) / 2 ^ Nat.log2 v) := by
    apply Real.log_le_log
    · positivity
    · exact (normalize_real hv f).1
  have hoctaves : (Nat.log2 v : ℝ) * c ≤ Nat.log2 v * (2 ^ f * Real.log 2) :=
    mul_le_mul_of_nonneg_left hc (Nat.cast_nonneg _)
  have hscaled := mul_le_mul_of_nonneg_left hcut hf.le
  rw [word_eq f n c hv, log_eq_octave hv]
  push_cast at hmantissa ⊢
  linarith

/-- What a cut mantissa loses in its logarithm is less than a unit. -/
theorem log_sub_log_normalize_le {v : ℕ} (hv : 1 ≤ v) (f : ℕ) :
    2 ^ f * Real.log ((v : ℝ) / 2 ^ Nat.log2 v) - 2 ^ f * Real.log ((normalize f v : ℝ) / 2 ^ f) ≤
      1 := by
  have hf : (0 : ℝ) < 2 ^ f := by positivity
  obtain ⟨hlo, -⟩ := normalize_bounds hv f
  have hlo' : (2 : ℝ) ^ f ≤ normalize f v := by exact_mod_cast hlo
  have hpos : (0 : ℝ) < normalize f v := hf.trans_le hlo'
  have hv' : (0 : ℝ) < v := Nat.cast_pos.mpr hv
  have hcut : Real.log ((v : ℝ) / 2 ^ Nat.log2 v) ≤
      Real.log (((normalize f v : ℝ) + 1) / 2 ^ f) := by
    apply Real.log_le_log
    · positivity
    · exact (normalize_real hv f).2
  have hsplit : ((normalize f v : ℝ) + 1) / 2 ^ f =
      (normalize f v : ℝ) / 2 ^ f * (1 + 1 / normalize f v) := by
    field_simp
  have hone : Real.log (1 + 1 / (normalize f v : ℝ)) ≤ 1 / normalize f v := by
    have := Real.log_le_sub_one_of_pos (show 0 < 1 + 1 / (normalize f v : ℝ) by positivity)
    linarith
  have hunit : (2 : ℝ) ^ f * (1 / normalize f v) ≤ 1 := by
    rw [mul_one_div, div_le_one hpos]
    exact hlo'
  rw [hsplit, Real.log_mul (by positivity) (by positivity)] at hcut
  have hscaled := mul_le_mul_of_nonneg_left (hcut.trans (add_le_add_right hone _)) hf.le
  linarith

/-- Every octave loses what the logarithm of 2 does, a cut mantissa loses a unit, and the rest is
lost in the series. -/
theorem log_sub_word_le {f n c v : ℕ} (hv : 1 ≤ v) :
    2 ^ f * Real.log v - word f n c v ≤
      Nat.log2 v * (2 ^ f * Real.log 2 - c) + 1 + slack (2 ^ f) n := by
  obtain ⟨hlo, hhi⟩ := normalize_bounds hv f
  have hmantissa := log_sub_mantissa_le (Nat.two_pow_pos f) hlo (by
    rw [pow_succ] at hhi
    omega) n
  have hcut := log_sub_log_normalize_le hv f
  rw [word_eq f n c hv, log_eq_octave hv]
  push_cast at hmantissa ⊢
  linarith

end FixedLog
