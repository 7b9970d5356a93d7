import Opolys.Consensus.Logarithm

/-!
# The bounds of the vein yield

The yield is a monotone function of the logarithm of a ratio, which is monotone in the target and
antitone in the hash. So a smaller hash never earns less, and the richest vein is that of the
greatest target and the hash 1. No step of the formula stops at the greatest value of its type, the
last one apart: the reward itself, for a base reward near the greatest amount.
-/

namespace Opolys

namespace Emission

/-! ## Ratios -/

/-- The logarithm of a ratio in thousandths, with numbers of any size. -/
def unboundedRatioMilli (numerator denominator : ℕ) : ℕ :=
  ((FixedLog.word 32 20 ln2Q32 numerator - FixedLog.word 32 20 ln2Q32 denominator) * 1000 +
    2 ^ 31) / 2 ^ 32

theorem toNat_lnRatioMilli {n d : UInt64} (hd : 1 ≤ d.toNat) :
    (lnRatioMilli n d).toNat = unboundedRatioMilli n.toNat d.toNat := by
  have hsmall : lnU64Q32 n - lnU64Q32 d < 2 ^ 38 := (Nat.sub_le _ _).trans_lt (lnU64Q32_lt n)
  have hne : d ≠ 0 := by
    intro h
    rw [h] at hd
    exact absurd hd (by decide)
  unfold lnRatioMilli unboundedRatioMilli
  rw [← lnU64Q32_eq, ← lnU64Q32_eq]
  by_cases hle : n ≤ d
  · rw [if_pos (Or.inr hle), Nat.sub_eq_zero_of_le (lnU64Q32_mono hle)]
    rfl
  · rw [if_neg (by tauto), toNat_q32ToMilli hsmall]

/-- A greater ratio has no smaller logarithm. -/
theorem unboundedRatioMilli_mono {n n' d d' : ℕ} (hn : n ≤ n') (hd : d' ≤ d) :
    unboundedRatioMilli n d ≤ unboundedRatioMilli n' d' := by
  have hc : FixedLog.mantissa (2 ^ 32) 20 (2 ^ (32 + 1) - 1) ≤ ln2Q32 := by decide +kernel
  have hnumerator := FixedLog.word_mono hc hn
  have hdenominator := FixedLog.word_mono hc hd
  unfold unboundedRatioMilli
  apply Nat.div_le_div_right
  omega

/-! ## Yields -/

/-- The yield in thousandths, with numbers of any size. -/
def unboundedVeinYield (target hash : ℕ) : ℕ :=
  1000 + IntegerSqrt.nearest (unboundedRatioMilli target hash * 1000)

theorem unboundedVeinYield_mono {target target' hash hash' : ℕ} (ht : target ≤ target')
    (hh : hash' ≤ hash) : unboundedVeinYield target hash ≤ unboundedVeinYield target' hash' := by
  apply Nat.add_le_add_left
  apply IntegerSqrt.nearest_mono
  exact Nat.mul_le_mul_right _ (unboundedRatioMilli_mono ht hh)

/-- The greatest ratio is that of the greatest target and the hash 1. -/
theorem unboundedRatioMilli_le {target hash : ℕ} (ht : target ≤ 2 ^ 63 - 1) (hh : 1 ≤ hash) :
    unboundedRatioMilli target hash ≤ 43668 := by
  have hlargest : unboundedRatioMilli (2 ^ 63 - 1) 1 = 43668 := by decide +kernel
  exact (unboundedRatioMilli_mono ht hh).trans_eq hlargest

theorem unboundedVeinYield_le {target hash : ℕ} (ht : target ≤ 2 ^ 63 - 1) (hh : 1 ≤ hash) :
    unboundedVeinYield target hash ≤ 7608 := by
  have hratio := unboundedRatioMilli_le ht hh
  apply Nat.add_le_add_left (n := IntegerSqrt.nearest _) (m := 6608)
  apply IntegerSqrt.nearest_le_iff.mpr
  omega

/-- At or above the target there is no bonus. -/
theorem unboundedVeinYield_of_le {target hash : ℕ} (h : target ≤ hash) :
    unboundedVeinYield target hash = 1000 := by
  have hc : FixedLog.mantissa (2 ^ 32) 20 (2 ^ (32 + 1) - 1) ≤ ln2Q32 := by decide +kernel
  have hword := FixedLog.word_mono hc h
  unfold unboundedVeinYield unboundedRatioMilli
  rw [Nat.sub_eq_zero_of_le hword]
  decide +kernel

theorem difficultyToTarget_le (difficulty : UInt64) :
    (difficultyToTarget difficulty).toNat ≤ 2 ^ 63 - 1 := by
  unfold difficultyToTarget
  by_cases h : difficulty = 0 ∨ difficulty > 64
  · rw [if_pos h]
    exact Nat.zero_le _
  · rw [if_neg h]
    have hpos : difficulty.toNat ≠ 0 := fun hzero => h (Or.inl (UInt64.toNat_inj.mp hzero))
    have hpow : 2 ^ (64 - difficulty.toNat) ≤ 2 ^ 63 :=
      Nat.pow_le_pow_right (by omega) (by omega)
    rw [MachineInt.toNat_ofNat_of_lt (by omega)]
    omega

/-- For a hash that is not 0 the yield is the formula with numbers of any size. -/
theorem toNat_computeVeinYield {difficulty hash : UInt64} (hd : 1 ≤ difficulty)
    (hh : 1 ≤ hash) : (computeVeinYield difficulty hash).toNat =
      unboundedVeinYield (difficultyToTarget difficulty).toNat hash.toNat := by
  have hdne : ¬difficulty = 0 := by
    rintro rfl
    exact absurd hd (by decide)
  have hhne : ¬hash = 0 := by
    rintro rfl
    exact absurd hh (by decide)
  have hh' : 1 ≤ hash.toNat := UInt64.le_iff_toNat_le.mp hh
  have htarget := difficultyToTarget_le difficulty
  unfold computeVeinYield
  rw [if_neg (by tauto)]
  dsimp only
  by_cases hzero : difficultyToTarget difficulty = 0
  · rw [if_pos hzero, hzero]
    exact (unboundedVeinYield_of_le (Nat.zero_le _)).symm
  rw [if_neg hzero]
  by_cases hle : difficultyToTarget difficulty ≤ hash
  · rw [if_pos hle, unboundedVeinYield_of_le (UInt64.le_iff_toNat_le.mp hle)]
    rfl
  rw [if_neg hle, toNat_lnRatioMilli hh']
  have hratio := unboundedRatioMilli_le htarget hh'
  have hyield := unboundedVeinYield_le htarget hh'
  unfold unboundedVeinYield at hyield ⊢
  rw [integerSqrtRound_eq_nearest (by omega)]
  generalize IntegerSqrt.nearest _ = root at hyield
  have hroot : (UInt64.ofNatClamp root).toNat = root := by
    rw [MachineInt.toNat_clamp]
    omega
  rw [MachineInt.toNat_saturatingAdd, hroot]
  change min (1000 + root) (2 ^ 64 - 1) = 1000 + root
  omega

/-- A hash of 0 has the yield of a hash without a bonus. -/
theorem computeVeinYield_zero (difficulty : UInt64) : computeVeinYield difficulty 0 = 1000 := by
  unfold computeVeinYield
  rw [if_pos (Or.inr rfl)]

theorem computeVeinYield_bounds {difficulty : UInt64} (hd : 1 ≤ difficulty) (hash : UInt64) :
    1000 ≤ (computeVeinYield difficulty hash).toNat ∧
      (computeVeinYield difficulty hash).toNat ≤ 7608 := by
  by_cases hzero : hash = 0
  · rw [hzero, computeVeinYield_zero]
    decide
  have hh : 1 ≤ hash.toNat := by
    have : hash.toNat ≠ 0 := fun h => hzero (UInt64.toNat_inj.mp h)
    omega
  rw [toNat_computeVeinYield hd (UInt64.le_iff_toNat_le.mpr hh)]
  constructor
  · exact Nat.le_add_right _ _
  · exact unboundedVeinYield_le (difficultyToTarget_le difficulty) hh

/-- A smaller hash never earns less. -/
theorem computeVeinYield_antitone {difficulty a b : UInt64} (hd : 1 ≤ difficulty) (ha : 1 ≤ a)
    (h : a ≤ b) : computeVeinYield difficulty b ≤ computeVeinYield difficulty a := by
  have hb : 1 ≤ b := by
    rw [UInt64.le_iff_toNat_le] at ha h ⊢
    exact ha.trans h
  rw [UInt64.le_iff_toNat_le, toNat_computeVeinYield hd ha, toNat_computeVeinYield hd hb]
  exact unboundedVeinYield_mono le_rfl (UInt64.le_iff_toNat_le.mp h)

/-! ## Words of 128 bits -/

/-- No product of the series leaves the 128-bit words. -/
def SeriesFits (y2Q32 : ℕ) : List ℕ → ℕ → Prop
  | [], _ => True
  | _ :: divisors, termQ32 =>
    termQ32 * y2Q32 < 2 ^ 128 ∧ SeriesFits y2Q32 divisors ((termQ32 * y2Q32) >>> 32)

/-- The argument of the series for a mantissa. -/
def lnArgument (mantissaQ32 : ℕ) : ℕ :=
  ((mantissaQ32 - q32One) <<< 32) / (mantissaQ32 + q32One)

/-- No number that the logarithm of a mantissa forms without saturation leaves the 128-bit
words. -/
structure MantissaFits (mantissaQ32 : ℕ) : Prop where
  shifted : (mantissaQ32 - q32One) <<< 32 < 2 ^ 128
  denominator : mantissaQ32 + q32One < 2 ^ 128
  square : lnArgument mantissaQ32 * lnArgument mantissaQ32 < 2 ^ 128
  series : SeriesFits ((lnArgument mantissaQ32 * lnArgument mantissaQ32) >>> 32) lnDivisors
    (lnArgument mantissaQ32)

theorem seriesFits {q t : ℕ} (ds : List ℕ) (hq : q ≤ 2 ^ 32) (ht : t ≤ 2 ^ 32) :
    SeriesFits q ds t := by
  induction ds generalizing t with
  | nil => trivial
  | cons d ds ih =>
    have hproduct : t * q ≤ 2 ^ 32 * 2 ^ 32 := Nat.mul_le_mul ht hq
    constructor
    · omega
    · apply ih
      rw [Nat.shiftRight_eq_div_pow]
      exact Nat.div_le_of_le_mul hproduct

theorem mantissaFits {m : ℕ} (hm : m < 2 ^ 33) : MantissaFits m := by
  have hy : lnArgument m ≤ 2 ^ 32 := by
    unfold lnArgument
    rw [Nat.shiftLeft_eq]
    apply Nat.div_le_of_le_mul
    apply Nat.mul_le_mul_right
    omega
  have hsquare := Nat.mul_le_mul hy hy
  constructor
  · rw [Nat.shiftLeft_eq]
    omega
  · unfold q32One
    omega
  · omega
  · apply seriesFits _ _ hy
    rw [Nat.shiftRight_eq_div_pow]
    exact Nat.div_le_of_le_mul hsquare

/-! ## Rewards -/

theorem toNat_computeBlockReward {difficulty : UInt64} (hd : 1 ≤ difficulty)
    (baseReward hash : UInt64) :
    (computeBlockReward baseReward difficulty hash).toNat =
      min ((baseReward / difficulty).toNat * (computeVeinYield difficulty hash).toNat / 1000)
        (2 ^ 64 - 1) := by
  have hmax : max difficulty minDifficulty = difficulty := by
    apply UInt64.toNat_inj.mp
    have hd' : 1 ≤ difficulty.toNat := UInt64.le_iff_toNat_le.mp hd
    rw [MachineInt.toNat_max, toNat_minDifficulty, Nat.max_eq_left hd']
  unfold computeBlockReward saturatingU128ToFlakes
  rw [hmax, MachineInt.toNat_clamp]

/-- The reward is between the base reward and 7.608 times the base reward. -/
theorem computeBlockReward_bounds {difficulty : UInt64} (hd : 1 ≤ difficulty)
    (baseReward hash : UInt64) :
    (baseReward / difficulty).toNat ≤ (computeBlockReward baseReward difficulty hash).toNat ∧
      1000 * (computeBlockReward baseReward difficulty hash).toNat ≤
        7608 * (baseReward / difficulty).toNat := by
  obtain ⟨hlo, hhi⟩ := computeVeinYield_bounds hd hash
  have hword := (baseReward / difficulty).toNat_lt
  rw [toNat_computeBlockReward hd]
  generalize (baseReward / difficulty).toNat = base at hword
  generalize (computeVeinYield difficulty hash).toNat = yield at hlo hhi
  have hbase : base * 1000 ≤ base * yield := Nat.mul_le_mul_left base hlo
  have hrich : base * yield ≤ base * 7608 := Nat.mul_le_mul_left base hhi
  omega

/-- At every difficulty a smaller hash never earns less, the yield is between 1 and 7.608, and the
reward between the base reward and 7.608 times the base reward. Nothing overflows or saturates on
the way, and the reward itself stops at the greatest amount only where it would exceed it. -/
theorem veinYield_bounded (difficulty : UInt64) (hd : 1 ≤ difficulty) :
    (∀ a b : UInt64, 1 ≤ a → a ≤ b →
      computeVeinYield difficulty b ≤ computeVeinYield difficulty a) ∧
    (∀ x : UInt64, 1000 ≤ (computeVeinYield difficulty x).toNat ∧
      (computeVeinYield difficulty x).toNat ≤ 7608) ∧
    (∀ x : UInt64, 1 ≤ x → (computeVeinYield difficulty x).toNat =
      unboundedVeinYield (difficultyToTarget difficulty).toNat x.toNat) ∧
    (∀ v : UInt64, 1 ≤ v → MantissaFits (FixedLog.normalize 32 v.toNat)) ∧
    ∀ baseReward x : UInt64,
      (baseReward / difficulty).toNat ≤ (computeBlockReward baseReward difficulty x).toNat ∧
      1000 * (computeBlockReward baseReward difficulty x).toNat ≤
        7608 * (baseReward / difficulty).toNat ∧
      (baseReward / difficulty).toNat * (computeVeinYield difficulty x).toNat < 2 ^ 128 ∧
      (computeBlockReward baseReward difficulty x).toNat =
        min ((baseReward / difficulty).toNat * (computeVeinYield difficulty x).toNat / 1000)
          (2 ^ 64 - 1) := by
  refine ⟨?_, computeVeinYield_bounds hd, ?_, ?_, ?_⟩
  · intro a b ha h
    exact computeVeinYield_antitone hd ha h
  · intro x hx
    exact toNat_computeVeinYield hd hx
  · intro v hv
    exact mantissaFits (FixedLog.normalize_bounds (UInt64.le_iff_toNat_le.mp hv) 32).2
  · intro baseReward x
    obtain ⟨hlo, hhi⟩ := computeBlockReward_bounds hd baseReward x
    refine ⟨hlo, hhi, ?_, toNat_computeBlockReward hd baseReward x⟩
    have hbase := (baseReward / difficulty).toNat_lt
    have hyield := (computeVeinYield difficulty x).toNat_lt
    calc (baseReward / difficulty).toNat * (computeVeinYield difficulty x).toNat
        < 2 ^ 64 * 2 ^ 64 := Nat.mul_lt_mul'' hbase hyield
      _ = 2 ^ 128 := by norm_num

/-- At difficulty 10 a hash of 7 earns no less than one of 8. -/
theorem veinYield_bounded_ten :
    computeVeinYield 10 8 ≤ computeVeinYield 10 7 ∧
      (computeVeinYield 10 7).toNat ≤ 7608 ∧
      1000 * (computeBlockReward 5000 10 7).toNat ≤ 7608 * ((5000 : UInt64) / 10).toNat :=
  ⟨(veinYield_bounded 10 (by decide)).1 7 8 (by decide) (by decide),
    ((veinYield_bounded 10 (by decide)).2.1 7).2,
    ((veinYield_bounded 10 (by decide)).2.2.2.2 5000 7).2.1⟩

/-- The richest vein of the greatest base reward is worth more than the greatest amount. -/
theorem blockReward_saturates : ∃ baseReward difficulty x : UInt64, 1 ≤ difficulty ∧
    (computeBlockReward baseReward difficulty x).toNat ≠
      (baseReward / difficulty).toNat * (computeVeinYield difficulty x).toNat / 1000 :=
  ⟨UInt64.ofNat (2 ^ 64 - 1), 1, 1, by decide +kernel⟩

end Emission

end Opolys
