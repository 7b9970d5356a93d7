import Opolys.Execution.Assay
import Opolys.Library.BoundedSqrt
import Opolys.Node.Reward

/-!
# Five square roots

The block rewards and the refiners search for an integer square root, the assays and the node's
splits iterate for it. In 128-bit words both loops end without leaving the words, below the greatest
word they find the same root, and both ways to round it give the nearest integer.
-/

namespace Opolys

open MachineInt (saturatingMul128 max128)

namespace Emission

/-- `integerSqrtFloor` in words, with a number of rounds. -/
def boundedSqrtFloor (rounds n : ℕ) : Option ℕ :=
  if n < 2 then some n
  else
    let bitLen := Nat.log2 n + 1
    let right := 2 ^ ((bitLen + 1) / 2)
    if right ≤ max128 then
      IntegerSqrt.boundedSearch max128 (fun m => saturatingMul128 m m) n rounds 1 right 1
    else none

/-- The search never leaves the words. -/
theorem boundedSqrtFloor_eq {n : ℕ} (h : n < 2 ^ 128) :
    ∃ rounds, boundedSqrtFloor rounds n = some (integerSqrtFloor n) := by
  by_cases hsmall : n < 2
  · refine ⟨0, ?_⟩
    unfold boundedSqrtFloor integerSqrtFloor
    rw [if_pos hsmall, if_pos hsmall]
  · have hlog : Nat.log2 n < 128 := (Nat.log2_lt (by omega)).mpr h
    have hright : 2 ^ ((Nat.log2 n + 1 + 1) / 2) ≤ 2 ^ 64 :=
      Nat.pow_le_pow_right (by omega) (by omega)
    refine ⟨2 ^ ((Nat.log2 n + 1 + 1) / 2) + 1, ?_⟩
    unfold boundedSqrtFloor integerSqrtFloor IntegerSqrt.binarySearch
    rw [if_neg hsmall, if_neg hsmall]
    dsimp only
    generalize 2 ^ ((Nat.log2 n + 1 + 1) / 2) = right at hright
    rw [if_pos (by unfold max128; omega)]
    exact IntegerSqrt.boundedSearch_eq _ n le_rfl (by unfold max128; omega) (by omega) 1

end Emission

/-- The iteration from a word, in words and with a number of rounds. -/
def boundedNewton (rounds n : ℕ) : Option ℕ :=
  if n < 2 then some n else IntegerSqrt.boundedNewton max128 n rounds n ((n + 1) / 2)

/-- The iteration never leaves the words. -/
theorem boundedNewton_eq {n : ℕ} (h : n < 2 ^ 128 - 1) :
    ∃ rounds, boundedNewton rounds n = some (TransactionDispatcher.integerSqrtFloor n) := by
  refine ⟨n + 1, ?_⟩
  unfold boundedNewton TransactionDispatcher.integerSqrtFloor IntegerSqrt.newton
  by_cases hsmall : n < 2
  · rw [if_pos hsmall, if_pos hsmall]
  · rw [if_neg hsmall, if_neg hsmall]
    exact IntegerSqrt.boundedNewton_eq h le_rfl (by omega) le_rfl

/-! ## Rounding -/

theorem integerSqrtRound_eq_nearest {n : ℕ} (h : n < 2 ^ 128 - 1) :
    integerSqrtRound n = IntegerSqrt.nearest n := by
  unfold integerSqrtRound
  by_cases hsmall : n < 2
  · have hn : n = 0 ∨ n = 1 := by omega
    rw [if_pos hsmall]
    rcases hn with rfl | rfl <;> simp [IntegerSqrt.nearest]
  · rw [if_neg hsmall, IntegerSqrt.newton_eq_sqrt (by omega)]
    exact Emission.rounded_eq_nearest h

/-- Below the greatest word all searches and iterations end within the words at the one root, and
both ways to round it give the one nearest integer. -/
theorem squareRoots_agree (n : ℕ) (h : n < 2 ^ 128 - 1) :
    (∃! r, r * r ≤ n ∧ n < (r + 1) * (r + 1)) ∧
    (∀ r, r * r ≤ n → n < (r + 1) * (r + 1) →
      (RefinerSet.integerSqrtFloor n = r ∧ Emission.integerSqrtFloor n = r ∧
        TransactionDispatcher.integerSqrtFloor n = r) ∧
      (∃ rounds, Emission.boundedSqrtFloor rounds n = some r) ∧
      ∃ rounds, boundedNewton rounds n = some r) ∧
    Emission.integerSqrtRound n = integerSqrtRound n ∧
    ∀ k : ℕ, k ≠ integerSqrtRound n →
      |(integerSqrtRound n : ℝ) - Real.sqrt n| < |(k : ℝ) - Real.sqrt n| := by
  have hroot : ∀ r, r * r ≤ n → n < (r + 1) * (r + 1) → Nat.sqrt n = r := by
    intro r hle hlt
    have hupper := Nat.sqrt_lt.mpr hlt
    have hlower := Nat.le_sqrt.mpr hle
    omega
  refine ⟨⟨Nat.sqrt n, ⟨Nat.sqrt_le n, Nat.lt_succ_sqrt n⟩, ?_⟩, ?_, ?_, ?_⟩
  · rintro r ⟨hle, hlt⟩
    exact (hroot r hle hlt).symm
  · intro r hle hlt
    obtain rfl := hroot r hle hlt
    have hsearch := Emission.integerSqrtFloor_eq_sqrt h
    have hnewton := TransactionDispatcher.integerSqrtFloor_eq n
    refine ⟨⟨hsearch, hsearch, hnewton⟩, ?_, ?_⟩
    · rw [← hsearch]
      exact Emission.boundedSqrtFloor_eq (by omega)
    · rw [← hnewton]
      exact boundedNewton_eq h
  · rw [Emission.integerSqrtRound_eq_nearest h, integerSqrtRound_eq_nearest h]
  · intro k hk
    rw [integerSqrtRound_eq_nearest h] at hk ⊢
    exact IntegerSqrt.nearest_unique hk

/-- The last number below the greatest word, where the next square saturates. -/
theorem squareRoots_agree_last :
    Emission.integerSqrtFloor (2 ^ 128 - 2) = 2 ^ 64 - 1 ∧
      (∃ rounds, boundedNewton rounds (2 ^ 128 - 2) = some (2 ^ 64 - 1)) ∧
      Emission.integerSqrtRound (2 ^ 128 - 2) = integerSqrtRound (2 ^ 128 - 2) :=
  have hall := squareRoots_agree (2 ^ 128 - 2) (by decide)
  have hroot := hall.2.1 (2 ^ 64 - 1) (by decide) (by decide)
  ⟨hroot.1.2.1, hroot.2.2, hall.2.2.1⟩

end Opolys
