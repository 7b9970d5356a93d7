import Opolys.Library.IntegerSqrt
import Mathlib.Analysis.Real.Sqrt
import Mathlib.Tactic.Positivity

/-!
# Square roots within words

The two loops for the integer square root with words up to a greatest one: they have no result where
a sum or a difference leaves the words, where a divisor is 0, and where a number of rounds does not
suffice. With room for the first sum and enough rounds they return what the unbounded loops do.

The integer nearest to a root is the one at a distance below 1/2, and there is no tie.
-/

namespace IntegerSqrt

/-! ## Binary search -/

/-- `searchLoop` with words up to `max`. -/
def boundedSearch (max : ℕ) (square : ℕ → ℕ) (n : ℕ) : ℕ → ℕ → ℕ → ℕ → Option ℕ
  | 0, _, _, _ => none
  | rounds + 1, left, right, result =>
    if left ≤ right then
      if left + right ≤ max then
        let mid := (left + right) / 2
        if square mid ≤ n then
          if mid + 1 ≤ max then boundedSearch max square n rounds (mid + 1) right mid else none
        else if 1 ≤ mid then boundedSearch max square n rounds left (mid - 1) result else none
      else none
    else some result

/-- While the interval starts above 0 and twice its end is a word, no bound is met. -/
theorem boundedSearch_eq (square : ℕ → ℕ) (n : ℕ) {max rounds left right : ℕ} (hl : 1 ≤ left)
    (hmax : right + right ≤ max) (hrounds : right + 1 ≤ left + rounds) (result : ℕ) :
    boundedSearch max square n (rounds + 1) left right result =
      some (searchLoop square n rounds left right result) := by
  induction rounds generalizing left right result with
  | zero =>
    unfold boundedSearch searchLoop
    rw [if_neg (by omega)]
  | succ rounds ih =>
    unfold boundedSearch searchLoop
    by_cases hle : left ≤ right
    · have hmid : left ≤ (left + right) / 2 ∧ (left + right) / 2 ≤ right := by omega
      rw [if_pos hle, if_pos hle, if_pos (by omega)]
      dsimp only
      by_cases hsquare : square ((left + right) / 2) ≤ n
      · rw [if_pos hsquare, if_pos hsquare, if_pos (by omega)]
        exact ih (by omega) hmax (by omega) _
      · rw [if_neg hsquare, if_neg hsquare, if_pos (by omega)]
        exact ih hl (by omega) (by omega) _
    · rw [if_neg hle, if_neg hle]

/-! ## Newton's iteration -/

/-- `newtonLoop` with words up to `max`. -/
def boundedNewton (max n : ℕ) : ℕ → ℕ → ℕ → Option ℕ
  | 0, _, _ => none
  | rounds + 1, x, y =>
    if y < x then
      if y ≠ 0 ∧ y + n / y ≤ max then boundedNewton max n rounds y ((y + n / y) / 2) else none
    else some x

/-- The sum of a step is greatest at the ends of `[1, n]`. -/
theorem add_div_le_succ {n y : ℕ} (hy : 1 ≤ y) (hn : y ≤ n) : y + n / y ≤ n + 1 := by
  have hdiv := Nat.div_mul_le_self n y
  have hq : 1 ≤ n / y := (Nat.one_le_div_iff hy).mpr hn
  nlinarith

theorem one_le_step {n y : ℕ} (hy : 1 ≤ y) (hn : y ≤ n) : 1 ≤ (y + n / y) / 2 := by
  have hq : 1 ≤ n / y := (Nat.one_le_div_iff hy).mpr hn
  omega

theorem boundedNewton_eq {max n rounds x y : ℕ} (hn : n < max) (hx : x ≤ n) (hy : 1 ≤ y)
    (hrounds : x ≤ rounds) :
    boundedNewton max n (rounds + 1) x y = some (newtonLoop n rounds x y) := by
  induction rounds generalizing x y with
  | zero =>
    unfold boundedNewton newtonLoop
    rw [if_neg (by omega)]
  | succ rounds ih =>
    unfold boundedNewton newtonLoop
    by_cases hlt : y < x
    · have hsum := add_div_le_succ hy (by omega : y ≤ n)
      rw [if_pos hlt, if_pos hlt, if_pos ⟨by omega, by omega⟩]
      exact ih (by omega) (one_le_step hy (by omega)) (by omega)
    · rw [if_neg hlt, if_neg hlt]

/-! ## The nearest integer -/

/-- The nearest integer is the one within 1/2 of the root. -/
theorem abs_nearest_sub_sqrt_lt (n : ℕ) : |(nearest n : ℝ) - Real.sqrt n| < 1 / 2 := by
  have hupper : (n : ℝ) ≤ nearest n * nearest n + nearest n := by
    exact_mod_cast nearest_le_iff.mp (le_refl (nearest n))
  rw [abs_sub_lt_iff]
  constructor
  · rcases Nat.eq_zero_or_pos (nearest n) with hzero | hpos
    · rw [hzero, Nat.cast_zero]
      linarith [Real.sqrt_nonneg (n : ℝ)]
    · -- the integer below is not the nearest, so the root is above the middle
      have hnot : ¬nearest n ≤ nearest n - 1 := by omega
      have hlower := mt nearest_le_iff.mpr hnot
      obtain ⟨k, hk⟩ := Nat.exists_eq_add_of_lt hpos
      rw [Nat.zero_add] at hk
      rw [hk, Nat.add_sub_cancel, not_le] at hlower
      have hlower' : (k * k + k + 1 : ℝ) ≤ n := by exact_mod_cast hlower
      have hroot : (k : ℝ) + 1 / 2 < Real.sqrt n := by
        apply Real.lt_sqrt_of_sq_lt
        linarith
      rw [hk]
      push_cast
      linarith
  · have hroot : Real.sqrt n < (nearest n : ℝ) + 1 / 2 := by
      rw [Real.sqrt_lt' (by positivity)]
      linarith
    linarith

/-- Every other integer is farther away. -/
theorem nearest_unique {n k : ℕ} (hk : k ≠ nearest n) :
    |(nearest n : ℝ) - Real.sqrt n| < |(k : ℝ) - Real.sqrt n| := by
  have hnear := abs_nearest_sub_sqrt_lt n
  have hapart : (1 : ℝ) ≤ |(k : ℝ) - nearest n| := by
    have hne : (k : ℤ) - nearest n ≠ 0 := by omega
    exact_mod_cast Int.one_le_abs hne
  have htriangle := abs_sub_le (k : ℝ) (Real.sqrt n) (nearest n)
  rw [abs_sub_comm (Real.sqrt n)] at htriangle
  linarith

end IntegerSqrt
