import Mathlib.Data.Nat.Sqrt
import Mathlib.Tactic.Linarith

/-!
# Integer square roots

The two loops by which programs without floating point find the square root of a natural
number: a binary search over an interval that contains the root, and Newton's iteration
from above. Both are given by a number of rounds that is always enough, so that they
evaluate by structural recursion, and both are shown to return `Nat.sqrt`.
-/

namespace IntegerSqrt

/-! ## Binary search -/

/-- Search `[left, right]` for the greatest number whose square does not exceed `n`, where
`result` is the greatest one found so far. -/
def searchLoop (square : ℕ → ℕ) (n : ℕ) : ℕ → ℕ → ℕ → ℕ → ℕ
  | 0, _, _, result => result
  | fuel + 1, left, right, result =>
    if left ≤ right then
      let mid := (left + right) / 2
      if square mid ≤ n then searchLoop square n fuel (mid + 1) right mid
      else searchLoop square n fuel left (mid - 1) result
    else result

/-- The search over `[1, right]`. -/
def binarySearch (square : ℕ → ℕ) (n right : ℕ) : ℕ := searchLoop square n right 1 right 1

/-- While the root is in `[left - 1, right]` and `left - 1` has been found, the search ends
at the root. -/
theorem searchLoop_eq_sqrt {square : ℕ → ℕ} {n fuel left right bound : ℕ}
    (hsq : ∀ m ≤ bound, square m ≤ n ↔ m * m ≤ n) (hb : right ≤ bound) (hl : 1 ≤ left)
    (hlow : left - 1 ≤ Nat.sqrt n) (hhigh : Nat.sqrt n ≤ right)
    (hfuel : right + 1 ≤ left + fuel) {result : ℕ} (hres : result = left - 1 ∨ result = left)
    (hres' : result ≤ Nat.sqrt n) :
    searchLoop square n fuel left right result = Nat.sqrt n := by
  induction fuel generalizing left right result with
  | zero => simp only [searchLoop]; omega
  | succ fuel ih =>
    rw [searchLoop]
    split
    · rename_i hle
      have hmid : (left + right) / 2 ≤ right := by omega
      dsimp only
      split
      · rename_i hs
        have hroot := Nat.le_sqrt.mpr ((hsq _ (hmid.trans hb)).mp hs)
        exact ih hb (by omega) (by omega) hhigh (by omega) (by omega) hroot
      · rename_i hs
        have hroot : Nat.sqrt n < (left + right) / 2 :=
          Nat.sqrt_lt.mpr (not_le.mp (mt (hsq _ (hmid.trans hb)).mpr hs))
        exact ih (by omega) hl hlow (by omega) (by omega) hres hres'
    · omega

theorem binarySearch_eq_sqrt {square : ℕ → ℕ} {n right : ℕ} (hn : 1 ≤ n)
    (hsq : ∀ m ≤ right, square m ≤ n ↔ m * m ≤ n) (hright : n < (right + 1) * (right + 1)) :
    binarySearch square n right = Nat.sqrt n :=
  searchLoop_eq_sqrt hsq le_rfl le_rfl (by omega) (Nat.lt_succ_iff.mp (Nat.sqrt_lt.mpr hright))
    (by omega) (Or.inr rfl) (Nat.le_sqrt.mpr hn)

/-! ## Newton's iteration -/

/-- Iterate from `x`, with `y` the next approximation, until it stops falling. -/
def newtonLoop (n : ℕ) : ℕ → ℕ → ℕ → ℕ
  | 0, x, _ => x
  | fuel + 1, x, y => if y < x then newtonLoop n fuel y ((y + n / y) / 2) else x

/-- Newton's iteration from `n`. -/
def newton (n : ℕ) : ℕ := newtonLoop n n n ((n + 1) / 2)

/-- A step of the iteration never falls below the root. -/
theorem sqrt_le_step (n : ℕ) {x : ℕ} (hx : 0 < x) : Nat.sqrt n ≤ (x + n / x) / 2 := by
  have hs := Nat.sqrt_le n
  generalize Nat.sqrt n = s at hs ⊢
  have hdiv : 2 * s - x ≤ n / x := by
    refine (Nat.le_div_iff_mul_le hx).mpr (le_trans ?_ hs)
    rcases Nat.le_total (2 * s) x with h | h
    · rw [Nat.sub_eq_zero_of_le h, Nat.zero_mul]
      exact Nat.zero_le _
    · zify [h]
      nlinarith [sq_nonneg ((s : ℤ) - x)]
  omega

/-- An approximation that a step does not improve is the root. -/
theorem eq_sqrt_of_le_step {n x : ℕ} (hx : 0 < x) (hroot : Nat.sqrt n ≤ x)
    (hstep : x ≤ (x + n / x) / 2) : x = Nat.sqrt n := by
  refine Nat.le_antisymm (Nat.le_sqrt.mpr ?_) hroot
  exact (Nat.le_div_iff_mul_le hx).mp (by omega)

theorem newtonLoop_eq_sqrt {n fuel x : ℕ} (hn : 0 < n) (hroot : Nat.sqrt n ≤ x)
    (hfuel : x ≤ Nat.sqrt n + fuel) :
    newtonLoop n fuel x ((x + n / x) / 2) = Nat.sqrt n := by
  have hpos := Nat.sqrt_pos.mpr hn
  induction fuel generalizing x with
  | zero => rw [newtonLoop]; omega
  | succ fuel ih =>
    rw [newtonLoop]
    split
    · rename_i hlt
      exact ih (sqrt_le_step n (by omega)) (by omega)
    · rename_i hge
      exact eq_sqrt_of_le_step (by omega) hroot (not_lt.mp hge)

theorem newton_eq_sqrt {n : ℕ} (hn : 0 < n) : newton n = Nat.sqrt n := by
  have h := newtonLoop_eq_sqrt hn (Nat.sqrt_le_self n) (Nat.le_add_left n _)
  rwa [Nat.div_self hn] at h

/-! ## Rounding to the nearest -/

/-- The integer nearest to the root: the next one where its square is nearer. -/
def nearest (n : ℕ) : ℕ :=
  let floor := Nat.sqrt n
  if (floor + 1) * (floor + 1) - n < n - floor * floor then floor + 1 else floor

theorem succ_mul_succ (k : ℕ) : (k + 1) * (k + 1) = k * k + k + k + 1 := by
  rw [Nat.add_one_mul, Nat.mul_add_one]
  omega

/-- The nearest integer stays up to `k` until the middle between `k * k` and the next square. -/
theorem nearest_le_iff {n k : ℕ} : nearest n ≤ k ↔ n ≤ k * k + k := by
  have hle : Nat.sqrt n * Nat.sqrt n ≤ n := Nat.sqrt_le n
  have hlt : n < (Nat.sqrt n + 1) * (Nat.sqrt n + 1) := Nat.lt_succ_sqrt n
  unfold nearest
  dsimp only
  generalize Nat.sqrt n = r at hle hlt
  rw [succ_mul_succ] at hlt ⊢
  rcases lt_trichotomy k r with h | rfl | h
  · have hsquare : k * k + k ≤ r * r - 1 := by
      have : (k + 1) * (k + 1) ≤ r * r := Nat.mul_le_mul h h
      rw [succ_mul_succ] at this
      omega
    have hpos : 1 ≤ r * r := Nat.mul_pos (by omega) (by omega)
    split <;> omega
  · split <;> omega
  · have hsquare : (r + 1) * (r + 1) ≤ k * k := Nat.mul_le_mul h h
    rw [succ_mul_succ] at hsquare
    split <;> omega

theorem nearest_mono {m n : ℕ} (h : m ≤ n) : nearest m ≤ nearest n :=
  nearest_le_iff.mpr (h.trans (nearest_le_iff.mp le_rfl))

end IntegerSqrt
