import Mathlib.Data.UInt
import Mathlib.Tactic.Common
import Mathlib.Tactic.Ring

/-!
# Bounded machine arithmetic

The checked and saturating operations that a systems language offers on 64-bit words,
as functions on `UInt64`, and the 128-bit saturation of an intermediate result. Every
operation comes with its value in `ℕ`, so that a proof about a program leaves the
machine words at the first rewrite and continues in linear arithmetic.
-/

namespace MachineInt

/-! ## Checked and saturating operations on 64-bit words -/

/-- Addition that reports an overflow instead of wrapping. -/
def checkedAdd (a b : UInt64) : Option UInt64 :=
  if a.toNat + b.toNat < 2 ^ 64 then some (a + b) else none

/-- Multiplication that reports an overflow instead of wrapping. -/
def checkedMul (a b : UInt64) : Option UInt64 :=
  if a.toNat * b.toNat < 2 ^ 64 then some (a * b) else none

/-- Addition that stops at the greatest word. -/
def saturatingAdd (a b : UInt64) : UInt64 := UInt64.ofNatClamp (a.toNat + b.toNat)

/-- Subtraction that stops at zero. -/
def saturatingSub (a b : UInt64) : UInt64 := UInt64.ofNat (a.toNat - b.toNat)

/-- Multiplication that stops at the greatest word. -/
def saturatingMul (a b : UInt64) : UInt64 := UInt64.ofNatClamp (a.toNat * b.toNat)

theorem toNat_ofNat_of_lt {n : ℕ} (h : n < 2 ^ 64) : (UInt64.ofNat n).toNat = n := by
  rw [UInt64.toNat_ofNat']
  exact Nat.mod_eq_of_lt h

theorem toNat_clamp (n : ℕ) : (UInt64.ofNatClamp n).toNat = min n (2 ^ 64 - 1) := by
  by_cases h : n < UInt64.size
  · rw [UInt64.toNat_ofNatClamp_of_lt h]
    have : UInt64.size = 2 ^ 64 := rfl
    omega
  · rw [UInt64.toNat_ofNatClamp_of_le (by omega)]
    have : UInt64.size = 2 ^ 64 := rfl
    omega

theorem toNat_add_of_lt {a b : UInt64} (h : a.toNat + b.toNat < 2 ^ 64) :
    (a + b).toNat = a.toNat + b.toNat := by
  rw [UInt64.toNat_add]
  exact Nat.mod_eq_of_lt h

theorem checkedAdd_eq_some {a b c : UInt64} :
    checkedAdd a b = some c ↔ c.toNat = a.toNat + b.toNat := by
  unfold checkedAdd
  have hc := c.toNat_lt
  split
  · rename_i h
    rw [Option.some.injEq, ← UInt64.toNat_inj, toNat_add_of_lt h]
    omega
  · simp only [reduceCtorEq, false_iff]
    omega

theorem checkedMul_eq_some {a b c : UInt64} :
    checkedMul a b = some c ↔ c.toNat = a.toNat * b.toNat := by
  unfold checkedMul
  have hc := c.toNat_lt
  split
  · rename_i h
    rw [Option.some.injEq, ← UInt64.toNat_inj, UInt64.toNat_mul, Nat.mod_eq_of_lt h]
    omega
  · simp only [reduceCtorEq, false_iff]
    omega

theorem of_checkedAdd {a b c : UInt64} (h : checkedAdd a b = some c) :
    a.toNat + b.toNat < 2 ^ 64 ∧ c = a + b := by
  unfold checkedAdd at h
  split at h
  · rename_i hlt
    cases h
    exact ⟨hlt, rfl⟩
  · cases h

theorem checkedAdd_eq_none {a b : UInt64} :
    checkedAdd a b = none ↔ 2 ^ 64 ≤ a.toNat + b.toNat := by
  unfold checkedAdd
  split <;> simp only [reduceCtorEq, false_iff, true_iff] <;> omega

theorem checkedAdd_of_lt {a b : UInt64} (h : a.toNat + b.toNat < 2 ^ 64) :
    checkedAdd a b = some (a + b) := if_pos h

@[simp] theorem toNat_saturatingAdd (a b : UInt64) :
    (saturatingAdd a b).toNat = min (a.toNat + b.toNat) (2 ^ 64 - 1) := toNat_clamp _

@[simp] theorem toNat_saturatingMul (a b : UInt64) :
    (saturatingMul a b).toNat = min (a.toNat * b.toNat) (2 ^ 64 - 1) := toNat_clamp _

@[simp] theorem toNat_saturatingSub (a b : UInt64) :
    (saturatingSub a b).toNat = a.toNat - b.toNat := by
  have := a.toNat_lt
  exact toNat_ofNat_of_lt (by omega)

@[simp] theorem saturatingAdd_zero (a : UInt64) : saturatingAdd a 0 = a := by
  rw [← UInt64.toNat_inj, toNat_saturatingAdd, UInt64.toNat_zero]
  have := a.toNat_lt
  omega

theorem toNat_saturatingAdd_of_lt {a b : UInt64} (h : a.toNat + b.toNat < 2 ^ 64) :
    (saturatingAdd a b).toNat = a.toNat + b.toNat := by
  rw [toNat_saturatingAdd]
  omega

theorem toNat_sub_of_le {a b : UInt64} (h : b.toNat ≤ a.toNat) :
    (a - b).toNat = a.toNat - b.toNat :=
  UInt64.toNat_sub_of_le _ _ (UInt64.le_iff_toNat_le.mpr h)

@[simp] theorem toNat_max (a b : UInt64) : (max a b).toNat = max a.toNat b.toNat := by
  change (if a ≤ b then b else a).toNat = _
  split
  · rename_i h
    exact (Nat.max_eq_right (UInt64.le_iff_toNat_le.mp h)).symm
  · rename_i h
    exact (Nat.max_eq_left (Nat.le_of_not_le (mt UInt64.le_iff_toNat_le.mpr h))).symm

@[simp] theorem toNat_min (a b : UInt64) : (min a b).toNat = min a.toNat b.toNat := by
  change (if a ≤ b then a else b).toNat = _
  split
  · rename_i h
    exact (Nat.min_eq_left (UInt64.le_iff_toNat_le.mp h)).symm
  · rename_i h
    exact (Nat.min_eq_right (Nat.le_of_not_le (mt UInt64.le_iff_toNat_le.mpr h))).symm

/-! ## 128-bit intermediate results -/

/-- The greatest 128-bit word. -/
def max128 : ℕ := 2 ^ 128 - 1

/-- A 128-bit addition that stops at the greatest word. -/
def saturatingAdd128 (a b : ℕ) : ℕ := min (a + b) max128

/-- A 128-bit multiplication that stops at the greatest word. -/
def saturatingMul128 (a b : ℕ) : ℕ := min (a * b) max128

theorem saturatingMul128_of_lt {a b : ℕ} (h : a * b < 2 ^ 128) :
    saturatingMul128 a b = a * b := by
  unfold saturatingMul128 max128
  omega

/-! ## Sums of words -/

/-- A sum of words wraps, so it has the value of the exact sum as long as that fits. -/
theorem toNat_sum_of_lt {α : Type*} (f : α → UInt64) (xs : List α)
    (h : (xs.map fun x => (f x).toNat).sum < 2 ^ 64) :
    (xs.map f).sum.toNat = (xs.map fun x => (f x).toNat).sum := by
  induction xs with
  | nil => rfl
  | cons x xs ih =>
    simp only [List.map_cons, List.sum_cons] at h ⊢
    have ih := ih (by omega)
    rw [toNat_add_of_lt (by omega), ih]

/-- A sum of words does not depend on their order. -/
theorem sum_eq_of_perm {xs ys : List UInt64} (h : xs.Perm ys) : xs.sum = ys.sum := by
  induction h with
  | nil => rfl
  | cons x _ ih => rw [List.sum_cons, List.sum_cons, ih]
  | swap x y xs =>
    simp only [List.sum_cons]
    rw [← UInt64.add_assoc, ← UInt64.add_assoc, UInt64.add_comm y x]
  | trans _ _ ih ih' => exact ih.trans ih'

/-- The value of a wrapping sum never exceeds the exact sum. -/
theorem toNat_sum_le {α : Type*} (f : α → UInt64) (xs : List α) :
    (xs.map f).sum.toNat ≤ (xs.map fun x => (f x).toNat).sum := by
  induction xs with
  | nil => exact Nat.le_refl _
  | cons x xs ih =>
    simp only [List.map_cons, List.sum_cons, UInt64.toNat_add]
    have := Nat.mod_le ((f x).toNat + (xs.map f).sum.toNat) (2 ^ 64)
    omega

/-- A saturating sum is the exact sum up to the greatest word. -/
theorem toNat_foldl_saturatingAdd {α : Type*} (f : α → UInt64) (xs : List α) (a : UInt64) :
    (xs.foldl (fun acc x => saturatingAdd acc (f x)) a).toNat =
      min (a.toNat + (xs.map fun x => (f x).toNat).sum) (2 ^ 64 - 1) := by
  induction xs generalizing a with
  | nil =>
    have := a.toNat_lt
    simp only [List.foldl_nil, List.map_nil, List.sum_nil]
    omega
  | cons x xs ih =>
    simp only [List.map_cons, List.sum_cons, List.foldl_cons]
    rw [ih, toNat_saturatingAdd]
    omega

/-- A saturating sum that starts from `a` is the exact sum as long as that fits. -/
theorem toNat_foldl_saturatingAdd_of_lt {α : Type*} (f : α → UInt64) (xs : List α) (a : UInt64)
    (h : a.toNat + (xs.map fun x => (f x).toNat).sum < 2 ^ 64) :
    (xs.foldl (fun acc x => saturatingAdd acc (f x)) a).toNat =
      a.toNat + (xs.map fun x => (f x).toNat).sum := by
  rw [toNat_foldl_saturatingAdd]
  omega

/-- Words are compared as the numbers they stand for. -/
theorem compare_toNat (a b : UInt64) : compare a.toNat b.toNat = compare a b := by
  change compareOfLessAndEq a.toNat b.toNat = compareOfLessAndEq a b
  unfold compareOfLessAndEq
  simp only [UInt64.lt_iff_toNat_lt, ← UInt64.toNat_inj]

end MachineInt
