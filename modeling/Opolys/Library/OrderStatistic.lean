import Mathlib.Data.List.Sort
import Mathlib.Data.Rat.Defs
import Mathlib.Algebra.Order.Field.Rat
import Mathlib.Tactic.Linarith

/-!
# Order statistics

The value at an index of a sorted list is at most `x` exactly when more values than the index are.
So it depends on no order, grows with every value, and is held between the values of a part of the
list that is large enough.

* `get_sorted_le_iff` : the characterisation by counting.
* `exists_le_get_sorted`, `exists_get_sorted_le` : the bounds by a part of the list.
* `median_between` : the median stays between the values of any majority.
-/

namespace OrderStatistic

variable {α : Type*}

/-- What qualifies stands in front, so an index qualifies when it is below their number. -/
theorem lt_countP_iff {p : α → Bool} {xs : List α}
    (hs : xs.Pairwise fun a b => p b = true → p a = true) {k : ℕ} (hk : k < xs.length) :
    k < xs.countP p ↔ p xs[k] = true := by
  induction xs generalizing k with
  | nil => exact absurd hk (Nat.not_lt_zero k)
  | cons a xs ih =>
    obtain ⟨hfront, hrest⟩ := List.pairwise_cons.mp hs
    by_cases ha : p a = true
    · rw [List.countP_cons_of_pos ha]
      cases k with
      | zero => simp [ha]
      | succ k =>
        rw [Nat.succ_lt_succ_iff, List.getElem_cons_succ]
        exact ih hrest (Nat.lt_of_succ_lt_succ hk)
    · have hnone : xs.countP p = 0 := by
        apply List.countP_eq_zero.mpr
        intro b hb hpb
        exact ha (hfront b hb hpb)
      rw [List.countP_cons_of_neg ha, hnone]
      apply iff_of_false (Nat.not_lt_zero k)
      cases k with
      | zero => exact ha
      | succ k =>
        intro hpk
        exact ha (hfront _ (List.getElem_mem _) hpk)

variable [LinearOrder α]

/-- The values in order. -/
def sorted (values : List α) : List α := values.insertionSort (· ≤ ·)

@[simp] theorem length_sorted (values : List α) : (sorted values).length = values.length :=
  List.length_insertionSort _ _

theorem sorted_perm (values : List α) : (sorted values).Perm values :=
  List.perm_insertionSort _ _

theorem pairwise_sorted (values : List α) : (sorted values).Pairwise (· ≤ ·) :=
  List.pairwise_insertionSort _ _

theorem sorted_eq_of_perm {values values' : List α} (h : values.Perm values') :
    sorted values = sorted values' :=
  (((sorted_perm values).trans h).trans (sorted_perm values').symm).eq_of_pairwise'
    (pairwise_sorted values) (pairwise_sorted values')

section Counting

variable {values : List α} {k : ℕ} (hk : k < (sorted values).length)

theorem get_sorted_le_iff (x : α) :
    (sorted values)[k] ≤ x ↔ k < values.countP fun a => a ≤ x := by
  have hfront : (sorted values).Pairwise fun a b =>
      decide (b ≤ x) = true → decide (a ≤ x) = true := by
    apply (pairwise_sorted values).imp
    intro a b hab hb
    exact decide_eq_true (hab.trans (of_decide_eq_true hb))
  rw [← (sorted_perm values).countP_eq, lt_countP_iff hfront hk, decide_eq_true_iff]

theorem get_sorted_lt_iff (x : α) :
    (sorted values)[k] < x ↔ k < values.countP fun a => a < x := by
  have hfront : (sorted values).Pairwise fun a b =>
      decide (b < x) = true → decide (a < x) = true := by
    apply (pairwise_sorted values).imp
    intro a b hab hb
    exact decide_eq_true (hab.trans_lt (of_decide_eq_true hb))
  rw [← (sorted_perm values).countP_eq, lt_countP_iff hfront hk, decide_eq_true_iff]

/-- With fewer others than the index, one of the rest is not greater. -/
theorem exists_le_get_sorted {good bad : List α} (h : values.Perm (good ++ bad))
    (hbad : bad.length ≤ k) : ∃ a ∈ good, a ≤ (sorted values)[k] := by
  by_contra hnone
  push Not at hnone
  have hcount := (get_sorted_le_iff hk (sorted values)[k]).mp le_rfl
  have hgood : (good.countP fun a => a ≤ (sorted values)[k]) = 0 := by
    apply List.countP_eq_zero.mpr
    intro a ha hle
    exact absurd (of_decide_eq_true hle) (not_le.mpr (hnone a ha))
  have hrest : (bad.countP fun a => a ≤ (sorted values)[k]) ≤ bad.length := List.countP_le_length
  rw [h.countP_eq, List.countP_append, hgood] at hcount
  omega

/-- With fewer others than there are values behind the index, one of the rest is not smaller. -/
theorem exists_get_sorted_le {good bad : List α} (h : values.Perm (good ++ bad))
    (hbad : bad.length + k < values.length) : ∃ a ∈ good, (sorted values)[k] ≤ a := by
  by_contra hnone
  push Not at hnone
  have hcount := mt (get_sorted_lt_iff hk (sorted values)[k]).mpr (lt_irrefl _)
  have hgood : (good.countP fun a => a < (sorted values)[k]) = good.length := by
    apply List.countP_eq_length.mpr
    intro a ha
    exact decide_eq_true (hnone a ha)
  have hlength := h.length_eq
  rw [List.length_append] at hlength
  rw [h.countP_eq, List.countP_append, hgood] at hcount
  omega

end Counting

theorem countP_le_of_forall₂ {values values' : List α} (h : List.Forall₂ (· ≤ ·) values values')
    (x : α) : (values'.countP fun a => a ≤ x) ≤ values.countP fun a => a ≤ x := by
  induction h with
  | nil => exact le_rfl
  | @cons a b values values' hab _ ih =>
    rw [List.countP_cons, List.countP_cons]
    apply Nat.add_le_add ih
    by_cases hb : b ≤ x
    · rw [if_pos (decide_eq_true hb), if_pos (decide_eq_true (hab.trans hb))]
    · rw [if_neg (by simpa using hb)]
      exact Nat.zero_le _

/-- Every order statistic grows with every value. -/
theorem get_sorted_mono {values values' : List α} (h : List.Forall₂ (· ≤ ·) values values')
    {k : ℕ} (hk : k < (sorted values).length) (hk' : k < (sorted values').length) :
    (sorted values)[k] ≤ (sorted values')[k] := by
  rw [get_sorted_le_iff hk]
  have hcount := (get_sorted_le_iff hk' (sorted values')[k]).mp le_rfl
  exact hcount.trans_le (countP_le_of_forall₂ h _)

/-! ## The median -/

/-- The mean of the two values in the middle, or of the one value with itself. -/
def middle (values : List ℚ) : Option ℚ := do
  let low ← values[(values.length - 1) / 2]?
  let high ← values[values.length / 2]?
  return (low + high) / 2

/-- The middle of the values in order. -/
def median (values : List ℚ) : Option ℚ := middle (sorted values)

section Median

variable {values : List ℚ} (h : values ≠ [])

include h

theorem median_eq : ∃ (hlow : (values.length - 1) / 2 < (sorted values).length)
    (hhigh : values.length / 2 < (sorted values).length),
    median values =
      some (((sorted values)[(values.length - 1) / 2] + (sorted values)[values.length / 2]) /
        2) := by
  have hpos : 0 < values.length := List.length_pos_iff.mpr h
  have hlow : (values.length - 1) / 2 < (sorted values).length := by
    rw [length_sorted]
    omega
  have hhigh : values.length / 2 < (sorted values).length := by
    rw [length_sorted]
    omega
  refine ⟨hlow, hhigh, ?_⟩
  unfold median middle
  rw [length_sorted, List.getElem?_eq_getElem hlow, List.getElem?_eq_getElem hhigh]
  rfl

/-- The median grows with every value. -/
theorem median_mono {values' : List ℚ} (hle : List.Forall₂ (· ≤ ·) values values') :
    ∃ m m', median values = some m ∧ median values' = some m' ∧ m ≤ m' := by
  have hlength := hle.length_eq
  have h' : values' ≠ [] := by
    intro hnil
    rw [hnil, List.length_nil] at hlength
    exact h (List.length_eq_zero_iff.mp hlength)
  obtain ⟨hlow, hhigh, hm⟩ := median_eq h
  obtain ⟨hlow', hhigh', hm'⟩ := median_eq h'
  refine ⟨_, _, hm, hm', ?_⟩
  simp only [← hlength] at hlow' hhigh' ⊢
  have hfirst := get_sorted_mono hle hlow hlow'
  have hsecond := get_sorted_mono hle hhigh hhigh'
  linarith

/-- Whatever fewer than half of the values are, the median stays between two of the others. -/
theorem median_between {good bad : List ℚ} (hperm : values.Perm (good ++ bad))
    (hbad : bad.length ≤ (values.length - 1) / 2) :
    ∃ m, median values = some m ∧ ∃ low ∈ good, ∃ high ∈ good, low ≤ m ∧ m ≤ high := by
  have hpos : 0 < values.length := List.length_pos_iff.mpr h
  obtain ⟨hlow, hhigh, hm⟩ := median_eq h
  obtain ⟨low, hlowmem, hlowle⟩ := exists_le_get_sorted hlow hperm hbad
  obtain ⟨high, hhighmem, hhighle⟩ := exists_get_sorted_le hhigh hperm (by omega)
  have hmiddle : (sorted values)[(values.length - 1) / 2] ≤ (sorted values)[values.length / 2] := by
    rcases (by omega : (values.length - 1) / 2 = values.length / 2 ∨
      (values.length - 1) / 2 < values.length / 2) with heq | hlt
    · simp only [heq, le_refl]
    · exact List.pairwise_iff_getElem.mp (pairwise_sorted values) _ _ hlow hhigh hlt
  exact ⟨_, hm, low, hlowmem, high, hhighmem, by linarith, by linarith⟩

end Median

end OrderStatistic
