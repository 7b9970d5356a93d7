import Opolys.Library.OrderStatistic

/-!
# The median of the ceremony

The ceremony tool sorts the values of its sources, drops the smallest and the greatest of three or
more, and takes the middle of the rest. What is dropped lies on both sides of the middle, so the
result is the median of all values: no source that is among the smaller part of them can move it
beyond the values of the others.
-/

namespace Opolys

open OrderStatistic (sorted middle median)

/-- The value in the middle, or the mean of the two there. -/
def middleValue (values : List ℚ) : Option ℚ :=
  let mid := values.length / 2
  if values.length % 2 = 0 then
    if mid = 0 then none
    else do
      let below ← values[mid - 1]?
      let above ← values[mid]?
      return (below + above) / 2
  else values[mid]?

/-- The median after trimming. An index outside of the list has no result. -/
def trimmedMedian (values : List ℚ) : Option ℚ :=
  let values := sorted values
  let values :=
    if 3 ≤ values.length then
      let values := values.eraseIdx 0
      values.eraseIdx (values.length - 1)
    else values
  middleValue values

theorem middleValue_eq {values : List ℚ} (h : values ≠ []) :
    middleValue values = middle values := by
  have hpos : 0 < values.length := List.length_pos_iff.mpr h
  unfold middleValue middle
  dsimp only
  by_cases heven : values.length % 2 = 0
  · have hbelow : (values.length - 1) / 2 = values.length / 2 - 1 := by omega
    rw [if_pos heven, if_neg (by omega), hbelow]
  · have hbelow : (values.length - 1) / 2 = values.length / 2 := by omega
    have hmid : values.length / 2 < values.length := by omega
    rw [if_neg heven, hbelow, List.getElem?_eq_getElem hmid]
    show some values[values.length / 2] =
      some ((values[values.length / 2] + values[values.length / 2]) / 2)
    rw [add_self_div_two]

/-- An index into the trimmed list is one below the index into the whole list. -/
theorem getElem?_trimmed {α : Type*} {values : List α} (h : 3 ≤ values.length) {i : ℕ}
    (hi : i + 2 < values.length) :
    ((values.eraseIdx 0).eraseIdx ((values.eraseIdx 0).length - 1))[i]? = values[i + 1]? := by
  have hlength : (values.eraseIdx 0).length = values.length - 1 :=
    List.length_eraseIdx_of_lt (by omega)
  rw [List.getElem?_eraseIdx_of_lt (by omega), List.getElem?_eraseIdx_of_ge (Nat.zero_le i)]

theorem length_trimmed {α : Type*} {values : List α} (h : 3 ≤ values.length) :
    ((values.eraseIdx 0).eraseIdx ((values.eraseIdx 0).length - 1)).length =
      values.length - 2 := by
  have hlength : (values.eraseIdx 0).length = values.length - 1 :=
    List.length_eraseIdx_of_lt (by omega)
  rw [List.length_eraseIdx_of_lt (by omega)]
  omega

/-- Trimming leaves the middle where it is. -/
theorem middle_trimmed {values : List ℚ} (h : 3 ≤ values.length) :
    middle ((values.eraseIdx 0).eraseIdx ((values.eraseIdx 0).length - 1)) = middle values := by
  have hlow : (values.length - 2 - 1) / 2 + 1 = (values.length - 1) / 2 := by omega
  have hhigh : (values.length - 2) / 2 + 1 = values.length / 2 := by omega
  unfold middle
  rw [length_trimmed h, getElem?_trimmed h (by omega), getElem?_trimmed h (by omega), hlow, hhigh]

/-- The tool's median is the median. -/
theorem trimmedMedian_eq_median {values : List ℚ} (h : values ≠ []) :
    trimmedMedian values = median values := by
  have hlength := OrderStatistic.length_sorted values
  have hpos : 0 < values.length := List.length_pos_iff.mpr h
  unfold trimmedMedian median
  generalize sorted values = xs at hlength
  dsimp only
  by_cases hthree : 3 ≤ xs.length
  · rw [if_pos hthree, ← middle_trimmed hthree]
    apply middleValue_eq
    apply List.length_pos_iff.mp
    rw [length_trimmed hthree]
    omega
  · rw [if_neg hthree]
    apply middleValue_eq
    apply List.length_pos_iff.mp
    omega

/-- For any values the tool finds their median, in whatever order they are. It grows with every
value, and whatever at most the smaller part of the values are, it lies between two of the
others. -/
theorem trimmedMedian_resists (values : List ℚ) (h : values ≠ []) :
    ∃ m, trimmedMedian values = some m ∧ median values = some m ∧
      (∀ values', values.Perm values' → trimmedMedian values' = some m) ∧
      (∀ values', List.Forall₂ (· ≤ ·) values values' →
        ∃ m', trimmedMedian values' = some m' ∧ m ≤ m') ∧
      ∀ good bad, values.Perm (good ++ bad) → bad.length ≤ (values.length - 1) / 2 →
        ∃ low ∈ good, ∃ high ∈ good, low ≤ m ∧ m ≤ high := by
  obtain ⟨_, _, hm⟩ := OrderStatistic.median_eq h
  refine ⟨_, (trimmedMedian_eq_median h).trans hm, hm, ?_, ?_, ?_⟩
  · intro values' hperm
    have h' : values' ≠ [] := by
      intro hnil
      rw [hnil] at hperm
      exact h hperm.eq_nil
    rw [trimmedMedian_eq_median h', ← hm]
    unfold median
    rw [OrderStatistic.sorted_eq_of_perm hperm]
  · intro values' hle
    have h' : values' ≠ [] := by
      intro hnil
      rw [hnil] at hle
      cases hle
      exact h rfl
    obtain ⟨m, m', hmedian, hmedian', hmm⟩ := OrderStatistic.median_mono h hle
    rw [hm] at hmedian
    cases hmedian
    exact ⟨m', (trimmedMedian_eq_median h').trans hmedian', hmm⟩
  · intro good bad hperm hbad
    obtain ⟨m, hmedian, hbetween⟩ := OrderStatistic.median_between h hperm hbad
    rw [hm] at hmedian
    cases hmedian
    exact hbetween

/-- Four sources of which one is far off. -/
theorem trimmedMedian_resists_four :
    ∃ m, trimmedMedian [3000, 3100, 9999, 3050] = some m ∧
      ∃ low ∈ [(3000 : ℚ), 3100, 3050], ∃ high ∈ [(3000 : ℚ), 3100, 3050], low ≤ m ∧ m ≤ high := by
  obtain ⟨m, hm, -, -, -, hbetween⟩ := trimmedMedian_resists [3000, 3100, 9999, 3050] (by simp)
  refine ⟨m, hm, hbetween _ [9999] ?_ (by decide)⟩
  apply List.Perm.cons
  apply List.Perm.cons
  exact List.Perm.swap _ _ _

end Opolys
