import Mathlib.Data.List.Basic
import Mathlib.Tactic.Ring

/-!
# Clearing space

Items with a size leave the front of a list until enough space is free. `cleared` are those
that leave. Where the items that qualify for leaving stand in front, only such items leave
exactly when they are enough, or when there are no others (`cleared_within_iff`).
-/

namespace Clearing

variable {α : Type*} (size : α → ℕ) (needed : ℕ)

/-- The items that leave, when `freed` has been freed before. -/
def cleared : List α → ℕ → List α
  | [], _ => []
  | a :: items, freed =>
    if needed ≤ freed then [] else a :: cleared items (freed + size a)

variable {size needed}

theorem cleared_cons_of_le {freed : ℕ} (h : needed ≤ freed) (a : α) (items : List α) :
    cleared size needed (a :: items) freed = [] := by
  simp [cleared, h]

theorem cleared_cons_of_lt {freed : ℕ} (h : freed < needed) (a : α) (items : List α) :
    cleared size needed (a :: items) freed = a :: cleared size needed items (freed + size a) := by
  simp [cleared, Nat.not_le.mpr h]

theorem cleared_subset (items : List α) (freed : ℕ) : cleared size needed items freed ⊆ items := by
  induction items generalizing freed with
  | nil => simp [cleared]
  | cons a items ih =>
    by_cases h : needed ≤ freed
    · simp [cleared_cons_of_le h]
    · rw [cleared_cons_of_lt (Nat.not_le.mp h)]
      exact List.cons_subset_cons a (ih _)

/-- Where what qualifies stands in front, nothing else leaves exactly when it is enough. -/
theorem cleared_within_iff (size : α → ℕ) (needed : ℕ) {low : α → Prop} [DecidablePred low]
    {items : List α}
    (hsorted : items.Pairwise fun a b => low b → low a) (freed : ℕ) :
    (∀ a ∈ cleared size needed items freed, low a) ↔
      needed ≤ freed + ((items.filter fun a => low a).map size).sum ∨ ∀ a ∈ items, low a := by
  induction items generalizing freed with
  | nil => simp [cleared]
  | cons a items ih =>
    obtain ⟨hfront, hrest⟩ := List.pairwise_cons.mp hsorted
    by_cases henough : needed ≤ freed
    · rw [cleared_cons_of_le henough]
      exact iff_of_true (by simp) (Or.inl (by omega))
    · rw [cleared_cons_of_lt (Nat.not_le.mp henough)]
      by_cases hlow : low a
      · simp only [List.forall_mem_cons, hlow, true_and, decide_true, List.filter_cons_of_pos,
          List.map_cons, List.sum_cons, ih hrest, Nat.add_assoc]
      · -- what qualifies stands in front, so nothing behind `a` does either
        have hnone : ∀ b ∈ items, ¬low b := fun b hb hlowb => hlow (hfront b hb hlowb)
        have hempty : items.filter (fun b => decide (low b)) = [] := by
          simp [List.filter_eq_nil_iff]
          exact hnone
        simp [hlow, hempty]
        omega

end Clearing
