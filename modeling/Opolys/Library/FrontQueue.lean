import Mathlib.Data.List.Basic
import Mathlib.Tactic.Common

/-!
# Queues that are served from the front

Items wait in a list. From time to time some of them leave, and new ones join at the end. An item
that stays moves forward by as many places as there are in front that are cleared.

* `idxOf_filter_add_le` : how far an item moves forward.
-/

namespace FrontQueue

variable {α : Type*} [BEq α] [LawfulBEq α] {p : α → Bool}

/-- Where the first places are cleared, an item that stays moves forward by as many. -/
theorem idxOf_filter_add_le {a : α} {items : List α} {n : ℕ}
    (hfront : ∀ b ∈ items.take n, p b = false) (ha : a ∈ items.filter p) :
    (items.filter p).idxOf a + n ≤ items.idxOf a := by
  induction items generalizing n with
  | nil => simp at ha
  | cons b items ih =>
    by_cases hb : p b = true
    · have hzero : n = 0 := by
        by_contra hpos
        obtain ⟨k, rfl⟩ := Nat.exists_eq_succ_of_ne_zero hpos
        have hcleared := hfront b (by simp)
        rw [hb] at hcleared
        cases hcleared
      subst hzero
      rw [List.filter_cons_of_pos hb] at ha ⊢
      by_cases hab : b = a
      · simp [hab]
      · have hrest : a ∈ items.filter p := (List.mem_cons.mp ha).resolve_left (Ne.symm hab)
        have hmoved := @ih 0 (by simp) hrest
        rw [List.idxOf_cons_ne _ hab, List.idxOf_cons_ne _ hab]
        omega
    · rw [List.filter_cons_of_neg hb] at ha ⊢
      have hab : b ≠ a := by
        rintro rfl
        exact hb (List.mem_filter.mp ha).2
      rw [List.idxOf_cons_ne _ hab]
      cases n with
      | zero =>
        have hmoved := @ih 0 (by simp) ha
        omega
      | succ n =>
        have hmoved := @ih n (fun c hc => hfront c (by simp [hc])) ha
        omega

/-- An item that stays is not overtaken. -/
theorem idxOf_filter_le {a : α} {items : List α} (ha : a ∈ items.filter p) :
    (items.filter p).idxOf a ≤ items.idxOf a :=
  @idxOf_filter_add_le α _ _ p a items 0 (by simp) ha

end FrontQueue
