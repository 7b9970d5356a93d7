import Mathlib.Data.Nat.Count
import Mathlib.Data.Nat.ModEq
import Mathlib.Algebra.Order.BigOperators.Group.List
import Mathlib.Tactic.Ring

/-!
# Lotteries

Every item of a list has a weight. A ticket below the total weight draws the item in whose share
of the tickets it falls, where the shares lie one after the other. So every item is drawn by as
many tickets as it weighs, wherever it stands in the list.

Tickets are made from seeds by a remainder. A range of seeds whose length is a multiple of the
number of tickets makes every ticket equally often.

* `count_draw` : how many tickets draw one of a kind of items.
* `count_mod` : how many seeds make one of a kind of tickets.
-/

namespace Lottery

variable {ι : Type*} (weight : ι → ℕ)

/-- The item in whose share the ticket falls. -/
def draw : List ι → ℕ → Option ι
  | [], _ => none
  | x :: xs, ticket => if ticket < weight x then some x else draw xs (ticket - weight x)

/-- The number of tickets. -/
def total (xs : List ι) : ℕ := (xs.map weight).sum

variable {weight}

@[simp] theorem total_nil : total weight [] = 0 := rfl

@[simp] theorem total_cons (x : ι) (xs : List ι) :
    total weight (x :: xs) = weight x + total weight xs := List.sum_cons

@[simp] theorem total_append (xs ys : List ι) :
    total weight (xs ++ ys) = total weight xs + total weight ys := by
  unfold total
  rw [List.map_append, List.sum_append]

theorem total_perm {xs ys : List ι} (h : xs.Perm ys) : total weight xs = total weight ys :=
  (h.map weight).sum_eq

theorem weight_le_total {x : ι} {xs : List ι} (h : x ∈ xs) : weight x ≤ total weight xs :=
  List.single_le_sum (fun _ _ => Nat.zero_le _) _ (List.mem_map_of_mem h)

/-- Items without weight do not count. -/
theorem total_filter_pos (xs : List ι) :
    total weight (xs.filter fun x => 0 < weight x) = total weight xs := by
  induction xs with
  | nil => rfl
  | cons x xs ih =>
    rw [List.filter_cons, total_cons]
    split
    · rw [total_cons, ih]
    · rename_i hx
      have hzero : weight x = 0 := by simpa using hx
      rw [ih, hzero, Nat.zero_add]

theorem draw_of_lt {x : ι} {xs : List ι} {ticket : ℕ} (h : ticket < weight x) :
    draw weight (x :: xs) ticket = some x := by
  unfold draw
  rw [if_pos h]

theorem draw_add (x : ι) (xs : List ι) (ticket : ℕ) :
    draw weight (x :: xs) (weight x + ticket) = draw weight xs ticket := by
  rw [draw, if_neg (by omega), Nat.add_sub_cancel_left]

/-- A ticket below the total weight draws one of the items. -/
theorem exists_draw {xs : List ι} {ticket : ℕ} (h : ticket < total weight xs) :
    ∃ x ∈ xs, draw weight xs ticket = some x := by
  induction xs generalizing ticket with
  | nil => cases h
  | cons x xs ih =>
    rw [total_cons] at h
    by_cases hx : ticket < weight x
    · exact ⟨x, List.mem_cons_self, draw_of_lt hx⟩
    · have hrest : ticket - weight x < total weight xs := by omega
      obtain ⟨y, hy, hdraw⟩ := ih hrest
      refine ⟨y, List.mem_cons_of_mem _ hy, ?_⟩
      rw [draw, if_neg hx, hdraw]

theorem count_congr {p q : ℕ → Prop} [DecidablePred p] [DecidablePred q] {n : ℕ}
    (h : ∀ k < n, (p k ↔ q k)) : Nat.count p n = Nat.count q n :=
  le_antisymm (Nat.count_mono_left fun k hk => (h k hk).mp)
    (Nat.count_mono_left fun k hk => (h k hk).mpr)

/-- One of a kind of items is drawn by as many tickets as the items of the kind weigh. -/
theorem count_draw (p : ι → Prop) [DecidablePred p] (xs : List ι) :
    Nat.count (fun ticket => ∃ x ∈ draw weight xs ticket, p x) (total weight xs) =
      total weight (xs.filter fun x => p x) := by
  induction xs with
  | nil => rfl
  | cons x xs ih =>
    have hrest : Nat.count (fun ticket => ∃ y ∈ draw weight (x :: xs) (weight x + ticket), p y)
        (total weight xs) = total weight (xs.filter fun x => p x) := by
      rw [← ih]
      refine count_congr fun ticket _ => ?_
      rw [draw_add]
    have hfirst : ∀ ticket < weight x, ((∃ y ∈ draw weight (x :: xs) ticket, p y) ↔ p x) := by
      intro ticket hticket
      rw [draw_of_lt hticket]
      exact ⟨fun ⟨y, hy, hp⟩ => Option.some.inj hy ▸ hp, fun hp => ⟨x, rfl, hp⟩⟩
    rw [total_cons, Nat.count_add, hrest, List.filter_cons]
    by_cases hp : p x
    · rw [Nat.count_of_forall fun ticket hticket => (hfirst ticket hticket).mpr hp,
        if_pos (decide_eq_true hp), total_cons]
    · rw [Nat.count_of_forall_not fun ticket hticket h => hp ((hfirst ticket hticket).mp h),
        if_neg (by simpa using hp), Nat.zero_add]

/-- Every ticket is made by equally many seeds. -/
theorem count_mod (p : ℕ → Prop) [DecidablePred p] (tickets rounds : ℕ) :
    Nat.count (fun seed => p (seed % tickets)) (tickets * rounds) =
      rounds * Nat.count p tickets := by
  induction rounds with
  | zero => rw [Nat.mul_zero, Nat.zero_mul, Nat.count_zero]
  | succ rounds ih =>
    have hround : Nat.count (fun seed => p ((tickets * rounds + seed) % tickets)) tickets =
        Nat.count p tickets := by
      refine count_congr fun seed hseed => ?_
      rw [Nat.mul_add_mod, Nat.mod_eq_of_lt hseed]
    rw [Nat.mul_succ, Nat.count_add, ih, hround, Nat.succ_mul]

end Lottery
