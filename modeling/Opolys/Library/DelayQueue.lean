import Mathlib.Data.List.Basic

/-!
# Queues with a delay

Items wait in a queue for a number of rounds. In every round some owners lose what they have
waiting, then new items come in, and last what is due leaves. `waiting` and `released` say
what a round finds and what it lets go in terms of the rounds alone: an item of round `i`
leaves in round `i + delay`, unless its owner loses it in a round after `i` and not later.
`release_round` shows that a queue which is worked through round by round holds exactly that.
-/

namespace DelayQueue

variable {α κ : Type*}

/-- What comes into the queue in a round, for how long, and who loses what is waiting. -/
structure Round (α κ : Type*) where
  cancelled : List κ
  pushed : List α
  delay : ℕ

/-- The round in which the items of round `i` leave. -/
def due (rounds : ℕ → Round α κ) (i : ℕ) : ℕ := i + (rounds i).delay

/-- Nobody takes the item of round `i` from its owner before round `n`. -/
def Survives (owner : α → κ) (rounds : ℕ → Round α κ) (i n : ℕ) (x : α) : Prop :=
  ∀ k < n, i < k → owner x ∉ (rounds k).cancelled

instance [DecidableEq κ] (owner : α → κ) (rounds : ℕ → Round α κ) (i n : ℕ) (x : α) :
    Decidable (Survives owner rounds i n x) :=
  inferInstanceAs (Decidable (∀ k < n, i < k → owner x ∉ (rounds k).cancelled))

/-- What waits before round `n`. -/
def waiting [DecidableEq κ] (owner : α → κ) (rounds : ℕ → Round α κ) (n : ℕ) : List α :=
  (List.range n).flatMap fun i =>
    if n ≤ due rounds i then (rounds i).pushed.filter fun x => Survives owner rounds i n x else []

/-- What leaves in round `n`. -/
def released [DecidableEq κ] (owner : α → κ) (rounds : ℕ → Round α κ) (n : ℕ) : List α :=
  (List.range (n + 1)).flatMap fun i =>
    if due rounds i = n then
      (rounds i).pushed.filter fun x => Survives owner rounds i (n + 1) x
    else []

/-- What is taken from its owners in round `n`. -/
def lost [DecidableEq κ] (owner : α → κ) (rounds : ℕ → Round α κ) (n : ℕ) : List α :=
  (waiting owner rounds n).filter fun x => owner x ∈ (rounds n).cancelled

variable {owner : α → κ} {rounds rounds' : ℕ → Round α κ}

/-! ## Rounds that agree -/

theorem survives_congr {n : ℕ} (h : ∀ k < n, rounds k = rounds' k) (i : ℕ) (x : α) :
    Survives owner rounds i n x ↔ Survives owner rounds' i n x := by
  unfold Survives
  constructor
  · intro hs k hk hik
    rw [← h k hk]
    exact hs k hk hik
  · intro hs k hk hik
    rw [h k hk]
    exact hs k hk hik

/-- What waits depends on the rounds before. -/
theorem waiting_congr [DecidableEq κ] {n : ℕ} (h : ∀ k < n, rounds k = rounds' k) :
    waiting owner rounds n = waiting owner rounds' n := by
  unfold waiting
  refine List.flatMap_congr fun i hi => ?_
  have hround := h i (List.mem_range.mp hi)
  unfold due
  simp only [hround, survives_congr h]

theorem released_congr [DecidableEq κ] {n : ℕ} (h : ∀ k ≤ n, rounds k = rounds' k) :
    released owner rounds n = released owner rounds' n := by
  have h' : ∀ k < n + 1, rounds k = rounds' k := fun k hk => h k (Nat.lt_succ_iff.mp hk)
  unfold released
  refine List.flatMap_congr fun i hi => ?_
  have hround := h' i (List.mem_range.mp hi)
  unfold due
  simp only [hround, survives_congr h']

theorem lost_congr [DecidableEq κ] {n : ℕ} (h : ∀ k ≤ n, rounds k = rounds' k) :
    lost owner rounds n = lost owner rounds' n := by
  unfold lost
  rw [h n (Nat.le_refl n), waiting_congr fun k hk => h k (Nat.le_of_lt hk)]

/-! ## One round -/

/-- An item of its own round has survived nothing yet. -/
theorem survives_self (n : ℕ) (x : α) : Survives owner rounds n (n + 1) x := by
  intro k hk hnk
  omega

theorem survives_succ {i n : ℕ} (hin : i < n) (x : α) :
    Survives owner rounds i (n + 1) x ↔
      Survives owner rounds i n x ∧ owner x ∉ (rounds n).cancelled := by
  unfold Survives
  constructor
  · intro hs
    exact ⟨fun k hk hik => hs k (Nat.lt_succ_of_lt hk) hik, hs n (Nat.lt_succ_self n) hin⟩
  · rintro ⟨hs, hn⟩ k hk hik
    rcases Nat.lt_succ_iff_lt_or_eq.mp hk with hlt | rfl
    · exact hs k hlt hik
    · exact hn

/-- The queue of a round once owners have lost theirs and new items have come in. -/
theorem filled_eq [DecidableEq κ] (n : ℕ) :
    (waiting owner rounds n).filter (fun x => owner x ∉ (rounds n).cancelled) ++
        (rounds n).pushed =
      (List.range (n + 1)).flatMap fun i =>
        if n ≤ due rounds i then
          (rounds i).pushed.filter fun x => Survives owner rounds i (n + 1) x
        else [] := by
  rw [List.range_succ, List.flatMap_append, List.flatMap_singleton]
  congr 1
  · unfold waiting
    rw [List.filter_flatMap]
    refine List.flatMap_congr fun i hi => ?_
    split
    · rw [List.filter_filter]
      refine List.filter_congr fun x _ => ?_
      rw [decide_eq_decide.mpr (survives_succ (List.mem_range.mp hi) x), Bool.and_comm]
      exact (Bool.decide_and _ _).symm
    · rfl
  · have hdue : n ≤ due rounds n := Nat.le_add_right n _
    rw [if_pos hdue]
    refine (List.filter_eq_self.mpr fun x _ => ?_).symm
    exact decide_eq_true (survives_self n x)

/-- A queue that lets go what is due, where `isDue` tells it on the items still there, has
let go `released` and keeps `waiting`. -/
theorem release_round [DecidableEq κ] {n : ℕ} (isDue : α → Prop) [DecidablePred isDue]
    (h : ∀ i ≤ n, n ≤ due rounds i → ∀ x ∈ (rounds i).pushed, isDue x ↔ due rounds i = n) :
    let queue := (waiting owner rounds n).filter (fun x => owner x ∉ (rounds n).cancelled) ++
      (rounds n).pushed
    queue.filter (fun x => isDue x) = released owner rounds n ∧
      queue.filter (fun x => ¬isDue x) = waiting owner rounds (n + 1) := by
  intro queue
  have hqueue : queue = _ := filled_eq n
  rw [hqueue, List.filter_flatMap, List.filter_flatMap]
  constructor
  · refine List.flatMap_congr fun i hi => ?_
    have hi := Nat.lt_succ_iff.mp (List.mem_range.mp hi)
    by_cases hle : n ≤ due rounds i
    · rw [if_pos hle, List.filter_filter]
      by_cases heq : due rounds i = n
      · rw [if_pos heq]
        refine List.filter_congr fun x hx => ?_
        rw [decide_eq_true ((h i hi hle x hx).mpr heq), Bool.true_and]
      · rw [if_neg heq, List.filter_eq_nil_iff]
        intro x hx
        rw [decide_eq_false fun hdue => heq ((h i hi hle x hx).mp hdue), Bool.false_and]
        exact Bool.false_ne_true
    · rw [if_neg hle, if_neg (by omega)]
      rfl
  · refine List.flatMap_congr fun i hi => ?_
    have hi := Nat.lt_succ_iff.mp (List.mem_range.mp hi)
    by_cases hle : n ≤ due rounds i
    · rw [if_pos hle, List.filter_filter]
      by_cases heq : due rounds i = n
      · rw [if_neg fun hlt : n + 1 ≤ due rounds i => absurd heq (by omega),
          List.filter_eq_nil_iff]
        intro x hx
        rw [decide_eq_false fun hnot => hnot ((h i hi hle x hx).mpr heq), Bool.false_and]
        exact Bool.false_ne_true
      · rw [if_pos (by omega)]
        refine List.filter_congr fun x hx => ?_
        have hnot : ¬isDue x := fun hdue => heq ((h i hi hle x hx).mp hdue)
        rw [decide_eq_true hnot, Bool.true_and]
    · rw [if_neg hle, if_neg (by omega)]
      rfl

end DelayQueue
