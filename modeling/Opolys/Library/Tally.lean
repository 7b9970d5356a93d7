import Mathlib.Algebra.BigOperators.Group.List.Basic
import Mathlib.Data.List.Perm.Basic
import Mathlib.Tactic.Common
import Mathlib.Tactic.Ring
import Std.Data.ExtTreeSet.Lemmas

/-!
# Tallies of votes

Voters have weights, and a set of voters has the sum of their weights. A list of votes in which a
voter may occur more than once is counted with a set of those that have been seen, and a counter
that stops at a greatest number. A quorum is a share of the whole weight, either of the ratio
rounded down or of the threshold rounded up.

* `foldl_count` : what is counted is the weight of the set of voters.
* `le_share_iff` : the two notions of a quorum.
-/

namespace Tally

open Std (ExtTreeSet TransOrd LawfulEqOrd)

variable {κ : Type*} [Ord κ] [TransOrd κ] [LawfulEqOrd κ] (weight : κ → ℕ)

/-! ## Sets of voters -/

/-- The weight of a set. -/
def ofSet (voters : ExtTreeSet κ) : ℕ := (voters.toList.map weight).sum

omit [LawfulEqOrd κ] in
@[simp] theorem ofSet_empty : ofSet weight ∅ = 0 := rfl

theorem nodup_toList (voters : ExtTreeSet κ) : voters.toList.Nodup := by
  refine voters.distinct_toList.imp ?_
  rintro a b h rfl
  exact h Std.ReflCmp.compare_self

theorem mem_insert {voters : ExtTreeSet κ} {voter v : κ} :
    v ∈ voters.insert voter ↔ v = voter ∨ v ∈ voters := by
  rw [ExtTreeSet.mem_insert]
  apply or_congr_left
  constructor
  · intro heq
    exact (Std.LawfulEqCmp.eq_of_compare heq).symm
  · rintro rfl
    exact Std.ReflCmp.compare_self

theorem toList_insert_perm {voters : ExtTreeSet κ} {voter : κ} (h : voter ∉ voters) :
    (voters.insert voter).toList.Perm (voter :: voters.toList) := by
  classical
  refine (List.perm_ext_iff_of_nodup (nodup_toList _) ?_).mpr fun v => ?_
  · rw [List.nodup_cons, ExtTreeSet.mem_toList]
    exact ⟨h, nodup_toList voters⟩
  · rw [ExtTreeSet.mem_toList, mem_insert, List.mem_cons, ExtTreeSet.mem_toList]

theorem ofSet_insert {voters : ExtTreeSet κ} {voter : κ} (h : voter ∉ voters) :
    ofSet weight (voters.insert voter) = weight voter + ofSet weight voters := by
  unfold ofSet
  rw [((toList_insert_perm h).map weight).sum_eq, List.map_cons, List.sum_cons]

/-! ## Counting -/

/-- Count the vote of a voter who has not been seen. -/
def count (greatest : ℕ) (tally : ExtTreeSet κ × ℕ) (voter : κ) : ExtTreeSet κ × ℕ :=
  if voter ∈ tally.1 then tally
  else (tally.1.insert voter, min (tally.2 + weight voter) greatest)

/-- A tally whose counter holds the weight of those who have been seen. -/
def Counted (greatest : ℕ) (tally : ExtTreeSet κ × ℕ) : Prop :=
  tally.2 = min (ofSet weight tally.1) greatest

omit [LawfulEqOrd κ] in
theorem counted_empty (greatest : ℕ) : Counted weight greatest (∅, 0) := by
  simp [Counted]

variable {weight} in
theorem Counted.count {greatest : ℕ} {tally : ExtTreeSet κ × ℕ} (h : Counted weight greatest tally)
    (voter : κ) : Counted weight greatest (count weight greatest tally voter) := by
  unfold Tally.count
  by_cases hseen : voter ∈ tally.1
  · rwa [if_pos hseen]
  · unfold Counted at h ⊢
    rw [if_neg hseen]
    dsimp only
    rw [ofSet_insert weight hseen, h]
    omega

theorem mem_count {greatest : ℕ} {tally : ExtTreeSet κ × ℕ} {voter v : κ} :
    v ∈ (count weight greatest tally voter).1 ↔ v = voter ∨ v ∈ tally.1 := by
  unfold count
  by_cases hseen : voter ∈ tally.1
  · rw [if_pos hseen]
    refine ⟨Or.inr, ?_⟩
    rintro (rfl | hmem)
    · exact hseen
    · exact hmem
  · rw [if_neg hseen, mem_insert]

/-- Counted one after the other, votes have the weight of the set of their voters. -/
theorem foldl_count {greatest : ℕ} (votes : List κ) {tally : ExtTreeSet κ × ℕ}
    (h : Counted weight greatest tally) :
    Counted weight greatest (votes.foldl (count weight greatest) tally) ∧
      ∀ v, v ∈ (votes.foldl (count weight greatest) tally).1 ↔ v ∈ votes ∨ v ∈ tally.1 := by
  induction votes generalizing tally with
  | nil => simp [h]
  | cons voter votes ih =>
    obtain ⟨hcounted, hmem⟩ := ih (h.count voter)
    refine ⟨hcounted, fun v => ?_⟩
    rw [List.foldl_cons, hmem, mem_count, List.mem_cons]
    tauto

/-- The set of the voters is all there is to the votes. -/
theorem count_votes {greatest : ℕ} (votes : List κ) :
    votes.foldl (count weight greatest) (∅, 0) =
      (ExtTreeSet.ofList votes, min (ofSet weight (ExtTreeSet.ofList votes)) greatest) := by
  classical
  obtain ⟨hcounted, hmem⟩ := foldl_count weight votes (counted_empty weight greatest)
  have hset : (votes.foldl (count weight greatest) (∅, 0)).1 = ExtTreeSet.ofList votes := by
    refine ExtTreeSet.ext_mem fun v => ?_
    rw [hmem, ExtTreeSet.mem_ofList, List.contains_eq_mem, decide_eq_true_iff]
    simp
  refine Prod.ext hset ?_
  unfold Counted at hcounted
  rw [hcounted, hset]

/-! ## Quorums -/

/-- A capped share, rounded down, reaches a bound exactly when the whole is not empty, the bound
fits below the cap, and the part reaches the threshold that is rounded up. -/
theorem le_share_iff {part whole bound scale greatest : ℕ} (hbound : 0 < bound)
    (hscale : 0 < scale) :
    bound ≤ min (part * scale) greatest / whole ↔
      (whole ≠ 0 ∧ whole * bound ≤ greatest) ∧ (whole * bound + (scale - 1)) / scale ≤ part := by
  have hceil : (whole * bound + (scale - 1)) / scale ≤ part ↔ whole * bound ≤ part * scale := by
    rw [Nat.div_le_iff_le_mul_add_pred hscale, Nat.mul_comm part scale]
    omega
  rw [hceil]
  by_cases hwhole : whole = 0
  · simp [hwhole]
    omega
  · rw [Nat.le_div_iff_mul_le (Nat.pos_of_ne_zero hwhole), Nat.mul_comm bound whole]
    omega

end Tally
