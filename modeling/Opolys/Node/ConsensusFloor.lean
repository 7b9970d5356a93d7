import Opolys.Node.ActiveSet
import Opolys.Node.Tip
import Mathlib.Algebra.Order.BigOperators.Group.List

/-!
# The consensus floor under withdrawals

The consensus floor is the issued supply over the bonded stake. Unbonding and slashing can
only lower the bonded stake, so they raise the floor, down to the last flake: a set without
any bonded stake has no floor at all, and then the difficulty is the one of the retarget.

* `unbonding_keeps_difficulty_iff` : less bonded stake does not make the next block easier
  exactly when some of it is left or the floor did not decide the difficulty.
-/

namespace Opolys

open Transition (run)

/-! ## The stake behind the floor -/

/-- The exact stake a refiner lends to the consensus floor. -/
def RefinerInfo.floorStake (r : RefinerInfo) : ℕ :=
  if r.status = .active ∨ r.status = .bonding ∨ r.status = .waiting then r.stake else 0

theorem RefinerInfo.floorStake_le (r : RefinerInfo) : r.floorStake ≤ r.stake := by
  unfold floorStake
  split
  · exact Nat.le_refl _
  · exact Nat.zero_le _

/-- Active records and records that wait for activation are counted apart, and no record is
counted twice. -/
theorem RefinerInfo.sum_floorStake (rs : List RefinerInfo) :
    (rs.map floorStake).sum =
      ((rs.filter fun r => r.status = .active).map stake).sum +
        ((rs.filter fun r => r.status = .bonding ∨ r.status = .waiting).map stake).sum := by
  induction rs with
  | nil => simp
  | cons r rs ih =>
    rw [List.map_cons, List.sum_cons, ih]
    unfold floorStake
    cases hs : r.status <;> simp [hs] <;> omega

namespace RefinerSet

/-- The exact stake behind the consensus floor. -/
def floorStakes (set : RefinerSet) : ℕ := Registry.total RefinerInfo.floorStake set.cachedRefiners

/-- As long as the stakes fit into a word, the node adds up the stake behind the floor
exactly, whichever order its active set has. -/
theorem toNat_totalBondedStake {set : RefinerSet} (h : set.WellFormed)
    (hfits : set.stakes < 2 ^ 64) : set.totalBondedStake.toNat = set.floorStakes := by
  have hactive : (set.activeRefiners.map RefinerInfo.totalStake).sum =
      ((set.allRefiners.filter fun r => r.status = .active).map RefinerInfo.totalStake).sum := by
    have hperm := (alike_loadFromRefiners h).activeRefiners_perm
    rw [loadFromRefiners_allRefiners] at hperm
    rw [← MachineInt.sum_eq_of_perm (hperm.map RefinerInfo.totalStake)]
    unfold activeRefiners
    dsimp only
    rw [List.filterMap_map]
    refine congrArg (fun rs => (List.map RefinerInfo.totalStake rs).sum) ?_
    refine (List.filterMap_congr fun r hr => ?_).trans List.filterMap_some
    exact Registry.mem_values.mp (List.mem_of_mem_filter hr)
  have hword : ∀ r ∈ set.allRefiners, r.totalStake.toNat = r.stake := by
    intro r hr
    have hget : set.getRefiner r.objectId = some r := Registry.mem_values.mp hr
    exact RefinerInfo.toNat_totalStake ((stake_le_stakes hget).trans_lt hfits)
  have hpart (p : RefinerInfo → Bool) :
      ((set.allRefiners.filter p).map fun r => r.totalStake.toNat) =
        (set.allRefiners.filter p).map RefinerInfo.stake :=
    List.map_congr_left fun r hr => hword r (List.mem_of_mem_filter hr)
  have hsum : set.floorStakes = _ := (Registry.total_eq_sum_values _ _).trans
    (RefinerInfo.sum_floorStake set.allRefiners)
  have hle : set.floorStakes ≤ set.stakes := by
    unfold floorStakes stakes
    rw [Registry.total_eq_sum_values, Registry.total_eq_sum_values]
    exact List.sum_le_sum fun r _ => r.floorStake_le
  unfold totalBondedStake
  rw [hactive]
  have hlt := hle.trans_lt hfits
  rw [hsum, ← hpart, ← hpart] at hlt ⊢
  have hone := MachineInt.toNat_sum_of_lt RefinerInfo.totalStake
    (set.allRefiners.filter fun r => r.status = .active) (by omega)
  have htwo := MachineInt.toNat_sum_of_lt RefinerInfo.totalStake
    (set.allRefiners.filter fun r => r.status = .bonding ∨ r.status = .waiting) (by omega)
  rw [← hone, ← htwo] at hlt ⊢
  exact MachineInt.toNat_saturatingAdd_of_lt hlt

/-! ## Withdrawals -/

/-- Whether an operation takes stake away: an unbonding or a slashing. -/
def Operation.withdraws : Operation → Bool
  | .unbondAmount .. => true
  | .slashRefiner _ => true
  | _ => false

/-- Stake taken away is neither counted nor held any more. -/
theorem floorStakes_perform {set : RefinerSet} {operation : Operation}
    (hop : operation.withdraws = true) :
    (set.perform operation).floorStakes ≤ set.floorStakes ∧
      (set.perform operation).stakes ≤ set.stakes := by
  have hput {r r' : RefinerInfo} (hr : set.getRefiner r'.objectId = some r)
      (hfloor : r'.floorStake ≤ r.floorStake) (hstake : r'.stake ≤ r.stake) :
      Registry.total RefinerInfo.floorStake (set.cachedRefiners.put r') ≤ set.floorStakes ∧
        Registry.total RefinerInfo.stake (set.cachedRefiners.put r') ≤ set.stakes := by
    have hone := Registry.total_put RefinerInfo.floorStake (w := r') (v := r) hr
    have htwo := Registry.total_put RefinerInfo.stake (w := r') (v := r) hr
    unfold floorStakes stakes
    omega
  have hslash (id : ObjectId) : (set.afterSlash id).floorStakes ≤ set.floorStakes ∧
      (set.afterSlash id).stakes ≤ set.stakes := by
    unfold afterSlash
    split
    · exact ⟨Nat.le_refl _, Nat.le_refl _⟩
    · rename_i r hr
      split
      · exact ⟨Nat.le_refl _, Nat.le_refl _⟩
      · refine hput (r := r) ?_ ?_ ?_
        · rw [show _ = r.objectId from rfl, Registry.name_of_get? (v := r) hr]
          exact hr
        · simp [RefinerInfo.floorStake]
        · simp [RefinerInfo.stake, entriesStake, Function.comp_def]
  fun_cases perform set operation with
  | case3 id amount height set' unbonded h =>
    obtain ⟨-, r, r', hr, hid, hstake, hrec, -, hstatus⟩ := unbondAmount_eq_ok h
    have hfloor : r'.floorStake ≤ r.floorStake := by
      unfold RefinerInfo.floorStake
      rcases hstatus with ⟨hs, -⟩ | ⟨hs, -⟩
      · rw [hs]
        split <;> omega
      · simp [hs]
    have hr' : set.getRefiner r'.objectId = some r := by rw [hid]; exact hr
    have hle := hput hr' hfloor (by omega)
    rw [← hrec] at hle
    exact hle
  | case4 => exact ⟨Nat.le_refl _, Nat.le_refl _⟩
  | case8 id burned set' hs =>
    obtain rfl := ((slashRefiner_ends id set).ok hs).2
    exact hslash id
  | case9 id message set' hs =>
    obtain rfl := ((slashRefiner_ends id set).error hs).2
    exact hslash id
  | _ => cases hop

/-- No run of withdrawals raises the bonded stake. -/
theorem totalBondedStake_withdrawals {set : RefinerSet} (h : set.WellFormed)
    (hfits : set.stakes < 2 ^ 64) {operations : List Operation}
    (hops : ∀ operation ∈ operations, operation.withdraws = true) :
    (run perform set operations).totalBondedStake ≤ set.totalBondedStake := by
  have hrun : (run perform set operations).floorStakes ≤ set.floorStakes ∧
      (run perform set operations).stakes ≤ set.stakes := by
    induction operations generalizing set with
    | nil => exact ⟨Nat.le_refl _, Nat.le_refl _⟩
    | cons operation operations ih =>
      obtain ⟨hfloor, hstake⟩ := @floorStakes_perform set _ (hops operation (by simp))
      obtain ⟨hfloor', hstake'⟩ := ih (wellFormed_perform h operation) (hstake.trans_lt hfits)
        fun op hop => hops op (List.mem_cons_of_mem _ hop)
      exact ⟨hfloor'.trans hfloor, hstake'.trans hstake⟩
  rw [UInt64.le_iff_toNat_le, toNat_totalBondedStake h hfits,
    toNat_totalBondedStake (wellFormed_run h operations) (hrun.2.trans_lt hfits)]
  exact hrun.1

end RefinerSet

/-! ## The floor -/

theorem toNat_consensusFloor (totalIssued bondedStake : UInt64) :
    (computeConsensusFloor totalIssued bondedStake).toNat =
      totalIssued.toNat / bondedStake.toNat := by
  unfold computeConsensusFloor
  split
  · rename_i hzero
    rw [hzero, UInt64.toNat_zero, Nat.div_zero]
  · exact UInt64.toNat_div _ _

/-- The difficulty a retarget input asks for, over the bonded stake. -/
theorem toNat_effectiveDifficulty (difficulty : UInt64) (height : BlockHeight)
    (timestamps : List UInt64) (totalIssued bondedStake : UInt64) :
    (computeNextDifficulty difficulty height timestamps totalIssued
        bondedStake).effectiveDifficulty.toNat =
      max (max (computeRetarget difficulty height timestamps).toNat
        (totalIssued.toNat / bondedStake.toNat)) 1 := by
  unfold computeNextDifficulty DifficultyTarget.effectiveDifficulty
  dsimp only
  rw [MachineInt.toNat_max, MachineInt.toNat_max, toNat_consensusFloor, toNat_minDifficulty]

/-- Two stakes behind one retarget: the smaller one asks for no less exactly when it is not
zero or the floor of the greater one is not above the retarget. -/
theorem effectiveDifficulty_le_iff {difficulty : UInt64} {height : BlockHeight}
    {timestamps : List UInt64} {totalIssued bonded less : UInt64} (hle : less ≤ bonded) :
    (computeNextDifficulty difficulty height timestamps totalIssued bonded).effectiveDifficulty ≤
        (computeNextDifficulty difficulty height timestamps totalIssued less).effectiveDifficulty ↔
      less ≠ 0 ∨
        totalIssued / bonded ≤ max (computeRetarget difficulty height timestamps)
          minDifficulty := by
  rw [UInt64.le_iff_toNat_le] at hle ⊢
  rw [UInt64.le_iff_toNat_le, MachineInt.toNat_max, toNat_minDifficulty, UInt64.toNat_div,
    toNat_effectiveDifficulty, toNat_effectiveDifficulty, ne_eq, ← UInt64.toNat_inj,
    UInt64.toNat_zero]
  by_cases hzero : less.toNat = 0
  · rw [hzero, Nat.div_zero]
    omega
  · have hfloor : totalIssued.toNat / bonded.toNat ≤ totalIssued.toNat / less.toNat :=
      Nat.div_le_div_left hle (by omega)
    have hkept : less.toNat ≠ 0 := hzero
    simp only [hkept, not_false_eq_true, true_or, iff_true]
    omega

/-- Less bonded stake never makes the next block easier, as long as it is not all gone: for
all retarget inputs the difficulty over a smaller stake is at least the one over a greater
stake exactly when the smaller one is not zero or the floor of the greater one stays within
the retarget. So it is after any unbondings and slashings of a refiner set, none of which
raises the stake. -/
theorem unbonding_keeps_difficulty_iff (difficulty : UInt64) (height : BlockHeight)
    (timestamps : List UInt64) (totalIssued : UInt64) :
    let required (bondedStake : UInt64) := (computeNextDifficulty difficulty height timestamps
      totalIssued bondedStake).effectiveDifficulty
    let decides (bondedStake : UInt64) :=
      max (computeRetarget difficulty height timestamps) minDifficulty < totalIssued / bondedStake
    (∀ bonded less, less ≤ bonded →
      (required bonded ≤ required less ↔ less ≠ 0 ∨ ¬decides bonded)) ∧
    ∀ (set : RefinerSet) (operations : List RefinerSet.Operation), set.WellFormed →
      set.stakes < 2 ^ 64 → (∀ operation ∈ operations, operation.withdraws = true) →
      let bonded := set.totalBondedStake
      let less := (run RefinerSet.perform set operations).totalBondedStake
      less ≤ bonded ∧ (required bonded ≤ required less ↔ less ≠ 0 ∨ ¬decides bonded) := by
  intro required decides
  have hpair : ∀ bonded less, less ≤ bonded →
      (required bonded ≤ required less ↔ less ≠ 0 ∨ ¬decides bonded) := by
    intro bonded less hle
    rw [UInt64.not_lt]
    exact effectiveDifficulty_le_iff hle
  refine ⟨hpair, fun set operations hset hfits hops => ?_⟩
  have hle := RefinerSet.totalBondedStake_withdrawals hset hfits hops
  exact ⟨hle, hpair _ _ hle⟩

/-- A refiner set of one bond. -/
def soleBond (stake : FlakeAmount) : RefinerSet :=
  run RefinerSet.perform RefinerSet.new [.bond ⟨Hash.zero⟩ stake 960 1 60000000000]

/-- The one refiner keeps half of its bond, and the next block is twice as hard. -/
theorem unbonding_keeps_difficulty_half :
    let required (bondedStake : UInt64) :=
      (computeNextDifficulty 7 961 [] 60000000000 bondedStake).effectiveDifficulty
    let less := (run RefinerSet.perform (soleBond 400000000)
      [.unbondAmount ⟨Hash.zero⟩ 200000000 961]).totalBondedStake
    required 400000000 = 150 ∧ required less = 300 ∧ required 400000000 ≤ required less := by
  intro required less
  have hbonded : (soleBond 400000000).totalBondedStake = 400000000 := by decide +kernel
  refine ⟨by decide +kernel, by decide +kernel, ?_⟩
  have h := (unbonding_keeps_difficulty_iff 7 961 [] 60000000000).2 (soleBond 400000000)
    [.unbondAmount ⟨Hash.zero⟩ 200000000 961]
    (RefinerSet.wellFormed_run RefinerSet.wellFormed_new _) (by decide +kernel)
    (by simp [RefinerSet.Operation.withdraws])
  rw [hbonded] at h
  exact h.2.mpr (Or.inl (by decide +kernel))

/-- It withdraws everything, and the next block is as easy as the retarget allows. -/
theorem floor_leaves_with_last_flake :
    let required (bondedStake : UInt64) :=
      (computeNextDifficulty 7 961 [] 60000000000 bondedStake).effectiveDifficulty
    let bonded := (soleBond 400000000).totalBondedStake
    let less := (run RefinerSet.perform (soleBond 400000000)
      [.unbondAmount ⟨Hash.zero⟩ 400000000 961]).totalBondedStake
    0 < bonded ∧ less = 0 ∧ ¬required bonded ≤ required less := by
  decide +kernel

end Opolys
