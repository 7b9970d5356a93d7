import Opolys.Consensus.Custody
import Opolys.Consensus.Lifecycle

/-!
# The queue of withdrawals

Three operations write the queue of withdrawals: a withdrawal is appended, what has matured
is taken out, and a slashed refiner loses what it has there. All others leave it alone.
Slashing several refiners one after the other burns the stake of each once, and everything
that was queued for any of them once.
-/

namespace Opolys

open MachineInt (saturatingAdd)

/-- Withdrawals of the first of several accounts, and of the others among the rest. -/
theorem queuedAmount_mem_cons (id : ObjectId) (ids : List ObjectId) (queue : List PendingUnbond) :
    queuedAmount (queue.filter fun u => u.account ∈ id :: ids) =
      queuedAmount (queue.filter fun u => u.account = id) +
        queuedAmount ((queue.filter fun u => u.account ≠ id).filter fun u => u.account ∈ ids) := by
  rw [← queuedAmount_filter (fun u => decide (u.account = id))
    (queue.filter fun u => u.account ∈ id :: ids), List.filter_filter, List.filter_filter,
    List.filter_filter]
  congr 2
  · refine List.filter_congr fun u _ => ?_
    by_cases hid : u.account = id <;> simp [hid]
  · refine List.filter_congr fun u _ => ?_
    by_cases hid : u.account = id <;> simp [hid]

namespace RefinerSet

open Effect (check_bind_eq_ok bind_eq_ok)

/-! ## Operations that leave the queue alone -/

theorem unbondingQueue_bond {set set' : RefinerSet} {id : ObjectId} {stake : FlakeAmount}
    {height timestamp : UInt64} {totalIssued : FlakeAmount}
    (h : set.bond id stake height timestamp totalIssued = .ok set') :
    set'.unbondingQueue = set.unbondingQueue := by
  unfold bond at h
  rw [check_bind_eq_ok] at h
  obtain ⟨-, h⟩ := h
  split at h
  · rw [check_bind_eq_ok] at h
    obtain ⟨r', -, h⟩ := bind_eq_ok.mp h.2
    cases h
    rfl
  · cases h
    rfl

theorem unbondingQueue_recordCorrectAttestation {set set' : RefinerSet} {id : ObjectId}
    (h : set.recordCorrectAttestation id = .ok set') :
    set'.unbondingQueue = set.unbondingQueue := by
  unfold recordCorrectAttestation at h
  split at h
  · cases h
  · rw [check_bind_eq_ok] at h
    cases h.2
    rfl

theorem unbondingQueue_foldl {ι : Type*} {f : RefinerSet → ι → RefinerSet}
    (hf : ∀ set x, (f set x).unbondingQueue = set.unbondingQueue) (xs : List ι)
    (set : RefinerSet) : (xs.foldl f set).unbondingQueue = set.unbondingQueue := by
  induction xs generalizing set with
  | nil => rfl
  | cons x xs ih => rw [List.foldl_cons, ih, hf]

theorem unbondingQueue_activateMaturedRefiners (set : RefinerSet) (height : BlockHeight) :
    (set.activateMaturedRefiners height).unbondingQueue = set.unbondingQueue := by
  unfold activateMaturedRefiners
  exact unbondingQueue_foldl (fun _ _ => by rfl) _ set

theorem unbondingQueue_rankRefiner (activeLimit : ℕ) (set : RefinerSet)
    (candidate : (ObjectId × UInt64) × ℕ) :
    (rankRefiner activeLimit set candidate).unbondingQueue = set.unbondingQueue := by
  unfold rankRefiner
  dsimp only
  split
  · rfl
  · split
    · split <;> rfl
    · split <;> rfl

theorem unbondingQueue_rerankRefiners (set : RefinerSet) (totalIssued : FlakeAmount) :
    (set.rerankRefiners totalIssued).unbondingQueue = set.unbondingQueue :=
  unbondingQueue_foldl (unbondingQueue_rankRefiner _) _ set

/-! ## Operations on the queue -/

theorem unbondingQueue_unbondAmount {set set' : RefinerSet} {id : ObjectId}
    {amount unbonded : FlakeAmount} {height : BlockHeight}
    (h : set.unbondAmount id amount height = .ok (set', unbonded)) :
    set'.unbondingQueue = set.unbondingQueue ++
      [{ account := id, amount := unbonded, maturesAt := saturatingAdd height epoch }] := by
  unfold unbondAmount at h
  split at h
  · cases h
  · dsimp only at h
    rw [check_bind_eq_ok, check_bind_eq_ok, check_bind_eq_ok] at h
    obtain ⟨-, -, -, h⟩ := h
    split at h
    · cases h
    · split at h <;> cases h <;> rfl

theorem unbondingQueue_processMaturedUnbonds (set : RefinerSet) (height : BlockHeight) :
    (set.processMaturedUnbonds height).1.unbondingQueue =
      set.unbondingQueue.filter fun entry => ¬entry.maturesAt ≤ height := by
  unfold processMaturedUnbonds
  have hremove (set : RefinerSet) (entry : ObjectId × FlakeAmount) :
      (set.removeIfGone entry.1).unbondingQueue = set.unbondingQueue :=
    unbondingQueue_removeIfGone set entry.1
  exact unbondingQueue_foldl hremove _ _

theorem unbondingQueue_afterSlash (set : RefinerSet) (id : ObjectId) :
    (set.afterSlash id).unbondingQueue =
      set.unbondingQueue.filter fun entry => entry.account ≠ id := by
  unfold afterSlash
  dsimp only
  split
  · rfl
  · split <;> rfl

theorem unbondingQueue_foldl_afterSlash (ids : List ObjectId) (set : RefinerSet) :
    (ids.foldl afterSlash set).unbondingQueue =
      set.unbondingQueue.filter fun entry => entry.account ∉ ids := by
  induction ids generalizing set with
  | nil =>
    refine (List.filter_eq_self.mpr fun entry _ => ?_).symm
    exact decide_eq_true List.not_mem_nil
  | cons id ids ih =>
    rw [List.foldl_cons, ih, unbondingQueue_afterSlash, List.filter_filter]
    refine List.filter_congr fun entry _ => ?_
    by_cases hid : entry.account = id <;> simp [hid]

/-! ## What slashing burns -/

/-- The stake a refiner would lose. -/
def stakeAtRisk (set : RefinerSet) (id : ObjectId) : ℕ :=
  match set.getRefiner id with
  | none => 0
  | some r => if r.status = .slashed then 0 else r.totalStake.toNat

/-- The stake that is lost when refiners are slashed one after the other. -/
def stakeLost : List ObjectId → RefinerSet → ℕ
  | [], _ => 0
  | id :: ids, set => set.stakeAtRisk id + stakeLost ids (set.afterSlash id)

/-- A refiner is slashed for its stake and for what it has in the queue. -/
theorem toNat_slashAmount (set : RefinerSet) (id : ObjectId) :
    (set.slashAmount id).toNat = min (set.stakeAtRisk id +
      queuedAmount (set.unbondingQueue.filter fun u => u.account = id)) (2 ^ 64 - 1) := by
  have hpending : (set.pendingBurn id).toNat =
      min (queuedAmount (set.unbondingQueue.filter fun u => u.account = id)) (2 ^ 64 - 1) := by
    unfold pendingBurn queuedAmount
    rw [MachineInt.toNat_foldl_saturatingAdd PendingUnbond.amount, UInt64.toNat_zero,
      Nat.zero_add]
  unfold slashAmount stakeAtRisk
  cases set.getRefiner id with
  | none => rw [hpending, Nat.zero_add]
  | some r =>
    dsimp only
    by_cases hs : r.status = .slashed
    · rw [if_pos hs, if_pos hs, hpending, Nat.zero_add]
    · rw [if_neg hs, if_neg hs, MachineInt.toNat_saturatingAdd, hpending]
      omega

/-- There is nothing left to take from a refiner. -/
def Spent (set : RefinerSet) (id : ObjectId) : Prop :=
  (∀ u ∈ set.unbondingQueue, u.account ≠ id) ∧
    ∀ r, set.getRefiner id = some r → r.status = .slashed

theorem Spent.afterSlash_eq {set : RefinerSet} {id : ObjectId} (h : set.Spent id) :
    set.afterSlash id = set := by
  have hqueue : (set.unbondingQueue.filter fun entry => entry.account ≠ id) =
      set.unbondingQueue :=
    List.filter_eq_self.mpr fun u hu => decide_eq_true (h.1 u hu)
  unfold afterSlash
  rw [hqueue]
  dsimp only
  split
  · rfl
  · rename_i r hr
    rw [if_pos (h.2 r hr)]

theorem Spent.stakeAtRisk_eq {set : RefinerSet} {id : ObjectId} (h : set.Spent id) :
    set.stakeAtRisk id = 0 := by
  unfold stakeAtRisk
  split
  · rfl
  · rename_i r hr
    rw [if_pos (h.2 r hr)]

theorem spent_afterSlash (set : RefinerSet) (id : ObjectId) : (set.afterSlash id).Spent id := by
  constructor
  · intro u hu
    rw [unbondingQueue_afterSlash, List.mem_filter] at hu
    exact of_decide_eq_true hu.2
  · intro r hr
    unfold afterSlash at hr
    dsimp only at hr
    split at hr
    · rename_i hnone
      exact absurd (hnone.symm.trans hr) nofun
    · rename_i old hold
      have hid : old.objectId = id := Registry.name_of_get? (v := old) hold
      split at hr
      · rename_i hslashed
        obtain rfl := Option.some.inj (hold.symm.trans hr)
        exact hslashed
      · rw [getRefiner_put, if_pos hid] at hr
        cases hr
        rfl

theorem Spent.afterSlash {set : RefinerSet} {id : ObjectId} (h : set.Spent id) (k : ObjectId) :
    (set.afterSlash k).Spent id := by
  by_cases hk : k = id
  · rw [hk]
    exact spent_afterSlash set id
  · have hholding : (set.afterSlash k).holding id = set.holding id := holding_afterSlash hk
    refine ⟨fun u hu => ?_, fun r hr => ?_⟩
    · rw [unbondingQueue_afterSlash] at hu
      exact h.1 u (List.mem_of_mem_filter hu)
    · exact h.2 r ((congrArg Prod.fst hholding).symm.trans hr)

/-- A slashed refiner has nothing to withdraw. -/
theorem not_isSlashed_of_unbondAmount {set set' : RefinerSet} {id : ObjectId}
    {amount unbonded : FlakeAmount} {height : BlockHeight} (hset : set.WellFormed)
    (h : set.unbondAmount id amount height = .ok (set', unbonded)) : ¬set.IsSlashed id := by
  rintro ⟨r, hr, hslashed⟩
  unfold unbondAmount at h
  rw [hr] at h
  dsimp only at h
  rw [check_bind_eq_ok] at h
  exact h.1 (RefinerInfo.totalStake_eq_zero ((hset.record id r hr).stake_zero hslashed))

end RefinerSet

end Opolys
