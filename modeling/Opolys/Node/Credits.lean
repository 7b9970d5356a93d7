import Opolys.Consensus.Balances
import Opolys.Consensus.Keys
import Opolys.Library.FiniteMap
import Opolys.Node.Reward

/-!
# What credits and splits amount to

The parts of a reward and of the fees add up to the whole, and a credit adds its amount to
the balances and moves no nonce. Credits fail only by overflow, so that none fails while
all balances together leave room.
-/

namespace Opolys

open Std (ExtTreeMap)
open Effect (bind_eq_ok)

/-! ## Splits -/

/-- The rounded root is at most one above the root. -/
theorem integerSqrtRound_le (n : ℕ) : integerSqrtRound n ≤ Nat.sqrt n + 1 := by
  unfold integerSqrtRound
  split
  · rename_i h
    have : n = 0 ∨ n = 1 := by omega
    rcases this with rfl | rfl <;> simp
  · rename_i h
    rw [IntegerSqrt.newton_eq_sqrt (by omega)]
    dsimp only
    split
    · exact min_le_left _ _
    · exact Nat.le_succ _

/-- Up to the greatest difficulty a proof can meet, the mine assay is a part of the reward. -/
theorem computeMineAssay_le (grossReward : FlakeAmount) {difficulty : UInt64}
    (hd : difficulty.toNat ≤ 256) :
    (computeMineAssay grossReward difficulty).toNat ≤ grossReward.toNat := by
  unfold computeMineAssay
  split
  · exact Nat.zero_le _
  · dsimp only
    rw [MachineInt.toNat_clamp]
    have hmax : (max difficulty minDifficulty).toNat ≤ 256 := by
      rw [MachineInt.toNat_max, toNat_minDifficulty]
      omega
    have hsqrt : Nat.sqrt (max difficulty minDifficulty).toNat ≤ 16 :=
      (Nat.sqrt_le_sqrt hmax).trans (Nat.sqrt_eq 16).le
    have hround := integerSqrtRound_le (max difficulty minDifficulty).toNat
    have hpressure : max (integerSqrtRound (max difficulty minDifficulty).toNat) 1 ≤ 960 := by
      omega
    refine (min_le_left _ _).trans ?_
    rw [toNat_epoch]
    refine Nat.div_le_of_le_mul ?_
    calc MachineInt.saturatingMul128 grossReward.toNat _
        ≤ grossReward.toNat * max (integerSqrtRound (max difficulty minDifficulty).toNat) 1 :=
          min_le_left _ _
      _ ≤ grossReward.toNat * 960 := Nat.mul_le_mul_left _ hpressure
      _ = 960 * grossReward.toNat := Nat.mul_comm _ _

/-- The miner's share and the mine assay make up the gross reward. -/
theorem rewardDistribution_adds_up (grossReward baseRewardAmount : FlakeAmount)
    (coverageMilli : UInt64) {difficulty : UInt64} (hd : difficulty.toNat ≤ 256) :
    let reward := computeRewardDistribution grossReward baseRewardAmount difficulty coverageMilli
    reward.minerShare.toNat + reward.mineAssay.toNat = reward.grossReward.toNat := by
  intro reward
  have hassay := computeMineAssay_le grossReward hd
  simp only [reward, computeRewardDistribution]
  split
  · rfl
  · dsimp only
    rw [MachineInt.toNat_saturatingSub]
    omega

/-- The burned and the paid part of the fees make up the fees. -/
theorem porFeeSplit_adds_up (ordinaryFees : FlakeAmount) (activeRefiners activeRefinerLimit : ℕ) :
    let split := computePorFeeSplit ordinaryFees activeRefiners activeRefinerLimit
    split.1.toNat + split.2.toNat = ordinaryFees.toNat := by
  intro split
  simp only [split, computePorFeeSplit]
  split_ifs
  · exact Nat.zero_add _
  · exact Nat.zero_add _
  · have hlt := ordinaryFees.toNat_lt
    dsimp only
    rw [MachineInt.toNat_saturatingSub, MachineInt.toNat_ofNat_of_lt (by omega)]
    omega

/-! ## Credits -/

theorem mapError_eq_ok {ε ε' α : Type*} {f : ε → ε'} {x : Except ε α} {a : α} :
    x.mapError f = .ok a ↔ x = .ok a := by
  cases x <;> simp [Except.mapError]

theorem creditOrCreateAccount_eq_ok {accounts accounts' : AccountStore} {id : ObjectId}
    {amount : FlakeAmount} (h : creditOrCreateAccount accounts id amount = .ok accounts') :
    accounts'.balances = accounts.balances + amount.toNat ∧
      ∀ k, accounts'.nonceOf k = accounts.nonceOf k := by
  unfold creditOrCreateAccount at h
  split at h
  · rename_i h0
    cases h
    subst h0
    exact ⟨rfl, fun _ => rfl⟩
  · rw [mapError_eq_ok] at h
    have hbal := AccountStore.balances_credit h
    have hnonce := AccountStore.nonceOf_credit h
    rw [AccountStore.balances_withAccount] at hbal
    refine ⟨hbal, fun k => ?_⟩
    rw [hnonce, AccountStore.nonceOf_withAccount]

theorem keyOf_creditOrCreateAccount {accounts accounts' : AccountStore} {id : ObjectId}
    {amount : FlakeAmount} (h : creditOrCreateAccount accounts id amount = .ok accounts')
    (k : ObjectId) : accounts'.keyOf k = accounts.keyOf k := by
  unfold creditOrCreateAccount at h
  split at h
  · cases h
    rfl
  · rw [mapError_eq_ok] at h
    rw [AccountStore.keyOf_credit h, AccountStore.keyOf_withAccount]

theorem balanceOf_creditOrCreateAccount {accounts accounts' : AccountStore} {id : ObjectId}
    {amount : FlakeAmount} (h : creditOrCreateAccount accounts id amount = .ok accounts')
    (k : ObjectId) : (accounts'.balanceOf k).toNat =
      (accounts.balanceOf k).toNat + if id = k then amount.toNat else 0 := by
  unfold creditOrCreateAccount at h
  split at h
  · rename_i h0
    cases h
    rw [h0, UInt64.toNat_zero, ite_self, Nat.add_zero]
  · rw [mapError_eq_ok, AccountStore.credit_eq_ok] at h
    obtain ⟨a, ha, hlt, rfl⟩ := h
    have hid : a.objectId = id := Registry.name_of_get? ha
    rw [AccountStore.get?_withAccount, if_pos rfl] at ha
    let credited : Account := { a with balance := a.balance + amount }
    let store : AccountStore := (accounts.withAccount id).put credited
    change (store.balanceOf k).toNat = _
    have hput : store.get? k =
        if id = k then some credited else (accounts.withAccount id).get? k := by
      change Registry.get? ((accounts.withAccount id).put credited) k = _
      rw [Registry.get?_put, show credited.objectId = id from hid]
    by_cases hk : id = k
    · rw [if_pos hk] at hput
      rw [if_pos hk, AccountStore.balanceOf_of_get? hput, MachineInt.toNat_add_of_lt hlt, ← hk]
      cases hold : accounts.get? id with
      | none =>
        rw [hold] at ha
        cases ha
        rw [AccountStore.balanceOf_of_none hold]
        rfl
      | some old =>
        rw [hold] at ha
        cases ha
        rw [AccountStore.balanceOf_of_get? hold]
        rfl
    · rw [if_neg hk, AccountStore.get?_withAccount, if_neg hk] at hput
      have hsame : store.balanceOf k = accounts.balanceOf k := by
        unfold AccountStore.balanceOf
        rw [AccountStore.getAccount_eq, AccountStore.getAccount_eq, hput]
      rw [if_neg hk, Nat.add_zero, hsame]

/-- What an account receives from a list of payments. -/
def receivedBy (id : ObjectId) (payments : List (ObjectId × FlakeAmount)) : ℕ :=
  ((payments.filter fun payment => payment.1 = id).map fun payment => payment.2.toNat).sum

/-- Payments made one after the other arrive in full, and nowhere else. -/
theorem balanceOf_foldlM_creditOrCreateAccount {payments : List (ObjectId × FlakeAmount)}
    {accounts accounts' : AccountStore}
    (h : payments.foldlM (fun accounts payment =>
      creditOrCreateAccount accounts payment.1 payment.2) accounts = .ok accounts')
    (k : ObjectId) :
    (accounts'.balanceOf k).toNat = (accounts.balanceOf k).toNat + receivedBy k payments := by
  induction payments generalizing accounts with
  | nil =>
    cases h
    rfl
  | cons payment payments ih =>
    rw [List.foldlM_cons] at h
    obtain ⟨accounts1, hone, h⟩ := bind_eq_ok.mp h
    rw [ih h, balanceOf_creditOrCreateAccount hone]
    unfold receivedBy
    by_cases hk : payment.1 = k
    · simp [hk, Nat.add_assoc]
    · simp [hk]

/-- While the balances leave room, every account can be credited. -/
theorem exists_creditOrCreateAccount (accounts : AccountStore) (id : ObjectId)
    (amount : FlakeAmount) (hroom : accounts.balances + amount.toNat < 2 ^ 64) :
    ∃ accounts', creditOrCreateAccount accounts id amount = .ok accounts' := by
  unfold creditOrCreateAccount
  split
  · exact ⟨accounts, rfl⟩
  · have hget : (accounts.withAccount id).get? id =
        some ((accounts.get? id).getD (Account.new id)) := by
      rw [AccountStore.get?_withAccount, if_pos rfl]
    have hle := AccountStore.balance_le_balances hget
    rw [AccountStore.balances_withAccount] at hle
    obtain ⟨accounts', h⟩ := AccountStore.exists_credit hget
      (lt_of_le_of_lt (Nat.add_le_add_right hle _) hroom)
    exact ⟨accounts', by rw [h]; rfl⟩

/-- While the balances leave room, every account can receive. -/
theorem canCredit_eq_ok {accounts : AccountStore} {amount : FlakeAmount}
    (hroom : accounts.balances + amount.toNat < 2 ^ 64) (id : ObjectId) :
    accounts.canCredit id amount = .ok () := by
  unfold AccountStore.canCredit
  rw [AccountStore.getAccount_eq]
  cases h : accounts.get? id with
  | none => rfl
  | some a =>
    have hle := AccountStore.balance_le_balances h
    dsimp only
    rw [MachineInt.checkedAdd_of_lt (by omega)]

end Opolys
