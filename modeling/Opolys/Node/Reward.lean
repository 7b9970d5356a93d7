import Opolys.Consensus.Account
import Opolys.Library.IntegerSqrt

/-!
# Rewards, fees and credits

How a mined block's gross reward splits into the mine assay and the miner's share, how the
fees of a refined block split into a burn and the producer's income, and the credits by
which amounts reach accounts. Credits to several accounts are planned first, so that none
is made unless all can be.
-/

namespace Opolys

open Std (ExtTreeMap)
open MachineInt (checkedAdd saturatingSub saturatingMul128 saturatingAdd128)

/-! ## Splits -/

/-- The parts of a block reward. -/
structure RewardDistribution where
  grossReward : FlakeAmount
  mineAssay : FlakeAmount
  netReward : FlakeAmount
  minerShare : FlakeAmount
deriving DecidableEq

/-- The square root of a 128-bit number, rounded to the nearest. -/
def integerSqrtRound (n : ℕ) : ℕ :=
  if n < 2 then n
  else
    let floor := IntegerSqrt.newton n
    let next := saturatingAdd128 floor 1
    if saturatingMul128 next next - n < n - saturatingMul128 floor floor then next else floor

/-- The part of a gross reward that is burned, `gross * sqrt(difficulty) / epoch`. -/
def computeMineAssay (grossReward : FlakeAmount) (effectiveDifficulty : UInt64) : FlakeAmount :=
  if grossReward = 0 then 0
  else
    let difficulty := max effectiveDifficulty minDifficulty
    let difficultyPressure := max (integerSqrtRound difficulty.toNat) 1
    UInt64.ofNatClamp (saturatingMul128 grossReward.toNat difficultyPressure / epoch.toNat)

/-- The burned and the paid part of the fees of a refined block. -/
def computePorFeeSplit (ordinaryFees : FlakeAmount) (activeRefiners activeRefinerLimit : ℕ) :
    FlakeAmount × FlakeAmount :=
  if ordinaryFees = 0 ∨ activeRefiners = 0 then (0, ordinaryFees)
  else
    let denominator := activeRefinerLimit + activeRefiners
    if denominator = 0 then (0, ordinaryFees)
    else
      let burned := UInt64.ofNat
        (min (saturatingMul128 ordinaryFees.toNat activeRefiners / denominator)
          ordinaryFees.toNat)
      (burned, saturatingSub ordinaryFees burned)

/-- The parts of a gross reward. Base reward and stake coverage no longer matter. -/
def computeRewardDistribution (grossReward _baseRewardAmount : FlakeAmount)
    (effectiveDifficulty _coverageMilli : UInt64) : RewardDistribution :=
  if grossReward = 0 then { grossReward := 0, mineAssay := 0, netReward := 0, minerShare := 0 }
  else
    let mineAssay := computeMineAssay grossReward effectiveDifficulty
    let netReward := saturatingSub grossReward mineAssay
    { grossReward, mineAssay, netReward, minerShare := netReward }

/-! ## Credits -/

/-- Credits that are about to be made. -/
abbrev PlannedCredits := ExtTreeMap ObjectId FlakeAmount

/-- Plan one more credit. -/
def addPlannedCredit (planned : PlannedCredits) (account : ObjectId) (amount : FlakeAmount) :
    Except String PlannedCredits :=
  if amount = 0 then .ok planned
  else
    match checkedAdd (planned.getD account 0) amount with
    | some sum => .ok (planned.insert account sum)
    | none => .error
        s!"Planned credit overflow for account {account.toHex} while adding {amount} flakes"

/-- Whether every planned credit can be made. The source visits them in no fixed order,
which only shows in which of several errors is reported. -/
def ensurePlannedCreditsCreditable (accounts : AccountStore) (planned : PlannedCredits) :
    Except String Unit :=
  planned.toList.forM fun entry =>
    (accounts.canCredit entry.1 entry.2).mapError fun e =>
      s!"Account {entry.1.toHex} cannot receive {entry.2} flakes: {e.toString}"

/-- Credit an account, created where there is none. -/
def creditOrCreateAccount (accounts : AccountStore) (account : ObjectId) (amount : FlakeAmount) :
    Except String AccountStore :=
  if amount = 0 then .ok accounts
  else
    ((accounts.withAccount account).credit account amount).mapError fun e =>
      s!"Failed to credit account {account.toHex}: {e.toString}"

end Opolys
