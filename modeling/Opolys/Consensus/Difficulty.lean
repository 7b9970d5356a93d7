import Opolys.Consensus.Emission

/-!
# Difficulty

The difficulty of the next block is the greatest of three numbers: the retarget, which
compares the time of the last epoch with the time it should have taken, the consensus
floor, which is the issued supply over the bonded stake, and 1.
-/

namespace Opolys

open MachineInt (saturatingAdd saturatingSub saturatingMul)

/-- The difficulty computed for a block and its parts. -/
structure DifficultyTarget where
  /-- The word a hash prefix is compared with. -/
  target : UInt64
  retarget : UInt64
  consensusFloor : UInt64
deriving DecidableEq

/-- The difficulty a block must carry. -/
def DifficultyTarget.effectiveDifficulty (t : DifficultyTarget) : UInt64 :=
  max (max t.retarget t.consensusFloor) minDifficulty

/-- Issued supply over bonded stake, 0 without stake. -/
def computeConsensusFloor (totalIssued bondedStake : UInt64) : UInt64 :=
  if bondedStake = 0 then 0 else totalIssued / bondedStake

/-- The retarget at `currentHeight`, from the timestamps of the last blocks. -/
def computeRetarget (currentDifficulty : UInt64) (currentHeight : BlockHeight)
    (blockTimestamps : List UInt64) : UInt64 :=
  if currentHeight < epoch then max currentDifficulty minDifficulty
  else
    let timestampWindowStartHeight :=
      saturatingSub (saturatingAdd currentHeight 1) (UInt64.ofNat blockTimestamps.length)
    let epochStartHeight := saturatingSub currentHeight epoch
    if epochStartHeight < timestampWindowStartHeight then max currentDifficulty minDifficulty
    else
      let startIdx := (epochStartHeight - timestampWindowStartHeight).toNat
      let endIdx := blockTimestamps.length - 1
      if endIdx ≤ startIdx then max currentDifficulty minDifficulty
      else
        let actualTime :=
          saturatingSub (blockTimestamps.getD endIdx 0) (blockTimestamps.getD startIdx 0)
        let expectedTimeMs := epoch * blockTargetTimeMs
        let actualTimeMs := saturatingMul actualTime 1000
        if actualTimeMs = 0 then saturatingMul currentDifficulty 4
        else
          -- rounded to the nearest, then cut to a word
          let numerator := currentDifficulty.toNat * expectedTimeMs.toNat
          let denominator := actualTimeMs.toNat
          max (UInt64.ofNat ((numerator + denominator / 2) / denominator)) minDifficulty

/-- The difficulty of the block after `currentHeight`. -/
def computeNextDifficulty (currentDifficulty : UInt64) (currentHeight : BlockHeight)
    (blockTimestamps : List UInt64) (totalIssued bondedStake : UInt64) : DifficultyTarget :=
  let retarget := computeRetarget currentDifficulty currentHeight blockTimestamps
  let consensusFloor := computeConsensusFloor totalIssued bondedStake
  let effective := max (max retarget consensusFloor) minDifficulty
  { target := Emission.difficultyToTarget effective, retarget, consensusFloor }

/-- Whether a 64-bit hash value meets a difficulty. -/
def checkProofOfWork (hashValue difficulty : UInt64) : Bool :=
  let target := Emission.difficultyToTarget difficulty
  if target = 0 then false else hashValue ≤ target

end Opolys
