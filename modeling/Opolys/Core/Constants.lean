import Mathlib.Tactic.Common

/-!
# Constants of the protocol

The consensus constants of the Opolys chain, with the values the node is compiled with.
Amounts are in Flakes, the smallest unit of the currency.
-/

namespace Opolys

/-- An amount in Flakes. -/
abbrev FlakeAmount := UInt64

/-- The sequence number of a block, 0 for genesis. -/
abbrev BlockHeight := UInt64

def currencyName : String := "Opolys"

def currencyTicker : String := "OPL"

def currencySmallestUnit : String := "Flake"

def flakesPerOpl : UInt64 := 1000000

def decimalPlaces : UInt32 := 6

/-- 332 OPL, the mined reward before difficulty and vein yield. -/
def baseReward : FlakeAmount := 332 * flakesPerOpl

def minDifficulty : UInt64 := 1

def genesisDifficulty : UInt64 := 7

/-- Blocks between two retargets, also the unbonding delay. -/
def epoch : UInt64 := 960

def minFee : FlakeAmount := 1

def blockTargetTimeMs : UInt64 := 90000

def blockTargetTimeSecs : UInt64 := 90

def minBondStake : FlakeAmount := flakesPerOpl

def blockVersion : UInt32 := 4

def signatureTypeEd25519 : UInt8 := 0

def networkProtocolVersion : String := "1.0.0"

def mempoolMaxSizeBytes : ℕ := 100000000

def mempoolMaxTxsPerAccount : ℕ := 50

def mempoolTxExpirySecs : UInt64 := 86400

def txMaxSizeBytes : ℕ := 100000

def maxTransactionsPerBlock : ℕ := 10000

def maxAttestationsPerBlock : ℕ := 1024

/-- Attested weight that finalizes a height, in thousandths of the active weight. -/
def finalityConfidenceMilli : UInt64 := 667

def maxBlockSizeBytes : ℕ := 10485760

/-- How many full blocks the mempool can hold, rounded up. -/
def capacityRatio : UInt64 :=
  UInt64.ofNat ((mempoolMaxSizeBytes + maxBlockSizeBytes - 1) / maxBlockSizeBytes)

def maxTxDataSizeBytes : ℕ := 1024

def maxFutureBlockTimeSecs : UInt64 := 300

def mainnetChainId : UInt64 := 1

def maxSlashEvidencePerBlock : ℕ := 10

/-- Timestamps kept for the retarget: one epoch and the block before it. -/
def blockTimestampWindowLen : ℕ := epoch.toNat + 1

@[simp] theorem toNat_epoch : epoch.toNat = 960 := rfl

@[simp] theorem toNat_minDifficulty : minDifficulty.toNat = 1 := rfl

@[simp] theorem toNat_minFee : minFee.toNat = 1 := rfl

@[simp] theorem blockTimestampWindowLen_eq : blockTimestampWindowLen = 961 := rfl

end Opolys
