import Opolys.Consensus.Account
import Opolys.Consensus.Emission
import Mathlib.Data.List.Sort

/-!
# Refiners

A refiner locks stake in bond entries, oldest first. Its status moves from `bonding` over
`waiting` to `active`, back to `waiting` when it is outranked, to `unbonding` when its
last entry is withdrawn, and to `slashed` for good when it signs two blocks of a height.
Withdrawn stake waits in a queue for one epoch and can still be burned there.

The set keeps its records by id, the ids of the active ones in a list, and the queue.
Sums of stakes are sums of words, as the node computes them.
-/

namespace Opolys

open Codec (Borsh)
open MachineInt (checkedAdd saturatingAdd saturatingMul128 saturatingAdd128)
open Effect (check)

/-! ## Records -/

/-- The lifecycle of a refiner. -/
inductive RefinerStatus where
  | none
  | bonding
  | waiting
  | active
  | unbonding
  | slashed
deriving DecidableEq

/-- The number of a status in the encoding. -/
def RefinerStatus.variant : RefinerStatus → UInt8
  | .none => 0
  | .bonding => 1
  | .waiting => 2
  | .active => 3
  | .unbonding => 4
  | .slashed => 5

instance : Borsh RefinerStatus :=
  Borsh.ofFields RefinerStatus.variant (by intro a b; cases a <;> cases b <;> decide)

/-- Stake on its way back to its owner. -/
@[ext] structure PendingUnbond where
  account : ObjectId
  amount : FlakeAmount
  maturesAt : BlockHeight
deriving DecidableEq

instance : Borsh PendingUnbond :=
  Borsh.ofFields (fun u => (u.account, u.amount, u.maturesAt)) (by rintro ⟨⟩ ⟨⟩ h; simpa using h)

/-- One bond of a refiner. -/
@[ext] structure BondEntry where
  stake : FlakeAmount
  bondedAtHeight : UInt64
  bondedAtTimestamp : UInt64
deriving DecidableEq

instance : Borsh BondEntry :=
  Borsh.ofFields (fun e => (e.stake, e.bondedAtHeight, e.bondedAtTimestamp))
    (by rintro ⟨⟩ ⟨⟩ h; simpa using h)

namespace BondEntry

/-- The age in thousandths of a year. -/
def ageYearsMilli (e : BondEntry) (currentTimestamp : UInt64) : UInt64 :=
  if currentTimestamp ≤ e.bondedAtTimestamp then 0
  else
    let ageSecs := currentTimestamp - e.bondedAtTimestamp
    UInt64.ofNat (ageSecs.toNat * 1000 / 31557600)

def weight (e : BondEntry) (currentTimestamp : UInt64) : FlakeAmount :=
  Emission.computeRefinerWeight e.stake (e.ageYearsMilli currentTimestamp)

end BondEntry

/-- A bonded refiner. -/
@[ext] structure RefinerInfo where
  objectId : ObjectId
  /-- The bonds, oldest first. -/
  entries : List BondEntry
  status : RefinerStatus
  lastSignedHeight : UInt64
  consecutiveCorrectAttestations : UInt64
deriving DecidableEq

instance : Borsh RefinerInfo :=
  Borsh.ofFields
    (fun r => (r.objectId, r.entries, r.status, r.lastSignedHeight,
      r.consecutiveCorrectAttestations))
    (by rintro ⟨⟩ ⟨⟩ h; simpa using h)

namespace RefinerInfo

/-- A refiner with its first bond. -/
def new (objectId : ObjectId) (stake : FlakeAmount) (height timestamp : UInt64) : RefinerInfo where
  objectId
  entries := [{ stake, bondedAtHeight := height, bondedAtTimestamp := timestamp }]
  status := .bonding
  lastSignedHeight := 0
  consecutiveCorrectAttestations := 0

def totalStake (r : RefinerInfo) : FlakeAmount := (r.entries.map BondEntry.stake).sum

def weight (r : RefinerInfo) (currentTimestamp : UInt64) : FlakeAmount :=
  (r.entries.map fun e => e.weight currentTimestamp).sum

/-- Add to the stake of the first entry with the timestamp. -/
def mergeStake (stake : FlakeAmount) (timestamp : UInt64) :
    List BondEntry → Except String (List BondEntry)
  | [] => .ok []
  | e :: es =>
    if e.bondedAtTimestamp = timestamp then
      match checkedAdd e.stake stake with
      | some sum => .ok ({ e with stake := sum } :: es)
      | none => .error s!"Bond entry stake overflow: existing {e.stake} + new {stake}"
    else
      match mergeStake stake timestamp es with
      | .ok es => .ok (e :: es)
      | .error message => .error message

/-- Insert before the first entry that is younger. -/
def insertEntry (entry : BondEntry) : List BondEntry → List BondEntry
  | [] => [entry]
  | e :: es =>
    if e.bondedAtTimestamp > entry.bondedAtTimestamp then entry :: e :: es
    else e :: insertEntry entry es

/-- Top up: merge with the entry of the same timestamp, or insert a new entry. -/
def addEntry (r : RefinerInfo) (stake : FlakeAmount) (height timestamp : UInt64) :
    Except String RefinerInfo :=
  if r.entries.any fun e => e.bondedAtTimestamp = timestamp then
    match mergeStake stake timestamp r.entries with
    | .ok entries => .ok { r with entries }
    | .error message => .error message
  else
    let entry := { stake, bondedAtHeight := height, bondedAtTimestamp := timestamp }
    .ok { r with entries := insertEntry entry r.entries }

/-- Consume entries from the front until nothing remains to be withdrawn, where running
past the last entry is an index out of bounds. -/
def consumeEntries : List BondEntry → FlakeAmount → Option (List BondEntry)
  | [], remaining => if remaining = 0 then some [] else none
  | e :: es, remaining =>
    if remaining = 0 then some (e :: es)
    else if e.stake ≤ remaining then consumeEntries es (remaining - e.stake)
    else some ({ e with stake := e.stake - remaining } :: es)

/-- Withdraw `amount`, oldest entries first, and report what was withdrawn. -/
def unbondFifo (r : RefinerInfo) (amount : FlakeAmount) : Option (RefinerInfo × FlakeAmount) :=
  if r.entries.isEmpty then some (r, 0)
  else
    match consumeEntries r.entries amount with
    | some entries => some ({ r with entries }, amount)
    | none => none

end RefinerInfo

/-! ## Choosing by stake -/

/-- A step of the generator behind the rejection sampling. -/
def mixSeed (seed : UInt64) : UInt64 :=
  let z := seed + 0x9E3779B97F4A7C15
  let z := (z ^^^ (z >>> 30)) * 0xBF58476D1CE4E5B9
  let z := (z ^^^ (z >>> 27)) * 0x94D049BB133111EB
  z ^^^ (z >>> 31)

/-- Draw candidates until one falls in the unbiased zone. After `2 ^ 64` rounds they
repeat, so a search that has not ended by then never does. -/
def drawTicket (upper unbiasedZone : ℕ) : ℕ → UInt64 → Option FlakeAmount
  | 0, _ => none
  | fuel + 1, candidate =>
    if candidate.toNat < unbiasedZone then some (UInt64.ofNat (candidate.toNat % upper))
    else drawTicket upper unbiasedZone fuel (mixSeed candidate)

/-- A number below `upper`, without the bias of a plain remainder. -/
def uniformAmountFromSeed (seed : UInt64) (upper : FlakeAmount) : Option FlakeAmount :=
  if upper = 0 then none
  else
    let range := 2 ^ 64
    let unbiasedZone := range - range % upper.toNat
    drawTicket upper.toNat unbiasedZone (2 ^ 64) seed

/-! ## The set -/

/-- All refiners and the stake being withdrawn. -/
structure RefinerSet where
  cachedRefiners : Registry RefinerInfo.objectId
  /-- The ids of the active refiners. -/
  activeSet : List ObjectId
  /-- Withdrawals that have not matured. -/
  unbondingQueue : List PendingUnbond

namespace RefinerSet

def new : RefinerSet := { cachedRefiners := Registry.empty, activeSet := [], unbondingQueue := [] }

def getRefiner (set : RefinerSet) (objectId : ObjectId) : Option RefinerInfo :=
  set.cachedRefiners.get? objectId

/-- The square root of a 128-bit number, rounded down, by the search of the block rewards. -/
def integerSqrtFloor (n : ℕ) : ℕ := Emission.integerSqrtFloor n

/-- The least stake of a new bond, `max(1, sqrt(issued OPL))` OPL. -/
def minimumBondStake (totalIssuedFlakes : FlakeAmount) : FlakeAmount :=
  let totalIssuedOpl := totalIssuedFlakes / flakesPerOpl
  let minOpl := max (integerSqrtFloor totalIssuedOpl.toNat) 1
  UInt64.ofNatClamp (saturatingMul128 minOpl flakesPerOpl.toNat)

/-- How many refiners may be active, `epoch + sqrt(issued OPL)`. -/
def activeRefinerLimit (totalIssuedFlakes : FlakeAmount) : ℕ :=
  let totalIssuedOpl := totalIssuedFlakes / flakesPerOpl
  let sqrtIssued := integerSqrtFloor totalIssuedOpl.toNat
  min (saturatingAdd128 epoch.toNat sqrtIssued) (2 ^ 64 - 1)

theorem activeRefinerLimit_pos (totalIssuedFlakes : FlakeAmount) :
    0 < activeRefinerLimit totalIssuedFlakes := by
  have hepoch : epoch.toNat = 960 := rfl
  unfold activeRefinerLimit MachineInt.saturatingAdd128 MachineInt.max128
  dsimp only
  omega

/-- Lock stake for a new or an existing refiner. -/
def bond (set : RefinerSet) (objectId : ObjectId) (stake : FlakeAmount)
    (height timestamp : UInt64) (totalIssuedFlakes : FlakeAmount) : Except String RefinerSet := do
  let minimumBond := minimumBondStake totalIssuedFlakes
  check (minimumBond ≤ stake)
    s!"Insufficient stake per entry: need {minimumBond}, have {stake}"
  match set.getRefiner objectId with
  | some refiner =>
    check (refiner.status ≠ .slashed) "Slashed refiners cannot re-bond"
    let refiner ← refiner.addEntry stake height timestamp
    let status := if refiner.status = .unbonding then .bonding else refiner.status
    .ok { set with cachedRefiners := set.cachedRefiners.put { refiner with status } }
  | none =>
    .ok { set with cachedRefiners :=
            set.cachedRefiners.put (RefinerInfo.new objectId stake height timestamp) }

/-- Withdraw stake into the queue. -/
def unbondAmount (set : RefinerSet) (objectId : ObjectId) (amount : FlakeAmount)
    (currentHeight : BlockHeight) : Except String (RefinerSet × FlakeAmount) :=
  match set.getRefiner objectId with
  | none => .error "Refiner not bonded"
  | some refiner => do
    let totalStake := refiner.totalStake
    check (totalStake ≠ 0) "Refiner has no stake"
    check (amount ≠ 0) "Unbond amount must be greater than zero"
    check (amount ≤ totalStake)
      s!"Cannot unbond more than total stake: requested {amount}, available {totalStake}"
    match refiner.unbondFifo amount with
    | none => .error "index out of bounds"
    | some (refiner, unbonded) =>
      let unbondingQueue := set.unbondingQueue ++
        [{ account := objectId, amount := unbonded,
           maturesAt := saturatingAdd currentHeight epoch }]
      if refiner.entries.isEmpty then
        .ok ({ cachedRefiners := set.cachedRefiners.put { refiner with status := .unbonding }
               activeSet := set.activeSet.filter fun id => id ≠ objectId
               unbondingQueue }, unbonded)
      else
        .ok ({ set with cachedRefiners := set.cachedRefiners.put refiner, unbondingQueue },
          unbonded)

/-- The withdrawals that have matured. -/
def maturedUnbonds (set : RefinerSet) (currentHeight : BlockHeight) :
    List (ObjectId × FlakeAmount) :=
  (set.unbondingQueue.filter fun entry => entry.maturesAt ≤ currentHeight).map
    fun entry => (entry.account, entry.amount)

/-- Remove a refiner that has withdrawn everything and waits for nothing. -/
def removeIfGone (set : RefinerSet) (account : ObjectId) : RefinerSet :=
  let stillPending := set.unbondingQueue.any fun entry => entry.account = account
  match set.getRefiner account with
  | none => set
  | some refiner =>
    if refiner.status = .unbonding ∧ refiner.totalStake = 0 ∧ stillPending = false then
      { set with
        cachedRefiners := set.cachedRefiners.erase account
        activeSet := set.activeSet.filter fun id => id ≠ account }
    else set

/-- Take the matured withdrawals out of the queue. -/
def processMaturedUnbonds (set : RefinerSet) (currentHeight : BlockHeight) :
    RefinerSet × List (ObjectId × FlakeAmount) :=
  let matured := set.maturedUnbonds currentHeight
  let remaining := set.unbondingQueue.filter fun entry => ¬entry.maturesAt ≤ currentHeight
  let set := { set with unbondingQueue := remaining }
  (matured.foldl (fun set entry => set.removeIfGone entry.1) set, matured)

/-- A bonding refiner whose first entry is one epoch old. -/
def isMatured (currentHeight : BlockHeight) (r : RefinerInfo) : Bool :=
  r.status = .bonding &&
    match r.entries with
    | [] => false
    | e :: _ => saturatingAdd e.bondedAtHeight epoch ≤ currentHeight

/-- The record of a refiner whose first epoch is over. -/
def startWaiting (currentHeight : BlockHeight) (r : RefinerInfo) : RefinerInfo :=
  { r with status := .waiting, lastSignedHeight := currentHeight }

/-- Move every matured refiner from `bonding` to `waiting`. -/
def activateMaturedRefiners (set : RefinerSet) (currentHeight : BlockHeight) : RefinerSet :=
  let eligible := (set.cachedRefiners.values.filter (isMatured currentHeight)).map
    RefinerInfo.objectId
  eligible.foldl (fun set id =>
    { set with cachedRefiners :=
        set.cachedRefiners.update id (startWaiting currentHeight) }) set

/-- Whether the first of two candidates ranks before the second: more stake, then the
smaller id. -/
def ranksBefore (a b : ObjectId × UInt64) : Bool :=
  (compare b.2 a.2).then (compare a.1 b.1) ≠ .gt

/-- Promote or demote the candidate at a rank. -/
def rankRefiner (activeLimit : ℕ) (set : RefinerSet) (candidate : (ObjectId × UInt64) × ℕ) :
    RefinerSet :=
  let id := candidate.1.1
  match set.getRefiner id with
  | none => set
  | some r =>
    if candidate.2 < activeLimit then
      if r.status = .waiting then
        { set with
          cachedRefiners := set.cachedRefiners.put { r with status := .active }
          activeSet := set.activeSet ++ [id] }
      else set
    else if r.status = .active then
      { set with
        cachedRefiners := set.cachedRefiners.put { r with status := .waiting }
        activeSet := set.activeSet.filter fun a => a ≠ id }
    else set

/-- Rank all refiners with stake and adjust the active set. -/
def rerankRefiners (set : RefinerSet) (totalIssuedFlakes : FlakeAmount) : RefinerSet :=
  let activeLimit := activeRefinerLimit totalIssuedFlakes
  let eligible := (set.cachedRefiners.values.filter fun r =>
    r.status ≠ .slashed ∧ r.totalStake > 0).map fun r => (r.objectId, r.totalStake)
  let ranked := eligible.insertionSort fun a b => ranksBefore a b
  ranked.zipIdx.foldl (rankRefiner activeLimit) set

def totalActiveRefiners (set : RefinerSet) : ℕ := set.activeSet.length

/-- Burn everything a refiner has in custody and mark it slashed. The queue is cleared of
its withdrawals before the refiner is looked up. -/
def slashRefiner (objectId : ObjectId) : EStateM String RefinerSet FlakeAmount := do
  let pendingBurn := ((← get).unbondingQueue.filter fun entry => entry.account = objectId).foldl
    (fun burn entry => saturatingAdd burn entry.amount) 0
  modify fun set => { set with
    unbondingQueue := set.unbondingQueue.filter fun entry => entry.account ≠ objectId }
  match (← get).getRefiner objectId with
  | none => if pendingBurn > 0 then return pendingBurn else throw "Refiner not found"
  | some refiner =>
    if refiner.status = .slashed then return pendingBurn
    else
      let burn := saturatingAdd refiner.totalStake pendingBurn
      modify fun set => { set with
        cachedRefiners := set.cachedRefiners.put { refiner with
          status := .slashed
          entries := refiner.entries.map fun e => { e with stake := 0 } }
        activeSet := set.activeSet.filter fun id => id ≠ objectId }
      return burn

/-- Count a verified attestation of an active refiner. -/
def recordCorrectAttestation (set : RefinerSet) (objectId : ObjectId) :
    Except String RefinerSet :=
  match set.getRefiner objectId with
  | none => .error "Attestation refiner not found"
  | some refiner => do
    check (refiner.status = .active) "Attestation refiner is not active"
    .ok { set with cachedRefiners := set.cachedRefiners.put { refiner with
      consecutiveCorrectAttestations :=
        saturatingAdd refiner.consecutiveCorrectAttestations 1 } }

/-- The active refiners in the order of the active set. -/
def activeRefiners (set : RefinerSet) : List RefinerInfo :=
  set.activeSet.filterMap set.getRefiner

/-- The stake of all bonding, waiting and active refiners. -/
def totalBondedStake (set : RefinerSet) : FlakeAmount :=
  let activeStake := (set.activeRefiners.map RefinerInfo.totalStake).sum
  let otherStake := ((set.cachedRefiners.values.filter fun r =>
    r.status = .bonding ∨ r.status = .waiting).map RefinerInfo.totalStake).sum
  saturatingAdd activeStake otherStake

/-- All refiners in the order of their ids. -/
def allRefiners (set : RefinerSet) : List RefinerInfo := set.cachedRefiners.values

/-- Rebuild a set from its records and its queue. -/
def loadFromRefiners (refiners : List RefinerInfo) (unbondingQueue : List PendingUnbond) :
    RefinerSet :=
  refiners.foldl (fun set r =>
    { set with
      activeSet := if r.status = .active then set.activeSet ++ [r.objectId] else set.activeSet
      cachedRefiners := set.cachedRefiners.put r })
    { cachedRefiners := Registry.empty, activeSet := [], unbondingQueue }

/-- The hash of all refiners in the order of their ids, and of the queue. -/
def computeStateRoot (P : Primitives) (set : RefinerSet) : Except OpolysError Hash := do
  let refiners ← set.cachedRefiners.values.mapM fun r => borshToVec "Refiner" r
  let queue ← set.unbondingQueue.mapM fun entry => borshToVec "Unbonding entry" entry
  return P.blake3 (domainStateRoot ++ tag "refiners" ++ refiners.flatten ++ queue.flatten)

/-- The first refiner whose cumulated stake exceeds the ticket. -/
def pickByTicket (ticket : FlakeAmount) : List RefinerInfo → FlakeAmount → Option RefinerInfo
  | [], _ => none
  | r :: rs, cumulative =>
    let cumulative := saturatingAdd cumulative r.totalStake
    if ticket < cumulative then some r else pickByTicket ticket rs cumulative

/-- The producer of the next refined block, drawn by stake among the active refiners. -/
def selectBlockProducer (set : RefinerSet) (seed : UInt64) : Option RefinerInfo :=
  let active := (set.activeRefiners.filter fun r => r.totalStake > 0).insertionSort
    fun a b => (compare a.objectId b.objectId).isLE
  let totalActiveStake := active.foldl (fun acc r => saturatingAdd acc r.totalStake) 0
  match uniformAmountFromSeed seed totalActiveStake with
  | none => none
  | some ticket => pickByTicket ticket active 0

end RefinerSet

end Opolys
