import Opolys.Consensus.Difficulty
import Opolys.Node.Evidence
import Opolys.Node.Reward

/-!
# Applying a block

`applyBlock` is the transition of a node. It changes chain state, accounts, refiners and
mempool in place and can return early with an error at many points, where everything
written before stays written. It has three parts.

* `openBlock` : validation, attestations and finality, the checks of the producer, the
  evidence in the body, and the reward.
* `executeTransactions` : the transactions, one after the other.
* `closeBlock` : fees, burns and the chain state, matured withdrawals, the ranking of the
  refiners, the new state root, and what is stored.
-/

namespace Opolys

open Std (ExtTreeMap ExtTreeSet)
open Codec (FixedBytes ofBeBytes)
open MachineInt (checkedAdd saturatingAdd)
open Effect (check ensure require ofExcept)

/-- What a call reads from outside the node. -/
structure Env where
  /-- The wall clock in Unix seconds. -/
  nowSecs : UInt64
  /-- Whether the database accepts the write. -/
  writeOk : Bool
deriving DecidableEq

/-- A procedure of the node, which keeps what it has written when it fails. -/
abbrev NodeM := EStateM String OpolysNode

variable (P : Primitives)

/-! ## Validation -/

/-- The difficulty the next block must carry. -/
def OpolysNode.expectedDifficulty (node : OpolysNode) : UInt64 :=
  (computeNextDifficulty node.chain.currentDifficulty node.chain.currentHeight
    node.chain.blockTimestamps node.chain.totalIssued
    node.refiners.totalBondedStake).effectiveDifficulty

/-- Validate a block against the tip. The state root of a header is the one before the
block, so it is compared with the node's own. -/
def checkBlock (env : Env) (block : Block) (node : OpolysNode) :
    Except String BlockProductionKind := do
  let parentTimestamp := node.chain.blockTimestamps.getLast?.getD 0
  let expectedHeight := node.chain.currentHeight + 1
  (validateBlock P block expectedHeight node.chain.latestBlockHash parentTimestamp
    node.expectedDifficulty env.nowSecs).mapError fun e =>
      s!"Block validation failed: {e.toString}"
  match block.header.productionKind with
  | none => .error "Block has invalid Proof-of-Refinement production fields"
  | some kind => do
    check (block.header.stateRoot = node.chain.stateRoot)
      (s!"State root mismatch at height {block.header.height}: " ++
        s!"expected {node.chain.stateRoot.toHex}, got {block.header.stateRoot.toHex}")
    .ok kind

/-! ## Attestations -/

/-- What the attestations of a block have touched so far. -/
structure AttestationLog where
  /-- Height and refiner of every attestation. -/
  processed : List (UInt64 × ObjectId)
  /-- Height and hash of every attested block. -/
  touched : ExtTreeSet (UInt64 × Hash)

/-- Add a refiner to the attesters of a block. -/
def recordAttester (key : UInt64 × Hash) (refiner : ObjectId) (node : OpolysNode) : OpolysNode :=
  let attesters := (node.chain.attestationFinalityRefiners.getD key ∅).insert refiner
  { node with chain := { node.chain with
      attestationFinalityRefiners := node.chain.attestationFinalityRefiners.insert key attesters } }

/-- Verify one attestation and count it. -/
def processAttestation (header : BlockHeader) (log : AttestationLog)
    (attestation : BlockAttestation) : NodeM AttestationLog := do
  ensure (attestation.height < header.height)
    s!"Attestation height {attestation.height} must be below block height {header.height}"
  let dedupKey := (attestation.height, attestation.refiner)
  ensure (dedupKey ∉ log.processed)
    s!"Duplicate attestation from {attestation.refiner.toHex} at height {attestation.height}"
  let store ← require (← get).store "Cannot verify included attestation without storage"
  let attestedBlock ← require (store.loadBlock attestation.height)
    "Attested block is not known locally"
  ensure (attestedBlock.header.isRefined = true)
    "Attestation target must be a refiner-produced block"
  let canonicalHash := computeBlockHash P attestedBlock.header
  ofExcept id (verifyBlockAttestationAgainstRefiners P attestation canonicalHash (← get).refiners)
  let finalityKey := (attestation.height, canonicalHash)
  modify (recordAttester finalityKey attestation.refiner)
  let refiners ← ofExcept id ((← get).refiners.recordCorrectAttestation attestation.refiner)
  modify fun node => { node with refiners }
  return { processed := dedupKey :: log.processed, touched := log.touched.insert finalityKey }

/-- Raise the finalized height by the weights of the touched blocks, then prune. -/
def advanceFinality (finalityThreshold : ℕ) (timestamp : UInt64)
    (touched : ExtTreeSet (UInt64 × Hash)) (node : OpolysNode) : OpolysNode :=
  let finalityWeights := touched.toList.foldl (fun (weights : ExtTreeMap UInt64 ℕ) key =>
    match node.chain.attestationFinalityRefiners[key]? with
    | none => weights
    | some attesters => weights.insert key.1
        (indexedAttestationWeightForRefiners attesters node.refiners timestamp)) ∅
  let newlyFinalizedHeight := finalizedHeightFromAttestationWeights node.chain.finalizedHeight
    finalityWeights finalityThreshold
  let finalizedHeight := max node.chain.finalizedHeight newlyFinalizedHeight
  { node with chain := pruneAttestationFinalityIndex { node.chain with finalizedHeight } }

/-- Process all attestations of a block. -/
def processAttestations (block : Block) : NodeM Unit := do
  let timestamp := block.header.timestamp
  let finalityThreshold := activeRefinerWeightMilliThreshold (← get).refiners timestamp
  let log ← block.attestations.foldlM (processAttestation P block.header) ⟨[], ∅⟩
  modify (advanceFinality finalityThreshold timestamp log.touched)

/-! ## The producer -/

/-- Verify the signature of a refined block under the producer's registered key. -/
def verifyRefinerSignature (accounts : AccountStore) (header : BlockHeader) :
    Except String Unit :=
  match header.refinerSignature with
  | none => .ok ()
  | some sigBytes =>
    if header.producer.hash.isZero then .ok ()
    else
      match FixedBytes.ofList? 64 sigBytes with
      | none => .error "Refiner signature must be 64 bytes"
      | some sigArray =>
        match accounts.getAccount header.producer with
        | none => .error "Refiner block producer account not found"
        | some account =>
          match account.publicKey with
          | none => .error "Refiner block producer public key not registered"
          | some pkBytes =>
            match FixedBytes.ofList? 32 pkBytes with
            | none => .error "Refiner block producer public key must be 32 bytes"
            | some pkArray => do
              check (P.verifyingKeyOk pkArray = true)
                "Refiner block producer public key is invalid"
              let signingPayload := refinerBlockSigningPayload (computeBlockHash P header)
              check (P.verifyStrict pkArray signingPayload sigArray = true)
                "Refiner signature verification failed"

/-- A miner must have an account with a registered key. -/
def checkMinedProducer (accounts : AccountStore) (producer : ObjectId) : Except String Unit :=
  match accounts.getAccount producer with
  | none => .error "PoW block producer account not found"
  | some account =>
    match account.publicKey with
    | some pk => check (pk.length = 32) "PoW block producer public key must be 32 bytes"
    | none => .error "PoW block producer public key not registered"

/-- The seed of the producer selection, from the parent hash. -/
def selectionSeed (latestBlockHash : Hash) : UInt64 :=
  UInt64.ofNat (ofBeBytes (latestBlockHash.bytes.take 8))

/-- A refined block must come from the selected refiner. -/
def checkRefinedProducer (latestBlockHash : Hash) (refiners : RefinerSet) (producer : ObjectId) :
    Except String Unit :=
  match refiners.selectBlockProducer (selectionSeed latestBlockHash) with
  | none => .error "Refiner block rejected: no active refiner producer available"
  | some expected =>
    check (expected.objectId = producer)
      s!"Refiner block producer mismatch: expected {expected.objectId.toHex}, got {producer.toHex}"

/-- The checks of a block's producer against accounts and refiners. -/
def checkProducer (kind : BlockProductionKind) (header : BlockHeader) (node : OpolysNode) :
    Except String Unit := do
  verifyRefinerSignature P node.accounts header
  match kind with
  | .genesis => .ok ()
  | .mined => checkMinedProducer node.accounts header.producer
  | .refined =>
    if header.producer.hash.isZero then .ok ()
    else checkRefinedProducer node.chain.latestBlockHash node.refiners header.producer

/-! ## Evidence -/

/-- Slashing so far: the refiners, the burned total, what this block burned, and the
producer and height of the evidence already used. -/
structure Slashing where
  refiners : RefinerSet
  totalBurned : FlakeAmount
  slashedBurned : FlakeAmount
  processed : List (ObjectId × UInt64)

/-- Act on one item of evidence. Evidence that is not genuine, or names a refiner the set
does not know, burns nothing. -/
def slashStep (slashing : Slashing) (evidence : DoubleSignEvidence) : Slashing :=
  let dedupKey := (evidence.producer, evidence.height)
  if dedupKey ∈ slashing.processed then slashing
  else if verifySlashEvidence P evidence then
    let processed := dedupKey :: slashing.processed
    match RefinerSet.slashRefiner evidence.producer slashing.refiners with
    | .ok burned refiners =>
      { refiners
        totalBurned := saturatingAdd slashing.totalBurned burned
        slashedBurned := saturatingAdd slashing.slashedBurned burned
        processed }
    | .error _ refiners => { slashing with refiners, processed }
  else slashing

/-- Act on all evidence of a block and report what was burned. -/
def processSlashEvidence (evidence : List DoubleSignEvidence) : NodeM FlakeAmount := do
  let node ← get
  let slashing := evidence.foldl (slashStep P)
    { refiners := node.refiners, totalBurned := node.chain.totalBurned, slashedBurned := 0,
      processed := [] }
  set { node with
    refiners := slashing.refiners
    chain := { node.chain with totalBurned := slashing.totalBurned } }
  return slashing.slashedBurned

/-- Remember the signature of a refined block, or build evidence when the producer has
signed another block of this height. -/
def detectDoubleSign (header : BlockHeader) : NodeM (List DoubleSignEvidence) := do
  let node ← get
  match header.refinerSignature with
  | none => return []
  | some sigBytes =>
    if header.producer.hash.isZero then return []
    else
      let blockHash := computeBlockHash P header
      let key := (header.height, header.producer)
      match node.chain.producerSignatures[key]? with
      | some (prevHash, prevSig) =>
        if prevHash ≠ blockHash then
          let pubkey := ((node.accounts.getAccount header.producer).bind
            Account.publicKey).getD []
          return [{
            producer := header.producer
            producerPubkey := pubkey
            height := header.height
            hashA := prevHash
            signatureA := prevSig
            hashB := blockHash
            signatureB := sigBytes }]
        else return []
      | none =>
        set { node with chain := { node.chain with
          producerSignatures := node.chain.producerSignatures.insert key (blockHash, sigBytes) } }
        return []

/-! ## The reward -/

/-- Credit a producer through the plan of credits. -/
def creditProducer (producer : ObjectId) (amount : FlakeAmount) (accounts : AccountStore) :
    Except String AccountStore :=
  if producer.hash.isZero = false ∧ amount > 0 then do
    let planned ← addPlannedCredit ∅ producer amount
    ensurePlannedCreditsCreditable accounts planned
    planned.toList.foldlM (fun accounts entry =>
      creditOrCreateAccount accounts entry.1 entry.2) accounts
  else .ok accounts

/-- The vein yield and the distribution of the reward of a block. Only a mined block has
one, and it depends on the hash of its proof. -/
def blockReward (kind : BlockProductionKind) (header : BlockHeader) (chain : ChainState)
    (bondedStake : FlakeAmount) : UInt64 × RewardDistribution :=
  let powHashValue := if kind = .mined then computePowHashValue P header else none
  let veinYieldMilli :=
    match powHashValue with
    | some hashValue => Emission.computeVeinYield header.difficulty hashValue
    | none => 0
  let grossReward :=
    match kind with
    | .genesis => 0
    | .refined => 0
    | .mined =>
      Emission.computeBlockReward chain.baseReward header.difficulty (powHashValue.getD 0)
  let baseRewardAmount :=
    if header.height = 0 then 0 else chain.baseReward / max header.difficulty minDifficulty
  let coverageMilli :=
    if chain.totalIssued > 0 then
      UInt64.ofNat (min (bondedStake.toNat * 1000 / chain.totalIssued.toNat) 1000)
    else 0
  (veinYieldMilli,
    computeRewardDistribution grossReward baseRewardAmount header.difficulty coverageMilli)

/-! ## Opening -/

/-- What is known of a block when its transactions begin. -/
structure Opening where
  kind : BlockProductionKind
  /-- Active refiners and their limit, for a refined block. -/
  porFeeMarket : Option (ℕ × ℕ)
  slashedBurned : FlakeAmount
  newEvidence : List DoubleSignEvidence
  veinYieldMilli : UInt64
  reward : RewardDistribution

/-- From the producer's checks to the transactions: evidence is acted on and the reward
credited. -/
def beginBlock (kind : BlockProductionKind) (bondedStake : FlakeAmount) (block : Block) :
    NodeM Opening := do
  let node ← get
  let porFeeMarket :=
    if kind = .refined then
      some (node.refiners.totalActiveRefiners,
        RefinerSet.activeRefinerLimit node.chain.totalIssued)
    else none
  let slashedBurned ← processSlashEvidence P block.slashEvidence
  let newEvidence ← detectDoubleSign P block.header
  let (veinYieldMilli, reward) := blockReward P kind block.header (← get).chain bondedStake
  let accounts ← ofExcept id
    (creditProducer block.header.producer reward.minerShare (← get).accounts)
  modify fun node => { node with accounts }
  return { kind, porFeeMarket, slashedBurned, newEvidence, veinYieldMilli, reward }

/-- Everything before the transactions. -/
def openBlock (env : Env) (block : Block) : NodeM Opening := do
  let bondedStake := (← get).refiners.totalBondedStake
  let kind ← ofExcept id (checkBlock P env block (← get))
  processAttestations P block
  ofExcept id (checkProducer P kind block.header (← get))
  beginBlock P kind bondedStake block

/-! ## Transactions -/

/-- What the successful transactions of a block add up to. -/
structure TxTally where
  totalTransactionFees : FlakeAmount := 0
  totalAssayBurned : FlakeAmount := 0
  totalFeeSignal : FlakeAmount := 0
  successfulTransactionCount : UInt64 := 0
deriving DecidableEq

/-- Count a successful transaction. -/
def TxTally.record (tally : TxTally) (result : ApplyResult) (fee : FlakeAmount) :
    Except String TxTally :=
  match checkedAdd tally.totalTransactionFees result.feeCharged with
  | none => .error "Total transaction fees overflow"
  | some totalTransactionFees =>
    match checkedAdd tally.totalAssayBurned result.assayBurned with
    | none => .error "Total assay burns overflow"
    | some totalAssayBurned =>
      match checkedAdd tally.totalFeeSignal fee with
      | none => .error "Total transaction fee signal overflow"
      | some totalFeeSignal =>
        match checkedAdd tally.successfulTransactionCount 1 with
        | none => .error "Successful transaction count overflow"
        | some successfulTransactionCount => .ok
            { totalTransactionFees, totalAssayBurned, totalFeeSignal, successfulTransactionCount }

/-- A failed transaction is left out of the tally. -/
def TxTally.count (tally : TxTally) (result : ApplyResult) (fee : FlakeAmount) :
    Except String TxTally :=
  if result.success then tally.record result fee else .ok tally

/-- What the transactions of a block see of it. -/
def executionContext (header : BlockHeader) (chain : ChainState) : ExecutionContext :=
  { blockHeight := header.height, blockTimestamp := header.timestamp,
    totalIssuedFlakes := chain.totalIssued }

/-- Execute one transaction. One that fails does not fail the block, and either way it
leaves the mempool. -/
def executeTransaction (header : BlockHeader) (tally : TxTally) (tx : Transaction) :
    NodeM TxTally := do
  let node ← get
  let (result, ledger) := TransactionDispatcher.applyTransaction P tx
    (executionContext header node.chain) mainnetChainId node.ledger
  modify (OpolysNode.setLedger ledger)
  let tally ← ofExcept id (tally.count result tx.fee)
  modify fun node => { node with mempool := node.mempool.removeTransaction tx.txId }
  return tally

def executeTransactions (block : Block) : NodeM TxTally :=
  block.transactions.foldlM (executeTransaction P block.header) {}

/-! ## Closing -/

/-- How the fees of a block are routed. -/
structure FeeRouting where
  ordinaryFeesBurned : FlakeAmount
  refinerFeeIncome : FlakeAmount

/-- Mined blocks burn their fees, refined blocks pay the larger part to the producer. -/
def routeFees (opening : Opening) (totalTransactionFees : FlakeAmount) : FeeRouting :=
  if opening.kind = .refined then
    let (activeRefiners, activeRefinerLimit) := opening.porFeeMarket.getD (0, 0)
    let (burned, income) :=
      computePorFeeSplit totalTransactionFees activeRefiners activeRefinerLimit
    { ordinaryFeesBurned := burned, refinerFeeIncome := income }
  else { ordinaryFeesBurned := totalTransactionFees, refinerFeeIncome := 0 }

/-- Whether a block ends an epoch. -/
def isEpochBoundary (height : BlockHeight) : Bool := height > 0 && height % epoch = 0

/-- Burn an amount. -/
def burn (amount : FlakeAmount) (message : String) : NodeM Unit := do
  let totalBurned ← require (checkedAdd (← get).chain.totalBurned amount) message
  modify fun node => { node with chain := { node.chain with totalBurned } }

/-- At the end of an epoch, drop the transactions that have waited too long. -/
def evictAtEpochEnd (env : Env) (header : BlockHeader) (node : OpolysNode) : OpolysNode :=
  if isEpochBoundary header.height then
    { node with mempool := node.mempool.evictExpired env.nowSecs }
  else node

/-- Evict, pay and burn: everything that becomes of the fees. -/
def settleFees (env : Env) (header : BlockHeader) (opening : Opening) (tally : TxTally)
    (routing : FeeRouting) : NodeM Unit := do
  modify (evictAtEpochEnd env header)
  let income := if opening.kind = .refined then routing.refinerFeeIncome else 0
  let accounts ← ofExcept id (creditProducer header.producer income (← get).accounts)
  modify fun node => { node with accounts }
  burn routing.ordinaryFeesBurned "Total burned overflow after transaction fees"
  burn tally.totalAssayBurned "Total burned overflow after assay burns"

/-- Issue a reward. -/
def issue (amount : FlakeAmount) (node : OpolysNode) : OpolysNode :=
  { node with chain := { node.chain with
      totalIssued := saturatingAdd node.chain.totalIssued amount } }

/-- Move the tip to a block. -/
def advanceTip (header : BlockHeader) (blockHash : Hash) (nextSuggestedFee : FlakeAmount)
    (node : OpolysNode) : OpolysNode :=
  { node with chain := { node.chain with
      currentHeight := header.height
      currentDifficulty := header.difficulty
      latestBlockHash := blockHash
      blockTimestamps :=
        ChainState.pruneBlockTimestamps (node.chain.blockTimestamps ++ [header.timestamp])
      suggestedFee := nextSuggestedFee } }

/-- Issue the reward, burn its assay and move the chain state to the new tip. -/
def updateChain (header : BlockHeader) (opening : Opening) (tally : TxTally)
    (blockHash : Hash) : NodeM Unit := do
  let nextSuggestedFee := Emission.computeSuggestedFee tally.totalFeeSignal
    tally.successfulTransactionCount (← get).chain.suggestedFee
  modify (issue opening.reward.grossReward)
  burn opening.reward.mineAssay "Total burned overflow after mine assay"
  modify (advanceTip header blockHash nextSuggestedFee)

/-- Return the matured withdrawals to their accounts. -/
def payMaturedUnbonds : NodeM Unit := do
  let height := (← get).chain.currentHeight
  let matured := (← get).refiners.maturedUnbonds height
  let planned ← ofExcept id (matured.foldlM (fun planned entry =>
    addPlannedCredit planned entry.1 entry.2) ∅)
  ofExcept id (ensurePlannedCreditsCreditable (← get).accounts planned)
  let (refiners, drained) := (← get).refiners.processMaturedUnbonds height
  modify fun node => { node with refiners }
  drained.foldlM (fun _ entry => do
    let accounts ← ofExcept id (creditOrCreateAccount (← get).accounts entry.1 entry.2)
    modify fun node => { node with accounts }) ()

/-- Activate and, at the end of an epoch, rank the refiners. -/
def rankRefiners (node : OpolysNode) : OpolysNode :=
  let height := node.chain.currentHeight
  let refiners := node.refiners.activateMaturedRefiners height
  if isEpochBoundary height then
    { node with refiners := refiners.rerankRefiners node.chain.totalIssued }
  else { node with refiners }

/-- The state root after a block, which the next header must carry. -/
def computeStateRoot (node : OpolysNode) : Except String Hash := do
  let accountsRoot ← (AccountStore.computeStateRoot P node.accounts).mapError
    OpolysError.toString
  let refinersRoot ← (node.refiners.computeStateRoot P).mapError OpolysError.toString
  .ok (P.blake3 (domainStateRoot ++ tag "chain" ++ accountsRoot.bytes ++ refinersRoot.bytes ++
    Codec.beBytes 8 node.chain.totalIssued.toNat ++
    Codec.beBytes 8 node.chain.totalBurned.toNat ++
    Codec.beBytes 8 node.chain.currentHeight.toNat))

/-- The economic receipt of a block. -/
def economicReceipt (header : BlockHeader) (blockHash : Hash) (opening : Opening)
    (tally : TxTally) (routing : FeeRouting) : BlockEconomicReceipt where
  height := header.height
  blockHash
  productionKind := opening.kind
  producer := header.producer
  difficulty := header.difficulty
  veinYieldMilli := opening.veinYieldMilli
  grossReward := opening.reward.grossReward
  mineAssayBurned := opening.reward.mineAssay
  minerCredit := opening.reward.minerShare
  successfulTransactionCount := tally.successfulTransactionCount
  ordinaryFees := tally.totalTransactionFees
  ordinaryFeesBurned := routing.ordinaryFeesBurned
  refinerFeeIncome := routing.refinerFeeIncome
  bondUnbondAssayBurned := tally.totalAssayBurned
  slashedBurned := opening.slashedBurned
  totalBurned := saturatingAdd (saturatingAdd (saturatingAdd routing.ordinaryFeesBurned
    tally.totalAssayBurned) opening.reward.mineAssay) opening.slashedBurned

/-- Store the block and the state after it. -/
def persistState (writeOk : Bool) (block : Block) (receipt : BlockEconomicReceipt)
    (node : OpolysNode) (store : BlockchainStore) : Except String BlockchainStore :=
  store.saveAppliedBlockAtomic P writeOk block receipt node.chain.toPersisted node.accounts
    node.refiners

/-- Persist the node. A failed write is only logged. -/
def persist (env : Env) (block : Block) (receipt : BlockEconomicReceipt) (node : OpolysNode) :
    OpolysNode :=
  match node.store with
  | none => node
  | some store =>
    match persistState P env.writeOk block receipt node store with
    | .ok store => { node with store := some store }
    | .error _ => node

/-- Record the state root and the receipt of a block. -/
def recordBlock (stateRoot : Hash) (receipt : BlockEconomicReceipt) (node : OpolysNode) :
    OpolysNode :=
  { node with chain := { node.chain with
      stateRoot
      mintLedger := node.chain.mintLedger.recordReceipt receipt } }

/-- Drop the evidence of a block from the pool and add what the block showed. -/
def updateEvidencePool (accepted newEvidence : List DoubleSignEvidence) (node : OpolysNode) :
    OpolysNode :=
  let pending := removeAcceptedSlashEvidence accepted node.pendingSlashEvidence
  { node with pendingSlashEvidence := queueSlashEvidence newEvidence pending }

/-- Everything after the transactions. -/
def closeBlock (env : Env) (block : Block) (opening : Opening) (tally : TxTally) :
    NodeM Hash := do
  let blockHash := computeBlockHash P block.header
  let routing := routeFees opening tally.totalTransactionFees
  settleFees env block.header opening tally routing
  updateChain block.header opening tally blockHash
  payMaturedUnbonds
  modify rankRefiners
  let stateRoot ← ofExcept id (computeStateRoot P (← get))
  let receipt := economicReceipt block.header blockHash opening tally routing
  modify (recordBlock stateRoot receipt)
  modify (persist P env block receipt)
  modify (updateEvidencePool block.slashEvidence opening.newEvidence)
  return blockHash

/-- Apply a mined or received block to the node. -/
def applyBlock (env : Env) (block : Block) : NodeM Hash := do
  let opening ← openBlock P env block
  let tally ← executeTransactions P block
  closeBlock P env block opening tally

end Opolys
