import Opolys.Consensus.Pow
import Opolys.Library.Effect

/-!
# Block hashes, body roots and validation

A block is named by the hash of its header. The hash covers every field but the two
production proofs, which are added after it is known. The header commits to the body
through four roots, and `validateBlock` checks them together with everything else that
can be checked without the ledger.
-/

namespace Opolys

open Codec (FixedBytes Borsh beBytes)
open MachineInt (saturatingAdd)
open Effect (check)

variable (P : Primitives)

/-! ## Hashes -/

/-- The bytes a block hash is computed over. -/
def blockHashPreimage (header : BlockHeader) : List UInt8 :=
  beBytes 4 header.version.toNat ++ beBytes 8 header.height.toNat ++
    header.previousHash.bytes ++ header.producer.asBytes ++ header.stateRoot.bytes ++
    header.transactionRoot.bytes ++ header.evidenceRoot.bytes ++ header.attestationRoot.bytes ++
    header.genesisCeremonyHash.bytes ++ beBytes 8 header.timestamp.toNat ++
    beBytes 8 header.difficulty.toNat ++ beBytes 8 header.suggestedFee.toNat ++
    match header.extensionRoot with
    | some extRoot => extRoot.bytes
    | none => []

/-- The hash that names a block. -/
def computeBlockHash (header : BlockHeader) : Hash :=
  hashWithDomain P domainBlockHash (blockHashPreimage header)

/-- What the transaction root commits to of one transaction. -/
def transactionCommitment (tx : Transaction) : List UInt8 :=
  tx.txId.asBytes ++ beBytes 8 tx.fee.toNat ++ beBytes 8 tx.nonce.toNat

def computeTransactionRoot (transactions : List Transaction) : Hash :=
  hashWithDomain P domainTxRoot (transactions.flatMap transactionCommitment)

def computeEvidenceRoot (evidence : List DoubleSignEvidence) : Except OpolysError Hash := do
  let bytes ← borshToVec "Double-sign evidence" evidence
  return hashWithDomain P domainEvidenceRoot bytes

def computeAttestationRoot (attestations : List BlockAttestation) : Except OpolysError Hash := do
  let bytes ← borshToVec "Block attestation" attestations
  return hashWithDomain P domainAttestationRoot bytes

def computeGenesisCeremonyHash (ceremony : Option GenesisCeremonyData) :
    Except OpolysError Hash := do
  let bytes ← borshToVec "Genesis ceremony" ceremony
  return hashWithDomain P domainGenesisCeremonyHash bytes

/-- Fill the body roots into the header. -/
def setBodyRoots (block : Block) : Except OpolysError Block := do
  let transactionRoot := computeTransactionRoot P block.transactions
  let evidenceRoot ← computeEvidenceRoot P block.slashEvidence
  let attestationRoot ← computeAttestationRoot P block.attestations
  let genesisCeremonyHash ← computeGenesisCeremonyHash P block.genesisCeremony
  return { block with header := { block.header with
    transactionRoot, evidenceRoot, attestationRoot, genesisCeremonyHash } }

/-! ## Validation -/

/-- The least time between two blocks, half the target interval. -/
def minimumBlockTimestampDeltaSecs : UInt64 := max (blockTargetTimeSecs / 2) 1

/-- The size of a block on the wire. -/
def blockSize (block : Block) : ℕ :=
  match Borsh.toVec block with
  | some bytes => bytes.length
  | none => 2 ^ 64 - 1

/-- A body root of the header against the computed one. -/
def checkRoot (name : String) (expected actual : Hash) : Except OpolysError Unit :=
  check (actual = expected) (.blockValidationFailed
    s!"{name} mismatch: expected {expected.toHex}, got {actual.toHex}")

/-- No transaction occurs twice, where `seen` holds the ids before it. -/
def checkDistinct (height : BlockHeight) :
    List Transaction → List ObjectId → Except OpolysError Unit
  | [], _ => .ok ()
  | tx :: txs, seen => do
    check (tx.txId ∉ seen) (.blockValidationFailed
      s!"Duplicate transaction {tx.txId.toHex} in block {height}")
    checkDistinct height txs (tx.txId :: seen)

/-- Version, height, parent, timestamp and difficulty of a header. -/
def checkHeader (header : BlockHeader) (expectedHeight : BlockHeight) (parentHash : Hash)
    (parentTimestamp expectedDifficulty nowSecs : UInt64) : Except OpolysError Unit := do
  check (header.version = blockVersion) (.blockValidationFailed
    s!"Block version mismatch: expected {blockVersion}, got {header.version}")
  check (header.height = expectedHeight) (.blockValidationFailed
    s!"Block height mismatch: expected {expectedHeight}, got {header.height}")
  check (header.previousHash = parentHash) (.blockValidationFailed
    s!"Block previous_hash mismatch: expected {parentHash.toHex}, got {header.previousHash.toHex}")
  let minTimestamp := saturatingAdd parentTimestamp minimumBlockTimestampDeltaSecs
  check (expectedHeight > 0 → minTimestamp ≤ header.timestamp) (.blockValidationFailed
    s!"Block timestamp {header.timestamp} is too compressed: minimum allowed is {minTimestamp}")
  let maxTimestamp := saturatingAdd nowSecs maxFutureBlockTimeSecs
  check (header.timestamp ≤ maxTimestamp) (.blockValidationFailed
    s!"Block timestamp {header.timestamp} is too far in the future (max allowed: {maxTimestamp})")
  check (header.difficulty = expectedDifficulty) (.blockValidationFailed
    s!"Block difficulty mismatch: expected {expectedDifficulty}, got {header.difficulty}")

/-- Counts, size, roots and transactions of a body. -/
def checkBody (block : Block) : Except OpolysError Unit := do
  let transactionCount := block.transactions.length
  check (transactionCount ≤ maxTransactionsPerBlock) (.blockValidationFailed
    s!"Too many transactions: {transactionCount} > {maxTransactionsPerBlock}")
  let evidenceCount := block.slashEvidence.length
  check (evidenceCount ≤ maxSlashEvidencePerBlock) (.blockValidationFailed
    s!"Too many slash evidence entries: {evidenceCount} > {maxSlashEvidencePerBlock}")
  let attestationCount := block.attestations.length
  check (attestationCount ≤ maxAttestationsPerBlock) (.blockValidationFailed
    s!"Too many attestations: {attestationCount} > {maxAttestationsPerBlock}")
  let size := blockSize block
  check (size ≤ maxBlockSizeBytes) (.blockValidationFailed
    s!"Block too large: {size} bytes > {maxBlockSizeBytes} bytes")
  checkRoot "Transaction root" (computeTransactionRoot P block.transactions)
    block.header.transactionRoot
  checkRoot "Evidence root" (← computeEvidenceRoot P block.slashEvidence)
    block.header.evidenceRoot
  checkRoot "Attestation root" (← computeAttestationRoot P block.attestations)
    block.header.attestationRoot
  checkRoot "Genesis ceremony hash" (← computeGenesisCeremonyHash P block.genesisCeremony)
    block.header.genesisCeremonyHash
  checkDistinct block.header.height block.transactions []
  block.transactions.forM fun tx =>
    check (tx.data.length ≤ maxTxDataSizeBytes) (.blockValidationFailed
      (s!"Transaction {tx.txId.toHex} data too large: {tx.data.length} bytes > " ++
        s!"{maxTxDataSizeBytes} bytes"))
  block.transactions.forM fun tx =>
    check (minFee ≤ tx.fee) (.blockValidationFailed
      s!"Transaction {tx.txId.toHex} fee below minimum: {tx.fee} < {minFee}")

/-- The production proof of a block after genesis. The signature of a refined block is
checked where the accounts are, here only its length. -/
def checkProof (header : BlockHeader) : Except OpolysError Unit :=
  match header.productionKind with
  | none => .error (.blockValidationFailed "Block must have exactly one production proof")
  | some kind => do
    check (header.producer.hash.isZero = false) (.blockValidationFailed
      "Block producer must be a non-zero ObjectId")
    match kind with
    | .mined => verifyPowLight P header header.difficulty
    | .refined =>
      let length := (header.refinerSignature.getD []).length
      check (length = 64) (.blockValidationFailed
        s!"Invalid refiner signature length: {length} bytes (expected 64)")
    | .genesis => .ok ()

/-- Everything that can be checked of a block before it meets the ledger. -/
def validateBlock (block : Block) (expectedHeight : BlockHeight) (parentHash : Hash)
    (parentTimestamp expectedDifficulty nowSecs : UInt64) : Except OpolysError Unit := do
  checkHeader block.header expectedHeight parentHash parentTimestamp expectedDifficulty nowSecs
  checkBody P block
  if expectedHeight > 0 then checkProof P block.header else .ok ()

end Opolys
