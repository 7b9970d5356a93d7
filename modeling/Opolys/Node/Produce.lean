import Opolys.Crypto.Reference
import Opolys.Node.Run
import Opolys.Wallet.Signing

/-!
# Producing a block

A node builds the header of its next block from its own chain state and the body it wants
to include. A miner then adds a nonce, and the selected refiner adds its signature of the
block's hash.

The second part is a chain to compute with: identities from seeds of equal bytes, their
signed transactions, and nodes that start from a configuration and mine.
-/

namespace Opolys

open Codec (FixedBytes leBytes)
open MachineInt (saturatingAdd)

variable (P : Primitives)

/-- What a node puts into the body of a candidate. -/
structure CandidateBody where
  transactions : List Transaction := []
  slashEvidence : List DoubleSignEvidence := []
  attestations : List BlockAttestation := []

/-- The time a candidate carries: the clock, or later when the parent is too recent. -/
def OpolysNode.candidateTimestamp (node : OpolysNode) (nowSecs : UInt64) : UInt64 :=
  max nowSecs (saturatingAdd (node.chain.blockTimestamps.getLast?.getD 0)
    minimumBlockTimestampDeltaSecs)

/-- The next block without a production proof. -/
def OpolysNode.candidateBlock (node : OpolysNode) (nowSecs : UInt64) (body : CandidateBody) :
    Except OpolysError Block :=
  setBodyRoots P {
    header := {
      version := blockVersion
      height := node.chain.currentHeight + 1
      previousHash := node.chain.latestBlockHash
      stateRoot := node.chain.stateRoot
      transactionRoot := Hash.zero
      evidenceRoot := Hash.zero
      attestationRoot := Hash.zero
      genesisCeremonyHash := Hash.zero
      timestamp := node.candidateTimestamp nowSecs
      difficulty := node.expectedDifficulty
      suggestedFee := node.chain.suggestedFee
      extensionRoot := none
      producer := node.minerId
      powProof := none
      refinerSignature := none }
    transactions := body.transactions
    slashEvidence := body.slashEvidence
    attestations := body.attestations
    genesisCeremony := none }

/-- A candidate with a nonce. -/
def withNonce (nonce : UInt64) (block : Block) : Block :=
  { block with header := { block.header with powProof := some (leBytes 8 nonce.toNat) } }

/-- A candidate signed with the node's key. -/
def withRefinerSignature (seed : FixedBytes 32) (block : Block) : Block :=
  let signingPayload := refinerBlockSigningPayload (computeBlockHash P block.header)
  { block with header := { block.header with
      refinerSignature := some (P.sign seed signingPayload).bytes } }

theorem computeBlockHash_withRefinerSignature (seed : FixedBytes 32) (block : Block) :
    computeBlockHash P (withRefinerSignature P seed block).header =
      computeBlockHash P block.header := rfl

/-! ## A chain to compute with -/

namespace Reference

/-- The secret seed of an identity. -/
def seed (n : UInt8) : FixedBytes 32 := FixedBytes.fill 32 n

/-- The public key of an identity. -/
def publicKey (n : UInt8) : FixedBytes 32 := primitives.verifyingKey (seed n)

/-- The account of an identity. -/
def account (n : UInt8) : ObjectId := ed25519PublicKeyToObjectId primitives (publicKey n)

/-- A configuration that gives amounts to identities. -/
def config (amounts : List (UInt8 × FlakeAmount)) : GenesisConfig :=
  let genesisAccounts := amounts.map fun entry =>
    (account entry.1, entry.2, (publicKey entry.1).bytes)
  { GenesisConfig.default with genesisAccounts }

/-- A transaction an identity has signed. -/
def signed (n : UInt8) (action : TransactionAction) (fee : FlakeAmount) (nonce : UInt64) :
    List Transaction :=
  (TransactionSigner.create primitives (seed n) action fee nonce mainnetChainId).toOption.toList

/-- A block without contents. -/
def emptyBlock : Block where
  header := minedHeader ObjectId.zero []
  transactions := []
  slashEvidence := []
  attestations := []
  genesisCeremony := none

/-- A node without anything. -/
def emptyNode : OpolysNode where
  chain :=
    { currentHeight := 0, currentDifficulty := 0, totalIssued := 0, totalBurned := 0,
      mintLedger := {}, blockTimestamps := [], genesisHash := Hash.zero,
      latestBlockHash := Hash.zero, stateRoot := Hash.zero, suggestedFee := 0,
      producerSignatures := ∅, baseReward := 0, finalizedHeight := 0,
      attestationFinalityRefiners := ∅ }
  accounts := AccountStore.new
  refiners := RefinerSet.new
  mempool := Mempool.new
  store := none
  minerId := ObjectId.zero
  signingKey := none
  pendingSlashEvidence := []
  pendingAttestations := ∅

/-- A fresh node with the key of an identity, or without a key. -/
def start (config : GenesisConfig) (key : Option UInt8) : OpolysNode :=
  (OpolysNode.new primitives config (key.map fun n => (seed n).bytes)
    BlockchainStore.empty).toOption.getD emptyNode

/-- The block a node mines with a nonce. -/
def mine (node : OpolysNode) (nonce : UInt64) (body : CandidateBody) : Block :=
  withNonce nonce ((node.candidateBlock primitives 0 body).toOption.getD emptyBlock)

/-- A call with a block, a minute after its time. -/
def call (block : Block) : Call :=
  { env := { nowSecs := block.header.timestamp + 60, writeOk := true }, block }

/-- The calls that a node makes when it mines blocks one after the other. -/
def mineAll : OpolysNode → List (UInt64 × CandidateBody) → List Call
  | _, [] => []
  | node, (nonce, body) :: bodies =>
    let next := call (mine node nonce body)
    next :: mineAll (node.step primitives next) bodies

/-- A fresh node starts at genesis. -/
theorem new_start (config : GenesisConfig) (key : Option UInt8)
    (h : (OpolysNode.new primitives config (key.map fun n => (seed n).bytes)
      BlockchainStore.empty).toOption.isSome = true) :
    OpolysNode.new primitives config (key.map fun n => (seed n).bytes) BlockchainStore.empty =
      .ok (start config key) :=
  Effect.eq_ok_getD h

end Reference

end Opolys
