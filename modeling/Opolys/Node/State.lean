import Opolys.Consensus.Genesis
import Opolys.Consensus.Mempool
import Opolys.Execution.Dispatcher
import Opolys.Storage.Store
import Std.Data.ExtTreeSet

/-!
# The state of a node

`ChainState` holds what the chain has agreed on beside accounts and refiners, and
`OpolysNode` everything a node keeps. A node starts from its database, or from the genesis
configuration when the database is fresh, and registers the account of its own key file.
A panic at startup is an error here.

* `ChainState.toPersisted`, `ChainState.fromPersisted` : the stored form of the chain state.
* `OpolysNode.new` : startup.
-/

namespace Opolys

open Std (ExtTreeMap ExtTreeSet)
open Codec (FixedBytes)
open MachineInt (saturatingAdd)

/-- Keys made of a height and a name are sorted by height, then by name. -/
instance heightKeyOrd {κ : Type} [Ord κ] : Ord (UInt64 × κ) := lexOrd

instance blockKeyTransOrd : Std.TransOrd (UInt64 × Hash) :=
  inferInstanceAs (@Std.TransOrd (UInt64 × Hash) lexOrd)

/-! ## Chain state -/

/-- The canonical chain state. -/
structure ChainState where
  currentHeight : UInt64
  currentDifficulty : UInt64
  /-- Everything ever issued. -/
  totalIssued : FlakeAmount
  /-- Everything ever burned. -/
  totalBurned : FlakeAmount
  mintLedger : MintLedgerTotals
  /-- The timestamps of the last blocks, oldest first. -/
  blockTimestamps : List UInt64
  genesisHash : Hash
  latestBlockHash : Hash
  /-- The state root after the latest block. -/
  stateRoot : Hash
  suggestedFee : FlakeAmount
  /-- The first block hash and signature seen of a producer at a height. The source keys
  this map by the producer's hexadecimal name. -/
  producerSignatures : ExtTreeMap (UInt64 × ObjectId) (Hash × List UInt8)
  baseReward : FlakeAmount
  finalizedHeight : UInt64
  /-- Who has attested a block on chain. -/
  attestationFinalityRefiners : ExtTreeMap (UInt64 × Hash) (ExtTreeSet ObjectId)

namespace ChainState

/-- Keep the newest timestamps. -/
def pruneBlockTimestamps (timestamps : List UInt64) : List UInt64 :=
  timestamps.drop (timestamps.length - blockTimestampWindowLen)

/-- The chain state at genesis. -/
def new (P : Primitives) (genesisConfig : GenesisConfig) : Except String ChainState :=
  match buildGenesisBlock P genesisConfig with
  | .error e => .error s!"Failed to build genesis block: {e.toString}"
  | .ok genesis =>
    let genesisHash := computeBlockHash P genesis.header
    .ok {
      currentHeight := 0
      currentDifficulty := genesisConfig.initialDifficulty
      totalIssued := 0
      totalBurned := 0
      mintLedger := {}
      blockTimestamps := [genesis.header.timestamp]
      genesisHash
      latestBlockHash := genesisHash
      stateRoot := genesis.header.stateRoot
      suggestedFee := minFee
      producerSignatures := ∅
      baseReward := genesisConfig.baseReward
      finalizedHeight := 0
      attestationFinalityRefiners := ∅ }

/-- The chain state from its stored form. -/
def fromPersisted (p : PersistedChainState) : ChainState where
  currentHeight := p.currentHeight
  currentDifficulty := p.currentDifficulty
  totalIssued := p.totalIssued
  totalBurned := p.totalBurned
  mintLedger := p.mintLedger
  blockTimestamps := pruneBlockTimestamps p.blockTimestamps
  genesisHash := p.genesisHash
  latestBlockHash := p.latestBlockHash
  stateRoot := p.stateRoot
  suggestedFee := p.suggestedFee
  producerSignatures :=
    ExtTreeMap.ofList (p.producerSignatures.map fun e => ((e.1, e.2.1), (e.2.2.1, e.2.2.2)))
  baseReward := if p.baseReward > 0 then p.baseReward else Opolys.baseReward
  finalizedHeight := p.finalizedHeight
  attestationFinalityRefiners :=
    ExtTreeMap.ofList (p.attestationFinalityRefiners.map fun e =>
      ((e.1, e.2.1), ExtTreeSet.ofList e.2.2))

/-- The stored form of the chain state. -/
def toPersisted (c : ChainState) : PersistedChainState where
  chainId := mainnetChainId
  genesisHash := c.genesisHash
  currentHeight := c.currentHeight
  currentDifficulty := c.currentDifficulty
  totalIssued := c.totalIssued
  totalBurned := c.totalBurned
  mintLedger := c.mintLedger
  blockTimestamps := pruneBlockTimestamps c.blockTimestamps
  latestBlockHash := c.latestBlockHash
  stateRoot := c.stateRoot
  suggestedFee := c.suggestedFee
  baseReward := c.baseReward
  producerSignatures :=
    c.producerSignatures.toList.map fun e => (e.1.1, e.1.2, e.2.1, e.2.2)
  finalizedHeight := c.finalizedHeight
  attestationFinalityRefiners :=
    c.attestationFinalityRefiners.toList.map fun e => (e.1.1, e.1.2, e.2.toList)

end ChainState

/-! ## Nodes -/

/-- A full node. -/
structure OpolysNode where
  chain : ChainState
  accounts : AccountStore
  refiners : RefinerSet
  mempool : Mempool
  /-- The database, if the node keeps one. -/
  store : Option BlockchainStore
  /-- The node's own identity, zero without a key. -/
  minerId : ObjectId
  /-- The seed of the node's own key. -/
  signingKey : Option (FixedBytes 32)
  /-- Evidence waiting for a block. -/
  pendingSlashEvidence : List DoubleSignEvidence
  /-- Attestations waiting for a block, by height and refiner. -/
  pendingAttestations : ExtTreeMap (UInt64 × ObjectId) BlockAttestation

/-- Give the node's own account its key, creating the account where there is none. -/
def ensureLocalProducerAccount (P : Primitives) (accounts : AccountStore) (minerId : ObjectId)
    (signingKey : Option (FixedBytes 32)) : Except String AccountStore :=
  match signingKey with
  | none => .ok accounts
  | some seed =>
    if minerId.hash.isZero then .ok accounts
    else
      let publicKey := (P.verifyingKey seed).bytes
      let accounts := accounts.withAccount minerId
      match accounts.get? minerId with
      | none => .error "local producer account was just created"
      | some account =>
        match account.publicKey with
        | some existing =>
          if existing = publicKey then .ok accounts
          else .error
            (s!"Refusing to use key file: local producer account {minerId.toHex} " ++
              "already has a different public key")
        | none => .ok (accounts.put { account with publicKey := some publicKey })

namespace OpolysNode

/-- The identity in a key file, which holds a seed of 32 bytes. A missing or malformed
file gives none. -/
def loadKey (P : Primitives) (keyFile : Option (List UInt8)) :
    ObjectId × Option (FixedBytes 32) :=
  match keyFile.bind (FixedBytes.ofList? 32) with
  | some seed => (ed25519PublicKeyToObjectId P (P.verifyingKey seed), some seed)
  | none => (ObjectId.zero, none)

/-- The state a fresh chain starts in. -/
def genesisState (P : Primitives) (genesisConfig : GenesisConfig) :
    Except String (ChainState × AccountStore × RefinerSet) := do
  let chain ← ChainState.new P genesisConfig
  let (accounts, genesisIssued) ←
    (applyGenesisAccounts genesisConfig AccountStore.new).mapError fun e =>
      s!"Failed to apply genesis accounts: {e}"
  return ({ chain with
            totalIssued := saturatingAdd chain.totalIssued genesisIssued
            mintLedger := chain.mintLedger.recordGenesisIssuance genesisIssued },
          accounts, RefinerSet.new)

/-- The state the database holds, if it belongs to this chain. -/
def persistedState (P : Primitives) (genesisConfig : GenesisConfig) (store : BlockchainStore)
    (persisted : PersistedChainState) : Except String (ChainState × AccountStore × RefinerSet) := do
  let expectedGenesisHash := (← ChainState.new P genesisConfig).genesisHash
  if persisted.chainId ≠ mainnetChainId then
    throw (s!"persisted chain_id {persisted.chainId} does not match " ++
      s!"expected mainnet chain_id {mainnetChainId}")
  else if persisted.genesisHash ≠ expectedGenesisHash then
    throw (s!"persisted genesis {persisted.genesisHash.toHex} does not match " ++
      s!"expected genesis {expectedGenesisHash.toHex}")
  else
    return (ChainState.fromPersisted persisted, store.loadAccounts, store.loadRefiners)

/-- Start a node on a database. -/
def new (P : Primitives) (genesisConfig : GenesisConfig) (keyFile : Option (List UInt8))
    (store : BlockchainStore) : Except String OpolysNode := do
  let (minerId, signingKey) := loadKey P keyFile
  let (chain, accounts, refiners) ←
    match ← store.loadChainState with
    | some persisted => persistedState P genesisConfig store persisted
    | none => genesisState P genesisConfig
  let accounts ← ensureLocalProducerAccount P accounts minerId signingKey
  return {
    chain, accounts, refiners
    mempool := Mempool.new
    store := some store
    minerId, signingKey
    pendingSlashEvidence := []
    pendingAttestations := ∅ }

/-- The part of the node that transactions act on. -/
def ledger (node : OpolysNode) : Ledger := { accounts := node.accounts, refiners := node.refiners }

/-- Put back accounts and refiners. -/
def setLedger (ledger : Ledger) (node : OpolysNode) : OpolysNode :=
  { node with accounts := ledger.accounts, refiners := ledger.refiners }

end OpolysNode

end Opolys
