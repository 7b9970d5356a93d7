import Opolys.Consensus.Block
import Opolys.Consensus.Refiner

/-!
# Storage

The database of the node. A block and the state after it are written in one atomic batch,
which either lands whole or not at all. The database is typed here: it gives back the
values that were written, so the checksums and the Borsh decoding on the way are left out,
and what remains of the encoding is that a vector can be too long for it.
-/

namespace Opolys

open Std (ExtTreeMap)
open Codec (Borsh)

instance : Borsh MintLedgerTotals :=
  Borsh.ofFields
    (fun t => (t.totalGenesisIssued, t.totalMinedGrossReward, t.totalMineAssayBurned,
      t.totalOrdinaryFeesBurned, t.totalBondUnbondAssayBurned, t.totalSlashedStakeBurned,
      t.totalRefinerFeeIncome, t.totalMinedBlocks, t.totalRefinedBlocks,
      t.totalSuccessfulTransactions))
    (by rintro ⟨⟩ ⟨⟩ h; simpa using h)

/-- The chain state as it is stored, with maps flattened to lists. The hexadecimal names of
producers are kept as the identifiers they spell. -/
@[ext] structure PersistedChainState where
  chainId : UInt64
  genesisHash : Hash
  currentHeight : UInt64
  currentDifficulty : UInt64
  totalIssued : UInt64
  totalBurned : UInt64
  mintLedger : MintLedgerTotals
  blockTimestamps : List UInt64
  latestBlockHash : Hash
  stateRoot : Hash
  suggestedFee : UInt64
  baseReward : UInt64
  producerSignatures : List (UInt64 × ObjectId × Hash × List UInt8)
  finalizedHeight : UInt64
  attestationFinalityRefiners : List (UInt64 × Hash × List ObjectId)

instance : Borsh PersistedChainState :=
  Borsh.ofFields
    (fun s => (s.chainId, s.genesisHash, s.currentHeight, s.currentDifficulty, s.totalIssued,
      s.totalBurned, s.mintLedger, s.blockTimestamps, s.latestBlockHash, s.stateRoot,
      s.suggestedFee, s.baseReward, s.producerSignatures, s.finalizedHeight,
      s.attestationFinalityRefiners))
    (by rintro ⟨⟩ ⟨⟩ h; simpa using h)

/-- The contents of the database by key. -/
structure BlockchainStore where
  /-- Blocks by height. -/
  blocks : ExtTreeMap UInt64 Block
  /-- Heights by block hash. -/
  blockHeights : ExtTreeMap Hash UInt64
  receipts : ExtTreeMap UInt64 BlockEconomicReceipt
  latestBlockHeight : Option UInt64
  chainState : Option PersistedChainState
  allAccounts : Option (List Account)
  /-- Height and index of every transaction by id. -/
  transactions : ExtTreeMap ObjectId (UInt64 × UInt32)
  /-- The last record written of each refiner. -/
  refinerRecords : ExtTreeMap ObjectId RefinerInfo
  activeRefinerIds : Option (List ObjectId)
  allRefiners : Option (List RefinerInfo)
  unbondingQueue : Option (List PendingUnbond)

namespace BlockchainStore

/-- A fresh database. -/
def empty : BlockchainStore where
  blocks := ∅
  blockHeights := ∅
  receipts := ∅
  latestBlockHeight := none
  chainState := none
  allAccounts := none
  transactions := ∅
  refinerRecords := ∅
  activeRefinerIds := none
  allRefiners := none
  unbondingQueue := none

/-- Fail where a value has a vector that is too long to be written. -/
def serializable {α : Type} [Borsh α] (what : String) (a : α) : Except String Unit :=
  Effect.check (Borsh.fits a = true) s!"{what} serialization failed: {vectorTooLong}"

/-- Write an applied block and the state after it in one batch. -/
def saveAppliedBlockAtomic (P : Primitives) (store : BlockchainStore) (writeOk : Bool)
    (block : Block) (receipt : BlockEconomicReceipt) (state : PersistedChainState)
    (accounts : AccountStore) (refiners : RefinerSet) : Except String BlockchainStore := do
  serializable "Block" block
  serializable "Chain state" state
  serializable "Account" accounts.allAccounts
  serializable "Refiner" refiners.allRefiners
  serializable "Active set" refiners.activeSet
  serializable "Unbonding queue" refiners.unbondingQueue
  Effect.check (writeOk = true) "Atomic block/state write failed"
  let height := block.header.height
  return {
    blocks := store.blocks.insert height block
    blockHeights := store.blockHeights.insert (computeBlockHash P block.header) height
    receipts := store.receipts.insert height receipt
    latestBlockHeight := some height
    chainState := some state
    allAccounts := some accounts.allAccounts
    transactions := block.transactions.zipIdx.foldl
      (fun index entry => index.insert entry.1.txId (height, UInt32.ofNat entry.2))
      store.transactions
    refinerRecords := refiners.allRefiners.foldl
      (fun records r => records.insert r.objectId r) store.refinerRecords
    activeRefinerIds := some refiners.activeSet
    allRefiners := some refiners.allRefiners
    unbondingQueue := some refiners.unbondingQueue }

def loadBlock (store : BlockchainStore) (height : UInt64) : Option Block := store.blocks[height]?

def loadBlockReceipt (store : BlockchainStore) (height : UInt64) : Option BlockEconomicReceipt :=
  store.receipts[height]?

/-- The block at the height that a hash is indexed at. -/
def loadBlockByHash (store : BlockchainStore) (hash : Hash) : Option Block :=
  match store.blockHeights[hash]? with
  | none => none
  | some height => store.loadBlock height

/-- A transaction with the height it is indexed at, found in the block of that height. -/
def loadTransaction (store : BlockchainStore) (txId : ObjectId) : Option (UInt64 × Transaction) :=
  match store.transactions[txId]? with
  | none => none
  | some (height, _) =>
    match store.loadBlock height with
    | none => none
    | some block =>
      match block.transactions.find? fun tx => tx.txId = txId with
      | none => none
      | some tx => some (height, tx)

def loadAccounts (store : BlockchainStore) : AccountStore :=
  match store.allAccounts with
  | some accounts => AccountStore.loadFromAccounts accounts
  | none => AccountStore.new

def loadRefiners (store : BlockchainStore) : RefinerSet :=
  RefinerSet.loadFromRefiners (store.allRefiners.getD []) (store.unbondingQueue.getD [])

/-- The stored chain state. Blocks without one are the mark of a damaged database. -/
def loadChainState (store : BlockchainStore) : Except String (Option PersistedChainState) :=
  match store.chainState, store.latestBlockHeight with
  | some state, _ => .ok (some state)
  | none, some height => .error
      (s!"Chain state missing while latest block height {height} exists; " ++
        "database is partial or corrupt")
  | none, none => .ok none

theorem loadChainState_eq_ok {store : BlockchainStore} {loaded : Option PersistedChainState}
    (h : store.loadChainState = .ok loaded) : store.chainState = loaded := by
  unfold loadChainState at h
  split at h <;> cases h <;> assumption

end BlockchainStore

end Opolys
