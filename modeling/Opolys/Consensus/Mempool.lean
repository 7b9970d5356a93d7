import Opolys.Crypto.Hash
import Opolys.Library.Effect
import Opolys.Library.Registry
import Mathlib.Data.List.Sort

/-!
# Mempool

The pool of pending transactions. A transaction enters it through a list of checks, may take
the place of another of the same sender and nonce, and may push out transactions of lower
priority. It leaves when a block includes it and, at epoch boundaries, when it has waited for
a day.

The source keeps the pool in hash maps, which hand out their entries in no particular order.
Where the order is visible, it is an argument here.
-/

namespace Opolys

open Std (ExtTreeMap)
open Codec (Borsh FixedBytes)
open MachineInt (saturatingMul saturatingSub)
open Effect (check ensure ofExcept)

/-- How far a nonce may be ahead of its account. -/
def maxNonceGap : UInt64 := 10

/-- A pending transaction. -/
structure MempoolEntry where
  transaction : Transaction
  priorityScore : UInt64
  txSize : ℕ
  /-- Unix seconds of its arrival. -/
  submittedAt : UInt64
deriving DecidableEq

/-- An order in which a hash map hands out its entries. -/
structure IterOrder where
  order : List (ObjectId × MempoolEntry) → List (ObjectId × MempoolEntry)
  perm : ∀ entries, (order entries).Perm entries

/-- The order of the ids. -/
def IterOrder.byId : IterOrder := ⟨id, fun _ => List.Perm.refl _⟩

/-- The pending transactions by id, how many each account has, and their size. -/
structure Mempool where
  entries : ExtTreeMap ObjectId MempoolEntry
  accountTxCounts : ExtTreeMap ObjectId ℕ
  totalSize : ℕ

namespace Mempool

def new : Mempool := { entries := ∅, accountTxCounts := ∅, totalSize := 0 }

/-- Drop a transaction from the pool and from its sender's count. -/
def removeTransaction (pool : Mempool) (txId : ObjectId) : Mempool :=
  match pool.entries[txId]? with
  | none => pool
  | some entry =>
    let sender := entry.transaction.sender
    let accountTxCounts :=
      match pool.accountTxCounts[sender]? with
      | none => pool.accountTxCounts
      | some count =>
        if count - 1 = 0 then pool.accountTxCounts.erase sender
        else pool.accountTxCounts.insert sender (count - 1)
    { entries := pool.entries.erase txId
      accountTxCounts
      totalSize := pool.totalSize - entry.txSize }

/-- Drop every transaction that has waited too long. -/
def evictExpired (pool : Mempool) (currentTime : UInt64) : Mempool :=
  let expired := (pool.entries.toList.filter fun p =>
    saturatingSub currentTime p.2.submittedAt > mempoolTxExpirySecs).map Prod.fst
  expired.foldl removeTransaction pool

/-- The least fee at the present congestion: the suggested fee for every started block of
pending transactions. -/
def effectiveMinFee (pool : Mempool) (suggestedFee : UInt64) : UInt64 :=
  let pendingBlocks := (pool.totalSize + maxBlockSizeBytes - 1) / maxBlockSizeBytes
  let pendingBlocks := UInt64.ofNat (min (max pendingBlocks 1) capacityRatio.toNat)
  max (saturatingMul suggestedFee pendingBlocks) minFee

/-- The entries in the order of the hash map. -/
def iter (pool : Mempool) (order : IterOrder) : List (ObjectId × MempoolEntry) :=
  order.order pool.entries.toList

/-- Whether the first of two entries is evicted before the second: less priority, then older. -/
def evictsBefore (a b : ObjectId × MempoolEntry) : Bool :=
  (compare a.2.priorityScore b.2.priorityScore).then
    (compare a.2.submittedAt b.2.submittedAt) ≠ .gt

/-- Remove entries from the front of a list until enough has been freed. -/
def evictUntil (neededSpace : ℕ) : List (ObjectId × MempoolEntry) → ℕ → Mempool → Mempool
  | [], _, pool => pool
  | (id, entry) :: entries, freed, pool =>
    if neededSpace ≤ freed then pool
    else evictUntil neededSpace entries (freed + entry.txSize) (pool.removeTransaction id)

/-- Evict the least valuable transactions until `neededSpace` bytes have been freed. -/
def evictLowestPriority (pool : Mempool) (order : IterOrder) (neededSpace : ℕ) : Mempool :=
  let entries := (pool.iter order).insertionSort fun a b => evictsBefore a b
  evictUntil neededSpace entries 0 pool

/-- Whether the first of two entries goes into a block before the second: more priority, then
older. -/
def ordersBefore (a b : MempoolEntry) : Bool :=
  (compare b.priorityScore a.priorityScore).then (compare a.submittedAt b.submittedAt) ≠ .gt

/-- All transactions in the order in which block producers take them. -/
def getOrderedTransactions (pool : Mempool) (order : IterOrder) : List Transaction :=
  let entries := ((pool.iter order).map Prod.snd).insertionSort fun a b => ordersBefore a b
  entries.map MempoolEntry.transaction

end Mempool

/-! ## Admission -/

section Admission

variable (P : Primitives)

/-- The identifier a transaction of this content must carry. -/
def computeMempoolTxId (sender : ObjectId) (action : TransactionAction) (fee : FlakeAmount)
    (nonce chainId : UInt64) : Except OpolysError ObjectId := do
  let data ← borshToVec "Mempool transaction ID"
    (transactionContent sender action fee nonce chainId)
  return hashToObjectIdWithDomain P domainTxId data

/-- Chain id, identifier, key and signature of a transaction. -/
def verifyTransactionForMempool (tx : Transaction) (expectedChainId : UInt64) :
    Except OpolysError Unit := do
  check (tx.chainId = expectedChainId) (.invalidTransaction
    s!"Transaction chain_id {tx.chainId} does not match network chain_id {expectedChainId}")
  let expectedTxId ← computeMempoolTxId P tx.sender tx.action tx.fee tx.nonce tx.chainId
  check (tx.txId = expectedTxId) (.invalidTransaction
    s!"Transaction ID mismatch: expected {expectedTxId.toHex}, got {tx.txId.toHex}")
  check (tx.signatureType = signatureTypeEd25519) (.invalidTransaction
    s!"Unsupported signature type: {tx.signatureType} (only ed25519 = 0 is supported)")
  match FixedBytes.ofList? 32 tx.publicKey with
  | none => .error (.invalidTransaction
      s!"Invalid public key length: {tx.publicKey.length} bytes (expected 32 for ed25519)")
  | some pkBytes =>
    check (tx.sender = ed25519PublicKeyToObjectId P pkBytes)
      (.invalidTransaction "Public key does not match sender ObjectId")
    let signingPayload ←
      transactionSigningPayload tx.sender tx.action tx.fee tx.nonce tx.chainId
    check (verifyEd25519 P tx.publicKey signingPayload tx.signature = true) .invalidSignature

namespace Mempool

/-- The size of a transaction, 0 if it cannot be serialized. -/
def serializedSize (tx : Transaction) : ℕ :=
  match Borsh.toVec tx with
  | some bytes => bytes.length
  | none => 0

/-- The first entry that has the sender and the nonce of a transaction. -/
def findReplaced (pool : Mempool) (order : IterOrder) (tx : Transaction) : Option MempoolEntry :=
  ((pool.iter order).map Prod.snd).find? fun e =>
    e.transaction.sender = tx.sender ∧ e.transaction.nonce = tx.nonce

/-- The least fee of a replacement, 10% above the old fee. -/
def minReplacementFee (oldFee : FlakeAmount) : FlakeAmount :=
  UInt64.ofNat (((saturatingMul oldFee 11).toNat + 9) / 10)

/-- Make room for a transaction of the sender and nonce of another. -/
def replace (old : Option MempoolEntry) (tx : Transaction) : EStateM OpolysError Mempool Unit :=
  match old with
  | none => return ()
  | some old => do
    ensure (minReplacementFee old.transaction.fee ≤ tx.fee) (.invalidTransaction
      (s!"Replacement fee {tx.fee} must be at least 10% higher than existing fee " ++
        s!"{old.transaction.fee}"))
    modify fun pool => pool.removeTransaction old.transaction.txId

/-- Make room for a transaction of a size. -/
def makeRoom (order : IterOrder) (txSize : ℕ) (pool : Mempool) : Mempool :=
  if pool.totalSize + txSize > mempoolMaxSizeBytes then pool.evictLowestPriority order txSize
  else pool

/-- Enter a transaction. -/
def insert (entry : MempoolEntry) (pool : Mempool) : Mempool :=
  let tx := entry.transaction
  { entries := pool.entries.insert tx.txId entry
    accountTxCounts := pool.accountTxCounts.insert tx.sender
      (match pool.accountTxCounts[tx.sender]? with
        | some count => count + 1
        | none => 1)
    totalSize := pool.totalSize + entry.txSize }

/-- Add a transaction to the pool. What it replaces and evicts goes before the last check. -/
def addTransaction (order : IterOrder) (tx : Transaction)
    (priorityScore submittedAt accountNonce suggestedFee expectedChainId : UInt64) :
    EStateM OpolysError Mempool Unit := do
  ofExcept id (verifyTransactionForMempool P tx expectedChainId)
  ensure (minFee ≤ tx.fee) (.invalidTransaction s!"Fee {tx.fee} is below minimum fee {minFee}")
  let effMin := (← get).effectiveMinFee suggestedFee
  ensure (effMin ≤ tx.fee)
    (.invalidTransaction s!"Fee {tx.fee} below congestion minimum {effMin}")
  let txSize := serializedSize tx
  ensure (txSize ≤ txMaxSizeBytes)
    (.invalidTransaction s!"Transaction too large: {txSize} bytes")
  let senderCount := (← get).accountTxCounts.getD tx.sender 0
  ensure (senderCount < mempoolMaxTxsPerAccount)
    (.invalidTransaction s!"Too many transactions from account: {tx.sender.toHex}")
  -- the sum of two words wraps around, as in a release build
  ensure (tx.nonce ≤ accountNonce + maxNonceGap) (.invalidTransaction
    s!"Nonce gap too large: tx nonce {tx.nonce} vs account nonce {accountNonce}")
  ensure (tx.txId ∉ (← get).entries) (.invalidTransaction "Duplicate transaction")
  replace ((← get).findReplaced order tx) tx
  modify (makeRoom order txSize)
  ensure ((← get).totalSize + txSize ≤ mempoolMaxSizeBytes) .mempoolFull
  modify (insert { transaction := tx, priorityScore, txSize, submittedAt })

end Mempool

end Admission

end Opolys
