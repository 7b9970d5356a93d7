import Opolys.Node.Network

/-!
# The JSON-RPC server

The server shares the ledger and the mempool with the node. Of the chain it has a snapshot,
which it renews some time after a block has been applied. The handlers are modelled up to the
text of their answers.

* `OpolysNode.handleSendTransaction` : a transaction that is sent to the server.
* `OpolysNode.handleGetTransaction` : what the server says of a transaction.
-/

namespace Opolys

/-- What the server knows of the chain. -/
structure ChainInfo where
  height : BlockHeight
  difficulty : UInt64
  totalIssued : FlakeAmount
  latestBlockHash : Hash
  stateRoot : Hash
  blockTimestamps : List UInt64
  suggestedFee : FlakeAmount
  finalizedHeight : BlockHeight

/-- The snapshot of a chain. -/
def chainStateToInfo (chain : ChainState) : ChainInfo where
  height := chain.currentHeight
  difficulty := chain.currentDifficulty
  totalIssued := chain.totalIssued
  latestBlockHash := chain.latestBlockHash
  stateRoot := chain.stateRoot
  blockTimestamps := chain.blockTimestamps
  suggestedFee := chain.suggestedFee
  finalizedHeight := chain.finalizedHeight

/-- What a request reads besides the node. -/
structure RpcEnv where
  /-- Unix seconds. -/
  nowSecs : UInt64
  /-- The order of the mempool's map. -/
  order : IterOrder
  /-- The suggested fee of the snapshot. -/
  suggestedFee : FlakeAmount

/-- Why the server refuses a transaction. -/
inductive SendError where
  | malformed
  | tooLarge (length : ℕ)
  | invalid (e : OpolysError)
  | mempoolRejected (e : OpolysError)

/-- What the server says of a transaction. -/
inductive TransactionStatus where
  | pending
  | confirmed (blockHeight : UInt64)
deriving DecidableEq

variable (P : Primitives)

/-- Decode and verify the bytes of a transaction. -/
def decodeVerifiedRpcTransaction (data : Payload Transaction) :
    Except SendError (Transaction × ℕ) := do
  Effect.check (data.length ≤ txMaxSizeBytes) (.tooLarge data.length)
  match data with
  | .malformed _ => .error .malformed
  | .encoded tx =>
    match verifyTransaction P tx mainnetChainId with
    | .error e => .error (.invalid e)
    | .ok () => return (tx, data.length)

/-- The fee for every million bytes. -/
def rpcPriority (fee : FlakeAmount) (txSize : ℕ) : UInt64 :=
  UInt64.ofNat (min (fee.toNat * 1000000 / max txSize 1) (UInt64.size - 1))

namespace OpolysNode

/-- The nonce of an account, 0 if there is none. -/
def accountNonce (node : OpolysNode) (sender : ObjectId) : UInt64 :=
  match node.accounts.getAccount sender with
  | none => 0
  | some account => account.nonce

/-- Add a transaction to the mempool. The id and the fee are answered. -/
def handleSendTransaction (env : RpcEnv) (data : Payload Transaction) :
    EStateM SendError OpolysNode (ObjectId × FlakeAmount) := do
  let (tx, txSize) ← Effect.ofExcept id (decodeVerifiedRpcTransaction P data)
  let priority := rpcPriority tx.fee txSize
  let accountNonce := (← get).accountNonce tx.sender
  Effect.within OpolysNode.mempool (fun mempool node => { node with mempool })
    SendError.mempoolRejected
    (Mempool.addTransaction P env.order tx priority env.nowSecs accountNonce env.suggestedFee
      mainnetChainId)
  return (tx.txId, tx.fee)

/-- The node after a request. -/
def sendTransaction (env : RpcEnv) (data : Payload Transaction) (node : OpolysNode) :
    OpolysNode :=
  Effect.leaves (handleSendTransaction P env data) node

/-- A transaction by id, from the mempool or else from the database. -/
def handleGetTransaction (node : OpolysNode) (txId : ObjectId) :
    Option (Transaction × TransactionStatus) :=
  match node.mempool.entries[txId]? with
  | some entry => some (entry.transaction, .pending)
  | none =>
    match node.store with
    | none => none
    | some store =>
      match store.loadTransaction txId with
      | some (blockHeight, tx) => some (tx, .confirmed blockHeight)
      | none => none

end OpolysNode

end Opolys
