import Opolys.Consensus.Refiner

/-!
# Executing transactions

The dispatcher verifies a transaction, checks its nonce and fee, and runs the handler of
its action on the accounts and refiners. The ordinary fee is taken from the sender and
reported, so that the node can route it by the kind of the block. Bonding and unbonding
cost an assay on top, which is always burned.
-/

namespace Opolys

open Codec (FixedBytes)
open MachineInt (checkedAdd saturatingAdd saturatingMul128)
open Effect (check ensure require ofExcept within)

/-- The part of the node that transactions act on. -/
structure Ledger where
  accounts : AccountStore
  refiners : RefinerSet

/-- The outcome of a transaction. -/
structure ApplyResult where
  success : Bool
  /-- The ordinary fee, 0 on failure. -/
  feeCharged : FlakeAmount
  /-- The bond or unbond assay, 0 on failure. -/
  assayBurned : FlakeAmount
  error : Option String
deriving DecidableEq

namespace ApplyResult

def ok (feeCharged assayBurned : FlakeAmount) : ApplyResult :=
  { success := true, feeCharged, assayBurned, error := none }

def err (message : String) : ApplyResult :=
  { success := false, feeCharged := 0, assayBurned := 0, error := some message }

end ApplyResult

/-- What a transaction sees of its block. -/
structure ExecutionContext where
  blockHeight : UInt64
  blockTimestamp : UInt64
  totalIssuedFlakes : FlakeAmount

/-! ## Verification -/

section Verification

variable (P : Primitives)

/-- The identifier a transaction of this content must carry. -/
def computeTxId (sender : ObjectId) (action : TransactionAction) (fee : FlakeAmount)
    (nonce chainId : UInt64) : Except OpolysError ObjectId := do
  let data ← borshToVec "Transaction ID" (transactionContent sender action fee nonce chainId)
  return hashToObjectIdWithDomain P domainTxId data

/-- Chain id, identifier, key and signature of a transaction. -/
def verifyTransaction (tx : Transaction) (expectedChainId : UInt64) : Except OpolysError Unit := do
  check (tx.chainId = expectedChainId) (.invalidTransaction
    s!"Transaction chain_id {tx.chainId} does not match network chain_id {expectedChainId}")
  let expectedTxId ← computeTxId P tx.sender tx.action tx.fee tx.nonce tx.chainId
  check (tx.txId = expectedTxId) (.invalidTransaction
    s!"Transaction ID mismatch: expected {expectedTxId.toHex}, got {tx.txId.toHex}")
  check (tx.signatureType = signatureTypeEd25519) (.invalidTransaction
    s!"Unsupported signature type: {tx.signatureType} (only ed25519 = 0 is supported)")
  match FixedBytes.ofList? 32 tx.publicKey with
  | none => .error (.invalidTransaction
      s!"Invalid public key length: {tx.publicKey.length} bytes (expected 32 for ed25519)")
  | some pkBytes =>
    let derivedObjectId := ed25519PublicKeyToObjectId P pkBytes
    check (tx.sender = derivedObjectId) (.invalidTransaction
      (s!"Public key does not match sender: Blake3(pk)={derivedObjectId.toHex}, " ++
        s!"sender={tx.sender.toHex}"))
    let unsignedData ←
      transactionSigningPayload tx.sender tx.action tx.fee tx.nonce tx.chainId
    check (verifyEd25519 P tx.publicKey unsignedData tx.signature = true) .invalidSignature

end Verification

namespace TransactionDispatcher

/-! ## Assays -/

/-- The square root of a 128-bit number, rounded down. -/
def integerSqrtFloor (n : ℕ) : ℕ := if n < 2 then n else IntegerSqrt.newton n

/-- `amount * sqrt(pressure) / (6 * sqrt(active limit))`, where the pressure is a ratio. -/
def dynamicAssay (amount : FlakeAmount) (pressureNumerator pressureDenominator : ℕ)
    (activeRefinerLimit : ℕ) : FlakeAmount :=
  if amount = 0 ∨ pressureNumerator = 0 ∨ pressureDenominator = 0 then 0
  else
    let scale := flakesPerOpl.toNat
    let sqrtPressureScaled := integerSqrtFloor
      (saturatingMul128 (saturatingMul128 pressureNumerator scale) scale / pressureDenominator)
    let sqrtActiveLimitScaled := integerSqrtFloor
      (saturatingMul128 (saturatingMul128 activeRefinerLimit scale) scale)
    let denominator := saturatingMul128 decimalPlaces.toNat sqrtActiveLimitScaled
    if denominator = 0 then 0
    else UInt64.ofNatClamp (saturatingMul128 amount.toNat sqrtPressureScaled / denominator)

/-- The least bond of every refiner slot together. -/
def bondBaseline (totalIssuedFlakes : FlakeAmount) : ℕ :=
  (RefinerSet.minimumBondStake totalIssuedFlakes).toNat *
    RefinerSet.activeRefinerLimit totalIssuedFlakes

/-- The assay of a bond rises with the stake already bonded. -/
def bondAssay (amount : FlakeAmount) (refiners : RefinerSet) (totalIssuedFlakes : FlakeAmount) :
    FlakeAmount :=
  let bondedAfter := saturatingAdd refiners.totalBondedStake amount
  dynamicAssay amount bondedAfter.toNat (bondBaseline totalIssuedFlakes)
    (RefinerSet.activeRefinerLimit totalIssuedFlakes)

/-- The assay of an unbond falls with the stake still bonded. -/
def unbondAssay (amount : FlakeAmount) (refiners : RefinerSet)
    (totalIssuedFlakes : FlakeAmount) : FlakeAmount :=
  let totalBonded := refiners.totalBondedStake
  if totalBonded = 0 then 0
  else dynamicAssay amount (bondBaseline totalIssuedFlakes) totalBonded.toNat
    (RefinerSet.activeRefinerLimit totalIssuedFlakes)

def checkedAddAmounts (context : String) (a b : FlakeAmount) : Except String FlakeAmount :=
  match checkedAdd a b with
  | some sum => .ok sum
  | none => .error s!"{context} overflow: {a} + {b}"

def checkedTotalCost (context : String) (amount fee assay : FlakeAmount) :
    Except String FlakeAmount := do
  let amountPlusFee ← checkedAddAmounts context amount fee
  checkedAddAmounts context amountPlusFee assay

/-! ## Handlers -/

/-- Whether the sender can pay. A sender without account is left to the debit. -/
def canPay (ledger : Ledger) (sender : ObjectId) (amount : FlakeAmount) : Bool :=
  match ledger.accounts.getAccount sender with
  | some account => amount ≤ account.balance
  | none => true

/-- Advance the sender's nonce. -/
def advanceNonce (sender : ObjectId) (ledger : Ledger) : Ledger :=
  { ledger with accounts := ledger.accounts.update sender fun account =>
      { account with nonce := account.nonce + 1 } }

/-- Move an amount and report the fee. -/
def applyTransfer (tx : Transaction) (sender recipient : ObjectId) (amount : FlakeAmount) :
    EStateM String Ledger (FlakeAmount × FlakeAmount) := do
  let _ ← within Ledger.accounts (fun accounts ledger => { ledger with accounts })
    OpolysError.toString (AccountStore.transfer sender recipient amount tx.fee)
  return (tx.fee, 0)

/-- Keep the bonded set, or pay the cost back when the bond was refused. -/
def settleBond (sender : ObjectId) (totalNeeded : FlakeAmount) (bonded : Except String RefinerSet) :
    EStateM String Ledger Unit :=
  match bonded with
  | .ok refiners => modify fun ledger => { ledger with refiners }
  | .error message => do
    match (← get).accounts.credit sender totalNeeded with
    | .error refundError =>
      throw s!"Bond failed ({message}) and refund failed: {refundError.toString}"
    | .ok refunded =>
      modify fun ledger => { ledger with accounts := refunded }
      throw message

/-- Take stake, fee and assay from the sender and bond the stake. -/
def applyBond (tx : Transaction) (sender : ObjectId) (stake : FlakeAmount)
    (context : ExecutionContext) : EStateM String Ledger (FlakeAmount × FlakeAmount) := do
  let minimumBond := RefinerSet.minimumBondStake context.totalIssuedFlakes
  ensure (minimumBond ≤ stake)
    s!"Insufficient bond stake per entry: need {minimumBond}, got {stake}"
  let assay := bondAssay stake (← get).refiners context.totalIssuedFlakes
  let totalNeeded ← ofExcept id (checkedTotalCost "Bond cost" stake tx.fee assay)
  let balance := (← get).accounts.balanceOf sender
  ensure (canPay (← get) sender totalNeeded = true)
    s!"Insufficient balance for bond: need {totalNeeded}, have {balance}"
  let debited ← ofExcept OpolysError.toString ((← get).accounts.debit sender totalNeeded)
  modify fun ledger => { ledger with accounts := debited }
  settleBond sender totalNeeded ((← get).refiners.bond sender stake context.blockHeight
    context.blockTimestamp context.totalIssuedFlakes)
  modify (advanceNonce sender)
  return (tx.fee, assay)

/-- Queue the withdrawal and take fee and assay from the sender. -/
def applyUnbond (tx : Transaction) (sender : ObjectId) (amount : FlakeAmount)
    (context : ExecutionContext) : EStateM String Ledger (FlakeAmount × FlakeAmount) := do
  ensure (((← get).refiners.getRefiner sender).isSome = true) "Refiner not bonded"
  ensure (amount ≠ 0) "Unbond amount must be greater than zero"
  let maxAssay := unbondAssay amount (← get).refiners context.totalIssuedFlakes
  let totalFee ← ofExcept id (checkedAddAmounts "Unbond fee" tx.fee maxAssay)
  let balance := (← get).accounts.balanceOf sender
  ensure (canPay (← get) sender totalFee = true)
    s!"Insufficient balance for unbond fees: need {totalFee}, have {balance}"
  let (refiners, unbonded) ←
    ofExcept id ((← get).refiners.unbondAmount sender amount context.blockHeight)
  modify fun ledger => { ledger with refiners }
  ensure (unbonded ≠ 0) "No stake unbonded"
  modify fun ledger => { ledger with accounts := ledger.accounts.update sender fun account =>
    { account with balance := account.balance - totalFee } }
  modify (advanceNonce sender)
  return (tx.fee, maxAssay)

/-- The handler of a transaction's action. -/
def applyAction (tx : Transaction) (context : ExecutionContext) :
    EStateM String Ledger (FlakeAmount × FlakeAmount) :=
  match tx.action with
  | .transfer recipient amount => applyTransfer tx tx.sender recipient amount
  | .refinerBond amount => applyBond tx tx.sender amount context
  | .refinerUnbond amount => applyUnbond tx tx.sender amount context

/-- Store the key the sender has shown. -/
def rememberKey (tx : Transaction) (ledger : Ledger) : Ledger :=
  if tx.publicKey.isEmpty then ledger
  else { ledger with accounts := ledger.accounts.update tx.sender fun account =>
           { account with publicKey := some tx.publicKey } }

/-- Nonce checks, then the handler of the action, then the sender's key is stored. -/
def dispatch (P : Primitives) (tx : Transaction) (context : ExecutionContext)
    (expectedChainId : UInt64) : EStateM String Ledger (FlakeAmount × FlakeAmount) := do
  ofExcept OpolysError.toString (verifyTransaction P tx expectedChainId)
  ensure (minFee ≤ tx.fee)
    s!"Fee below minimum: need at least {minFee} flakes, got {tx.fee}"
  let account ← require ((← get).accounts.getAccount tx.sender)
    s!"Sender account not found: {tx.sender.toHex}"
  ensure (account.nonce = tx.nonce)
    s!"Invalid nonce: expected {account.nonce}, got {tx.nonce}"
  ensure ((checkedAdd account.nonce 1).isSome = true) "Nonce overflow"
  let charged ← applyAction tx context
  modify (rememberKey tx)
  return charged

/-- Execute a transaction. What a failing one has written stays. -/
def applyTransaction (P : Primitives) (tx : Transaction) (context : ExecutionContext)
    (expectedChainId : UInt64) (ledger : Ledger) : ApplyResult × Ledger :=
  match dispatch P tx context expectedChainId ledger with
  | .ok (feeCharged, assayBurned) ledger => (ApplyResult.ok feeCharged assayBurned, ledger)
  | .error message ledger => (ApplyResult.err message, ledger)

end TransactionDispatcher

end Opolys
