import Opolys.Execution.Dispatcher

/-!
# Signing transactions

The wallet builds a transaction from its key and a nonce: it hashes the content to the
identifier and signs it. What it builds passes the verification of the dispatcher.
-/

namespace Opolys

open Codec (FixedBytes Borsh)
open Effect (bind_eq_ok check_eq_ok check_bind_eq_ok)

variable (P : Primitives)

namespace TransactionSigner

/-- Sign a transaction of any action. -/
def create (seed : FixedBytes 32) (action : TransactionAction) (fee : FlakeAmount)
    (nonce chainId : UInt64) : Except OpolysError Transaction := do
  let sender := ed25519PublicKeyToObjectId P (P.verifyingKey seed)
  let txId ← computeTxId P sender action fee nonce chainId
  let unsignedData ← transactionSigningPayload sender action fee nonce chainId
  return {
    txId, sender, action, fee, nonce, chainId
    signature := (P.sign seed unsignedData).bytes
    signatureType := signatureTypeEd25519
    data := []
    publicKey := (P.verifyingKey seed).bytes }

def createTransfer (seed : FixedBytes 32) (recipient : ObjectId) (amount fee : FlakeAmount)
    (nonce chainId : UInt64) : Except OpolysError Transaction :=
  create P seed (.transfer recipient amount) fee nonce chainId

def createRefinerBond (seed : FixedBytes 32) (amount fee : FlakeAmount) (nonce chainId : UInt64) :
    Except OpolysError Transaction :=
  create P seed (.refinerBond amount) fee nonce chainId

def createRefinerUnbond (seed : FixedBytes 32) (amount fee : FlakeAmount)
    (nonce chainId : UInt64) : Except OpolysError Transaction :=
  create P seed (.refinerUnbond amount) fee nonce chainId

end TransactionSigner

variable {P}

/-- The content of a transaction always has an encoding. -/
theorem borshToVec_transactionContent (what : String) (sender : ObjectId)
    (action : TransactionAction) (fee : FlakeAmount) (nonce chainId : UInt64) :
    borshToVec what (transactionContent sender action fee nonce chainId) =
      .ok (Borsh.encode (transactionContent sender action fee nonce chainId)) :=
  borshToVec_eq_ok.mpr (Borsh.toVec_eq_some.mpr ⟨rfl, rfl⟩)

/-- A transaction the wallet has signed passes verification on the network it is for. -/
theorem verifyTransaction_create {seed : FixedBytes 32} {action : TransactionAction}
    {fee : FlakeAmount} {nonce chainId : UInt64} {tx : Transaction}
    (hkey : P.verifyingKeyOk (P.verifyingKey seed) = true)
    (hverify : ∀ msg, P.verify (P.verifyingKey seed) msg (P.sign seed msg) = true)
    (h : TransactionSigner.create P seed action fee nonce chainId = .ok tx) :
    verifyTransaction P tx chainId = .ok () := by
  unfold TransactionSigner.create at h
  obtain ⟨txId, hid, h⟩ := bind_eq_ok.mp h
  obtain ⟨payload, hpayload, h⟩ := bind_eq_ok.mp h
  cases h
  unfold verifyTransaction
  rw [check_bind_eq_ok, bind_eq_ok]
  refine ⟨rfl, txId, hid, ?_⟩
  rw [check_bind_eq_ok, check_bind_eq_ok]
  refine ⟨rfl, rfl, ?_⟩
  rw [FixedBytes.ofList?_bytes]
  dsimp only
  rw [check_bind_eq_ok, bind_eq_ok]
  refine ⟨rfl, payload, hpayload, check_eq_ok.mpr ?_⟩
  exact verifyEd25519_eq_true.mpr ⟨_, _, rfl, rfl, hkey, hverify payload⟩

end Opolys
