import Opolys.Consensus.Mempool
import Opolys.Crypto.Reference
import Opolys.Wallet.Signing

/-!
# What verification binds

The identifier of a transaction and the message its sender signs are made of sender, action,
fee, nonce and chain id. The key is bound by the sender, whose name is its hash. The attached
data is in none of them, so whoever passes a transaction on can put other data in its place.

* `verifyTransaction_eq_ok` : what a transaction must satisfy.
* `verified_agree` : two verified transactions of one identifier differ in signature and data only.
-/

namespace Opolys

open Codec (Borsh FixedBytes)
open Effect (bind_eq_ok check_eq_ok check_bind_eq_ok)

variable {P : Primitives} {tx tx' : Transaction} {chainId : UInt64}

/-- The message whose hash is the identifier of a transaction. -/
def txIdMessage (tx : Transaction) : List UInt8 :=
  domainTxId ++ Borsh.encode (transactionContent tx.sender tx.action tx.fee tx.nonce tx.chainId)

/-- The message under the identity of a public key. -/
def keyMessage (publicKey : List UInt8) : List UInt8 := domainObjectId ++ publicKey

/-- The message that a sender signs. -/
def signingMessage (tx : Transaction) : List UInt8 :=
  domainTxSignature ++
    Borsh.encode (transactionContent tx.sender tx.action tx.fee tx.nonce tx.chainId)

/-- What verification asks of a transaction. -/
structure Transaction.Verifies (P : Primitives) (tx : Transaction) (chainId : UInt64) : Prop where
  chainId_eq : tx.chainId = chainId
  txId_eq : tx.txId.hash = P.blake3 (txIdMessage tx)
  signatureType_eq : tx.signatureType = signatureTypeEd25519
  key : ∃ key : FixedBytes 32, key.bytes = tx.publicKey ∧
    tx.sender = ed25519PublicKeyToObjectId P key
  signature : verifyEd25519 P tx.publicKey (signingMessage tx) tx.signature = true

theorem computeTxId_eq (sender : ObjectId) (action : TransactionAction) (fee : FlakeAmount)
    (nonce chainId : UInt64) :
    computeTxId P sender action fee nonce chainId = .ok (hashToObjectIdWithDomain P domainTxId
      (Borsh.encode (transactionContent sender action fee nonce chainId))) := by
  unfold computeTxId
  rw [borshToVec_transactionContent]
  rfl

theorem computeMempoolTxId_eq (sender : ObjectId) (action : TransactionAction) (fee : FlakeAmount)
    (nonce chainId : UInt64) :
    computeMempoolTxId P sender action fee nonce chainId =
      .ok (hashToObjectIdWithDomain P domainTxId
        (Borsh.encode (transactionContent sender action fee nonce chainId))) := by
  unfold computeMempoolTxId
  rw [borshToVec_transactionContent]
  rfl

theorem transactionSigningPayload_eq (tx : Transaction) :
    transactionSigningPayload tx.sender tx.action tx.fee tx.nonce tx.chainId =
      .ok (signingMessage tx) := by
  unfold transactionSigningPayload
  rw [borshToVec_transactionContent]
  rfl

theorem verifyTransaction_eq_ok :
    verifyTransaction P tx chainId = .ok () ↔ tx.Verifies P chainId := by
  have hid : tx.txId = hashToObjectIdWithDomain P domainTxId
      (Borsh.encode (transactionContent tx.sender tx.action tx.fee tx.nonce tx.chainId)) ↔
        tx.txId.hash = P.blake3 (txIdMessage tx) :=
    ⟨fun h => congrArg ObjectId.hash h, fun h => ObjectId.ext h⟩
  unfold verifyTransaction
  rw [check_bind_eq_ok, computeTxId_eq, Effect.ok_bind, check_bind_eq_ok, check_bind_eq_ok, hid]
  constructor
  · rintro ⟨hchain, htxId, htype, h⟩
    split at h
    · cases h
    · rename_i key hkey
      dsimp only at h
      rw [check_bind_eq_ok, transactionSigningPayload_eq, Effect.ok_bind, check_eq_ok] at h
      exact ⟨hchain, htxId, htype, ⟨key, FixedBytes.bytes_of_ofList? hkey, h.1⟩, h.2⟩
  · rintro ⟨hchain, htxId, htype, ⟨key, hkey, hsender⟩, hsignature⟩
    refine ⟨hchain, htxId, htype, ?_⟩
    have hlist : FixedBytes.ofList? 32 tx.publicKey = some key := by
      rw [← hkey, FixedBytes.ofList?_bytes]
    rw [hlist]
    dsimp only
    rw [check_bind_eq_ok, transactionSigningPayload_eq, Effect.ok_bind, check_eq_ok]
    exact ⟨hsender, hsignature⟩

/-- The mempool verifies what the dispatcher verifies. -/
theorem verifyTransactionForMempool_eq_ok :
    verifyTransactionForMempool P tx chainId = .ok () ↔ tx.Verifies P chainId := by
  rw [← verifyTransaction_eq_ok]
  unfold verifyTransaction verifyTransactionForMempool
  rw [check_bind_eq_ok, check_bind_eq_ok, computeTxId_eq, computeMempoolTxId_eq, Effect.ok_bind,
    Effect.ok_bind, check_bind_eq_ok, check_bind_eq_ok, check_bind_eq_ok, check_bind_eq_ok]
  refine and_congr_right fun _ => and_congr_right fun _ => and_congr_right fun _ => ?_
  cases FixedBytes.ofList? 32 tx.publicKey with
  | none => simp
  | some key =>
    dsimp only
    rw [check_bind_eq_ok, check_bind_eq_ok]

theorem txId_of_verified (h : verifyTransaction P tx chainId = .ok ()) :
    tx.txId.hash = P.blake3 (txIdMessage tx) :=
  (verifyTransaction_eq_ok.mp h).txId_eq

/-! ## Two verified transactions -/

/-- The messages whose hashes name a transaction and its sender. -/
def Transaction.messages (tx : Transaction) : Set (List UInt8) :=
  {txIdMessage tx, keyMessage tx.publicKey}

/-- Other data does not concern verification. -/
theorem Transaction.Verifies.withData (h : tx.Verifies P chainId) (data : List UInt8) :
    ({ tx with data } : Transaction).Verifies P chainId :=
  ⟨h.chainId_eq, h.txId_eq, h.signatureType_eq, h.key, h.signature⟩

/-- Two verified transactions of one identifier differ at most in signature and data. -/
theorem verified_agree (h : verifyTransaction P tx chainId = .ok ())
    (h' : verifyTransaction P tx' chainId = .ok ()) (hid : tx.txId = tx'.txId)
    (hfree : CollisionFree P.blake3 (tx.messages ∪ tx'.messages)) :
    tx' = { tx with signature := tx'.signature, data := tx'.data } := by
  obtain ⟨hchain, htxId, htype, ⟨key, hkey, hsender⟩, -⟩ := verifyTransaction_eq_ok.mp h
  obtain ⟨hchain', htxId', htype', ⟨key', hkey', hsender'⟩, -⟩ := verifyTransaction_eq_ok.mp h'
  have hmessage : txIdMessage tx = txIdMessage tx' := by
    refine hfree _ (Or.inl (Or.inl rfl)) _ (Or.inr (Or.inl rfl)) ?_
    rw [← htxId, ← htxId', hid]
  have hcontent := Borsh.encode_inj rfl rfl (List.append_cancel_left hmessage)
  simp only [transactionContent, Prod.mk.injEq] at hcontent
  obtain ⟨hsame, haction, hfee, hnonce, -⟩ := hcontent
  have hpk : keyMessage tx.publicKey = keyMessage tx'.publicKey := by
    refine hfree _ (Or.inl (Or.inr rfl)) _ (Or.inr (Or.inr rfl)) ?_
    rw [← hkey, ← hkey']
    exact congrArg ObjectId.hash (hsender.symm.trans (hsame.trans hsender'))
  refine Transaction.ext hid.symm hsame.symm haction.symm hfee.symm rfl
    (htype'.trans htype.symm) hnonce.symm (hchain'.trans hchain.symm) rfl ?_
  exact (List.append_cancel_left hpk).symm

namespace Reference

/-- A transaction the wallet has signed. -/
def bidding (nonce : UInt64) (fee : FlakeAmount) : Transaction :=
  match TransactionSigner.create primitives (FixedBytes.fill 32 1) (.refinerBond 1000000) fee nonce
    mainnetChainId with
  | .ok tx => tx
  | .error _ => ⟨ObjectId.zero, ObjectId.zero, .refinerBond 0, 0, [], 0, 0, 0, [], []⟩

def plain : Transaction := bidding 0 10

/-- The same transaction with more data than a block may hold. -/
def loaded : Transaction := { plain with data := List.replicate 1025 0 }

theorem verifies_plain : plain.Verifies primitives mainnetChainId :=
  verifyTransaction_eq_ok.mp
    (verifyTransaction_create rfl (verify_sign (FixedBytes.fill 32 1)) rfl)

theorem collisionFree_plain :
    CollisionFree primitives.blake3 (plain.messages ∪ loaded.messages) := by
  have hne : primitives.blake3 (txIdMessage plain) ≠
      primitives.blake3 (keyMessage plain.publicKey) := by decide +kernel
  have hsame : loaded.messages = plain.messages := rfl
  rw [hsame, Set.union_self]
  rintro a (rfl | rfl) b (rfl | rfl) heq
  · rfl
  · exact absurd heq hne
  · exact absurd heq.symm hne
  · rfl

end Reference

open Reference

theorem verified_agree_of_reference :
    loaded = { plain with signature := loaded.signature, data := loaded.data } :=
  verified_agree (verifyTransaction_eq_ok.mpr verifies_plain)
    (verifyTransaction_eq_ok.mpr (verifies_plain.withData _)) rfl collisionFree_plain

/-- On its way a transaction can get data that its sender has not attached, and too much of it
for a block. -/
theorem data_not_bound :
    CollisionFree primitives.blake3 (plain.messages ∪ loaded.messages) ∧
      verifyTransaction primitives plain mainnetChainId = .ok () ∧
      verifyTransaction primitives loaded mainnetChainId = .ok () ∧
      plain.txId = loaded.txId ∧ loaded ≠ { plain with signature := loaded.signature } ∧
      plain.data.length ≤ maxTxDataSizeBytes ∧ maxTxDataSizeBytes < loaded.data.length := by
  have hlength : loaded.data.length = 1025 := List.length_replicate
  have hempty : plain.data.length = 0 := rfl
  have hlimit : maxTxDataSizeBytes = 1024 := rfl
  refine ⟨collisionFree_plain, verifyTransaction_eq_ok.mpr verifies_plain,
    verifyTransaction_eq_ok.mpr (verifies_plain.withData _), rfl, fun heq => ?_, by omega, by omega⟩
  have hdata := congrArg (fun tx => tx.data.length) heq
  dsimp only at hdata
  omega

end Opolys
