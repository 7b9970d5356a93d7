import Opolys.Core.Types
import Mathlib.Data.List.Nodup

/-!
# Hashing and signing

The cryptography of the chain. Blake3, ed25519 and the EVO-OMAP hash come from libraries
and are the fields of `Primitives`; every result about the node holds for all of them.
What the chain adds is which bytes it hashes and signs: each use has its own domain tag
in front, and structured data follows in Borsh.

* `hashWithDomain`, `ed25519PublicKeyToObjectId` : hashes and identities.
* `transactionSigningPayload`, `refinerBlockSigningPayload`,
  `blockAttestationSigningPayload` : the three kinds of signed message.
* `CollisionFree` : no two of the given messages share a hash.
-/

namespace Opolys

open Codec (FixedBytes Borsh beBytes)

/-! ## Primitives -/

/-- The functions the node takes from its cryptographic libraries. -/
structure Primitives where
  /-- Blake3 with 32 bytes of output. -/
  blake3 : List UInt8 → Hash
  /-- Whether 32 bytes encode a point of the curve. -/
  verifyingKeyOk : FixedBytes 32 → Bool
  /-- Ed25519 verification under a key, a message and a signature. -/
  verify : FixedBytes 32 → List UInt8 → FixedBytes 64 → Bool
  /-- The strict ed25519 verification, which rejects weak keys too. -/
  verifyStrict : FixedBytes 32 → List UInt8 → FixedBytes 64 → Bool
  /-- The public key of a secret seed. -/
  verifyingKey : FixedBytes 32 → FixedBytes 32
  /-- Ed25519 signing with a secret seed. -/
  sign : FixedBytes 32 → List UInt8 → FixedBytes 64
  /-- The EVO-OMAP hash of header bytes, height, nonce and epoch seed material. -/
  evoOmapHash : List UInt8 → UInt64 → UInt64 → List UInt8 → FixedBytes 32

/-- No two different messages of `msgs` have the same hash. -/
def CollisionFree (hash : List UInt8 → Hash) (msgs : Set (List UInt8)) : Prop :=
  ∀ a ∈ msgs, ∀ b ∈ msgs, hash a = hash b → a = b

theorem CollisionFree.mono {hash : List UInt8 → Hash} {msgs msgs' : Set (List UInt8)}
    (h : CollisionFree hash msgs') (hsub : msgs ⊆ msgs') : CollisionFree hash msgs :=
  fun a ha b hb he => h a (hsub ha) b (hsub hb) he

theorem collisionFree_of_nodup {hash : List UInt8 → Hash} {msgs : List (List UInt8)}
    (h : (msgs.map hash).Nodup) : CollisionFree hash {m | m ∈ msgs} :=
  fun _ ha _ hb he => List.inj_on_of_nodup_map h ha hb he

/-! ## Domains -/

/-- The bytes of a domain tag. -/
def tag (s : String) : List UInt8 := s.toUTF8.toList

def domainTxId : List UInt8 := tag "OPL_TX_ID_V1"

def domainBlockHash : List UInt8 := tag "OPL_BLOCK_HASH_V1"

def domainObjectId : List UInt8 := tag "OPL_OBJECT_ID_V1"

def domainStateRoot : List UInt8 := tag "OPL_STATE_ROOT_V1"

def domainTxRoot : List UInt8 := tag "OPL_TX_ROOT_V1"

def domainEvidenceRoot : List UInt8 := tag "OPL_EVIDENCE_ROOT_V1"

def domainAttestationRoot : List UInt8 := tag "OPL_ATTESTATION_ROOT_V1"

def domainGenesisCeremonyHash : List UInt8 := tag "OPL_GENESIS_CEREMONY_V1"

def domainTxSignature : List UInt8 := tag "OPL_TX_V1"

def domainRefinerBlockSignature : List UInt8 := tag "OPL_REF_BLOCK_V1"

def domainBlockAttestationSignature : List UInt8 := tag "OPL_BLOCK_ATTEST_V1"

/-! ## Hashes -/

variable (P : Primitives)

/-- The hash of `data` under a domain tag. -/
def hashWithDomain (domain data : List UInt8) : Hash := P.blake3 (domain ++ data)

/-- The hash of `data` under a domain tag, as an identifier. -/
def hashToObjectIdWithDomain (domain data : List UInt8) : ObjectId :=
  ⟨hashWithDomain P domain data⟩

/-- The identity that belongs to a public key. -/
def ed25519PublicKeyToObjectId (publicKey : FixedBytes 32) : ObjectId :=
  hashToObjectIdWithDomain P domainObjectId publicKey.bytes

/-! ## Signatures -/

/-- Whether `signature` is a signature of `message` under `publicKey`. Keys and
signatures of the wrong length are refused. -/
def verifyEd25519 (publicKey message signature : List UInt8) : Bool :=
  match FixedBytes.ofList? 32 publicKey, FixedBytes.ofList? 64 signature with
  | some pk, some sig => P.verifyingKeyOk pk && P.verify pk message sig
  | _, _ => false

variable {P} in
theorem verifyEd25519_eq_true {publicKey message signature : List UInt8} :
    verifyEd25519 P publicKey message signature = true ↔
      ∃ pk : FixedBytes 32, ∃ sig : FixedBytes 64, pk.bytes = publicKey ∧
        sig.bytes = signature ∧ P.verifyingKeyOk pk = true ∧
          P.verify pk message sig = true := by
  constructor
  · intro h
    unfold verifyEd25519 at h
    split at h
    · rename_i pk sig hpk hsig
      rw [Bool.and_eq_true] at h
      exact ⟨pk, sig, FixedBytes.bytes_of_ofList? hpk, FixedBytes.bytes_of_ofList? hsig, h⟩
    · cases h
  · rintro ⟨pk, sig, rfl, rfl, hok, hver⟩
    rw [verifyEd25519, FixedBytes.ofList?_bytes, FixedBytes.ofList?_bytes]
    exact Bool.and_eq_true_iff.mpr ⟨hok, hver⟩

/-- The part of a transaction that its identifier and its signature commit to. -/
def transactionContent (sender : ObjectId) (action : TransactionAction) (fee : FlakeAmount)
    (nonce chainId : UInt64) : ObjectId × TransactionAction × UInt64 × UInt64 × UInt64 :=
  (sender, action, fee, nonce, chainId)

/-- The bytes a wallet signs for a transaction. -/
def transactionSigningPayload (sender : ObjectId) (action : TransactionAction)
    (fee : FlakeAmount) (nonce chainId : UInt64) : Except OpolysError (List UInt8) := do
  let txBytes ← borshToVec "Transaction signing payload"
    (transactionContent sender action fee nonce chainId)
  return domainTxSignature ++ txBytes

/-- The bytes a refiner signs when it produces a block. -/
def refinerBlockSigningPayload (blockHash : Hash) : List UInt8 :=
  domainRefinerBlockSignature ++ blockHash.bytes

/-- The bytes a refiner signs when it attests a block. -/
def blockAttestationSigningPayload (height : BlockHeight) (blockHash : Hash) : List UInt8 :=
  domainBlockAttestationSignature ++ (beBytes 8 height.toNat ++ blockHash.bytes)

theorem refinerBlockSigningPayload_injective : Function.Injective refinerBlockSigningPayload :=
  fun _ _ h => FixedBytes.bytes_injective (List.append_cancel_left h)

end Opolys
