import Opolys.Crypto.Hash
import Opolys.Consensus.Emission

/-!
# Proof of work

A mined block carries a nonce under which the EVO-OMAP hash of its header starts with as
many zero bits as its difficulty. The header is written out little endian for this hash,
and the memory dataset is seeded with the chain id and the parent hash.

The hash is read in two ways: the verifier counts leading zero bits from the first byte,
and the vein yield takes the first eight bytes as a little-endian word.
-/

namespace Opolys

open Codec (FixedBytes leBytes ofLeBytes)

/-- The header bytes the proof of work is computed over. -/
def serializeHeaderForPow (header : BlockHeader) : List UInt8 :=
  leBytes 4 header.version.toNat ++ leBytes 8 header.height.toNat ++
    header.previousHash.bytes ++ header.stateRoot.bytes ++ header.transactionRoot.bytes ++
    header.evidenceRoot.bytes ++ header.attestationRoot.bytes ++
    header.genesisCeremonyHash.bytes ++ leBytes 8 header.timestamp.toNat ++
    leBytes 8 header.difficulty.toNat ++ leBytes 8 header.suggestedFee.toNat ++
    match header.extensionRoot with
    | some extRoot => extRoot.bytes
    | none => []

/-- The seed of the memory dataset: chain id and parent hash. -/
def epochSeedMaterial (header : BlockHeader) : List UInt8 :=
  leBytes 8 mainnetChainId.toNat ++ header.previousHash.bytes

/-! ## The acceptance rule -/

/-- The bits of a byte, most significant first. -/
def bitsOfByte (b : UInt8) : List UInt8 :=
  (List.range 8).reverse.map fun i => (b >>> UInt8.ofNat i) &&& 1

/-- The number of zero bits at the front of a string of bytes. -/
def leadingZeroBits (bytes : List UInt8) : ℕ :=
  ((bytes.flatMap bitsOfByte).takeWhile fun bit => bit = 0).length

variable (P : Primitives)

/-- The verifier of the mining algorithm. -/
def verifyLight (headerBytes : List UInt8) (height nonce difficulty : UInt64)
    (seedMaterial : List UInt8) : Bool :=
  if difficulty = 0 then false
  else difficulty.toNat ≤ leadingZeroBits
    (P.evoOmapHash headerBytes height nonce seedMaterial).bytes

/-- The nonce in a proof of eight bytes, least significant first. -/
def nonceOfProof (powProof : Option (List UInt8)) : Option UInt64 :=
  match powProof with
  | none => none
  | some nonceBytes =>
    if nonceBytes.length = 8 then some (UInt64.ofNat (ofLeBytes nonceBytes)) else none

/-- The EVO-OMAP hash of a header under a nonce. -/
def powHash (header : BlockHeader) (nonce : UInt64) : FixedBytes 32 :=
  P.evoOmapHash (serializeHeaderForPow header) header.height nonce (epochSeedMaterial header)

/-- Check the proof of a header against a difficulty. -/
def verifyPowLight (header : BlockHeader) (difficulty : UInt64) : Except OpolysError Unit :=
  if difficulty = 0 then .error .invalidProofOfWork
  else
    match nonceOfProof header.powProof with
    | none => .error .invalidProofOfWork
    | some nonce =>
      if verifyLight P (serializeHeaderForPow header) header.height nonce difficulty
        (epochSeedMaterial header) then .ok () else .error .invalidProofOfWork

/-- The first eight bytes of the hash as a little-endian word. -/
def computePowHashValue (header : BlockHeader) : Option UInt64 :=
  match nonceOfProof header.powProof with
  | none => none
  | some nonce => some (UInt64.ofNat (ofLeBytes ((powHash P header nonce).bytes.take 8)))

variable {P}

/-- A proof is accepted exactly when it holds a nonce whose hash has the zero bits. -/
theorem verifyPowLight_eq_ok {header : BlockHeader} {difficulty : UInt64} :
    verifyPowLight P header difficulty = .ok () ↔ difficulty ≠ 0 ∧
      ∃ nonce, nonceOfProof header.powProof = some nonce ∧
        difficulty.toNat ≤ leadingZeroBits (powHash P header nonce).bytes := by
  unfold verifyPowLight verifyLight powHash
  by_cases h0 : difficulty = 0
  · simp [h0]
  · cases nonceOfProof header.powProof <;> simp [h0]

theorem length_bitsOfByte (b : UInt8) : (bitsOfByte b).length = 8 := by
  simp [bitsOfByte]

/-- A string of bytes cannot start with more zero bits than it has bits. -/
theorem leadingZeroBits_le (bytes : List UInt8) : leadingZeroBits bytes ≤ 8 * bytes.length := by
  refine (List.takeWhile_prefix _).length_le.trans ?_
  rw [List.length_flatMap, List.map_congr_left fun b _ => length_bitsOfByte b]
  simp [Nat.mul_comm]

/-- An accepted difficulty is at most the number of bits of the hash. -/
theorem difficulty_le_of_verifyPowLight {header : BlockHeader} {difficulty : UInt64}
    (h : verifyPowLight P header difficulty = .ok ()) : difficulty.toNat ≤ 256 := by
  obtain ⟨_, nonce, _, hle⟩ := verifyPowLight_eq_ok.mp h
  have := leadingZeroBits_le (powHash P header nonce).bytes
  rw [FixedBytes.length_bytes] at this
  omega

end Opolys
