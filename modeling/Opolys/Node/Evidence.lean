import Opolys.Node.State

/-!
# Evidence and attestations

What refiners have signed comes back in two forms: evidence that one of them signed two
blocks, which burns its stake, and attestations of refined blocks, which finalize a height
once two thirds of the active weight have attested it.
-/

namespace Opolys

open Std (ExtTreeMap ExtTreeSet)
open Codec (FixedBytes)
open MachineInt (saturatingSub saturatingAdd128)
open Effect (check)

variable (P : Primitives)

/-! ## Double-sign evidence -/

/-- Whether evidence is genuine: the hashes differ, the key belongs to the producer, and
it has signed both. -/
def verifySlashEvidence (evidence : DoubleSignEvidence) : Bool :=
  if evidence.hashA = evidence.hashB then false
  else
    match FixedBytes.ofList? 32 evidence.producerPubkey with
    | none => false
    | some pkArr =>
      if ed25519PublicKeyToObjectId P pkArr ≠ evidence.producer then false
      else
        let payloadA := refinerBlockSigningPayload evidence.hashA
        let payloadB := refinerBlockSigningPayload evidence.hashB
        verifyEd25519 P evidence.producerPubkey payloadA evidence.signatureA &&
          verifyEd25519 P evidence.producerPubkey payloadB evidence.signatureB

/-- Drop accepted evidence from a pool. -/
def removeAcceptedSlashEvidence (accepted pending : List DoubleSignEvidence) :
    List DoubleSignEvidence :=
  pending.filter fun candidate => candidate ∉ accepted

/-- Add evidence to a pool that does not hold it. -/
def queueSlashEvidence (evidenceItems pending : List DoubleSignEvidence) :
    List DoubleSignEvidence :=
  evidenceItems.foldl (fun pending evidence =>
    if evidence ∈ pending then pending else pending ++ [evidence]) pending

/-! ## Attestations -/

/-- Key, target, status and signature of an attestation. -/
def verifyBlockAttestationAgainstRefiners (attestation : BlockAttestation)
    (canonicalHash : Hash) (refiners : RefinerSet) : Except String Unit :=
  match FixedBytes.ofList? 32 attestation.refinerPubkey with
  | none => .error "Attestation public key must be 32 bytes"
  | some pkArr => do
    check (attestation.signature.length = 64) "Attestation signature must be 64 bytes"
    check (attestation.blockHash = canonicalHash) "Attestation block hash is not canonical"
    check (ed25519PublicKeyToObjectId P pkArr = attestation.refiner)
      "Attestation public key does not match refiner ObjectId"
    match refiners.getRefiner attestation.refiner with
    | none => .error "Attestation refiner is not bonded"
    | some refiner => do
      check (refiner.status = .active) "Attestation refiner is not active"
      let payload := blockAttestationSigningPayload attestation.height attestation.blockHash
      check (verifyEd25519 P attestation.refinerPubkey payload attestation.signature = true)
        "Attestation signature verification failed"

/-- Two thirds of the active weight, rounded up. -/
def activeRefinerWeightMilliThreshold (refiners : RefinerSet) (timestamp : UInt64) : ℕ :=
  let totalActiveWeight := ((refiners.allRefiners.filter fun r => r.status = .active).map
    fun r => (r.weight timestamp).toNat).sum
  (totalActiveWeight * finalityConfidenceMilli.toNat + 999) / 1000

/-- The greatest height above the finalized one whose weight reaches the threshold. -/
def finalizedHeightFromAttestationWeights (currentFinalizedHeight : UInt64)
    (finalityWeights : ExtTreeMap UInt64 ℕ) (finalityThreshold : ℕ) : UInt64 :=
  if finalityThreshold = 0 then currentFinalizedHeight
  else
    let heights := (finalityWeights.toList.filter fun entry =>
      currentFinalizedHeight < entry.1 ∧ finalityThreshold ≤ entry.2).map Prod.fst
    heights.foldl max currentFinalizedHeight

/-- The weight of those attesters that are active. -/
def indexedAttestationWeightForRefiners (attestingRefiners : ExtTreeSet ObjectId)
    (refiners : RefinerSet) (timestamp : UInt64) : ℕ :=
  ((attestingRefiners.toList.filterMap refiners.getRefiner).filter fun r =>
    r.status = .active).foldl
      (fun weight r => saturatingAdd128 weight (r.weight timestamp).toNat) 0

/-- Forget attested blocks that are final or more than an epoch old. -/
def pruneAttestationFinalityIndex (chain : ChainState) : ChainState :=
  let minLiveHeight := saturatingSub chain.currentHeight epoch
  let attestationFinalityRefiners := chain.attestationFinalityRefiners.filter fun key _ =>
    chain.finalizedHeight < key.1 ∧ minLiveHeight ≤ key.1
  { chain with attestationFinalityRefiners }

end Opolys
