import Opolys.Node.Evidence
import Opolys.Node.ApplyBlock

/-!
# The pool of attestations

Refiners attest refined blocks between themselves, and a node collects what it hears until it
builds a block. An attestation is checked when it arrives, is kept for an epoch, and leaves the
pool for the next block that the node builds.
-/

namespace Opolys

open Std (ExtTreeMap)
open Codec (FixedBytes)
open MachineInt (saturatingSub)
open Effect (Ends ofExcept)

variable (P : Primitives)

namespace OpolysNode

/-- Attest a block that the node has accepted, if the node is an active refiner. -/
def createBlockAttestation (node : OpolysNode) (height : UInt64) (blockHash : Hash) :
    Option BlockAttestation := do
  let seed ← node.signingKey
  let refiner ← node.refiners.getRefiner node.minerId
  if refiner.status ≠ .active then none
  else
    let store ← node.store
    let block ← store.loadBlock height
    if computeBlockHash P block.header ≠ blockHash then none
    else if block.header.refinerSignature.isNone || block.header.powProof.isSome then none
    else
      let payload := blockAttestationSigningPayload height blockHash
      some {
        refiner := node.minerId
        refinerPubkey := (P.verifyingKey seed).bytes
        height, blockHash
        signature := (P.sign seed payload).bytes }

/-- What has to hold of an attestation before it is stored. -/
def checkPendingAttestation (attestation : BlockAttestation) (node : OpolysNode) :
    Except String Unit :=
  match FixedBytes.ofList? 32 attestation.refinerPubkey with
  | none => .error "Attestation public key must be 32 bytes"
  | some pkArr => do
    Effect.check (attestation.signature.length = 64) "Attestation signature must be 64 bytes"
    Effect.check (ed25519PublicKeyToObjectId P pkArr = attestation.refiner)
      "Attestation public key does not match refiner ObjectId"
    match node.refiners.getRefiner attestation.refiner with
    | none => .error "Attestation refiner is not bonded"
    | some refiner => do
      Effect.check (refiner.status = .active) "Attestation refiner is not active"
      match node.store with
      | none => .error "Cannot verify attestation without storage"
      | some store =>
        match store.loadBlock attestation.height with
        | none => .error "Attested block is not known locally"
        | some canonicalBlock => do
          Effect.check (canonicalBlock.header.refinerSignature.isSome &&
              canonicalBlock.header.powProof.isNone)
            "Attestation target must be a refiner-produced block"
          Effect.check (computeBlockHash P canonicalBlock.header = attestation.blockHash)
            "Attestation block hash is not canonical"
          let payload := blockAttestationSigningPayload attestation.height attestation.blockHash
          Effect.check
            (verifyEd25519 P attestation.refinerPubkey payload attestation.signature = true)
            "Attestation signature verification failed"

/-- The attestations that are not too old for the next block. -/
def retainPending (minHeight : UInt64) (node : OpolysNode) : OpolysNode :=
  { node with pendingAttestations := node.pendingAttestations.filter fun key _ =>
      minHeight ≤ key.1 }

/-- Verify and store an attestation. It returns whether the attestation was new. -/
def acceptBlockAttestation (attestation : BlockAttestation) : NodeM Bool := do
  ofExcept id (checkPendingAttestation P attestation (← get))
  modify fun node => node.retainPending (saturatingSub node.chain.currentHeight epoch)
  let key := (attestation.height, attestation.refiner)
  if key ∈ (← get).pendingAttestations then
    return false
  else
    modify fun node => { node with
      pendingAttestations := node.pendingAttestations.insert key attestation }
    return true

/-- The pool after an attestation has arrived, whether it was stored or not. -/
def hearAttestation (node : OpolysNode) (attestation : BlockAttestation) : OpolysNode :=
  match acceptBlockAttestation P attestation node with
  | .ok _ node' => node'
  | .error _ node' => node'

variable {P}

/-- Whether it is stored or not, an attestation touches nothing but the pool. -/
theorem acceptBlockAttestation_ends (attestation : BlockAttestation) (node : OpolysNode) :
    Ends (acceptBlockAttestation P attestation) node
      (fun _ node' => ∃ pendingAttestations, node' = { node with pendingAttestations })
      (fun _ node' => node' = node) := by
  unfold acceptBlockAttestation
  refine Ends.get_bind (Ends.ofExcept_bind (fun _ _ => rfl) fun _ _ => ?_)
  refine Ends.modify_bind (Ends.get_bind ?_)
  split
  · exact Ends.pure ⟨_, rfl⟩
  · exact Ends.modify_bind (f := fun _ => pure true) (Ends.pure ⟨_, rfl⟩)

theorem hearAttestation_eq (node : OpolysNode) (attestation : BlockAttestation) :
    ∃ pendingAttestations, node.hearAttestation P attestation =
      { node with pendingAttestations } := by
  have hends := acceptBlockAttestation_ends (P := P) attestation node
  unfold hearAttestation
  split <;> rename_i hrun
  · exact hends.ok hrun
  · exact ⟨node.pendingAttestations, hends.error hrun⟩

end OpolysNode

end Opolys
