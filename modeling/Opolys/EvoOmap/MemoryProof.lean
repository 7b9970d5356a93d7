import Opolys.Crypto.Hash
import Opolys.EvoOmap.Hash

/-!
# Proofs about the memory

The hash of the proof of work commits to the dataset as it leaves it, by the root of a Merkle tree
over its nodes. A proof shows a node of the dataset to someone who only knows the root.

* `buildMemoryMerkleProof`, `verifyMemoryMerkleProof` : making and checking a proof.
* `memory_proofs` : every node has a proof, and only the nodes of the dataset do.
-/

namespace Opolys

namespace EvoOmap

open Codec (FixedBytes leBytes)
open Merkle (Sibling)

variable (H : Hashes)

structure MemoryMerkleProof where
  leafIndex : UInt64
  siblings : List (Sibling (FixedBytes 32))

theorem length_memoryLeaves (nodes : Vector Node numNodes) :
    (memoryLeaves H nodes).length = numNodes := by
  rw [memoryLeaves, List.length_map, List.length_finRange]

def buildMemoryMerkleProof (nodes : Vector Node numNodes) (leafIndex : UInt64) :
    Option MemoryMerkleProof :=
  if h : leafIndex.toNat < numNodes then
    some {
      leafIndex
      siblings := Merkle.siblings (computeMemoryParentHash H) (memoryLeaves H nodes)
        leafIndex.toNat (by rwa [length_memoryLeaves]) }
  else none

def verifyMemoryMerkleProof (root : FixedBytes 32) (node : List UInt8)
    (proof : MemoryMerkleProof) : Bool :=
  Merkle.climb (computeMemoryParentHash H) (computeMemoryLeafHash H proof.leafIndex.toNat node)
    proof.siblings = root

/-! ## What is hashed -/

/-- The messages that are hashed for a commitment. -/
def treeMessages (nodes : Vector Node numNodes) : Set (List UInt8) :=
  {message | (∃ i : Fin numNodes, message = memoryLeafMessage i.val (nodes.get i).bytes) ∨
    ∃ pair ∈ Merkle.pairs (computeMemoryParentHash H) (memoryLeaves H nodes),
      message = memoryParentMessage pair}

/-- The messages that are hashed to check a proof. -/
def proofMessages (node : List UInt8) (proof : MemoryMerkleProof) : Set (List UInt8) :=
  {message | message = memoryLeafMessage proof.leafIndex.toNat node ∨
    ∃ pair ∈ Merkle.climbPairs (computeMemoryParentHash H)
      (computeMemoryLeafHash H proof.leafIndex.toNat node) proof.siblings,
      message = memoryParentMessage pair}

variable {H}

theorem memoryLeafMessage_inj {index other : ℕ} {node node' : List UInt8} (hindex : index < 2 ^ 64)
    (hother : other < 2 ^ 64) (h : memoryLeafMessage index node = memoryLeafMessage other node') :
    index = other ∧ node = node' := by
  unfold memoryLeafMessage at h
  have hrest := List.append_cancel_left (List.append_cancel_left h)
  obtain ⟨hplace, hrest⟩ := List.append_inj hrest (by simp)
  obtain ⟨-, hnode⟩ := List.append_inj hrest (by simp)
  have hpow : (256 : ℕ) ^ 8 = 2 ^ 64 := by norm_num
  exact ⟨Codec.leBytes_inj (by omega) (by omega) hplace, hnode⟩

theorem memoryParentMessage_injective : Function.Injective memoryParentMessage := by
  intro pair other h
  unfold memoryParentMessage at h
  have hrest := List.append_cancel_left (List.append_cancel_left h)
  obtain ⟨hleft, hright⟩ := List.append_inj hrest
    ((FixedBytes.length_bytes _).trans (FixedBytes.length_bytes _).symm)
  exact Prod.ext (FixedBytes.bytes_injective hleft) (FixedBytes.bytes_injective hright)

/-- A leaf is never hashed as two values are. -/
theorem memoryLeafMessage_ne_parent (index : ℕ) (node : List UInt8)
    (pair : FixedBytes 32 × FixedBytes 32) :
    memoryLeafMessage index node ≠ memoryParentMessage pair := by
  intro h
  have hrest := List.append_cancel_left h
  exact Codec.append_ne_of_take_ne (n := 4) (by decide +kernel) (by decide +kernel)
    (by decide +kernel) hrest

/-! ## Making and checking proofs -/

theorem mem_memoryLeaves {nodes : Vector Node numNodes} {hash : FixedBytes 32} :
    hash ∈ memoryLeaves H nodes ↔
      ∃ i : Fin numNodes, H.blake3 (memoryLeafMessage i.val (nodes.get i).bytes) = hash := by
  unfold memoryLeaves
  simp [computeMemoryLeafHash]

theorem getElem_memoryLeaves (nodes : Vector Node numNodes) {index : ℕ} (hindex : index < numNodes)
    (h : index < (memoryLeaves H nodes).length) :
    (memoryLeaves H nodes)[index] =
      computeMemoryLeafHash H index (nodes.get ⟨index, hindex⟩).bytes := by
  simp only [memoryLeaves, List.getElem_map, List.getElem_finRange]
  rfl

/-- The proof of a node verifies. -/
theorem verify_buildMemoryMerkleProof (nodes : Vector Node numNodes) {leafIndex : UInt64}
    (h : leafIndex.toNat < numNodes) :
    ∃ proof, buildMemoryMerkleProof H nodes leafIndex = some proof ∧
      proof.leafIndex = leafIndex ∧ verifyMemoryMerkleProof H (computeMemoryCommitment H nodes)
        (nodes.get ⟨leafIndex.toNat, h⟩).bytes proof = true := by
  refine ⟨_, dif_pos h, rfl, ?_⟩
  have hlength : leafIndex.toNat < (memoryLeaves H nodes).length := by
    rwa [length_memoryLeaves]
  have hclimb := @Merkle.climb_siblings _ (computeMemoryParentHash H) _
    (memoryLeaves_ne_nil H nodes) _ hlength
  rw [getElem_memoryLeaves nodes h hlength] at hclimb
  exact decide_eq_true hclimb

/-- Without collisions a node with a proof is the node of the dataset at the index of the proof. -/
theorem node_of_verify {nodes : Vector Node numNodes} {node : List UInt8}
    {proof : MemoryMerkleProof}
    (hfree : CollisionFree H.blake3 (treeMessages H nodes ∪ proofMessages H node proof))
    (h : verifyMemoryMerkleProof H (computeMemoryCommitment H nodes) node proof = true) :
    ∃ i : Fin numNodes, i.val = proof.leafIndex.toNat ∧ (nodes.get i).bytes = node := by
  have hleaf (i : Fin numNodes) : memoryLeafMessage i.val (nodes.get i).bytes ∈
      treeMessages H nodes ∪ proofMessages H node proof := Or.inl (Or.inl ⟨i, rfl⟩)
  have hstart : memoryLeafMessage proof.leafIndex.toNat node ∈
      treeMessages H nodes ∪ proofMessages H node proof := Or.inr (Or.inl rfl)
  have htree {pair : FixedBytes 32 × FixedBytes 32}
      (hpair : pair ∈ Merkle.pairs (computeMemoryParentHash H) (memoryLeaves H nodes)) :
      memoryParentMessage pair ∈ treeMessages H nodes ∪ proofMessages H node proof :=
    Or.inl (Or.inr ⟨pair, hpair, rfl⟩)
  have hpath {pair : FixedBytes 32 × FixedBytes 32}
      (hpair : pair ∈ Merkle.climbPairs (computeMemoryParentHash H)
        (computeMemoryLeafHash H proof.leafIndex.toNat node) proof.siblings) :
      memoryParentMessage pair ∈ treeMessages H nodes ∪ proofMessages H node proof :=
    Or.inr (Or.inr ⟨pair, hpair, rfl⟩)
  have hmem : computeMemoryLeafHash H proof.leafIndex.toNat node ∈ memoryLeaves H nodes := by
    apply Merkle.mem_of_climb (memoryLeaves_ne_nil H nodes) _ _ _ (of_decide_eq_true h)
    · intro pair hpair other hother heq
      apply memoryParentMessage_injective
      exact hfree _ (hpair.elim htree hpath) _ (hother.elim htree hpath) heq
    · intro hash hhash pair hpair heq
      obtain ⟨i, rfl⟩ := mem_memoryLeaves.mp hhash
      exact memoryLeafMessage_ne_parent _ _ _
        (hfree _ (hleaf i) _ (hpath hpair) heq.symm)
    · intro pair hpair heq
      exact memoryLeafMessage_ne_parent _ _ _
        (hfree _ hstart _ (htree hpair) heq.symm)
  obtain ⟨i, hi⟩ := mem_memoryLeaves.mp hmem
  have hnum : i.val < 2 ^ 64 := i.isLt.trans (by decide)
  obtain ⟨hindex, hnode⟩ := memoryLeafMessage_inj hnum proof.leafIndex.toNat_lt
    (hfree _ (hleaf i) _ hstart hi)
  exact ⟨i, hindex, hnode⟩

/-- Every node of a dataset has a proof that verifies against the commitment to the dataset, and a
node that verifies is the one at the index of its proof, unless two messages that were hashed for
the commitment and the proof collide. -/
theorem memory_proofs (nodes : Vector Node numNodes) :
    (∀ (leafIndex : UInt64) (h : leafIndex.toNat < numNodes),
      ∃ proof, buildMemoryMerkleProof H nodes leafIndex = some proof ∧
        proof.leafIndex = leafIndex ∧ verifyMemoryMerkleProof H (computeMemoryCommitment H nodes)
          (nodes.get ⟨leafIndex.toNat, h⟩).bytes proof = true) ∧
    ∀ (node : List UInt8) (proof : MemoryMerkleProof),
      verifyMemoryMerkleProof H (computeMemoryCommitment H nodes) node proof = true →
        (∃ i : Fin numNodes, i.val = proof.leafIndex.toNat ∧ (nodes.get i).bytes = node) ∨
          ¬CollisionFree H.blake3 (treeMessages H nodes ∪ proofMessages H node proof) := by
  refine ⟨fun leafIndex h => verify_buildMemoryMerkleProof nodes h, ?_⟩
  intro node proof h
  by_cases hfree : CollisionFree H.blake3 (treeMessages H nodes ∪ proofMessages H node proof)
  · exact Or.inl (node_of_verify hfree h)
  · exact Or.inr hfree

end EvoOmap

end Opolys
