import Opolys.Library.Memory
import Opolys.Library.Merkle
import Opolys.EvoOmap.Machine

/-!
# The dataset of the proof of work

The dataset is a chain of nodes that grows out of a seed, and every hash overwrites some of them. A
miner keeps the whole dataset and copies what it writes. A verifier computes nodes as they are
asked for.

* `Dataset`, `CowDataset` : the whole dataset, and a copy on write.
* `LightDataset` : the nodes that have been asked for, and those that have been written.
* `LightDataset.Shows` : what a light dataset stands for.
-/

namespace Opolys

namespace EvoOmap

open Codec (FixedBytes leBytes)
open Addressed (Memory LawfulMemory SameContents Overlay Chain.value Chain.eager Chain.demand
  Chain.Known)

variable (H : Hashes)

/-! ## Seeds -/

def computeEpochNumber (height epochLength : UInt64) : UInt64 := height / epochLength

def computeEpochSeed (height epochLength : UInt64) (seedMaterial : List UInt8) : FixedBytes 32 :=
  let epoch := computeEpochNumber height epochLength
  H.blake3 (prefixedDomain "evo_omap_epoch" ++ leBytes 8 epoch.toNat ++
    leBytes 8 seedMaterial.length ++ seedMaterial)

def computeMiningSeed (header : List UInt8) (height nonce : UInt64) : FixedBytes 32 :=
  let headerCommitment := (H.blake3 header).bytes
  H.blake3 (prefixedDomain "evo_omap_seed" ++ leBytes 8 headerCommitment.length ++
    headerCommitment ++ leBytes 8 height.toNat ++ leBytes 8 nonce.toNat)

/-! ## The whole dataset -/

abbrev Node : Type := FixedBytes nodeSize

abbrev Dataset : Type := Vector Node numNodes

abbrev CowDataset : Type := Overlay numNodes Node

def generateNode0 (seed : FixedBytes 32) : Node :=
  H.blake3Xof (prefixedDomain "evo_omap_node" ++ seed.bytes ++ leBytes 8 0) nodeSize

/-- The node after another one. -/
def generateNode (seed : FixedBytes 32) (previous : Option Node) (i : ℕ) : Node :=
  match previous with
  | none => generateNode0 H seed
  | some previous =>
    H.blake3Xof (prefixedDomain "evo_omap_node" ++ seed.bytes ++ previous.bytes ++ leBytes 8 i)
      nodeSize

def generateDataset (seed : FixedBytes 32) : Dataset :=
  ⟨(Chain.eager (generateNode H seed) numNodes).toArray, by simp⟩

/-! ## The nodes that are asked for -/

structure LightDataset where
  epochSeed : FixedBytes 32
  originalNodes : Vector (Option Node) numNodes
  modifiedNodes : Vector (Option Node) numNodes

/-- A node from the bytes of the one before, of which the first node has none. -/
def reconstructNodeRaw (epochSeed : FixedBytes 32) (previous : List UInt8) (index : ℕ) : Node :=
  H.blake3Xof (prefixedDomain "evo_omap_node" ++ epochSeed.bytes ++ previous ++ leBytes 8 index)
    nodeSize

/-- What the node at an index is computed from. -/
def reconstructNext (epochSeed : FixedBytes 32) (previous : Option Node) (index : ℕ) : Node :=
  reconstructNodeRaw H epochSeed
    (match previous with
      | none => []
      | some node => node.bytes) index

namespace LightDataset

def new (epochSeed : FixedBytes 32) : LightDataset where
  epochSeed := epochSeed
  originalNodes := Vector.replicate numNodes none
  modifiedNodes := Vector.replicate numNodes none

def reset (dataset : LightDataset) : LightDataset := new dataset.epochSeed

/-- The node as the seed gives it, with all nodes before it. -/
def getOriginalChainNode (dataset : LightDataset) (index : Fin numNodes) : Node × LightDataset :=
  let (node, originalNodes) :=
    Chain.demand (reconstructNext H dataset.epochSeed) index.val index.isLt dataset.originalNodes
  (node, { dataset with originalNodes })

def getNode (dataset : LightDataset) (index : Fin numNodes) : Node × LightDataset :=
  match dataset.modifiedNodes.get index with
  | some node => (node, dataset)
  | none => dataset.getOriginalChainNode H index

def setNode (dataset : LightDataset) (index : Fin numNodes) (node : Node) : LightDataset :=
  { dataset with modifiedNodes := dataset.modifiedNodes.set index (some node) }

end LightDataset

/-! ## The commitment to the memory -/

/-- What is hashed for a leaf. -/
def memoryLeafMessage (index : ℕ) (node : List UInt8) : List UInt8 :=
  prefixedDomain "evo_omap_memory" ++ ("leaf".toUTF8.toList ++ (leBytes 8 index ++
    (leBytes 8 node.length ++ node)))

/-- What is hashed for two values. -/
def memoryParentMessage (pair : FixedBytes 32 × FixedBytes 32) : List UInt8 :=
  prefixedDomain "evo_omap_memory" ++ ("parent".toUTF8.toList ++ (pair.1.bytes ++ pair.2.bytes))

def computeMemoryLeafHash (index : ℕ) (node : List UInt8) : FixedBytes 32 :=
  H.blake3 (memoryLeafMessage index node)

def computeMemoryParentHash (left right : FixedBytes 32) : FixedBytes 32 :=
  H.blake3 (memoryParentMessage (left, right))

def memoryLeaves (nodes : Vector Node numNodes) : List (FixedBytes 32) :=
  (List.finRange numNodes).map fun i => computeMemoryLeafHash H i.val (nodes.get i).bytes

theorem memoryLeaves_ne_nil (nodes : Vector Node numNodes) : memoryLeaves H nodes ≠ [] := by
  intro h
  have hlength := congrArg List.length h
  rw [memoryLeaves, List.length_map, List.length_finRange] at hlength
  exact absurd hlength (by decide)

def computeMemoryCommitment (nodes : Vector Node numNodes) : FixedBytes 32 :=
  Merkle.root (computeMemoryParentHash H) (memoryLeaves H nodes) (memoryLeaves_ne_nil H nodes)

end EvoOmap

end Opolys
