import Opolys.Library.Transition
import Opolys.EvoOmap.Dataset

/-!
# The hash of the proof of work

The hash is computed in three ways: on a whole dataset, with buffers that a miner keeps from nonce
to nonce, and on the nodes that a verifier asks for. All three are the same function.

* `evoOmapHash`, `evoOmapHashWithBuffers`, `evoOmapHashLight` : the three ways.
* `evoOmapHashWithBuffers_eq`, `evoOmapHashLight_eq` : they agree.
-/

namespace Opolys

namespace EvoOmap

open Codec (FixedBytes leBytes)
open Addressed

variable (H : Hashes)

/-! ## On a memory -/

/-- What a hash works on. -/
structure Work (δ : Type) where
  state : State
  commitmentHash : FixedBytes 32
  dataset : δ

/-- The first commitment of a hash. -/
def startCommitment (height : UInt64) : FixedBytes 32 :=
  H.blake3 (prefixedDomain "evo_omap_commitment" ++ leBytes 8 height.toNat)

/-- Where a hash starts. -/
def Work.start {δ : Type} (dataset : δ) (header : List UInt8) (height nonce : UInt64) : Work δ :=
  { state := State.fromSeed H (computeMiningSeed H header height nonce)
    commitmentHash := startCommitment H height
    dataset }

/-- The hash of everything that a run leaves. -/
def finalHash (state : State) (commitmentHash memoryCommitment : FixedBytes 32) : FixedBytes 32 :=
  H.sha3 ((H.blake3 state.bytes).bytes ++ commitmentHash.bytes ++ memoryCommitment.bytes)

section Full

variable {δ : Type} [Memory δ numNodes Node]

def hashStep (work : Work δ) (step : ℕ) : Work δ :=
  let program := generateProgram work.state
  let (idx1, idx2, idxWrite) := deriveIndices work.state (UInt64.ofNat step)
  let node1 := (Memory.get work.dataset idx1).bytes
  let node2 := (Memory.get work.dataset idx2).bytes
  let state := executeInstructions work.state program node1 node2
  let state := applyBranch H state (UInt32.ofNat step) node1 node2
  let writeData := node1.take writeNodePrefix ++ node2.take writeNodePrefix ++
    state.bytes.take stateHashPrefix
  let written := H.blake3Xof writeData nodeSize
  { state
    commitmentHash := H.blake3 (work.commitmentHash.bytes ++ leBytes 8 step ++ state.bytes.take 32)
    dataset := Memory.set work.dataset idxWrite written }

/-- The hash, and the dataset as it leaves it. -/
def evoOmapHash (dataset : δ) (header : List UInt8) (height nonce : UInt64) : FixedBytes 32 × δ :=
  let work := (List.range numSteps).foldl (hashStep H) (Work.start H dataset header height nonce)
  (finalHash H work.state work.commitmentHash
    (computeMemoryCommitment H (Memory.toSlice work.dataset)), work.dataset)

end Full

/-! ## With buffers -/

/-- What a miner keeps from hash to hash so as not to allocate it again. -/
structure HashBuffers where
  commitmentData : List UInt8
  writeData : List UInt8
  branchInput : List UInt8
  commitmentInput : List UInt8
  finalInput : List UInt8
  programBuf : List Instruction
  node1Prefix : List UInt8
  node2Prefix : List UInt8

def HashBuffers.new : HashBuffers :=
  { commitmentData := [], writeData := [], branchInput := [], commitmentInput := [],
    finalInput := [], programBuf := [], node1Prefix := [], node2Prefix := [] }

/-- A branch with the buffer for what is hashed. -/
def applyBranchWithBuffer (state : State) (step : UInt32) (node1 node2 : List UInt8)
    (_input : List UInt8) : State × List UInt8 :=
  let stateArr := state.asU64Array
  let input := branchInput state step node1 node2
  let output := (H.blake3Xof input stateSize).bytes
  (state.writeAllU64 (Vector.ofFn fun i => stateArr.get i ^^^ wordAt output (i.val * 8)), input)

/-- What a hash with buffers works on. -/
structure BufferedWork (δ : Type) extends Work δ where
  buffers : HashBuffers

section Buffered

variable {δ : Type}

def BufferedWork.start (dataset : δ) (header : List UInt8) (height nonce : UInt64)
    (buffers : HashBuffers) : BufferedWork δ :=
  let commitmentData := prefixedDomain "evo_omap_commitment" ++ leBytes 8 height.toNat
  { state := State.fromSeed H (computeMiningSeed H header height nonce)
    commitmentHash := H.blake3 commitmentData
    dataset
    buffers := { buffers with commitmentData } }

variable [Memory δ numNodes Node]

def bufferedStep (work : BufferedWork δ) (step : ℕ) : BufferedWork δ :=
  let stateWords := work.state.asU64Array
  let programBuf := fillProgramBuffer stateWords work.buffers.programBuf
  let (idx1, idx2, idxWrite) := deriveIndicesFromWords stateWords (UInt64.ofNat step)
  let node1Prefix := (Memory.get work.dataset idx1).bytes.take writeNodePrefix
  let node2Prefix := (Memory.get work.dataset idx2).bytes.take writeNodePrefix
  let state := executeInstructions work.state programBuf node1Prefix node2Prefix
  let (state, branchInput) := applyBranchWithBuffer H state (UInt32.ofNat step) node1Prefix
    node2Prefix work.buffers.branchInput
  let writeData := node1Prefix ++ node2Prefix ++ state.bytes.take stateHashPrefix
  let written := H.blake3Xof writeData nodeSize
  let commitmentInput := work.commitmentHash.bytes ++ leBytes 8 step ++ state.bytes.take 32
  { state
    commitmentHash := H.blake3 commitmentInput
    dataset := Memory.set work.dataset idxWrite written
    buffers := { work.buffers with
      writeData, branchInput, commitmentInput, programBuf, node1Prefix, node2Prefix } }

def evoOmapHashWithBuffers (dataset : δ) (header : List UInt8) (height nonce : UInt64)
    (buffers : HashBuffers) : FixedBytes 32 × δ × HashBuffers :=
  let work := (List.range numSteps).foldl (bufferedStep H)
    (BufferedWork.start H dataset header height nonce buffers)
  let stateSummary := H.blake3 work.state.bytes
  let memoryCommitment := computeMemoryCommitment H (Memory.toSlice work.dataset)
  let finalInput := stateSummary.bytes ++ work.commitmentHash.bytes ++ memoryCommitment.bytes
  (H.sha3 finalInput, work.dataset, { work.buffers with finalInput })

end Buffered

/-! ## On the nodes that are asked for -/

def lightStep (work : Work LightDataset) (step : ℕ) : Work LightDataset :=
  let program := generateProgram work.state
  let (idx1, idx2, idxWrite) := deriveIndices work.state (UInt64.ofNat step)
  let (node1, dataset) := work.dataset.getNode H idx1
  let (node2, dataset) := dataset.getNode H idx2
  let state := executeInstructions work.state program node1.bytes node2.bytes
  let state := applyBranch H state (UInt32.ofNat step) node1.bytes node2.bytes
  let writeData := node1.bytes.take writeNodePrefix ++ node2.bytes.take writeNodePrefix ++
    state.bytes.take stateHashPrefix
  let written := H.blake3Xof writeData nodeSize
  { state
    commitmentHash := H.blake3 (work.commitmentHash.bytes ++ leBytes 8 step ++ state.bytes.take 32)
    dataset := dataset.setNode idxWrite written }

def lightLeaf (leaves : List (FixedBytes 32) × LightDataset) (i : Fin numNodes) :
    List (FixedBytes 32) × LightDataset :=
  let (node, dataset) := leaves.2.getNode H i
  (leaves.1 ++ [computeMemoryLeafHash H i.val node.bytes], dataset)

/-- The leaves of the commitment, for which every node is asked for. -/
def lightLeaves (dataset : LightDataset) : List (FixedBytes 32) × LightDataset :=
  (List.finRange numNodes).foldl (lightLeaf H) ([], dataset)

theorem length_lightLeaves (dataset : LightDataset) :
    (lightLeaves H dataset).1.length = numNodes := by
  have hfold (list : List (Fin numNodes)) (leaves : List (FixedBytes 32) × LightDataset) :
      (list.foldl (lightLeaf H) leaves).1.length = leaves.1.length + list.length := by
    induction list generalizing leaves with
    | nil => rfl
    | cons i list ih =>
      rw [List.foldl_cons, ih, lightLeaf]
      simp only [List.length_append, List.length_cons, List.length_nil]
      omega
  rw [lightLeaves, hfold, List.length_finRange]
  exact Nat.zero_add _

theorem lightLeaves_ne_nil (dataset : LightDataset) : (lightLeaves H dataset).1 ≠ [] := by
  apply List.ne_nil_of_length_pos
  rw [length_lightLeaves]
  exact numNodes_pos

def LightDataset.computeMemoryCommitment (dataset : LightDataset) :
    FixedBytes 32 × LightDataset :=
  (Merkle.root (computeMemoryParentHash H) (lightLeaves H dataset).1 (lightLeaves_ne_nil H dataset),
    (lightLeaves H dataset).2)

def evoOmapHashLight (dataset : LightDataset) (header : List UInt8) (height nonce : UInt64) :
    FixedBytes 32 × LightDataset :=
  let work := (List.range numSteps).foldl (lightStep H) (Work.start H dataset header height nonce)
  let (memoryCommitment, dataset) := work.dataset.computeMemoryCommitment H
  (finalHash H work.state work.commitmentHash memoryCommitment, dataset)

/-! ## They agree -/

variable {H}

section Agreement

variable {δ δ' : Type} [Memory δ numNodes Node] [Memory δ' numNodes Node] [LawfulMemory δ]
  [LawfulMemory δ']

/-- Two runs are at the same point. -/
structure Alike (work : Work δ) (work' : Work δ') : Prop where
  state : work.state = work'.state
  commitmentHash : work.commitmentHash = work'.commitmentHash
  dataset : SameContents work.dataset work'.dataset

/-- A step with buffers does what a step does, since only the front of a node matters. -/
theorem bufferedStep_alike {work : BufferedWork δ} {work' : Work δ'} (h : Alike work.toWork work')
    (step : ℕ) : Alike (bufferedStep H work step).toWork (hashStep H work' step) := by
  obtain ⟨hstate, hcommitment, hdataset⟩ := h
  have hbranch (state : State) (node1 node2 : List UInt8) (input : List UInt8) :
      (applyBranchWithBuffer H state (UInt32.ofNat step) (node1.take writeNodePrefix)
        (node2.take writeNodePrefix) input).1 =
        applyBranch H state (UInt32.ofNat step) node1 node2 := by
    simp only [applyBranchWithBuffer, applyBranch, branchInput_take]
  simp only [bufferedStep, hashStep, deriveIndices, hbranch, fillProgramBuffer_eq,
    executeInstructions_take, hstate, hcommitment, hdataset _]
  exact ⟨rfl, rfl, hdataset.set _ _⟩

/-- With buffers a hash is the same, whatever the buffers hold. -/
theorem evoOmapHashWithBuffers_eq {dataset : δ} {dataset' : δ'}
    (h : SameContents dataset dataset') (header : List UInt8) (height nonce : UInt64)
    (buffers : HashBuffers) :
    (evoOmapHashWithBuffers H dataset header height nonce buffers).1 =
      (evoOmapHash H dataset' header height nonce).1 := by
  have hrun : Alike
      (Transition.run (bufferedStep H) (.start H dataset header height nonce buffers)
        (List.range numSteps)).toWork
      (Transition.run (hashStep H) (.start H dataset' header height nonce)
        (List.range numSteps)) :=
    Transition.simulation_run
      (R := fun (work : BufferedWork δ) (work' : Work δ') => Alike work.toWork work')
      (fun _ _ step h => bufferedStep_alike h step) ⟨rfl, rfl, h⟩
  obtain ⟨hstate, hcommitment, hdataset⟩ := hrun
  unfold Transition.run at hstate hcommitment hdataset
  simp only [evoOmapHashWithBuffers, evoOmapHash, finalHash, hstate, hcommitment, hdataset.toSlice]

omit [LawfulMemory δ] in
/-- A hash only writes to its dataset. -/
theorem evoOmapHashWithBuffers_dataset {Inv : δ → Prop}
    (hset : ∀ dataset i node, Inv dataset → Inv (Memory.set dataset i node)) {dataset : δ}
    (h : Inv dataset) (header : List UInt8) (height nonce : UInt64) (buffers : HashBuffers) :
    Inv (evoOmapHashWithBuffers H dataset header height nonce buffers).2.1 := by
  have hstep (work : BufferedWork δ) (step : ℕ) (h : Inv work.dataset) :
      Inv (bufferedStep H work step).dataset := hset _ _ _ h
  have hrun : Inv (Transition.run (bufferedStep H) (.start H dataset header height nonce buffers)
      (List.range numSteps)).dataset :=
    Transition.run_invariant hstep _ h
  unfold Transition.run at hrun
  simp only [evoOmapHashWithBuffers]
  exact hrun

end Agreement

section Light

variable {μ : Type} [Memory μ numNodes Node] {dataset : LightDataset} {memory : μ}

/-- The nodes of a light dataset are those of a memory. -/
structure LightDataset.Shows (H : Hashes) (dataset : LightDataset) (memory : μ) : Prop where
  known : Chain.Known (reconstructNext H dataset.epochSeed) dataset.originalNodes
  modified : ∀ i node, dataset.modifiedNodes.get i = some node → Memory.get memory i = node
  original : ∀ i, dataset.modifiedNodes.get i = none →
    Memory.get memory i = Chain.value (reconstructNext H dataset.epochSeed) i.val

namespace LightDataset

/-- A new light dataset shows the whole dataset of its seed. -/
theorem shows_new (seed : FixedBytes 32) : (new seed).Shows H (generateDataset H seed) where
  known := Chain.known_none
  modified i node h := by
    have hnone : (new seed).modifiedNodes.get i = none := Vector.getElem_replicate i.isLt
    rw [hnone] at h
    cases h
  original i _ := by
    have hget : (generateDataset H seed).get i = Chain.value (generateNode H seed) i.val := by
      show (generateDataset H seed)[i.val] = _
      simp only [generateDataset, Vector.getElem_mk, List.getElem_toArray]
      exact Chain.getElem_eager _
    show (generateDataset H seed).get i = Chain.value (reconstructNext H seed) i.val
    rw [hget]
    apply Chain.value_congr
    · simp [generateNode, generateNode0, reconstructNext, reconstructNodeRaw]
    · intro node i
      rfl

/-- A node that is asked for is the node of the memory. -/
theorem Shows.getNode (h : dataset.Shows H memory) (i : Fin numNodes) :
    (dataset.getNode H i).1 = Memory.get memory i ∧ (dataset.getNode H i).2.Shows H memory := by
  unfold LightDataset.getNode
  cases hget : dataset.modifiedNodes.get i with
  | some node => exact ⟨(h.modified i node hget).symm, h⟩
  | none =>
    obtain ⟨hvalue, hknown⟩ := h.known.demand i.val i.isLt
    exact ⟨hvalue.trans (h.original i hget).symm, { h with known := hknown }⟩

variable [LawfulMemory μ]

theorem Shows.setNode (h : dataset.Shows H memory) (i : Fin numNodes) (node : Node) :
    (dataset.setNode i node).Shows H (Memory.set memory i node) := by
  have hget (j : Fin numNodes) : (dataset.setNode i node).modifiedNodes.get j =
      if i = j then some node else dataset.modifiedNodes.get j :=
    LawfulMemory.get_set dataset.modifiedNodes i j (some node)
  refine ⟨h.known, ?_, ?_⟩
  · intro j node' hj
    rw [hget] at hj
    rw [LawfulMemory.get_set]
    by_cases hij : i = j
    · rw [if_pos hij] at hj ⊢
      exact Option.some.inj hj
    · rw [if_neg hij] at hj ⊢
      exact h.modified j node' hj
  · intro j hj
    rw [hget] at hj
    rw [LawfulMemory.get_set]
    by_cases hij : i = j
    · rw [if_pos hij] at hj
      cases hj
    · rw [if_neg hij] at hj ⊢
      exact h.original j hj

/-- The leaves are those of the memory. -/
theorem Shows.lightLeaves (h : dataset.Shows H memory) :
    (lightLeaves H dataset).1 = memoryLeaves H (Memory.toSlice memory) := by
  have hfold (list : List (Fin numNodes)) (leaves : List (FixedBytes 32)) (dataset : LightDataset)
      (h : dataset.Shows H memory) :
      (list.foldl (lightLeaf H) (leaves, dataset)).1 = leaves ++
        list.map fun i => computeMemoryLeafHash H i.val ((Memory.toSlice memory).get i).bytes := by
    induction list generalizing leaves dataset with
    | nil => simp
    | cons i list ih =>
      obtain ⟨hnode, hshows⟩ := h.getNode i
      rw [List.foldl_cons, lightLeaf, ih _ _ hshows, hnode, ← LawfulMemory.toSlice_get memory i]
      simp
  exact hfold _ _ _ h

end LightDataset

/-- A light run is at the point of a run on a memory. -/
structure Follows (H : Hashes) (work : Work LightDataset) (work' : Work μ) : Prop where
  state : work.state = work'.state
  commitmentHash : work.commitmentHash = work'.commitmentHash
  dataset : work.dataset.Shows H work'.dataset

variable [LawfulMemory μ]

theorem lightStep_follows {work : Work LightDataset} {work' : Work μ} (h : Follows H work work')
    (step : ℕ) : Follows H (lightStep H work step) (hashStep H work' step) := by
  obtain ⟨hstate, hcommitment, hdataset⟩ := h
  simp only [lightStep, hashStep, hstate, hcommitment]
  generalize deriveIndices work'.state (UInt64.ofNat step) = indices
  obtain ⟨idx1, idx2, idxWrite⟩ := indices
  obtain ⟨hnode1, hdataset1⟩ := hdataset.getNode idx1
  obtain ⟨hnode2, hdataset2⟩ := hdataset1.getNode idx2
  simp only [hnode1, hnode2]
  exact ⟨rfl, rfl, hdataset2.setNode _ _⟩

/-- The hash of a verifier is the hash on the whole dataset. -/
theorem evoOmapHashLight_eq (h : dataset.Shows H memory) (header : List UInt8)
    (height nonce : UInt64) :
    (evoOmapHashLight H dataset header height nonce).1 =
      (evoOmapHash H memory header height nonce).1 := by
  obtain ⟨hstate, hcommitment, hdataset⟩ : Follows H
      (Transition.run (lightStep H) (.start H dataset header height nonce) (List.range numSteps))
      (Transition.run (hashStep H) (.start H memory header height nonce) (List.range numSteps)) :=
    Transition.simulation_run (R := Follows H) (fun _ _ step h => lightStep_follows h step)
      ⟨rfl, rfl, h⟩
  unfold Transition.run at hstate hcommitment hdataset
  simp only [evoOmapHashLight, evoOmapHash, finalHash, hstate, hcommitment,
    LightDataset.computeMemoryCommitment, computeMemoryCommitment]
  rw [Merkle.root_congr _ hdataset.lightLeaves]

end Light

end EvoOmap

end Opolys
