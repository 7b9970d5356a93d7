import Opolys.Library.MachineInt
import Opolys.Library.Codec

/-!
# The machine of the proof of work

EVO-OMAP runs small random programs on eight registers. A step reads the program off the registers,
reads two nodes of the dataset with it, and mixes a hash of everything into the registers.

* `Instruction.execute` : what an instruction does.
* `generateProgram`, `deriveIndices` : what the registers say about the next step.
* `applyBranch` : the mixing.
-/

namespace Opolys

namespace EvoOmap

open Codec (FixedBytes leBytes ofLeBytes)

/-! ## Constants -/

def stateSize : ℕ := 64

def numRegisters : ℕ := 8

/-- The number of words of a node that instructions read. -/
def operandWords : ℕ := 128

/-- The number of bytes of a node. -/
def nodeSize : ℕ := 1048576

def numNodes : ℕ := 256

@[irreducible] def numSteps : ℕ := 4096

def programLength : ℕ := 16

def srcMask : UInt64 := 0x7F

def branchMask : UInt64 := 3

/-- The number of bytes of a node that are mixed into a branch. -/
def branchNodePrefix : ℕ := 32

/-- The number of bytes of a node that go into what is written. -/
def writeNodePrefix : ℕ := 131072

def stateHashPrefix : ℕ := 32

theorem numNodes_pos : 0 < numNodes := by decide

/-! ## Hash functions -/

/-- The functions that the machine takes from its hashing libraries. -/
structure Hashes where
  /-- Blake3 with 32 bytes of output. -/
  blake3 : List UInt8 → FixedBytes 32
  /-- Blake3 with as many bytes of output as are wanted. -/
  blake3Xof : List UInt8 → (n : ℕ) → FixedBytes n
  /-- SHA3-256. -/
  sha3 : List UInt8 → FixedBytes 32

/-- A domain separator, with its length in front. -/
def prefixedDomain (domain : String) : List UInt8 :=
  UInt8.ofNat domain.toUTF8.size :: domain.toUTF8.toList

/-! ## Registers -/

abbrev Words : Type := Vector UInt64 8

/-- The word that starts at a byte, least significant byte first. -/
def wordAt (bytes : List UInt8) (start : ℕ) : UInt64 :=
  UInt64.ofNat (ofLeBytes ((bytes.drop start).take 8))

/-- The registers as bytes. -/
abbrev State : Type := FixedBytes 64

namespace State

def asU64Array (state : State) : Words := Vector.ofFn fun i => wordAt state.bytes (i.val * 8)

def writeU64AtIndex (state : State) (index : Fin 8) (value : UInt64) : State where
  bytes := state.bytes.take (index.val * 8) ++ leBytes 8 value.toNat ++
    state.bytes.drop (index.val * 8 + 8)
  length_bytes := by
    have hlength := state.length_bytes
    have hindex := index.isLt
    simp only [List.length_append, List.length_take, List.length_drop, Codec.length_leBytes,
      hlength]
    omega

def writeAllU64 (state : State) (values : Words) : State :=
  (List.finRange 8).foldl (fun state i => state.writeU64AtIndex i (values.get i)) state

def fromSeed (H : Hashes) (seed : FixedBytes 32) : State := H.blake3Xof seed.bytes stateSize

end State

/-- The words of a node that instructions read. -/
def nodeAsU64Array (node : List UInt8) : Vector UInt64 operandWords :=
  Vector.ofFn fun i => wordAt node (i.val * 8)

/-! ## Instructions -/

/-- An instruction names a register that it changes, and a word of a node or another register. -/
inductive Instruction where
  | add (dst : Fin 8) (src : UInt8)
  | sub (dst : Fin 8) (src : UInt8)
  | mul (dst : Fin 8) (src : UInt8)
  | xor (dst : Fin 8) (src : UInt8)
  | rotl (dst : Fin 8) (src : UInt8)
  | rotr (dst : Fin 8) (src : UInt8)
  | mulh (dst : Fin 8) (src : UInt8)
  | swap (a : Fin 8) (b : UInt8)
deriving DecidableEq

/-- The word of a node that an instruction reads. -/
def operand (words : Vector UInt64 operandWords) (src : UInt8) : UInt64 :=
  words.get ⟨src.toNat % operandWords, Nat.mod_lt _ (by decide)⟩

def Instruction.execute (instruction : Instruction) (state : Words)
    (node1Words node2Words : Vector UInt64 operandWords) : Words :=
  match instruction with
  | .add dst src => state.set dst (state.get dst + operand node1Words src)
  | .sub dst src => state.set dst (state.get dst - operand node2Words src)
  | .mul dst src => state.set dst (state.get dst * operand node1Words src)
  | .xor dst src => state.set dst (state.get dst ^^^ operand node2Words src)
  | .rotl dst src =>
    let amount := operand node1Words src % 64
    state.set dst ⟨(state.get dst).toBitVec.rotateLeft amount.toNat⟩
  | .rotr dst src =>
    let amount := operand node2Words src % 64
    state.set dst ⟨(state.get dst).toBitVec.rotateRight amount.toNat⟩
  | .mulh dst src =>
    let wide := (state.get dst).toNat * (operand node1Words src).toNat
    state.set dst (UInt64.ofNat (wide >>> 64))
  | .swap a b => state.swap a (b.toNat % numRegisters) a.isLt (Nat.mod_lt _ (by decide))

/-- The instruction of a slot of a program. -/
def instructionAt (words : Words) (i : ℕ) : Instruction :=
  let wordIdx : Fin 8 := ⟨i % numRegisters, Nat.mod_lt _ (by decide)⟩
  let selector := words.get wordIdx + UInt64.ofNat i * 0x9e3779b97f4a7c15
  let opBits := selector &&& 0x07
  let dst : Fin 8 := Fin.ofNat 8 ((selector >>> 3) &&& 0x07).toNat
  let src := ((selector >>> 6) &&& srcMask).toUInt8
  match opBits.toNat with
  | 0 => .add dst src
  | 1 => .sub dst src
  | 2 => .mul dst src
  | 3 => .xor dst src
  | 4 => .rotl dst src
  | 5 => .rotr dst src
  | 6 => .mulh dst src
  | _ => .swap dst src

def generateProgram (state : State) : List Instruction :=
  (List.range programLength).map (instructionAt state.asU64Array)

/-- Write the program into a buffer. -/
def fillProgramBuffer (words : Words) (_buf : List Instruction) : List Instruction :=
  (List.range programLength).foldl (fun buf i => buf ++ [instructionAt words i]) []

def executeInstructions (state : State) (instructions : List Instruction)
    (node1 node2 : List UInt8) : State :=
  let node1Words := nodeAsU64Array node1
  let node2Words := nodeAsU64Array node2
  state.writeAllU64 (instructions.foldl
    (fun words instruction => instruction.execute words node1Words node2Words) state.asU64Array)

/-! ## Addresses -/

/-- A word as the index of a node. -/
def nodeIndex (word : UInt64) : Fin numNodes := ⟨word.toNat % numNodes, Nat.mod_lt _ numNodes_pos⟩

/-- The two nodes that a step reads and the one that it writes. -/
def deriveIndicesFromWords (words : Words) (step : UInt64) :
    Fin numNodes × Fin numNodes × Fin numNodes :=
  (nodeIndex ((words.get 0 + step) * (words.get 4 + 1)),
    nodeIndex (words.get 1 * (step + 1) + words.get 5),
    nodeIndex (words.get 2 ^^^ words.get 3 ^^^ step))

def deriveIndices (state : State) (step : UInt64) : Fin numNodes × Fin numNodes × Fin numNodes :=
  deriveIndicesFromWords state.asU64Array step

/-! ## Branches -/

/-- What is hashed for a branch. -/
def branchInput (state : State) (step : UInt32) (node1 node2 : List UInt8) : List UInt8 :=
  let branchVariant := (state.asU64Array.get 0 &&& branchMask).toUInt8
  let input := prefixedDomain "evo_omap_branch" ++ leBytes 4 step.toNat ++ [branchVariant]
  match branchVariant.toNat with
  | 0 => input ++ state.bytes ++ node1.take branchNodePrefix ++ node2.take branchNodePrefix
  | 1 => input ++ state.bytes ++ node2.take branchNodePrefix ++ node1.take branchNodePrefix
  | 2 => input ++ state.bytes ++ node1.take branchNodePrefix ++ node2.take branchNodePrefix
  | _ => input ++ state.bytes ++ node2.take branchNodePrefix ++ node1.take branchNodePrefix

/-- Mix what a branch hashes into the registers. -/
def applyBranch (H : Hashes) (state : State) (step : UInt32) (node1 node2 : List UInt8) : State :=
  let output := (H.blake3Xof (branchInput state step node1 node2) stateSize).bytes
  state.writeAllU64 (Vector.ofFn fun i => state.asU64Array.get i ^^^ wordAt output (i.val * 8))

/-! ## Only the front of a node matters -/

/-- A word that ends within a part is the same in the part. -/
theorem wordAt_take {bytes : List UInt8} {start size : ℕ} (h : start + 8 ≤ size) :
    wordAt (bytes.take size) start = wordAt bytes start := by
  unfold wordAt
  rw [List.drop_take, List.take_take, Nat.min_eq_left (by omega)]

theorem nodeAsU64Array_take (node : List UInt8) :
    nodeAsU64Array (node.take writeNodePrefix) = nodeAsU64Array node := by
  have hsize : operandWords * 8 ≤ writeNodePrefix := by decide
  apply Vector.ext
  intro i hi
  simp only [nodeAsU64Array, Vector.getElem_ofFn]
  apply wordAt_take
  omega

theorem executeInstructions_take (state : State) (instructions : List Instruction)
    (node1 node2 : List UInt8) :
    executeInstructions state instructions (node1.take writeNodePrefix)
        (node2.take writeNodePrefix) =
      executeInstructions state instructions node1 node2 := by
  unfold executeInstructions
  rw [nodeAsU64Array_take, nodeAsU64Array_take]

theorem branchInput_take (state : State) (step : UInt32) (node1 node2 : List UInt8) :
    branchInput state step (node1.take writeNodePrefix) (node2.take writeNodePrefix) =
      branchInput state step node1 node2 := by
  have hsize : min branchNodePrefix writeNodePrefix = branchNodePrefix := by decide
  unfold branchInput
  simp only [List.take_take, hsize]

/-- The program in the buffer is the program, whatever the buffer held before. -/
theorem fillProgramBuffer_eq (state : State) (buf : List Instruction) :
    fillProgramBuffer state.asU64Array buf = generateProgram state := by
  have hpush (list : List ℕ) (start : List Instruction) :
      list.foldl (fun buf i => buf ++ [instructionAt state.asU64Array i]) start =
        start ++ list.map (instructionAt state.asU64Array) := by
    induction list generalizing start with
    | nil => simp
    | cons i list ih => simp [ih]
  exact hpush _ []

end EvoOmap

end Opolys
