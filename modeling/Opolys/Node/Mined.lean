import Opolys.Consensus.PowContext
import Opolys.Node.Assembly
import Opolys.Rpc.Mining

/-!
# Mined blocks

A node takes a body from its pools, builds a candidate for it, and searches a nonce with the threads
of the mining library. What it finds is checked like any other block.

* `PowContext.found` : the search of the mining library.
* `mined_block_valid_iff` : when a node accepts what it has mined.
-/

namespace Opolys

open EvoOmap (Hashes)
open Effect (check_bind_eq_ok)
open MachineInt (saturatingAdd)

variable {H : Hashes} {P : Primitives} {threads : ℕ}

/-! ## The search -/

variable (H) in
/-- The nonce that the threads find for a header. As long as one of them is not done there is
none. -/
def PowContext.found (maxAttempts : UInt64) (schedule : List (Fin threads))
    (header : BlockHeader) : Option UInt64 :=
  (EvoOmap.mineParallel H (PowContext.search header header.difficulty maxAttempts)
    schedule).bind Prod.fst

/-- What is found verifies. -/
theorem verifyPowLight_found [NeZero threads] {maxAttempts : UInt64} {schedule : List (Fin threads)}
    {header : BlockHeader} {nonce : UInt64} (hroom : maxAttempts.toNat + threads < 2 ^ 64)
    (h : PowContext.found H maxAttempts schedule header = some nonce) :
    verifyPowLight (P.withEvoOmap H) (PowContext.minedBlock header nonce).header
      header.difficulty = .ok () := by
  obtain ⟨⟨found, attempts⟩, hmined, hfound⟩ := Option.bind_eq_some_iff.mp h
  dsimp only at hfound
  subst hfound
  by_cases hzero : header.difficulty = 0
  · have hnone : EvoOmap.mineParallel H (PowContext.search header header.difficulty maxAttempts)
        schedule = some (none, 0) := if_pos hzero
    rw [hnone] at hmined
    cases hmined
  · obtain ⟨hverifies, -, -⟩ := @EvoOmap.mineParallel_ends H threads _
      (PowContext.search header header.difficulty maxAttempts) hzero hroom schedule
    exact verifyPowLight_minedBlock_eq_ok.mpr (hverifies nonce attempts hmined).2

/-! ## The body -/

namespace OpolysNode

theorem length_foldl_takePending (list : List (UInt64 × ObjectId))
    (taken : List BlockAttestation × Std.ExtTreeMap (UInt64 × ObjectId) BlockAttestation) :
    (list.foldl takePending taken).1.length ≤ taken.1.length + list.length := by
  induction list generalizing taken with
  | nil => simp
  | cons key list ih =>
    have hfirst : (takePending taken key).1.length ≤ taken.1.length + 1 := by
      unfold takePending
      cases taken.2[key]? with
      | none => simp
      | some attestation => simp
    have hrest := ih (takePending taken key)
    rw [List.foldl_cons, List.length_cons]
    omega

/-- No more attestations are taken than a block may hold. -/
theorem length_drain_le (keys : KeyOrder) (nextHeight : UInt64) (node : OpolysNode) :
    (node.drainPendingAttestationsForBlock keys nextHeight).1.length ≤ maxAttestationsPerBlock := by
  have hcount := length_foldl_takePending (node.drainedKeys keys nextHeight)
    ([], node.includablePending nextHeight)
  have hkeys : (node.drainedKeys keys nextHeight).length ≤ maxAttestationsPerBlock :=
    List.length_take_le _ _
  simp only [List.length_nil, Nat.zero_add] at hcount
  exact hcount.trans hkeys

/-- The body of a node with a sound pool keeps to the limits, but for its size and for the data of
its transactions. -/
theorem withinLimits_assembleBody_iff {node : OpolysNode} (h : node.mempool.Sound)
    (env : AssemblyEnv) {block : Block}
    (htransactions : block.transactions = (node.assembleBody env).1.transactions)
    (hevidence : block.slashEvidence = (node.assembleBody env).1.slashEvidence)
    (hattestations : block.attestations = (node.assembleBody env).1.attestations) :
    block.WithinLimits ↔ blockSize block ≤ maxBlockSizeBytes ∧
      ∀ tx ∈ block.transactions, tx.data.length ≤ maxTxDataSizeBytes := by
  have hbody : block.transactions =
      (node.mempool.getOrderedTransactions env.order).take maxTransactionsPerBlock := htransactions
  constructor
  · intro hlimits
    exact ⟨hlimits.size, hlimits.data⟩
  · rintro ⟨hsize, hdata⟩
    refine {
      transactions := ?_
      evidence := ?_
      attestations := ?_
      size := hsize
      distinct := ?_
      data := hdata
      fee := ?_ }
    · rw [hbody]
      exact List.length_take_le _ _
    · rw [hevidence]
      exact List.length_take_le _ _
    · rw [hattestations]
      exact length_drain_le _ _ _
    · rw [hbody, List.map_take]
      exact (nodup_getOrderedTransactions h.consistent env.order).sublist (List.take_sublist _ _)
    · intro tx htx
      rw [hbody] at htx
      obtain ⟨id, e, he, rfl⟩ := mem_getOrderedTransactions (List.mem_of_mem_take htx)
      exact h.paysMinimum id e he

/-- A block that is built from a candidate and a nonce. -/
theorem mineBlock_eq_some {env : AssemblyEnv} {node : OpolysNode} {block : Block} :
    (node.mineBlock P env).1 = some block ↔
      ∃ candidate nonce, (node.assembleBody env).2.candidateBlock P env.nowSecs
          (node.assembleBody env).1 = .ok candidate ∧
        env.search candidate.header = some nonce ∧ block = withNonce nonce candidate := by
  unfold mineBlock
  dsimp only
  cases (node.assembleBody env).2.candidateBlock P env.nowSecs (node.assembleBody env).1 with
  | error e => simp
  | ok candidate => simp [eq_comm]

end OpolysNode

/-! ## Validation -/

/-- A candidate with a nonce is a mined block, unless it would be a genesis block. -/
theorem productionKind_withNonce {candidate : Block}
    (hsignature : candidate.header.refinerSignature = none) (nonce : UInt64) :
    (withNonce nonce candidate).header.productionKind = some .mined ↔
      candidate.header.height ≠ 0 := by
  have hunsigned : (withNonce nonce candidate).header.refinerSignature.isSome = false := by
    show candidate.header.refinerSignature.isSome = false
    rw [hsignature]
    rfl
  constructor
  · intro hkind hzero
    have hheight : (withNonce nonce candidate).header.height = 0 := hzero
    unfold BlockHeader.productionKind at hkind
    rw [decide_eq_true hheight] at hkind
    cases hkind
  · intro hpos
    exact BlockHeader.productionKind_mined hpos rfl hunsigned

/-- A proof that verifies needs no more than an identity. -/
theorem checkProof_mined_iff {header : BlockHeader} (hkind : header.productionKind = some .mined)
    (hverifies : verifyPowLight P header header.difficulty = .ok ()) :
    checkProof P header = .ok () ↔ header.producer.hash.isZero = false := by
  unfold checkProof
  rw [hkind]
  dsimp only
  rw [check_bind_eq_ok, hverifies]
  exact and_iff_left rfl

/-- The environment of a node that mines with the threads of the mining library. -/
def AssemblyEnv.mining (H : Hashes) (maxAttempts : UInt64) (schedule : List (Fin threads))
    (env : AssemblyEnv) : AssemblyEnv :=
  { env with search := PowContext.found H maxAttempts schedule }

/-- Whatever a node has been through, a block that it mines passes its own validation as long as
the block is not too large, no transaction carries more data than a block may hold, the producer is
no zero identity, the heights have not run out and the clock has come as far as the parent
allows. -/
theorem mined_block_valid_iff [NeZero threads] {config : GenesisConfig}
    {keyFile : Option (List UInt8)} {store : BlockchainStore} {start : OpolysNode}
    (hstart : OpolysNode.new (P.withEvoOmap H) config keyFile store = .ok start)
    (bannedPeers : BanList) (run : List Traffic) (env : AssemblyEnv) {maxAttempts : UInt64}
    (hroom : maxAttempts.toNat + threads < 2 ^ 64) (schedule : List (Fin threads)) :
    let node := (Transition.run (serve (P.withEvoOmap H)) (EventLoop.new start bannedPeers)
      run).node
    let mined := node.mineBlock (P.withEvoOmap H) (env.mining H maxAttempts schedule)
    ∀ (block : Block) (now : Env), mined.1 = some block →
      (checkBlock (P.withEvoOmap H) now block mined.2 = .ok .mined ↔
        blockSize block ≤ maxBlockSizeBytes ∧
          (∀ tx ∈ block.transactions, tx.data.length ≤ maxTxDataSizeBytes) ∧
          node.minerId.hash.isZero = false ∧ node.chain.currentHeight + 1 ≠ 0 ∧
          node.candidateTimestamp env.nowSecs ≤
            saturatingAdd now.nowSecs maxFutureBlockTimeSecs) := by
  intro node mined block now hmined
  have hsound : node.mempool.Sound := sound_run hstart bannedPeers run
  obtain ⟨candidate, nonce, hcandidate, hfound, hblock⟩ :=
    OpolysNode.mineBlock_eq_some.mp hmined
  obtain ⟨-, -, hheight, -, -, -, -, hproducer, -, hsignature, htransactions, hevidence,
    hattestations, -⟩ := OpolysNode.candidateBlock_eq_ok hcandidate
  have hnode : mined.2 = (node.assembleBody (env.mining H maxAttempts schedule)).2 :=
    OpolysNode.mineBlock_eq _ _
  have hproofs : block = candidate.withProofs (some (Codec.leBytes 8 nonce.toNat)) none := by
    rw [hblock, withNonce, Block.withProofs, ← hsignature]
  have hverifies : verifyPowLight (P.withEvoOmap H) block.header block.header.difficulty =
      .ok () := by
    rw [hblock]
    exact verifyPowLight_found hroom hfound
  have hlimits : block.WithinLimits ↔ blockSize block ≤ maxBlockSizeBytes ∧
      ∀ tx ∈ block.transactions, tx.data.length ≤ maxTxDataSizeBytes := by
    apply OpolysNode.withinLimits_assembleBody_iff hsound (env.mining H maxAttempts schedule)
    · rw [hblock]
      exact htransactions
    · rw [hblock]
      exact hevidence
    · rw [hblock]
      exact hattestations
  have hkind : block.header.productionKind = some .mined ↔ node.chain.currentHeight + 1 ≠ 0 := by
    rw [hblock, productionKind_withNonce hsignature, hheight]
    rfl
  have hproof (hmined : block.header.productionKind = some .mined) :
      checkProof (P.withEvoOmap H) block.header = .ok () ↔ node.minerId.hash.isZero = false := by
    have hidentity : block.header.producer = node.minerId := by
      rw [hblock]
      exact hproducer
    rw [checkProof_mined_iff hmined hverifies, hidentity]
  have hchecked := checkBlock_candidate hcandidate now (some (Codec.leBytes 8 nonce.toNat)) none
    .mined
  rw [← hproofs, hlimits] at hchecked
  rw [hnode, hchecked]
  constructor
  · rintro ⟨hmined, hclock, ⟨hsize, hdata⟩, hproved⟩
    have hpos := hkind.mp hmined
    exact ⟨hsize, hdata, (hproof hmined).mp (hproved (UInt64.pos_iff_ne_zero.mpr hpos)), hpos,
      hclock⟩
  · rintro ⟨hsize, hdata, hidentity, hpos, hclock⟩
    have hmined := hkind.mpr hpos
    exact ⟨hmined, hclock, ⟨hsize, hdata⟩, fun _ => (hproof hmined).mpr hidentity⟩

namespace Reference

/-- Primitives with which every nonce is a solution. -/
def zeroPrimitives : Primitives := primitives.withEvoOmap zeroHashes

/-- A node that mines with the mining library. -/
def libraryMiner : OpolysNode :=
  (OpolysNode.new zeroPrimitives bondConfig (some (seed 1).bytes)
    BlockchainStore.empty).toOption.getD emptyNode

theorem new_libraryMiner : OpolysNode.new zeroPrimitives bondConfig (some (seed 1).bytes)
    BlockchainStore.empty = .ok libraryMiner := Effect.eq_ok_getD (by decide +kernel)

/-- A clock, and maps in the order of their keys. -/
def clockAt (nowSecs : UInt64) : AssemblyEnv where
  nowSecs
  order := .byId
  keys := { order := id, perm := fun keys => List.Perm.refl keys }
  search _ := none

/-- Two threads search for the first block. -/
def miningEnv : AssemblyEnv := (clockAt 45).mining zeroHashes 3 race

/-- What a node mines in an environment, but for the nonce. -/
def libraryBlock (env : AssemblyEnv) (node : OpolysNode) : Block :=
  ((node.assembleBody env).2.candidateBlock zeroPrimitives env.nowSecs
    (node.assembleBody env).1).toOption.getD emptyBlock

/-- The node gets its first block, and then a transaction. -/
def miningRun : List Traffic :=
  [.block ⟨{ nowSecs := 45, writeOk := true }, withNonce 1 (libraryBlock miningEnv libraryMiner)⟩,
    .rpc ⟨46, .byId, 1⟩ (.encoded plain)]

/-- The node after that. -/
def busyMiner : OpolysNode :=
  (Transition.run (serve zeroPrimitives) (EventLoop.new libraryMiner ∅) miningRun).node

/-- The two threads search for the second block. -/
def nextMiningEnv : AssemblyEnv := (clockAt 135).mining zeroHashes 3 race

/-- The second block is paid for a transaction. -/
theorem busyMiner_computed : busyMiner.chain.currentHeight = 1 ∧
    (libraryBlock nextMiningEnv busyMiner).transactions = [plain] ∧
    ((busyMiner.assembleBody nextMiningEnv).2.candidateBlock zeroPrimitives nextMiningEnv.nowSecs
      (busyMiner.assembleBody nextMiningEnv).1).toOption.isSome = true ∧
    (libraryBlock nextMiningEnv busyMiner).header.difficulty ≠ 0 ∧
    (libraryBlock nextMiningEnv busyMiner).header.difficulty.toNat ≤ 256 := by
  decide +kernel

theorem search_nextMiningEnv {header : BlockHeader} (hpos : header.difficulty ≠ 0)
    (h : header.difficulty.toNat ≤ 256) : nextMiningEnv.search header = some 1 := by
  have hrace : EvoOmap.mineParallel zeroHashes (PowContext.search header header.difficulty 3) race =
      some (some 1, 2) := mineParallel_race hpos h rfl
  exact congrArg (fun mined => mined.bind Prod.fst) hrace

theorem mineBlock_busyMiner : (busyMiner.mineBlock zeroPrimitives nextMiningEnv).1 =
    some (withNonce 1 (libraryBlock nextMiningEnv busyMiner)) := by
  obtain ⟨-, -, hcandidate, hpos, hdifficulty⟩ := busyMiner_computed
  exact OpolysNode.mineBlock_eq_some.mpr ⟨libraryBlock nextMiningEnv busyMiner, 1,
    Effect.eq_ok_getD hcandidate, search_nextMiningEnv hpos hdifficulty, rfl⟩

end Reference

open Reference

theorem mined_block_valid_of_reference : busyMiner.chain.currentHeight = 1 ∧
    (libraryBlock nextMiningEnv busyMiner).transactions = [plain] ∧
    checkBlock zeroPrimitives { nowSecs := 135, writeOk := true }
      (withNonce 1 (libraryBlock nextMiningEnv busyMiner))
      (busyMiner.mineBlock zeroPrimitives nextMiningEnv).2 = .ok .mined := by
  have hroom : (3 : UInt64).toNat + 2 < 2 ^ 64 := by decide
  have hvalid := mined_block_valid_iff new_libraryMiner ∅ miningRun (clockAt 135) hroom race
  refine ⟨busyMiner_computed.1, busyMiner_computed.2.1, ?_⟩
  refine (hvalid _ { nowSecs := 135, writeOk := true } mineBlock_busyMiner).mpr ?_
  decide +kernel

end Opolys
