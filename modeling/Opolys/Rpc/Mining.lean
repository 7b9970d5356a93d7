import Opolys.Consensus.PowBinding
import Opolys.Consensus.Replacement
import Opolys.Node.Candidate
import Opolys.Node.Routes

/-!
# Mining jobs

A miner outside of the node asks the server for the header of the next block, and adds a nonce.
The server builds the header from its snapshot of the chain the way the node does when it mines
itself, but it takes the time from the clock as it is.

* `job_minable_iff` : when a block that is built from a job is valid.
-/

namespace Opolys

open Codec (Borsh FixedBytes leBytes)
open Effect (bind_eq_ok check_bind_eq_ok)
open MachineInt (saturatingAdd)
open Mempool (Consistent PaysMinimum)

/-! ## The handler -/

/-- What the handler of mining jobs reads. -/
structure RpcState where
  chain : ChainInfo
  refiners : RefinerSet
  mempool : Mempool
  minerId : ObjectId

/-- What the server of a node reads while its snapshot is that of the present chain. -/
def OpolysNode.rpcState (node : OpolysNode) : RpcState where
  chain := chainStateToInfo node.chain
  refiners := node.refiners
  mempool := node.mempool
  minerId := node.minerId

/-- Why the server gives no job. -/
inductive JobError where
  /-- "Mining jobs require the node to start with --key-file" -/
  | noKeyFile
  | internal (e : OpolysError)

/-- A mining job. The hashes are sent as hexadecimal text. -/
structure MiningJobResponse where
  version : UInt32
  height : BlockHeight
  previousHash : Hash
  stateRoot : Hash
  transactionRoot : Hash
  difficulty : UInt64
  target : UInt64
  suggestedFee : FlakeAmount
  timestamp : UInt64
  transactionCount : ℕ
  producer : ObjectId
  headerBytes : List UInt8

/-- How many transactions go into a job. -/
def maxJobTransactions : ℕ := 100

section Handler

variable (P : Primitives)

/-- The transactions of a job. -/
def RpcState.jobTransactions (state : RpcState) (order : IterOrder) : List Transaction :=
  (state.mempool.getOrderedTransactions order).take maxJobTransactions

/-- The block whose header a job is about. -/
def RpcState.jobTemplate (state : RpcState) (order : IterOrder) (nowSecs : UInt64) :
    Except OpolysError Block := do
  let chain := state.chain
  let bondedStake := state.refiners.totalBondedStake
  let diffTarget := computeNextDifficulty chain.difficulty chain.height chain.blockTimestamps
    chain.totalIssued bondedStake
  let transactions := state.jobTransactions order
  let slashEvidence := []
  let attestations := []
  let genesisCeremony := none
  let transactionRoot := computeTransactionRoot P transactions
  let evidenceRoot ← computeEvidenceRoot P slashEvidence
  let attestationRoot ← computeAttestationRoot P attestations
  let genesisCeremonyHash ← computeGenesisCeremonyHash P genesisCeremony
  let header := {
    version := blockVersion
    height := chain.height + 1
    previousHash := chain.latestBlockHash
    stateRoot := chain.stateRoot
    transactionRoot, evidenceRoot, attestationRoot, genesisCeremonyHash
    timestamp := nowSecs
    difficulty := diffTarget.effectiveDifficulty
    suggestedFee := chain.suggestedFee
    extensionRoot := none
    producer := state.minerId
    powProof := none
    refinerSignature := none }
  return { header, transactions, slashEvidence, attestations, genesisCeremony }

/-- A job for a miner. -/
def handleGetMiningJob (state : RpcState) (order : IterOrder) (nowSecs : UInt64) :
    Except JobError MiningJobResponse := do
  Effect.check (state.minerId.hash.isZero = false) .noKeyFile
  let block ← (state.jobTemplate P order nowSecs).mapError .internal
  let header := block.header
  return {
    version := blockVersion
    height := header.height
    previousHash := header.previousHash
    stateRoot := header.stateRoot
    transactionRoot := header.transactionRoot
    difficulty := header.difficulty
    target := Emission.difficultyToTarget header.difficulty
    suggestedFee := header.suggestedFee
    timestamp := header.timestamp
    transactionCount := block.transactions.length
    producer := header.producer
    headerBytes := serializeHeaderForPow header }

end Handler

variable {P : Primitives}

/-- A block that is built from a job: the header of the job with a nonce that proves it, over the
transactions of the job. -/
structure SolvesJob (P : Primitives) (state : RpcState) (order : IterOrder)
    (job : MiningJobResponse) (nonce : UInt64) (block : Block) : Prop where
  headerBytes : serializeHeaderForPow block.header = job.headerBytes
  producer : block.header.producer = job.producer
  powProof : block.header.powProof = some (leBytes 8 nonce.toNat)
  refinerSignature : block.header.refinerSignature = none
  transactions : block.transactions = state.jobTransactions order
  slashEvidence : block.slashEvidence = []
  attestations : block.attestations = []
  genesisCeremony : block.genesisCeremony = none
  proved : checkProof P block.header = .ok ()

/-- What the server puts into the block of a job. -/
theorem jobTemplate_eq_ok {state : RpcState} {order : IterOrder} {nowSecs : UInt64} {block : Block}
    (h : state.jobTemplate P order nowSecs = .ok block) :
    block.RootsMatch P ∧ block.header.version = blockVersion ∧
      block.header.height = state.chain.height + 1 ∧
      block.header.previousHash = state.chain.latestBlockHash ∧
      block.header.timestamp = nowSecs ∧
      block.header.difficulty = (computeNextDifficulty state.chain.difficulty state.chain.height
        state.chain.blockTimestamps state.chain.totalIssued
        state.refiners.totalBondedStake).effectiveDifficulty ∧
      block.header.extensionRoot = none ∧ block.transactions = state.jobTransactions order ∧
      block.slashEvidence = [] ∧ block.attestations = [] ∧ block.genesisCeremony = none := by
  unfold RpcState.jobTemplate at h
  obtain ⟨evidenceRoot, hevidence, h⟩ := bind_eq_ok.mp h
  obtain ⟨attestationRoot, hattestation, h⟩ := bind_eq_ok.mp h
  obtain ⟨ceremonyHash, hceremony, h⟩ := bind_eq_ok.mp h
  cases h
  exact ⟨⟨rfl, hevidence, hattestation, hceremony⟩, rfl, rfl, rfl, rfl, rfl, rfl, rfl,
    rfl, rfl, rfl⟩

theorem handleGetMiningJob_eq_ok {state : RpcState} {order : IterOrder} {nowSecs : UInt64}
    {job : MiningJobResponse} (h : handleGetMiningJob P state order nowSecs = .ok job) :
    ∃ template, state.jobTemplate P order nowSecs = .ok template ∧
      job.headerBytes = serializeHeaderForPow template.header ∧
      job.producer = template.header.producer := by
  unfold handleGetMiningJob at h
  rw [check_bind_eq_ok] at h
  obtain ⟨template, htemplate, h⟩ := bind_eq_ok.mp h.2
  rw [mapError_eq_ok] at htemplate
  cases h
  exact ⟨template, htemplate, rfl, rfl⟩

/-- The bytes of a job and its producer leave only the proof of the header open. -/
theorem SolvesJob.header_eq {state : RpcState} {order : IterOrder} {job : MiningJobResponse}
    {nonce : UInt64} {block template : Block} (h : SolvesJob P state order job nonce block)
    (hbytes : job.headerBytes = serializeHeaderForPow template.header)
    (hproducer : job.producer = template.header.producer) :
    block.header = { template.header with
      powProof := some (leBytes 8 nonce.toNat), refinerSignature := none } := by
  have hunproved : block.header.unproved = template.header.unproved :=
    BlockHeader.unproved_eq_iff.mpr ⟨h.producer.trans hproducer,
      serializeHeaderForPow_eq_iff.mp (h.headerBytes.trans hbytes)⟩
  calc block.header = { block.header.unproved with
        powProof := block.header.powProof
        refinerSignature := block.header.refinerSignature } := rfl
    _ = _ := by
        rw [hunproved, h.powProof, h.refinerSignature]
        rfl

/-- A miner builds such a block by adding a nonce to the header. -/
theorem solvesJob_withNonce {state : RpcState} {order : IterOrder} {nowSecs : UInt64}
    {job : MiningJobResponse} {template : Block}
    (htemplate : state.jobTemplate P order nowSecs = .ok template)
    (hjob : handleGetMiningJob P state order nowSecs = .ok job) {nonce : UInt64}
    (hproof : checkProof P (withNonce nonce template).header = .ok ()) :
    SolvesJob P state order job nonce (withNonce nonce template) := by
  obtain ⟨template', htemplate', hbytes, hproducer⟩ := handleGetMiningJob_eq_ok hjob
  rw [htemplate] at htemplate'
  cases htemplate'
  obtain ⟨-, -, -, -, -, -, -, htransactions, hevidence, hattestations, hceremony⟩ :=
    jobTemplate_eq_ok htemplate
  exact {
    headerBytes := hbytes.symm
    producer := hproducer.symm
    powProof := rfl
    refinerSignature := by
      unfold RpcState.jobTemplate at htemplate
      obtain ⟨_, -, htemplate⟩ := bind_eq_ok.mp htemplate
      obtain ⟨_, -, htemplate⟩ := bind_eq_ok.mp htemplate
      obtain ⟨_, -, htemplate⟩ := bind_eq_ok.mp htemplate
      cases htemplate
      rfl
    transactions := htransactions
    slashEvidence := hevidence
    attestations := hattestations
    genesisCeremony := hceremony
    proved := hproof }

/-! ## The pool -/

/-- A pool whose transactions fit into a block. -/
structure Mempool.Sound (pool : Mempool) : Prop where
  consistent : pool.Consistent
  paysMinimum : pool.PaysMinimum
  short : ∀ (id : ObjectId) (e : MempoolEntry), pool.entries[id]? = some e →
    (Borsh.encode e.transaction).length ≤ txMaxSizeBytes

theorem Mempool.sound_new : Mempool.new.Sound where
  consistent := consistent_new
  paysMinimum := fun id e he => by simp [Mempool.new] at he
  short := fun id e he => by simp [Mempool.new] at he

theorem Mempool.Sound.emptied {pool pool' : Mempool} (h : pool.Sound)
    (hemptied : Emptied pool pool') :
    pool'.Sound where
  consistent := hemptied.consistent h.consistent
  paysMinimum := fun id e he => h.paysMinimum id e (hemptied.shrinks.entries he)
  short := fun id e he => h.short id e (hemptied.shrinks.entries he)

/-- Both handlers look at the size of a transaction, and the pool at its fee. -/
theorem sound_serve {loop : EventLoop} (h : loop.node.mempool.Sound) (traffic : Traffic) :
    (serve P loop traffic).node.mempool.Sound := by
  rcases serve_cases (P := P) loop traffic with ⟨-, hemptied⟩ | ⟨s, hs, -⟩
  · exact h.emptied hemptied
  · obtain ⟨arrival, route, htx, -, hserve⟩ := serve_offer hs
    rw [hserve]
    unfold offer
    refine ⟨Mempool.consistent_perform P h.consistent _, h.paysMinimum.perform h.consistent _, ?_⟩
    intro id e he
    rcases Mempool.perform_cases h.consistent _ he with hold | ⟨_, _, _, _, _, _, _, hop, -, hnew⟩
    · exact h.short id e hold
    · unfold Arrival.operation at hop
      injection hop with _ hsame
      rw [hnew, ← hsame]
      exact arrival.size_le

/-- The pool of a node is sound whatever it has been through since it started. -/
theorem sound_run {config : GenesisConfig} {keyFile : Option (List UInt8)}
    {store : BlockchainStore} {node : OpolysNode}
    (h : OpolysNode.new P config keyFile store = .ok node) (bannedPeers : BanList)
    (run : List Traffic) :
    (Transition.run (serve P) (EventLoop.new node bannedPeers) run).node.mempool.Sound := by
  have hstart : (EventLoop.new node bannedPeers).node.mempool.Sound := by
    change node.mempool.Sound
    rw [OpolysNode.new_mempool h]
    exact Mempool.sound_new
  have hstep (loop : EventLoop) (traffic : Traffic) (h : loop.node.mempool.Sound) :
      (serve P loop traffic).node.mempool.Sound := sound_serve h traffic
  exact Transition.run_invariant hstep run hstart

/-! ## The body of a job -/

theorem length_encode_list_le {α : Type} [Borsh α] {xs : List α} {n : ℕ}
    (h : ∀ x ∈ xs, (Borsh.encode x).length ≤ n) :
    (Borsh.encode xs).length ≤ 4 + xs.length * n := by
  have hsum : (xs.flatMap Borsh.encode).length ≤ xs.length * n := by
    induction xs with
    | nil => simp
    | cons x xs ih =>
      have hx := h x List.mem_cons_self
      have hxs := ih fun y hy => h y (List.mem_cons_of_mem x hy)
      rw [List.flatMap_cons, List.length_append, List.length_cons, Nat.succ_mul]
      omega
  change (leBytes 4 xs.length ++ xs.flatMap Borsh.encode).length ≤ _
  rw [List.length_append, Codec.length_leBytes]
  omega

theorem fits_transaction_of_length {tx : Transaction}
    (h : (Borsh.encode tx).length ≤ txMaxSizeBytes) : Borsh.fits tx = true := by
  have hmax : txMaxSizeBytes = 100000 := rfl
  rw [length_encode_transaction] at h
  apply fits_transaction
  · omega
  · omega
  · omega

theorem mem_getOrderedTransactions {pool : Mempool} {order : IterOrder} {tx : Transaction}
    (h : tx ∈ pool.getOrderedTransactions order) :
    ∃ (id : ObjectId) (e : MempoolEntry), pool.entries[id]? = some e ∧ e.transaction = tx := by
  unfold Mempool.getOrderedTransactions at h
  obtain ⟨e, he, rfl⟩ := List.mem_map.mp h
  rw [List.mem_insertionSort] at he
  obtain ⟨⟨id, e'⟩, hmem, rfl⟩ := List.mem_map.mp he
  exact ⟨id, e', Mempool.mem_iter.mp hmem, rfl⟩

/-- The ids of the pool are its keys, so the transactions are told apart by them. -/
theorem nodup_getOrderedTransactions {pool : Mempool} (h : pool.Consistent) (order : IterOrder) :
    ((pool.getOrderedTransactions order).map Transaction.txId).Nodup := by
  have hkeys : (pool.iter order).map (fun p => p.2.transaction.txId) =
      (pool.iter order).map Prod.fst := by
    apply List.map_congr_left
    intro p hp
    exact (h.key_eq (Mempool.mem_iter.mp hp)).symm
  have hperm := List.perm_insertionSort (fun a b => Mempool.ordersBefore a b)
    ((pool.iter order).map Prod.snd)
  have hids := (hperm.map MempoolEntry.transaction).map Transaction.txId
  unfold Mempool.getOrderedTransactions
  rw [hids.nodup_iff, List.map_map, List.map_map]
  change ((pool.iter order).map fun p => p.2.transaction.txId).Nodup
  rw [hkeys]
  exact (Mempool.lists_iter pool order).nodup

/-- The body of a job is a body of a block, but for the data of its transactions. -/
theorem withinLimits_job_iff {pool : Mempool} (h : pool.Sound) {order : IterOrder} {block : Block}
    {proof : List UInt8}
    (htransactions :
      block.transactions = (pool.getOrderedTransactions order).take maxJobTransactions)
    (hevidence : block.slashEvidence = []) (hattestations : block.attestations = [])
    (hceremony : block.genesisCeremony = none) (hext : block.header.extensionRoot = none)
    (hsignature : block.header.refinerSignature = none)
    (hproof : block.header.powProof = some proof) (hlength : proof.length = 8) :
    block.WithinLimits ↔ ∀ tx ∈ block.transactions, tx.data.length ≤ maxTxDataSizeBytes := by
  have hmember {tx : Transaction} (htx : tx ∈ block.transactions) :
      ∃ (id : ObjectId) (e : MempoolEntry), pool.entries[id]? = some e ∧ e.transaction = tx := by
    rw [htransactions] at htx
    exact mem_getOrderedTransactions (List.mem_of_mem_take htx)
  have hcount : block.transactions.length ≤ maxJobTransactions := by
    rw [htransactions]
    exact List.length_take_le _ _
  have hshort (tx : Transaction) (htx : tx ∈ block.transactions) :
      (Borsh.encode tx).length ≤ txMaxSizeBytes := by
    obtain ⟨id, e, he, rfl⟩ := hmember htx
    exact h.short id e he
  have hjob : maxJobTransactions = 100 := rfl
  constructor
  · intro hlimits
    exact hlimits.data
  · intro hdata
    refine {
      transactions := ?_
      evidence := by simp [hevidence]
      attestations := by simp [hattestations]
      size := ?_
      distinct := ?_
      data := hdata
      fee := ?_ }
    · have hmax : maxTransactionsPerBlock = 10000 := rfl
      omega
    · -- a hundred transactions of the greatest size take up less than a block
      have hfits : Borsh.fits block.transactions = true := by
        refine Borsh.fits_list.mpr ⟨by omega, fun tx htx => ?_⟩
        exact fits_transaction_of_length (hshort tx htx)
      have hencode := length_encode_list_le hshort
      have hsize := blockSize_le hext hsignature hproof hlength hfits
      have hsame :
          blockSize block = blockSize ⟨block.header, block.transactions, [], [], none⟩ := by
        rw [← hevidence, ← hattestations, ← hceremony]
      have htx : txMaxSizeBytes = 100000 := rfl
      have hblock : maxBlockSizeBytes = 10485760 := rfl
      have hbound := Nat.mul_le_mul_right txMaxSizeBytes hcount
      rw [hjob, htx] at hbound
      rw [htx] at hencode
      omega
    · rw [htransactions, List.map_take]
      exact (nodup_getOrderedTransactions h.consistent order).sublist (List.take_sublist _ _)
    · intro tx htx
      obtain ⟨id, e, he, rfl⟩ := hmember htx
      exact h.paysMinimum id e he

/-! ## Validation -/

/-- At any time, a block that is built from a job of a node is valid for the node if and only if
the clock has come as far as the parent allows and no transaction of the job carries more data than
a block may hold. -/
theorem job_minable_iff (P : Primitives) {config : GenesisConfig} {keyFile : Option (List UInt8)}
    {store : BlockchainStore} {start node : OpolysNode} {bannedPeers : BanList}
    {run : List Traffic} (hstart : OpolysNode.new P config keyFile store = .ok start)
    (hnode : node = (Transition.run (serve P) (EventLoop.new start bannedPeers) run).node)
    {order : IterOrder} {nowSecs : UInt64} {job : MiningJobResponse} {nonce : UInt64}
    {block : Block}
    (hjob : handleGetMiningJob P node.rpcState order nowSecs = .ok job)
    (hblock : SolvesJob P node.rpcState order job nonce block) :
    validateBlock P block (node.chain.currentHeight + 1) node.chain.latestBlockHash
        (node.chain.blockTimestamps.getLast?.getD 0) node.expectedDifficulty nowSecs = .ok () ↔
      (node.chain.currentHeight + 1 > 0 →
          saturatingAdd (node.chain.blockTimestamps.getLast?.getD 0)
            minimumBlockTimestampDeltaSecs ≤ nowSecs) ∧
        ∀ tx ∈ (node.mempool.getOrderedTransactions order).take maxJobTransactions,
          tx.data.length ≤ maxTxDataSizeBytes := by
  have hsound : node.mempool.Sound := by
    rw [hnode]
    exact sound_run hstart bannedPeers run
  obtain ⟨template, htemplate, hbytes, hproducer⟩ := handleGetMiningJob_eq_ok hjob
  obtain ⟨hroots, hversion, hheight, hparent, htime, hdifficulty, hext, htransactions, hevidence,
    hattestations, hceremony⟩ := jobTemplate_eq_ok htemplate
  have hheader := hblock.header_eq hbytes hproducer
  have hmatch : block.RootsMatch P := by
    constructor
    · rw [hblock.transactions, ← htransactions, hroots.transactions, hheader]
    · rw [hblock.slashEvidence, ← hevidence, hroots.evidence, hheader]
    · rw [hblock.attestations, ← hattestations, hroots.attestations, hheader]
    · rw [hblock.genesisCeremony, ← hceremony, hroots.ceremony, hheader]
  have hclock : nowSecs ≤ saturatingAdd nowSecs maxFutureBlockTimeSecs := by
    rw [UInt64.le_iff_toNat_le, MachineInt.toNat_saturatingAdd]
    have hword := nowSecs.toNat_lt
    omega
  have hlimits := withinLimits_job_iff hsound hblock.transactions hblock.slashEvidence
    hblock.attestations hblock.genesisCeremony (by rw [hheader]; exact hext)
    hblock.refinerSignature hblock.powProof (Codec.length_leBytes _ _)
  have hversion' : block.header.version = blockVersion := by rw [hheader]; exact hversion
  have hheight' : block.header.height = node.chain.currentHeight + 1 := by
    rw [hheader]; exact hheight
  have hparent' : block.header.previousHash = node.chain.latestBlockHash := by
    rw [hheader]; exact hparent
  have htime' : block.header.timestamp = nowSecs := by rw [hheader]; exact htime
  have hdifficulty' : block.header.difficulty = node.expectedDifficulty := by
    rw [hheader]; exact hdifficulty
  rw [validateBlock_eq_ok, checkHeader_eq_ok, hlimits, hblock.transactions, htime']
  constructor
  · intro h
    exact ⟨h.1.2.2.2.1, h.2.1.1⟩
  · intro h
    exact ⟨⟨hversion', hheight', hparent', h.1, hclock, hdifficulty'⟩, ⟨h.2, hmatch⟩,
      fun _ => hblock.proved⟩

namespace Reference

/-- The block of a job that a node gives at a time, with a nonce. -/
def jobBlockOf (node : OpolysNode) (nowSecs : UInt64) : Block :=
  withNonce 0 ((node.rpcState.jobTemplate primitives .byId nowSecs).toOption.getD emptyBlock)

/-- The block of a job of a fresh node. -/
def jobBlock (nowSecs : UInt64) : Block := jobBlockOf founder nowSecs

theorem jobBlock_solves (node : OpolysNode) (nowSecs : UInt64)
    (h : (node.rpcState.jobTemplate primitives .byId nowSecs).toOption.isSome = true)
    (hkey : (handleGetMiningJob primitives node.rpcState .byId nowSecs).toOption.isSome = true)
    (hproof : checkProof primitives (jobBlockOf node nowSecs).header = .ok ()) :
    ∃ job, handleGetMiningJob primitives node.rpcState .byId nowSecs = .ok job ∧
      SolvesJob primitives node.rpcState .byId job 0 (jobBlockOf node nowSecs) := by
  cases hjob : handleGetMiningJob primitives node.rpcState .byId nowSecs with
  | error e =>
    rw [hjob] at hkey
    cases hkey
  | ok job => exact ⟨job, rfl, solvesJob_withNonce (Effect.eq_ok_getD h) hjob hproof⟩

/-- The server of a fresh node is sent a transaction. -/
def sending (tx : Transaction) : Traffic := .rpc ⟨1, .byId, 1⟩ (.encoded tx)

/-- The node with the transaction. -/
def holder (tx : Transaction) : OpolysNode :=
  (Transition.run (serve primitives) (EventLoop.new founder ∅) [sending tx]).node

/-- A transaction with the most data that a block may hold. -/
def heaviest : Transaction := { plain with data := List.replicate 1024 0 }

/-- The node gives a job, and its block is valid. -/
def Minable (node : OpolysNode) (nowSecs : UInt64) : Prop :=
  ∃ job, handleGetMiningJob primitives node.rpcState .byId nowSecs = .ok job ∧
    validateBlock primitives (jobBlockOf node nowSecs) (node.chain.currentHeight + 1)
      node.chain.latestBlockHash (node.chain.blockTimestamps.getLast?.getD 0)
      node.expectedDifficulty nowSecs = .ok ()

end Reference

open Reference

/-- 45 seconds after genesis a job with a transaction is minable, but not with one that has more
data than a block may hold. -/
theorem job_minable_of_reference :
    (jobBlockOf (holder heaviest) 45).transactions = [heaviest] ∧ Minable (holder heaviest) 45 ∧
      (jobBlockOf (holder loaded) 45).transactions = [loaded] ∧ ¬Minable (holder loaded) 45 := by
  have hmined (tx : Transaction) : holder tx =
      (Transition.run (serve primitives) (EventLoop.new founder ∅) [sending tx]).node := rfl
  refine ⟨by decide +kernel, ?_, by decide +kernel, ?_⟩
  · obtain ⟨job, hjob, hsolves⟩ := jobBlock_solves (holder heaviest) 45
      (by decide +kernel) (by decide +kernel) (by decide +kernel)
    refine ⟨job, hjob, ?_⟩
    exact (job_minable_iff primitives new_founder (hmined heaviest) hjob hsolves).mpr
      (by decide +kernel)
  · obtain ⟨job, hjob, hsolves⟩ := jobBlock_solves (holder loaded) 45
      (by decide +kernel) (by decide +kernel) (by decide +kernel)
    rintro ⟨-, -, hvalid⟩
    have hlight := (job_minable_iff primitives new_founder (hmined loaded) hjob hsolves).mp hvalid
    exact absurd hlight.2 (by decide +kernel)

/-- A second earlier the block of the job is refused, while the block that the node mines itself
at that time is accepted. -/
theorem job_refused :
    OpolysNode.new primitives bondConfig (some (seed 1).bytes) BlockchainStore.empty = .ok founder ∧
      (∃ job, handleGetMiningJob primitives founder.rpcState .byId 44 = .ok job ∧
        SolvesJob primitives founder.rpcState .byId job 0 (jobBlock 44)) ∧
      validateBlock primitives (jobBlock 44) (founder.chain.currentHeight + 1)
        founder.chain.latestBlockHash (founder.chain.blockTimestamps.getLast?.getD 0)
        founder.expectedDifficulty 44 ≠ .ok () ∧
      validateBlock primitives
        (withNonce 0 ((founder.candidateBlock primitives 44 {}).toOption.getD emptyBlock))
        (founder.chain.currentHeight + 1) founder.chain.latestBlockHash
        (founder.chain.blockTimestamps.getLast?.getD 0) founder.expectedDifficulty 44 = .ok () :=
  ⟨new_founder, jobBlock_solves founder 44 (by decide +kernel) (by decide +kernel)
    (by decide +kernel),
    by decide +kernel, by decide +kernel⟩

end Opolys
