import Opolys.Consensus.Lifecycle
import Opolys.Consensus.Limits
import Opolys.Execution.Executed
import Opolys.Node.Credits
import Opolys.Node.DoubleSign
import Opolys.Node.Run

/-!
# What an accepted block does

A block that is accepted goes through all stages of `applyBlock`. `Stages` names what each
of them leaves and `Accepted` says how it follows from the one before: which part of the
node it writes, and what it writes there. Everything else is the same as before, so a
result about runs of accepted blocks looks only at the stages that write what it is about.
-/

namespace Opolys

open Effect
open MachineInt (saturatingAdd)

variable {P : Primitives}

/-- What the stages of a block leave. -/
structure Stages where
  kind : BlockProductionKind
  log : AttestationLog
  /-- After the attestations. -/
  attested : OpolysNode
  /-- After the move of the finalized height. -/
  finalized : OpolysNode
  /-- After the evidence. -/
  slashing : Slashing
  opening : Opening
  /-- After the reward. -/
  opened : OpolysNode
  tally : TxTally
  /-- After the transactions. -/
  executed : OpolysNode
  /-- After the fees, the burns and the move of the tip. -/
  settled : OpolysNode
  /-- After the matured withdrawals. -/
  paid : OpolysNode
  stateRoot : Hash

/-! ## Opening -/

/-- A round over the attestations writes the index of attesters and the refiners. -/
theorem processAttestation_eq_ok {header : BlockHeader} {log log' : AttestationLog}
    {attestation : BlockAttestation} {node node' : OpolysNode}
    (h : processAttestation P header log attestation node = .ok log' node') :
    attestation.height < header.height ∧
      (attestation.height, attestation.refiner) ∉ log.processed ∧
      ∃ store attested, node.store = some store ∧
        store.loadBlock attestation.height = some attested ∧
        attested.header.isRefined = true ∧
        verifyBlockAttestationAgainstRefiners P attestation
          (computeBlockHash P attested.header) node.refiners = .ok () ∧
        ∃ refiners, node.refiners.recordCorrectAttestation attestation.refiner = .ok refiners ∧
          log' = { processed := (attestation.height, attestation.refiner) :: log.processed,
                   touched := log.touched.insert
                     (attestation.height, computeBlockHash P attested.header) } ∧
          node' = { recordAttester (attestation.height, computeBlockHash P attested.header)
            attestation.refiner node with refiners } := by
  unfold processAttestation at h
  rw [run_ensure_bind_eq_ok] at h
  obtain ⟨hheight, h⟩ := h
  rw [run_ensure_bind_eq_ok] at h
  obtain ⟨hfresh, h⟩ := h
  rw [run_get_bind, run_require_bind_eq_ok] at h
  obtain ⟨store, hstore, h⟩ := h
  rw [run_require_bind_eq_ok] at h
  obtain ⟨attested, hload, h⟩ := h
  rw [run_ensure_bind_eq_ok] at h
  obtain ⟨hrefined, h⟩ := h
  rw [run_get_bind, run_ofExcept_bind_eq_ok] at h
  obtain ⟨⟨⟩, hverify, h⟩ := h
  rw [run_modify_bind, run_get_bind, run_ofExcept_bind_eq_ok] at h
  obtain ⟨refiners, hrecord, h⟩ := h
  rw [run_modify_bind, run_pure_eq_ok] at h
  obtain ⟨rfl, rfl⟩ := h
  exact ⟨hheight, hfresh, store, attested, hstore, hload, hrefined, hverify, refiners, hrecord,
    rfl, rfl⟩

theorem processAttestations_eq_ok {block : Block} {node node' : OpolysNode}
    (h : processAttestations P block node = .ok () node') :
    ∃ log attested,
      block.attestations.foldlM (processAttestation P block.header) ⟨[], ∅⟩ node =
        .ok log attested ∧
      node' = advanceFinality
        (activeRefinerWeightMilliThreshold node.refiners block.header.timestamp)
        block.header.timestamp log.touched attested := by
  unfold processAttestations at h
  rw [run_get_bind, run_bind_eq_ok] at h
  obtain ⟨log, attested, hloop, h⟩ := h
  cases h
  exact ⟨log, attested, hloop, rfl⟩

/-- The state in which the evidence of a block is acted on. -/
def initialSlashing (node : OpolysNode) : Slashing :=
  { refiners := node.refiners, totalBurned := node.chain.totalBurned, slashedBurned := 0,
    processed := [] }

theorem detectDoubleSign_frame (header : BlockHeader) (node : OpolysNode) :
    Ends (detectDoubleSign P header) node
      (fun _ node' => node' = { node with chain :=
        { node.chain with producerSignatures := node'.chain.producerSignatures } })
      (fun _ _ => False) := Ends.of_ok (detectDoubleSign_eq header node) rfl

theorem beginBlock_eq_ok {kind : BlockProductionKind} {bondedStake : FlakeAmount} {block : Block}
    {node node' : OpolysNode} {opening : Opening}
    (h : beginBlock P kind bondedStake block node = .ok opening node') :
    let slashing := block.slashEvidence.foldl (slashStep P) (initialSlashing node)
    opening.kind = kind ∧
      opening.porFeeMarket = (if kind = .refined then
        some (node.refiners.totalActiveRefiners,
          RefinerSet.activeRefinerLimit node.chain.totalIssued) else none) ∧
      opening.slashedBurned = slashing.slashedBurned ∧
      opening.reward = (blockReward P kind block.header node.chain bondedStake).2 ∧
      creditProducer block.header.producer opening.reward.minerShare node.accounts =
        .ok node'.accounts ∧
      node' = { node with
        chain := { node.chain with
          totalBurned := slashing.totalBurned
          producerSignatures := node'.chain.producerSignatures }
        refiners := slashing.refiners
        accounts := node'.accounts } := by
  intro slashing
  unfold beginBlock processSlashEvidence at h
  rw [run_get_bind, run_bind_eq_ok] at h
  obtain ⟨slashedBurned, node1, hslash, h⟩ := h
  obtain ⟨rfl, rfl⟩ : slashing.slashedBurned = slashedBurned ∧ { node with
      refiners := slashing.refiners
      chain := { node.chain with totalBurned := slashing.totalBurned } } = node1 :=
    run_pure_eq_ok.mp hslash
  rw [run_bind_eq_ok] at h
  obtain ⟨newEvidence, node2, hdetect, h⟩ := h
  have hnode2 := (detectDoubleSign_frame block.header _).ok hdetect
  rw [run_get_bind] at h
  have hreward : blockReward P kind block.header node2.chain bondedStake =
      blockReward P kind block.header node.chain bondedStake := by
    rw [hnode2]
    rfl
  rw [hreward] at h
  generalize blockReward P kind block.header node.chain bondedStake = parts at h ⊢
  obtain ⟨veinYieldMilli, reward⟩ := parts
  dsimp only at h
  rw [run_get_bind, run_ofExcept_bind_eq_ok] at h
  obtain ⟨accounts, hcredit, h⟩ := h
  cases h
  refine ⟨rfl, rfl, rfl, rfl, ?_, ?_⟩
  · rw [hnode2] at hcredit
    exact hcredit
  · rw [hnode2]

/-- What a block that opens shows, and what is noted of it. -/
theorem beginBlock_detects {kind : BlockProductionKind} {bondedStake : FlakeAmount}
    {block : Block} {node node' : OpolysNode} {opening : Opening}
    (h : beginBlock P kind bondedStake block node = .ok opening node') :
    opening.newEvidence =
        doubleSigned P node.accounts node.chain.producerSignatures block.header ∧
      node'.chain.producerSignatures =
        noted P node.chain.producerSignatures block.header := by
  unfold beginBlock processSlashEvidence at h
  rw [run_get_bind, run_bind_eq_ok] at h
  obtain ⟨slashedBurned, node1, hslash, h⟩ := h
  cases hslash
  rw [run_bind_eq_ok] at h
  obtain ⟨newEvidence, node2, hdetect, h⟩ := h
  rw [detectDoubleSign_eq] at hdetect
  cases hdetect
  rw [run_get_bind] at h
  dsimp only at h
  rw [run_get_bind, run_ofExcept_bind_eq_ok] at h
  obtain ⟨accounts, -, h⟩ := h
  cases h
  exact ⟨rfl, rfl⟩

/-- A block that opens was validated. -/
theorem openBlock_check {env : Env} {block : Block} {node node' : OpolysNode} {opening : Opening}
    (h : openBlock P env block node = .ok opening node') :
    checkBlock P env block node = .ok opening.kind := by
  unfold openBlock at h
  rw [run_get_bind, run_get_bind, run_ofExcept_bind_eq_ok] at h
  obtain ⟨kind, hcheck, h⟩ := h
  rw [run_bind_eq_ok] at h
  obtain ⟨⟨⟩, node1, -, h⟩ := h
  rw [run_get_bind, run_ofExcept_bind_eq_ok] at h
  obtain ⟨⟨⟩, -, h⟩ := h
  rw [(beginBlock_eq_ok h).1, hcheck]

/-! ## Transactions -/

/-- A transaction writes accounts, refiners and mempool. -/
theorem executeTransaction_eq_ok {header : BlockHeader} {tally tally' : TxTally}
    {tx : Transaction} {node node' : OpolysNode}
    (h : executeTransaction P header tally tx node = .ok tally' node') :
    let out := TransactionDispatcher.applyTransaction P tx (executionContext header node.chain)
      mainnetChainId node.ledger
    tally.count out.1 tx.fee = .ok tally' ∧
      node' = { node.setLedger out.2 with mempool := node.mempool.removeTransaction tx.txId } := by
  intro out
  unfold executeTransaction at h
  rw [run_get_bind] at h
  dsimp only at h
  rw [run_modify_bind, run_ofExcept_bind_eq_ok] at h
  obtain ⟨tally'', hcount, h⟩ := h
  rw [run_modify_bind, run_pure_eq_ok] at h
  obtain ⟨rfl, rfl⟩ := h
  exact ⟨hcount, rfl⟩

/-- The transactions of a block write accounts, refiners and mempool. -/
theorem foldlM_executeTransaction_eq_ok {header : BlockHeader} {txs : List Transaction}
    {tally tally' : TxTally} {node node' : OpolysNode}
    (h : txs.foldlM (executeTransaction P header) tally node = .ok tally' node') :
    node'.ledger = (executedFrom P (executionContext header node.chain) txs node.ledger).2 ∧
      node' = { node with
        accounts := node'.accounts
        refiners := node'.refiners
        mempool := node'.mempool } := by
  induction txs generalizing tally node with
  | nil =>
    obtain ⟨-, rfl⟩ := run_pure_eq_ok.mp h
    exact ⟨rfl, rfl⟩
  | cons tx txs ih =>
    rw [List.foldlM_cons, run_bind_eq_ok] at h
    obtain ⟨tally1, node1, htx, h⟩ := h
    obtain ⟨-, rfl⟩ := executeTransaction_eq_ok htx
    obtain ⟨hledger, hframe⟩ := ih h
    exact ⟨hledger, hframe⟩

/-! ## Closing -/

theorem burn_eq_ok {amount : FlakeAmount} {message : String} {node node' : OpolysNode}
    (h : burn amount message node = .ok () node') :
    ∃ totalBurned, totalBurned.toNat = node.chain.totalBurned.toNat + amount.toNat ∧
      node' = { node with chain := { node.chain with totalBurned } } := by
  unfold burn at h
  rw [run_get_bind, run_require_bind_eq_ok] at h
  obtain ⟨totalBurned, hadd, h⟩ := h
  cases h
  exact ⟨totalBurned, MachineInt.checkedAdd_eq_some.mp hadd, rfl⟩

theorem evictAtEpochEnd_frame (env : Env) (header : BlockHeader) (node : OpolysNode) :
    evictAtEpochEnd env header node =
      { node with mempool := (evictAtEpochEnd env header node).mempool } := by
  unfold evictAtEpochEnd
  split <;> rfl

theorem routeFees_zero (opening : Opening) : routeFees opening 0 = ⟨0, 0⟩ := by
  unfold routeFees computePorFeeSplit
  split <;> rfl

/-- The fees a refined block pays to its producer. -/
def feeIncome (opening : Opening) (tally : TxTally) : FlakeAmount :=
  if opening.kind = .refined then (routeFees opening tally.totalTransactionFees).refinerFeeIncome
  else 0

/-- Everything a block burns after its transactions. -/
def burnedAtClose (opening : Opening) (tally : TxTally) : ℕ :=
  (routeFees opening tally.totalTransactionFees).ordinaryFeesBurned.toNat +
    tally.totalAssayBurned.toNat + opening.reward.mineAssay.toNat

/-- The fees of a block are paid and burned, its reward is issued and the tip moves to it. -/
theorem settle_eq_ok {env : Env} {header : BlockHeader} {opening : Opening} {tally : TxTally}
    {blockHash : Hash} {node node1 node2 : OpolysNode}
    (hfees : settleFees env header opening tally (routeFees opening tally.totalTransactionFees)
      node = .ok () node1)
    (hchain : updateChain header opening tally blockHash node1 = .ok () node2) :
    creditProducer header.producer (feeIncome opening tally) node.accounts =
        .ok node2.accounts ∧
      node2.chain.totalBurned.toNat =
        node.chain.totalBurned.toNat + burnedAtClose opening tally ∧
      node2 = { node with
        accounts := node2.accounts
        mempool := node2.mempool
        chain := { node.chain with
          currentHeight := header.height
          currentDifficulty := header.difficulty
          totalIssued := saturatingAdd node.chain.totalIssued opening.reward.grossReward
          totalBurned := node2.chain.totalBurned
          blockTimestamps :=
            ChainState.pruneBlockTimestamps (node.chain.blockTimestamps ++ [header.timestamp])
          latestBlockHash := blockHash
          suggestedFee := node2.chain.suggestedFee } } := by
  unfold settleFees at hfees
  dsimp only at hfees
  rw [run_modify_bind, run_get_bind, run_ofExcept_bind_eq_ok] at hfees
  obtain ⟨accounts, hcredit, hfees⟩ := hfees
  rw [evictAtEpochEnd_frame] at hcredit hfees
  rw [run_modify_bind, run_bind_eq_ok] at hfees
  obtain ⟨⟨⟩, node3, hburn, hfees⟩ := hfees
  obtain ⟨burned, hburned, rfl⟩ := burn_eq_ok hburn
  obtain ⟨burned', hburned', rfl⟩ := burn_eq_ok hfees
  unfold updateChain at hchain
  rw [run_get_bind] at hchain
  dsimp only at hchain
  rw [run_modify_bind, run_bind_eq_ok] at hchain
  obtain ⟨⟨⟩, node4, hburn', hchain⟩ := hchain
  obtain ⟨burned'', hburned'', rfl⟩ := burn_eq_ok hburn'
  cases hchain
  refine ⟨hcredit, ?_, rfl⟩
  dsimp only [issue] at hburned hburned' hburned''
  dsimp only [advanceTip, issue]
  unfold burnedAtClose
  omega

/-- The loop over the drained withdrawals writes accounts only. -/
theorem foldlM_creditOrCreateAccount_eq_ok {drained : List (ObjectId × FlakeAmount)}
    {node node' : OpolysNode}
    (h : (drained.foldlM (fun _ entry => do
      let accounts ← Effect.ofExcept id
        (creditOrCreateAccount (← get).accounts entry.1 entry.2)
      modify fun node => { node with accounts }) () : NodeM Unit) node = .ok () node') :
    drained.foldlM (fun accounts entry => creditOrCreateAccount accounts entry.1 entry.2)
        node.accounts = .ok node'.accounts ∧
      node' = { node with accounts := node'.accounts } := by
  induction drained generalizing node with
  | nil =>
    obtain ⟨-, rfl⟩ := run_pure_eq_ok.mp h
    exact ⟨rfl, rfl⟩
  | cons entry drained ih =>
    rw [List.foldlM_cons, run_bind_eq_ok] at h
    obtain ⟨⟨⟩, node1, hone, h⟩ := h
    rw [run_get_bind, run_ofExcept_bind_eq_ok] at hone
    obtain ⟨accounts, hcredit, hone⟩ := hone
    cases hone
    obtain ⟨hcredits, hframe⟩ := ih h
    rw [List.foldlM_cons, hcredit]
    exact ⟨hcredits, hframe⟩

/-- The matured withdrawals leave the queue and arrive at their accounts. -/
theorem payMaturedUnbonds_eq_ok {node node' : OpolysNode}
    (h : payMaturedUnbonds node = .ok () node') :
    (node.refiners.maturedUnbonds node.chain.currentHeight).foldlM
        (fun accounts entry => creditOrCreateAccount accounts entry.1 entry.2) node.accounts =
          .ok node'.accounts ∧
      node' = { node with
        accounts := node'.accounts
        refiners := (node.refiners.processMaturedUnbonds node.chain.currentHeight).1 } := by
  unfold payMaturedUnbonds at h
  rw [run_get_bind, run_get_bind, run_ofExcept_bind_eq_ok] at h
  obtain ⟨planned, -, h⟩ := h
  rw [run_get_bind, run_ofExcept_bind_eq_ok] at h
  obtain ⟨⟨⟩, -, h⟩ := h
  rw [run_get_bind] at h
  have hdrained : (node.refiners.processMaturedUnbonds node.chain.currentHeight).2 =
      node.refiners.maturedUnbonds node.chain.currentHeight := rfl
  rw [← hdrained]
  generalize node.refiners.processMaturedUnbonds node.chain.currentHeight = out at h ⊢
  obtain ⟨refiners, drained⟩ := out
  dsimp only at h
  rw [run_modify_bind] at h
  exact foldlM_creditOrCreateAccount_eq_ok h

/-! ## The whole block -/

/-- The receipt of an accepted block. -/
def Stages.receipt (P : Primitives) (st : Stages) (header : BlockHeader) : BlockEconomicReceipt :=
  economicReceipt header (computeBlockHash P header) st.opening st.tally
    (routeFees st.opening st.tally.totalTransactionFees)

/-- The stages of an accepted block follow from each other. -/
structure Accepted (P : Primitives) (env : Env) (block : Block) (node node' : OpolysNode)
    (st : Stages) : Prop where
  check : checkBlock P env block node = .ok st.kind
  attest_run : processAttestations P block node = .ok () st.finalized
  attest : block.attestations.foldlM (processAttestation P block.header) ⟨[], ∅⟩ node =
    .ok st.log st.attested
  attested_eq : st.attested = { node with
    chain := { node.chain with
      attestationFinalityRefiners := st.attested.chain.attestationFinalityRefiners }
    refiners := st.attested.refiners }
  finalized_eq : st.finalized = advanceFinality
    (activeRefinerWeightMilliThreshold node.refiners block.header.timestamp)
    block.header.timestamp st.log.touched st.attested
  producer : checkProducer P st.kind block.header st.finalized = .ok ()
  slashing_eq : st.slashing =
    block.slashEvidence.foldl (slashStep P) (initialSlashing st.finalized)
  opening_kind : st.opening.kind = st.kind
  market_eq : st.opening.porFeeMarket = if st.kind = .refined then
    some (st.finalized.refiners.totalActiveRefiners,
      RefinerSet.activeRefinerLimit st.finalized.chain.totalIssued) else none
  slashed_eq : st.opening.slashedBurned = st.slashing.slashedBurned
  reward_eq : st.opening.reward = (blockReward P st.kind block.header st.finalized.chain
    node.refiners.totalBondedStake).2
  reward_credit : creditProducer block.header.producer st.opening.reward.minerShare
    st.finalized.accounts = .ok st.opened.accounts
  opened_eq : st.opened = { st.finalized with
    chain := { st.finalized.chain with
      totalBurned := st.slashing.totalBurned
      producerSignatures := st.opened.chain.producerSignatures }
    refiners := st.slashing.refiners
    accounts := st.opened.accounts }
  opening_run : openBlock P env block node = .ok st.opening st.opened
  execute : block.transactions.foldlM (executeTransaction P block.header) {} st.opened =
    .ok st.tally st.executed
  executed_ledger : st.executed.ledger = (executedFrom P
    (executionContext block.header st.opened.chain) block.transactions st.opened.ledger).2
  executed_eq : st.executed = { st.opened with
    accounts := st.executed.accounts
    refiners := st.executed.refiners
    mempool := st.executed.mempool }
  fee_credit : creditProducer block.header.producer (feeIncome st.opening st.tally)
    st.executed.accounts = .ok st.settled.accounts
  settled_burned : st.settled.chain.totalBurned.toNat =
    st.executed.chain.totalBurned.toNat + burnedAtClose st.opening st.tally
  settled_eq : st.settled = { st.executed with
    accounts := st.settled.accounts
    mempool := st.settled.mempool
    chain := { st.executed.chain with
      currentHeight := block.header.height
      currentDifficulty := block.header.difficulty
      totalIssued := saturatingAdd st.executed.chain.totalIssued st.opening.reward.grossReward
      totalBurned := st.settled.chain.totalBurned
      blockTimestamps := ChainState.pruneBlockTimestamps
        (st.executed.chain.blockTimestamps ++ [block.header.timestamp])
      latestBlockHash := computeBlockHash P block.header
      suggestedFee := st.settled.chain.suggestedFee } }
  payout : (st.settled.refiners.maturedUnbonds block.header.height).foldlM
    (fun accounts entry => creditOrCreateAccount accounts entry.1 entry.2) st.settled.accounts =
      .ok st.paid.accounts
  paid_eq : st.paid = { st.settled with
    accounts := st.paid.accounts
    refiners := (st.settled.refiners.processMaturedUnbonds block.header.height).1 }
  root : computeStateRoot P (rankRefiners st.paid) = .ok st.stateRoot
  node_eq : node' = updateEvidencePool block.slashEvidence st.opening.newEvidence
    (persist P env block (st.receipt P block.header)
      (recordBlock st.stateRoot (st.receipt P block.header) (rankRefiners st.paid)))

theorem attested_frame {header : BlockHeader} {log log' : AttestationLog}
    {attestations : List BlockAttestation} {node node' : OpolysNode}
    (h : attestations.foldlM (processAttestation P header) log node = .ok log' node') :
    node' = { node with
      chain := { node.chain with
        attestationFinalityRefiners := node'.chain.attestationFinalityRefiners }
      refiners := node'.refiners } := by
  refine run_foldlM_invariant (I := fun _ node' => node' = { node with
    chain := { node.chain with
      attestationFinalityRefiners := node'.chain.attestationFinalityRefiners }
    refiners := node'.refiners }) rfl ?_ h
  intro log node1 attestation log' node2 _ hnode1 hround
  obtain ⟨-, -, store, attested, -, -, -, -, refiners, -, -, rfl⟩ :=
    processAttestation_eq_ok hround
  rw [hnode1]
  rfl

/-- An accepted block has gone through all stages. -/
theorem applyBlock_eq_ok {env : Env} {block : Block} {node node' : OpolysNode} {hash : Hash}
    (h : applyBlock P env block node = .ok hash node') :
    hash = computeBlockHash P block.header ∧ ∃ st, Accepted P env block node node' st := by
  unfold applyBlock at h
  rw [run_bind_eq_ok] at h
  obtain ⟨opening, opened, hopen, h⟩ := h
  rw [run_bind_eq_ok] at h
  obtain ⟨tally, executed, hexecute, hclose⟩ := h
  have hopening := hopen
  unfold openBlock at hopen
  rw [run_get_bind, run_get_bind, run_ofExcept_bind_eq_ok] at hopen
  obtain ⟨kind, hcheck, hopen⟩ := hopen
  rw [run_bind_eq_ok] at hopen
  obtain ⟨⟨⟩, finalized, hattest, hopen⟩ := hopen
  obtain ⟨log, attested, hloop, hfinalized⟩ := processAttestations_eq_ok hattest
  rw [run_get_bind, run_ofExcept_bind_eq_ok] at hopen
  obtain ⟨⟨⟩, hproducer, hopen⟩ := hopen
  obtain ⟨hkind, hmarket, hslashed, hreward, hcredit, hopened⟩ := beginBlock_eq_ok hopen
  obtain ⟨hledger, hexecuted⟩ := foldlM_executeTransaction_eq_ok hexecute
  unfold closeBlock at hclose
  dsimp only at hclose
  rw [run_bind_eq_ok] at hclose
  obtain ⟨⟨⟩, fees, hfees, hclose⟩ := hclose
  rw [run_bind_eq_ok] at hclose
  obtain ⟨⟨⟩, settled, hchain, hclose⟩ := hclose
  obtain ⟨hfeeCredit, hburned, hsettled⟩ := settle_eq_ok hfees hchain
  rw [run_bind_eq_ok] at hclose
  obtain ⟨⟨⟩, paid, hpay, hclose⟩ := hclose
  obtain ⟨hpayout, hpaid⟩ := payMaturedUnbonds_eq_ok hpay
  rw [run_modify_bind, run_get_bind, run_ofExcept_bind_eq_ok] at hclose
  obtain ⟨stateRoot, hroot, hclose⟩ := hclose
  rw [run_modify_bind, run_modify_bind, run_modify_bind, run_pure_eq_ok] at hclose
  obtain ⟨rfl, rfl⟩ := hclose
  have hheight : settled.chain.currentHeight = block.header.height := by
    rw [hsettled]
  rw [hheight] at hpayout hpaid
  exact ⟨rfl, ⟨kind, log, attested, finalized, _, opening, opened, tally, executed, settled, paid,
      stateRoot⟩,
    { check := hcheck
      attest_run := hattest
      attest := hloop
      attested_eq := attested_frame hloop
      finalized_eq := hfinalized
      producer := hproducer
      slashing_eq := rfl
      opening_kind := hkind
      market_eq := hmarket
      slashed_eq := hslashed
      reward_eq := hreward
      reward_credit := hcredit
      opened_eq := hopened
      opening_run := hopening
      execute := hexecute
      executed_ledger := hledger
      executed_eq := hexecuted
      fee_credit := hfeeCredit
      settled_burned := hburned
      settled_eq := hsettled
      payout := hpayout
      paid_eq := hpaid
      root := hroot
      node_eq := rfl }⟩

theorem OpolysNode.accepted_of_accepts {node : OpolysNode} {call : Call}
    (h : node.accepts P call = true) :
    ∃ st, Accepted P call.env call.block node (node.step P call) st := by
  obtain ⟨hash, hrun⟩ := applyBlock_of_accepts h
  exact (applyBlock_eq_ok hrun).2

/-! ## What is left in the end -/

/-- What `checkBlock` says besides `validateBlock`: the kind of the block and its state root. -/
theorem checkBlock_validated {env : Env} {block : Block} {node : OpolysNode}
    {kind : BlockProductionKind} (h : checkBlock P env block node = .ok kind) :
    validateBlock P block (node.chain.currentHeight + 1) node.chain.latestBlockHash
        (node.chain.blockTimestamps.getLast?.getD 0) node.expectedDifficulty env.nowSecs = .ok () ∧
      block.header.productionKind = some kind ∧
      block.header.stateRoot = node.chain.stateRoot := by
  unfold checkBlock at h
  dsimp only at h
  obtain ⟨⟨⟩, hval, h⟩ := bind_eq_ok.mp h
  rw [mapError_eq_ok] at hval
  refine ⟨hval, ?_⟩
  cases hkind : block.header.productionKind with
  | none =>
    rw [hkind] at h
    cases h
  | some kind' =>
    rw [hkind] at h
    rw [check_bind_eq_ok] at h
    obtain ⟨hroot, h⟩ := h
    cases h
    exact ⟨rfl, hroot⟩

/-- The header of a validated block fits the tip. -/
theorem checkBlock_header {env : Env} {block : Block} {node : OpolysNode}
    {kind : BlockProductionKind} (h : checkBlock P env block node = .ok kind) :
    block.header.height = node.chain.currentHeight + 1 ∧
      block.header.previousHash = node.chain.latestBlockHash ∧
      block.header.difficulty = node.expectedDifficulty ∧
      block.header.stateRoot = node.chain.stateRoot := by
  obtain ⟨hval, -, hroot⟩ := checkBlock_validated h
  obtain ⟨-, hheight, hprevious, -, -, hdifficulty⟩ :=
    checkHeader_eq_ok.mp (validateBlock_eq_ok.mp hval).1
  exact ⟨hheight, hprevious, hdifficulty, hroot⟩

/-- Only a block that is no proof of anything has height 0. -/
theorem height_pos_of_kind {header : BlockHeader} {kind : BlockProductionKind}
    (h : header.productionKind = some kind) (hkind : kind ≠ .genesis) : header.height > 0 := by
  unfold BlockHeader.productionKind at h
  by_cases hzero : header.height = 0
  · rw [decide_eq_true hzero] at h
    cases hpow : header.powProof.isSome <;> cases hsig : header.refinerSignature.isSome <;>
      rw [hpow, hsig] at h <;> cases h
    exact absurd rfl hkind
  · exact UInt64.pos_iff_ne_zero.mpr hzero

/-- What a validated block is known to have. -/
theorem checkBlock_eq_ok {env : Env} {block : Block} {node : OpolysNode}
    {kind : BlockProductionKind} (h : checkBlock P env block node = .ok kind) :
    block.header.productionKind = some kind ∧
      (kind ≠ .genesis → block.header.producer.hash.isZero = false) ∧
      (kind = .mined → verifyPowLight P block.header block.header.difficulty = .ok ()) := by
  obtain ⟨hval, hkind, -⟩ := checkBlock_validated h
  obtain ⟨hheader, -, hproof⟩ := validateBlock_eq_ok.mp hval
  have hp (hne : kind ≠ .genesis) : checkProof P block.header = .ok () := by
    apply hproof
    rw [← (checkHeader_eq_ok.mp hheader).2.1]
    exact height_pos_of_kind hkind hne
  unfold checkProof at hp
  rw [hkind] at hp
  refine ⟨hkind, fun hne => ?_, ?_⟩
  · exact (check_bind_eq_ok.mp (hp hne)).1
  · rintro rfl
    exact (check_bind_eq_ok.mp (hp (by decide))).2

theorem advanceFinality_frame (finalityThreshold : ℕ) (timestamp : UInt64)
    (touched : Std.ExtTreeSet (UInt64 × Hash)) (node : OpolysNode) :
    let advanced := (advanceFinality finalityThreshold timestamp touched node).chain
    advanceFinality finalityThreshold timestamp touched node =
      { node with chain := { node.chain with
        finalizedHeight := advanced.finalizedHeight
        attestationFinalityRefiners := advanced.attestationFinalityRefiners } } := rfl

/-- The refiners after a block of a height is ranked. -/
def RefinerSet.ranked (set : RefinerSet) (height : BlockHeight) (totalIssued : FlakeAmount) :
    RefinerSet :=
  if isEpochBoundary height then (set.activateMaturedRefiners height).rerankRefiners totalIssued
  else set.activateMaturedRefiners height

theorem rankRefiners_eq (node : OpolysNode) :
    rankRefiners node = { node with
      refiners := node.refiners.ranked node.chain.currentHeight node.chain.totalIssued } := by
  unfold rankRefiners RefinerSet.ranked
  dsimp only
  by_cases h : isEpochBoundary node.chain.currentHeight = true
  · rw [if_pos h, if_pos h]
  · rw [if_neg h, if_neg h]

theorem persist_frame (env : Env) (block : Block) (receipt : BlockEconomicReceipt)
    (node : OpolysNode) :
    persist P env block receipt node =
      { node with store := (persist P env block receipt node).store } := by
  unfold persist
  split
  · rfl
  · split <;> rfl

theorem persist_of_none (env : Env) (block : Block) (receipt : BlockEconomicReceipt)
    {node : OpolysNode} (h : node.store = none) : persist P env block receipt node = node := by
  unfold persist
  rw [h]

/-- No vector of the block or of the state after it is too long to be written. -/
structure BlockchainStore.Writable (block : Block) (node : OpolysNode) : Prop where
  block : Codec.Borsh.fits block = true
  chainState : Codec.Borsh.fits node.chain.toPersisted = true
  accounts : Codec.Borsh.fits (AccountStore.allAccounts node.accounts) = true
  refiners : Codec.Borsh.fits node.refiners.allRefiners = true
  activeSet : Codec.Borsh.fits node.refiners.activeSet = true
  unbondingQueue : Codec.Borsh.fits node.refiners.unbondingQueue = true

/-- A store that has taken a block and the state of a node after it. -/
structure BlockchainStore.Saved (block : Block) (node : OpolysNode)
    (store store' : BlockchainStore) : Prop where
  blocks_eq : store'.blocks = store.blocks.insert block.header.height block
  latestBlockHeight_eq : store'.latestBlockHeight = some block.header.height
  chainState_eq : store'.chainState = some node.chain.toPersisted
  allAccounts_eq : store'.allAccounts = some (AccountStore.allAccounts node.accounts)
  allRefiners_eq : store'.allRefiners = some node.refiners.allRefiners
  unbondingQueue_eq : store'.unbondingQueue = some node.refiners.unbondingQueue
  transactions_eq : store'.transactions = block.transactions.zipIdx.foldl
    (fun index entry => index.insert entry.1.txId (block.header.height, UInt32.ofNat entry.2))
    store.transactions
  writable : BlockchainStore.Writable block node

/-- What was saved of a node is what is saved of another one with the same state. -/
theorem BlockchainStore.Saved.of_same {block : Block} {node node' : OpolysNode}
    {store store' : BlockchainStore} (h : store.Saved block node store')
    (hchain : node'.chain = node.chain) (haccounts : node'.accounts = node.accounts)
    (hrefiners : node'.refiners = node.refiners) : store.Saved block node' store' where
  blocks_eq := h.blocks_eq
  latestBlockHeight_eq := h.latestBlockHeight_eq
  chainState_eq := by rw [h.chainState_eq, hchain]
  allAccounts_eq := by rw [h.allAccounts_eq, haccounts]
  allRefiners_eq := by rw [h.allRefiners_eq, hrefiners]
  unbondingQueue_eq := by rw [h.unbondingQueue_eq, hrefiners]
  transactions_eq := h.transactions_eq
  writable := by
    obtain ⟨hblock, hstate, hall, hrefined, hactive, hqueue⟩ := h.writable
    exact ⟨hblock, hchain ▸ hstate, haccounts ▸ hall, hrefiners ▸ hrefined, hrefiners ▸ hactive,
      hrefiners ▸ hqueue⟩

theorem BlockchainStore.Saved.loadAccounts_eq {block : Block} {node : OpolysNode}
    {store store' : BlockchainStore} (h : store.Saved block node store') :
    store'.loadAccounts = node.accounts := by
  unfold BlockchainStore.loadAccounts
  rw [h.allAccounts_eq]
  exact Registry.ofList_values node.accounts

theorem BlockchainStore.Saved.loadRefiners_eq {block : Block} {node : OpolysNode}
    {store store' : BlockchainStore} (h : store.Saved block node store') :
    store'.loadRefiners = node.refiners.perform .reload := by
  unfold BlockchainStore.loadRefiners
  rw [h.allRefiners_eq, h.unbondingQueue_eq]
  rfl

theorem BlockchainStore.saved_of_eq_ok {writeOk : Bool} {block : Block}
    {receipt : BlockEconomicReceipt} {node : OpolysNode} {store store' : BlockchainStore}
    (h : store.saveAppliedBlockAtomic P writeOk block receipt node.chain.toPersisted node.accounts
      node.refiners = .ok store') : writeOk = true ∧ store.Saved block node store' := by
  unfold saveAppliedBlockAtomic serializable at h
  iterate 7 rw [check_bind_eq_ok] at h
  obtain ⟨hblock, hstate, haccounts, hrefiners, hactive, hqueue, hwrite, h⟩ := h
  cases h
  exact ⟨hwrite, ⟨rfl, rfl, rfl, rfl, rfl, rfl, rfl,
    ⟨hblock, hstate, haccounts, hrefiners, hactive, hqueue⟩⟩⟩

/-- A node with a database saves the block, or the database stays as it is. -/
theorem persist_store (env : Env) (block : Block) (receipt : BlockEconomicReceipt)
    {node : OpolysNode} {store : BlockchainStore} (h : node.store = some store) :
    (persist P env block receipt node).store = some store ∨
      env.writeOk = true ∧ ∃ store', (persist P env block receipt node).store = some store' ∧
        store.Saved block node store' := by
  unfold persist
  rw [h]
  dsimp only
  cases hsave : persistState P env.writeOk block receipt node store with
  | error message => exact Or.inl h
  | ok store' =>
    obtain ⟨hwrite, hsaved⟩ := BlockchainStore.saved_of_eq_ok hsave
    exact Or.inr ⟨hwrite, store', rfl, hsaved⟩

/-- A database that accepts the write takes what can be written. -/
theorem persist_of_writable {env : Env} {block : Block} (receipt : BlockEconomicReceipt)
    {node : OpolysNode} {store : BlockchainStore} (h : BlockchainStore.Writable block node)
    (hwrite : env.writeOk = true) (hstore : node.store = some store) :
    ∃ store', (persist P env block receipt node).store = some store' ∧
      store.Saved block node store' := by
  obtain ⟨store', hsave⟩ : ∃ store',
      persistState P env.writeOk block receipt node store = .ok store' := by
    unfold persistState BlockchainStore.saveAppliedBlockAtomic BlockchainStore.serializable
    simp only [check_bind_eq_ok]
    exact ⟨_, h.block, h.chainState, h.accounts, h.refiners, h.activeSet, h.unbondingQueue, hwrite,
      rfl⟩
  refine ⟨store', ?_, (BlockchainStore.saved_of_eq_ok hsave).2⟩
  unfold persist
  rw [hstore]
  dsimp only
  rw [hsave]

namespace Accepted

variable {env : Env} {block : Block} {node node' : OpolysNode} {st : Stages}

/-- The attestations of a block move no funds and no tip. -/
theorem finalized_frame (h : Accepted P env block node node' st) :
    st.finalized = { node with
      chain := { node.chain with
        finalizedHeight := st.finalized.chain.finalizedHeight
        attestationFinalityRefiners := st.finalized.chain.attestationFinalityRefiners }
      refiners := st.attested.refiners } := by
  have hframe := advanceFinality_frame
    (activeRefinerWeightMilliThreshold node.refiners block.header.timestamp)
    block.header.timestamp st.log.touched st.attested
  rw [← h.finalized_eq] at hframe
  rw [hframe, h.attested_eq]

/-- The chain state after a block. -/
theorem chain_eq (h : Accepted P env block node node' st) :
    node'.chain = { node.chain with
      currentHeight := block.header.height
      currentDifficulty := block.header.difficulty
      totalIssued := saturatingAdd node.chain.totalIssued st.opening.reward.grossReward
      totalBurned := st.settled.chain.totalBurned
      mintLedger := node.chain.mintLedger.recordReceipt (st.receipt P block.header)
      blockTimestamps := ChainState.pruneBlockTimestamps
        (node.chain.blockTimestamps ++ [block.header.timestamp])
      latestBlockHash := computeBlockHash P block.header
      stateRoot := st.stateRoot
      suggestedFee := st.settled.chain.suggestedFee
      producerSignatures := st.opened.chain.producerSignatures
      finalizedHeight := st.finalized.chain.finalizedHeight
      attestationFinalityRefiners := st.finalized.chain.attestationFinalityRefiners } := by
  rw [h.node_eq, persist_frame, rankRefiners_eq, h.paid_eq, h.settled_eq, h.executed_eq,
    h.opened_eq, h.finalized_frame]
  dsimp only [updateEvidencePool, recordBlock]

theorem accounts_eq (h : Accepted P env block node node' st) :
    node'.accounts = st.paid.accounts := by
  rw [h.node_eq, persist_frame, rankRefiners_eq]
  rfl

/-- The refiners after a block: the matured withdrawals have left the queue and the records
have been ranked. -/
theorem refiners_eq (h : Accepted P env block node node' st) :
    node'.refiners = ((st.executed.refiners.processMaturedUnbonds block.header.height).1).ranked
      block.header.height node'.chain.totalIssued := by
  have hissued : node'.chain.totalIssued = st.paid.chain.totalIssued := by
    rw [h.node_eq, persist_frame, rankRefiners_eq]
    rfl
  rw [hissued, h.node_eq, persist_frame, rankRefiners_eq, h.paid_eq, h.settled_eq]
  rfl

/-- The database after a block. -/
theorem store_cases (h : Accepted P env block node node' st) {store : BlockchainStore}
    (hstore : node.store = some store) :
    node'.store = some store ∨
      env.writeOk = true ∧ ∃ store', node'.store = some store' ∧
        store.Saved block node' store' := by
  have hsame : (recordBlock st.stateRoot (st.receipt P block.header)
      (rankRefiners st.paid)).store = some store := by
    change (rankRefiners st.paid).store = some store
    rw [rankRefiners_eq, h.paid_eq, h.settled_eq, h.executed_eq, h.opened_eq, h.finalized_frame]
    exact hstore
  have hcases := persist_store (P := P) env block (st.receipt P block.header) hsame
  rw [h.node_eq]
  refine hcases.imp_right ?_
  rintro ⟨hwrite, store', hstore', hsaved⟩
  refine ⟨hwrite, store', hstore', ?_⟩
  rw [persist_frame]
  exact hsaved.of_same rfl rfl rfl

/-- What can be written is written. -/
theorem saved (h : Accepted P env block node node' st) {store : BlockchainStore}
    (hstore : node.store = some store) (hwrite : env.writeOk = true)
    (hwritable : BlockchainStore.Writable block node') :
    ∃ store', node'.store = some store' ∧ store.Saved block node' store' := by
  have hsame : (recordBlock st.stateRoot (st.receipt P block.header)
      (rankRefiners st.paid)).store = some store := by
    change (rankRefiners st.paid).store = some store
    rw [rankRefiners_eq, h.paid_eq, h.settled_eq, h.executed_eq, h.opened_eq, h.finalized_frame]
    exact hstore
  have hnode := h.node_eq
  rw [persist_frame] at hnode
  have hbefore : BlockchainStore.Writable block (recordBlock st.stateRoot
      (st.receipt P block.header) (rankRefiners st.paid)) := by
    rw [hnode] at hwritable
    exact ⟨hwritable.block, hwritable.chainState, hwritable.accounts, hwritable.refiners,
      hwritable.activeSet, hwritable.unbondingQueue⟩
  obtain ⟨store', hstore', hsaved⟩ :=
    persist_of_writable (P := P) (st.receipt P block.header) hbefore hwrite hsame
  rw [hnode]
  exact ⟨store', hstore', hsaved.of_same rfl rfl rfl⟩

/-- A node without a database does not get one. -/
theorem store_eq_none (h : Accepted P env block node node' st) (hstore : node.store = none) :
    node'.store = none := by
  have hsame : (recordBlock st.stateRoot (st.receipt P block.header)
      (rankRefiners st.paid)).store = none := by
    change (rankRefiners st.paid).store = none
    rw [rankRefiners_eq, h.paid_eq, h.settled_eq, h.executed_eq, h.opened_eq, h.finalized_frame]
    exact hstore
  have hpersist := persist_of_none (P := P) env block (st.receipt P block.header) hsame
  rw [h.node_eq, hpersist]
  exact hsame

/-- What an accepted block shows, and what is noted of it. -/
theorem detected (h : Accepted P env block node node' st) :
    st.opening.newEvidence =
        doubleSigned P node.accounts node.chain.producerSignatures block.header ∧
      node'.chain.producerSignatures =
        noted P node.chain.producerSignatures block.header := by
  have hrun := h.opening_run
  unfold openBlock at hrun
  rw [run_get_bind, run_get_bind, run_ofExcept_bind_eq_ok] at hrun
  obtain ⟨kind, -, hrun⟩ := hrun
  rw [run_bind_eq_ok] at hrun
  obtain ⟨⟨⟩, finalized, hattest, hrun⟩ := hrun
  rw [h.attest_run] at hattest
  cases hattest
  rw [run_get_bind, run_ofExcept_bind_eq_ok] at hrun
  obtain ⟨⟨⟩, -, hrun⟩ := hrun
  obtain ⟨hnew, hsignatures⟩ := beginBlock_detects hrun
  rw [h.finalized_frame] at hnew hsignatures
  refine ⟨hnew, ?_⟩
  rw [h.chain_eq]
  exact hsignatures

/-- The pool of evidence after a block. -/
theorem pendingSlashEvidence_eq (h : Accepted P env block node node' st) :
    node'.pendingSlashEvidence = queueSlashEvidence
      (doubleSigned P node.accounts node.chain.producerSignatures block.header)
      (removeAcceptedSlashEvidence block.slashEvidence node.pendingSlashEvidence) := by
  rw [← h.detected.1, h.node_eq, persist_frame, rankRefiners_eq, h.paid_eq, h.settled_eq,
    h.executed_eq, h.opened_eq, h.finalized_frame]
  rfl

end Accepted

/-! ## What a rejected block leaves -/

namespace OpolysNode

/-- Only the index of attesters, the finalized height and the records of refiners differ. -/
def VotesOnly (node node' : OpolysNode) : Prop :=
  node' = { node with
    chain := { node.chain with
      finalizedHeight := node'.chain.finalizedHeight
      attestationFinalityRefiners := node'.chain.attestationFinalityRefiners }
    refiners := node'.refiners }

/-- Only funds, totals and pools differ. -/
def FundsOnly (node node' : OpolysNode) : Prop :=
  node' = { node with
    accounts := node'.accounts
    refiners := node'.refiners
    mempool := node'.mempool
    chain := { node.chain with
      totalIssued := node'.chain.totalIssued
      totalBurned := node'.chain.totalBurned } }

/-- Besides, the tip has moved to a header. -/
def TipMoved (header : BlockHeader) (blockHash : Hash) (node node' : OpolysNode) : Prop :=
  node' = { node with
    accounts := node'.accounts
    refiners := node'.refiners
    mempool := node'.mempool
    chain := { node.chain with
      currentHeight := header.height
      currentDifficulty := header.difficulty
      latestBlockHash := blockHash
      blockTimestamps :=
        ChainState.pruneBlockTimestamps (node.chain.blockTimestamps ++ [header.timestamp])
      suggestedFee := node'.chain.suggestedFee
      totalIssued := node'.chain.totalIssued
      totalBurned := node'.chain.totalBurned } }

theorem VotesOnly.refl (node : OpolysNode) : node.VotesOnly node := rfl

theorem VotesOnly.trans {a b c : OpolysNode} (h : a.VotesOnly b) (h' : b.VotesOnly c) :
    a.VotesOnly c := by
  unfold VotesOnly at h h' ⊢
  refine h'.trans ?_
  rw [h]

theorem FundsOnly.refl (node : OpolysNode) : node.FundsOnly node := rfl

theorem FundsOnly.trans {a b c : OpolysNode} (h : a.FundsOnly b) (h' : b.FundsOnly c) :
    a.FundsOnly c := by
  unfold FundsOnly at h h' ⊢
  refine h'.trans ?_
  rw [h]

theorem FundsOnly.tipMoved {header : BlockHeader} {blockHash : Hash} {a b c : OpolysNode}
    (h : a.FundsOnly b) (h' : b.TipMoved header blockHash c) : a.TipMoved header blockHash c := by
  unfold FundsOnly at h
  unfold TipMoved at h' ⊢
  refine h'.trans ?_
  rw [h]

theorem TipMoved.trans {header : BlockHeader} {blockHash : Hash} {a b c : OpolysNode}
    (h : a.TipMoved header blockHash b) (h' : b.FundsOnly c) : a.TipMoved header blockHash c := by
  unfold FundsOnly at h'
  unfold TipMoved at h ⊢
  have hfee : c.chain.suggestedFee = b.chain.suggestedFee :=
    congrArg (fun node => node.chain.suggestedFee) h'
  refine h'.trans ?_
  rw [hfee, h]

end OpolysNode

open OpolysNode (VotesOnly FundsOnly TipMoved)

theorem processAttestation_votes (header : BlockHeader) (log : AttestationLog)
    (attestation : BlockAttestation) (node : OpolysNode) :
    Ends (processAttestation P header log attestation) node (fun _ => node.VotesOnly)
      (fun _ => node.VotesOnly) := by
  unfold processAttestation
  refine Ends.ensure_bind (fun _ => VotesOnly.refl node) fun _ => ?_
  refine Ends.ensure_bind (fun _ => VotesOnly.refl node) fun _ => ?_
  refine Ends.get_bind (Ends.require_bind (fun _ => VotesOnly.refl node) fun store _ => ?_)
  refine Ends.require_bind (fun _ => VotesOnly.refl node) fun attested _ => ?_
  refine Ends.ensure_bind (fun _ => VotesOnly.refl node) fun _ => ?_
  refine Ends.get_bind (Ends.ofExcept_bind (fun _ _ => VotesOnly.refl node) fun _ _ => ?_)
  refine Ends.modify_bind (Ends.get_bind (Ends.ofExcept_bind (fun _ _ => rfl) ?_))
  exact fun refiners _ => Ends.modify_bind (Ends.pure rfl)

theorem processAttestations_votes (block : Block) (node : OpolysNode) :
    Ends (processAttestations P block) node (fun _ => node.VotesOnly)
      (fun _ => node.VotesOnly) := by
  unfold processAttestations
  refine Ends.get_bind (Ends.bind (R := fun _ => node.VotesOnly)
    (Ends.foldlM (VotesOnly.refl node) fun log node' attestation _ h => ?_) fun _ node' h => ?_)
  · exact (processAttestation_votes _ _ _ node').mono (fun _ _ h' => h.trans h')
      fun _ _ h' => h.trans h'
  · exact Ends.modify_bind (Ends.pure (h.trans rfl))

theorem beginBlock_funds (kind : BlockProductionKind) (bondedStake : FlakeAmount) (block : Block)
    (node : OpolysNode) :
    Ends (beginBlock P kind bondedStake block) node
      (fun _ => (node.note P block.header).FundsOnly)
      (fun _ => (node.note P block.header).FundsOnly) := by
  unfold beginBlock processSlashEvidence
  refine Ends.get_bind (Ends.bind (R := fun _ => node.FundsOnly) ?_ fun _ node1 h1 => ?_)
  · exact Ends.get_bind (Ends.set_bind (Ends.pure rfl))
  refine Ends.bind (Ends.of_ok (Q := fun _ node2 => node2 = node1.note P block.header)
    (detectDoubleSign_eq block.header node1) rfl) fun newEvidence node2 h2 => ?_
  have hfunds : (node.note P block.header).FundsOnly node2 := by
    unfold FundsOnly at h1 ⊢
    rw [h2, h1]
    rfl
  refine Ends.get_bind ?_
  generalize blockReward P kind block.header node2.chain bondedStake = parts
  obtain ⟨veinYieldMilli, reward⟩ := parts
  refine Ends.get_bind (Ends.ofExcept_bind (fun _ _ => hfunds) fun accounts _ => ?_)
  exact Ends.modify_bind (Ends.pure (hfunds.trans rfl))

theorem executeTransactions_funds (block : Block) (node : OpolysNode) :
    Ends (executeTransactions P block) node (fun _ => node.FundsOnly)
      (fun _ => node.FundsOnly) := by
  unfold executeTransactions
  refine Ends.foldlM (FundsOnly.refl node) fun tally node' tx _ h => ?_
  unfold executeTransaction
  refine Ends.get_bind (Ends.modify_bind (Ends.ofExcept_bind ?_ fun _ _ => ?_))
  · exact fun _ _ => h.trans rfl
  · exact Ends.modify_bind (Ends.pure (h.trans rfl))

theorem burn_funds (amount : FlakeAmount) (message : String) (node : OpolysNode) :
    Ends (burn amount message) node (fun _ => node.FundsOnly) (fun _ => node.FundsOnly) := by
  unfold burn
  exact Ends.get_bind (Ends.require_bind (fun _ => FundsOnly.refl node) fun _ _ =>
    Ends.modify_bind (Ends.pure rfl))

theorem settleFees_funds (env : Env) (header : BlockHeader) (opening : Opening) (tally : TxTally)
    (routing : FeeRouting) (node : OpolysNode) :
    Ends (settleFees env header opening tally routing) node (fun _ => node.FundsOnly)
      (fun _ => node.FundsOnly) := by
  unfold settleFees
  dsimp only
  have hevict : node.FundsOnly (evictAtEpochEnd env header node) := by
    unfold FundsOnly
    rw [evictAtEpochEnd_frame]
  refine Ends.modify_bind (Ends.get_bind (Ends.ofExcept_bind (fun _ _ => hevict) ?_))
  intro accounts _
  have hpaid : node.FundsOnly { evictAtEpochEnd env header node with accounts } :=
    hevict.trans rfl
  refine Ends.modify_bind (Ends.bind (R := fun _ => node.FundsOnly) ?_ fun _ node1 h1 => ?_)
  · exact (burn_funds _ _ _).mono (fun _ _ h => hpaid.trans h) fun _ _ h => hpaid.trans h
  · exact (burn_funds _ _ node1).mono (fun _ _ h => h1.trans h) fun _ _ h => h1.trans h

theorem updateChain_funds (header : BlockHeader) (opening : Opening) (tally : TxTally)
    (blockHash : Hash) (node : OpolysNode) :
    Ends (updateChain header opening tally blockHash) node
      (fun _ => node.TipMoved header blockHash) (fun _ => node.FundsOnly) := by
  unfold updateChain
  refine Ends.get_bind (Ends.modify_bind ?_)
  have hissue : node.FundsOnly (issue opening.reward.grossReward node) := rfl
  refine Ends.bind ((burn_funds _ _ _).mono (fun _ _ h => hissue.trans h) fun _ _ h =>
    hissue.trans h) fun _ node1 h1 => ?_
  refine Ends.modify_bind (Ends.pure ?_)
  unfold FundsOnly at h1
  unfold TipMoved
  rw [h1]
  rfl

theorem payMaturedUnbonds_funds (node : OpolysNode) :
    Ends payMaturedUnbonds node (fun _ => node.FundsOnly) (fun _ => node.FundsOnly) := by
  unfold payMaturedUnbonds
  refine Ends.get_bind (Ends.get_bind (Ends.ofExcept_bind (fun _ _ => FundsOnly.refl node) ?_))
  intro planned _
  refine Ends.get_bind (Ends.ofExcept_bind (fun _ _ => FundsOnly.refl node) fun _ _ => ?_)
  refine Ends.get_bind (Ends.modify_bind (Ends.foldlM rfl ?_))
  intro _ node' entry _ h
  refine Ends.get_bind (Ends.ofExcept_bind (fun _ _ => h) fun accounts _ => ?_)
  exact Ends.modify_bind (Ends.pure (h.trans rfl))

/-- How far a rejected block has come: not into the node, into its attestations, to the checks of
its producer, or past them, where its signature is noted, and funds may have moved and the tip with
them. -/
def Rejected (P : Primitives) (env : Env) (block : Block) (node node' : OpolysNode) : Prop :=
  node' = node ∨
    ∃ kind, checkBlock P env block node = .ok kind ∧
      ((∃ message, processAttestations P block node = .error message node') ∨
        ∃ finalized, processAttestations P block node = .ok () finalized ∧
          (node' = finalized ∨ checkProducer P kind block.header finalized = .ok () ∧
            ((finalized.note P block.header).FundsOnly node' ∨
              (finalized.note P block.header).TipMoved block.header
                (computeBlockHash P block.header) node')))

theorem applyBlock_rejects (env : Env) (block : Block) (node : OpolysNode) :
    Ends (applyBlock P env block) node (fun _ _ => True)
      (fun _ => Rejected P env block node) := by
  unfold applyBlock openBlock
  -- the node that every stage after the checks of the producer starts from
  refine Ends.bind (R := fun _ node1 => ∃ kind finalized,
    checkBlock P env block node = .ok kind ∧
      processAttestations P block node = .ok () finalized ∧
        checkProducer P kind block.header finalized = .ok () ∧
          (finalized.note P block.header).FundsOnly node1) ?_ ?_
  · refine Ends.get_bind (Ends.get_bind (Ends.ofExcept_bind (fun _ _ => Or.inl rfl) ?_))
    intro kind hcheck
    refine Ends.bind_run (fun message node' hattest =>
      Or.inr ⟨kind, hcheck, Or.inl ⟨message, hattest⟩⟩) fun _ finalized hattest => ?_
    refine Ends.get_bind (Ends.ofExcept_bind (fun _ _ => ?_) fun _ hproducer => ?_)
    · exact Or.inr ⟨kind, hcheck, Or.inr ⟨finalized, hattest, Or.inl rfl⟩⟩
    · exact (beginBlock_funds kind _ block finalized).mono
        (fun _ _ h => ⟨kind, finalized, hcheck, hattest, hproducer, h⟩)
        fun _ _ h => Or.inr ⟨kind, hcheck, Or.inr ⟨finalized, hattest,
          Or.inr ⟨hproducer, Or.inl h⟩⟩⟩
  · rintro opening node1 ⟨kind, finalized, hcheck, hattest, hproducer, h1⟩
    have hpast {node' : OpolysNode} (h : (finalized.note P block.header).FundsOnly node' ∨
        (finalized.note P block.header).TipMoved block.header (computeBlockHash P block.header)
          node') : Rejected P env block node node' :=
      Or.inr ⟨kind, hcheck, Or.inr ⟨finalized, hattest, Or.inr ⟨hproducer, h⟩⟩⟩
    refine Ends.bind ((executeTransactions_funds block node1).mono (fun _ _ h => h1.trans h)
      fun _ _ h => hpast (Or.inl (h1.trans h))) fun tally node2 h2 => ?_
    unfold closeBlock
    dsimp only
    refine Ends.bind ((settleFees_funds env block.header opening tally _ node2).mono
      (fun _ _ h => h2.trans h) fun _ _ h => hpast (Or.inl (h2.trans h)))
      fun _ node3 h3 => ?_
    refine Ends.bind ((updateChain_funds block.header opening tally _ node3).mono
      (fun _ _ h => h3.tipMoved h) fun _ _ h => hpast (Or.inl (h3.trans h)))
      fun _ node4 h4 => ?_
    refine Ends.bind ((payMaturedUnbonds_funds node4).mono (fun _ _ h => h4.trans h)
      fun _ _ h => hpast (Or.inr (h4.trans h))) fun _ node5 h5 => ?_
    have hranked : (finalized.note P block.header).TipMoved block.header
        (computeBlockHash P block.header) (rankRefiners node5) := by
      rw [rankRefiners_eq]
      exact h5.trans rfl
    refine Ends.modify_bind (Ends.get_bind (Ends.ofExcept_bind ?_ fun _ _ => ?_))
    · exact fun _ _ => hpast (Or.inr hranked)
    · exact Ends.modify_bind (Ends.modify_bind (Ends.modify_bind (Ends.pure trivial)))

/-- A rejected block leaves the database, and the tip or a tip that has moved to the height
of the block before the error was found. -/
theorem tip_of_rejected {env : Env} {block : Block} {node node' : OpolysNode}
    (h : Rejected P env block node node') :
    node'.store = node.store ∧
      (node'.chain.currentHeight = node.chain.currentHeight ∧
          node'.chain.latestBlockHash = node.chain.latestBlockHash ∨
        node'.chain.currentHeight = node.chain.currentHeight + 1) := by
  rcases h with rfl | ⟨kind, hcheck, ⟨message, hattest⟩ | ⟨finalized, hattest, h⟩⟩
  · exact ⟨rfl, Or.inl ⟨rfl, rfl⟩⟩
  · have hvotes := (processAttestations_votes block node).error hattest
    rw [hvotes]
    exact ⟨rfl, Or.inl ⟨rfl, rfl⟩⟩
  · have hvotes := (processAttestations_votes block node).ok hattest
    rcases h with rfl | ⟨-, hfunds | hmoved⟩
    · rw [hvotes]
      exact ⟨rfl, Or.inl ⟨rfl, rfl⟩⟩
    · rw [hfunds, hvotes]
      exact ⟨rfl, Or.inl ⟨rfl, rfl⟩⟩
    · rw [hmoved, hvotes]
      exact ⟨rfl, Or.inr (checkBlock_header hcheck).1⟩

end Opolys
