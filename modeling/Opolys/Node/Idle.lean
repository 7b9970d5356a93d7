import Opolys.Consensus.Retarget
import Opolys.Consensus.Unbonding
import Opolys.Node.Candidate
import Opolys.Node.Progress
import Opolys.Node.Tip

/-!
# Idle blocks

A chain on which nothing happens but time: a miner adds blocks without contents, at a fixed
distance from each other, and earns nothing because the difficulty exceeds the base reward.
Such blocks move the tip and rank the refiners, and nothing else. With them a chain to
compute with gets to heights that evaluation does not reach.

* `Reference.idle_step` : what one idle block does.
* `Reference.idle_run` : what a run of idle blocks leaves.
-/

namespace Opolys

open Codec (Borsh leBytes)
open Effect (check_bind_eq_ok)
open MachineInt (saturatingAdd)

variable {P : Primitives}

/-! ## Blocks without contents -/

theorem RefinerSet.processMaturedUnbonds_of_empty {set : RefinerSet} (h : set.unbondingQueue = [])
    (height : BlockHeight) : (set.processMaturedUnbonds height).1 = set := by
  obtain ⟨cachedRefiners, activeSet, unbondingQueue⟩ := set
  obtain rfl : unbondingQueue = [] := h
  rfl

theorem RefinerSet.ranked_new (height : BlockHeight) (totalIssued : FlakeAmount) :
    RefinerSet.new.ranked height totalIssued = RefinerSet.new := by
  unfold RefinerSet.ranked
  split <;> rfl

theorem creditProducer_zero (producer : ObjectId) (accounts : AccountStore) :
    creditProducer producer 0 accounts = .ok accounts := by
  unfold creditProducer
  rw [if_neg (by rintro ⟨-, h⟩; cases h)]

theorem Accepted.attested_of_none {env : Env} {block : Block} {node node' : OpolysNode}
    {st : Stages} (h : Accepted P env block node node' st)
    (hattestations : block.attestations = []) :
    st.attested = node := by
  have hattest := h.attest
  rw [hattestations, List.foldlM_nil, Effect.run_pure_eq_ok] at hattest
  exact hattest.2.symm

/-- A block without evidence and a reward executes its transactions on the accounts as they
were, and on the refiners after its attestations. -/
theorem Accepted.of_unpaid {env : Env} {block : Block} {node node' : OpolysNode} {st : Stages}
    (h : Accepted P env block node node' st) (hevidence : block.slashEvidence = [])
    (hreward : st.opening.reward.grossReward = 0 ∧ st.opening.reward.minerShare = 0) :
    node'.chain.totalIssued = node.chain.totalIssued ∧
      st.executed.ledger = (executedFrom P (executionContext block.header node.chain)
        block.transactions { accounts := node.accounts, refiners := st.attested.refiners }).2 := by
  have hrefiners : st.finalized.refiners = st.attested.refiners := by
    rw [h.finalized_frame]
  have hissued : node'.chain.totalIssued = node.chain.totalIssued := by
    rw [h.chain_eq]
    dsimp only
    rw [hreward.1, MachineInt.saturatingAdd_zero]
  have hopened : st.opened.ledger =
      { accounts := node.accounts, refiners := st.attested.refiners } := by
    have hcredit := h.reward_credit
    rw [hreward.2, creditProducer_zero, h.finalized_frame] at hcredit
    have hslashing := h.slashing_eq
    rw [hevidence, List.foldl_nil] at hslashing
    unfold OpolysNode.ledger
    rw [← Except.ok.inj hcredit, h.opened_eq, hslashing]
    dsimp only [initialSlashing]
    rw [hrefiners]
  have hcontext : executionContext block.header st.opened.chain =
      executionContext block.header node.chain := by
    unfold executionContext
    rw [h.opened_eq, h.finalized_frame]
  refine ⟨hissued, ?_⟩
  rw [h.executed_ledger, hopened, hcontext]

/-- No transaction of the block is of this chain. -/
def Block.Barren (block : Block) : Prop := ∀ tx ∈ block.transactions, tx.chainId ≠ mainnetChainId

theorem Block.barren_of_empty {block : Block} (h : block.transactions = []) : block.Barren := by
  intro tx hmem
  rw [h] at hmem
  cases hmem

/-- A transaction of another chain fails. -/
theorem applyTransaction_of_foreign {tx : Transaction} (h : tx.chainId ≠ mainnetChainId)
    (context : ExecutionContext) (ledger : Ledger) :
    (TransactionDispatcher.applyTransaction P tx context mainnetChainId ledger).1.success = false ∧
      (TransactionDispatcher.applyTransaction P tx context mainnetChainId ledger).2 = ledger := by
  have hcases := TransactionDispatcher.applyTransaction_cases P tx context mainnetChainId ledger
  dsimp only at hcases
  rcases hcases with ⟨hsuccess, -⟩ | hfailed
  · unfold TransactionDispatcher.applyTransaction at hsuccess
    split at hsuccess
    · rename_i hrun
      have hverify := (TransactionDispatcher.dispatch_eq_ok hrun).1
      unfold verifyTransaction at hverify
      rw [check_bind_eq_ok] at hverify
      exact (h hverify.1).elim
    · cases hsuccess
  · exact hfailed

theorem executedFrom_of_foreign {txs : List Transaction}
    (h : ∀ tx ∈ txs, tx.chainId ≠ mainnetChainId) (context : ExecutionContext) (ledger : Ledger) :
    (executedFrom P context txs ledger).2 = ledger := by
  induction txs with
  | nil => rfl
  | cons tx txs ih =>
    rw [List.forall_mem_cons] at h
    unfold executedFrom
    dsimp only
    rw [(applyTransaction_of_foreign h.1 context ledger).2]
    exact ih h.2

/-- Transactions of another chain pay no fees. -/
theorem tally_of_foreign {header : BlockHeader} {txs : List Transaction}
    (h : ∀ tx ∈ txs, tx.chainId ≠ mainnetChainId) {tally tally' : TxTally}
    {node node' : OpolysNode}
    (hrun : txs.foldlM (executeTransaction P header) tally node = .ok tally' node') :
    tally' = tally := by
  refine Effect.run_foldlM_invariant (I := fun b _ => b = tally) rfl ?_ hrun
  intro tally1 node1 tx tally2 node2 hmem htally htx
  obtain ⟨hfailed, -⟩ := applyTransaction_of_foreign (P := P) (h tx hmem)
    (executionContext header node1.chain) node1.ledger
  obtain ⟨hcount, -⟩ := executeTransaction_eq_ok htx
  unfold TxTally.count at hcount
  rw [hfailed, if_neg Bool.false_ne_true] at hcount
  exact (Except.ok.inj hcount).symm.trans htally

/-- If besides its transactions fail, it ranks the refiners and touches neither accounts nor
supply. -/
theorem Accepted.of_barren {env : Env} {block : Block} {node node' : OpolysNode} {st : Stages}
    (h : Accepted P env block node node' st) (hbarren : block.Barren)
    (hevidence : block.slashEvidence = [])
    (hreward : st.opening.reward.grossReward = 0 ∧ st.opening.reward.minerShare = 0)
    (hqueue : st.attested.refiners.unbondingQueue = []) :
    node'.accounts = node.accounts ∧ node'.refiners =
      st.attested.refiners.ranked block.header.height node.chain.totalIssued := by
  obtain ⟨hissued, hexecuted⟩ := h.of_unpaid hevidence hreward
  rw [executedFrom_of_foreign hbarren] at hexecuted
  have hexecutedAccounts : st.executed.accounts = node.accounts :=
    congrArg Ledger.accounts hexecuted
  have hexecutedRefiners : st.executed.refiners = st.attested.refiners :=
    congrArg Ledger.refiners hexecuted
  have hincome : feeIncome st.opening st.tally = 0 := by
    unfold feeIncome
    rw [tally_of_foreign hbarren h.execute, routeFees_zero, ite_self]
  have hsettled : st.settled.accounts = node.accounts := by
    have hcredit := h.fee_credit
    rw [hincome, creditProducer_zero] at hcredit
    rw [← Except.ok.inj hcredit, hexecutedAccounts]
  have hsettledRefiners : st.settled.refiners = st.attested.refiners := by
    rw [h.settled_eq]
    exact hexecutedRefiners
  have hpaid : st.paid.accounts = node.accounts := by
    have hpayout := h.payout
    unfold RefinerSet.maturedUnbonds at hpayout
    rw [hsettledRefiners, hqueue] at hpayout
    exact (Except.ok.inj hpayout).symm.trans hsettled
  refine ⟨h.accounts_eq.trans hpaid, ?_⟩
  rw [h.refiners_eq, hexecutedRefiners, RefinerSet.processMaturedUnbonds_of_empty hqueue, hissued]

/-- Where the base reward is below the difficulty, nothing is paid for a block. -/
theorem blockReward_of_lt {kind : BlockProductionKind} {header : BlockHeader} {chain : ChainState}
    {bondedStake : FlakeAmount} (h : chain.baseReward.toNat < header.difficulty.toNat) :
    (blockReward P kind header chain bondedStake).2 = ⟨0, 0, 0, 0⟩ := by
  have hbase : chain.baseReward / max header.difficulty minDifficulty = 0 := by
    rw [← UInt64.toNat_inj, UInt64.toNat_div, MachineInt.toNat_max, toNat_minDifficulty,
      UInt64.toNat_zero]
    exact Nat.div_eq_of_lt (by omega)
  have hgross (value : UInt64) :
      Emission.computeBlockReward chain.baseReward header.difficulty value = 0 := by
    unfold Emission.computeBlockReward
    dsimp only
    rw [hbase, UInt64.toNat_zero, Nat.zero_mul, Nat.zero_div]
    rfl
  unfold blockReward
  dsimp only
  unfold computeRewardDistribution
  rw [if_pos]
  cases kind with
  | genesis => rfl
  | mined => exact hgross _
  | refined => rfl

/-! ## Regular timestamps -/

/-- Every block has come `delay` seconds after its parent, from a genesis at second 0. -/
def Tip.Ticking (delay : ℕ) (tip : Tip) : Prop :=
  tip.timestamps = (List.range' (tip.height.toNat + 1 - min (tip.height.toNat + 1) 961)
    (min (tip.height.toNat + 1) 961)).map fun k => UInt64.ofNat (k * delay)

namespace Tip.Ticking

variable {delay : ℕ} {tip : Tip}

theorem getLast? (h : tip.Ticking delay) :
    tip.timestamps.getLast? = some (UInt64.ofNat (tip.height.toNat * delay)) := by
  unfold Ticking at h
  rw [h]
  generalize hlength : min (tip.height.toNat + 1) 961 = length
  obtain ⟨before, rfl⟩ : ∃ before, length = before + 1 := ⟨length - 1, by omega⟩
  have hindex : tip.height.toNat + 1 - (before + 1) + 1 * before = tip.height.toNat := by omega
  rw [List.getLast?_map, List.range'_concat, List.getLast?_concat, Option.map_some, hindex]

theorem getD (h : tip.Ticking delay) (hfull : 960 ≤ tip.height.toNat) {i : ℕ} (hi : i < 961) :
    tip.timestamps.getD i 0 = UInt64.ofNat ((tip.height.toNat - 960 + i) * delay) := by
  unfold Ticking at h
  rw [h]
  generalize hlength : min (tip.height.toNat + 1) 961 = length
  have hindex : tip.height.toNat + 1 - length + 1 * i = tip.height.toNat - 960 + i := by omega
  rw [List.getD_eq_getElem?_getD, List.getElem?_map, List.getElem?_range' (by omega), hindex,
    Option.map_some, Option.getD_some]

theorem advance (h : tip.Ticking delay) {header : BlockHeader}
    (hheight : header.height.toNat = tip.height.toNat + 1)
    (htimestamp : header.timestamp = UInt64.ofNat ((tip.height.toNat + 1) * delay)) :
    (tip.advance header).Ticking delay := by
  unfold Ticking at h ⊢
  dsimp only [Tip.advance]
  rw [hheight]
  generalize hlength : min (tip.height.toNat + 1) 961 = length at h
  generalize hlength' : min (tip.height.toNat + 1 + 1) 961 = length'
  have hindex : tip.height.toNat + 1 - length + 1 * length = tip.height.toNat + 1 := by omega
  have hconcat : tip.timestamps ++ [header.timestamp] =
      (List.range' (tip.height.toNat + 1 - length) (length + 1)).map
        fun k => UInt64.ofNat (k * delay) := by
    rw [h, htimestamp, List.range'_concat, List.map_append, List.map_singleton, hindex]
  have hstart : tip.height.toNat + 1 - length + (length + 1 - 961) * 1 =
      tip.height.toNat + 1 + 1 - length' := by omega
  have hrest : length + 1 - (length + 1 - 961) = length' := by omega
  unfold ChainState.pruneBlockTimestamps
  rw [hconcat, List.length_map, List.length_range', blockTimestampWindowLen_eq, ← List.map_drop,
    List.drop_range', hstart, hrest]

/-- The window of an epoch spans 960 delays. -/
theorem windowMs_eq (h : tip.Ticking delay) (hfull : 960 ≤ tip.height.toNat)
    (hheight : tip.height.toNat + 1 < 2 ^ 64) (hlast : tip.height.toNat * delay < 2 ^ 64)
    (hspan : 960000 * delay < 2 ^ 64) :
    (windowMs tip.height tip.timestamps).toNat = 960000 * delay := by
  have hthousand : (1000 : UInt64).toNat = 1000 := rfl
  have hsum : (tip.height.toNat - 960) * delay + 960 * delay = tip.height.toNat * delay := by
    rw [← Nat.add_mul, Nat.sub_add_cancel hfull]
  have hfirst : tip.timestamps.getD 0 0 = UInt64.ofNat ((tip.height.toNat - 960) * delay) := by
    rw [h.getD hfull (by omega), Nat.add_zero]
  have hlast' : tip.timestamps.getD 960 0 = UInt64.ofNat (tip.height.toNat * delay) := by
    rw [h.getD hfull (by omega), Nat.sub_add_cancel hfull]
  unfold windowMs
  rw [if_pos hheight, hfirst, hlast', MachineInt.toNat_saturatingMul,
    MachineInt.toNat_saturatingSub, MachineInt.toNat_ofNat_of_lt hlast,
    MachineInt.toNat_ofNat_of_lt (by omega), hthousand]
  generalize (tip.height.toNat - 960) * delay = first at hsum ⊢
  generalize tip.height.toNat * delay = last at hsum ⊢
  omega

end Tip.Ticking

/-! ## Blocks in time -/

namespace Reference

/-- The call with which a node mines a block `delay` seconds after the last one. -/
def tick (delay : ℕ) (transactions : List Transaction) (node : OpolysNode) : Call :=
  let nowSecs := node.chain.blockTimestamps.getLast?.getD 0 + UInt64.ofNat delay
  { env := { nowSecs, writeOk := true }
    block := withNonce 0
      ((node.candidateBlock primitives nowSecs { transactions }).toOption.getD emptyBlock) }

/-- The call with which a node mines a block with a body. -/
def mineWith (delay : ℕ) (body : CandidateBody) (node : OpolysNode) : Call :=
  let nowSecs := node.chain.blockTimestamps.getLast?.getD 0 + UInt64.ofNat delay
  { env := { nowSecs, writeOk := true }
    block := withNonce 0
      ((node.candidateBlock primitives nowSecs body).toOption.getD emptyBlock) }

/-- A node that mines in time, with closed books and an account for its rewards. -/
structure Ready (delay : ℕ) (node : OpolysNode) : Prop where
  conserved : node.Conserved
  encodable : node.ledger.EncodableUpTo 8
  identity : node.minerId.hash.isZero = false
  producer : checkMinedProducer node.accounts node.minerId = .ok ()
  ticking : node.chain.tip.Ticking delay

/-- The next block can be mined, and nothing is paid for it. -/
structure Unpaid (node : OpolysNode) : Prop where
  reward : node.chain.baseReward.toNat < node.expectedDifficulty.toNat
  difficulty : node.expectedDifficulty.toNat ≤ 256

/-- Transactions that fit into a block with ease. -/
structure Small (transactions : List Transaction) : Prop where
  fits : Borsh.fits transactions = true
  size : (Borsh.encode transactions).length ≤ 1000000
  count : transactions.length ≤ 100
  distinct : (transactions.map Transaction.txId).Nodup
  data : ∀ tx ∈ transactions, tx.data.length ≤ maxTxDataSizeBytes
  fee : ∀ tx ∈ transactions, minFee ≤ tx.fee

/-- A body that fits into a block with ease. -/
structure SmallBody (body : CandidateBody) : Prop extends Small body.transactions where
  evidence : body.slashEvidence = []
  votesFit : Borsh.fits body.attestations = true
  votesSize : (Borsh.encode body.attestations).length ≤ 1000000
  votes : body.attestations.length ≤ 100

theorem encodable_of_values {ledger : Ledger}
    (hkeys : ∀ a ∈ ledger.accounts.values, (a.publicKey.getD []).length < 2 ^ 32)
    (hbonds : ∀ r ∈ ledger.refiners.cachedRefiners.values, r.entries.length ≤ 8) :
    ledger.EncodableUpTo 8 := by
  refine ⟨fun id pk hpk => ?_, fun id r hr => hbonds r (Registry.mem_values.mpr ?_)⟩
  · unfold AccountStore.keyOf at hpk
    obtain ⟨account, hget, hkey⟩ := Option.bind_eq_some_iff.mp hpk
    have hid : account.objectId = id := Registry.name_of_get? hget
    have hlength := hkeys account (Registry.mem_values.mpr (hid ▸ hget))
    rw [hkey] at hlength
    exact hlength
  · have hid : r.objectId = id := Registry.name_of_get? hr
    exact hid ▸ hr

theorem small_nil : Small [] := ⟨rfl, by decide, by decide, List.nodup_nil, nofun, nofun⟩

theorem Small.body {transactions : List Transaction} (h : Small transactions) :
    SmallBody { transactions } := by
  have hnil : (Borsh.encode ([] : List BlockAttestation)).length ≤ 1000000 := by decide
  exact ⟨h, rfl, rfl, hnil, Nat.zero_le _⟩

/-- The hash of nonce 0 is zero. -/
theorem verifyPowLight_of_nonce_zero {header : BlockHeader} {difficulty : UInt64}
    (hproof : header.powProof = some (leBytes 8 (0 : UInt64).toNat)) (hpos : difficulty ≠ 0)
    (hle : difficulty.toNat ≤ 256) : verifyPowLight primitives header difficulty = .ok () := by
  have hbits : leadingZeroBits (powHash 0).bytes = 256 := by decide +kernel
  refine verifyPowLight_eq_ok.mpr ⟨hpos, 0, by rw [hproof]; rfl, ?_⟩
  change difficulty.toNat ≤ leadingZeroBits (powHash 0).bytes
  rw [hbits]
  exact hle

/-- What a node that mines in time puts into its next block. -/
structure MinedBlock (delay : ℕ) (body : CandidateBody) (node : OpolysNode) (block : Block) :
    Prop where
  height : block.header.height = node.chain.currentHeight + 1
  timestamp : block.header.timestamp =
    UInt64.ofNat ((node.chain.currentHeight.toNat + 1) * delay)
  difficulty : block.header.difficulty = node.expectedDifficulty
  producer : block.header.producer = node.minerId
  signature : block.header.refinerSignature = none
  transactions : block.transactions = body.transactions
  evidence : block.slashEvidence = body.slashEvidence
  attestations : block.attestations = body.attestations

variable {delay : ℕ} {body : CandidateBody} {transactions : List Transaction} {node : OpolysNode}

theorem SmallBody.candidate (h : SmallBody body) (node : OpolysNode) (nowSecs : UInt64) :
    ∃ block, node.candidateBlock primitives nowSecs body = .ok block := by
  have hvotes : borshToVec "Block attestation" body.attestations =
      .ok (Borsh.encode body.attestations) :=
    borshToVec_eq_ok.mpr (Borsh.toVec_eq_some.mpr ⟨h.votesFit, rfl⟩)
  unfold OpolysNode.candidateBlock setBodyRoots computeAttestationRoot
  dsimp only
  rw [hvotes, h.evidence]
  exact ⟨_, rfl⟩

theorem checkBlock_mineWith (h : Ready delay node) (hunpaid : Unpaid node)
    (hsmall : SmallBody body) (hdelay : 45 ≤ delay ∧ delay < 2 ^ 16)
    (hheight : node.chain.currentHeight.toNat < 2 ^ 32) :
    checkBlock primitives (mineWith delay body node).env (mineWith delay body node).block node =
        .ok .mined ∧
      MinedBlock delay body node (mineWith delay body node).block := by
  have hlast : node.chain.blockTimestamps.getLast? =
      some (UInt64.ofNat (node.chain.currentHeight.toNat * delay)) := h.ticking.getLast?
  have hmul : node.chain.currentHeight.toNat * delay < 2 ^ 32 * 2 ^ 16 :=
    Nat.mul_lt_mul'' hheight hdelay.2
  have hsum : (node.chain.currentHeight.toNat + 1) * delay =
      node.chain.currentHeight.toNat * delay + delay := Nat.succ_mul _ _
  unfold mineWith
  dsimp only
  rw [hlast, Option.getD_some]
  have hnow : UInt64.ofNat (node.chain.currentHeight.toNat * delay) + UInt64.ofNat delay =
      UInt64.ofNat ((node.chain.currentHeight.toNat + 1) * delay) := by
    rw [hsum, UInt64.ofNat_add]
  rw [hnow]
  generalize hnowSecs : UInt64.ofNat ((node.chain.currentHeight.toNat + 1) * delay) = nowSecs
  have hnowNat : nowSecs.toNat = node.chain.currentHeight.toNat * delay + delay := by
    rw [← hnowSecs, hsum, MachineInt.toNat_ofNat_of_lt (by omega)]
  have htime : node.candidateTimestamp nowSecs = nowSecs := by
    have hfortyfive : minimumBlockTimestampDeltaSecs.toNat = 45 := rfl
    rw [← UInt64.toNat_inj, OpolysNode.candidateTimestamp, hlast, MachineInt.toNat_max,
      Option.getD_some, MachineInt.toNat_saturatingAdd, hfortyfive,
      MachineInt.toNat_ofNat_of_lt (by omega), hnowNat]
    omega
  obtain ⟨block, hblock⟩ := hsmall.candidate node nowSecs
  obtain ⟨-, -, hblockHeight, -, -, hblockTime, hblockDifficulty, hblockProducer, hext,
    hsignature, htransactions, hevidence, hattestations, hceremony⟩ :=
    OpolysNode.candidateBlock_eq_ok hblock
  rw [hblock]
  change checkBlock primitives _ (withNonce 0 block) node = .ok .mined ∧
    MinedBlock delay body node (withNonce 0 block)
  refine ⟨?_, hblockHeight, hblockTime.trans (htime.trans hnowSecs.symm), hblockDifficulty,
    hblockProducer, hsignature, htransactions, hevidence, hattestations⟩
  have hproofs : withNonce 0 block = block.withProofs (some (leBytes 8 (0 : UInt64).toNat))
    block.header.refinerSignature := rfl
  have hone : (1 : UInt64).toNat = 1 := rfl
  have hnonzero : ¬block.header.height = 0 := by
    rw [hblockHeight, ← UInt64.toNat_inj, MachineInt.toNat_add_of_lt (by omega), hone,
      UInt64.toNat_zero]
    omega
  have hnone : block.header.refinerSignature.isSome = false := by
    rw [hsignature]
    rfl
  have hkind : (withNonce 0 block).header.productionKind = some .mined :=
    BlockHeader.productionKind_mined hnonzero rfl hnone
  rw [hproofs] at hkind ⊢
  refine (checkBlock_candidate hblock _ _ _ _).mpr ⟨hkind, ?_, ?_, fun _ => ?_⟩
  · dsimp only
    rw [htime, UInt64.le_iff_toNat_le, MachineInt.toNat_saturatingAdd]
    have := nowSecs.toNat_lt
    omega
  · have hfields : block.withProofs (some (leBytes 8 (0 : UInt64).toNat))
        block.header.refinerSignature =
          ⟨(withNonce 0 block).header, body.transactions, [], body.attestations, none⟩ :=
      Block.ext rfl htransactions (hevidence.trans hsmall.evidence) hattestations hceremony
    have hlengths : (Borsh.encode (withNonce 0 block).header.powProof).length +
        (Borsh.encode (withNonce 0 block).header.refinerSignature).length ≤ 100 := by
      change (Borsh.encode (some (leBytes 8 (0 : UInt64).toNat))).length +
        (Borsh.encode block.header.refinerSignature).length ≤ 100
      rw [hsignature]
      decide
    have hunsigned : Borsh.fits (withNonce 0 block).header.refinerSignature = true := by
      change Borsh.fits block.header.refinerSignature = true
      rw [hsignature]
      rfl
    have hsize : blockSize
        ⟨(withNonce 0 block).header, body.transactions, [], body.attestations, none⟩ ≤
          450 + (Borsh.encode body.transactions).length + (Borsh.encode body.attestations).length :=
      blockSize_le_of_proofs hext hlengths rfl hunsigned hsmall.fits hsmall.votesFit
    have htransactionsSize := hsmall.size
    have hvotesSize := hsmall.votesSize
    have hmax : maxBlockSizeBytes = 10485760 := rfl
    rw [hfields]
    exact ⟨hsmall.count.trans (by decide), Nat.zero_le _, hsmall.votes.trans (by decide), by omega,
      hsmall.distinct, hsmall.data, hsmall.fee⟩
  · unfold checkProof
    rw [hkind]
    dsimp only
    rw [check_bind_eq_ok]
    refine ⟨?_, verifyPowLight_of_nonce_zero rfl ?_ ?_⟩
    · change block.header.producer.hash.isZero = false
      rw [hblockProducer]
      exact h.identity
    · change block.header.difficulty ≠ 0
      rw [hblockDifficulty]
      intro hzero
      have hlt := hunpaid.reward
      rw [hzero, UInt64.toNat_zero] at hlt
      omega
    · change block.header.difficulty.toNat ≤ 256
      rw [hblockDifficulty]
      exact hunpaid.difficulty

/-- Such a block is accepted if its attestations are, and it pays nothing. -/
theorem accepted_mineWith (h : Ready delay node) (hunpaid : Unpaid node)
    (hsmall : SmallBody body) (hdelay : 45 ≤ delay ∧ delay < 2 ^ 16)
    (hheight : node.chain.currentHeight.toNat < 2 ^ 32) {finalized : OpolysNode}
    (hattest : processAttestations primitives (mineWith delay body node).block node =
      .ok () finalized) :
    node.accepts primitives (mineWith delay body node) = true ∧
      ∃ st, Accepted primitives (mineWith delay body node).env (mineWith delay body node).block node
        (node.step primitives (mineWith delay body node)) st ∧
          st.opening.reward = ⟨0, 0, 0, 0⟩ := by
  obtain ⟨hcheck, hblock⟩ := checkBlock_mineWith h hunpaid hsmall hdelay hheight
  generalize mineWith delay body node = call at hcheck hblock hattest ⊢
  have hnothing (bondedStake : FlakeAmount) :
      (blockReward primitives .mined call.block.header node.chain bondedStake).2 =
        ⟨0, 0, 0, 0⟩ := by
    refine blockReward_of_lt ?_
    rw [hblock.difficulty]
    exact hunpaid.reward
  have haccounts : finalized.accounts = node.accounts := by
    rw [(processAttestations_votes call.block node).ok hattest]
  have hchecked : checkProducer primitives .mined call.block.header finalized = .ok () := by
    unfold checkProducer verifyRefinerSignature
    rw [hblock.signature, hblock.producer, haccounts]
    exact h.producer
  have hgross : (node.rewardOf primitives .mined call.block.header).grossReward = 0 := by
    unfold OpolysNode.rewardOf
    rw [hnothing]
  obtain ⟨hash, node', hrun⟩ := applyBlock_succeeds h.conserved hcheck hattest hchecked
    (by rw [hgross]; exact node.chain.totalIssued.toNat_lt) h.encodable (by
      rw [hblock.transactions]
      have := hsmall.count
      omega)
  have haccepts : node.accepts primitives call = true := by
    unfold OpolysNode.accepts OpolysNode.outcome
    rw [hrun]
    rfl
  obtain ⟨st, hst⟩ := OpolysNode.accepted_of_accepts haccepts
  have hkind : st.kind = .mined := Except.ok.inj (hst.check.symm.trans hcheck)
  refine ⟨haccepts, st, hst, ?_⟩
  rw [hst.reward_eq, hkind]
  refine blockReward_of_lt ?_
  rw [hblock.difficulty, hst.finalized_frame]
  exact hunpaid.reward

/-- Without attestations nothing is left to check. -/
theorem accepted_tick (h : Ready delay node) (hunpaid : Unpaid node)
    (hsmall : Small transactions) (hdelay : 45 ≤ delay ∧ delay < 2 ^ 16)
    (hheight : node.chain.currentHeight.toNat < 2 ^ 32) :
    MinedBlock delay { transactions } node (tick delay transactions node).block ∧
      node.accepts primitives (tick delay transactions node) = true ∧
      ∃ st, Accepted primitives (tick delay transactions node).env
        (tick delay transactions node).block node
        (node.step primitives (tick delay transactions node)) st ∧
        st.opening.reward = ⟨0, 0, 0, 0⟩ := by
  have hblock := (checkBlock_mineWith h hunpaid hsmall.body hdelay hheight).2
  obtain ⟨finalized, hattest⟩ : ∃ finalized, processAttestations primitives
      (mineWith delay { transactions } node).block node = .ok () finalized := by
    unfold processAttestations
    rw [hblock.attestations]
    exact ⟨_, rfl⟩
  exact ⟨hblock, accepted_mineWith h hunpaid hsmall.body hdelay hheight hattest⟩

/-! ## Idle blocks -/

/-- What an idle block leaves and what it moves, when its attestations have left `refiners`. -/
structure Idled (refiners : RefinerSet) (node node' : OpolysNode) : Prop where
  height : node'.chain.currentHeight = node.chain.currentHeight + 1
  difficulty : node'.chain.currentDifficulty = node.expectedDifficulty
  baseReward : node'.chain.baseReward = node.chain.baseReward
  issued : node'.chain.totalIssued = node.chain.totalIssued
  accounts : node'.accounts = node.accounts
  refiners : node'.refiners =
    refiners.ranked (node.chain.currentHeight + 1) node.chain.totalIssued

/-- A node with closed books and an account for its rewards. -/
structure Prepared (node : OpolysNode) : Prop where
  conserved : node.Conserved
  encodable : node.ledger.EncodableUpTo 8
  identity : node.minerId.hash.isZero = false
  producer : checkMinedProducer node.accounts node.minerId = .ok ()

theorem Ready.prepared (h : Ready delay node) : Prepared node :=
  ⟨h.conserved, h.encodable, h.identity, h.producer⟩

/-- An accepted block that pays nothing, whose transactions fail, and that holds no evidence moves
the tip and ranks the refiners, whenever it comes. -/
theorem unpaid_step (h : Prepared node) {call : Call} {st : Stages}
    (hst : Accepted primitives call.env call.block node (node.step primitives call) st)
    (hbarren : call.block.Barren) (hevidence : call.block.slashEvidence = [])
    (hreward : st.opening.reward = ⟨0, 0, 0, 0⟩)
    (hqueue : st.attested.refiners.unbondingQueue = []) :
    Prepared (node.step primitives call) ∧
      Idled st.attested.refiners node (node.step primitives call) := by
  obtain ⟨hblockHeight, -, hdifficulty, -⟩ := checkBlock_header hst.check
  have hconserved : (node.step primitives call).Conserved := by
    refine conserved_step h.conserved fun opening node' hopen => ?_
    rw [hst.opening_run] at hopen
    cases hopen
    rw [hreward, hst.opened_eq, hst.finalized_frame]
    exact node.chain.totalIssued.toNat_lt
  have hidentity := OpolysNode.identity_step (P := primitives) node call
  have htip := hst.tip_eq
  generalize node.step primitives call = node' at *
  have hunmoved : st.opening.reward.grossReward = 0 ∧ st.opening.reward.minerShare = 0 := by
    rw [hreward]
    exact ⟨rfl, rfl⟩
  obtain ⟨hissued, -⟩ := hst.of_unpaid hevidence hunmoved
  obtain ⟨haccounts, hrefiners⟩ := hst.of_barren hbarren hevidence hunmoved hqueue
  rw [hblockHeight] at hrefiners
  have hencodable : node'.ledger.EncodableUpTo 8 := by
    have hfinalized := ((Ledger.EncodableUpTo.kept 8).toKeptByStages.processAttestations
      call.block h.encodable).ok hst.attest_run
    rw [hst.finalized_frame] at hfinalized
    have hranked := (Ledger.EncodableUpTo.kept 8).ranked hfinalized
      (node.chain.currentHeight + 1) node.chain.totalIssued
    unfold OpolysNode.ledger at hranked ⊢
    rw [haccounts, hrefiners]
    exact hranked
  refine ⟨⟨hconserved, hencodable, ?_, ?_⟩, ?_, ?_, ?_, hissued, haccounts, hrefiners⟩
  · rw [hidentity.1]
    exact h.identity
  · rw [hidentity.1, haccounts]
    exact h.producer
  · exact (congrArg Tip.height htip).trans hblockHeight
  · exact (congrArg Tip.difficulty htip).trans hdifficulty
  · exact congrArg Tip.baseReward htip

/-- A block that comes in time leaves the node ready. -/
theorem empty_step (h : Ready delay node) {call : Call} {st : Stages}
    (hst : Accepted primitives call.env call.block node (node.step primitives call) st)
    (hheight : node.chain.currentHeight.toNat < 2 ^ 32)
    (htimestamp : call.block.header.timestamp =
      UInt64.ofNat ((node.chain.currentHeight.toNat + 1) * delay))
    (hbarren : call.block.Barren) (hevidence : call.block.slashEvidence = [])
    (hreward : st.opening.reward = ⟨0, 0, 0, 0⟩)
    (hqueue : st.attested.refiners.unbondingQueue = []) :
    Ready delay (node.step primitives call) ∧
      Idled st.attested.refiners node (node.step primitives call) := by
  obtain ⟨hprepared, hidled⟩ := unpaid_step h.prepared hst hbarren hevidence hreward hqueue
  have hone : (1 : UInt64).toNat = 1 := rfl
  have hnext : call.block.header.height.toNat = node.chain.currentHeight.toNat + 1 := by
    rw [(checkBlock_header hst.check).1, MachineInt.toNat_add_of_lt (by omega), hone]
  have hticking : (node.step primitives call).chain.tip.Ticking delay := by
    rw [hst.tip_eq]
    exact h.ticking.advance hnext htimestamp
  exact ⟨⟨hprepared.conserved, hprepared.encodable, hprepared.identity, hprepared.producer,
    hticking⟩, hidled⟩

/-- A block whose transactions fail is accepted, moves the tip and ranks the refiners. -/
theorem barren_step (h : Ready delay node) (hunpaid : Unpaid node)
    (hqueue : node.refiners.unbondingQueue = []) (hsmall : Small transactions)
    (hforeign : ∀ tx ∈ transactions, tx.chainId ≠ mainnetChainId)
    (hdelay : 45 ≤ delay ∧ delay < 2 ^ 16)
    (hheight : node.chain.currentHeight.toNat < 2 ^ 32) :
    node.accepts primitives (tick delay transactions node) = true ∧
      Ready delay (node.step primitives (tick delay transactions node)) ∧
      Idled node.refiners node (node.step primitives (tick delay transactions node)) := by
  obtain ⟨hblock, haccepts, st, hst, hreward⟩ := accepted_tick h hunpaid hsmall hdelay hheight
  have hattested := hst.attested_of_none hblock.attestations
  have hbarren : (tick delay transactions node).block.Barren := by
    unfold Block.Barren
    rw [hblock.transactions]
    exact hforeign
  have hstep := empty_step h hst hheight hblock.timestamp hbarren hblock.evidence hreward
    (by rw [hattested]; exact hqueue)
  rw [hattested] at hstep
  exact ⟨haccepts, hstep⟩

/-- An idle block is accepted, moves the tip and ranks the refiners. -/
theorem idle_step (h : Ready delay node) (hunpaid : Unpaid node)
    (hqueue : node.refiners.unbondingQueue = []) (hdelay : 45 ≤ delay ∧ delay < 2 ^ 16)
    (hheight : node.chain.currentHeight.toNat < 2 ^ 32) :
    node.accepts primitives (tick delay [] node) = true ∧
      Ready delay (node.step primitives (tick delay [] node)) ∧
      Idled node.refiners node (node.step primitives (tick delay [] node)) :=
  barren_step h hunpaid hqueue small_nil nofun hdelay hheight

/-- While a tip ticks, its window is full or reaches back to genesis. -/
theorem Ready.windowed (h : Ready delay node) : node.chain.tip.Windowed := by
  have hlength : node.chain.tip.timestamps.length =
      min (node.chain.tip.height.toNat + 1) 961 := by
    have hticking := h.ticking
    unfold Tip.Ticking at hticking
    rw [hticking, List.length_map, List.length_range']
  unfold Tip.Windowed
  omega

/-- After the first epoch every window takes 960 delays. -/
theorem Ready.elapsedMs_eq (h : Ready delay node) (hfull : 960 ≤ node.chain.currentHeight.toNat)
    (hheight : node.chain.currentHeight.toNat < 2 ^ 32) (hdelay : delay < 2 ^ 16) :
    node.elapsedMs = UInt64.ofNat (960000 * delay) := by
  have hmul : node.chain.currentHeight.toNat * delay < 2 ^ 32 * 2 ^ 16 :=
    Nat.mul_lt_mul'' hheight hdelay
  rw [← UInt64.toNat_inj, MachineInt.toNat_ofNat_of_lt (by omega)]
  exact h.ticking.windowMs_eq hfull (by change node.chain.currentHeight.toNat + 1 < _; omega)
    (by change node.chain.currentHeight.toNat * delay < _; omega) (by omega)

/-- In the first epoch, and for ever when blocks come every 90 seconds, the difficulty stays
what it is above the floor. -/
theorem expectedDifficulty_held (h : Ready delay node)
    (hheight : node.chain.currentHeight.toNat < 2 ^ 32)
    (hheld : node.chain.currentHeight.toNat < 960 ∨ delay = 90)
    (hpos : 1 ≤ node.chain.currentDifficulty.toNat)
    (hle : node.chain.currentDifficulty.toNat ≤ 256)
    (hfloor : computeConsensusFloor node.chain.totalIssued node.refiners.totalBondedStake ≤
      node.chain.currentDifficulty) :
    node.expectedDifficulty = node.chain.currentDifficulty := by
  have hmax : max node.chain.currentDifficulty minDifficulty = node.chain.currentDifficulty := by
    rw [← UInt64.toNat_inj, MachineInt.toNat_max, toNat_minDifficulty]
    omega
  have hretarget : node.nextDifficulty.retarget = node.chain.currentDifficulty := by
    rw [OpolysNode.retarget_eq h.windowed]
    split
    · exact hmax
    · rename_i hge
      have hfull : 960 ≤ node.chain.currentHeight.toNat := by
        rw [UInt64.lt_iff_toNat_lt, toNat_epoch] at hge
        omega
      obtain rfl : delay = 90 := hheld.resolve_left (by omega)
      have hms : node.elapsedMs.toNat = 86400000 := by
        rw [h.elapsedMs_eq hfull hheight (by omega)]
        rfl
      refine ((adjustedDifficulty_eq_iff _ _).mpr ?_).trans hmax
      have hnonzero : ¬node.elapsedMs = 0 := by
        rw [← UInt64.toNat_inj, hms, UInt64.toNat_zero]
        omega
      unfold OnSchedule
      rw [if_neg hnonzero, hms, epochTimeMs_eq]
      generalize node.chain.currentDifficulty.toNat = d at hpos hle ⊢
      dsimp only
      refine ⟨0, ?_, ?_⟩ <;> rw [Nat.zero_mul, Nat.zero_add]
      · split
        · rw [Nat.zero_mul]
          exact Nat.zero_le _
        · omega
      · omega
  have hnext := UInt64.le_iff_toNat_le.mp hfloor
  rw [← UInt64.toNat_inj, OpolysNode.toNat_expectedDifficulty, hretarget]
  change max (max _ (computeConsensusFloor node.chain.totalIssued
    node.refiners.totalBondedStake).toNat) 1 = _
  omega

/-- The calls of a node that idles for `n` blocks. -/
def idleAll (delay : ℕ) : ℕ → OpolysNode → List Call
  | 0, _ => []
  | n + 1, node =>
    tick delay [] node :: idleAll delay n (node.step primitives (tick delay [] node))

/-- The calls of a node that puts the same transactions into each of `n` blocks. -/
def tickAll (delay : ℕ) (transactions : List Transaction) : ℕ → OpolysNode → List Call
  | 0, _ => []
  | n + 1, node => tick delay transactions node ::
    tickAll delay transactions n (node.step primitives (tick delay transactions node))

theorem tickAll_nil (delay n : ℕ) (node : OpolysNode) :
    tickAll delay [] n node = idleAll delay n node := by
  induction n generalizing node with
  | zero => rfl
  | succ n ih =>
    unfold tickAll idleAll
    rw [ih]

/-- A node that can idle on: it is paid nothing, its difficulty is above the floor, and
ranking does not change its refiners before height `last`. -/
structure Idling (delay last : ℕ) (node : OpolysNode) : Prop extends Ready delay node where
  queue : node.refiners.unbondingQueue = []
  unpaid : node.chain.baseReward.toNat < node.chain.currentDifficulty.toNat
  solvable : node.chain.currentDifficulty.toNat ≤ 256
  floor : computeConsensusFloor node.chain.totalIssued node.refiners.totalBondedStake ≤
    node.chain.currentDifficulty
  settled : ∀ height : BlockHeight, node.chain.currentHeight < height → height.toNat ≤ last →
    node.refiners.ranked height node.chain.totalIssued = node.refiners

/-- Until `last` nothing but the tip changes. -/
theorem barren_run (n : ℕ) {last : ℕ} {node : OpolysNode} (h : Idling delay last node)
    (hsmall : Small transactions) (hforeign : ∀ tx ∈ transactions, tx.chainId ≠ mainnetChainId)
    (hdelay : 45 ≤ delay ∧ delay < 2 ^ 16) (hlast : node.chain.currentHeight.toNat + n ≤ last)
    (hheight : last < 2 ^ 32) (hheld : last ≤ 960 ∨ delay = 90) :
    let node' := Transition.run (OpolysNode.step primitives) node
      (tickAll delay transactions n node)
    Transition.EveryStep (OpolysNode.step primitives)
        (fun node call => node.accepts primitives call = true) node
        (tickAll delay transactions n node) ∧
      Idling delay last node' ∧
      node'.chain.currentHeight.toNat = node.chain.currentHeight.toNat + n ∧
      node'.chain.currentDifficulty = node.chain.currentDifficulty ∧
      node'.chain.baseReward = node.chain.baseReward ∧
      node'.chain.totalIssued = node.chain.totalIssued ∧
      node'.accounts = node.accounts ∧ node'.refiners = node.refiners := by
  induction n generalizing node with
  | zero => exact ⟨trivial, h, rfl, rfl, rfl, rfl, rfl, rfl⟩
  | succ n ih =>
    have hunpaid := h.unpaid
    have hexpected : node.expectedDifficulty = node.chain.currentDifficulty :=
      expectedDifficulty_held h.toReady (by omega) (by omega) (by omega) h.solvable h.floor
    have hone : (1 : UInt64).toNat = 1 := rfl
    have hnext : (node.chain.currentHeight + 1).toNat = node.chain.currentHeight.toNat + 1 := by
      rw [MachineInt.toNat_add_of_lt (by omega), hone]
    obtain ⟨haccepts, hready, hidled⟩ := barren_step h.toReady
      ⟨by rw [hexpected]; exact hunpaid, by rw [hexpected]; exact h.solvable⟩ h.queue hsmall
      hforeign hdelay (by omega)
    have hrefiners := hidled.refiners
    rw [h.settled _ (UInt64.lt_iff_toNat_lt.mpr (by omega)) (by omega)] at hrefiners
    have hdifficulty := hidled.difficulty.trans hexpected
    have hidling : Idling delay last (node.step primitives (tick delay transactions node)) := by
      refine { hready with queue := ?_, unpaid := ?_, solvable := ?_, floor := ?_, settled := ?_ }
      · rw [hrefiners]
        exact h.queue
      · rw [hdifficulty, hidled.baseReward]
        exact hunpaid
      · rw [hdifficulty]
        exact h.solvable
      · rw [hdifficulty, hidled.issued, hrefiners]
        exact h.floor
      · intro height hlt hle
        rw [hidled.issued, hrefiners]
        refine h.settled height ?_ hle
        rw [hidled.height, UInt64.lt_iff_toNat_lt, hnext] at hlt
        exact UInt64.lt_iff_toNat_lt.mpr (by omega)
    have hmoved := hidled.height
    obtain ⟨hall, hrest, hheight', hdifficulty', hbase, hissued, haccounts, hrefiners'⟩ :=
      ih hidling (by rw [hmoved, hnext]; omega)
    refine ⟨⟨haccepts, hall⟩, hrest, ?_, hdifficulty'.trans hdifficulty,
      hbase.trans hidled.baseReward, hissued.trans hidled.issued, haccounts.trans hidled.accounts,
      hrefiners'.trans hrefiners⟩
    refine hheight'.trans ?_
    rw [hmoved, hnext]
    omega

/-- The same for a node that idles. -/
theorem idle_run (n : ℕ) {last : ℕ} {node : OpolysNode} (h : Idling delay last node)
    (hdelay : 45 ≤ delay ∧ delay < 2 ^ 16) (hlast : node.chain.currentHeight.toNat + n ≤ last)
    (hheight : last < 2 ^ 32) (hheld : last ≤ 960 ∨ delay = 90) :
    let node' := Transition.run (OpolysNode.step primitives) node (idleAll delay n node)
    Transition.EveryStep (OpolysNode.step primitives)
        (fun node call => node.accepts primitives call = true) node (idleAll delay n node) ∧
      Idling delay last node' ∧
      node'.chain.currentHeight.toNat = node.chain.currentHeight.toNat + n ∧
      node'.chain.currentDifficulty = node.chain.currentDifficulty ∧
      node'.chain.baseReward = node.chain.baseReward ∧
      node'.chain.totalIssued = node.chain.totalIssued ∧
      node'.accounts = node.accounts ∧ node'.refiners = node.refiners := by
  rw [← tickAll_nil]
  exact barren_run n h small_nil nofun hdelay hlast hheight hheld

end Reference

end Opolys
