import Opolys.Execution.Executed
import Opolys.Node.Applied
import Opolys.Node.Credits
import Opolys.Node.Produce
import Opolys.Node.Slashing

/-!
# Conservation of the supply

What was issued and not burned is what the accounts, the bond entries and the unbonding
queue hold. While a block is being applied the books are open: the reward is credited
before it is issued, and fees are collected before they are burned or paid out.
`Balanced minted collected` says so at every point between two stages, and each stage moves
the two numbers. Once the reward is credited no later step can fail with the books open,
because no sum exceeds what has been issued.
-/

namespace Opolys

open Std (ExtTreeMap ExtTreeSet)
open Effect (Ends bind_eq_ok check_eq_ok check_bind_eq_ok)
open MachineInt (saturatingAdd)

variable {P : Primitives}

namespace OpolysNode

/-- Everything the node's accounts and refiners hold. -/
def held (node : OpolysNode) : ℕ := node.accounts.balances + node.refiners.custody

/-- The books of a node in the middle of a block, where `minted` has been credited and not
yet issued, and `collected` has been taken and not yet burned or paid. -/
def Balanced (minted collected : ℕ) (node : OpolysNode) : Prop :=
  node.chain.totalIssued.toNat + minted =
    node.chain.totalBurned.toNat + node.held + collected

/-- What is issued and not burned is what is held. -/
def Conserved (node : OpolysNode) : Prop := node.Balanced 0 0

theorem conserved_iff {node : OpolysNode} :
    node.Conserved ↔ node.chain.totalIssued.toNat = node.chain.totalBurned.toNat +
      (node.accounts.balances + (node.refiners.stakes +
        queuedAmount node.refiners.unbondingQueue)) := Iff.rfl

/-- Two nodes with the same books. -/
structure SameBooks (node node' : OpolysNode) : Prop where
  accounts_eq : node'.accounts = node.accounts
  custody_eq : node'.refiners.custody = node.refiners.custody
  issued_eq : node'.chain.totalIssued = node.chain.totalIssued
  burned_eq : node'.chain.totalBurned = node.chain.totalBurned

theorem SameBooks.rfl {node : OpolysNode} : node.SameBooks node := ⟨by rfl, by rfl, by rfl, by rfl⟩

theorem SameBooks.trans {a b c : OpolysNode} (h : a.SameBooks b) (h' : b.SameBooks c) :
    a.SameBooks c :=
  ⟨h'.accounts_eq.trans h.accounts_eq, h'.custody_eq.trans h.custody_eq,
    h'.issued_eq.trans h.issued_eq, h'.burned_eq.trans h.burned_eq⟩

theorem SameBooks.balanced {node node' : OpolysNode} (h : node.SameBooks node')
    {minted collected : ℕ} (hb : node.Balanced minted collected) :
    node'.Balanced minted collected := by
  unfold Balanced held at hb ⊢
  rw [h.accounts_eq, h.custody_eq, h.issued_eq, h.burned_eq]
  exact hb

end OpolysNode

open OpolysNode (Balanced Conserved SameBooks)

/-! ## Opening a block -/

theorem processAttestation_ends (header : BlockHeader) (log : AttestationLog)
    (attestation : BlockAttestation) (node : OpolysNode) :
    Ends (processAttestation P header log attestation) node (fun _ node' => node.SameBooks node')
      (fun _ node' => node.SameBooks node') := by
  unfold processAttestation
  refine Ends.ensure_bind (fun _ => SameBooks.rfl) fun _ => ?_
  refine Ends.ensure_bind (fun _ => SameBooks.rfl) fun _ => ?_
  refine Ends.get_bind (Ends.require_bind (fun _ => SameBooks.rfl) fun store _ => ?_)
  refine Ends.require_bind (fun _ => SameBooks.rfl) fun attested _ => ?_
  refine Ends.ensure_bind (fun _ => SameBooks.rfl) fun _ => ?_
  refine Ends.get_bind (Ends.ofExcept_bind (fun _ _ => SameBooks.rfl) fun _ _ => ?_)
  refine Ends.modify_bind (Ends.get_bind (Ends.ofExcept_bind ?_ fun refiners hrec => ?_))
  · exact fun _ _ => ⟨rfl, rfl, rfl, rfl⟩
  · exact Ends.modify_bind (Ends.pure
      ⟨rfl, RefinerSet.custody_recordCorrectAttestation hrec, rfl, rfl⟩)

/-- Attestations move no value, whether the block is rejected over one of them or not. -/
theorem processAttestations_ends (block : Block) (node : OpolysNode) :
    Ends (processAttestations P block) node (fun _ node' => node.SameBooks node')
      (fun _ node' => node.SameBooks node') := by
  unfold processAttestations
  refine Ends.get_bind (Ends.bind (R := fun _ node' => node.SameBooks node')
    (Ends.foldlM SameBooks.rfl fun log node' attestation _ h => ?_) fun _ node' h => ?_)
  · exact (processAttestation_ends _ _ _ node').mono (fun _ _ h' => h.trans h')
      fun _ _ h' => h.trans h'
  · exact Ends.modify_bind (Ends.pure (h.trans ⟨rfl, rfl, rfl, rfl⟩))

/-- Slashing moves value from custody to what is burned. -/
theorem foldl_slashStep_value (evidence : List DoubleSignEvidence) {slashing : Slashing}
    (h : slashing.totalBurned.toNat + slashing.refiners.custody < 2 ^ 64) :
    (evidence.foldl (slashStep P) slashing).totalBurned.toNat +
      (evidence.foldl (slashStep P) slashing).refiners.custody =
        slashing.totalBurned.toNat + slashing.refiners.custody := by
  induction evidence generalizing slashing with
  | nil => rfl
  | cons e es ih =>
    have hone : (slashStep P slashing e).totalBurned.toNat +
        (slashStep P slashing e).refiners.custody =
          slashing.totalBurned.toNat + slashing.refiners.custody := by
      rw [slashStep_eq]
      split
      · have hslash := RefinerSet.custody_afterSlash slashing.refiners e.producer
          (by omega)
        dsimp only
        rw [MachineInt.toNat_saturatingAdd_of_lt (by omega)]
        omega
      · rfl
    rw [List.foldl_cons, ih (by rwa [hone]), hone]

theorem processSlashEvidence_ends (evidence : List DoubleSignEvidence) {node : OpolysNode}
    (h : node.Conserved) :
    Ends (processSlashEvidence P evidence) node
      (fun _ node' => node'.Conserved ∧ node'.accounts = node.accounts ∧
        node'.chain.totalIssued = node.chain.totalIssued)
      (fun _ _ => False) := by
  unfold processSlashEvidence
  refine Ends.get_bind (Ends.set_bind (Ends.pure ⟨?_, rfl, rfl⟩))
  have hlt := node.chain.totalIssued.toNat_lt
  let slashing : Slashing :=
    { refiners := node.refiners, totalBurned := node.chain.totalBurned, slashedBurned := 0,
      processed := [] }
  have hvalue : slashing.totalBurned.toNat + slashing.refiners.custody < 2 ^ 64 →
      (evidence.foldl (slashStep P) slashing).totalBurned.toNat +
        (evidence.foldl (slashStep P) slashing).refiners.custody =
          slashing.totalBurned.toNat + slashing.refiners.custody :=
    foldl_slashStep_value evidence
  unfold Conserved OpolysNode.Balanced OpolysNode.held at h ⊢
  simp only [slashing] at hvalue ⊢
  have hvalue := hvalue (by omega)
  omega

/-- A producer that can be credited is credited directly. -/
theorem creditProducer_eq {producer : ObjectId} {amount : FlakeAmount} {accounts : AccountStore}
    (hp : producer.hash.isZero = false) (ha : amount ≠ 0) :
    creditProducer producer amount accounts =
      ((accounts.canCredit producer amount).mapError fun e =>
        s!"Account {producer.toHex} cannot receive {amount} flakes: {e.toString}") >>= fun _ =>
          creditOrCreateAccount accounts producer amount := by
  have hpos : amount > 0 := by
    rw [gt_iff_lt, UInt64.lt_iff_toNat_lt, UInt64.toNat_zero]
    rw [← UInt64.toNat_inj.ne, UInt64.toNat_zero] at ha
    omega
  have hplan : addPlannedCredit ∅ producer amount =
      .ok ((∅ : PlannedCredits).insert producer amount) := by
    have hadd :
        MachineInt.checkedAdd ((∅ : PlannedCredits).getD producer 0) amount = some amount := by
      rw [Std.ExtTreeMap.getD_empty, MachineInt.checkedAdd_eq_some]
      exact (Nat.zero_add _).symm
    unfold addPlannedCredit
    rw [if_neg ha, hadd]
  unfold creditProducer ensurePlannedCreditsCreditable
  rw [if_pos ⟨hp, hpos⟩, hplan, Effect.ok_bind, FiniteMap.toList_singleton]
  simp only [List.forM_eq_forM, List.forM_cons, List.forM_nil, List.foldlM_cons, List.foldlM_nil,
    bind_pure, bind_assoc, pure_bind]

/-- A credit to a producer that is not the zero sentinel arrives. -/
theorem creditProducer_eq_ok {producer : ObjectId} {amount : FlakeAmount}
    {accounts accounts' : AccountStore}
    (h : creditProducer producer amount accounts = .ok accounts') :
    (producer.hash.isZero = false ∨ amount = 0 →
      accounts'.balances = accounts.balances + amount.toNat) ∧
        ∀ k, accounts'.nonceOf k = accounts.nonceOf k := by
  by_cases hcond : producer.hash.isZero = false ∧ amount ≠ 0
  · rw [creditProducer_eq hcond.1 hcond.2] at h
    obtain ⟨_, -, h⟩ := bind_eq_ok.mp h
    obtain ⟨hbal, hnonce⟩ := creditOrCreateAccount_eq_ok h
    exact ⟨fun _ => hbal, hnonce⟩
  · have hneg : ¬(producer.hash.isZero = false ∧ amount > 0) := by
      rintro ⟨hp, hpos⟩
      refine hcond ⟨hp, ?_⟩
      rintro rfl
      exact absurd hpos (by decide)
    unfold creditProducer at h
    rw [if_neg hneg] at h
    cases h
    refine ⟨fun hor => ?_, fun _ => rfl⟩
    rcases hor with hp | rfl
    · obtain rfl : amount = 0 := by
        by_contra hne
        exact hcond ⟨hp, hne⟩
      rfl
    · rfl

/-- While the balances leave room, every producer can be credited. -/
theorem exists_creditProducer (accounts : AccountStore) (producer : ObjectId)
    (amount : FlakeAmount) (hroom : accounts.balances + amount.toNat < 2 ^ 64) :
    ∃ accounts', creditProducer producer amount accounts = .ok accounts' := by
  by_cases hcond : producer.hash.isZero = false ∧ amount ≠ 0
  · rw [creditProducer_eq hcond.1 hcond.2, canCredit_eq_ok hroom]
    exact exists_creditOrCreateAccount accounts producer amount hroom
  · refine ⟨accounts, if_neg ?_⟩
    rintro ⟨hp, hpos⟩
    refine hcond ⟨hp, ?_⟩
    rintro rfl
    exact absurd hpos (by decide)

theorem detectDoubleSign_ends (header : BlockHeader) (node : OpolysNode) :
    Ends (detectDoubleSign P header) node (fun _ node' => node.SameBooks node')
      (fun _ _ => False) := by
  unfold detectDoubleSign
  refine Ends.get_bind ?_
  split
  · exact Ends.pure SameBooks.rfl
  · split
    · exact Ends.pure SameBooks.rfl
    · dsimp only
      split
      · split
        · exact Ends.pure SameBooks.rfl
        · exact Ends.pure SameBooks.rfl
      · exact Ends.set_bind (Ends.pure ⟨rfl, rfl, rfl, rfl⟩)

/-- The parts of a block's reward add up, and only a mined block has one. -/
theorem blockReward_adds_up {kind : BlockProductionKind} {header : BlockHeader}
    (chain : ChainState) (bondedStake : FlakeAmount)
    (hd : kind = .mined → header.difficulty.toNat ≤ 256) :
    let reward := (blockReward P kind header chain bondedStake).2
    reward.minerShare.toNat + reward.mineAssay.toNat = reward.grossReward.toNat ∧
      (kind ≠ .mined → reward.minerShare = 0) := by
  intro reward
  cases kind with
  | genesis => exact ⟨rfl, fun _ => rfl⟩
  | refined => exact ⟨rfl, fun _ => rfl⟩
  | mined =>
    refine ⟨?_, fun h => absurd rfl h⟩
    simp only [reward, blockReward]
    exact rewardDistribution_adds_up _ _ _ (hd rfl)

/-- The books once a block is open: the miner's share has been credited. -/
structure Opened (header : BlockHeader) (opening : Opening) (node : OpolysNode) : Prop where
  balanced : node.Balanced opening.reward.minerShare.toNat 0
  adds_up : opening.reward.minerShare.toNat + opening.reward.mineAssay.toNat =
    opening.reward.grossReward.toNat
  producer_ne_zero : opening.kind = .refined → header.producer.hash.isZero = false

theorem beginBlock_ends {kind : BlockProductionKind} {bondedStake : FlakeAmount} {block : Block}
    {node : OpolysNode} (hcons : node.Conserved)
    (hp : kind ≠ .genesis → block.header.producer.hash.isZero = false)
    (hd : kind = .mined → block.header.difficulty.toNat ≤ 256) :
    Ends (beginBlock P kind bondedStake block) node
      (fun opening node' => Opened block.header opening node')
      (fun _ node' => node'.Conserved) := by
  unfold beginBlock
  refine Ends.get_bind (Ends.bind ((processSlashEvidence_ends _ hcons).mono
    (fun _ _ h => h) fun _ _ h => h.elim) fun slashedBurned node' hslash => ?_)
  refine Ends.bind ((detectDoubleSign_ends _ node').mono (fun _ _ h => h) fun _ _ h => h.elim)
    fun newEvidence node'' hdetect => ?_
  have hcons'' : node''.Conserved := hdetect.balanced hslash.1
  refine Ends.get_bind ?_
  obtain ⟨hadds, hzero⟩ := blockReward_adds_up (P := P) node''.chain bondedStake hd
  generalize blockReward P kind block.header node''.chain bondedStake = parts at hadds hzero ⊢
  obtain ⟨veinYieldMilli, reward⟩ := parts
  dsimp only at hadds hzero ⊢
  refine Ends.get_bind (Ends.ofExcept_bind (fun _ _ => hcons'') fun accounts hcredit => ?_)
  refine Ends.modify_bind (Ends.pure ⟨?_, hadds, fun (hk : kind = .refined) =>
    hp (by rw [hk]; decide)⟩)
  have hbal := (creditProducer_eq_ok hcredit).1 (by
    by_cases hk : kind = .mined
    · exact Or.inl (hp (by rw [hk]; decide))
    · exact Or.inr (hzero hk))
  unfold Conserved OpolysNode.Balanced OpolysNode.held at hcons''
  unfold OpolysNode.Balanced OpolysNode.held
  dsimp only
  omega

/-- A block that is rejected before its transactions leaves the books closed. -/
theorem openBlock_ends (P : Primitives) (env : Env) (block : Block) {node : OpolysNode}
    (hcons : node.Conserved) :
    Ends (openBlock P env block) node
      (fun opening node' => Opened block.header opening node')
      (fun _ node' => node'.Conserved) := by
  unfold openBlock
  refine Ends.get_bind (Ends.get_bind (Ends.ofExcept_bind (fun _ _ => hcons) fun kind hkind => ?_))
  obtain ⟨-, hp, hproof⟩ := checkBlock_eq_ok hkind
  refine Ends.bind ((processAttestations_ends block node).mono (fun _ _ h => h.balanced hcons)
    fun _ _ h => h.balanced hcons) fun _ node' hcons' => ?_
  refine Ends.get_bind (Ends.ofExcept_bind (fun _ _ => hcons') fun _ _ => ?_)
  exact beginBlock_ends hcons' hp fun hk => difficulty_le_of_verifyPowLight (hproof hk)

/-! ## Transactions -/

theorem TxTally.record_eq_ok {tally tally' : TxTally} {result : ApplyResult} {fee : FlakeAmount}
    (h : tally.record result fee = .ok tally') :
    tally'.totalTransactionFees.toNat =
        tally.totalTransactionFees.toNat + result.feeCharged.toNat ∧
      tally'.totalAssayBurned.toNat = tally.totalAssayBurned.toNat + result.assayBurned.toNat ∧
      tally'.totalFeeSignal.toNat = tally.totalFeeSignal.toNat + fee.toNat ∧
      tally'.successfulTransactionCount.toNat = tally.successfulTransactionCount.toNat + 1 := by
  unfold TxTally.record at h
  split at h <;> try cases h
  rename_i fees hfees
  split at h <;> try cases h
  rename_i assay hassay
  split at h <;> try cases h
  rename_i signal hsignal
  split at h <;> cases h
  rename_i count hcount
  rw [MachineInt.checkedAdd_eq_some] at hfees hassay hsignal hcount
  exact ⟨hfees, hassay, hsignal, hcount⟩

theorem TxTally.exists_record (tally : TxTally) (result : ApplyResult) (fee : FlakeAmount)
    (hfees : tally.totalTransactionFees.toNat + result.feeCharged.toNat < 2 ^ 64)
    (hassay : tally.totalAssayBurned.toNat + result.assayBurned.toNat < 2 ^ 64)
    (hsignal : tally.totalFeeSignal.toNat + fee.toNat < 2 ^ 64)
    (hcount : tally.successfulTransactionCount.toNat + 1 < 2 ^ 64) :
    ∃ tally', tally.record result fee = .ok tally' := by
  unfold TxTally.record
  rw [MachineInt.checkedAdd_of_lt hfees, MachineInt.checkedAdd_of_lt hassay,
    MachineInt.checkedAdd_of_lt hsignal, MachineInt.checkedAdd_of_lt hcount]
  exact ⟨_, rfl⟩

/-- The books while transactions are executed: what they paid has been collected, the fee
signal is the sum of the fees, and every one of them paid at least one Flake. -/
structure Executing (chain : ChainState) (minted : ℕ) (tally : TxTally) (node : OpolysNode) :
    Prop where
  chain_eq : node.chain = chain
  balanced : node.Balanced minted
    (tally.totalTransactionFees.toNat + tally.totalAssayBurned.toNat)
  signal_eq : tally.totalFeeSignal.toNat = tally.totalTransactionFees.toNat
  count_le : tally.successfulTransactionCount.toNat ≤ tally.totalTransactionFees.toNat

theorem executeTransaction_ends {header : BlockHeader} {chain : ChainState} {minted : ℕ}
    {tally : TxTally} {node : OpolysNode} (tx : Transaction)
    (hroom : chain.totalIssued.toNat + minted < 2 ^ 64) (h : Executing chain minted tally node) :
    Ends (executeTransaction P header tally tx) node (Executing chain minted)
      (fun _ _ => False) := by
  unfold executeTransaction
  refine Ends.get_bind ?_
  have hcases := TransactionDispatcher.applyTransaction_cases P tx
    (executionContext header node.chain) mainnetChainId node.ledger
  generalize TransactionDispatcher.applyTransaction P tx
    (executionContext header node.chain) mainnetChainId node.ledger = out at hcases ⊢
  obtain ⟨result, ledger⟩ := out
  dsimp only at hcases ⊢
  refine Ends.modify_bind ?_
  unfold TxTally.count
  obtain ⟨hchain, hbal, hsignal, hcount⟩ := h
  unfold OpolysNode.Balanced OpolysNode.held at hbal
  rw [hchain] at hbal
  rcases hcases with ⟨hsuccess, hexec⟩ | ⟨hfail, rfl⟩
  · have hfee : result.feeCharged.toNat = tx.fee.toNat := congrArg UInt64.toNat hexec.fee_eq
    have hheld := hexec.held_eq
    have hmin := hexec.minFee_le
    unfold Ledger.held OpolysNode.ledger at hheld
    rw [toNat_minFee] at hmin
    dsimp only at hheld
    rw [if_pos hsuccess]
    obtain ⟨tally', hrecord⟩ := TxTally.exists_record tally result tx.fee (by omega) (by omega)
      (by omega) (by omega)
    obtain ⟨hfees', hassay', hsignal', hcount'⟩ := TxTally.record_eq_ok hrecord
    refine Ends.ofExcept_ok hrecord (Ends.modify_bind (Ends.pure ?_))
    refine Executing.mk hchain ?_ (by omega) (by omega)
    unfold OpolysNode.Balanced OpolysNode.held OpolysNode.setLedger
    dsimp only
    rw [hchain]
    omega
  · rw [if_neg (by rw [hfail]; decide)]
    refine Ends.ofExcept_ok rfl (Ends.modify_bind (Ends.pure ?_))
    refine Executing.mk hchain ?_ hsignal hcount
    unfold OpolysNode.Balanced OpolysNode.held OpolysNode.setLedger OpolysNode.ledger
    dsimp only
    rw [hchain]
    exact hbal

/-- While the supply leaves room the transactions of a block cannot fail it. -/
theorem executeTransactions_ends {block : Block} {minted : ℕ} {node : OpolysNode}
    (hroom : node.chain.totalIssued.toNat + minted < 2 ^ 64) (h : node.Balanced minted 0) :
    Ends (executeTransactions P block) node (Executing node.chain minted) (fun _ _ => False) := by
  unfold executeTransactions
  refine Ends.foldlM ⟨rfl, h, rfl, le_rfl⟩ fun tally node' tx _ h' => ?_
  exact executeTransaction_ends tx hroom h'

/-! ## Closing a block -/

/-- The burned part of the fees and the part paid to a refiner make up the fees. -/
theorem routeFees_adds_up (opening : Opening) (fees : FlakeAmount) :
    (routeFees opening fees).ordinaryFeesBurned.toNat +
      (if opening.kind = .refined then (routeFees opening fees).refinerFeeIncome else 0).toNat =
        fees.toNat := by
  unfold routeFees
  split
  · generalize opening.porFeeMarket.getD (0, 0) = market
    exact porFeeSplit_adds_up fees market.1 market.2
  · exact Nat.add_zero _

theorem burn_ends {amount : FlakeAmount} {message : String} (minted rest : ℕ) {node : OpolysNode}
    (hroom : node.chain.totalIssued.toNat + minted < 2 ^ 64)
    (h : node.Balanced minted (amount.toNat + rest)) :
    Ends (burn amount message) node
      (fun _ node' => node'.Balanced minted rest ∧
        node'.chain.totalIssued = node.chain.totalIssued)
      (fun _ _ => False) := by
  unfold OpolysNode.Balanced OpolysNode.held at h
  have hlt : node.chain.totalBurned.toNat + amount.toNat < 2 ^ 64 := by omega
  unfold burn
  refine Ends.get_bind (Ends.require_some (MachineInt.checkedAdd_of_lt hlt) ?_)
  refine Ends.modify_bind (Ends.pure ⟨?_, rfl⟩)
  unfold OpolysNode.Balanced OpolysNode.held
  dsimp only
  rw [MachineInt.toNat_add_of_lt hlt]
  omega

theorem sameBooks_evictAtEpochEnd (env : Env) (header : BlockHeader) (node : OpolysNode) :
    node.SameBooks (evictAtEpochEnd env header node) := by
  unfold evictAtEpochEnd
  split
  · exact ⟨rfl, rfl, rfl, rfl⟩
  · exact SameBooks.rfl

theorem settleFees_ends {env : Env} {header : BlockHeader} {opening : Opening} {tally : TxTally}
    {minted : ℕ} {node : OpolysNode} (hroom : node.chain.totalIssued.toNat + minted < 2 ^ 64)
    (hp : opening.kind = .refined → header.producer.hash.isZero = false)
    (h : node.Balanced minted
      (tally.totalTransactionFees.toNat + tally.totalAssayBurned.toNat)) :
    Ends (settleFees env header opening tally (routeFees opening tally.totalTransactionFees)) node
      (fun _ node' => node'.Balanced minted 0 ∧
        node'.chain.totalIssued = node.chain.totalIssued)
      (fun _ _ => False) := by
  have hadds := routeFees_adds_up opening tally.totalTransactionFees
  generalize routeFees opening tally.totalTransactionFees = routing at hadds ⊢
  unfold settleFees
  dsimp only
  have hzero : header.producer.hash.isZero = false ∨
      (if opening.kind = .refined then routing.refinerFeeIncome else 0) = 0 := by
    by_cases hk : opening.kind = .refined
    · exact Or.inl (hp hk)
    · exact Or.inr (if_neg hk)
  generalize (if opening.kind = .refined then routing.refinerFeeIncome else 0) = income
    at hadds hzero ⊢
  refine Ends.modify_bind (Ends.get_bind ?_)
  have hevict := sameBooks_evictAtEpochEnd env header node
  generalize evictAtEpochEnd env header node = node' at hevict ⊢
  have h' := hevict.balanced h
  have hissued := hevict.issued_eq
  have hbooks := h'
  unfold OpolysNode.Balanced OpolysNode.held at hbooks
  rw [hissued] at hbooks
  obtain ⟨accounts, hcredit⟩ := exists_creditProducer node'.accounts header.producer income
    (by omega)
  have hbal := (creditProducer_eq_ok hcredit).1 hzero
  refine Ends.ofExcept_ok hcredit (Ends.modify_bind ?_)
  refine Ends.bind ((burn_ends minted tally.totalAssayBurned.toNat ?_ ?_).mono
    (fun _ _ h => h) fun _ _ h => h.elim) fun _ node'' hburn => ?_
  · exact hissued ▸ hroom
  · unfold OpolysNode.Balanced OpolysNode.held
    dsimp only
    rw [hissued]
    omega
  · have hissued'' : node''.chain.totalIssued = node.chain.totalIssued := hburn.2.trans hissued
    refine (burn_ends minted 0 (hissued''.symm ▸ hroom) hburn.1).mono ?_
      fun _ _ h => h
    exact fun _ _ h => ⟨h.1, h.2.trans hissued''⟩

/-- Issuing the reward and burning its assay closes the books. -/
theorem updateChain_ends {header : BlockHeader} {opening : Opening} {tally : TxTally}
    {blockHash : Hash} {node : OpolysNode}
    (hroom : node.chain.totalIssued.toNat + opening.reward.grossReward.toNat < 2 ^ 64)
    (hadds : opening.reward.minerShare.toNat + opening.reward.mineAssay.toNat =
      opening.reward.grossReward.toNat)
    (h : node.Balanced opening.reward.minerShare.toNat 0) :
    Ends (updateChain header opening tally blockHash) node (fun _ node' => node'.Conserved)
      (fun _ _ => False) := by
  unfold updateChain
  refine Ends.get_bind (Ends.modify_bind ?_)
  have hissue := MachineInt.toNat_saturatingAdd_of_lt hroom
  refine Ends.bind ((burn_ends 0 0 ?_ ?_).mono (fun _ _ h => h)
    fun _ _ h => h.elim) fun _ node' hburn => ?_
  · exact (saturatingAdd node.chain.totalIssued opening.reward.grossReward).toNat_lt
  · unfold OpolysNode.Balanced OpolysNode.held at h ⊢
    unfold issue
    dsimp only
    omega
  · exact Ends.modify_bind (Ends.pure hburn.1)

/-- Paying out what has been drained closes the books, and no payment fails. -/
theorem foldlM_creditOrCreateAccount_ends (drained : List (ObjectId × FlakeAmount))
    {node : OpolysNode}
    (h : node.Balanced 0 (drained.map fun entry => entry.2.toNat).sum) :
    Ends (drained.foldlM (fun _ entry => do
      let accounts ← Effect.ofExcept id
        (creditOrCreateAccount (← get).accounts entry.1 entry.2)
      modify fun node => { node with accounts }) () : NodeM Unit) node
      (fun _ node' => node'.Conserved) (fun _ _ => False) := by
  induction drained generalizing node with
  | nil => exact Ends.pure h
  | cons entry drained ih =>
    have hlt := node.chain.totalIssued.toNat_lt
    have hbooks := h
    unfold OpolysNode.Balanced OpolysNode.held at hbooks
    rw [List.map_cons, List.sum_cons] at hbooks
    obtain ⟨accounts, hcredit⟩ := exists_creditOrCreateAccount node.accounts entry.1 entry.2
      (by omega)
    have hbal := (creditOrCreateAccount_eq_ok hcredit).1
    rw [List.foldlM_cons]
    refine Ends.bind (R := fun _ node' => node' = { node with accounts }) ?_ ?_
    · exact Ends.get_bind (Ends.ofExcept_ok hcredit (Ends.modify_bind (Ends.pure rfl)))
    · rintro ⟨⟩ _ rfl
      refine ih ?_
      unfold OpolysNode.Balanced OpolysNode.held
      dsimp only
      omega

theorem payMaturedUnbonds_ends {node : OpolysNode} (h : node.Conserved) :
    Ends payMaturedUnbonds node (fun _ node' => node'.Conserved)
      (fun _ node' => node'.Conserved) := by
  unfold payMaturedUnbonds
  refine Ends.get_bind (Ends.get_bind (Ends.ofExcept_bind (fun _ _ => h) fun planned _ => ?_))
  refine Ends.get_bind (Ends.ofExcept_bind (fun _ _ => h) fun _ _ => ?_)
  refine Ends.get_bind ?_
  have hlt := node.chain.totalIssued.toNat_lt
  unfold Conserved OpolysNode.Balanced OpolysNode.held at h
  have hcustody := RefinerSet.custody_processMaturedUnbonds node.refiners
    node.chain.currentHeight (by omega)
  generalize node.refiners.processMaturedUnbonds node.chain.currentHeight = out at hcustody ⊢
  obtain ⟨refiners, drained⟩ := out
  refine Ends.modify_bind ((foldlM_creditOrCreateAccount_ends drained ?_).mono (fun _ _ h => h)
    fun _ _ h => h.elim)
  unfold OpolysNode.Balanced OpolysNode.held
  dsimp only at hcustody ⊢
  omega

theorem sameBooks_rankRefiners (node : OpolysNode) : node.SameBooks (rankRefiners node) := by
  unfold rankRefiners
  dsimp only
  split
  · refine ⟨rfl, ?_, rfl, rfl⟩
    exact (RefinerSet.custody_rerankRefiners _ _).trans
      (RefinerSet.custody_activateMaturedRefiners _ _)
  · exact ⟨rfl, RefinerSet.custody_activateMaturedRefiners _ _, rfl, rfl⟩

theorem sameBooks_persist (env : Env) (block : Block) (receipt : BlockEconomicReceipt)
    (node : OpolysNode) : node.SameBooks (persist P env block receipt node) := by
  unfold persist
  split
  · exact SameBooks.rfl
  · split
    · exact ⟨rfl, rfl, rfl, rfl⟩
    · exact SameBooks.rfl

theorem closeBlock_ends {env : Env} {block : Block} {opening : Opening} {tally : TxTally}
    {chain : ChainState} {node : OpolysNode}
    (hroom : chain.totalIssued.toNat + opening.reward.grossReward.toNat < 2 ^ 64)
    (hadds : opening.reward.minerShare.toNat + opening.reward.mineAssay.toNat =
      opening.reward.grossReward.toNat)
    (hp : opening.kind = .refined → block.header.producer.hash.isZero = false)
    (h : Executing chain opening.reward.minerShare.toNat tally node) :
    Ends (closeBlock P env block opening tally) node (fun _ node' => node'.Conserved)
      (fun _ node' => node'.Conserved) := by
  obtain ⟨rfl, hbal, -, -⟩ := h
  unfold closeBlock
  dsimp only
  refine Ends.bind ((settleFees_ends (by omega) hp hbal).mono (fun _ _ h => h)
    fun _ _ h => h.elim) fun _ node1 h1 => ?_
  refine Ends.bind ((updateChain_ends (h1.2.symm ▸ hroom) hadds h1.1).mono (fun _ _ h => h)
    fun _ _ h => h.elim) fun _ node2 h2 => ?_
  refine Ends.bind (payMaturedUnbonds_ends h2) fun _ node3 h3 => ?_
  have h4 := (sameBooks_rankRefiners node3).balanced h3
  refine Ends.modify_bind (Ends.get_bind (Ends.ofExcept_bind (fun _ _ => h4) fun stateRoot _ => ?_))
  refine Ends.modify_bind (Ends.modify_bind (Ends.modify_bind (Ends.pure ?_)))
  have h5 (receipt : BlockEconomicReceipt) :
      (recordBlock stateRoot receipt (rankRefiners node3)).Conserved := h4
  exact (sameBooks_persist env block _ _).balanced (h5 _)

/-! ## Runs -/

/-- The supply has room for the reward of a call: if the call gets to crediting it, the sum
of all issued rewards stays below `2 ^ 64`. -/
def SupplyRoom (P : Primitives) (node : OpolysNode) (call : Call) : Prop :=
  ∀ opening node', openBlock P call.env call.block node = .ok opening node' →
    node'.chain.totalIssued.toNat + opening.reward.grossReward.toNat < 2 ^ 64

instance (node : OpolysNode) (call : Call) : Decidable (SupplyRoom P node call) :=
  match h : openBlock P call.env call.block node with
  | .ok opening node' =>
    decidable_of_iff (node'.chain.totalIssued.toNat + opening.reward.grossReward.toNat < 2 ^ 64)
      ⟨fun hlt _ _ he => by rw [h] at he; cases he; exact hlt, fun hall => hall opening node' h⟩
  | .error _ _ => isTrue fun _ _ he => by rw [h] at he; cases he

/-- However a call ends, it closes the books. -/
theorem conserved_step {node : OpolysNode} {call : Call} (h : node.Conserved)
    (hroom : SupplyRoom P node call) : (node.step P call).Conserved := by
  refine OpolysNode.step_of_ends Conserved ?_
  unfold applyBlock
  have hopen := openBlock_ends P call.env call.block h
  refine Ends.bind (R := fun opening node' => Opened call.block.header opening node' ∧
    node'.chain.totalIssued.toNat + opening.reward.grossReward.toNat < 2 ^ 64) ?_ ?_
  · unfold Ends at hopen ⊢
    cases hrun : openBlock P call.env call.block node with
    | ok opening node' =>
      rw [hrun] at hopen
      exact ⟨hopen, hroom opening node' hrun⟩
    | error message node' =>
      rw [hrun] at hopen
      exact hopen
  · rintro opening node' ⟨hopened, hlt⟩
    have hadds := hopened.adds_up
    refine Ends.bind ((executeTransactions_ends (by omega) hopened.balanced).mono
      (fun _ _ h => h) fun _ _ h => h.elim) fun tally node'' hexec => ?_
    exact closeBlock_ends hlt hadds hopened.producer_ne_zero hexec

/-- A genesis account adds its amount to the balances and to what is issued, and no nonce
moves. -/
theorem applyGenesisAccount_eq_ok {state state' : AccountStore × FlakeAmount}
    {entry : ObjectId × FlakeAmount × List UInt8}
    (h : applyGenesisAccount state entry = .ok state') :
    state'.1.balances = state.1.balances + entry.2.1.toNat ∧
      state'.2.toNat = state.2.toNat + entry.2.1.toNat ∧
        ∀ k, state'.1.nonceOf k = state.1.nonceOf k := by
  obtain ⟨accountId, amount, pk⟩ := entry
  unfold applyGenesisAccount at h
  dsimp only at h
  have hget : (state.1.withAccount accountId).get? accountId =
      some ((state.1.get? accountId).getD (Account.new accountId)) := by
    rw [AccountStore.get?_withAccount, if_pos rfl]
  generalize (state.1.get? accountId).getD (Account.new accountId) = account at hget
  rw [Registry.update_of_some hget] at h
  have hid : account.objectId = accountId := Registry.name_of_get? hget
  have hkeyed : (withGenesisKey pk account).objectId = accountId ∧
      (withGenesisKey pk account).balance = account.balance ∧
      (withGenesisKey pk account).nonce = account.nonce := by
    unfold withGenesisKey
    split <;> exact ⟨hid, rfl, rfl⟩
  obtain ⟨accounts, hcredit, h⟩ := bind_eq_ok.mp h
  rw [mapError_eq_ok] at hcredit
  have hbal := AccountStore.balances_credit hcredit
  have hput := AccountStore.balances_put hget hkeyed.1
  rw [AccountStore.balances_withAccount, hkeyed.2.1] at hput
  split at h
  · rename_i totalIssued hsum
    cases h
    refine ⟨?_, MachineInt.checkedAdd_eq_some.mp hsum, fun k => ?_⟩
    · dsimp only
      omega
    · rw [AccountStore.nonceOf_credit hcredit, AccountStore.nonceOf_put_of_eq hget hkeyed.1
        hkeyed.2.2, AccountStore.nonceOf_withAccount]
  · cases h

/-- At genesis the balances are what was issued, and no account has sent anything. -/
theorem applyGenesisAccounts_eq_ok {config : GenesisConfig} {accounts : AccountStore}
    {issued : FlakeAmount}
    (h : applyGenesisAccounts config AccountStore.new = .ok (accounts, issued)) :
    accounts.balances = issued.toNat ∧ ∀ k, accounts.nonceOf k = 0 := by
  unfold applyGenesisAccounts at h
  refine Effect.foldlM_ok_invariant
    (I := fun state => state.1.balances = state.2.toNat ∧ ∀ k, state.1.nonceOf k = 0) ?_ ?_ h
  · exact ⟨AccountStore.balances_new, AccountStore.nonceOf_new⟩
  · rintro state entry state' ⟨hbal, hnonce⟩ hstep
    obtain ⟨hbal', hissued', hnonce'⟩ := applyGenesisAccount_eq_ok hstep
    exact ⟨by omega, fun k => (hnonce' k).trans (hnonce k)⟩

/-- The state a chain starts in has closed books and no nonces. -/
theorem genesisState_eq_ok {config : GenesisConfig} {chain : ChainState}
    {accounts : AccountStore} {refiners : RefinerSet}
    (h : OpolysNode.genesisState P config = .ok (chain, accounts, refiners)) :
    chain.totalIssued.toNat = accounts.balances ∧ chain.totalBurned = 0 ∧
      (∀ k, accounts.nonceOf k = 0) ∧ refiners = RefinerSet.new := by
  unfold OpolysNode.genesisState at h
  obtain ⟨chain', hchain, h⟩ := bind_eq_ok.mp h
  obtain ⟨⟨accounts', issued⟩, haccounts, h⟩ := bind_eq_ok.mp h
  rw [mapError_eq_ok] at haccounts
  obtain ⟨hbal, hnonce⟩ := applyGenesisAccounts_eq_ok haccounts
  unfold ChainState.new at hchain
  split at hchain <;> cases hchain
  cases h
  refine ⟨?_, rfl, hnonce, rfl⟩
  dsimp only
  have hissued : (0 : FlakeAmount).toNat + issued.toNat < 2 ^ 64 :=
    (Nat.zero_add _).symm ▸ issued.toNat_lt
  rw [MachineInt.toNat_saturatingAdd_of_lt hissued]
  exact (Nat.zero_add _).trans hbal.symm

/-- A node at genesis has closed books. -/
theorem conserved_start {config : GenesisConfig} {chain : ChainState} {accounts : AccountStore}
    {refiners : RefinerSet} {node : OpolysNode}
    (hgenesis : OpolysNode.genesisState P config = .ok (chain, accounts, refiners))
    (hchain : node.chain = chain) (haccounts : node.accounts = accounts)
    (hrefiners : node.refiners = refiners) : node.Conserved := by
  obtain ⟨hissued, hburned, -, hnew⟩ := genesisState_eq_ok hgenesis
  rw [OpolysNode.conserved_iff, hchain, haccounts, hrefiners, hissued, hburned, hnew]
  simp [RefinerSet.new, RefinerSet.stakes, queuedAmount]

/-- The supply is conserved over whole runs: in a chain that starts at genesis, after any
calls with any blocks, accepted or rejected, what was issued is what was burned, what the
accounts hold, what is bonded and what is being withdrawn. -/
theorem supply_conserved {config : GenesisConfig} {chain : ChainState} {accounts : AccountStore}
    {refiners : RefinerSet} {node : OpolysNode} {calls : List Call}
    (hgenesis : OpolysNode.genesisState P config = .ok (chain, accounts, refiners))
    (hchain : node.chain = chain) (haccounts : node.accounts = accounts)
    (hrefiners : node.refiners = refiners)
    (hroom : Transition.EveryStep (OpolysNode.step P) (SupplyRoom P) node calls) :
    let node' := Transition.run (OpolysNode.step P) node calls
    node'.chain.totalIssued.toNat = node'.chain.totalBurned.toNat +
      (node'.accounts.balances + (node'.refiners.stakes +
        queuedAmount node'.refiners.unbondingQueue)) := by
  intro node'
  have h0 := conserved_start hgenesis hchain haccounts hrefiners
  exact OpolysNode.conserved_iff.mp
    (Transition.invariant_run (fun _ _ => conserved_step) h0 hroom)

/-- The books of a chain whose first block pays a reward, a transfer and a bond. -/
theorem supply_conserved_of_reference :
    let node := Reference.start (Reference.config [(1, 1000000000)]) none
    let miner := Reference.start (Reference.config [(1, 1000000000)]) (some 1)
    let transactions := Reference.signed 1 (.transfer (Reference.account 2) 5000) 10 0 ++
      Reference.signed 1 (.refinerBond 32000000) 10 1
    let node' := Transition.run (OpolysNode.step Reference.primitives) node
      [Reference.call (Reference.mine miner 0 { transactions })]
    node'.chain.totalIssued.toNat = node'.chain.totalBurned.toNat +
      (node'.accounts.balances + (node'.refiners.stakes +
        queuedAmount node'.refiners.unbondingQueue)) := by
  intro node miner transactions node'
  have hgenesis := OpolysNode.new_fresh_keyless (Reference.new_start
    (Reference.config [(1, 1000000000)]) none (by decide +kernel))
  exact supply_conserved hgenesis rfl rfl rfl (by decide +kernel)

end Opolys
