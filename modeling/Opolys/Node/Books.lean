import Opolys.Node.Idle

/-!
# The books

The node counts what is issued and burned twice: in the totals of the chain, which move in
five places of `applyBlock`, and in the mint ledger, which adds up the receipts. While the
issued supply is a word, both agree after every accepted block, and the receipt of the
block is the difference between the totals before and after it.
-/

namespace Opolys

open Effect
open MachineInt (saturatingAdd)

variable {P : Primitives}

/-- The totals of the chain are those of the mint ledger. -/
structure ChainState.Reconciled (chain : ChainState) : Prop where
  issued : chain.totalIssued.toNat = chain.mintLedger.totalGenesisIssued.toNat +
    chain.mintLedger.totalMinedGrossReward.toNat
  burned : chain.totalBurned.toNat = chain.mintLedger.totalMineAssayBurned.toNat +
    chain.mintLedger.totalOrdinaryFeesBurned.toNat +
    chain.mintLedger.totalBondUnbondAssayBurned.toNat +
    chain.mintLedger.totalSlashedStakeBurned.toNat

/-- A receipt adds up, and it is the difference between two states of the chain. -/
structure BlockEconomicReceipt.AccountsFor (receipt : BlockEconomicReceipt)
    (before after : ChainState) : Prop where
  burned : before.totalBurned.toNat + receipt.totalBurned.toNat = after.totalBurned.toNat
  legs : receipt.totalBurned.toNat = receipt.mineAssayBurned.toNat +
    receipt.ordinaryFeesBurned.toNat + receipt.bondUnbondAssayBurned.toNat +
    receipt.slashedBurned.toNat
  issued : before.totalIssued.toNat + receipt.grossReward.toNat = after.totalIssued.toNat
  reward : receipt.grossReward.toNat =
    receipt.mineAssayBurned.toNat + receipt.minerCredit.toNat
  fees : receipt.ordinaryFees.toNat =
    receipt.ordinaryFeesBurned.toNat + receipt.refinerFeeIncome.toNat

/-! ## Recording -/

namespace MintLedgerTotals

theorem recordReceipt_genesis (t : MintLedgerTotals) (r : BlockEconomicReceipt) :
    (t.recordReceipt r).totalGenesisIssued = t.totalGenesisIssued := by
  unfold recordReceipt
  cases r.productionKind <;> rfl

/-- The gross reward is added for a mined block, and other blocks have none. -/
theorem recordReceipt_gross (t : MintLedgerTotals) {r : BlockEconomicReceipt}
    (h : r.productionKind ≠ .mined → r.grossReward = 0) :
    (t.recordReceipt r).totalMinedGrossReward =
      saturatingAdd t.totalMinedGrossReward r.grossReward := by
  unfold recordReceipt
  cases hkind : r.productionKind with
  | mined => rfl
  | genesis =>
    rw [h (by rw [hkind]; decide), MachineInt.saturatingAdd_zero]
  | refined =>
    rw [h (by rw [hkind]; decide), MachineInt.saturatingAdd_zero]

theorem recordReceipt_burned (t : MintLedgerTotals) (r : BlockEconomicReceipt) :
    (t.recordReceipt r).totalMineAssayBurned =
        saturatingAdd t.totalMineAssayBurned r.mineAssayBurned ∧
      (t.recordReceipt r).totalOrdinaryFeesBurned =
        saturatingAdd t.totalOrdinaryFeesBurned r.ordinaryFeesBurned ∧
      (t.recordReceipt r).totalBondUnbondAssayBurned =
        saturatingAdd t.totalBondUnbondAssayBurned r.bondUnbondAssayBurned ∧
      (t.recordReceipt r).totalSlashedStakeBurned =
        saturatingAdd t.totalSlashedStakeBurned r.slashedBurned := by
  unfold recordReceipt
  cases r.productionKind <;> exact ⟨rfl, rfl, rfl, rfl⟩

end MintLedgerTotals

/-! ## Slashing -/

/-- What the evidence adds to the burned total is what the block reports as slashed. -/
theorem foldl_slashStep_slashed (evidence : List DoubleSignEvidence) {slashing : Slashing}
    {before : ℕ} (h : slashing.totalBurned.toNat + slashing.refiners.custody < 2 ^ 64)
    (heq : slashing.totalBurned.toNat = before + slashing.slashedBurned.toNat) :
    (evidence.foldl (slashStep P) slashing).totalBurned.toNat =
      before + (evidence.foldl (slashStep P) slashing).slashedBurned.toNat := by
  induction evidence generalizing slashing with
  | nil => exact heq
  | cons item evidence ih =>
    have hvalue := foldl_slashStep_value (P := P) [item] h
    rw [List.foldl_cons, List.foldl_nil] at hvalue
    rw [List.foldl_cons]
    refine ih (by omega) ?_
    rw [slashStep_eq]
    split
    · have hslash := RefinerSet.custody_afterSlash slashing.refiners item.producer (by omega)
      dsimp only
      rw [MachineInt.toNat_saturatingAdd_of_lt (by omega),
        MachineInt.toNat_saturatingAdd_of_lt (by omega)]
      omega
    · exact heq

/-! ## One block -/

/-- Only a mined block has a reward. -/
theorem grossReward_eq_zero {kind : BlockProductionKind} (h : kind ≠ .mined) (header : BlockHeader)
    (chain : ChainState) (bondedStake : FlakeAmount) :
    (blockReward P kind header chain bondedStake).2.grossReward = 0 := by
  cases kind with
  | genesis => rfl
  | refined => rfl
  | mined => exact absurd rfl h

/-- The burned and the paid part of the fees of any block make up its fees. -/
theorem routeFees_income_adds_up (opening : Opening) (fees : FlakeAmount) :
    (routeFees opening fees).ordinaryFeesBurned.toNat +
      (routeFees opening fees).refinerFeeIncome.toNat = fees.toNat := by
  have hadds := routeFees_adds_up opening fees
  split at hadds
  · exact hadds
  · rename_i hkind
    unfold routeFees
    rw [if_neg hkind]
    exact Nat.add_zero _

namespace Accepted

variable {env : Env} {block : Block} {node node' : OpolysNode} {st : Stages}

theorem totalBurned_slashing (h : Accepted P env block node node' st) (hcons : node.Conserved) :
    st.slashing.totalBurned.toNat =
      node.chain.totalBurned.toNat + st.opening.slashedBurned.toNat := by
  have hfinalized := ((processAttestations_ends (P := P) block node).ok h.attest_run).balanced hcons
  have hburned : st.finalized.chain.totalBurned = node.chain.totalBurned := by
    rw [h.finalized_frame]
  have hlt := st.finalized.chain.totalIssued.toNat_lt
  unfold OpolysNode.Balanced OpolysNode.held at hfinalized
  rw [hburned] at hfinalized
  have hinitial : (initialSlashing st.finalized).totalBurned.toNat =
      node.chain.totalBurned.toNat + (initialSlashing st.finalized).slashedBurned.toNat := by
    change st.finalized.chain.totalBurned.toNat = _ + 0
    rw [hburned]
    rfl
  rw [h.slashed_eq, h.slashing_eq]
  refine foldl_slashStep_slashed block.slashEvidence ?_ hinitial
  change st.finalized.chain.totalBurned.toNat + st.finalized.refiners.custody < 2 ^ 64
  rw [hburned]
  omega

/-- The receipt of a block accounts for what it did to the totals. -/
theorem accountsFor (h : Accepted P env block node node' st) (hcons : node.Conserved)
    (hroom : SupplyRoom P node ⟨env, block⟩) :
    (st.receipt P block.header).AccountsFor node.chain node'.chain := by
  have hopened : st.opened.chain.totalIssued = node.chain.totalIssued := by
    rw [h.opened_eq, h.finalized_frame]
  have hlt := hroom st.opening st.opened h.opening_run
  rw [hopened] at hlt
  have hexecuted : st.executed.chain.totalBurned = st.slashing.totalBurned := by
    rw [h.executed_eq, h.opened_eq]
  have hburned := h.settled_burned
  rw [hexecuted, h.totalBurned_slashing hcons] at hburned
  unfold burnedAtClose at hburned
  have hword := st.settled.chain.totalBurned.toNat_lt
  have hfees := routeFees_adds_up st.opening st.tally.totalTransactionFees
  have hlegs : (st.receipt P block.header).totalBurned.toNat =
      st.opening.reward.mineAssay.toNat + (routeFees st.opening
        st.tally.totalTransactionFees).ordinaryFeesBurned.toNat +
      st.tally.totalAssayBurned.toNat + st.opening.slashedBurned.toNat := by
    unfold Stages.receipt economicReceipt
    dsimp only
    rw [MachineInt.toNat_saturatingAdd, MachineInt.toNat_saturatingAdd,
      MachineInt.toNat_saturatingAdd]
    omega
  refine ⟨?_, hlegs, ?_, ?_, ?_⟩
  · rw [h.chain_eq, hlegs]
    dsimp only
    omega
  · rw [h.chain_eq]
    exact (MachineInt.toNat_saturatingAdd_of_lt hlt).symm
  · have hadds := ((openBlock_ends P env block hcons).ok h.opening_run).adds_up
    exact hadds.symm.trans (Nat.add_comm _ _)
  · exact (routeFees_income_adds_up st.opening st.tally.totalTransactionFees).symm

/-- The receipt keeps the ledger in step with the totals. -/
theorem reconciled (h : Accepted P env block node node' st) (hcons : node.Conserved)
    (hroom : SupplyRoom P node ⟨env, block⟩) (hbooks : node.chain.Reconciled) :
    node'.chain.Reconciled := by
  have hreceipt := h.accountsFor hcons hroom
  have hledger : node'.chain.mintLedger =
      node.chain.mintLedger.recordReceipt (st.receipt P block.header) := by
    rw [h.chain_eq]
  have hzero : (st.receipt P block.header).productionKind ≠ .mined →
      (st.receipt P block.header).grossReward = 0 := by
    intro hkind
    change st.opening.kind ≠ .mined at hkind
    change st.opening.reward.grossReward = 0
    rw [h.opening_kind] at hkind
    rw [h.reward_eq, grossReward_eq_zero hkind]
  obtain ⟨hburned, hlegs, hissued, -, -⟩ := hreceipt
  have hissuedWord := node'.chain.totalIssued.toNat_lt
  have hburnedWord := node'.chain.totalBurned.toNat_lt
  have hbooksIssued := hbooks.issued
  have hbooksBurned := hbooks.burned
  generalize st.receipt P block.header = receipt at *
  refine ⟨?_, ?_⟩ <;> rw [hledger]
  · rw [MintLedgerTotals.recordReceipt_genesis, MintLedgerTotals.recordReceipt_gross _ hzero,
      MachineInt.toNat_saturatingAdd]
    omega
  · obtain ⟨hassay, hfees, hbond, hslashed⟩ :=
      MintLedgerTotals.recordReceipt_burned node.chain.mintLedger receipt
    rw [hassay, hfees, hbond, hslashed, MachineInt.toNat_saturatingAdd,
      MachineInt.toNat_saturatingAdd, MachineInt.toNat_saturatingAdd,
      MachineInt.toNat_saturatingAdd]
    omega

end Accepted

/-! ## Runs -/

/-- At genesis only the ledger's genesis issuance is not zero. -/
theorem reconciled_genesis {config : GenesisConfig} {chain : ChainState} {accounts : AccountStore}
    {refiners : RefinerSet}
    (h : OpolysNode.genesisState P config = .ok (chain, accounts, refiners)) :
    chain.Reconciled := by
  unfold OpolysNode.genesisState at h
  obtain ⟨chain', hchain, h⟩ := bind_eq_ok.mp h
  obtain ⟨⟨accounts', issued⟩, -, h⟩ := bind_eq_ok.mp h
  unfold ChainState.new at hchain
  split at hchain <;> cases hchain
  cases h
  exact ⟨rfl, rfl⟩

/-- A refused call leaves the totals and the ledger. -/
theorem ChainState.Reconciled.votes {node node' : OpolysNode} (h : node.chain.Reconciled)
    (hvotes : node.VotesOnly node') : node'.chain.Reconciled := by
  rw [hvotes]
  exact ⟨h.issued, h.burned⟩

/-- The mint ledger reconciles with the chain: after every run from genesis of calls for which
there is room, whether they are accepted or not, the totals agree, and so they do after the next
block, whose receipt is the difference. -/
theorem mintLedger_reconciles {config : GenesisConfig} {chain : ChainState}
    {accounts : AccountStore} {refiners : RefinerSet} {node : OpolysNode} {calls : List Call}
    (hgenesis : OpolysNode.genesisState P config = .ok (chain, accounts, refiners))
    (hchain : node.chain = chain) (haccounts : node.accounts = accounts)
    (hrefiners : node.refiners = refiners)
    (hrun : Transition.EveryStep (OpolysNode.step P) (fun node call =>
      node.accepts P call = true ∧ SupplyRoom P node call ∨ node.Spacious P call) node calls) :
    let node' := Transition.run (OpolysNode.step P) node calls
    node'.chain.Reconciled ∧
      ∀ call node'' st, SupplyRoom P node' call →
        Accepted P call.env call.block node' node'' st →
          (st.receipt P call.block.header).AccountsFor node'.chain node''.chain := by
  intro node'
  have hstart : node.Conserved ∧ node.chain.Reconciled :=
    ⟨conserved_start hgenesis hchain haccounts hrefiners, hchain ▸ reconciled_genesis hgenesis⟩
  have hstep : ∀ (node : OpolysNode) (call : Call), node.Conserved ∧ node.chain.Reconciled →
      node.accepts P call = true ∧ SupplyRoom P node call ∨ node.Spacious P call →
        (node.step P call).Conserved ∧ (node.step P call).chain.Reconciled := by
    rintro node call ⟨hcons, hbooks⟩ hcall
    have hroom : SupplyRoom P node call := hcall.elim And.right fun h => h.supplyRoom
    refine ⟨conserved_step hcons hroom, ?_⟩
    cases haccept : node.accepts P call with
    | true =>
      obtain ⟨st, hst⟩ := OpolysNode.accepted_of_accepts haccept
      exact hst.reconciled hcons hroom hbooks
    | false =>
      obtain ⟨haccepted, -⟩ | hspacious := hcall
      · rw [haccepted] at haccept
        cases haccept
      · exact hbooks.votes (votesOnly_of_rejects hcons hspacious haccept)
  have hinv : node'.Conserved ∧ node'.chain.Reconciled :=
    Transition.invariant_run hstep hstart hrun
  exact ⟨hinv.2, fun call node'' st hroom hst => hst.accountsFor hinv.1 hroom⟩

open Reference

/-- The books of a chain whose first block pays a reward, a transfer and a bond, comes a second
time, and is followed by another one. -/
theorem mintLedger_reconciles_of_reference :
    let node := start (config [(1, 1000000000)]) none
    let miner := start (config [(1, 1000000000)]) (some 1)
    let transactions := signed 1 (.transfer (account 2) 5000) 10 0 ++
      signed 1 (.refinerBond 32000000) 10 1
    let first := call (mine miner 0 { transactions })
    let node1 := node.step primitives first
    let second := call (mine (miner.step primitives first) 0 {})
    node1.accepts primitives first = false ∧
      (Transition.run (OpolysNode.step primitives) node
        [first, first, second]).chain.Reconciled := by
  intro node miner transactions first node1 second
  have hgenesis := OpolysNode.new_fresh_keyless (new_start (config [(1, 1000000000)]) none
    (by decide +kernel))
  have hagain : node1.accepts primitives first = false ∧
      (checkBlock primitives first.env first.block node1).toOption = none := by
    decide +kernel
  have hspacious : node1.Spacious primitives first := by
    have hrecords : (∀ a ∈ node1.accounts.values, (a.publicKey.getD []).length < 2 ^ 32) ∧
        ∀ r ∈ node1.refiners.cachedRefiners.values, r.entries.length ≤ 8 := by
      decide +kernel
    refine ⟨fun kind hcheck => ?_, 8, encodable_of_values hrecords.1 hrecords.2, by decide⟩
    rw [hcheck] at hagain
    cases hagain.2
  have hrun : Transition.EveryStep (OpolysNode.step primitives) (fun node call =>
      node.accepts primitives call = true ∧ SupplyRoom primitives node call ∨
        node.Spacious primitives call) node [first, first, second] :=
    ⟨Or.inl (by decide +kernel), Or.inr hspacious, Or.inl (by decide +kernel), trivial⟩
  exact ⟨hagain.1, (mintLedger_reconciles hgenesis rfl rfl rfl hrun).1⟩

end Opolys
