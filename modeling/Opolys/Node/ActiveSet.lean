import Opolys.Node.Refining

/-!
# The limit of the active set

Refiners become active only in the rerank at the end of an epoch, which stops at the limit
of the supply issued so far. Between two reranks refiners leave the active set and the
limit grows with the supply, so the number of active refiners stays within the limit, and
no refined block burns more than half of its fees.
-/

namespace Opolys

open Ranking (top)
open RefinerInfo (Outranks)

variable {P : Primitives}

/-! ## The limit -/

namespace RefinerSet

/-- The limit grows with the supply. -/
theorem activeRefinerLimit_mono {issued issued' : FlakeAmount} (h : issued ≤ issued') :
    activeRefinerLimit issued ≤ activeRefinerLimit issued' := by
  have hopl : (issued / flakesPerOpl).toNat ≤ (issued' / flakesPerOpl).toNat := by
    rw [UInt64.toNat_div, UInt64.toNat_div]
    exact Nat.div_le_div_right (UInt64.le_iff_toNat_le.mp h)
  have hsqrt := Nat.sqrt_le_sqrt hopl
  unfold activeRefinerLimit
  dsimp only
  rw [integerSqrtFloor, integerSqrtFloor, Emission.integerSqrtFloor_eq (UInt64.toNat_lt _),
    Emission.integerSqrtFloor_eq (UInt64.toNat_lt _)]
  unfold MachineInt.saturatingAdd128 MachineInt.max128
  omega

/-! ## Counting -/

/-- The number of active refiners. -/
def activeCount (set : RefinerSet) : ℕ :=
  set.cachedRefiners.values.countP fun r => r.status = .active

/-- The active set lists the active refiners. -/
theorem WellFormedUpTo.activeCount_eq {set : RefinerSet} (h : set.WellFormed) :
    set.activeCount = set.totalActiveRefiners := by
  have hreload := (alike_loadFromRefiners h).totalActiveRefiners_eq
  rw [loadFromRefiners_allRefiners] at hreload
  unfold totalActiveRefiners at hreload ⊢
  rw [List.length_map] at hreload
  rw [activeCount, List.countP_eq_length_filter]
  exact hreload

/-- After a rerank the active refiners are within the limit. -/
theorem Sound.activeCount_rerankRefiners {set : RefinerSet} (h : set.Sound)
    (totalIssued : FlakeAmount) :
    (set.rerankRefiners totalIssued).activeCount ≤ activeRefinerLimit totalIssued := by
  have hwf := wellFormed_rerankRefiners h.wellFormed totalIssued
  rw [hwf.activeCount_eq]
  have hsub : (set.rerankRefiners totalIssued).activeSet ⊆
      (top Outranks (activeRefinerLimit totalIssued) set.eligible).map RefinerInfo.objectId := by
    intro id hid
    obtain ⟨r, ⟨htop, -⟩, hname⟩ :=
      (h.active_rerankRefiners totalIssued id).mp ((hwf.mem_activeSet id).mp hid)
    exact List.mem_map.mpr ⟨r, htop, hname⟩
  have hle := (List.subperm_of_subset hwf.active_nodup hsub).length_le
  rw [List.length_map] at hle
  exact hle.trans (Ranking.length_top_le _ _)

/-! ## Between two reranks -/

theorem totalActive_bond {set set' : RefinerSet} {id : ObjectId} {stake : FlakeAmount}
    {height timestamp : UInt64} {totalIssued : FlakeAmount}
    (h : set.bond id stake height timestamp totalIssued = .ok set') :
    set'.totalActiveRefiners = set.totalActiveRefiners := by
  obtain ⟨r, -, rfl, -⟩ := bond_eq_ok h
  rfl

theorem totalActive_unbondAmount {set set' : RefinerSet} {id : ObjectId}
    {amount unbonded : FlakeAmount} {height : BlockHeight}
    (h : set.unbondAmount id amount height = .ok (set', unbonded)) :
    set'.totalActiveRefiners ≤ set.totalActiveRefiners := by
  obtain ⟨-, r, r', -, -, -, -, -, hactive⟩ := unbondAmount_eq_ok h
  unfold totalActiveRefiners
  rcases hactive with ⟨-, hsame⟩ | ⟨-, hfilter⟩
  · rw [hsame]
  · rw [hfilter]
    exact List.length_filter_le _ _

theorem totalActive_removeIfGone (set : RefinerSet) (id : ObjectId) :
    (set.removeIfGone id).totalActiveRefiners ≤ set.totalActiveRefiners := by
  unfold removeIfGone totalActiveRefiners
  dsimp only
  split
  · exact Nat.le_refl _
  · split
    · exact List.length_filter_le _ _
    · exact Nat.le_refl _

theorem totalActive_processMaturedUnbonds (set : RefinerSet) (height : BlockHeight) :
    (set.processMaturedUnbonds height).1.totalActiveRefiners ≤ set.totalActiveRefiners := by
  unfold processMaturedUnbonds
  dsimp only
  generalize set.maturedUnbonds height = matured
  have hloop (set : RefinerSet) :
      (matured.foldl (fun set entry => set.removeIfGone entry.1) set).totalActiveRefiners ≤
        set.totalActiveRefiners := by
    induction matured generalizing set with
    | nil => exact Nat.le_refl _
    | cons entry matured ih => exact (ih _).trans (set.totalActive_removeIfGone entry.1)
  exact hloop _

theorem totalActive_afterSlash (set : RefinerSet) (id : ObjectId) :
    (set.afterSlash id).totalActiveRefiners ≤ set.totalActiveRefiners := by
  unfold afterSlash totalActiveRefiners
  dsimp only
  split
  · exact Nat.le_refl _
  · split
    · exact Nat.le_refl _
    · exact List.length_filter_le _ _

theorem totalActive_recordCorrectAttestation {set set' : RefinerSet} {id : ObjectId}
    (h : set.recordCorrectAttestation id = .ok set') :
    set'.totalActiveRefiners = set.totalActiveRefiners := by
  unfold recordCorrectAttestation at h
  split at h
  · cases h
  · rw [Effect.check_bind_eq_ok] at h
    cases h.2
    rfl

theorem totalActive_activateMaturedRefiners (set : RefinerSet) (height : BlockHeight) :
    (set.activateMaturedRefiners height).totalActiveRefiners = set.totalActiveRefiners := by
  unfold activateMaturedRefiners
  dsimp only
  generalize (set.cachedRefiners.values.filter _).map _ = ids
  induction ids generalizing set with
  | nil => rfl
  | cons id ids ih => exact ih _

/-- No operation but the rerank adds to the active set. -/
theorem totalActive_perform {set : RefinerSet} (h : set.WellFormed) {operation : Operation}
    (hinternal : operation.isInternal = true) (hranks : operation.ranks = false) :
    (set.perform operation).totalActiveRefiners ≤ set.totalActiveRefiners := by
  fun_cases perform set operation with
  | case1 => cases hinternal
  | case3 => cases hinternal
  | case5 height => exact set.totalActive_processMaturedUnbonds height
  | case6 => cases hranks
  | case7 => cases hranks
  | case8 id burned set' hs =>
    obtain rfl := ((slashRefiner_ends id set).ok hs).2
    exact set.totalActive_afterSlash id
  | case9 id message set' hs =>
    obtain rfl := ((slashRefiner_ends id set).error hs).2
    exact set.totalActive_afterSlash id
  | case10 id set' hr => exact (totalActive_recordCorrectAttestation hr).le
  | case12 => exact (alike_loadFromRefiners h).totalActiveRefiners_eq.le
  | _ => exact Nat.le_refl _

end RefinerSet

/-! ## One block -/

/-- At most half of the fees is burned while the active refiners are within their limit. -/
theorem porFeeSplit_le_half (fees : FlakeAmount) {activeRefiners activeRefinerLimit : ℕ}
    (h : activeRefiners ≤ activeRefinerLimit) :
    2 * (computePorFeeSplit fees activeRefiners activeRefinerLimit).1.toNat ≤ fees.toNat := by
  unfold computePorFeeSplit
  split
  · exact Nat.zero_le _
  · dsimp only
    split
    · exact Nat.zero_le _
    · have hshare : 2 * (fees.toNat * activeRefiners) ≤
          (activeRefinerLimit + activeRefiners) * fees.toNat := by
        rw [Nat.mul_left_comm, Nat.mul_comm _ fees.toNat]
        exact Nat.mul_le_mul_left _ (by omega)
      have hquotient : 2 * (fees.toNat * activeRefiners / (activeRefinerLimit + activeRefiners)) ≤
          fees.toNat :=
        (Nat.mul_div_le_mul_div_assoc _ _ _).trans (Nat.div_le_of_le_mul hshare)
      have hsaturated : MachineInt.saturatingMul128 fees.toNat activeRefiners /
          (activeRefinerLimit + activeRefiners) ≤
            fees.toNat * activeRefiners / (activeRefinerLimit + activeRefiners) :=
        Nat.div_le_div_right (Nat.min_le_left _ _)
      have hword := Nat.mod_le (min (MachineInt.saturatingMul128 fees.toNat activeRefiners /
        (activeRefinerLimit + activeRefiners)) fees.toNat) (2 ^ 64)
      rw [UInt64.toNat_ofNat']
      omega

/-- A node whose active refiners are within the limit. -/
structure OpolysNode.WithinLimit (node : OpolysNode) : Prop where
  wellFormed : node.refiners.WellFormed
  count_le : node.refiners.activeCount ≤ RefinerSet.activeRefinerLimit node.chain.totalIssued

/-- What holds of the active refiners of a ledger before they are ranked. -/
def ActiveUpTo (n : ℕ) (ledger : Ledger) : Prop :=
  ledger.refiners.WellFormed ∧ ledger.refiners.totalActiveRefiners ≤ n

theorem activeUpTo_stages (n : ℕ) : KeptByStages (ActiveUpTo n) where
  credit _ _ _ _ h _ := h
  perform operation h hinternal hranks :=
    ⟨RefinerSet.wellFormed_perform h.1 operation,
      (RefinerSet.totalActive_perform h.1 hinternal hranks).trans h.2⟩

theorem activeUpTo_transactions (n : ℕ) : KeptByTransactions P (ActiveUpTo n) := by
  rintro ledger tx context charged ledger' ⟨hwf, hle⟩ hrun
  have hwf' := (wellFormed_invariant (P := P) GenesisConfig.default).execute hwf hrun
  refine ⟨hwf', le_trans ?_ hle⟩
  have hmoves := TransactionDispatcher.movesStake_of_dispatch hrun
  unfold TransactionDispatcher.MovesStake at hmoves
  split at hmoves
  · rw [hmoves]
  · exact (RefinerSet.totalActive_bond hmoves).le
  · exact RefinerSet.totalActive_unbondAmount hmoves

namespace Accepted

variable {env : Env} {block : Block} {node node' : OpolysNode} {st : Stages}

theorem refiners_ranked (h : Accepted P env block node node' st) :
    node'.refiners =
      st.paid.refiners.ranked block.header.height node'.chain.totalIssued := by
  rw [h.refiners_eq, h.paid_eq, h.settled_eq]

/-- When the books are closed after a block, its refiners could be ranked by exact stakes. -/
theorem stakes_paid (h : Accepted P env block node node' st) (hcons : node'.Conserved) :
    st.paid.refiners.stakes < 2 ^ 64 := by
  have hcustody : node'.refiners.custody = st.paid.refiners.custody := by
    rw [h.refiners_ranked]
    unfold RefinerSet.ranked
    split
    · rw [RefinerSet.custody_rerankRefiners, RefinerSet.custody_activateMaturedRefiners]
    · rw [RefinerSet.custody_activateMaturedRefiners]
  have hsupply := OpolysNode.conserved_iff.mp hcons
  have hissued := node'.chain.totalIssued.toNat_lt
  unfold RefinerSet.custody at hcustody
  omega

theorem issued_eq (h : Accepted P env block node node' st) : node'.chain.totalIssued =
    MachineInt.saturatingAdd node.chain.totalIssued st.opening.reward.grossReward := by
  rw [h.chain_eq]

theorem issued_le (h : Accepted P env block node node' st) :
    node.chain.totalIssued ≤ node'.chain.totalIssued := by
  rw [h.issued_eq, UInt64.le_iff_toNat_le, MachineInt.toNat_saturatingAdd]
  have := node.chain.totalIssued.toNat_lt
  omega

/-- An accepted block keeps the active refiners within the limit. -/
theorem withinLimit (h : Accepted P env block node node' st) (hcons : node'.Conserved)
    (hnode : node.WithinLimit) : node'.WithinLimit := by
  have hlimit := RefinerSet.activeRefinerLimit_mono h.issued_le
  have hstart : ActiveUpTo (RefinerSet.activeRefinerLimit node.chain.totalIssued) node.ledger :=
    ⟨hnode.wellFormed, hnode.wellFormed.activeCount_eq ▸ hnode.count_le⟩
  obtain ⟨hwf, hpaid⟩ := (activeUpTo_stages _).paid (activeUpTo_transactions _) h hstart
  have hsound : st.paid.refiners.Sound :=
    ⟨hwf, fun _ _ hr => (RefinerSet.stake_le_stakes hr).trans_lt (h.stakes_paid hcons)⟩
  have hactivated := hsound.activateMaturedRefiners block.header.height
  have hrefiners := h.refiners_ranked
  unfold RefinerSet.ranked at hrefiners
  split at hrefiners
  · refine ⟨?_, ?_⟩ <;> rw [hrefiners]
    · exact RefinerSet.wellFormed_rerankRefiners hactivated.wellFormed _
    · exact hactivated.activeCount_rerankRefiners _
  · refine ⟨?_, ?_⟩ <;> rw [hrefiners]
    · exact hactivated.wellFormed
    · rw [hactivated.wellFormed.activeCount_eq, RefinerSet.totalActive_activateMaturedRefiners]
      exact hpaid.trans hlimit

/-- The attestations of a block leave the active set as it is. -/
theorem totalActive_finalized (h : Accepted P env block node node' st) :
    st.finalized.refiners.totalActiveRefiners = node.refiners.totalActiveRefiners := by
  rw [h.finalized_frame]
  refine Effect.run_foldlM_invariant (I := fun _ node' =>
    node'.refiners.totalActiveRefiners = node.refiners.totalActiveRefiners) rfl ?_ h.attest
  intro log node1 attestation log' node2 _ hnode1 hround
  obtain ⟨-, -, store, attested, -, -, -, -, refiners, hrecord, -, rfl⟩ :=
    processAttestation_eq_ok hround
  exact (RefinerSet.totalActive_recordCorrectAttestation hrecord).trans hnode1

/-- The burned part of the fees of a refined block is the smaller one. -/
theorem fees_split (h : Accepted P env block node node' st) (hnode : node.WithinLimit)
    (hkind : st.kind = .refined) :
    2 * (st.receipt P block.header).ordinaryFeesBurned.toNat ≤
        (st.receipt P block.header).ordinaryFees.toNat ∧
      (st.receipt P block.header).ordinaryFeesBurned.toNat +
          (st.receipt P block.header).refinerFeeIncome.toNat =
        (st.receipt P block.header).ordinaryFees.toNat := by
  have hopening : st.opening.kind = .refined := h.opening_kind.trans hkind
  have hmarket := h.market_eq
  have hadds := routeFees_adds_up st.opening st.tally.totalTransactionFees
  rw [if_pos hopening] at hadds
  refine ⟨?_, hadds⟩
  rw [if_pos hkind, h.totalActive_finalized, h.finalized_frame] at hmarket
  have hcount := hnode.count_le
  rw [hnode.wellFormed.activeCount_eq] at hcount
  unfold Stages.receipt economicReceipt routeFees
  rw [if_pos hopening, hmarket]
  exact porFeeSplit_le_half _ hcount

end Accepted

/-! ## Runs -/

theorem withinLimit_start {config : GenesisConfig} {chain : ChainState} {accounts : AccountStore}
    {refiners : RefinerSet} {node : OpolysNode}
    (hgenesis : OpolysNode.genesisState P config = .ok (chain, accounts, refiners))
    (hrefiners : node.refiners = refiners) : node.WithinLimit := by
  have hnew := hrefiners.trans (genesisState_eq_ok hgenesis).2.2.2
  have hwf : node.refiners.WellFormed := hnew ▸ RefinerSet.wellFormed_new
  refine ⟨hwf, ?_⟩
  rw [hwf.activeCount_eq, hnew]
  exact Nat.zero_le _

/-- The active set never exceeds its limit: in every state that accepted blocks reach from
genesis the active refiners are within the limit of the issued supply, and the next refined
block, whichever it is, burns at most half of its fees and pays the rest. -/
theorem active_within_limit {config : GenesisConfig} {chain : ChainState}
    {accounts : AccountStore} {refiners : RefinerSet} {node : OpolysNode} {calls : List Call}
    (hgenesis : OpolysNode.genesisState P config = .ok (chain, accounts, refiners))
    (hchain : node.chain = chain) (haccounts : node.accounts = accounts)
    (hrefiners : node.refiners = refiners)
    (hrun : Transition.EveryStep (OpolysNode.step P)
      (fun node call => node.accepts P call = true ∧ SupplyRoom P node call) node calls) :
    let node' := Transition.run (OpolysNode.step P) node calls
    node'.refiners.activeCount ≤ RefinerSet.activeRefinerLimit node'.chain.totalIssued ∧
      ∀ env block node'' st, Accepted P env block node' node'' st → st.kind = .refined →
        2 * (st.receipt P block.header).ordinaryFeesBurned.toNat ≤
            (st.receipt P block.header).ordinaryFees.toNat ∧
          (st.receipt P block.header).ordinaryFeesBurned.toNat +
              (st.receipt P block.header).refinerFeeIncome.toNat =
            (st.receipt P block.header).ordinaryFees.toNat := by
  intro node'
  have hstart : node.Conserved ∧ node.WithinLimit :=
    ⟨conserved_start hgenesis hchain haccounts hrefiners, withinLimit_start hgenesis hrefiners⟩
  have hstep : ∀ (node : OpolysNode) (call : Call), node.Conserved ∧ node.WithinLimit →
      node.accepts P call = true ∧ SupplyRoom P node call →
        (node.step P call).Conserved ∧ (node.step P call).WithinLimit := by
    rintro node call ⟨hcons, hnode⟩ ⟨haccept, hroom⟩
    have hcons' := conserved_step hcons hroom
    obtain ⟨st, hst⟩ := OpolysNode.accepted_of_accepts haccept
    exact ⟨hcons', hst.withinLimit hcons' hnode⟩
  have hinv : node'.Conserved ∧ node'.WithinLimit :=
    Transition.invariant_run hstep hstart hrun
  exact ⟨hinv.2.count_le, fun _ _ _ _ hst hkind => hst.fees_split hinv.2 hkind⟩

/-! ## A chain with an active refiner -/

/-- A block after which the supply is not exhausted had room for its reward. -/
theorem supplyRoom_of_issued {node : OpolysNode} {call : Call}
    (haccepts : node.accepts P call = true)
    (hissued : (node.step P call).chain.totalIssued.toNat < 2 ^ 64 - 1) :
    SupplyRoom P node call := by
  obtain ⟨st, hst⟩ := OpolysNode.accepted_of_accepts haccepts
  intro opening opened hopen
  cases hst.opening_run.symm.trans hopen
  have hsame : st.opened.chain.totalIssued = node.chain.totalIssued := by
    rw [hst.opened_eq, hst.finalized_frame]
  rw [hst.issued_eq, MachineInt.toNat_saturatingAdd] at hissued
  rw [hsame]
  omega

/-- So had all blocks of a run after which it is not exhausted. -/
theorem supplyRoom_run {node : OpolysNode} {calls : List Call}
    (hall : Transition.EveryStep (OpolysNode.step P)
      (fun node call => node.accepts P call = true) node calls)
    (hissued : (Transition.run (OpolysNode.step P) node calls).chain.totalIssued.toNat <
      2 ^ 64 - 1) :
    Transition.EveryStep (OpolysNode.step P)
      (fun node call => node.accepts P call = true ∧ SupplyRoom P node call) node calls := by
  induction calls generalizing node with
  | nil => trivial
  | cons call calls ih =>
    have hgrows : (node.step P call).chain.totalIssued ≤
        (Transition.run (OpolysNode.step P) (node.step P call) calls).chain.totalIssued := by
      have hkeeps (node1 : OpolysNode) (call1 : Call)
          (hle : (node.step P call).chain.totalIssued ≤ node1.chain.totalIssued)
          (haccepts : node1.accepts P call1 = true) :
          (node.step P call).chain.totalIssued ≤ (node1.step P call1).chain.totalIssued := by
        obtain ⟨st, hst⟩ := OpolysNode.accepted_of_accepts haccepts
        exact UInt64.le_trans hle hst.issued_le
      exact Transition.invariant_run hkeeps (UInt64.le_refl _) hall.2
    rw [UInt64.le_iff_toNat_le] at hgrows
    exact ⟨⟨hall.1, supplyRoom_of_issued hall.1 (hgrows.trans_lt hissued)⟩, ih hall.2 hissued⟩

open Reference

/-- The founder starts with the accounts of genesis. -/
theorem genesis_founder : OpolysNode.genesisState primitives bondConfig =
    .ok (founder.chain, founder.accounts, founder.refiners) := by
  obtain ⟨accounts, hgenesis, -⟩ := OpolysNode.new_fresh new_founder
  have hkeyless := OpolysNode.new_fresh_keyless (new_start bondConfig none (by decide +kernel))
  have hvalues : founder.accounts.values = (start bondConfig none).accounts.values := by
    decide +kernel
  have hsame : founder.accounts = (start bondConfig none).accounts := by
    rw [← Registry.ofList_values founder.accounts, hvalues, Registry.ofList_values]
  have haccounts : accounts = founder.accounts := by
    rw [hsame]
    have heq := Except.ok.inj (hgenesis.symm.trans hkeyless)
    exact congrArg (fun state => state.2.1) heq
  rw [hgenesis, haccounts]

/-- One refiner is active, within the limit, and signs the next block. -/
theorem active_within_limit_of_reference : ∃ calls call st,
    let node := Transition.run (OpolysNode.step primitives) founder calls
    Accepted primitives call.env call.block node (node.step primitives call) st ∧
      st.kind = .refined ∧ node.refiners.activeCount = 1 ∧
      1 ≤ RefinerSet.activeRefinerLimit node.chain.totalIssued ∧
      2 * (st.receipt primitives call.block.header).ordinaryFeesBurned.toNat ≤
        (st.receipt primitives call.block.header).ordinaryFees.toNat := by
  obtain ⟨node, ⟨calls, -, hall, hrun⟩, hrefining⟩ := reaches_refining
  have hlate : 45 ≤ 90 ∧ 90 < 2 ^ 16 := ⟨by omega, by omega⟩
  obtain ⟨st, hst⟩ := OpolysNode.accepted_of_accepts (accepts_refine hrefining hlate)
  have hkind : st.kind = .refined :=
    Except.ok.inj (hst.check.symm.trans (checkBlock_refine hrefining hlate).1)
  have hissued :
      (Transition.run (OpolysNode.step primitives) founder calls).chain.totalIssued.toNat <
        2 ^ 64 - 1 := by
    rw [hrun, hrefining.issued]
    decide
  obtain ⟨hcount, hfees⟩ :=
    active_within_limit genesis_founder rfl rfl rfl (supplyRoom_run hall hissued)
  have hone : node.refiners.activeCount = 1 := by
    rw [hrefining.refiners]
    rfl
  refine ⟨calls, refine 90 node, st, ?_⟩
  rw [hrun] at hcount hfees ⊢
  exact ⟨hst, hkind, hone, hone ▸ hcount, (hfees _ _ _ _ hst hkind).1⟩

end Opolys
