import Opolys.Consensus.PowBinding
import Opolys.Node.Agreement
import Opolys.Node.Candidate
import Opolys.Node.Replay

/-!
# What a block hash identifies

A block hash covers every field of the header but the two proofs. Two blocks of one hash and
one body are the same up to their proofs. What they do to a node differs where the proofs do:
a nonce decides what a miner earns, and whether a block is mined or signed decides what
becomes of its fees.

* `same_transition_iff` : when two such blocks leave the same state.
-/

namespace Opolys

open Codec (FixedBytes)
open Effect

variable {P : Primitives}

/-! ## Blocks of one hash -/

/-- The bytes under a block hash hold every field but the proofs. -/
theorem blockHashPreimage_eq_iff {h h' : BlockHeader} :
    blockHashPreimage h = blockHashPreimage h' ↔ h.unproved = h'.unproved := by
  constructor
  · intro he
    have hlen (a b : Hash) : a.bytes.length = b.bytes.length := by
      rw [a.length_bytes, b.length_bytes]
    unfold blockHashPreimage at he
    simp only [List.append_assoc] at he
    obtain ⟨h1, he⟩ := List.append_inj he (by simp)
    obtain ⟨h2, he⟩ := List.append_inj he (by simp)
    obtain ⟨h3, he⟩ := List.append_inj he (hlen _ _)
    obtain ⟨h4, he⟩ := List.append_inj he (hlen h.producer.hash h'.producer.hash)
    obtain ⟨h5, he⟩ := List.append_inj he (hlen _ _)
    obtain ⟨h6, he⟩ := List.append_inj he (hlen _ _)
    obtain ⟨h7, he⟩ := List.append_inj he (hlen _ _)
    obtain ⟨h8, he⟩ := List.append_inj he (hlen _ _)
    obtain ⟨h9, he⟩ := List.append_inj he (hlen _ _)
    obtain ⟨h10, he⟩ := List.append_inj he (by simp)
    obtain ⟨h11, he⟩ := List.append_inj he (by simp)
    obtain ⟨h12, h13⟩ := List.append_inj he (by simp)
    refine BlockHeader.ext (Codec.beBytes_uint32_inj h1) (Codec.beBytes_uint64_inj h2)
      (FixedBytes.bytes_injective h3) (FixedBytes.bytes_injective h5)
      (FixedBytes.bytes_injective h6) (FixedBytes.bytes_injective h7)
      (FixedBytes.bytes_injective h8) (FixedBytes.bytes_injective h9)
      (Codec.beBytes_uint64_inj h10) (Codec.beBytes_uint64_inj h11)
      (Codec.beBytes_uint64_inj h12) (extensionBytes_injective h13)
      (ObjectId.ext (FixedBytes.bytes_injective h4)) rfl rfl
  · intro he
    change blockHashPreimage h.unproved = blockHashPreimage h'.unproved
    rw [he]

/-- Two blocks with the same body. -/
structure Block.SameBody (b b' : Block) : Prop where
  transactions : b.transactions = b'.transactions
  evidence : b.slashEvidence = b'.slashEvidence
  attestations : b.attestations = b'.attestations
  ceremony : b.genesisCeremony = b'.genesisCeremony

/-- What is hashed for the name of a block. -/
def blockHashMessage (header : BlockHeader) : List UInt8 :=
  domainBlockHash ++ blockHashPreimage header

/-- Unless their messages collide, blocks of one hash and one body differ in their proofs
only. -/
theorem Block.SameBody.eq_withProofs {b b' : Block} (h : b.SameBody b')
    (hfree : CollisionFree P.blake3 {blockHashMessage b.header, blockHashMessage b'.header})
    (hhash : computeBlockHash P b.header = computeBlockHash P b'.header) :
    b' = b.withProofs b'.header.powProof b'.header.refinerSignature := by
  have hmessage : blockHashMessage b.header = blockHashMessage b'.header :=
    hfree _ (Or.inl rfl) _ (Or.inr rfl) hhash
  have hsame := blockHashPreimage_eq_iff.mp (List.append_cancel_left hmessage)
  have hheader : b'.header = { b.header.unproved with
      powProof := b'.header.powProof, refinerSignature := b'.header.refinerSignature } := by
    rw [hsame]
    rfl
  exact Block.ext hheader h.transactions.symm h.evidence.symm h.attestations.symm
    h.ceremony.symm

/-! ## Fees -/

/-- The fees counted in a block are those of the transactions that succeed. -/
theorem totalTransactionFees_eq {header : BlockHeader} {txs : List Transaction}
    {tally tally' : TxTally} {node node' : OpolysNode}
    (h : txs.foldlM (executeTransaction P header) tally node = .ok tally' node') :
    tally'.totalTransactionFees.toNat = tally.totalTransactionFees.toNat +
      ((executedFrom P (executionContext header node.chain) txs node.ledger).1.map
        fun tx => tx.fee.toNat).sum := by
  induction txs generalizing tally node with
  | nil =>
    obtain ⟨rfl, -⟩ := run_pure_eq_ok.mp h
    rfl
  | cons tx txs ih =>
    rw [List.foldlM_cons, run_bind_eq_ok] at h
    obtain ⟨tally1, node1, htx, h⟩ := h
    obtain ⟨hcount, rfl⟩ := executeTransaction_eq_ok htx
    have hrest := ih h
    have hcases := TransactionDispatcher.applyTransaction_cases P tx
      (executionContext header node.chain) mainnetChainId node.ledger
    unfold executedFrom
    dsimp only at hcount hrest ⊢
    rw [hrest]
    unfold TxTally.count at hcount
    change tally1.totalTransactionFees.toNat + ((executedFrom P
      (executionContext header node.chain) txs (TransactionDispatcher.applyTransaction P tx
        (executionContext header node.chain) mainnetChainId node.ledger).2).1.map
          fun tx => tx.fee.toNat).sum = _
    rcases hcases with ⟨hsuccess, hexec⟩ | ⟨hfail, -⟩
    · rw [if_pos hsuccess] at hcount ⊢
      have hfee : (TransactionDispatcher.applyTransaction P tx
          (executionContext header node.chain) mainnetChainId node.ledger).1.feeCharged.toNat =
            tx.fee.toNat := congrArg UInt64.toNat hexec.fee_eq
      obtain ⟨hfees, -⟩ := TxTally.record_eq_ok hcount
      rw [List.map_cons, List.sum_cons, hfees, hfee, Nat.add_assoc]
    · rw [if_neg (by rw [hfail]; exact Bool.false_ne_true)] at hcount ⊢
      cases hcount
      rfl

theorem minFee_le_of_executed {context : ExecutionContext} {txs : List Transaction}
    {ledger : Ledger} {tx : Transaction} (h : tx ∈ (executedFrom P context txs ledger).1) :
    1 ≤ tx.fee.toNat := by
  induction txs generalizing ledger with
  | nil => cases h
  | cons t txs ih =>
    unfold executedFrom at h
    dsimp only at h
    have hcases := TransactionDispatcher.applyTransaction_cases P t context mainnetChainId ledger
    rcases hcases with ⟨hsuccess, hexec⟩ | ⟨hfail, -⟩
    · rw [if_pos hsuccess] at h
      rcases List.mem_cons.mp h with rfl | h
      · have hmin := hexec.minFee_le
        rw [toNat_minFee] at hmin
        exact hmin
      · exact ih h
    · rw [if_neg (by rw [hfail]; exact Bool.false_ne_true)] at h
      exact ih h

/-! ## What a block earns -/

/-- The gross reward of a header: a mined one is paid by the hash of its proof. -/
def OpolysNode.earned (P : Primitives) (node : OpolysNode) (header : BlockHeader) : FlakeAmount :=
  if header.isMined then
    Emission.computeBlockReward node.chain.baseReward header.difficulty
      ((computePowHashValue P header).getD 0)
  else 0

theorem grossReward_computeRewardDistribution (gross base : FlakeAmount)
    (difficulty coverage : UInt64) :
    (computeRewardDistribution gross base difficulty coverage).grossReward = gross := by
  unfold computeRewardDistribution
  split
  · rename_i hzero
    rw [hzero]
  · rfl

theorem beginBlock_porFeeMarket {kind : BlockProductionKind} {bondedStake : FlakeAmount}
    {block : Block} {node node' : OpolysNode} {opening : Opening}
    (h : beginBlock P kind bondedStake block node = .ok opening node') :
    opening.porFeeMarket = if kind = .refined then some (node.refiners.totalActiveRefiners,
      RefinerSet.activeRefinerLimit node.chain.totalIssued) else none := by
  unfold beginBlock at h
  rw [run_get_bind, run_bind_eq_ok] at h
  obtain ⟨slashedBurned, node1, -, h⟩ := h
  rw [run_bind_eq_ok] at h
  obtain ⟨newEvidence, node2, -, h⟩ := h
  rw [run_get_bind] at h
  generalize blockReward P kind block.header node2.chain bondedStake = parts at h
  obtain ⟨veinYieldMilli, reward⟩ := parts
  dsimp only at h
  rw [run_get_bind, run_ofExcept_bind_eq_ok] at h
  obtain ⟨accounts, -, h⟩ := h
  cases h
  rfl

theorem genesis_iff_of_productionKind {header : BlockHeader} {kind : BlockProductionKind}
    (h : header.productionKind = some kind) : kind = .genesis ↔ header.height = 0 := by
  unfold BlockHeader.productionKind at h
  generalize header.powProof.isSome = mined at h
  generalize header.refinerSignature.isSome = signed at h
  cases hheight : decide (header.height = 0) <;> rw [hheight] at h
  · have hne := of_decide_eq_false hheight
    cases mined <;> cases signed <;> cases h <;> exact iff_of_false nofun hne
  · have heq := of_decide_eq_true hheight
    cases mined <;> cases signed <;> cases h
    exact iff_of_true rfl heq

namespace Accepted

variable {env : Env} {block : Block} {node node' : OpolysNode} {st : Stages}

theorem productionKind (h : Accepted P env block node node' st) :
    block.header.productionKind = some st.kind := (checkBlock_eq_ok h.check).1

/-- The reward of a block is made of what it earns. -/
theorem reward_of_earned (h : Accepted P env block node node' st) :
    st.opening.reward =
      computeRewardDistribution (node.earned P block.header) 0 block.header.difficulty 0 := by
  have hbase : st.finalized.chain.baseReward = node.chain.baseReward := by rw [h.finalized_frame]
  have hmined : block.header.isMined = decide (st.kind = .mined) := by
    unfold BlockHeader.isMined
    rw [h.productionKind]
    exact decide_eq_decide.mpr Option.some_inj
  rw [h.reward_eq]
  unfold blockReward OpolysNode.earned
  dsimp only
  rw [hbase, hmined]
  cases st.kind <;> rfl

theorem porFeeMarket (h : Accepted P env block node node' st) :
    st.opening.porFeeMarket = if st.kind = .refined then
      some (st.finalized.refiners.totalActiveRefiners,
        RefinerSet.activeRefinerLimit st.finalized.chain.totalIssued) else none := by
  have hrun := h.opening_run
  unfold openBlock at hrun
  rw [run_get_bind, run_get_bind, h.check, run_ofExcept_bind_eq_ok] at hrun
  obtain ⟨kind, hkind, hrun⟩ := hrun
  cases hkind
  rw [run_bind_eq_ok] at hrun
  obtain ⟨⟨⟩, finalized, hattest, hrun⟩ := hrun
  rw [h.attest_run] at hattest
  cases hattest
  rw [run_get_bind, run_ofExcept_bind_eq_ok] at hrun
  obtain ⟨⟨⟩, -, hrun⟩ := hrun
  exact beginBlock_porFeeMarket hrun

/-- What is left to run after the transactions. -/
theorem close_run (h : Accepted P env block node node' st) {hash : Hash}
    (hrun : applyBlock P env block node = .ok hash node') :
    closeBlock P env block st.opening st.tally st.executed = .ok hash node' := by
  unfold applyBlock at hrun
  rw [run_bind_eq_ok] at hrun
  obtain ⟨opening, opened, hopen, hrun⟩ := hrun
  rw [h.opening_run] at hopen
  cases hopen
  rw [run_bind_eq_ok] at hrun
  obtain ⟨tally, executed, hexecute, hrun⟩ := hrun
  unfold executeTransactions at hexecute
  rw [h.execute] at hexecute
  cases hexecute
  exact hrun

end Accepted

/-! ## Two blocks of one hash -/

theorem routeFees_of_ne {opening : Opening} (h : opening.kind ≠ .refined) (fees : FlakeAmount) :
    (routeFees opening fees).ordinaryFeesBurned = fees := by
  unfold routeFees
  rw [if_neg h]

/-- A refined block never burns all of its fees. -/
theorem computePorFeeSplit_lt {fees : FlakeAmount} (hfees : 0 < fees.toNat)
    (activeRefiners : ℕ) {limit : ℕ} (hlimit : 0 < limit) :
    (computePorFeeSplit fees activeRefiners limit).1.toNat < fees.toNat := by
  unfold computePorFeeSplit
  split
  · exact hfees
  · dsimp only
    rw [if_neg (by omega)]
    have hlt := fees.toNat_lt
    have hproduct : MachineInt.saturatingMul128 fees.toNat activeRefiners ≤
        fees.toNat * activeRefiners := Nat.min_le_left _ _
    have hquotient : MachineInt.saturatingMul128 fees.toNat activeRefiners /
        (limit + activeRefiners) < fees.toNat := by
      refine (Nat.div_lt_iff_lt_mul (by omega)).mpr (lt_of_le_of_lt hproduct ?_)
      exact Nat.mul_lt_mul_of_pos_left (by omega) hfees
    rw [MachineInt.toNat_ofNat_of_lt (by omega)]
    omega

/-- What a block leaves that the next one is checked against, and what it has done to the
money. -/
structure OpolysNode.SameState (a b : OpolysNode) : Prop where
  accounts : a.accounts = b.accounts
  issued : a.chain.totalIssued = b.chain.totalIssued
  burned : a.chain.totalBurned = b.chain.totalBurned
  root : a.chain.stateRoot = b.chain.stateRoot

theorem OpolysNode.Alike.sameState {a b : OpolysNode} (h : a.Alike False b) : a.SameState b := by
  obtain ⟨signatures, totals, hchain⟩ := h.chain
  exact ⟨h.accounts_eq.symm, h.totalIssued_eq.symm, h.totalBurned_eq.symm, by rw [hchain]; rfl⟩

/-- Two calls earn the same, and both blocks are mined or both are refined, unless no
transaction succeeds. -/
structure SamePay (P : Primitives) (node : OpolysNode) (call call' : Call) : Prop where
  earned : node.earned P call.block.header = node.earned P call'.block.header
  fees : call.block.header.productionKind = call'.block.header.productionKind ∨
    executedIn P node call = []

namespace Accepted

variable {env env' : Env} {block : Block} {powProof refinerSignature : Option (List UInt8)}
  {node node1 node2 : OpolysNode} {st st' : Stages}

/-- Before the evidence proofs play no part. -/
theorem finalized_eq_of_twin (h : Accepted P env block node node1 st)
    (h' : Accepted P env' (block.withProofs powProof refinerSignature) node node2 st') :
    st'.finalized = st.finalized ∧ st'.slashing = st.slashing := by
  have hsame : processAttestations P (block.withProofs powProof refinerSignature) node =
      processAttestations P block node := rfl
  have hfinalized : st'.finalized = st.finalized := by
    have hrun := h'.attest_run
    rw [hsame, h.attest_run] at hrun
    exact (EStateM.Result.ok.inj hrun).2.symm
  refine ⟨hfinalized, ?_⟩
  rw [h'.slashing_eq, h.slashing_eq, hfinalized]
  rfl

/-- Blocks that earn the same open alike. -/
theorem opened_alike_of_twin (h : Accepted P env block node node1 st)
    (h' : Accepted P env' (block.withProofs powProof refinerSignature) node node2 st')
    (hearned : node.earned P block.header =
      node.earned P (block.withProofs powProof refinerSignature).header) :
    st'.opening.reward = st.opening.reward ∧ st.opened.Alike False st'.opened := by
  obtain ⟨hfinalized, hslashing⟩ := h.finalized_eq_of_twin h'
  have hreward : st'.opening.reward = st.opening.reward := by
    rw [h'.reward_of_earned, h.reward_of_earned, hearned]
    rfl
  have haccounts : st'.opened.accounts = st.opened.accounts := by
    have hcredit := h'.reward_credit
    rw [hreward, hfinalized] at hcredit
    exact Except.ok.inj (hcredit.symm.trans h.reward_credit)
  refine ⟨hreward, ⟨⟨st'.opened.chain.producerSignatures, st.opened.chain.mintLedger, ?_⟩,
    haccounts, ?_, nofun, nofun⟩⟩
  · rw [h'.opened_eq, h.opened_eq, hfinalized, hslashing]
    rfl
  · rw [h'.opened_eq, h.opened_eq, hslashing]
    exact RefinerSet.Alike.refl _

/-- And they execute alike. -/
theorem executed_alike_of_twin (h : Accepted P env block node node1 st)
    (h' : Accepted P env' (block.withProofs powProof refinerSignature) node node2 st')
    (halike : st.opened.Alike False st'.opened) :
    st.tally = st'.tally ∧ st.executed.Alike False st'.executed :=
  (foldlM_executeTransaction_alike halike block.header powProof refinerSignature {}
    block.transactions).ok h.execute h'.execute

/-- The fees of a block in which nothing succeeds are nothing. -/
theorem totalTransactionFees_eq_zero_iff (h : Accepted P env block node node1 st) :
    st.tally.totalTransactionFees = 0 ↔ executedIn P node ⟨env, block⟩ = [] := by
  have hsum := totalTransactionFees_eq h.execute
  have hexecuted : executedIn P node ⟨env, block⟩ = (executedFrom P
      (executionContext block.header st.opened.chain) block.transactions st.opened.ledger).1 := by
    unfold executedIn
    dsimp only
    rw [h.opening_run]
  rw [← hexecuted] at hsum
  have hpos : ∀ tx ∈ executedIn P node ⟨env, block⟩, 1 ≤ tx.fee.toNat := by
    rw [hexecuted]
    exact fun tx => minFee_le_of_executed
  rw [← UInt64.toNat_inj, hsum]
  change 0 + _ = 0 ↔ _
  rw [Nat.zero_add]
  cases hlist : executedIn P node ⟨env, block⟩ with
  | nil => exact iff_of_true rfl rfl
  | cons tx txs =>
    have hone := hpos tx (hlist ▸ List.mem_cons_self)
    rw [List.map_cons, List.sum_cons]
    exact iff_of_false (by omega) nofun

/-- Blocks of one kind route their fees alike. -/
theorem routeFees_eq_of_twin (h : Accepted P env block node node1 st)
    (h' : Accepted P env' (block.withProofs powProof refinerSignature) node node2 st')
    (hkind : st'.kind = st.kind) (fees : FlakeAmount) :
    routeFees st'.opening fees = routeFees st.opening fees := by
  have hmarket : st'.opening.porFeeMarket = st.opening.porFeeMarket := by
    rw [h'.porFeeMarket, h.porFeeMarket, hkind, (h.finalized_eq_of_twin h').1]
  unfold routeFees
  rw [h'.opening_kind, h.opening_kind, hkind, hmarket]

/-- Of two blocks of different kinds exactly one is refined. -/
theorem refined_of_twin (h : Accepted P env block node node1 st)
    (h' : Accepted P env' (block.withProofs powProof refinerSignature) node node2 st')
    (hkind : st'.kind ≠ st.kind) :
    st.kind = .refined ∧ st'.kind ≠ .refined ∨ st.kind ≠ .refined ∧ st'.kind = .refined := by
  have hgenesis := genesis_iff_of_productionKind h.productionKind
  have hgenesis' := genesis_iff_of_productionKind h'.productionKind
  change st'.kind = .genesis ↔ block.header.height = 0 at hgenesis'
  rw [← hgenesis] at hgenesis'
  generalize st.kind = kind at hkind hgenesis' ⊢
  generalize st'.kind = kind' at hkind hgenesis' ⊢
  cases kind <;> cases kind' <;> simp at hkind hgenesis' ⊢

/-- Where the fees of a refined block burn completely there are none. -/
theorem fees_eq_zero (h : Accepted P env block node node1 st) (hkind : st.kind = .refined)
    {fees : FlakeAmount} (hburned : (routeFees st.opening fees).ordinaryFeesBurned = fees) :
    fees = 0 := by
  by_contra hne
  have hpos : 0 < fees.toNat := by
    have hnat : fees.toNat ≠ (0 : UInt64).toNat := mt UInt64.toNat_inj.mp hne
    rw [UInt64.toNat_zero] at hnat
    omega
  have hmarket := h.porFeeMarket
  rw [if_pos hkind] at hmarket
  unfold routeFees at hburned
  rw [h.opening_kind, if_pos hkind, hmarket, Option.getD_some] at hburned
  have hlt := computePorFeeSplit_lt hpos st.finalized.refiners.totalActiveRefiners
    (RefinerSet.activeRefinerLimit_pos st.finalized.chain.totalIssued)
  rw [show (computePorFeeSplit fees _ _).1 = fees from hburned] at hlt
  omega

/-- What the chain has burned after a block. -/
theorem totalBurned_eq (h : Accepted P env block node node1 st) :
    node1.chain.totalBurned.toNat =
      st.slashing.totalBurned.toNat + burnedAtClose st.opening st.tally := by
  have hexecuted : st.executed.chain.totalBurned = st.slashing.totalBurned := by
    rw [h.executed_eq, h.opened_eq]
  rw [h.chain_eq, ← hexecuted]
  exact h.settled_burned

end Accepted

/-- Two blocks of one hash and one body leave the same state when they pay the same, and, as
long as the supply has room, only then. -/
theorem same_transition_iff {node : OpolysNode} {call call' : Call}
    (haccept : node.accepts P call = true) (haccept' : node.accepts P call' = true)
    (hbody : call.block.SameBody call'.block)
    (hhash : computeBlockHash P call.block.header = computeBlockHash P call'.block.header)
    (hfree : CollisionFree P.blake3
      {blockHashMessage call.block.header, blockHashMessage call'.block.header}) :
    (SamePay P node call call' → (node.step P call).SameState (node.step P call')) ∧
      (SupplyRoom P node call → SupplyRoom P node call' →
        (node.step P call).SameState (node.step P call') → SamePay P node call call') := by
  obtain ⟨env, block⟩ := call
  obtain ⟨env', block'⟩ := call'
  have htwin := hbody.eq_withProofs hfree hhash
  dsimp only at htwin
  clear hbody hhash hfree
  generalize block'.header.powProof = powProof at htwin
  generalize block'.header.refinerSignature = refinerSignature at htwin
  subst htwin
  obtain ⟨st, hst⟩ := OpolysNode.accepted_of_accepts haccept
  obtain ⟨st', hst'⟩ := OpolysNode.accepted_of_accepts haccept'
  obtain ⟨hash, hrun⟩ := OpolysNode.applyBlock_of_accepts haccept
  obtain ⟨hash', hrun'⟩ := OpolysNode.applyBlock_of_accepts haccept'
  dsimp only at hst hst' hrun hrun'
  have hkinds : block.header.productionKind =
      (block.withProofs powProof refinerSignature).header.productionKind ↔ st'.kind = st.kind := by
    rw [hst.productionKind, hst'.productionKind, Option.some_inj]
    exact eq_comm
  constructor
  · rintro ⟨hearned, hfees⟩
    dsimp only at hearned hfees
    obtain ⟨hreward, halike⟩ := hst.opened_alike_of_twin hst' hearned
    obtain ⟨htally, hexecuted⟩ := hst.executed_alike_of_twin hst' halike
    have hrouting : routeFees st'.opening st.tally.totalTransactionFees =
        routeFees st.opening st.tally.totalTransactionFees ∧
        ((if st'.opening.kind = .refined then
          (routeFees st'.opening st.tally.totalTransactionFees).refinerFeeIncome else 0) =
        if st.opening.kind = .refined then
          (routeFees st.opening st.tally.totalTransactionFees).refinerFeeIncome else 0) := by
      rcases hfees with hkind | hnone
      · have hkind := hkinds.mp hkind
        have hsame := hst.routeFees_eq_of_twin hst' hkind st.tally.totalTransactionFees
        rw [hsame, hst'.opening_kind, hst.opening_kind, hkind]
        exact ⟨rfl, rfl⟩
      · rw [hst.totalTransactionFees_eq_zero_iff.mpr hnone, routeFees_zero, routeFees_zero,
          ite_self, ite_self]
        exact ⟨rfl, rfl⟩
    have hclose' := hst'.close_run hrun'
    rw [← htally] at hclose'
    have hclosing : Lockstep (OpolysNode.Alike False)
        (closeBlock P env block st.opening st.tally)
        (closeBlock P env' (block.withProofs powProof refinerSignature) st'.opening st.tally)
        st.executed st'.executed :=
      closeBlock_alike hexecuted powProof refinerSignature rfl hreward st.tally
        (congrArg FeeRouting.ordinaryFeesBurned hrouting.1) hrouting.2 nofun
    exact (hclosing.ok (hst.close_run hrun) hclose').2.sameState
  · intro hroom hroom' hsame
    have hgross : st.opening.reward.grossReward = st'.opening.reward.grossReward := by
      have hissued := hsame.issued
      have hlt := hroom st.opening st.opened hst.opening_run
      have hlt' := hroom' st'.opening st'.opened hst'.opening_run
      have hopened : st.opened.chain.totalIssued = node.chain.totalIssued := by
        rw [hst.opened_eq, hst.finalized_frame]
      have hopened' : st'.opened.chain.totalIssued = node.chain.totalIssued := by
        rw [hst'.opened_eq, hst'.finalized_frame]
      rw [hopened] at hlt
      rw [hopened'] at hlt'
      rw [hst.chain_eq, hst'.chain_eq] at hissued
      dsimp only at hissued
      rw [← UInt64.toNat_inj, MachineInt.toNat_saturatingAdd, MachineInt.toNat_saturatingAdd]
        at hissued
      rw [← UInt64.toNat_inj]
      omega
    have hearned : node.earned P block.header =
        node.earned P (block.withProofs powProof refinerSignature).header := by
      rw [hst.reward_of_earned, hst'.reward_of_earned, grossReward_computeRewardDistribution,
        grossReward_computeRewardDistribution] at hgross
      exact hgross
    refine ⟨hearned, ?_⟩
    dsimp only
    obtain ⟨hreward, halike⟩ := hst.opened_alike_of_twin hst' hearned
    obtain ⟨htally, -⟩ := hst.executed_alike_of_twin hst' halike
    rw [hkinds, ← hst.totalTransactionFees_eq_zero_iff]
    by_cases hkind : st'.kind = st.kind
    · exact Or.inl hkind
    refine Or.inr ?_
    have hburned : (routeFees st.opening st.tally.totalTransactionFees).ordinaryFeesBurned =
        (routeFees st'.opening st.tally.totalTransactionFees).ordinaryFeesBurned := by
      have htotal := congrArg UInt64.toNat hsame.burned
      rw [hst.totalBurned_eq, hst'.totalBurned_eq, (hst.finalized_eq_of_twin hst').2] at htotal
      unfold burnedAtClose at htotal
      rw [← htally, hreward] at htotal
      rw [← UInt64.toNat_inj]
      omega
    rcases hst.refined_of_twin hst' hkind with ⟨hrefined, hother⟩ | ⟨hother, hrefined⟩
    · have hall : (routeFees st'.opening st.tally.totalTransactionFees).ordinaryFeesBurned =
        st.tally.totalTransactionFees := routeFees_of_ne (hst'.opening_kind ▸ hother) _
      exact hst.fees_eq_zero hrefined (hburned.trans hall)
    · have hall : (routeFees st.opening st.tally.totalTransactionFees).ordinaryFeesBurned =
        st.tally.totalTransactionFees := routeFees_of_ne (hst.opening_kind ▸ hother) _
      exact hst'.fees_eq_zero hrefined (hburned.symm.trans hall)

/-- Two nonces that have found no vein. Both earn the base reward, and the states are the
same. -/
theorem same_transition_of_reference :
    let start := Reference.start (Reference.config [(1, 1000000000)]) (some 1)
    let call := Reference.call (Reference.mine start 0 {})
    let call' := Reference.call (Reference.mine start (2 ^ 50) {})
    (start.step Reference.primitives call).SameState (start.step Reference.primitives call') := by
  intro start call call'
  have haccept : start.accepts Reference.primitives call = true := by decide +kernel
  have haccept' : start.accepts Reference.primitives call' = true := by decide +kernel
  refine (same_transition_iff haccept haccept' ⟨rfl, rfl, rfl, rfl⟩ rfl ?_).1
    ⟨by decide +kernel, Or.inl (by decide +kernel)⟩
  rintro _ (rfl | rfl) _ (rfl | rfl) - <;> rfl

/-- Two nonces for one header. The second one has a richer vein, and the states differ. -/
theorem nonces_split_nodes :
    let start := Reference.start (Reference.config [(1, 1000000000)]) (some 1)
    let call := Reference.call (Reference.mine start 0 {})
    let call' := Reference.call (Reference.mine start 1 {})
    start.accepts Reference.primitives call = true ∧
      start.accepts Reference.primitives call' = true ∧ call.block.SameBody call'.block ∧
      computeBlockHash Reference.primitives call.block.header =
        computeBlockHash Reference.primitives call'.block.header ∧
      ¬(start.step Reference.primitives call).SameState
          (start.step Reference.primitives call') := by
  intro start call call'
  refine ⟨by decide +kernel, by decide +kernel, ⟨rfl, rfl, rfl, rfl⟩, rfl, fun hsame => ?_⟩
  have hroot := hsame.root
  revert hroot
  decide +kernel

end Opolys
