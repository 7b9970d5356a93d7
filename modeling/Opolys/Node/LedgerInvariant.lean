import Opolys.Node.Applied

/-!
# Invariants of the ledger

A block writes accounts and refiners in few ways: it credits accounts, executes
transactions, and calls the operations of the refiner set. A property of accounts and
refiners that each of these keeps, holds after every call of `applyBlock`, whether the block
is accepted or rejected, and in every run with restarts.
-/

namespace Opolys

open Effect

variable {P : Primitives}

/-- Whether the operation moves refiners towards the active set. -/
def RefinerSet.Operation.ranks : RefinerSet.Operation → Bool
  | .activateMaturedRefiners _ => true
  | .rerankRefiners _ => true
  | _ => false

/-- A property of accounts and refiners that every write between the attestations and the
ranking keeps, outside of transactions. -/
structure KeptByFunds (I : Ledger → Prop) : Prop where
  credit : ∀ (ledger) {id amount accounts}, I ledger →
    creditOrCreateAccount ledger.accounts id amount = .ok accounts → I { ledger with accounts }
  perform : ∀ {ledger} (operation : RefinerSet.Operation), I ledger →
    operation.isInternal = true → operation.ranks = false → operation.attests = false →
      I { ledger with refiners := ledger.refiners.perform operation }

/-- A property of accounts and refiners that every write before the ranking keeps, outside
of transactions. -/
structure KeptByStages (I : Ledger → Prop) : Prop where
  credit : ∀ (ledger) {id amount accounts}, I ledger →
    creditOrCreateAccount ledger.accounts id amount = .ok accounts → I { ledger with accounts }
  perform : ∀ {ledger} (operation : RefinerSet.Operation), I ledger →
    operation.isInternal = true → operation.ranks = false →
      I { ledger with refiners := ledger.refiners.perform operation }

/-- A property of accounts and refiners that every successful transaction keeps. -/
def KeptByTransactions (P : Primitives) (I : Ledger → Prop) : Prop :=
  ∀ {ledger tx context charged ledger'}, I ledger →
    TransactionDispatcher.dispatch P tx context mainnetChainId ledger = .ok charged ledger' →
      I ledger'

/-- A property of accounts and refiners that every write outside of transactions keeps. -/
structure KeptByNode (I : Ledger → Prop) : Prop where
  credit : ∀ (ledger) {id amount accounts}, I ledger →
    creditOrCreateAccount ledger.accounts id amount = .ok accounts → I { ledger with accounts }
  perform : ∀ {ledger} (operation : RefinerSet.Operation), I ledger →
    operation.isInternal = true →
      I { ledger with refiners := ledger.refiners.perform operation }

/-- A property of accounts and refiners that every write of a block keeps. -/
structure KeptByBlocks (P : Primitives) (I : Ledger → Prop) : Prop extends KeptByNode I where
  execute : ∀ {ledger tx context charged ledger'}, I ledger →
    TransactionDispatcher.dispatch P tx context mainnetChainId ledger = .ok charged ledger' →
      I ledger'

/-- A property of accounts and refiners that holds at genesis and that every write keeps. -/
structure LedgerInvariant (P : Primitives) (config : GenesisConfig) (I : Ledger → Prop) : Prop
    extends KeptByBlocks P I where
  genesis : ∀ {chain accounts refiners},
    OpolysNode.genesisState P config = .ok (chain, accounts, refiners) → I { accounts, refiners }
  register : ∀ {ledger keyFile accounts}, I ledger →
    ensureLocalProducerAccount P ledger.accounts (OpolysNode.loadKey P keyFile).1
      (OpolysNode.loadKey P keyFile).2 = .ok accounts → I { ledger with accounts }

/-! ## One block -/

namespace KeptByFunds

variable {I : Ledger → Prop}

theorem creditProducer (hI : KeptByFunds I) {ledger : Ledger} (h : I ledger)
    {producer : ObjectId} {amount : FlakeAmount} {accounts : AccountStore}
    (hcredit : Opolys.creditProducer producer amount ledger.accounts = .ok accounts) :
    I { ledger with accounts } := by
  unfold Opolys.creditProducer at hcredit
  split at hcredit
  · obtain ⟨planned, -, hcredit⟩ := bind_eq_ok.mp hcredit
    obtain ⟨⟨⟩, -, hcredit⟩ := bind_eq_ok.mp hcredit
    exact foldlM_ok_invariant (I := fun accounts => I { ledger with accounts }) h
      (fun accounts _ _ h hone => hI.credit { ledger with accounts } h hone) hcredit
  · cases hcredit
    exact h

theorem slashStep (hI : KeptByFunds I) {accounts : AccountStore}
    {slashing : Slashing} (h : I { accounts, refiners := slashing.refiners })
    (evidence : DoubleSignEvidence) :
    I { accounts, refiners := (Opolys.slashStep P slashing evidence).refiners } := by
  have hperform := hI.perform (.slashRefiner evidence.producer) h rfl rfl rfl
  unfold RefinerSet.perform at hperform
  unfold Opolys.slashStep
  dsimp only at hperform ⊢
  split
  · exact h
  · split
    · split <;> rename_i hslash <;> rw [hslash] at hperform <;> exact hperform
    · exact h

theorem slashSteps (hI : KeptByFunds I) {accounts : AccountStore}
    {slashing : Slashing} (h : I { accounts, refiners := slashing.refiners })
    (evidence : List DoubleSignEvidence) :
    I { accounts, refiners := (evidence.foldl (Opolys.slashStep P) slashing).refiners } := by
  induction evidence generalizing slashing with
  | nil => exact h
  | cons item evidence ih => exact ih (hI.slashStep h item)

end KeptByFunds

namespace KeptByStages

variable {I : Ledger → Prop}

theorem toKeptByFunds (hI : KeptByStages I) : KeptByFunds I :=
  ⟨hI.credit, fun operation h hinternal hranks _ => hI.perform operation h hinternal hranks⟩

theorem recordCorrectAttestation (hI : KeptByStages I) {ledger : Ledger}
    (h : I ledger) {id : ObjectId} {refiners : RefinerSet}
    (hrecord : ledger.refiners.recordCorrectAttestation id = .ok refiners) :
    I { ledger with refiners } := by
  have hperform := hI.perform (.recordCorrectAttestation id) h rfl rfl
  rwa [RefinerSet.perform_recordCorrectAttestation hrecord] at hperform

theorem processAttestations (hI : KeptByStages I) (block : Block)
    {node : OpolysNode} (h : I node.ledger) :
    Ends (Opolys.processAttestations P block) node (fun _ node' => I node'.ledger)
      (fun _ node' => I node'.ledger) := by
  unfold Opolys.processAttestations
  refine Ends.get_bind (Ends.bind (R := fun _ node' => I node'.ledger) ?_ ?_)
  · refine Ends.foldlM h fun log node attestation _ h => ?_
    unfold processAttestation
    refine Ends.ensure_bind (fun _ => h) fun _ => Ends.ensure_bind (fun _ => h) fun _ => ?_
    refine Ends.get_bind (Ends.require_bind (fun _ => h) fun store _ => ?_)
    refine Ends.require_bind (fun _ => h) fun attested _ => Ends.ensure_bind (fun _ => h) ?_
    intro _
    refine Ends.get_bind (Ends.ofExcept_bind (fun _ _ => h) fun _ _ => ?_)
    refine Ends.modify_bind (Ends.get_bind (Ends.ofExcept_bind (fun _ _ => h) ?_))
    exact fun refiners hrecord =>
      Ends.modify_bind (Ends.pure (hI.recordCorrectAttestation h hrecord))
  · exact fun log node h => Ends.modify_bind (Ends.pure h)

theorem beginBlock (hI : KeptByStages I) (kind : BlockProductionKind)
    (bondedStake : FlakeAmount) (block : Block) {node : OpolysNode} (h : I node.ledger) :
    Ends (Opolys.beginBlock P kind bondedStake block) node (fun _ node' => I node'.ledger)
      (fun _ node' => I node'.ledger) := by
  unfold Opolys.beginBlock processSlashEvidence
  refine Ends.get_bind (Ends.bind (R := fun _ node' => I node'.ledger) ?_ ?_)
  · exact Ends.get_bind
      (Ends.set_bind (Ends.pure (hI.toKeptByFunds.slashSteps h block.slashEvidence)))
  intro slashedBurned node1 h1
  refine Ends.bind (R := fun _ node' => I node'.ledger) ?_ fun newEvidence node2 h2 => ?_
  · refine (detectDoubleSign_frame block.header node1).mono (fun _ node2 hframe => ?_) fun _ _ h =>
      h.elim
    rw [hframe]
    exact h1
  refine Ends.get_bind ?_
  generalize blockReward P kind block.header node2.chain bondedStake = parts
  obtain ⟨veinYieldMilli, reward⟩ := parts
  refine Ends.get_bind (Ends.ofExcept_bind (fun _ _ => h2) fun accounts hcredit => ?_)
  exact Ends.modify_bind (Ends.pure (hI.toKeptByFunds.creditProducer h2 hcredit))

/-- Burning counts, it moves nothing. -/
theorem burn_ledger (I : Ledger → Prop) {amount : FlakeAmount} {message : String}
    {node : OpolysNode} (h : I node.ledger) :
    Ends (burn amount message) node (fun _ node' => I node'.ledger)
      (fun _ node' => I node'.ledger) := by
  unfold burn
  exact Ends.get_bind (Ends.require_bind (fun _ => h) fun _ _ => Ends.modify_bind (Ends.pure h))

theorem settleFees (hI : KeptByStages I) (env : Env) (header : BlockHeader)
    (opening : Opening) (tally : TxTally) (routing : FeeRouting) {node : OpolysNode}
    (h : I node.ledger) :
    Ends (Opolys.settleFees env header opening tally routing) node (fun _ node' => I node'.ledger)
      (fun _ node' => I node'.ledger) := by
  unfold Opolys.settleFees
  dsimp only
  have hevict : I (evictAtEpochEnd env header node).ledger := by
    rw [evictAtEpochEnd_frame]
    exact h
  refine Ends.modify_bind (Ends.get_bind (Ends.ofExcept_bind (fun _ _ => hevict) ?_))
  intro accounts hcredit
  refine Ends.modify_bind (Ends.bind (burn_ledger I ?_) fun _ node1 h1 => burn_ledger I h1)
  exact hI.toKeptByFunds.creditProducer hevict hcredit

/-- Moving the tip touches no account. -/
theorem updateChain_ledger (I : Ledger → Prop) {header : BlockHeader} {opening : Opening}
    {tally : TxTally} {blockHash : Hash} {node : OpolysNode} (h : I node.ledger) :
    Ends (updateChain header opening tally blockHash) node (fun _ node' => I node'.ledger)
      (fun _ node' => I node'.ledger) := by
  unfold updateChain
  refine Ends.get_bind (Ends.modify_bind (Ends.bind (burn_ledger I h) fun _ node' h' => ?_))
  exact Ends.modify_bind (Ends.pure h')

theorem payMaturedUnbonds (hI : KeptByStages I) {node : OpolysNode}
    (h : I node.ledger) :
    Ends Opolys.payMaturedUnbonds node (fun _ node' => I node'.ledger)
      (fun _ node' => I node'.ledger) := by
  unfold Opolys.payMaturedUnbonds
  refine Ends.get_bind (Ends.get_bind (Ends.ofExcept_bind (fun _ _ => h) fun planned _ => ?_))
  refine Ends.get_bind (Ends.ofExcept_bind (fun _ _ => h) fun _ _ => ?_)
  have hprocessed := hI.perform (.processMaturedUnbonds node.chain.currentHeight) h rfl rfl
  refine Ends.get_bind (Ends.modify_bind (Ends.foldlM hprocessed ?_))
  intro _ node1 entry _ h1
  refine Ends.get_bind (Ends.ofExcept_bind (fun _ _ => h1) fun accounts hcredit => ?_)
  exact Ends.modify_bind (Ends.pure (hI.credit node1.ledger h1 hcredit))

end KeptByStages

theorem KeptByTransactions.executeTransactions {I : Ledger → Prop} (hI : KeptByTransactions P I)
    (block : Block) {node : OpolysNode} (h : I node.ledger) :
    Ends (Opolys.executeTransactions P block) node (fun _ node' => I node'.ledger)
      (fun _ node' => I node'.ledger) := by
  unfold Opolys.executeTransactions
  refine Ends.foldlM h fun tally node tx _ h => ?_
  unfold executeTransaction
  have hledger : I (TransactionDispatcher.applyTransaction P tx
      (executionContext block.header node.chain) mainnetChainId node.ledger).2 := by
    unfold TransactionDispatcher.applyTransaction
    split
    · rename_i charged ledger' hrun
      exact hI h hrun
    · rename_i message ledger' hrun
      obtain rfl := (TransactionDispatcher.dispatch_ends P tx _ _ node.ledger).error hrun
      exact h
  refine Ends.get_bind (Ends.modify_bind (Ends.ofExcept_bind ?_ fun _ _ => ?_))
  · exact fun _ _ => hledger
  · exact Ends.modify_bind (Ends.pure hledger)

/-- What holds after the attestations, and is kept from there on, holds when the refiners are
ranked. -/
theorem KeptByFunds.paid {I : Ledger → Prop} (hI : KeptByFunds I)
    (hexecute : KeptByTransactions P I) {env : Env} {block : Block} {node node' : OpolysNode}
    {st : Stages} (hst : Accepted P env block node node' st) (h : I st.finalized.ledger) :
    I st.paid.ledger := by
  have hslashed : I { accounts := st.finalized.accounts, refiners := st.slashing.refiners } := by
    have hinitial : I ⟨st.finalized.accounts, (initialSlashing st.finalized).refiners⟩ := h
    rw [hst.slashing_eq]
    exact hI.slashSteps hinitial block.slashEvidence
  have hopened : I st.opened.ledger := by
    rw [hst.opened_eq]
    exact hI.creditProducer hslashed hst.reward_credit
  have hexecuted := (hexecute.executeTransactions block hopened).ok hst.execute
  have hsettled : I st.settled.ledger := by
    rw [hst.settled_eq]
    exact hI.creditProducer hexecuted hst.fee_credit
  have hdrained := hI.perform (.processMaturedUnbonds block.header.height) hsettled rfl rfl rfl
  rw [hst.paid_eq]
  let drained := (st.settled.refiners.processMaturedUnbonds block.header.height).1
  exact foldlM_ok_invariant (I := fun accounts => I ⟨accounts, drained⟩) hdrained
    (fun accounts _ _ h hone => hI.credit ⟨accounts, drained⟩ h hone) hst.payout

/-- What the stages and the transactions keep holds when the refiners are ranked. -/
theorem KeptByStages.paid {I : Ledger → Prop} (hI : KeptByStages I)
    (hexecute : KeptByTransactions P I) {env : Env} {block : Block} {node node' : OpolysNode}
    {st : Stages} (hst : Accepted P env block node node' st) (h : I node.ledger) :
    I st.paid.ledger :=
  hI.toKeptByFunds.paid hexecute hst ((hI.processAttestations block h).ok hst.attest_run)

namespace KeptByNode

variable {I : Ledger → Prop}

theorem toKeptByStages (hI : KeptByNode I) : KeptByStages I :=
  ⟨hI.credit, fun operation h hinternal _ => hI.perform operation h hinternal⟩

theorem ranked (hI : KeptByNode I) {ledger : Ledger} (h : I ledger) (height : BlockHeight)
    (totalIssued : FlakeAmount) :
    I { ledger with refiners := ledger.refiners.ranked height totalIssued } := by
  have hactivated := hI.perform (.activateMaturedRefiners height) h rfl
  unfold RefinerSet.ranked
  split
  · exact hI.perform (.rerankRefiners totalIssued) hactivated rfl
  · exact hactivated

theorem rankRefiners (hI : KeptByNode I) {node : OpolysNode} (h : I node.ledger) :
    I (Opolys.rankRefiners node).ledger := by
  rw [rankRefiners_eq]
  exact hI.ranked h node.chain.currentHeight node.chain.totalIssued

/-- However a call ends, what holds before it and weakens to what its transactions leave ends as
the latter. -/
theorem applyBlock (hI : KeptByNode I) {J : Ledger → Prop} (hJ : KeptByNode J)
    (hweaken : ∀ ledger, I ledger → J ledger) (env : Env) {block : Block}
    (hexecute : ∀ {node : OpolysNode}, I node.ledger →
      Ends (Opolys.executeTransactions P block) node (fun _ node' => J node'.ledger)
        (fun _ node' => J node'.ledger)) {node : OpolysNode} (h : I node.ledger) :
    Ends (Opolys.applyBlock P env block) node (fun _ node' => J node'.ledger)
      (fun _ node' => J node'.ledger) := by
  have hstages := hJ.toKeptByStages
  unfold Opolys.applyBlock openBlock closeBlock
  refine Ends.bind (R := fun _ node' => I node'.ledger) ?_ fun opening node1 h1 => ?_
  · have hbefore := hI.toKeptByStages
    refine Ends.get_bind (Ends.get_bind (Ends.ofExcept_bind (fun _ _ => hweaken _ h) ?_))
    intro kind _
    refine Ends.bind ((hbefore.processAttestations block h).mono (fun _ _ h => h)
      fun _ _ h => hweaken _ h) fun _ node1 h1 => ?_
    refine Ends.get_bind (Ends.ofExcept_bind (fun _ _ => hweaken _ h1) fun _ _ => ?_)
    exact (hbefore.beginBlock kind _ block h1).mono (fun _ _ h => h) fun _ _ h => hweaken _ h
  refine Ends.bind (hexecute h1) fun tally node2 h2 => ?_
  dsimp only
  refine Ends.bind (hstages.settleFees env block.header opening tally _ h2) fun _ node3 h3 => ?_
  refine Ends.bind (KeptByStages.updateChain_ledger J h3) fun _ node4 h4 => ?_
  refine Ends.bind (hstages.payMaturedUnbonds h4) fun _ node5 h5 => ?_
  have hranked := hJ.rankRefiners h5
  refine Ends.modify_bind (Ends.get_bind (Ends.ofExcept_bind (fun _ _ => hranked) fun _ _ => ?_))
  refine Ends.modify_bind (Ends.modify_bind (Ends.modify_bind (Ends.pure ?_)))
  rw [persist_frame]
  exact hranked

end KeptByNode

namespace KeptByBlocks

variable {I : Ledger → Prop}

/-- However a call ends, it keeps the invariant. -/
theorem applyBlock (hI : KeptByBlocks P I) (env : Env) (block : Block)
    {node : OpolysNode} (h : I node.ledger) :
    Ends (Opolys.applyBlock P env block) node (fun _ node' => I node'.ledger)
      (fun _ node' => I node'.ledger) :=
  hI.toKeptByNode.applyBlock hI.toKeptByNode (fun _ h => h) env
    (KeptByTransactions.executeTransactions hI.execute block) h

theorem step (hI : KeptByBlocks P I) {node : OpolysNode} (h : I node.ledger)
    (call : Call) : I (node.step P call).ledger := by
  have hends := hI.applyBlock call.env call.block h
  exact OpolysNode.step_of_ends (fun node => I node.ledger) hends

end KeptByBlocks

namespace LedgerInvariant

variable {config : GenesisConfig} {I : Ledger → Prop}

/-! ## Runs with restarts -/

/-- The property holds of the node and of what its database holds. -/
def Holds (I : Ledger → Prop) (node : OpolysNode) : Prop :=
  I node.ledger ∧ ∀ store, node.store = some store → store.chainState ≠ none →
    I { accounts := store.loadAccounts, refiners := store.loadRefiners }

/-- What is saved is read back, with the active ids in order. -/
theorem saved (hI : LedgerInvariant P config I) {block : Block} {node : OpolysNode}
    {store store' : BlockchainStore} (hsaved : store.Saved block node store') (h : I node.ledger) :
    I { accounts := store'.loadAccounts, refiners := store'.loadRefiners } := by
  rw [hsaved.loadAccounts_eq, hsaved.loadRefiners_eq]
  exact hI.perform .reload h rfl

theorem holds_step (hI : LedgerInvariant P config I) {node : OpolysNode} (h : Holds I node)
    (call : Call) : Holds I (node.step P call) := by
  refine ⟨hI.step h.1 call, fun store hstore hstate => ?_⟩
  cases haccept : node.accepts P call with
  | true =>
    obtain ⟨st, hst⟩ := OpolysNode.accepted_of_accepts haccept
    cases hold : node.store with
    | none =>
      have hnone := hst.store_eq_none hold
      rw [hnone] at hstore
      cases hstore
    | some old =>
      rcases hst.store_cases hold with hsame | ⟨-, store', hstore', hsaved⟩
      · obtain rfl := Option.some.inj (hstore.symm.trans hsame)
        exact h.2 store hold hstate
      · obtain rfl := Option.some.inj (hstore.symm.trans hstore')
        exact hI.saved hsaved (hI.step h.1 call)
  | false =>
    obtain ⟨message, hrun⟩ := OpolysNode.rejects_eq haccept
    obtain ⟨hsame, -⟩ := tip_of_rejected ((applyBlock_rejects call.env call.block node).error hrun)
    exact h.2 store (hsame ▸ hstore) hstate

/-- A node that starts on such a database has the property. -/
theorem holds_new (hI : LedgerInvariant P config I) {keyFile : Option (List UInt8)}
    {store : BlockchainStore} {node : OpolysNode}
    (hnew : OpolysNode.new P config keyFile store = .ok node)
    (h : store.chainState ≠ none →
      I { accounts := store.loadAccounts, refiners := store.loadRefiners }) : Holds I node := by
  obtain ⟨hstore, accounts, hkey, hloaded⟩ := OpolysNode.new_eq_ok hnew
  have hledger : I { accounts, refiners := node.refiners } := by
    rcases hloaded with ⟨hgenesis, -⟩ | ⟨rfl, hrefiners, state, hstate, -⟩
    · exact hI.genesis hgenesis
    · rw [hrefiners]
      exact h (by rw [hstate]; nofun)
  refine ⟨hI.register hledger hkey, fun store' hstore' hstate => ?_⟩
  obtain rfl := Option.some.inj (hstore.symm.trans hstore')
  exact h hstate

theorem holds_next (hI : LedgerInvariant P config I) {node : OpolysNode} (h : Holds I node)
    (event : OpolysNode.Event) : Holds I (node.next P config event) := by
  fun_cases OpolysNode.next P config node event with
  | case1 call => exact hI.holds_step h call
  | case2 keyFile hnone => exact h
  | case3 keyFile store hstore =>
    cases hnew : OpolysNode.new P config keyFile store with
    | error message => exact h
    | ok node' => exact hI.holds_new hnew (h.2 store hstore)

/-- The invariant holds along every run from genesis, with calls that are accepted or
rejected and with restarts. -/
theorem run (hI : LedgerInvariant P config I) {keyFile : Option (List UInt8)}
    {start : OpolysNode} (hnew : OpolysNode.new P config keyFile BlockchainStore.empty = .ok start)
    (events : List OpolysNode.Event) :
    I (Transition.run (OpolysNode.next P config) start events).ledger := by
  have hstart : Holds I start := hI.holds_new hnew fun hstate => absurd rfl hstate
  clear hnew
  induction events generalizing start with
  | nil => exact hstart.1
  | cons event events ih => exact ih (hI.holds_next hstart event)

end LedgerInvariant

/-- The refiners stay well-formed. -/
theorem wellFormed_invariant (config : GenesisConfig) :
    LedgerInvariant P config fun ledger => ledger.refiners.WellFormed where
  genesis hgenesis := by
    rw [(OpolysNode.genesisState_chain hgenesis).1]
    exact RefinerSet.wellFormed_new
  register h _ := h
  credit _ _ _ _ h _ := h
  execute h hrun := by
    have hmoves := TransactionDispatcher.movesStake_of_dispatch hrun
    unfold TransactionDispatcher.MovesStake at hmoves
    split at hmoves
    · rw [hmoves]
      exact h
    · exact RefinerSet.wellFormed_bond h hmoves
    · exact RefinerSet.wellFormed_unbondAmount h hmoves
  perform operation h _ := RefinerSet.wellFormed_perform h operation

end Opolys
