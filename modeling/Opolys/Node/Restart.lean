import Opolys.Node.Agreement
import Opolys.Node.LedgerInvariant
import Opolys.Node.Progress
import Opolys.Node.Tip

/-!
# Restarting a node

A node that is written out and read back has the chain state, the accounts and the refiners
it had, but for the order of the active ids. It is alike to the node that was never stopped
and goes on as that one does.

* `restart_equivalence` : both nodes show the same of every further block.
-/

namespace Opolys

open OpolysNode (Alike)

variable {P : Primitives}

/-! ## Chain state -/

/-- What is stored of a chain state is all of it, while the timestamps fit their window. -/
theorem ChainState.fromPersisted_toPersisted {c : ChainState}
    (htimestamps : c.blockTimestamps.length ≤ 961) (hreward : 0 < c.baseReward) :
    fromPersisted c.toPersisted = c := by
  have hsignatures := FiniteMap.ofList_map_toList c.producerSignatures
    (f := fun e => (e.1.1, e.1.2, e.2.1, e.2.2))
    (g := fun e => ((e.1, e.2.1), (e.2.2.1, e.2.2.2))) fun _ => rfl
  have hattesters := FiniteMap.ofList_map_toList c.attestationFinalityRefiners
    (f := fun e => (e.1.1, e.1.2, e.2.toList))
    (g := fun e => ((e.1, e.2.1), Std.ExtTreeSet.ofList e.2.2)) fun e =>
      Prod.ext rfl (FiniteMap.setOfList_toList e.2)
  unfold fromPersisted toPersisted
  dsimp only
  rw [hsignatures, hattesters, pruneBlockTimestamps_of_le htimestamps,
    pruneBlockTimestamps_of_le htimestamps, if_pos hreward]

/-- The window is never longer than an epoch and the block before it, and neither the base
reward nor the genesis hash ever change. -/
structure Tip.Storable (P : Primitives) (config : GenesisConfig) (tip : Tip) : Prop where
  window : tip.timestamps.length ≤ 961
  baseReward_eq : tip.baseReward = config.baseReward
  genesis : ∃ chain, ChainState.new P config = .ok chain ∧ tip.genesisHash = chain.genesisHash

theorem storable_invariant {config : GenesisConfig} (hreward : 0 < config.baseReward) :
    TipInvariant P config (Tip.Storable P config) where
  genesis hgenesis := by
    obtain ⟨-, -, -, hbase, -, hlength, -⟩ := OpolysNode.genesisState_chain hgenesis
    refine ⟨?_, hbase, ?_⟩
    · rw [ChainState.tip, hlength]
      decide
    · unfold OpolysNode.genesisState at hgenesis
      obtain ⟨chain, hnew, hgenesis⟩ := Effect.bind_eq_ok.mp hgenesis
      obtain ⟨⟨accounts, issued⟩, -, hgenesis⟩ := Effect.bind_eq_ok.mp hgenesis
      obtain ⟨hchain, -⟩ := Prod.mk.inj (Except.ok.inj hgenesis)
      exact ⟨chain, hnew, by rw [← hchain]; rfl⟩
  advance header h _ := by
    refine ⟨?_, h.baseReward_eq, h.genesis⟩
    rw [Tip.advance, ChainState.length_pruneBlockTimestamps]
    exact Nat.min_le_right _ _
  restored {tip} h := by
    have hpos : tip.baseReward > 0 := by
      rw [h.baseReward_eq]
      exact hreward
    refine ⟨?_, ?_, ?_⟩
    · dsimp only [Tip.restored]
      rw [ChainState.length_pruneBlockTimestamps]
      exact Nat.min_le_right _ _
    · dsimp only [Tip.restored]
      rw [if_pos hpos]
      exact h.baseReward_eq
    · dsimp only [Tip.restored]
      exact h.genesis

/-! ## The own account -/

/-- The own account of a node with a key has some key. -/
def OpolysNode.Named (node : OpolysNode) : Prop :=
  ∀ seed, node.signingKey = some seed → node.minerId.hash.isZero = false →
    (node.accounts.keyOf node.minerId).isSome = true

/-- No block takes the key of an account away. -/
theorem keptByBlocks_named (id : ObjectId) :
    KeptByBlocks P fun ledger => (ledger.accounts.keyOf id).isSome = true where
  credit _ _ _ _ h hcredit := by
    dsimp only
    rw [keyOf_creditOrCreateAccount hcredit]
    exact h
  perform _ h _ := h
  execute h hrun := by
    rw [TransactionDispatcher.keyOf_dispatch hrun]
    split
    · rfl
    · exact h

/-- Registering the own key leaves it registered, and what is registered stays as it is. -/
theorem keyOf_ensureLocalProducerAccount {accounts accounts' : AccountStore} {minerId : ObjectId}
    {seed : Codec.FixedBytes 32} (hid : minerId.hash.isZero = false)
    (h : ensureLocalProducerAccount P accounts minerId (some seed) = .ok accounts') :
    accounts'.keyOf minerId = some (P.verifyingKey seed).bytes ∧
      ((accounts.keyOf minerId).isSome = true → accounts' = accounts) := by
  unfold ensureLocalProducerAccount at h
  dsimp only at h
  rw [if_neg (by rw [hid]; nofun)] at h
  split at h
  · cases h
  · rename_i account haccount
    have hname : account.objectId = minerId := Registry.name_of_get? haccount
    have hkey : accounts.keyOf minerId = account.publicKey := by
      rw [← AccountStore.keyOf_withAccount accounts minerId minerId,
        AccountStore.keyOf_of_get? haccount]
    split at h
    · rename_i existing hexisting
      split at h <;> cases h
      rename_i hsame
      rw [AccountStore.keyOf_withAccount, hkey, hexisting, hsame]
      refine ⟨rfl, fun _ => ?_⟩
      cases hget : accounts.get? minerId with
      | some a => exact AccountStore.withAccount_of_some hget
      | none =>
        unfold AccountStore.keyOf at hkey
        rw [hget, hexisting] at hkey
        cases hkey
    · rename_i hnone
      cases h
      refine ⟨?_, fun hsome => ?_⟩
      · rw [AccountStore.keyOf_put, if_pos hname]
      · rw [hkey, hnone] at hsome
        cases hsome

namespace OpolysNode

theorem new_identity {config : GenesisConfig} {keyFile : Option (List UInt8)}
    {store : BlockchainStore} {node : OpolysNode}
    (h : OpolysNode.new P config keyFile store = .ok node) :
    loadKey P keyFile = (node.minerId, node.signingKey) := by
  unfold OpolysNode.new at h
  dsimp only at h
  obtain ⟨loaded, -, h⟩ := Effect.bind_eq_ok.mp h
  cases loaded <;> obtain ⟨state, -, h⟩ := Effect.bind_eq_ok.mp h <;>
    obtain ⟨accounts, -, h⟩ := Effect.bind_eq_ok.mp h <;> cases h <;> rfl

theorem named_new {config : GenesisConfig} {keyFile : Option (List UInt8)}
    {store : BlockchainStore} {node : OpolysNode}
    (h : OpolysNode.new P config keyFile store = .ok node) : node.Named := by
  intro seed hseed hid
  obtain ⟨-, accounts, hkey, -⟩ := new_eq_ok h
  rw [new_identity h, hseed] at hkey
  rw [(keyOf_ensureLocalProducerAccount hid hkey).1]
  rfl

theorem named_next {config : GenesisConfig} {node : OpolysNode} (h : node.Named) (event : Event) :
    (node.next P config event).Named := by
  fun_cases OpolysNode.next P config node event with
  | case1 call =>
    obtain ⟨hid, hkey⟩ := identity_step (P := P) node call
    intro seed hseed hzero
    rw [hkey] at hseed
    rw [hid] at hzero ⊢
    exact (keptByBlocks_named node.minerId).step (h seed hseed hzero) call
  | case2 keyFile hnone => exact h
  | case3 keyFile store hstore =>
    cases hnew : OpolysNode.new P config keyFile store with
    | error message => exact h
    | ok node' => exact named_new hnew

theorem named_run {config : GenesisConfig} {node : OpolysNode} (h : node.Named)
    (events : List Event) : (Transition.run (OpolysNode.next P config) node events).Named := by
  induction events generalizing node with
  | nil => exact h
  | cons event events ih => exact ih (named_next h event)

/-! ## Restarts -/

/-- A node whose state is read back from a database. -/
def reloaded (node : OpolysNode) (store : BlockchainStore) (state : PersistedChainState) :
    OpolysNode :=
  { node with
    chain := ChainState.fromPersisted state
    accounts := store.loadAccounts
    refiners := store.loadRefiners
    mempool := Mempool.new
    store := some store
    pendingSlashEvidence := []
    pendingAttestations := ∅ }

/-- What a node shows of a block: whether it is accepted and under which hash, what it earns,
and how the chain goes on after it. -/
structure Report where
  outcome : Except String Hash
  reward : Option RewardDistribution
  stateRoot : Hash
  totalIssued : FlakeAmount
  difficulty : UInt64
  /-- The producer of a refined block that may follow. -/
  producer : Option ObjectId
  finalizedHeight : UInt64

def report (P : Primitives) (node : OpolysNode) (call : Call) : Report :=
  let node' := node.step P call
  { outcome := node.outcome P call
    reward := call.block.header.productionKind.map fun kind =>
      node.rewardOf P kind call.block.header
    stateRoot := node'.chain.stateRoot
    totalIssued := node'.chain.totalIssued
    difficulty := node'.expectedDifficulty
    producer := (node'.refiners.selectBlockProducer
      (selectionSeed node'.chain.latestBlockHash)).map RefinerInfo.objectId
    finalizedHeight := node'.chain.finalizedHeight }

theorem report_alike {a b : OpolysNode} (h : Alike True a b) (call : Call) :
    b.report P call = a.report P call ∧ Alike True (a.step P call) (b.step P call) := by
  obtain ⟨houtcome, hstep⟩ := step_alike (P := P) h call
  refine ⟨?_, hstep⟩
  unfold report expectedDifficulty rewardOf
  dsimp only
  rw [houtcome, h.chain_eq trivial, h.refiners.totalBondedStake_eq, hstep.chain_eq trivial,
    hstep.refiners.totalBondedStake_eq, hstep.refiners.selectBlockProducer_eq]

/-- Nodes that are alike show the same of every block, and of all that follow. -/
theorem trace_report_alike {a b : OpolysNode} (h : Alike True a b) (calls : List Call) :
    Transition.trace (step P) (report P) a calls =
      Transition.trace (step P) (report P) b calls := by
  refine Transition.simulation_trace (R := Alike True) (fun a b call hab => ?_) h
  obtain ⟨hreport, hstep⟩ := report_alike (P := P) hab call
  exact ⟨hreport.symm, hstep⟩

/-- A node whose state has been saved is alike to the one that is read back. -/
theorem alike_reloaded {config : GenesisConfig} {node : OpolysNode} {block : Block}
    {old store : BlockchainStore} (htip : node.chain.tip.Storable P config)
    (hreward : 0 < config.baseReward) (hrefiners : node.refiners.WellFormed)
    (hsaved : old.Saved block node store)
    (hblocks : node.store.map BlockchainStore.blocks = some store.blocks) :
    Alike True node (node.reloaded store node.chain.toPersisted) := by
  have hpos : 0 < node.chain.baseReward := by
    have hbase : node.chain.baseReward = config.baseReward := htip.baseReward_eq
    rw [hbase]
    exact hreward
  have hchain := ChainState.fromPersisted_toPersisted htip.window hpos
  refine ⟨⟨node.chain.producerSignatures, node.chain.mintLedger, hchain⟩,
    hsaved.loadAccounts_eq, ?_, fun _ => hchain, fun _ => hblocks.symm⟩
  have hload := RefinerSet.alike_loadFromRefiners hrefiners
  have hloaded : store.loadRefiners = node.refiners.perform .reload := hsaved.loadRefiners_eq
  unfold reloaded
  dsimp only
  rw [hloaded]
  exact hload

/-- A node that starts on its saved state with its own key file is the node read back. It
starts unless its account has another key by now. -/
theorem new_of_saved {config : GenesisConfig} {keyFile : Option (List UInt8)} {node : OpolysNode}
    {block : Block} {old store : BlockchainStore} (htip : node.chain.tip.Storable P config)
    (hnamed : node.Named) (hsaved : old.Saved block node store)
    (hkeyFile : loadKey P keyFile = (node.minerId, node.signingKey)) :
    (∀ restarted, OpolysNode.new P config keyFile store = .ok restarted →
        restarted = node.reloaded store node.chain.toPersisted) ∧
      ((∀ seed, node.signingKey = some seed → node.minerId.hash.isZero = false →
          node.accounts.keyOf node.minerId = some (P.verifyingKey seed).bytes) →
        OpolysNode.new P config keyFile store =
          .ok (node.reloaded store node.chain.toPersisted)) := by
  have hload : store.loadChainState = .ok (some node.chain.toPersisted) := by
    unfold BlockchainStore.loadChainState
    rw [hsaved.chainState_eq]
  obtain ⟨genesis, hgenesis, hhash⟩ := htip.genesis
  have hhash : node.chain.toPersisted.genesisHash = genesis.genesisHash := hhash
  have hstate : persistedState P config store node.chain.toPersisted =
      .ok (ChainState.fromPersisted node.chain.toPersisted, store.loadAccounts,
        store.loadRefiners) := by
    have hchainId : node.chain.toPersisted.chainId = mainnetChainId := rfl
    unfold persistedState
    rw [hgenesis, Effect.ok_bind]
    dsimp only
    rw [if_neg (not_not.mpr hchainId), if_neg (not_not.mpr hhash)]
    rfl
  have hstarts : OpolysNode.new P config keyFile store =
      (ensureLocalProducerAccount P node.accounts node.minerId node.signingKey >>= fun accounts =>
        pure { node.reloaded store node.chain.toPersisted with accounts }) := by
    unfold OpolysNode.new reloaded
    dsimp only
    rw [hload, Effect.ok_bind, hkeyFile]
    dsimp only
    rw [hstate, Effect.ok_bind]
    dsimp only
    rw [hsaved.loadAccounts_eq]
  have hsame : { node.reloaded store node.chain.toPersisted with accounts := node.accounts } =
      node.reloaded store node.chain.toPersisted := by
    unfold reloaded
    rw [hsaved.loadAccounts_eq]
  rw [hstarts]
  refine ⟨fun restarted h => ?_, fun hown => ?_⟩
  · obtain ⟨accounts, hensure, h⟩ := Effect.bind_eq_ok.mp h
    obtain rfl : accounts = node.accounts := by
      cases hseed : node.signingKey with
      | none =>
        rw [hseed] at hensure
        cases hensure
        rfl
      | some seed =>
        cases hid : node.minerId.hash.isZero with
        | true =>
          rw [hseed] at hensure
          unfold ensureLocalProducerAccount at hensure
          dsimp only at hensure
          rw [if_pos hid] at hensure
          cases hensure
          rfl
        | false =>
          rw [hseed] at hensure
          exact (keyOf_ensureLocalProducerAccount hid hensure).2 (hnamed seed hseed hid)
    cases h
    exact hsame
  · have hensure : ensureLocalProducerAccount P node.accounts node.minerId node.signingKey =
        .ok node.accounts := by
      cases hseed : node.signingKey with
      | none => rfl
      | some seed =>
        unfold ensureLocalProducerAccount
        dsimp only
        split
        · rfl
        · rename_i hid
          obtain ⟨account, haccount, hkey⟩ := AccountStore.keyOf_eq_some.mp
            (hown seed hseed (Bool.eq_false_iff.mpr hid))
          have hget : node.accounts.get? node.minerId = some account := haccount
          rw [AccountStore.withAccount_of_some hget, hget]
          dsimp only
          rw [hkey]
          dsimp only
          rw [if_pos rfl]
    rw [hensure, Effect.ok_bind, hsame]
    rfl

end OpolysNode

/-- A node that has come through any run, whose state is saved and read back, goes on over
the same stored blocks as if it had never stopped. -/
theorem restart_equivalence {config : GenesisConfig} (hreward : 0 < config.baseReward)
    {keyFile : Option (List UInt8)} {start node : OpolysNode}
    (hnew : OpolysNode.new P config keyFile BlockchainStore.empty = .ok start)
    {events : List OpolysNode.Event}
    (hnode : node = Transition.run (OpolysNode.next P config) start events)
    {old store : BlockchainStore} {writeOk : Bool} {block : Block}
    {receipt : BlockEconomicReceipt}
    (hsave : old.saveAppliedBlockAtomic P writeOk block receipt node.chain.toPersisted
      node.accounts node.refiners = .ok store)
    (hblocks : node.store.map BlockchainStore.blocks = some store.blocks) :
    store.loadChainState = .ok (some node.chain.toPersisted) ∧
      (∀ keyFile' restarted, OpolysNode.loadKey P keyFile' = (node.minerId, node.signingKey) →
        OpolysNode.new P config keyFile' store = .ok restarted →
          restarted = node.reloaded store node.chain.toPersisted) ∧
      ∀ calls, Transition.trace (OpolysNode.step P) (OpolysNode.report P) node calls =
        Transition.trace (OpolysNode.step P) (OpolysNode.report P)
          (node.reloaded store node.chain.toPersisted) calls := by
  have htip : node.chain.tip.Storable P config :=
    hnode ▸ (storable_invariant hreward).run hnew events
  have hrefiners : node.refiners.WellFormed := hnode ▸ (wellFormed_invariant config).run hnew events
  have hnamed : node.Named := hnode ▸ OpolysNode.named_run (OpolysNode.named_new hnew) events
  obtain ⟨-, hsaved⟩ := BlockchainStore.saved_of_eq_ok hsave
  refine ⟨?_, fun keyFile' restarted hkeyFile h => ?_, fun calls => ?_⟩
  · unfold BlockchainStore.loadChainState
    rw [hsaved.chainState_eq]
  · exact (OpolysNode.new_of_saved htip hnamed hsaved hkeyFile).1 restarted h
  · exact OpolysNode.trace_report_alike
      (OpolysNode.alike_reloaded htip hreward hrefiners hsaved hblocks) calls

/-- A node that has mined a block goes on from its database as it would have without a stop. -/
theorem restart_equivalence_of_reference :
    let config := Reference.config [(1, 1000000)]
    let start := Reference.start config (some 1)
    let call := Reference.call (Reference.mine start 0 {})
    let node := start.next Reference.primitives config (.call call)
    ∃ store, store.loadChainState = .ok (some node.chain.toPersisted) ∧
      ∀ calls, Transition.trace (OpolysNode.step Reference.primitives)
          (OpolysNode.report Reference.primitives) node calls =
        Transition.trace (OpolysNode.step Reference.primitives)
          (OpolysNode.report Reference.primitives)
          (node.reloaded store node.chain.toPersisted) calls := by
  intro config start call node
  have hnew := Reference.new_start config (some 1) (by decide +kernel)
  have hstore : start.store = some BlockchainStore.empty := by
    obtain ⟨-, -, -, -, hstore, -⟩ := OpolysNode.new_fresh hnew
    exact hstore
  let receipt := (node.store.bind fun store => store.receipts[(1 : UInt64)]?).get
    (by decide +kernel)
  have hsave := Effect.eq_ok_getD (x := BlockchainStore.empty.saveAppliedBlockAtomic
    Reference.primitives true call.block receipt node.chain.toPersisted node.accounts node.refiners)
    (a := BlockchainStore.empty) (by decide +kernel)
  obtain ⟨-, hsaved⟩ := BlockchainStore.saved_of_eq_ok hsave
  have haccept : start.accepts Reference.primitives call = true := by decide +kernel
  obtain ⟨st, hst⟩ := OpolysNode.accepted_of_accepts haccept
  have hblocks : node.store.map BlockchainStore.blocks =
      some (BlockchainStore.empty.blocks.insert call.block.header.height call.block) := by
    rcases hst.store_cases hstore with hsame | ⟨-, store', hstore', hsaved'⟩
    · have hsome : (node.store.bind BlockchainStore.chainState).isSome = true := by decide +kernel
      have hnone : node.store = some BlockchainStore.empty := hsame
      rw [hnone] at hsome
      cases hsome
    · have hstore' : node.store = some store' := hstore'
      rw [hstore', Option.map_some, hsaved'.blocks_eq]
  rw [← hsaved.blocks_eq] at hblocks
  have hrun : node =
      Transition.run (OpolysNode.next Reference.primitives config) start [.call call] := rfl
  obtain ⟨hload, -, htrace⟩ := restart_equivalence (by decide) hnew hrun hsave hblocks
  exact ⟨_, hload, htrace⟩

end Opolys
