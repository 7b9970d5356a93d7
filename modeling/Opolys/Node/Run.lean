import Opolys.Node.ApplyBlock
import Opolys.Library.Transition

/-!
# Runs of a node

A run feeds blocks to a node, one call of `applyBlock` after the other. A call that is
rejected leaves the node as it is at that moment, so a run goes on from there.
-/

namespace Opolys

open Effect (Ends)

/-- A call of `applyBlock`. -/
structure Call where
  env : Env
  block : Block

namespace OpolysNode

variable (P : Primitives)

/-- The node after a call, whether the block was accepted or rejected. -/
def step (node : OpolysNode) (call : Call) : OpolysNode :=
  match applyBlock P call.env call.block node with
  | .ok _ node' => node'
  | .error _ node' => node'

/-- What a call returns. -/
def outcome (node : OpolysNode) (call : Call) : Except String Hash :=
  match applyBlock P call.env call.block node with
  | .ok hash _ => .ok hash
  | .error message _ => .error message

/-- Whether a call accepts its block. -/
def accepts (node : OpolysNode) (call : Call) : Bool := (node.outcome P call).isOk

/-- What a call shows of a node: the state root after its block, if that is accepted. -/
def verdict (node : OpolysNode) (call : Call) : Option Hash :=
  if node.accepts P call then some (node.step P call).chain.stateRoot else none

/-- The blocks that are accepted along a run, in order. -/
def acceptedAlong : OpolysNode → List Call → List Block
  | _, [] => []
  | node, call :: calls =>
    (if node.accepts P call then [call.block] else []) ++ acceptedAlong (node.step P call) calls

variable {P}

/-- What holds however a call ends holds of the node after it. -/
theorem step_of_ends {node : OpolysNode} {call : Call} (Inv : OpolysNode → Prop)
    (h : Ends (applyBlock P call.env call.block) node (fun _ => Inv) (fun _ => Inv)) :
    Inv (node.step P call) := by
  unfold Ends at h
  unfold step
  split <;> rename_i he <;> rw [he] at h <;> exact h

theorem outcome_eq_ok {node : OpolysNode} {call : Call} {hash : Hash} :
    node.outcome P call = .ok hash ↔
      applyBlock P call.env call.block node = .ok hash (node.step P call) := by
  unfold outcome step
  split <;> rename_i he <;> simp [he]

/-- An accepted call returns the hash of its block. -/
theorem applyBlock_of_accepts {node : OpolysNode} {call : Call}
    (h : node.accepts P call = true) :
    ∃ hash, applyBlock P call.env call.block node = .ok hash (node.step P call) := by
  unfold accepts at h
  cases hout : node.outcome P call with
  | error message =>
    rw [hout] at h
    cases h
  | ok hash => exact ⟨hash, outcome_eq_ok.mp hout⟩

/-- A rejected call returns an error. -/
theorem rejects_eq {node : OpolysNode} {call : Call} (h : node.accepts P call = false) :
    ∃ message, applyBlock P call.env call.block node = .error message (node.step P call) := by
  unfold accepts outcome at h
  unfold step
  split at h
  · cases h
  · rename_i message node' he
    rw [he]
    exact ⟨message, rfl⟩

/-- A block that cannot end well is not accepted. -/
theorem not_accepts_of_ends {node : OpolysNode} {call : Call}
    (h : Ends (applyBlock P call.env call.block) node (fun _ _ => False) (fun _ _ => True)) :
    node.accepts P call = false := by
  unfold accepts
  cases hout : node.outcome P call with
  | error message => rfl
  | ok hash => exact (h.ok (outcome_eq_ok.mp hout)).elim

/-- Two calls that run in lockstep return the same and leave related nodes. -/
theorem step_of_lockstep {R : OpolysNode → OpolysNode → Prop} {a b : OpolysNode}
    {call call' : Call}
    (h : Effect.Lockstep R (applyBlock P call.env call.block)
      (applyBlock P call'.env call'.block) a b) :
    a.outcome P call = b.outcome P call' ∧ R (a.step P call) (b.step P call') := by
  unfold Effect.Lockstep Effect.Agree at h
  unfold OpolysNode.outcome OpolysNode.step
  cases ha : applyBlock P call.env call.block a <;>
    cases hb : applyBlock P call'.env call'.block b <;> rw [ha, hb] at h
  · exact ⟨congrArg _ h.1, h.2⟩
  · exact h.elim
  · exact h.elim
  · exact ⟨congrArg _ h.1, h.2⟩

/-- A node on a fresh database starts at genesis, with the account of its own key. -/
theorem new_fresh {config : GenesisConfig} {keyFile : Option (List UInt8)} {node : OpolysNode}
    (h : OpolysNode.new P config keyFile BlockchainStore.empty = .ok node) :
    ∃ accounts, genesisState P config = .ok (node.chain, accounts, node.refiners) ∧
      ensureLocalProducerAccount P accounts (loadKey P keyFile).1 (loadKey P keyFile).2 =
        .ok node.accounts ∧
      node.mempool = Mempool.new ∧ node.store = some BlockchainStore.empty ∧
      node.pendingSlashEvidence = [] ∧ node.pendingAttestations = ∅ := by
  unfold OpolysNode.new at h
  dsimp only [BlockchainStore.loadChainState, BlockchainStore.empty] at h
  rw [Effect.ok_bind] at h
  obtain ⟨⟨chain, accounts, refiners⟩, hgenesis, h⟩ := Effect.bind_eq_ok.mp h
  obtain ⟨accounts', hkey, h⟩ := Effect.bind_eq_ok.mp h
  cases h
  exact ⟨accounts, hgenesis, hkey, rfl, rfl, rfl, rfl⟩

/-- The chain state at genesis. -/
theorem genesisState_chain {config : GenesisConfig} {chain : ChainState}
    {accounts : AccountStore} {refiners : RefinerSet}
    (h : genesisState P config = .ok (chain, accounts, refiners)) :
    refiners = RefinerSet.new ∧ chain.currentHeight = 0 ∧
      chain.currentDifficulty = config.initialDifficulty ∧
      chain.baseReward = config.baseReward ∧ chain.totalBurned = 0 ∧
      chain.blockTimestamps.length = 1 ∧ chain.latestBlockHash = chain.genesisHash ∧
      chain.producerSignatures = ∅ ∧ chain.finalizedHeight = 0 ∧
      chain.attestationFinalityRefiners = ∅ := by
  unfold genesisState at h
  obtain ⟨chain', hnew, h⟩ := Effect.bind_eq_ok.mp h
  obtain ⟨⟨accounts', issued⟩, -, h⟩ := Effect.bind_eq_ok.mp h
  obtain ⟨hchain, hrest⟩ := Prod.mk.inj (Except.ok.inj h)
  unfold ChainState.new at hnew
  split at hnew
  · cases hnew
  · cases hnew
    rw [← hchain]
    exact ⟨(Prod.mk.inj hrest).2.symm, rfl, rfl, rfl, rfl, rfl, rfl, rfl, rfl, rfl⟩

/-- Without a key the accounts are those of genesis. -/
theorem new_fresh_keyless {config : GenesisConfig} {node : OpolysNode}
    (h : OpolysNode.new P config none BlockchainStore.empty = .ok node) :
    genesisState P config = .ok (node.chain, node.accounts, node.refiners) := by
  obtain ⟨accounts, hgenesis, hkey, -⟩ := new_fresh h
  cases hkey
  exact hgenesis

/-! ## Restarts -/

/-- What happens to a node: it is called with a block, or it is stopped and started again on
its database, with the same key file or another one. -/
inductive Event where
  | call (call : Call)
  | restart (keyFile : Option (List UInt8))

/-- The node after an event. A node that cannot be started again stays as it was. -/
def next (P : Primitives) (config : GenesisConfig) (node : OpolysNode) : Event → OpolysNode
  | .call call => node.step P call
  | .restart keyFile =>
    match node.store with
    | none => node
    | some store => ((OpolysNode.new P config keyFile store).toOption).getD node

/-- A node that starts on a database takes up the state it holds, or starts at genesis. -/
theorem new_eq_ok {config : GenesisConfig} {keyFile : Option (List UInt8)}
    {store : BlockchainStore} {node : OpolysNode}
    (h : OpolysNode.new P config keyFile store = .ok node) :
    node.store = some store ∧ ∃ accounts,
      ensureLocalProducerAccount P accounts (loadKey P keyFile).1 (loadKey P keyFile).2 =
        .ok node.accounts ∧
      (genesisState P config = .ok (node.chain, accounts, node.refiners) ∧
          store.chainState = none ∨
        accounts = store.loadAccounts ∧ node.refiners = store.loadRefiners ∧
          ∃ state, store.chainState = some state ∧
            node.chain = ChainState.fromPersisted state) := by
  unfold OpolysNode.new at h
  dsimp only at h
  obtain ⟨loaded, hload, h⟩ := Effect.bind_eq_ok.mp h
  have hchain := BlockchainStore.loadChainState_eq_ok hload
  cases loaded with
  | none =>
    obtain ⟨⟨chain, accounts, refiners⟩, hstate, h⟩ := Effect.bind_eq_ok.mp h
    obtain ⟨accounts', hkey, h⟩ := Effect.bind_eq_ok.mp h
    cases h
    exact ⟨rfl, accounts, hkey, Or.inl ⟨hstate, hchain⟩⟩
  | some state =>
    obtain ⟨⟨chain, accounts, refiners⟩, hstate, h⟩ := Effect.bind_eq_ok.mp h
    obtain ⟨accounts', hkey, h⟩ := Effect.bind_eq_ok.mp h
    cases h
    refine ⟨rfl, accounts, hkey, Or.inr ?_⟩
    unfold persistedState at hstate
    obtain ⟨genesis, -, hstate⟩ := Effect.bind_eq_ok.mp hstate
    dsimp only at hstate
    split at hstate
    · cases hstate
    · split at hstate <;> cases hstate
      exact ⟨rfl, rfl, state, hchain, rfl⟩

/-- A node starts without pending transactions. -/
theorem new_mempool {config : GenesisConfig} {keyFile : Option (List UInt8)}
    {store : BlockchainStore} {node : OpolysNode}
    (h : OpolysNode.new P config keyFile store = .ok node) : node.mempool = Mempool.new := by
  unfold OpolysNode.new at h
  dsimp only at h
  obtain ⟨loaded, -, h⟩ := Effect.bind_eq_ok.mp h
  cases loaded <;> obtain ⟨state, -, h⟩ := Effect.bind_eq_ok.mp h <;>
    obtain ⟨accounts, -, h⟩ := Effect.bind_eq_ok.mp h <;> cases h <;> rfl

end OpolysNode

end Opolys
