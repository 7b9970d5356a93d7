import Opolys.Node.Alike
import Opolys.Node.Produce
import Opolys.Node.Supply

/-!
# Agreement of nodes

Nodes that start from one genesis configuration and apply the same blocks should accept and
reject the same ones and reach the same state roots. What stands in the way is the key file:
a node writes the account of its own key into the consensus accounts before the first block.
Where two key files leave the same accounts the nodes agree forever. Where they do not, the
first block of the one node's key separates them.
-/

namespace Opolys

open Effect (Ends)
open OpolysNode (Alike)

variable {P : Primitives}

/-- Two fresh nodes of one configuration are alike when their key files have left the same
accounts. -/
theorem alike_of_new {config : GenesisConfig} {keyFile keyFile' : Option (List UInt8)}
    {node node' : OpolysNode}
    (h : OpolysNode.new P config keyFile BlockchainStore.empty = .ok node)
    (h' : OpolysNode.new P config keyFile' BlockchainStore.empty = .ok node')
    (haccounts : node'.accounts = node.accounts) : Alike True node node' := by
  obtain ⟨accounts, hgenesis, -, -, hstore, -⟩ := OpolysNode.new_fresh h
  obtain ⟨accounts', hgenesis', -, -, hstore', -⟩ := OpolysNode.new_fresh h'
  rw [hgenesis] at hgenesis'
  have hboth := Except.ok.inj hgenesis'
  have hchain : node'.chain = node.chain := (congrArg Prod.fst hboth).symm
  have hrefiners : node'.refiners = node.refiners :=
    (congrArg (fun state => state.2.2) hboth).symm
  refine ⟨⟨node.chain.producerSignatures, node.chain.mintLedger, hchain⟩, haccounts, ?_,
    fun _ => hchain, fun _ => by rw [hstore, hstore']⟩
  rw [hrefiners]
  exact RefinerSet.Alike.refl _

/-- A key that genesis has registered leaves the accounts as a node without key has them. -/
theorem accounts_eq_of_registered {config : GenesisConfig} {seed : Codec.FixedBytes 32}
    {node keyless : OpolysNode}
    (h : OpolysNode.new P config (some seed.bytes) BlockchainStore.empty = .ok node)
    (h' : OpolysNode.new P config none BlockchainStore.empty = .ok keyless)
    (hkey : (keyless.accounts.get? (ed25519PublicKeyToObjectId P (P.verifyingKey seed))).bind
      Account.publicKey = some (P.verifyingKey seed).bytes) : keyless.accounts = node.accounts := by
  obtain ⟨accounts, hgenesis, hensure, -⟩ := OpolysNode.new_fresh h
  rw [OpolysNode.new_fresh_keyless h'] at hgenesis
  obtain rfl : keyless.accounts = accounts := congrArg (fun state => state.2.1)
    (Except.ok.inj hgenesis)
  have hload : OpolysNode.loadKey P (some seed.bytes) =
      (ed25519PublicKeyToObjectId P (P.verifyingKey seed), some seed) := by
    unfold OpolysNode.loadKey
    rw [Option.bind_some, Codec.FixedBytes.ofList?_bytes]
  rw [hload] at hensure
  obtain ⟨account, haccount, hpk⟩ := Option.bind_eq_some_iff.mp hkey
  unfold ensureLocalProducerAccount at hensure
  dsimp only at hensure
  split at hensure
  · exact Except.ok.inj hensure
  · rw [AccountStore.withAccount_of_some haccount, haccount] at hensure
    dsimp only at hensure
    rw [hpk] at hensure
    dsimp only at hensure
    rw [if_pos rfl] at hensure
    exact Except.ok.inj hensure

/-- Nodes that are alike show the same of every block, and of all that follow. -/
theorem trace_verdict_alike {node node' : OpolysNode} (h : Alike True node node')
    (calls : List Call) :
    Transition.trace (OpolysNode.step P) (OpolysNode.verdict P) node calls =
      Transition.trace (OpolysNode.step P) (OpolysNode.verdict P) node' calls := by
  refine Transition.simulation_trace (R := Alike True) (fun a b call hab => ?_) h
  obtain ⟨houtcome, hstep⟩ := OpolysNode.step_alike (P := P) hab call
  refine ⟨?_, hstep⟩
  unfold OpolysNode.verdict OpolysNode.accepts
  rw [houtcome, hstep.chain_eq trivial]

/-- Two nodes of one configuration whose key files have left the same accounts accept and
reject the same blocks and reach the same state roots, over every sequence of blocks. -/
theorem nodes_agree {config : GenesisConfig} {keyFile keyFile' : Option (List UInt8)}
    {node node' : OpolysNode}
    (h : OpolysNode.new P config keyFile BlockchainStore.empty = .ok node)
    (h' : OpolysNode.new P config keyFile' BlockchainStore.empty = .ok node')
    (haccounts : node'.accounts = node.accounts) (calls : List Call) :
    Transition.trace (OpolysNode.step P) (OpolysNode.verdict P) node calls =
      Transition.trace (OpolysNode.step P) (OpolysNode.verdict P) node' calls :=
  trace_verdict_alike (alike_of_new h h' haccounts) calls

/-- A node with a key and one without agree where the key is registered at genesis. -/
theorem nodes_agree_of_reference :
    let config := Reference.config [(1, 1000000)]
    let miner := Reference.start config (some 1)
    let other := Reference.start config none
    let calls := Reference.mineAll miner [(0, {}), (1, {})]
    Transition.trace (OpolysNode.step Reference.primitives)
        (OpolysNode.verdict Reference.primitives) miner calls =
      Transition.trace (OpolysNode.step Reference.primitives)
        (OpolysNode.verdict Reference.primitives) other calls := by
  intro config miner other calls
  have hminer := Reference.new_start config (some 1) (by decide +kernel)
  have hother := Reference.new_start config none (by decide +kernel)
  refine nodes_agree hminer hother ?_ calls
  exact accounts_eq_of_registered hminer hother (by decide +kernel)

/-- A mined block is rejected where its producer has no registered key. -/
theorem rejected_of_unregistered {node : OpolysNode} {call : Call}
    (hkind : call.block.header.productionKind = some .mined) {message : String}
    (hproducer : checkMinedProducer node.accounts call.block.header.producer = .error message) :
    node.accepts P call = false := by
  refine OpolysNode.not_accepts_of_ends ?_
  unfold applyBlock openBlock
  refine Ends.bind (R := fun _ _ => False) ?_ fun _ _ h => h.elim
  refine Ends.get_bind (Ends.get_bind (Ends.ofExcept_bind (fun _ _ => trivial) fun kind hk => ?_))
  obtain ⟨hkind', -⟩ := checkBlock_eq_ok hk
  obtain rfl : kind = .mined := Option.some.inj (hkind'.symm.trans hkind)
  refine Ends.bind ((processAttestations_ends _ node).mono (fun _ _ h => h.accounts_eq)
    fun _ _ _ => trivial) fun _ node' haccounts => Ends.get_bind ?_
  refine Ends.ofExcept_bind (fun _ _ => trivial) fun _ hcheck => ?_
  unfold checkProducer at hcheck
  obtain ⟨_, -, hcheck⟩ := Effect.bind_eq_ok.mp hcheck
  dsimp only at hcheck
  rw [haccounts, hproducer] at hcheck
  cases hcheck

/-- A node that accepts a mined block is separated by it from every node where the
producer's key is not registered. -/
theorem separated_of_unregistered {node node' : OpolysNode} {call : Call}
    (haccept : node.accepts P call = true)
    (hkind : call.block.header.productionKind = some .mined) {message : String}
    (hproducer : checkMinedProducer node'.accounts call.block.header.producer = .error message) :
    node.verdict P call ≠ node'.verdict P call := by
  unfold OpolysNode.verdict
  rw [haccept, rejected_of_unregistered hkind hproducer]
  exact Option.some_ne_none _

/-- Under the default configuration the first block of a node with a key is accepted by
that node and rejected by one without a key. -/
theorem key_file_splits_nodes :
    let miner := Reference.start GenesisConfig.default (some 1)
    let other := Reference.start GenesisConfig.default none
    let call := Reference.call (Reference.mine miner 0 {})
    OpolysNode.new Reference.primitives GenesisConfig.default
        (some (Reference.seed 1).bytes) BlockchainStore.empty = .ok miner ∧
      OpolysNode.new Reference.primitives GenesisConfig.default none BlockchainStore.empty =
        .ok other ∧
      miner.accepts Reference.primitives call = true ∧
      other.accepts Reference.primitives call = false := by
  intro miner other call
  refine ⟨Reference.new_start GenesisConfig.default (some 1) (by decide +kernel),
    Reference.new_start GenesisConfig.default none (by decide +kernel), ?_, ?_⟩
  · decide +kernel
  · decide +kernel

end Opolys
