import Opolys.Node.Applied
import Opolys.Node.Produce

/-!
# What the database holds

The blocks a node has accepted form a list that is kept nowhere. `Unbroken` compares the
database with it: every height up to the stored one has the block that was accepted there,
linked by hashes from genesis to the stored tip.

A write that fails is logged and forgotten, and the next one stores the whole state on top
of what is missing. So the database stays unbroken in the runs where nothing is written
after a block that was not, and a run of two blocks is enough to break it.
-/

namespace Opolys

open Effect

variable {P : Primitives}

/-! ## The database and the accepted blocks -/

/-- The hash of the block accepted at a height, or of genesis. -/
def chainHash (P : Primitives) (genesisHash : Hash) (accepted : List Block) : ℕ → Hash
  | 0 => genesisHash
  | h + 1 => (accepted[h]?).elim Hash.zero fun block => computeBlockHash P block.header

theorem chainHash_append {genesisHash : Hash} {accepted : List Block} {h : ℕ}
    (hle : h ≤ accepted.length) (more : List Block) :
    chainHash P genesisHash (accepted ++ more) h = chainHash P genesisHash accepted h := by
  cases h with
  | zero => rfl
  | succ h =>
    rw [chainHash, chainHash, List.getElem?_append_left (by omega)]

theorem chainHash_last (genesisHash : Hash) (accepted : List Block) (block : Block) :
    chainHash P genesisHash (accepted ++ [block]) (accepted.length + 1) =
      computeBlockHash P block.header := by
  simp [chainHash]

/-- The database has every accepted block up to the height of its state, linked by hashes
from genesis to the tip of the state. -/
structure Unbroken (P : Primitives) (genesisHash : Hash) (accepted : List Block)
    (store : BlockchainStore) (state : PersistedChainState) : Prop where
  complete : ∀ h, 1 ≤ h → h ≤ state.currentHeight.toNat → ∃ block,
    store.loadBlock (UInt64.ofNat h) = some block ∧ accepted[h - 1]? = some block ∧
      block.header.previousHash = chainHash P genesisHash accepted (h - 1)
  tip : state.latestBlockHash = chainHash P genesisHash accepted state.currentHeight.toNat
  none_missing : ∀ block ∈ accepted, block.header.height.toNat ≤ state.currentHeight.toNat →
    store.loadBlock block.header.height = some block

/-- Whether the last stored block is the tip of the node. -/
def OpolysNode.tipIsStored (node : OpolysNode) : Bool :=
  match node.store with
  | some store => store.latestBlockHeight.getD 0 = node.chain.currentHeight
  | none => true

/-- If the write goes through, it goes on top of the stored blocks, at a height that does
not wrap around. -/
def WritesOnTop (node : OpolysNode) (call : Call) : Prop :=
  (call.env.writeOk = true → node.tipIsStored = true) ∧
    node.chain.currentHeight.toNat + 1 < 2 ^ 64

/-- How database, node and accepted blocks belong together, whether the last blocks are
stored or not. -/
structure Durable (P : Primitives) (genesisHash : Hash) (accepted : List Block)
    (node : OpolysNode) (store : BlockchainStore) : Prop where
  store_eq : node.store = some store
  height_le : (store.latestBlockHeight.getD 0).toNat ≤ node.chain.currentHeight.toNat
  accepted_le : ∀ block ∈ accepted, block.header.height.toNat ≤ node.chain.currentHeight.toNat
  fresh : store.chainState = none → store.latestBlockHeight = none
  unbroken : ∀ state, store.chainState = some state →
    store.latestBlockHeight = some state.currentHeight ∧
      Unbroken P genesisHash accepted store state
  in_sync : store.latestBlockHeight.getD 0 = node.chain.currentHeight →
    accepted.length = node.chain.currentHeight.toNat ∧
      node.chain.latestBlockHash = chainHash P genesisHash accepted accepted.length

theorem Unbroken.length_le {genesisHash : Hash} {accepted : List Block} {store : BlockchainStore}
    {state : PersistedChainState} (h : Unbroken P genesisHash accepted store state) :
    state.currentHeight.toNat ≤ accepted.length := by
  by_cases h0 : state.currentHeight.toNat = 0
  · omega
  · obtain ⟨block, -, hget, -⟩ := h.complete state.currentHeight.toNat (by omega) le_rfl
    have hlt := (List.getElem?_eq_some_iff.mp hget).1
    omega

/-- A block that is accepted above the stored height leaves the database unbroken. -/
theorem Unbroken.append {genesisHash : Hash} {accepted : List Block} {store : BlockchainStore}
    {state : PersistedChainState} (h : Unbroken P genesisHash accepted store state)
    {block : Block} (hnew : state.currentHeight.toNat < block.header.height.toNat) :
    Unbroken P genesisHash (accepted ++ [block]) store state where
  complete k h1 hk := by
    obtain ⟨b, hload, hget, hprevious⟩ := h.complete k h1 hk
    have hlt := (List.getElem?_eq_some_iff.mp hget).1
    refine ⟨b, hload, ?_, ?_⟩
    · rw [List.getElem?_append_left hlt, hget]
    · rw [chainHash_append (by omega), hprevious]
  tip := by rw [chainHash_append h.length_le, h.tip]
  none_missing b hb hle := by
    rcases List.mem_append.mp hb with hb | hb
    · exact h.none_missing b hb hle
    · obtain rfl := List.mem_singleton.mp hb
      omega

/-- A block that is stored on top of the stored blocks leaves the database unbroken. -/
theorem Durable.saved {genesisHash : Hash} {accepted : List Block} {node node' : OpolysNode}
    {store store' : BlockchainStore} (h : Durable P genesisHash accepted node store)
    {block : Block} (hsaved : store.Saved block node' store')
    (hsync : store.latestBlockHeight.getD 0 = node.chain.currentHeight)
    (hheight : block.header.height.toNat = node.chain.currentHeight.toNat + 1)
    (hprevious : block.header.previousHash = node.chain.latestBlockHash)
    (hheight' : node'.chain.currentHeight = block.header.height)
    (hhash' : node'.chain.latestBlockHash = computeBlockHash P block.header) :
    Unbroken P genesisHash (accepted ++ [block]) store' node'.chain.toPersisted := by
  obtain ⟨hlength, hlatest⟩ := h.in_sync hsync
  have hload (k : UInt64) : store'.loadBlock k =
      if block.header.height = k then some block else store.loadBlock k := by
    unfold BlockchainStore.loadBlock
    rw [hsaved.blocks_eq, FiniteMap.getElem?_insert']
  have hH : node'.chain.toPersisted.currentHeight.toNat = accepted.length + 1 := by
    rw [hlength, ← hheight, ← hheight']
    rfl
  refine ⟨fun k h1 hk => ?_, ?_, fun b hb hle => ?_⟩
  · rw [hH] at hk
    have hlt := block.header.height.toNat_lt
    have hofNat : (UInt64.ofNat k).toNat = k := MachineInt.toNat_ofNat_of_lt (by omega)
    rw [hload]
    by_cases hk' : k = accepted.length + 1
    · have hkey : UInt64.ofNat k = block.header.height := by
        rw [← UInt64.toNat_inj, hofNat]
        omega
      rw [if_pos hkey.symm]
      refine ⟨block, rfl, by simp [hk'], ?_⟩
      rw [hprevious, hlatest, chainHash_append (by omega), hk', Nat.add_sub_cancel]
    · have hkey : block.header.height ≠ UInt64.ofNat k := by
        intro heq
        rw [heq, hofNat] at hheight
        omega
      rw [if_neg hkey]
      cases hstate : store.chainState with
      | none =>
        have hnone := h.fresh hstate
        rw [hnone] at hsync
        have hzero := congrArg UInt64.toNat hsync
        rw [Option.getD_none, UInt64.toNat_zero] at hzero
        omega
      | some state =>
        obtain ⟨hlast, hunbroken⟩ := h.unbroken state hstate
        rw [hlast, Option.getD_some] at hsync
        obtain ⟨b, hb, hget, hprev⟩ := hunbroken.complete k h1 (by rw [hsync]; omega)
        refine ⟨b, hb, ?_, ?_⟩
        · rw [List.getElem?_append_left (by omega), hget]
        · rw [chainHash_append (by omega), hprev]
  · rw [hH, chainHash_last]
    exact hhash'
  · rw [hload]
    rcases List.mem_append.mp hb with hb | hb
    · have hble := h.accepted_le b hb
      have hne : block.header.height ≠ b.header.height := by
        intro heq
        rw [heq] at hheight
        omega
      rw [if_neg hne]
      cases hstate : store.chainState with
      | none =>
        have hnone := h.fresh hstate
        rw [hnone] at hsync
        have hzero := congrArg UInt64.toNat hsync
        rw [Option.getD_none, UInt64.toNat_zero] at hzero
        obtain rfl : accepted = [] := List.eq_nil_of_length_eq_zero (by omega)
        cases hb
      | some state =>
        obtain ⟨hlast, hunbroken⟩ := h.unbroken state hstate
        rw [hlast, Option.getD_some] at hsync
        exact hunbroken.none_missing b hb (by rw [hsync]; exact hble)
    · obtain rfl := List.mem_singleton.mp hb
      rw [if_pos rfl]

/-- A call that writes on top of the stored blocks, or does not write, keeps the database
unbroken. -/
theorem Durable.step {genesisHash : Hash} {accepted : List Block} {node : OpolysNode}
    {store : BlockchainStore} (h : Durable P genesisHash accepted node store) {call : Call}
    (hcall : WritesOnTop node call) :
    ∃ store', Durable P genesisHash
      (accepted ++ if node.accepts P call then [call.block] else []) (node.step P call) store' := by
  obtain ⟨hwrite, hwrap⟩ := hcall
  have hnext : (node.chain.currentHeight + 1).toNat = node.chain.currentHeight.toNat + 1 :=
    MachineInt.toNat_add_of_lt hwrap
  have hlatest := h.height_le
  cases haccept : node.accepts P call with
  | false =>
    rw [if_neg nofun, List.append_nil]
    obtain ⟨message, hrun⟩ := OpolysNode.rejects_eq haccept
    refine ⟨store, ?_⟩
    obtain ⟨hstore, ⟨hsame, hhash⟩ | hmoved⟩ :=
      tip_of_rejected ((applyBlock_rejects call.env call.block node).error hrun)
    · refine ⟨hstore.trans h.store_eq, ?_, ?_, h.fresh, h.unbroken, ?_⟩
      · rw [hsame]
        exact h.height_le
      · rw [hsame]
        exact h.accepted_le
      · rw [hsame, hhash]
        exact h.in_sync
    · refine ⟨hstore.trans h.store_eq, ?_, fun b hb => ?_, h.fresh, h.unbroken, fun hsync => ?_⟩
      · rw [hmoved]
        omega
      · have hle := h.accepted_le b hb
        rw [hmoved]
        omega
      · rw [hsync, hmoved] at hlatest
        omega
  | true =>
    rw [if_pos rfl]
    obtain ⟨st, hst⟩ := OpolysNode.accepted_of_accepts haccept
    obtain ⟨hheight, hprevious, -, -⟩ := checkBlock_header hst.check
    have hheightNat : call.block.header.height.toNat = node.chain.currentHeight.toNat + 1 := by
      rw [hheight, hnext]
    have hheight' : (node.step P call).chain.currentHeight = call.block.header.height := by
      rw [hst.chain_eq]
    have hhash' : (node.step P call).chain.latestBlockHash =
        computeBlockHash P call.block.header := by
      rw [hst.chain_eq]
    have hle : ∀ b ∈ accepted ++ [call.block],
        b.header.height.toNat ≤ (node.step P call).chain.currentHeight.toNat := by
      intro b hb
      rw [hheight', hheightNat]
      rcases List.mem_append.mp hb with hb | hb
      · have := h.accepted_le b hb
        omega
      · obtain rfl := List.mem_singleton.mp hb
        omega
    rcases hst.store_cases h.store_eq with hstays | ⟨hok, store', hstore', hsaved⟩
    · refine ⟨store, hstays, ?_, hle, h.fresh, fun state hstate => ?_, fun hsync => ?_⟩
      · rw [hheight', hheightNat]
        omega
      · obtain ⟨hlast, hunbroken⟩ := h.unbroken state hstate
        rw [hlast, Option.getD_some] at hlatest
        exact ⟨hlast, hunbroken.append (by omega)⟩
      · rw [hsync, hheight', hheightNat] at hlatest
        omega
    · have hsync : store.latestBlockHeight.getD 0 = node.chain.currentHeight := by
        have hstored := hwrite hok
        unfold OpolysNode.tipIsStored at hstored
        rw [h.store_eq] at hstored
        exact of_decide_eq_true hstored
      have hunbroken := h.saved hsaved hsync hheightNat hprevious hheight' hhash'
      refine ⟨store', hstore', ?_, hle, fun hnone => ?_, fun state hstate => ?_, fun _ => ?_⟩
      · rw [hsaved.latestBlockHeight_eq, Option.getD_some, hheight']
      · rw [hsaved.chainState_eq] at hnone
        cases hnone
      · rw [hsaved.chainState_eq] at hstate
        cases hstate
        exact ⟨by rw [hsaved.latestBlockHeight_eq, ← hheight']; rfl, hunbroken⟩
      · have hlength := (h.in_sync hsync).1
        rw [List.length_append, List.length_singleton, hhash', hheight', hheightNat, hlength,
          ← hlength, chainHash_last]
        exact ⟨rfl, rfl⟩

/-- Along a run of such calls the database stays unbroken. -/
theorem Durable.run {genesisHash : Hash} {accepted : List Block} {node : OpolysNode}
    {store : BlockchainStore} (h : Durable P genesisHash accepted node store) {calls : List Call}
    (hcalls : Transition.EveryStep (OpolysNode.step P) WritesOnTop node calls) :
    ∃ store', Durable P genesisHash (accepted ++ node.acceptedAlong P calls)
      (Transition.run (OpolysNode.step P) node calls) store' := by
  induction calls generalizing accepted node store with
  | nil => exact ⟨store, by rwa [OpolysNode.acceptedAlong, List.append_nil]⟩
  | cons call calls ih =>
    obtain ⟨store', hstep⟩ := h.step hcalls.1
    obtain ⟨store'', hrun⟩ := ih hstep hcalls.2
    rw [List.append_assoc] at hrun
    exact ⟨store'', hrun⟩

/-- A fresh node has stored nothing and accepted nothing. -/
theorem durable_new {config : GenesisConfig} {keyFile : Option (List UInt8)} {node : OpolysNode}
    (h : OpolysNode.new P config keyFile BlockchainStore.empty = .ok node) :
    Durable P node.chain.genesisHash [] node BlockchainStore.empty := by
  obtain ⟨accounts, hgenesis, -, -, hstore, -, -⟩ := OpolysNode.new_fresh h
  obtain ⟨-, hheight, -, -, -, -, hhash, -⟩ := OpolysNode.genesisState_chain hgenesis
  refine ⟨hstore, Nat.zero_le _, nofun, fun _ => rfl, nofun, fun _ => ⟨?_, hhash⟩⟩
  rw [hheight]
  rfl

/-- In a run where nothing is written after a block that was not, whatever chain state is
loaded comes with all its blocks. -/
theorem unbroken_of_writesOnTop {config : GenesisConfig} {keyFile : Option (List UInt8)}
    {node : OpolysNode} (h : OpolysNode.new P config keyFile BlockchainStore.empty = .ok node)
    {calls : List Call}
    (hcalls : Transition.EveryStep (OpolysNode.step P) WritesOnTop node calls)
    {store : BlockchainStore} {state : PersistedChainState}
    (hstore : (Transition.run (OpolysNode.step P) node calls).store = some store)
    (hload : store.loadChainState = .ok (some state)) :
    Unbroken P node.chain.genesisHash (node.acceptedAlong P calls) store state := by
  obtain ⟨store', hdurable⟩ := (durable_new h).run hcalls
  obtain rfl := Option.some.inj (hstore.symm.trans hdurable.store_eq)
  refine (hdurable.unbroken state ?_).2
  unfold BlockchainStore.loadChainState at hload
  split at hload <;> cases hload
  assumption

/-- A run of two blocks whose writes go through. -/
theorem unbroken_of_reference :
    let node := Reference.start (Reference.config [(1, 1000000000)]) (some 1)
    let calls := Reference.mineAll node [(0, {}), (0, {})]
    ∃ store state,
      (Transition.run (OpolysNode.step Reference.primitives) node calls).store = some store ∧
        store.loadChainState = .ok (some state) ∧
        Unbroken Reference.primitives node.chain.genesisHash
          (node.acceptedAlong Reference.primitives calls) store state := by
  intro node calls
  have hnew := Reference.new_start (Reference.config [(1, 1000000000)]) (some 1)
    (by decide +kernel)
  have hstate : ((Transition.run (OpolysNode.step Reference.primitives) node calls).store.bind
      BlockchainStore.chainState).isSome = true := by decide +kernel
  obtain ⟨state, hstate⟩ := Option.isSome_iff_exists.mp hstate
  obtain ⟨store, hstore, hstate⟩ := Option.bind_eq_some_iff.mp hstate
  have hload : store.loadChainState = .ok (some state) := by
    unfold BlockchainStore.loadChainState
    rw [hstate]
  refine ⟨store, state, hstore, hload, unbroken_of_writesOnTop hnew ?_ hstore hload⟩
  refine ⟨⟨fun _ => ?_, ?_⟩, ⟨fun _ => ?_, ?_⟩, trivial⟩ <;> decide +kernel

/-- The write of the first block fails, the write of the second goes through: both are
accepted, and the database has a state of height 2 without the first block. -/
theorem gap_after_failed_write :
    let node := Reference.start (Reference.config [(1, 1000000000)]) (some 1)
    let first := Reference.call (Reference.mine node 0 {})
    let failed : Call := { first with env := { first.env with writeOk := false } }
    let node1 := node.step Reference.primitives failed
    let second := Reference.call (Reference.mine node1 0 {})
    OpolysNode.new Reference.primitives (Reference.config [(1, 1000000000)])
        (some (Reference.seed 1).bytes) BlockchainStore.empty = .ok node ∧
      node.accepts Reference.primitives failed = true ∧
      node1.accepts Reference.primitives second = true ∧
      ∃ store state, (node1.step Reference.primitives second).store = some store ∧
        store.loadChainState = .ok (some state) ∧ state.currentHeight = 2 ∧
        store.loadBlock 1 = none ∧
        ¬Unbroken Reference.primitives node.chain.genesisHash
          (node.acceptedAlong Reference.primitives [failed, second]) store state := by
  intro node first failed node1 second
  refine ⟨Reference.new_start (Reference.config [(1, 1000000000)]) (some 1) (by decide +kernel),
    by decide +kernel, by decide +kernel, ?_⟩
  have hfound : ((node1.step Reference.primitives second).store.bind fun store =>
      store.chainState.map fun state => (state.currentHeight, store.loadBlock 1)) =
        some (2, none) := by decide +kernel
  obtain ⟨store, hstore, hfound⟩ := Option.bind_eq_some_iff.mp hfound
  obtain ⟨state, hstate, hfound⟩ := Option.map_eq_some_iff.mp hfound
  obtain ⟨hheight, hmissing⟩ := Prod.mk.inj hfound
  refine ⟨store, state, hstore, ?_, hheight, hmissing, fun hunbroken => ?_⟩
  · unfold BlockchainStore.loadChainState
    rw [hstate]
  · obtain ⟨block, hload, -⟩ := hunbroken.complete 1 le_rfl (by rw [hheight]; decide)
    rw [show UInt64.ofNat 1 = 1 from rfl, hmissing] at hload
    cases hload

end Opolys
