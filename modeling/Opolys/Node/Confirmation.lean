import Opolys.Node.BodyBinding
import Opolys.Node.Refining
import Opolys.Rpc.Server

/-!
# What is reported as confirmed

Every transaction of a block that is stored is indexed by its id, whether it has been executed
or not. So the index says where a transaction was included last, and this is where it was executed
as long as no stored block holds a copy of it that fails.

* `confirmed_iff` : when what is reported as confirmed has been executed.
-/

namespace Opolys

open Std (ExtTreeMap)

/-! ## Executions along a run -/

section Journal

variable (P : Primitives)

/-- A node with the transactions that its accepted blocks have executed, and their heights. -/
structure Journal where
  node : OpolysNode
  executed : List (UInt64 × Transaction)

namespace Journal

def start (node : OpolysNode) : Journal := { node, executed := [] }

/-- What a call executes, if it accepts its block. -/
def executions (node : OpolysNode) (call : Call) : List (UInt64 × Transaction) :=
  if node.accepts P call = true then
    (executedIn P node call).map fun tx => (call.block.header.height, tx)
  else []

def step (c : Journal) (call : Call) : Journal where
  node := c.node.step P call
  executed := c.executed ++ executions P c.node call

/-- What is found under an id has been executed, at the height that is found with it. -/
def Confirmed (c : Journal) (txId : ObjectId) : Prop :=
  ∀ store, c.node.store = some store → ∀ height tx,
    store.loadTransaction txId = some (height, tx) → (height, tx) ∈ c.executed

/-- The block of a call is accepted and stored. -/
structure Stores (c : Journal) (call : Call) : Prop where
  accepts : c.node.accepts P call = true
  database : c.node.store.isSome = true
  writeOk : call.env.writeOk = true
  writable : BlockchainStore.Writable call.block (c.node.step P call)

/-- Whatever a stored block holds under an id is executed. -/
def Executes (c : Journal) (txId : ObjectId) (call : Call) : Prop :=
  Stores P c call → ∀ tx ∈ call.block.transactions, tx.txId = txId → tx ∈ executedIn P c.node call

/-- The height can be counted one further. -/
def Countable (c : Journal) (_ : Call) : Prop :=
  c.node.chain.currentHeight.toNat + 1 < 2 ^ 64

end Journal

end Journal

variable {P : Primitives}

/-! ## The index -/

namespace BlockchainStore

/-- An id that is indexed at a height, or that gets there. -/
theorem getElem?_indexed {height : UInt64} {txId : ObjectId} (entries : List (Transaction × ℕ))
    {index : ExtTreeMap ObjectId (UInt64 × UInt32)}
    (h : (∃ i, index[txId]? = some (height, i)) ∨ ∃ entry ∈ entries, entry.1.txId = txId) :
    ∃ i, (entries.foldl (fun index entry =>
      index.insert entry.1.txId (height, UInt32.ofNat entry.2)) index)[txId]? =
        some (height, i) := by
  induction entries generalizing index with
  | nil =>
    rcases h with h | ⟨entry, hmem, -⟩
    · exact h
    · cases hmem
  | cons entry entries ih =>
    refine ih ?_
    by_cases hid : entry.1.txId = txId
    · refine Or.inl ⟨UInt32.ofNat entry.2, ?_⟩
      dsimp only
      rw [hid]
      exact FiniteMap.getElem?_insert_self _ _ _
    · dsimp only
      rw [FiniteMap.getElem?_insert_of_ne _ _ hid]
      rcases h with h | ⟨other, hmem, hother⟩
      · exact Or.inl h
      · rcases List.mem_cons.mp hmem with rfl | hmem
        · exact absurd hother hid
        · exact Or.inr ⟨other, hmem, hother⟩

/-- What is found under an id is in the block it is found in. -/
theorem loadTransaction_eq_some {store : BlockchainStore} {txId : ObjectId} {height : UInt64}
    {tx : Transaction} (h : store.loadTransaction txId = some (height, tx)) :
    ∃ block, store.blocks[height]? = some block ∧ tx ∈ block.transactions ∧ tx.txId = txId := by
  unfold loadTransaction at h
  split at h
  · cases h
  split at h
  · cases h
  rename_i block hblock
  split at h
  · cases h
  rename_i found hfound
  cases h
  have hid := List.find?_some hfound
  exact ⟨block, hblock, List.mem_of_find?_eq_some hfound, of_decide_eq_true hid⟩

/-- A transaction of the last stored block is found there. -/
theorem Saved.loadTransaction {block : Block} {node : OpolysNode} {store store' : BlockchainStore}
    (h : store.Saved block node store') {tx : Transaction} (hmem : tx ∈ block.transactions)
    (hdistinct : (block.transactions.map Transaction.txId).Nodup) :
    store'.loadTransaction tx.txId = some (block.header.height, tx) := by
  obtain ⟨i, hindex⟩ : ∃ i, store'.transactions[tx.txId]? = some (block.header.height, i) := by
    rw [h.transactions_eq]
    refine getElem?_indexed _ (Or.inr ?_)
    obtain ⟨n, hn, hget⟩ := List.mem_iff_getElem.mp hmem
    exact ⟨(tx, n), List.mem_zipIdx_iff_getElem?.mpr (List.getElem?_eq_some_iff.mpr ⟨hn, hget⟩),
      rfl⟩
  have hblock : store'.loadBlock block.header.height = some block := by
    unfold loadBlock
    rw [h.blocks_eq, FiniteMap.getElem?_insert_self]
  have hfind : block.transactions.find? (fun other => other.txId = tx.txId) = some tx := by
    cases hfound : block.transactions.find? (fun other => other.txId = tx.txId) with
    | none => exact absurd (decide_eq_true rfl) (List.find?_eq_none.mp hfound tx hmem)
    | some other =>
      have hid := List.find?_some hfound
      rw [List.inj_on_of_nodup_map hdistinct (List.mem_of_find?_eq_some hfound) hmem
        (of_decide_eq_true hid)]
  unfold BlockchainStore.loadTransaction
  rw [hindex]
  dsimp only
  rw [hblock]
  dsimp only
  rw [hfind]

end BlockchainStore

/-! ## Runs -/

theorem checkBlock_limits {env : Env} {block : Block} {node : OpolysNode}
    {kind : BlockProductionKind} (h : checkBlock P env block node = .ok kind) :
    block.WithinLimits := (validateBlock_eq_ok.mp (checkBlock_validated h).1).2.1.1

namespace Journal

variable {txId : ObjectId} {c : Journal} {call : Call}

/-- Every stored transaction of an id has been executed. -/
def Recorded (c : Journal) (txId : ObjectId) : Prop :=
  ∀ store, c.node.store = some store → ∀ (height : UInt64) (block : Block),
    store.blocks[height]? = some block → ∀ tx ∈ block.transactions, tx.txId = txId →
      (height, tx) ∈ c.executed

theorem Recorded.confirmed (h : Recorded c txId) : Confirmed c txId := by
  intro store hstore height tx hload
  obtain ⟨block, hblock, hmem, hid⟩ := BlockchainStore.loadTransaction_eq_some hload
  exact h store hstore height block hblock tx hmem hid

theorem mem_executions {tx : Transaction} (haccepts : c.node.accepts P call = true)
    (h : tx ∈ executedIn P c.node call) :
    (call.block.header.height, tx) ∈ executions P c.node call := by
  unfold executions
  rw [if_pos haccepts]
  exact List.mem_map.mpr ⟨tx, h, rfl⟩

/-- A block that executes what it holds, or is not stored, leaves everything recorded. -/
theorem Recorded.step (h : Recorded c txId) (hexecutes : Executes P c txId call) :
    Recorded (c.step P call) txId := by
  intro store hstore height block hblock tx hmem hid
  change (c.node.step P call).store = some store at hstore
  refine List.mem_append.mpr ?_
  cases haccepts : c.node.accepts P call with
  | false =>
    obtain ⟨message, hrun⟩ := OpolysNode.rejects_eq haccepts
    obtain ⟨hsame, -⟩ := tip_of_rejected ((applyBlock_rejects _ _ _).error hrun)
    rw [hsame] at hstore
    exact Or.inl (h store hstore height block hblock tx hmem hid)
  | true =>
    obtain ⟨st, hst⟩ := OpolysNode.accepted_of_accepts haccepts
    cases hold : c.node.store with
    | none =>
      rw [hst.store_eq_none hold] at hstore
      cases hstore
    | some old =>
      rcases hst.store_cases hold with hsame | ⟨hwrite, store', hstore', hsaved⟩
      · rw [hsame] at hstore
        cases hstore
        exact Or.inl (h _ hold height block hblock tx hmem hid)
      · obtain rfl := Option.some.inj (hstore.symm.trans hstore')
        rw [hsaved.blocks_eq, FiniteMap.getElem?_insert'] at hblock
        split at hblock
        · rename_i hheight
          cases hblock
          have hstores : Stores P c call := ⟨haccepts, by rw [hold]; rfl, hwrite, hsaved.writable⟩
          rw [← hheight]
          exact Or.inr (mem_executions haccepts (hexecutes hstores tx hmem hid))
        · exact Or.inl (h old hold height block hblock tx hmem hid)

/-- Nothing has been executed above the tip. -/
def Below (c : Journal) : Prop :=
  ∀ entry ∈ c.executed, entry.1.toNat ≤ c.node.chain.currentHeight.toNat

theorem Countable.toNat_next (h : Countable c call) :
    (c.node.chain.currentHeight + 1).toNat = c.node.chain.currentHeight.toNat + 1 :=
  MachineInt.toNat_add_of_lt (b := 1) h

theorem Below.step (h : Below c) (hcount : Countable c call) : Below (c.step P call) := by
  intro entry hentry
  change entry.1.toNat ≤ (c.node.step P call).chain.tip.height.toNat
  have hgrows : c.node.chain.currentHeight.toNat ≤
      (c.node.step P call).chain.tip.height.toNat := by
    rcases OpolysNode.tip_step (P := P) c.node call with hsame | ⟨hheight, hmoved⟩
    · rw [hsame]
      exact le_rfl
    · rw [hmoved]
      change _ ≤ call.block.header.height.toNat
      rw [hheight, hcount.toNat_next]
      exact Nat.le_succ _
  rcases List.mem_append.mp hentry with hold | hnew
  · exact (h entry hold).trans hgrows
  · unfold executions at hnew
    split at hnew
    · rename_i haccepts
      obtain ⟨tx, -, rfl⟩ := List.mem_map.mp hnew
      obtain ⟨st, hst⟩ := OpolysNode.accepted_of_accepts haccepts
      rw [hst.tip_eq]
      exact le_rfl
    · cases hnew

/-- What is confirmed after a block has been stored was executed in it. -/
theorem executes_of_confirmed (h : Below c) (hcount : Countable c call)
    (hconfirmed : Confirmed (c.step P call) txId) : Executes P c txId call := by
  rintro ⟨haccepts, hdatabase, hwrite, hwritable⟩ tx hmem rfl
  obtain ⟨st, hst⟩ := OpolysNode.accepted_of_accepts haccepts
  obtain ⟨store, hstore⟩ := Option.isSome_iff_exists.mp hdatabase
  obtain ⟨store', hstore', hsaved⟩ := hst.saved hstore hwrite hwritable
  have hload := hsaved.loadTransaction hmem (checkBlock_limits hst.check).distinct
  have hexecuted := hconfirmed store' hstore' _ _ hload
  rcases List.mem_append.mp hexecuted with hold | hnew
  · have hbelow := h _ hold
    dsimp only at hbelow
    rw [(checkBlock_header hst.check).1, hcount.toNat_next] at hbelow
    omega
  · unfold executions at hnew
    rw [if_pos haccepts] at hnew
    obtain ⟨other, hother, hsame⟩ := List.mem_map.mp hnew
    obtain ⟨-, rfl⟩ := Prod.mk.inj hsame
    exact hother

theorem recorded_start {config : GenesisConfig} {keyFile : Option (List UInt8)}
    {node : OpolysNode}
    (hnew : OpolysNode.new P config keyFile BlockchainStore.empty = .ok node) :
    Recorded (start node) txId := by
  obtain ⟨_, _, _, _, hempty, _⟩ := OpolysNode.new_fresh hnew
  intro store hstore height block hblock
  obtain rfl := Option.some.inj (hempty.symm.trans hstore)
  unfold BlockchainStore.empty at hblock
  rw [ExtTreeMap.getElem?_empty] at hblock
  cases hblock

end Journal

open Journal

/-- In a run from genesis, whatever the database returns under an id has been executed at the
height it is returned with, at any point, if every stored block executes what it holds under
the id. As long as the height does not wrap around, it is only so then. -/
theorem confirmed_iff {config : GenesisConfig} {keyFile : Option (List UInt8)}
    {node : OpolysNode}
    (hnew : OpolysNode.new P config keyFile BlockchainStore.empty = .ok node)
    (calls : List Call) (txId : ObjectId) :
    (Transition.EveryStep (Journal.step P) (Executes P · txId) (start node) calls →
      ∀ before after, calls = before ++ after →
        Confirmed (Transition.run (Journal.step P) (start node) before) txId) ∧
    (Transition.EveryStep (Journal.step P) Countable (start node) calls →
      (∀ before after, calls = before ++ after →
        Confirmed (Transition.run (Journal.step P) (start node) before) txId) →
      Transition.EveryStep (Journal.step P) (Executes P · txId) (start node) calls) := by
  constructor
  · rintro hall before after rfl
    have hstep : ∀ (c : Journal) (call : Call), c.Recorded txId → c.Executes P txId call →
        (c.step P call).Recorded txId := fun c call h hexecutes => h.step hexecutes
    have hrecorded := Transition.invariant_run hstep (recorded_start hnew)
      (Transition.everyStep_append.mp hall).1
    exact hrecorded.confirmed
  · intro hcount hconfirmed
    refine Transition.everyStep_iff.mpr fun before call after hcalls => ?_
    have hsplit : calls = (before ++ [call]) ++ after := by
      rw [hcalls, List.append_assoc, List.singleton_append]
    rw [hcalls] at hcount
    obtain ⟨hbefore, hnext, -⟩ := Transition.everyStep_append.mp hcount
    have hstep : ∀ (c : Journal) (call : Call), Below c → Countable c call →
        Below (c.step P call) := fun c call h hcount => h.step hcount
    have hbelow : Below (Transition.run (Journal.step P) (start node) before) :=
      Transition.invariant_run hstep (fun _ h => nomatch h) hbefore
    have hlast := hconfirmed (before ++ [call]) after hsplit
    rw [Transition.run_append] at hlast
    exact executes_of_confirmed hbelow hnext hlast

/-- So what the server reports as confirmed has been executed at the height it reports. -/
theorem Journal.Confirmed.handleGetTransaction {c : Journal} {txId : ObjectId}
    (h : Confirmed c txId) {tx : Transaction} {blockHeight : UInt64}
    (hget : c.node.handleGetTransaction txId = some (tx, .confirmed blockHeight)) :
    (blockHeight, tx) ∈ c.executed := by
  unfold OpolysNode.handleGetTransaction at hget
  split at hget
  · cases hget
  split at hget
  · cases hget
  rename_i store hstore
  split at hget
  · rename_i hload
    cases hget
    exact h store hstore _ _ hload
  · cases hget

namespace Reference

/-- The id of the bond. -/
def bondId : ObjectId :=
  match bondCall.block.transactions with
  | [] => ObjectId.zero
  | tx :: _ => tx.txId

/-- A second block, with the bond of the first one. -/
def rebondCall : Call := tick 90 bondCall.block.transactions bonded

/-- What has been executed when both blocks have been applied. -/
def rebonded : Journal :=
  Transition.run (Journal.step primitives) (Journal.start founder) [bondCall, rebondCall]

end Reference

open Reference

/-- A bond that is executed and confirmed. -/
theorem confirmed_of_reference :
    Transition.EveryState (Journal.step primitives) (Confirmed · bondId) (start founder)
      [bondCall] := by
  refine Transition.everyState_iff.mpr
    ((confirmed_iff new_founder [bondCall] bondId).1 ⟨fun _ tx hmem _ => ?_, trivial⟩)
  have hall : bondCall.block.transactions.all
      (fun tx => tx ∈ executedIn primitives founder bondCall) = true := by decide +kernel
  exact of_decide_eq_true (List.all_eq_true.mp hall tx hmem)

/-- A bond that has been executed at height 1 is reported as confirmed at height 2, where it has
been included once more. -/
theorem rebond_confirmed :
    OpolysNode.new primitives bondConfig (some (seed 1).bytes) BlockchainStore.empty =
        .ok founder ∧
      founder.accepts primitives bondCall = true ∧ bonded.accepts primitives rebondCall = true ∧
      ¬∀ (txId : ObjectId) (before after : List Call), [bondCall, rebondCall] = before ++ after →
        Confirmed (Transition.run (Journal.step primitives) (start founder) before) txId := by
  refine ⟨new_founder, by decide +kernel, by decide +kernel, fun h => ?_⟩
  have hconfirmed (txId : ObjectId) : Confirmed rebonded txId :=
    h txId [bondCall, rebondCall] [] rfl
  have hreported : rebondCall.block.transactions.any (fun tx =>
      rebonded.node.handleGetTransaction tx.txId = some (tx, .confirmed 2)) = true := by
    decide +kernel
  have hexecuted : rebonded.executed.all (fun entry => entry.1 = 1) = true := by decide +kernel
  obtain ⟨tx, -, hget⟩ := List.any_eq_true.mp hreported
  have hmem := (hconfirmed tx.txId).handleGetTransaction (of_decide_eq_true hget)
  have htwo : (2 : UInt64) = 1 := of_decide_eq_true (List.all_eq_true.mp hexecuted _ hmem)
  exact absurd htwo (by decide)

end Opolys
