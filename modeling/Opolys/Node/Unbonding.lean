import Opolys.Consensus.Unbonding
import Opolys.Library.DelayQueue
import Opolys.Node.LedgerInvariant
import Opolys.Node.Produce
import Opolys.Node.Slashing

/-!
# What becomes of unbonded stake

A successful unbond puts its amount into the queue of withdrawals. Over a whole run the
queue is a queue with a delay: every accepted block is a round, in which first the refiners
named by genuine evidence lose what they have there, then the withdrawals of the block come
in, and last what has waited for an epoch is paid out. So every withdrawal is paid once, an
epoch after its block, or it is burned once, and restarts change nothing about it.
-/

namespace Opolys

open Effect
open DelayQueue (Round waiting released lost due Survives)
open MachineInt (saturatingAdd)

variable {P : Primitives}

/-! ## What a block does to the queue -/

/-- The withdrawal that a successful transaction of a block of a height queues. -/
def withdrawalOf (height : BlockHeight) (tx : Transaction) : Option PendingUnbond :=
  match tx.action with
  | .refinerUnbond amount =>
    some { account := tx.sender, amount, maturesAt := saturatingAdd height epoch }
  | _ => none

theorem maturesAt_of_withdrawalOf {height : BlockHeight} {tx : Transaction} {u : PendingUnbond}
    (h : withdrawalOf height tx = some u) : u.maturesAt = saturatingAdd height epoch := by
  unfold withdrawalOf at h
  split at h
  · have hmatures := congrArg PendingUnbond.maturesAt (Option.some.inj h)
    dsimp only at hmatures
    exact hmatures.symm
  · cases h

/-- The producers that the genuine items of evidence name. -/
def slashedBy (P : Primitives) (evidence : List DoubleSignEvidence) : List ObjectId :=
  (evidence.filter fun item => verifySlashEvidence P item).map DoubleSignEvidence.producer

/-- Transactions append the withdrawals of those that succeed. -/
theorem unbondingQueue_executedFrom (context : ExecutionContext) (txs : List Transaction)
    (ledger : Ledger) :
    (executedFrom P context txs ledger).2.refiners.unbondingQueue =
      ledger.refiners.unbondingQueue ++
        (executedFrom P context txs ledger).1.filterMap (withdrawalOf context.blockHeight) := by
  induction txs generalizing ledger with
  | nil => exact (List.append_nil _).symm
  | cons tx txs ih =>
    unfold executedFrom
    dsimp only
    rw [ih]
    have hcases := TransactionDispatcher.applyTransaction_cases P tx context mainnetChainId ledger
    have hmoves (hsuccess : (TransactionDispatcher.applyTransaction P tx context mainnetChainId
        ledger).1.success = true) := TransactionDispatcher.movesStake_of_success hsuccess
    generalize TransactionDispatcher.applyTransaction P tx context mainnetChainId ledger = out
      at hcases hmoves ⊢
    rcases hcases with ⟨hsuccess, -⟩ | ⟨hfail, hsame⟩
    · rw [if_pos hsuccess]
      replace hmoves := hmoves hsuccess
      unfold TransactionDispatcher.MovesStake at hmoves
      have hone : out.2.refiners.unbondingQueue = ledger.refiners.unbondingQueue ++
          (withdrawalOf context.blockHeight tx).toList := by
        unfold withdrawalOf
        cases haction : tx.action with
        | transfer recipient amount =>
          rw [haction] at hmoves
          rw [hmoves]
          exact (List.append_nil _).symm
        | refinerBond stake =>
          rw [haction] at hmoves
          rw [RefinerSet.unbondingQueue_bond hmoves]
          exact (List.append_nil _).symm
        | refinerUnbond amount =>
          rw [haction] at hmoves
          exact RefinerSet.unbondingQueue_unbondAmount hmoves
      rw [hone, List.append_assoc]
      congr 1
      cases hw : withdrawalOf context.blockHeight tx with
      | none => rw [List.filterMap_cons_none hw, Option.toList_none, List.nil_append]
      | some u => rw [List.filterMap_cons_some hw, Option.toList_some, List.singleton_append]
    · rw [if_neg (by rw [hfail]; exact Bool.false_ne_true), hsame]

/-- What the evidence of a block does to refiners and totals, however often it names one of
them: the queue loses what belongs to the slashed, and it is burned with their stake. -/
theorem foldl_slashStep_burned (evidence : List DoubleSignEvidence) {slashing : Slashing}
    (h : ∀ key ∈ slashing.processed, slashing.refiners.Spent key.1) :
    (evidence.foldl (slashStep P) slashing).refiners =
        (slashedBy P evidence).foldl RefinerSet.afterSlash slashing.refiners ∧
      (evidence.foldl (slashStep P) slashing).totalBurned.toNat =
        min (slashing.totalBurned.toNat +
          RefinerSet.stakeLost (slashedBy P evidence) slashing.refiners +
          queuedAmount (slashing.refiners.unbondingQueue.filter fun u =>
            u.account ∈ slashedBy P evidence)) (2 ^ 64 - 1) := by
  induction evidence generalizing slashing with
  | nil =>
    refine ⟨rfl, ?_⟩
    have hlt := slashing.totalBurned.toNat_lt
    have hnone : (slashing.refiners.unbondingQueue.filter fun u => u.account ∈ slashedBy P []) =
        [] := List.filter_eq_nil_iff.mpr fun u _ => by
      have hu : u.account ∉ slashedBy P [] := List.not_mem_nil
      rw [decide_eq_false hu]
      exact Bool.false_ne_true
    rw [hnone]
    change slashing.totalBurned.toNat = min (slashing.totalBurned.toNat + 0 + 0) (2 ^ 64 - 1)
    omega
  | cons item evidence ih =>
    rw [List.foldl_cons, slashStep_eq]
    by_cases hgenuine : verifySlashEvidence P item = true
    · have hids : slashedBy P (item :: evidence) = item.producer :: slashedBy P evidence := by
        unfold slashedBy
        rw [List.filter_cons_of_pos hgenuine, List.map_cons]
      rw [hids, List.foldl_cons, RefinerSet.stakeLost, queuedAmount_mem_cons,
        ← RefinerSet.unbondingQueue_afterSlash]
      by_cases hseen : (item.producer, item.height) ∈ slashing.processed
      · -- named before in this block, so nothing is left to take
        have hspent := h _ hseen
        rw [if_neg fun hnew => hnew.1 hseen, hspent.afterSlash_eq, hspent.stakeAtRisk_eq]
        obtain ⟨hrefiners, hburned⟩ := ih h
        refine ⟨hrefiners, ?_⟩
        have hnone : (slashing.refiners.unbondingQueue.filter fun u =>
            u.account = item.producer) = [] := List.filter_eq_nil_iff.mpr fun u hu => by
          rw [decide_eq_false (hspent.1 u hu)]
          exact Bool.false_ne_true
        rw [hburned, hnone, Nat.zero_add]
        change _ = min (_ + (0 + _)) _
        rw [Nat.zero_add]
      · rw [if_pos ⟨hseen, hgenuine⟩]
        let burned := slashing.refiners.slashAmount item.producer
        let slashing1 : Slashing :=
          { refiners := slashing.refiners.afterSlash item.producer
            totalBurned := saturatingAdd slashing.totalBurned burned
            slashedBurned := saturatingAdd slashing.slashedBurned burned
            processed := (item.producer, item.height) :: slashing.processed }
        have hprocessed : ∀ key ∈ slashing1.processed, slashing1.refiners.Spent key.1 := by
          intro key hkey
          rcases List.mem_cons.mp hkey with rfl | hkey
          · exact RefinerSet.spent_afterSlash _ _
          · exact (h key hkey).afterSlash item.producer
        obtain ⟨hrefiners, hburned⟩ := ih hprocessed
        refine ⟨hrefiners, ?_⟩
        have hamount := RefinerSet.toNat_slashAmount slashing.refiners item.producer
        have htotal : slashing1.totalBurned.toNat = min (slashing.totalBurned.toNat +
            burned.toNat) (2 ^ 64 - 1) := MachineInt.toNat_saturatingAdd _ _
        rw [hburned, htotal, hamount]
        dsimp only [slashing1]
        omega
    · have hids : slashedBy P (item :: evidence) = slashedBy P evidence := by
        unfold slashedBy
        rw [List.filter_cons_of_neg hgenuine]
      rw [if_neg fun hnew => hgenuine hnew.2, hids]
      exact ih h

namespace Accepted

variable {env : Env} {block : Block} {node node' : OpolysNode} {st : Stages}

/-- Attestations leave the queue alone. -/
theorem unbondingQueue_finalized (h : Accepted P env block node node' st) :
    st.finalized.refiners.unbondingQueue = node.refiners.unbondingQueue := by
  have hloop : st.attested.refiners.unbondingQueue = node.refiners.unbondingQueue := by
    refine run_foldlM_invariant (I := fun _ node' =>
      node'.refiners.unbondingQueue = node.refiners.unbondingQueue) rfl ?_ h.attest
    intro log node1 attestation log' node2 _ hnode1 hround
    obtain ⟨-, -, store, attested, -, -, -, -, refiners, hrecord, -, rfl⟩ :=
      processAttestation_eq_ok hround
    exact (RefinerSet.unbondingQueue_recordCorrectAttestation hrecord).trans hnode1
  rw [h.finalized_frame]
  exact hloop

theorem unbondingQueue_opened (h : Accepted P env block node node' st) :
    st.opened.refiners.unbondingQueue = node.refiners.unbondingQueue.filter fun u =>
      u.account ∉ slashedBy P block.slashEvidence := by
  have hspent : ∀ key ∈ (initialSlashing st.finalized).processed,
      (initialSlashing st.finalized).refiners.Spent key.1 := nofun
  have hburned := foldl_slashStep_burned (P := P) block.slashEvidence hspent
  rw [h.opened_eq]
  dsimp only
  rw [h.slashing_eq, hburned.1, RefinerSet.unbondingQueue_foldl_afterSlash,
    ← h.unbondingQueue_finalized]
  rfl

/-- What the evidence of a block burns. -/
theorem slashing_burned (h : Accepted P env block node node' st) :
    st.slashing.totalBurned.toNat = min (node.chain.totalBurned.toNat +
      RefinerSet.stakeLost (slashedBy P block.slashEvidence) st.finalized.refiners +
      queuedAmount (node.refiners.unbondingQueue.filter fun u =>
        u.account ∈ slashedBy P block.slashEvidence)) (2 ^ 64 - 1) := by
  have hspent : ∀ key ∈ (initialSlashing st.finalized).processed,
      (initialSlashing st.finalized).refiners.Spent key.1 := nofun
  have hburned := (foldl_slashStep_burned (P := P) block.slashEvidence hspent).2
  have htotal : (initialSlashing st.finalized).totalBurned = node.chain.totalBurned := by
    unfold initialSlashing
    rw [h.finalized_frame]
  rw [← h.slashing_eq, htotal] at hburned
  rw [hburned, ← h.unbondingQueue_finalized]
  rfl

/-- The transactions that succeed in a block. -/
theorem unbondingQueue_executed (h : Accepted P env block node node' st) :
    st.executed.refiners.unbondingQueue = st.opened.refiners.unbondingQueue ++
      (executedFrom P (executionContext block.header st.opened.chain) block.transactions
        st.opened.ledger).1.filterMap (withdrawalOf block.header.height) := by
  have hqueue := unbondingQueue_executedFrom (P := P)
    (executionContext block.header st.opened.chain) block.transactions st.opened.ledger
  rw [← h.executed_ledger] at hqueue
  exact hqueue

/-- Fees leave the refiners alone. -/
theorem refiners_settled (h : Accepted P env block node node' st) :
    st.settled.refiners = st.executed.refiners := by
  rw [h.settled_eq]

/-- What is left in the queue after a block. -/
theorem unbondingQueue_eq (h : Accepted P env block node node' st) :
    node'.refiners.unbondingQueue = st.executed.refiners.unbondingQueue.filter fun u =>
      ¬u.maturesAt ≤ block.header.height := by
  rw [h.refiners_eq, ← RefinerSet.unbondingQueue_processMaturedUnbonds]
  unfold RefinerSet.ranked
  split
  · rw [RefinerSet.unbondingQueue_rerankRefiners,
      RefinerSet.unbondingQueue_activateMaturedRefiners]
  · rw [RefinerSet.unbondingQueue_activateMaturedRefiners]

end Accepted

/-- Whoever withdraws in a block has not been slashed before its transactions. -/
theorem not_isSlashed_of_withdrawn {context : ExecutionContext} {txs : List Transaction}
    {ledger : Ledger} (hledger : ledger.refiners.WellFormed) {height : BlockHeight}
    {u : PendingUnbond}
    (hu : u ∈ (executedFrom P context txs ledger).1.filterMap (withdrawalOf height)) :
    ¬ledger.refiners.IsSlashed u.account := by
  induction txs generalizing ledger with
  | nil => cases hu
  | cons tx txs ih =>
    unfold executedFrom at hu
    dsimp only at hu
    unfold TransactionDispatcher.applyTransaction at hu
    cases hrun : TransactionDispatcher.dispatch P tx context mainnetChainId ledger with
    | error message ledger' =>
      rw [hrun] at hu
      dsimp only at hu
      obtain rfl := (TransactionDispatcher.dispatch_ends P tx _ _ ledger).error hrun
      exact ih hledger hu
    | ok charged ledger' =>
      rw [hrun] at hu
      dsimp only at hu
      have hmoves := TransactionDispatcher.movesStake_of_dispatch hrun
      unfold TransactionDispatcher.MovesStake at hmoves
      rintro hslashed
      rw [if_pos (by rfl), List.filterMap_cons] at hu
      cases haction : tx.action with
      | transfer recipient amount =>
        rw [haction] at hmoves
        unfold withdrawalOf at hu
        rw [haction] at hu
        dsimp only at hmoves hu
        exact ih (hmoves ▸ hledger) hu (hmoves ▸ hslashed)
      | refinerBond stake =>
        rw [haction] at hmoves
        unfold withdrawalOf at hu
        rw [haction] at hu
        exact ih (RefinerSet.wellFormed_bond hledger hmoves) hu (hslashed.bond hmoves)
      | refinerUnbond amount =>
        rw [haction] at hmoves
        have hwithdrawal : withdrawalOf height tx =
            some { account := tx.sender, amount, maturesAt := saturatingAdd height epoch } := by
          unfold withdrawalOf
          rw [haction]
        rw [hwithdrawal] at hu
        rcases List.mem_cons.mp hu with rfl | hu
        · exact RefinerSet.not_isSlashed_of_unbondAmount hledger hmoves hslashed
        · exact ih (RefinerSet.wellFormed_unbondAmount hledger hmoves) hu
            (hslashed.unbondAmount hledger hmoves)

/-! ## The log of a node -/

/-- A block that a node has accepted, with what its stages have left. -/
structure AppliedBlock where
  block : Block
  before : OpolysNode
  stages : Stages
  after : OpolysNode

namespace AppliedBlock

def height (applied : AppliedBlock) : BlockHeight := applied.block.header.height

/-- The producers named by the evidence of the block. -/
def slashed (P : Primitives) (applied : AppliedBlock) : List ObjectId :=
  slashedBy P applied.block.slashEvidence

/-- The successful withdrawals of the block. -/
def withdrawn (P : Primitives) (applied : AppliedBlock) : List PendingUnbond :=
  (executedFrom P (executionContext applied.block.header applied.stages.opened.chain)
    applied.block.transactions applied.stages.opened.ledger).1.filterMap
      (withdrawalOf applied.height)

/-- What the block credits from the queue. -/
def paid (applied : AppliedBlock) : List (ObjectId × FlakeAmount) :=
  applied.stages.settled.refiners.maturedUnbonds applied.height

/-- The block as a round of the queue. Its withdrawals wait for an epoch, or to the last
height there is. -/
def round (P : Primitives) (applied : AppliedBlock) : Round PendingUnbond ObjectId where
  cancelled := applied.slashed P
  pushed := applied.withdrawn P
  delay := min epoch.toNat (2 ^ 64 - 1 - applied.height.toNat)

end AppliedBlock

/-- The blocks of a log as rounds of the queue. -/
def rounds (P : Primitives) (log : List AppliedBlock) (i : ℕ) : Round PendingUnbond ObjectId :=
  ((log[i]?).map (AppliedBlock.round P)).getD { cancelled := [], pushed := [], delay := 0 }

/-- How a node comes about that has accepted the blocks of `log`, where `saved` are the
blocks that its database has. It starts on a fresh database, every block is written or the
write fails, and a node that starts again goes on from what was saved. -/
inductive Chronicle (P : Primitives) (config : GenesisConfig) :
    OpolysNode → List AppliedBlock → List AppliedBlock → Prop where
  | start {keyFile : Option (List UInt8)} {node : OpolysNode}
      (hnew : OpolysNode.new P config keyFile BlockchainStore.empty = .ok node) :
      Chronicle P config node [] []
  | stored {node : OpolysNode} {log saved : List AppliedBlock} {call : Call} {st : Stages}
      {store store' : BlockchainStore} (h : Chronicle P config node log saved)
      (haccept : node.accepts P call = true)
      (hst : Accepted P call.env call.block node (node.step P call) st)
      (hstore : node.store = some store) (hstore' : (node.step P call).store = some store')
      (hsaved : store.Saved call.block (node.step P call) store') :
      Chronicle P config (node.step P call)
        (log ++ [⟨call.block, node, st, node.step P call⟩])
        (log ++ [⟨call.block, node, st, node.step P call⟩])
  | unstored {node : OpolysNode} {log saved : List AppliedBlock} {call : Call} {st : Stages}
      (h : Chronicle P config node log saved)
      (haccept : node.accepts P call = true)
      (hst : Accepted P call.env call.block node (node.step P call) st)
      (hstore : (node.step P call).store = node.store) :
      Chronicle P config (node.step P call)
        (log ++ [⟨call.block, node, st, node.step P call⟩]) saved
  | restart {node node' : OpolysNode} {log saved : List AppliedBlock}
      {keyFile : Option (List UInt8)} {store : BlockchainStore}
      (h : Chronicle P config node log saved) (hstore : node.store = some store)
      (hnew : OpolysNode.new P config keyFile store = .ok node') :
      Chronicle P config node' saved saved

namespace Chronicle

variable {config : GenesisConfig} {node : OpolysNode} {log saved : List AppliedBlock}

/-- Every run of accepted blocks and restarts has its log. -/
theorem exists_of_run {keyFile : Option (List UInt8)} {start : OpolysNode}
    (hnew : OpolysNode.new P config keyFile BlockchainStore.empty = .ok start)
    {events : List OpolysNode.Event}
    (haccepted : Transition.EveryStep (OpolysNode.next P config)
      (fun node event => ∀ call, event = .call call → node.accepts P call = true) start events) :
    ∃ log saved, Chronicle P config (Transition.run (OpolysNode.next P config) start events)
      log saved := by
  have hstep (node : OpolysNode) (event : OpolysNode.Event)
      (h : ∃ log saved, Chronicle P config node log saved)
      (haccept : ∀ call, event = .call call → node.accepts P call = true) :
      ∃ log saved, Chronicle P config (node.next P config event) log saved := by
    obtain ⟨log, saved, h⟩ := h
    fun_cases OpolysNode.next P config node event with
    | case1 call =>
      have haccept := haccept call rfl
      obtain ⟨st, hst⟩ := OpolysNode.accepted_of_accepts haccept
      cases hstore : node.store with
      | none => exact ⟨_, _, .unstored h haccept hst ((hst.store_eq_none hstore).trans hstore.symm)⟩
      | some store =>
        rcases hst.store_cases hstore with hsame | ⟨-, store', hstore', hsaved⟩
        · exact ⟨_, _, .unstored h haccept hst (hsame.trans hstore.symm)⟩
        · exact ⟨_, _, .stored h haccept hst hstore hstore' hsaved⟩
    | case2 keyFile hnone => exact ⟨log, saved, h⟩
    | case3 keyFile store hstore =>
      cases hnew : OpolysNode.new P config keyFile store with
      | error message => exact ⟨log, saved, h⟩
      | ok node' => exact ⟨saved, saved, .restart h hstore hnew⟩
  exact Transition.invariant_run hstep ⟨[], [], .start hnew⟩ haccepted

/-- An invariant of the ledger holds along a log. -/
theorem holds {I : Ledger → Prop} (hI : LedgerInvariant P config I)
    (h : Chronicle P config node log saved) : LedgerInvariant.Holds I node := by
  induction h with
  | start hnew => exact hI.holds_new hnew fun hstate => absurd rfl hstate
  | stored h haccept hst hstore hstore' hsaved ih => exact hI.holds_step ih _
  | unstored h haccept hst hstore ih => exact hI.holds_step ih _
  | restart h hstore hnew ih => exact hI.holds_new hnew (ih.2 _ hstore)

end Chronicle

/-! ## The queue along a log -/

theorem rounds_append_of_lt {log : List AppliedBlock} {i : ℕ} (h : i < log.length)
    (more : List AppliedBlock) : rounds P (log ++ more) i = rounds P log i := by
  unfold rounds
  rw [List.getElem?_append_left h]

theorem rounds_of_get? {log : List AppliedBlock} {i : ℕ} {applied : AppliedBlock}
    (h : log[i]? = some applied) : rounds P log i = applied.round P := by
  unfold rounds
  rw [h]
  rfl

/-- The refiners of a node that has applied the blocks of a log, one height after the other:
their queue is what waits after these rounds. -/
structure QueueOf (P : Primitives) (log : List AppliedBlock) (queue : List PendingUnbond)
    (height : BlockHeight) : Prop where
  queue_eq : queue = waiting PendingUnbond.account (rounds P log) log.length
  height_eq : height = UInt64.ofNat log.length
  heights : ∀ i applied, log[i]? = some applied → applied.height = UInt64.ofNat (i + 1)

theorem QueueOf.nil : QueueOf P [] [] 0 := ⟨rfl, rfl, fun _ _ h => by cases h⟩

/-- A withdrawal of round `i` has matured at the height of round `n` when its time is up. -/
theorem matured_iff {i n : ℕ} (hin : i ≤ n)
    (hle : n ≤ i + min epoch.toNat (2 ^ 64 - 1 - (UInt64.ofNat (i + 1)).toNat)) :
    saturatingAdd (UInt64.ofNat (i + 1)) epoch ≤ UInt64.ofNat (n + 1) ↔
      i + min epoch.toNat (2 ^ 64 - 1 - (UInt64.ofNat (i + 1)).toNat) = n := by
  rw [UInt64.le_iff_toNat_le, MachineInt.toNat_saturatingAdd]
  rw [UInt64.toNat_ofNat', toNat_epoch] at *
  rw [UInt64.toNat_ofNat']
  omega

/-- What the rules of the queue make of a block. -/
structure SettledBlock (P : Primitives) (log : List AppliedBlock) (j : ℕ)
    (applied : AppliedBlock) : Prop where
  height_eq : applied.height = UInt64.ofNat (j + 1)
  paid_eq : applied.paid = (released PendingUnbond.account (rounds P log) j).map fun u =>
    (u.account, u.amount)
  credited : ∀ id, (applied.after.accounts.balanceOf id).toNat =
    (applied.stages.settled.accounts.balanceOf id).toNat + receivedBy id applied.paid
  burned : applied.stages.slashing.totalBurned.toNat =
    min (applied.before.chain.totalBurned.toNat +
      RefinerSet.stakeLost (applied.slashed P) applied.stages.finalized.refiners +
      queuedAmount (lost PendingUnbond.account (rounds P log) j)) (2 ^ 64 - 1)
  unslashed : ∀ u ∈ applied.withdrawn P, ¬applied.stages.opened.refiners.IsSlashed u.account

theorem SettledBlock.append {log : List AppliedBlock} {j : ℕ} {applied : AppliedBlock}
    (h : SettledBlock P log j applied) (hj : j < log.length) (more : List AppliedBlock) :
    SettledBlock P (log ++ more) j applied := by
  have hrounds : ∀ k ≤ j, rounds P (log ++ more) k = rounds P log k := fun k hk =>
    rounds_append_of_lt (by omega) more
  refine ⟨h.height_eq, ?_, h.credited, ?_, h.unslashed⟩
  · rw [DelayQueue.released_congr hrounds]
    exact h.paid_eq
  · rw [DelayQueue.lost_congr hrounds]
    exact h.burned

section Step

variable {env : Env} {block : Block} {node node' : OpolysNode} {st : Stages}
  {log : List AppliedBlock}

/-- The height of the next block. -/
theorem QueueOf.height_next
    (hq : QueueOf P log node.refiners.unbondingQueue node.chain.currentHeight)
    (hst : Accepted P env block node node' st) :
    block.header.height = UInt64.ofNat (log.length + 1) := by
  rw [(checkBlock_header hst.check).1, hq.height_eq]
  exact (UInt64.ofNat_add log.length 1).symm

theorem QueueOf.heights_append
    (hq : QueueOf P log node.refiners.unbondingQueue node.chain.currentHeight)
    (hst : Accepted P env block node node' st) (i : ℕ) (applied : AppliedBlock)
    (h : (log ++ [⟨block, node, st, node'⟩])[i]? = some applied) :
    applied.height = UInt64.ofNat (i + 1) := by
  by_cases hi : i < log.length
  · rw [List.getElem?_append_left hi] at h
    exact hq.heights i applied h
  · have hlt := (List.getElem?_eq_some_iff.mp h).1
    rw [List.length_append, List.length_singleton] at hlt
    obtain rfl : i = log.length := by omega
    rw [List.getElem?_concat_length] at h
    cases h
    exact hq.height_next hst

/-- The queue in which the payments of a block look for what has matured. -/
theorem QueueOf.filled (hq : QueueOf P log node.refiners.unbondingQueue node.chain.currentHeight)
    (hst : Accepted P env block node node' st) :
    let applied : AppliedBlock := ⟨block, node, st, node'⟩
    let rounds := rounds P (log ++ [applied])
    st.executed.refiners.unbondingQueue =
      (waiting PendingUnbond.account rounds log.length).filter
        (fun u => u.account ∉ (rounds log.length).cancelled) ++ (rounds log.length).pushed := by
  intro applied rounds'
  have hround : rounds' log.length = applied.round P :=
    rounds_of_get? List.getElem?_concat_length
  have hrounds : ∀ k < log.length, rounds' k = rounds P log k := fun k hk =>
    rounds_append_of_lt hk [applied]
  rw [hst.unbondingQueue_executed, hst.unbondingQueue_opened, hq.queue_eq, hround,
    DelayQueue.waiting_congr hrounds]
  rfl

/-- At the height of a block exactly that has matured in the queue which is due. -/
theorem QueueOf.isDue (hq : QueueOf P log node.refiners.unbondingQueue node.chain.currentHeight)
    (hst : Accepted P env block node node' st) :
    let applied : AppliedBlock := ⟨block, node, st, node'⟩
    let rounds := rounds P (log ++ [applied])
    ∀ i ≤ log.length, log.length ≤ due rounds i → ∀ u ∈ (rounds i).pushed,
      u.maturesAt ≤ block.header.height ↔ due rounds i = log.length := by
  intro applied rounds' i hi hle u hu
  have hlt : i < (log ++ [applied]).length := by
    rw [List.length_append, List.length_singleton]
    omega
  have hget : (log ++ [applied])[i]? = some (log ++ [applied])[i] := List.getElem?_eq_getElem hlt
  have hround : rounds' i = _ := rounds_of_get? hget
  have hheight := hq.heights_append hst i _ hget
  unfold due at hle ⊢
  rw [hround] at hle hu ⊢
  change log.length ≤ i + min epoch.toNat (2 ^ 64 - 1 - _) at hle
  change u.maturesAt ≤ block.header.height ↔ i + min epoch.toNat (2 ^ 64 - 1 - _) = log.length
  rw [hheight] at hle ⊢
  obtain ⟨tx, -, hwithdrawal⟩ := List.mem_filterMap.mp hu
  rw [maturesAt_of_withdrawalOf hwithdrawal, hheight, hq.height_next hst]
  exact matured_iff hi hle

/-- A block is a round of the queue. -/
theorem QueueOf.step (hq : QueueOf P log node.refiners.unbondingQueue node.chain.currentHeight)
    (hst : Accepted P env block node node' st) :
    let applied : AppliedBlock := ⟨block, node, st, node'⟩
    QueueOf P (log ++ [applied]) node'.refiners.unbondingQueue node'.chain.currentHeight ∧
      applied.paid = (released PendingUnbond.account (rounds P (log ++ [applied]))
        log.length).map fun u => (u.account, u.amount) := by
  intro applied
  obtain ⟨hreleased, hwaiting⟩ := DelayQueue.release_round
    (fun u : PendingUnbond => u.maturesAt ≤ block.header.height) (hq.isDue hst)
  rw [← hq.filled hst] at hreleased hwaiting
  refine ⟨⟨?_, ?_, hq.heights_append hst⟩, ?_⟩
  · rw [hst.unbondingQueue_eq, hwaiting, List.length_append, List.length_singleton]
  · rw [hst.chain_eq, List.length_append, List.length_singleton]
    exact hq.height_next hst
  · change st.settled.refiners.maturedUnbonds block.header.height = _
    rw [hst.refiners_settled, ← hreleased]
    rfl

/-- The rules of the queue hold of a block that is applied. -/
theorem QueueOf.settled (hq : QueueOf P log node.refiners.unbondingQueue node.chain.currentHeight)
    (hst : Accepted P env block node node' st) (hwf : node.refiners.WellFormed) :
    SettledBlock P (log ++ [⟨block, node, st, node'⟩]) log.length ⟨block, node, st, node'⟩ where
  height_eq := hq.height_next hst
  paid_eq := (hq.step hst).2
  credited id := by
    change (node'.accounts.balanceOf id).toNat = _
    rw [hst.accounts_eq]
    exact balanceOf_foldlM_creditOrCreateAccount hst.payout id
  burned := by
    have hrounds : ∀ k < log.length, rounds P (log ++ [⟨block, node, st, node'⟩]) k =
        rounds P log k := fun k hk => rounds_append_of_lt hk _
    have hround := rounds_of_get? (P := P) (List.getElem?_concat_length
      (l := log) (a := (⟨block, node, st, node'⟩ : AppliedBlock)))
    unfold lost
    rw [DelayQueue.waiting_congr hrounds, ← hq.queue_eq, hround]
    exact hst.slashing_burned
  unslashed u hu := by
    have hkept := (wellFormed_invariant (P := P) GenesisConfig.default).toKeptByStages
    have hfinalized : st.finalized.refiners.WellFormed :=
      (hkept.processAttestations block hwf).ok hst.attest_run
    have hopened : st.opened.ledger.refiners.WellFormed := by
      change st.opened.refiners.WellFormed
      have hinitial : (fun ledger : Ledger => ledger.refiners.WellFormed)
          { accounts := st.finalized.accounts,
            refiners := (initialSlashing st.finalized).refiners } := hfinalized
      have hslashed := hkept.toKeptByFunds.slashSteps (P := P) hinitial block.slashEvidence
      rw [← hst.slashing_eq] at hslashed
      rw [hst.opened_eq]
      exact hslashed
    exact not_isSlashed_of_withdrawn hopened hu

end Step

/-- What is known of a node, its log and its database along a run. -/
structure Chronicle.Settled (P : Primitives) (node : OpolysNode) (log saved : List AppliedBlock) :
    Prop where
  queue : QueueOf P log node.refiners.unbondingQueue node.chain.currentHeight
  blocks : ∀ j applied, log[j]? = some applied → SettledBlock P log j applied
  saved_fresh : ∀ store, node.store = some store → store.chainState = none → saved = []
  saved_queue : ∀ store state, node.store = some store → store.chainState = some state →
    QueueOf P saved store.loadRefiners.unbondingQueue state.currentHeight
  saved_blocks : ∀ j applied, saved[j]? = some applied → SettledBlock P saved j applied

/-- One more block keeps the settled blocks and adds one. -/
theorem settled_append {log : List AppliedBlock} {node node' : OpolysNode} {env : Env}
    {block : Block} {st : Stages}
    (hq : QueueOf P log node.refiners.unbondingQueue node.chain.currentHeight)
    (hst : Accepted P env block node node' st) (hwf : node.refiners.WellFormed)
    (hblocks : ∀ j applied, log[j]? = some applied → SettledBlock P log j applied) (j : ℕ)
    (applied : AppliedBlock) (h : (log ++ [⟨block, node, st, node'⟩])[j]? = some applied) :
    SettledBlock P (log ++ [⟨block, node, st, node'⟩]) j applied := by
  by_cases hj : j < log.length
  · rw [List.getElem?_append_left hj] at h
    exact (hblocks j applied h).append hj _
  · have hlt := (List.getElem?_eq_some_iff.mp h).1
    rw [List.length_append, List.length_singleton] at hlt
    obtain rfl : j = log.length := by omega
    rw [List.getElem?_concat_length] at h
    cases h
    exact hq.settled hst hwf

theorem Chronicle.settled {config : GenesisConfig} {node : OpolysNode}
    {log saved : List AppliedBlock} (h : Chronicle P config node log saved) :
    Chronicle.Settled P node log saved := by
  have hnil : ∀ j applied, ([] : List AppliedBlock)[j]? = some applied →
      SettledBlock P [] j applied := by
    intro j applied hj
    cases hj
  induction h with
  | start hnew =>
    obtain ⟨accounts, hgenesis, -, -, hstore, -⟩ := OpolysNode.new_fresh hnew
    obtain ⟨hrefiners, hheight, -⟩ := OpolysNode.genesisState_chain hgenesis
    refine ⟨?_, hnil, fun _ _ _ => rfl, fun store state hstore' hstate => ?_, hnil⟩
    · rw [hrefiners, hheight]
      exact QueueOf.nil
    · obtain rfl := Option.some.inj (hstore.symm.trans hstore')
      cases hstate
  | @stored node log saved call st store store' h haccept hst hstore hstore' hsaved ih =>
    have hwf := (h.holds (wellFormed_invariant config)).1
    have hblocks := settled_append ih.queue hst hwf ih.blocks
    have hqueue := (ih.queue.step hst).1
    refine ⟨hqueue, hblocks, fun s hs hstate => ?_, fun s state hs hstate => ?_, hblocks⟩
    · obtain rfl := Option.some.inj (hstore'.symm.trans hs)
      rw [hsaved.chainState_eq] at hstate
      cases hstate
    · obtain rfl := Option.some.inj (hstore'.symm.trans hs)
      obtain rfl := Option.some.inj (hsaved.chainState_eq.symm.trans hstate)
      rw [hsaved.loadRefiners_eq]
      unfold RefinerSet.perform
      rw [RefinerSet.loadFromRefiners_allRefiners]
      exact hqueue
  | @unstored node log saved call st h haccept hst hstore ih =>
    have hwf := (h.holds (wellFormed_invariant config)).1
    refine ⟨(ih.queue.step hst).1, settled_append ih.queue hst hwf ih.blocks, ?_, ?_,
      ih.saved_blocks⟩
    · exact fun s hs => ih.saved_fresh s (hstore ▸ hs)
    · exact fun s state hs => ih.saved_queue s state (hstore ▸ hs)
  | @restart node node' log saved keyFile store h hstore hnew ih =>
    obtain ⟨hstore', accounts, -, hloaded⟩ := OpolysNode.new_eq_ok hnew
    have hfresh : ∀ s, node'.store = some s → s.chainState = none → saved = [] := by
      intro s hs
      obtain rfl := Option.some.inj (hstore'.symm.trans hs)
      exact ih.saved_fresh store hstore
    have hqueue : ∀ s state, node'.store = some s → s.chainState = some state →
        QueueOf P saved s.loadRefiners.unbondingQueue state.currentHeight := by
      intro s state hs
      obtain rfl := Option.some.inj (hstore'.symm.trans hs)
      exact ih.saved_queue store state hstore
    refine ⟨?_, ih.saved_blocks, hfresh, hqueue, ih.saved_blocks⟩
    rcases hloaded with ⟨hgenesis, hnone⟩ | ⟨-, hrefiners, state, hstate, hchain⟩
    · obtain ⟨hrefiners, hheight, -⟩ := OpolysNode.genesisState_chain hgenesis
      rw [hrefiners, hheight, hfresh store hstore' hnone]
      exact QueueOf.nil
    · have h' := hqueue store state hstore' hstate
      rw [hrefiners, hchain]
      exact h'

/-- In every run of accepted blocks, failed writes and restarts, every block of the log pays
out the withdrawals of the block one epoch before it, except those of refiners that have
been slashed in between. Their amounts arrive at the accounts of those who have withdrawn, and
nothing else is paid from the queue. What a slashed refiner still has in the queue is burned
once, with its stake, by the block whose evidence names it. -/
theorem unbonded_settled_once {config : GenesisConfig} {node : OpolysNode}
    {log saved : List AppliedBlock} (h : Chronicle P config node log saved) (j : ℕ)
    (applied : AppliedBlock) (hj : log[j]? = some applied) : SettledBlock P log j applied :=
  h.settled.blocks j applied hj

/-- A log grows by every accepted block. -/
theorem Chronicle.exists_step {config : GenesisConfig} {node : OpolysNode}
    {log saved : List AppliedBlock} (h : Chronicle P config node log saved) {call : Call}
    (haccept : node.accepts P call = true) {store : BlockchainStore}
    (hstore : node.store = some store) : ∃ st saved',
      Chronicle P config (node.step P call) (log ++ [⟨call.block, node, st, node.step P call⟩])
        saved' := by
  obtain ⟨st, hst⟩ := OpolysNode.accepted_of_accepts haccept
  rcases hst.store_cases hstore with hsame | ⟨-, store', hstore', hsaved⟩
  · exact ⟨st, saved, .unstored h haccept hst (hsame.trans hstore.symm)⟩
  · exact ⟨st, _, .stored h haccept hst hstore hstore' hsaved⟩

open Reference (staker staked stakeCall slashCall) in
/-- A block in which a refiner bonds and withdraws some of it again, and one whose evidence burns
its stake and what it has in the queue. -/
theorem unbonded_settled_once_of_reference :
    let slashed := staked.step Reference.primitives slashCall
    ∃ st st', SettledBlock Reference.primitives
        [⟨stakeCall.block, staker, st, staked⟩, ⟨slashCall.block, staked, st', slashed⟩] 0
        ⟨stakeCall.block, staker, st, staked⟩ ∧
      SettledBlock Reference.primitives
        [⟨stakeCall.block, staker, st, staked⟩, ⟨slashCall.block, staked, st', slashed⟩] 1
        ⟨slashCall.block, staked, st', slashed⟩ ∧
      queuedAmount staked.refiners.unbondingQueue = 1000000 ∧
      queuedAmount slashed.refiners.unbondingQueue = 0 := by
  intro slashed
  obtain ⟨⟨haccept, haccept'⟩, -, hqueued, -, hburned, -⟩ := Reference.slash_computed
  have hnew := Reference.new_start (Reference.config [(1, 1000000000)]) (some 1)
    (by decide +kernel)
  obtain ⟨-, -, -, -, hstore, -⟩ := OpolysNode.new_fresh hnew
  obtain ⟨st, saved, hlog⟩ := (Chronicle.start hnew).exists_step haccept hstore
  obtain ⟨store, hstore'⟩ : ∃ store, staked.store = some store := by
    cases hstaked : staked.store with
    | none => exact absurd hstaked (by decide +kernel)
    | some store => exact ⟨store, rfl⟩
  obtain ⟨st', saved', hlog'⟩ := hlog.exists_step haccept' hstore'
  exact ⟨st, st', unbonded_settled_once hlog' 0 _ rfl, unbonded_settled_once hlog' 1 _ rfl,
    hqueued, hburned⟩

end Opolys
