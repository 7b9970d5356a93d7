import Opolys.Node.Spacing
import Opolys.Node.Tip
import Opolys.Node.Unbonding

/-!
# The window of timestamps and the whole history

A node keeps the timestamps of the last blocks only: older ones are dropped after every
block, and again when the chain state is written out and when it is read back. To see that
nothing is lost for the retarget, the node is put next to the log of all blocks since genesis,
its own and the one its database holds.

* `computeRetarget_window` : what the window leaves out is not read.
* `retarget_eq_history` : the retarget of every run, with any restarts in between.
-/

namespace Opolys

open MachineInt (saturatingAdd saturatingSub saturatingMul)

variable {P : Primitives}

/-! ## The retarget over a list that reaches back to genesis -/

theorem computeRetarget_of_history {height : BlockHeight} {timestamps : List UInt64}
    (h : ¬height < epoch) (hlength : timestamps.length = height.toNat + 1)
    (hfits : timestamps.length < 2 ^ 64) (difficulty : UInt64) :
    computeRetarget difficulty height timestamps =
      adjustedDifficulty difficulty (saturatingMul (saturatingSub
        (timestamps.getD height.toNat 0) (timestamps.getD (height.toNat - 960) 0)) 1000) := by
  have hge : epoch.toNat ≤ height.toNat := not_lt.mp (mt UInt64.lt_iff_toNat_lt.mpr h)
  have hone : (1 : UInt64).toNat = 1 := rfl
  have hepoch := toNat_epoch
  have hwindow : saturatingSub (saturatingAdd height 1) (UInt64.ofNat timestamps.length) = 0 := by
    rw [← UInt64.toNat_inj, MachineInt.toNat_saturatingSub, MachineInt.toNat_saturatingAdd,
      MachineInt.toNat_ofNat_of_lt hfits, hone, UInt64.toNat_zero]
    omega
  have hstart : (saturatingSub height epoch - 0).toNat = height.toNat - 960 := by
    rw [MachineInt.toNat_sub_of_le (Nat.zero_le _), MachineInt.toNat_saturatingSub,
      UInt64.toNat_zero, hepoch, Nat.sub_zero]
  have hend : timestamps.length - 1 = height.toNat := by omega
  have hlater : ¬height.toNat ≤ height.toNat - 960 := by omega
  have hnot : ¬saturatingSub height epoch < 0 := by
    rw [UInt64.lt_iff_toNat_lt, UInt64.toNat_zero]
    exact Nat.not_lt_zero _
  unfold computeRetarget
  dsimp only
  rw [if_neg h, hwindow, if_neg hnot, hstart, hend, if_neg hlater]
  rfl

/-- The retarget reads nothing that the window leaves out. -/
theorem computeRetarget_window {height : BlockHeight} {timestamps : List UInt64}
    (hlength : timestamps.length = height.toNat + 1) (hfits : timestamps.length < 2 ^ 64)
    (difficulty : UInt64) :
    computeRetarget difficulty height (ChainState.pruneBlockTimestamps timestamps) =
      computeRetarget difficulty height timestamps := by
  by_cases h : height < epoch
  · rw [computeRetarget_of_lt h, computeRetarget_of_lt h]
  · have hge : epoch.toNat ≤ height.toNat := not_lt.mp (mt UInt64.lt_iff_toNat_lt.mpr h)
    rw [toNat_epoch] at hge
    have hfull : (ChainState.pruneBlockTimestamps timestamps).length = 961 := by
      rw [ChainState.length_pruneBlockTimestamps]
      omega
    have hget (i : ℕ) : (ChainState.pruneBlockTimestamps timestamps).getD i 0 =
        timestamps.getD (height.toNat - 960 + i) 0 := by
      have hdrop : timestamps.length - 961 = height.toNat - 960 := by omega
      unfold ChainState.pruneBlockTimestamps
      rw [blockTimestampWindowLen_eq, hdrop, List.getD_eq_getElem?_getD, List.getElem?_drop,
        ← List.getD_eq_getElem?_getD]
    have hlast : height.toNat - 960 + 960 = height.toNat := by omega
    rw [computeRetarget_of_full h hfull, computeRetarget_of_history h hlength hfits]
    unfold windowMs
    rw [if_pos (by omega), hget, hget, hlast, Nat.add_zero]

/-! ## Pruning -/

theorem ChainState.pruneBlockTimestamps_idem (timestamps : List UInt64) :
    pruneBlockTimestamps (pruneBlockTimestamps timestamps) = pruneBlockTimestamps timestamps := by
  refine pruneBlockTimestamps_of_le ?_
  rw [length_pruneBlockTimestamps]
  exact Nat.min_le_right _ _

/-- It does not matter whether the older timestamps are dropped before the next one is
added. -/
theorem ChainState.pruneBlockTimestamps_append (timestamps : List UInt64) (timestamp : UInt64) :
    pruneBlockTimestamps (pruneBlockTimestamps timestamps ++ [timestamp]) =
      pruneBlockTimestamps (timestamps ++ [timestamp]) := by
  by_cases hle : timestamps.length ≤ 961
  · rw [pruneBlockTimestamps_of_le hle]
  · have hlt : 961 ≤ timestamps.length := by omega
    have hone : min timestamps.length 961 + 1 - 961 = 1 := by rw [Nat.min_eq_right hlt]
    have hdrop : timestamps.length + 1 - 961 = timestamps.length - 961 + 1 :=
      Nat.sub_add_comm hlt
    have happend : (timestamps ++ [timestamp]).drop (timestamps.length - 961) =
        timestamps.drop (timestamps.length - 961) ++ [timestamp] :=
      List.drop_append_of_le_length (Nat.sub_le _ _)
    have hlength := length_pruneBlockTimestamps timestamps
    unfold pruneBlockTimestamps at hlength ⊢
    rw [blockTimestampWindowLen_eq] at hlength ⊢
    rw [List.length_append, List.length_append, List.length_singleton, hlength, hone, hdrop,
      ← List.drop_drop, happend]

theorem Tip.height_restored (tip : Tip) : tip.restored.height = tip.height := by
  rw [Tip.restored]

theorem Tip.timestamps_restored (tip : Tip) :
    tip.restored.timestamps = ChainState.pruneBlockTimestamps tip.timestamps := by
  rw [Tip.restored, ChainState.pruneBlockTimestamps_idem]

/-! ## The window of a log -/

/-- The tip keeps the window of a list of timestamps, one for every height. -/
structure Tip.WindowOf (tip : Tip) (timestamps : List UInt64) : Prop where
  length_pos : 0 < timestamps.length
  height_eq : tip.height = UInt64.ofNat (timestamps.length - 1)
  window_eq : tip.timestamps = ChainState.pruneBlockTimestamps timestamps

namespace Tip.WindowOf

theorem advance {tip : Tip} {timestamps : List UInt64} (h : tip.WindowOf timestamps)
    {header : BlockHeader} (hheight : header.height = tip.height + 1) :
    (tip.advance header).WindowOf (timestamps ++ [header.timestamp]) where
  length_pos := by
    rw [List.length_append]
    exact Nat.add_pos_left h.length_pos _
  height_eq := by
    have hpos := h.length_pos
    have hlength : (timestamps ++ [header.timestamp]).length - 1 = timestamps.length - 1 + 1 := by
      rw [List.length_append, List.length_singleton]
      omega
    rw [hlength, UInt64.ofNat_add, ← h.height_eq]
    exact hheight
  window_eq := by
    dsimp only [Tip.advance]
    rw [h.window_eq, ChainState.pruneBlockTimestamps_append]

theorem restored {tip : Tip} {timestamps : List UInt64} (h : tip.WindowOf timestamps) :
    tip.restored.WindowOf timestamps := by
  refine ⟨h.length_pos, ?_, ?_⟩
  · rw [Tip.height_restored, h.height_eq]
  · rw [Tip.timestamps_restored, h.window_eq, ChainState.pruneBlockTimestamps_idem]

end Tip.WindowOf

/-- The timestamps of all blocks since genesis. -/
def timestampsOf (genesis : Block) (log : List AppliedBlock) : List UInt64 :=
  genesis.header.timestamp :: log.map fun applied => applied.block.header.timestamp

theorem timestampsOf_append (genesis : Block) (log : List AppliedBlock) (applied : AppliedBlock) :
    timestampsOf genesis (log ++ [applied]) =
      timestampsOf genesis log ++ [applied.block.header.timestamp] := by
  unfold timestampsOf
  rw [List.map_append, List.cons_append]
  rfl

/-- A node that has accepted a block keeps the window of the longer history. -/
theorem Accepted.windowOf {env : Env} {block : Block} {node node' : OpolysNode} {st : Stages}
    (hst : Accepted P env block node node' st) {genesis : Block} {log : List AppliedBlock}
    (h : node.chain.tip.WindowOf (timestampsOf genesis log)) :
    node'.chain.tip.WindowOf (timestampsOf genesis (log ++ [⟨block, node, st, node'⟩])) := by
  rw [hst.tip_eq, timestampsOf_append]
  exact h.advance (checkBlock_header hst.check).1

/-- The node keeps the window of its history, and a node that starts on its database that of
the history saved there. -/
structure Remembers (P : Primitives) (config : GenesisConfig) (genesis : Block)
    (node : OpolysNode) (log saved : List AppliedBlock) : Prop where
  tip : node.chain.tip.WindowOf (timestampsOf genesis log)
  database : ∀ {store keyFile node'}, node.store = some store →
    OpolysNode.new P config keyFile store = .ok node' →
      node'.chain.tip.WindowOf (timestampsOf genesis saved)

variable {config : GenesisConfig} {genesis : Block}

theorem windowOf_new (hgenesis : buildGenesisBlock P config = .ok genesis)
    {keyFile : Option (List UInt8)} {node : OpolysNode}
    (hnew : OpolysNode.new P config keyFile BlockchainStore.empty = .ok node) :
    node.chain.tip.WindowOf (timestampsOf genesis []) := by
  obtain ⟨accounts, hstate, -⟩ := OpolysNode.new_fresh hnew
  unfold OpolysNode.genesisState at hstate
  obtain ⟨chain, hchain, hstate⟩ := Effect.bind_eq_ok.mp hstate
  obtain ⟨⟨accounts', issued⟩, -, hstate⟩ := Effect.bind_eq_ok.mp hstate
  obtain ⟨hstart, -⟩ := Prod.mk.inj (Except.ok.inj hstate)
  unfold ChainState.new at hchain
  rw [hgenesis] at hchain
  cases hchain
  rw [← hstart]
  have hshort : [genesis.header.timestamp].length ≤ 961 := by
    rw [List.length_singleton]
    decide
  exact ⟨Nat.one_pos, rfl, (ChainState.pruneBlockTimestamps_of_le hshort).symm⟩

theorem Chronicle.remembers (hgenesis : buildGenesisBlock P config = .ok genesis)
    {node : OpolysNode} {log saved : List AppliedBlock}
    (h : Chronicle P config node log saved) : Remembers P config genesis node log saved := by
  induction h with
  | start hnew =>
    refine ⟨windowOf_new hgenesis hnew, fun hstore hnode => ?_⟩
    obtain rfl := Option.some.inj ((OpolysNode.new_eq_ok hnew).1.symm.trans hstore)
    exact windowOf_new hgenesis hnode
  | stored h haccept hst hstore hstore' hsaved ih =>
    have htip := hst.windowOf ih.tip
    refine ⟨htip, fun hheld hnode => ?_⟩
    obtain rfl := Option.some.inj (hstore'.symm.trans hheld)
    obtain ⟨-, accounts, -, ⟨-, hnone⟩ | ⟨-, -, state, hstate, hchain⟩⟩ :=
      OpolysNode.new_eq_ok hnode
    · rw [hsaved.chainState_eq] at hnone
      cases hnone
    · obtain rfl := Option.some.inj (hsaved.chainState_eq.symm.trans hstate)
      rw [hchain, ChainState.tip_fromPersisted]
      exact htip.restored
  | unstored h haccept hst hsame ih =>
    exact ⟨hst.windowOf ih.tip, fun hheld hnode => ih.database (hsame.symm.trans hheld) hnode⟩
  | restart h hstore hnew ih =>
    refine ⟨ih.database hstore hnew, fun hheld hnode => ?_⟩
    obtain rfl := Option.some.inj ((OpolysNode.new_eq_ok hnew).1.symm.trans hheld)
    exact ih.database hstore hnode

/-- In every run of accepted blocks from genesis, with any restarts in between, the retarget
over the node's window is the one over all timestamps since genesis. They are given to it as
a slice, which has fewer than `2 ^ 64` entries. -/
theorem retarget_eq_history (hgenesis : buildGenesisBlock P config = .ok genesis)
    {node : OpolysNode} {log saved : List AppliedBlock}
    (h : Chronicle P config node log saved)
    (hslice : (timestampsOf genesis log).length < 2 ^ 64) :
    computeRetarget node.chain.currentDifficulty node.chain.currentHeight
        node.chain.blockTimestamps =
      computeRetarget node.chain.currentDifficulty node.chain.currentHeight
        (timestampsOf genesis log) := by
  obtain ⟨hpos, hheight, hwindow⟩ := (h.remembers hgenesis).tip
  change node.chain.currentHeight = _ at hheight
  change node.chain.blockTimestamps = _ at hwindow
  have hlength : (timestampsOf genesis log).length = node.chain.currentHeight.toNat + 1 := by
    rw [hheight, MachineInt.toNat_ofNat_of_lt (by omega)]
    omega
  rw [hwindow]
  exact computeRetarget_window hlength hslice _

/-- A chain with a block and a restart after it. -/
theorem retarget_eq_history_of_reference :
    let config := Reference.config [(1, 1000000000)]
    let start := Reference.start config (some 1)
    let call := Reference.call (Reference.mine start 0 {})
    let stopped := start.step Reference.primitives call
    let node := stopped.next Reference.primitives config (.restart none)
    ∃ genesis st, buildGenesisBlock Reference.primitives config = .ok genesis ∧
      computeRetarget node.chain.currentDifficulty node.chain.currentHeight
          node.chain.blockTimestamps =
        computeRetarget node.chain.currentDifficulty node.chain.currentHeight
          (timestampsOf genesis [⟨call.block, start, st, stopped⟩]) := by
  intro config start call stopped node
  have hnew := Reference.new_start config (some 1) (by decide +kernel)
  obtain ⟨genesis, hgenesis, -⟩ := OpolysNode.atTip_new hnew
  have haccept : start.accepts Reference.primitives call = true := by decide +kernel
  obtain ⟨st, hst⟩ := OpolysNode.accepted_of_accepts haccept
  refine ⟨genesis, st, hgenesis, ?_⟩
  obtain ⟨-, -, -, -, hempty, -⟩ := OpolysNode.new_fresh hnew
  have hheld : (stopped.store.bind BlockchainStore.chainState).isSome = true := by decide +kernel
  rcases hst.store_cases hempty with hsame | ⟨-, store, hstore, hsaved⟩
  · rw [hsame] at hheld
    cases hheld
  · have hlog := Chronicle.stored (.start hnew) haccept hst hempty hstore hsaved
    have hstarts : (OpolysNode.new Reference.primitives config none
        (stopped.store.getD BlockchainStore.empty)).toOption.isSome = true := by decide +kernel
    rw [hstore, Option.getD_some] at hstarts
    have hrestarted : OpolysNode.new Reference.primitives config none store = .ok node := by
      have hnode : node = ((OpolysNode.new Reference.primitives config none
          store).toOption).getD stopped := by
        change OpolysNode.next Reference.primitives config stopped (.restart none) = _
        unfold OpolysNode.next
        rw [hstore]
      rw [hnode]
      exact Effect.eq_ok_getD hstarts
    exact retarget_eq_history hgenesis (hlog.restart hstore hrestarted) (by simp [timestampsOf])

end Opolys
