import Opolys.Node.Idle

/-!
# The difficulty along a run

The node keeps the timestamps of one epoch of blocks and the one before. From the first full
window on it retargets at every height, over whatever window it has then, and not once in an
epoch. Nothing bounds the difficulty from above.

* `retargets_once_iff` : the states after which the difficulty is what a retarget once in an
  epoch would make it.
-/

namespace Opolys

variable {P : Primitives}

namespace OpolysNode

/-! ## Once in an epoch -/

/-- A retarget once in an epoch: after the last block of an epoch the difficulty is adjusted
to the time the epoch took, and after every other block it is held, so that the next block
is as hard as the last one where the consensus floor does not ask for more. -/
def RetargetsOnce (node : OpolysNode) : Prop :=
  let difficulty := node.chain.currentDifficulty
  if isEpochBoundary node.chain.currentHeight then
    node.nextDifficulty.retarget = adjustedDifficulty difficulty node.elapsedMs
  else
    node.nextDifficulty.retarget = max difficulty minDifficulty ∧
      (node.nextDifficulty.consensusFloor ≤ difficulty → node.expectedDifficulty = difficulty)

/-- Where that is so: after the last block of an epoch, before the first epoch is over, and
where the last 960 blocks took the time they should. A genesis of difficulty 0 has to be
below the consensus floor, which takes a bond of at most everything issued. -/
def OnSchedule (node : OpolysNode) : Prop :=
  isEpochBoundary node.chain.currentHeight = true ∨
    (node.chain.currentDifficulty = 0 → 0 < node.refiners.totalBondedStake ∧
      node.refiners.totalBondedStake ≤ node.chain.totalIssued) ∧
      (node.chain.currentHeight < epoch ∨
        Opolys.OnSchedule node.chain.currentDifficulty node.elapsedMs)

theorem consensusFloor_pos {totalIssued bondedStake : UInt64} :
    0 < computeConsensusFloor totalIssued bondedStake ↔
      0 < bondedStake ∧ bondedStake ≤ totalIssued := by
  unfold computeConsensusFloor
  rw [UInt64.lt_iff_toNat_lt, UInt64.lt_iff_toNat_lt, UInt64.le_iff_toNat_le, UInt64.toNat_zero]
  split
  · rename_i hnone
    rw [hnone, UInt64.toNat_zero]
    omega
  · rw [UInt64.toNat_div, Nat.div_pos_iff]

theorem retargetsOnce_iff {node : OpolysNode} (h : node.chain.tip.Windowed) :
    node.RetargetsOnce ↔ node.OnSchedule := by
  have hretarget := retarget_eq h
  have hbelow : 0 < node.refiners.totalBondedStake ∧
      node.refiners.totalBondedStake ≤ node.chain.totalIssued ↔
        0 < node.nextDifficulty.consensusFloor := consensusFloor_pos.symm
  unfold RetargetsOnce OnSchedule
  rw [hbelow]
  dsimp only
  cases hboundary : isEpochBoundary node.chain.currentHeight with
  | true =>
    have hge : ¬node.chain.currentHeight < epoch := by
      unfold isEpochBoundary at hboundary
      rw [Bool.and_eq_true, decide_eq_true_iff, decide_eq_true_iff, ← UInt64.toNat_inj,
        UInt64.toNat_mod] at hboundary
      obtain ⟨hpos, hmod⟩ := hboundary
      have hpos := UInt64.lt_iff_toNat_lt.mp hpos
      rw [UInt64.lt_iff_toNat_lt]
      rw [toNat_epoch] at hmod ⊢
      rw [UInt64.toNat_zero] at hpos hmod
      omega
    rw [if_pos rfl, hretarget, if_neg hge]
    exact iff_of_true rfl (Or.inl rfl)
  | false =>
    rw [if_neg nofun]
    have hheld : node.nextDifficulty.retarget = max node.chain.currentDifficulty minDifficulty ↔
        node.chain.currentHeight < epoch ∨
          Opolys.OnSchedule node.chain.currentDifficulty node.elapsedMs := by
      rw [hretarget]
      split
      · rename_i hlt
        exact iff_of_true rfl (Or.inl hlt)
      · rename_i hge
        rw [adjustedDifficulty_eq_iff]
        exact ⟨Or.inr, fun hor => hor.resolve_left hge⟩
    rw [hheld]
    constructor
    · rintro ⟨hheight, hfloor⟩
      refine Or.inr ⟨fun hzero => ?_, hheight⟩
      by_contra hnot
      have hle : node.nextDifficulty.consensusFloor ≤ node.chain.currentDifficulty := by
        rw [hzero]
        exact UInt64.not_lt.mp hnot
      have heq := toNat_expectedDifficulty node
      rw [hfloor hle, hzero, UInt64.toNat_zero] at heq
      omega
    · rintro (hfalse | ⟨hzero, hheight⟩)
      · cases hfalse
      · refine ⟨hheight, fun hfloor => ?_⟩
        have hpos : node.chain.currentDifficulty.toNat ≠ 0 := by
          intro hnot
          have hnot : node.chain.currentDifficulty = 0 := UInt64.toNat_inj.mp hnot
          have hlt := hzero hnot
          rw [hnot] at hfloor
          exact UInt64.not_le.mpr hlt hfloor
        have hle := UInt64.le_iff_toNat_le.mp hfloor
        rw [← UInt64.toNat_inj, toNat_expectedDifficulty, hheld.mpr hheight, MachineInt.toNat_max,
          toNat_minDifficulty]
        omega

end OpolysNode

/-! ## A chain that is too fast -/

namespace Reference

/-- A chain of difficulty 2 whose blocks are paid nothing. -/
def unpaidConfig : GenesisConfig := { config [] with initialDifficulty := 2, baseReward := 1 }

/-- A miner on this chain. -/
def miner : OpolysNode := start unpaidConfig (some 1)

theorem new_miner : OpolysNode.new primitives unpaidConfig (some (seed 1).bytes)
    BlockchainStore.empty = .ok miner := new_start unpaidConfig (some 1) (by decide +kernel)

theorem ready_miner : Ready 45 miner where
  conserved := by
    unfold OpolysNode.Conserved OpolysNode.Balanced OpolysNode.held
    decide +kernel
  encodable := encodable_of_values (by decide +kernel) (by decide +kernel)
  identity := by decide +kernel
  producer := by decide +kernel
  ticking := by
    unfold Tip.Ticking
    decide +kernel

theorem refiners_miner : miner.refiners = RefinerSet.new := by
  obtain ⟨accounts, hgenesis, -⟩ := OpolysNode.new_fresh new_miner
  exact (OpolysNode.genesisState_chain hgenesis).1

theorem idling_miner : Idling 45 960 miner where
  toReady := ready_miner
  queue := by decide +kernel
  unpaid := by decide +kernel
  solvable := by decide +kernel
  floor := by decide +kernel
  settled height _ _ := by rw [refiners_miner, RefinerSet.ranked_new]

/-- Without bonds the difficulty after the first epoch is the adjusted one. -/
theorem expectedDifficulty_adjusted {delay : ℕ} {node : OpolysNode} (h : Ready delay node)
    (hfull : 960 ≤ node.chain.currentHeight.toNat)
    (hheight : node.chain.currentHeight.toNat < 2 ^ 32) (hdelay : delay < 2 ^ 16)
    (hbonded : node.refiners.totalBondedStake = 0) :
    node.expectedDifficulty = max (max (adjustedDifficulty node.chain.currentDifficulty
      (UInt64.ofNat (960000 * delay))) 0) minDifficulty := by
  have hge : ¬node.chain.currentHeight < epoch := by
    rw [UInt64.lt_iff_toNat_lt, toNat_epoch]
    omega
  have hfloor : node.nextDifficulty.consensusFloor = 0 := by
    change computeConsensusFloor node.chain.totalIssued node.refiners.totalBondedStake = 0
    rw [hbonded]
    rfl
  rw [OpolysNode.expectedDifficulty_eq, DifficultyTarget.effectiveDifficulty, hfloor,
    OpolysNode.retarget_eq h.windowed, if_neg hge, h.elapsedMs_eq hfull hheight hdelay]

/-- With a block every 45 seconds the first epoch ends at the difficulty it began with, the
block after it is twice as hard, and the next one would have to be twice as hard again. -/
theorem miner_run : ∃ calls,
    Transition.EveryStep (OpolysNode.step primitives)
        (fun node call => node.accepts primitives call = true) miner calls ∧
      let node := Transition.run (OpolysNode.step primitives) miner calls
      node.chain.currentHeight = 961 ∧ node.chain.currentDifficulty = 4 ∧
        node.refiners.totalBondedStake = 0 ∧ node.expectedDifficulty = 8 := by
  have hzero : miner.chain.currentHeight.toNat = 0 := by decide +kernel
  have hnone : miner.refiners.totalBondedStake = 0 := by
    rw [refiners_miner]
    rfl
  have htwo : miner.chain.currentDifficulty = 2 := by decide +kernel
  have hpaid : miner.chain.baseReward = 1 := by decide +kernel
  have hrun := idle_run 960 idling_miner ⟨by omega, by omega⟩ (by rw [hzero]) (by omega)
    (Or.inl le_rfl)
  generalize idleAll 45 960 miner = calls at hrun
  dsimp only at hrun
  generalize hnode : Transition.run (OpolysNode.step primitives) miner calls = node at hrun
  obtain ⟨hall, hidling, hheight, hdifficulty, hbase, -, -, hrefiners⟩ := hrun
  rw [hzero, Nat.zero_add] at hheight
  rw [← hrefiners] at hnone
  have hfour : node.expectedDifficulty = 4 := by
    rw [expectedDifficulty_adjusted hidling.toReady (by omega) (by omega) (by omega) hnone,
      hdifficulty, htwo]
    decide +kernel
  obtain ⟨haccepts, hready, hidled⟩ := idle_step hidling.toReady
    ⟨by rw [hfour, hbase, hpaid]; decide, by rw [hfour]; decide⟩ hidling.queue
    ⟨by omega, by omega⟩ (by omega)
  refine ⟨calls ++ [tick 45 [] node], ?_⟩
  rw [Transition.everyStep_append, Transition.run_append, hnode, Transition.run_cons,
    Transition.run_nil]
  generalize node.step primitives (tick 45 [] node) = node' at hready hidled ⊢
  have hheight' : node'.chain.currentHeight = 961 := by
    rw [hidled.height, ← UInt64.toNat_inj, UInt64.toNat_add, hheight]
    rfl
  have hlast : node'.chain.currentHeight.toNat = 961 := by
    rw [hheight']
    rfl
  have hnone' : node'.refiners.totalBondedStake = 0 := by
    rw [hidled.refiners, hrefiners, refiners_miner, RefinerSet.ranked_new]
    rfl
  have hdifficulty' : node'.chain.currentDifficulty = 4 := hidled.difficulty.trans hfour
  refine ⟨⟨hall, haccepts, trivial⟩, hheight', hdifficulty', hnone', ?_⟩
  rw [expectedDifficulty_adjusted hready (by omega) (by omega) (by omega) hnone', hdifficulty']
  decide +kernel

end Reference

/-- In every run from genesis, with calls that are accepted or rejected and with restarts, the
difficulty of the next block is what a retarget once in an epoch makes it, exactly where the
chain is on schedule. -/
theorem retargets_once_iff {config : GenesisConfig} {keyFile : Option (List UInt8)}
    {start : OpolysNode}
    (hnew : OpolysNode.new P config keyFile BlockchainStore.empty = .ok start)
    (events : List OpolysNode.Event) :
    let node := Transition.run (OpolysNode.next P config) start events
    node.RetargetsOnce ↔ node.OnSchedule :=
  OpolysNode.retargetsOnce_iff ((windowed_invariant P config).run hnew events)

/-- A chain that is on schedule after its first block and a restart. -/
theorem retargets_once_of_reference :
    let config := Reference.config [(1, 1000000000)]
    let start := Reference.start config (some 1)
    let node := Transition.run (OpolysNode.next Reference.primitives config) start
      [.call (Reference.call (Reference.mine start 0 {})), .restart none]
    node.RetargetsOnce := by
  intro config start node
  have hnew := Reference.new_start config (some 1) (by decide +kernel)
  refine (retargets_once_iff hnew _).mpr (Or.inr ⟨?_, Or.inl ?_⟩) <;> decide +kernel

/-- A chain that retargets after an epoch and again after the next block, which is not the
last one of an epoch. -/
theorem retargets_again :
    OpolysNode.new Reference.primitives Reference.unpaidConfig (some (Reference.seed 1).bytes)
        BlockchainStore.empty = .ok Reference.miner ∧
      ∃ calls, Transition.EveryStep (OpolysNode.step Reference.primitives)
          (fun node call => node.accepts Reference.primitives call = true) Reference.miner calls ∧
        let node := Transition.run (OpolysNode.step Reference.primitives) Reference.miner calls
        isEpochBoundary node.chain.currentHeight = false ∧
          node.nextDifficulty.consensusFloor ≤ node.chain.currentDifficulty ∧
          node.expectedDifficulty = 2 * node.chain.currentDifficulty ∧ ¬node.RetargetsOnce := by
  refine ⟨Reference.new_miner, ?_⟩
  obtain ⟨calls, hall, hheight, hdifficulty, hnone, hexpected⟩ := Reference.miner_run
  refine ⟨calls, hall, ?_⟩
  generalize Transition.run (OpolysNode.step Reference.primitives) Reference.miner calls = node
    at hheight hdifficulty hnone hexpected ⊢
  have hboundary : isEpochBoundary node.chain.currentHeight = false := by
    rw [hheight]
    decide
  have hfloor : node.nextDifficulty.consensusFloor ≤ node.chain.currentDifficulty := by
    change computeConsensusFloor node.chain.totalIssued node.refiners.totalBondedStake ≤ _
    have hzero : computeConsensusFloor node.chain.totalIssued 0 = 0 := rfl
    rw [hnone, hdifficulty, hzero]
    decide
  have hdoubled : node.expectedDifficulty = 2 * node.chain.currentDifficulty := by
    rw [hexpected, hdifficulty]
    rfl
  refine ⟨hboundary, hfloor, hdoubled, fun hlaw => ?_⟩
  unfold OpolysNode.RetargetsOnce at hlaw
  dsimp only at hlaw
  rw [if_neg (by rw [hboundary]; exact Bool.false_ne_true)] at hlaw
  have hheld := hlaw.2 hfloor
  rw [hexpected, hdifficulty] at hheld
  cases hheld

end Opolys
