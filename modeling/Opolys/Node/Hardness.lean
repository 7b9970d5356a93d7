import Opolys.Consensus.PowView
import Opolys.Node.Produce
import Opolys.Node.Supply
import Opolys.Node.Tip

/-!
# How hard the next block can get

Nothing bounds the difficulty from above. A target in a 64-bit word can express it up to 64
leading zero bits, a hash of 256 bits can meet it up to 256, and beyond that no block can be
mined until enough stake is bonded or refined blocks take more time.

* `difficulty_le_iff` : the states in which the next difficulty is at most 64, and what the
  others mean.
-/

namespace Opolys

open Codec (FixedBytes)
open Effect

variable {P : Primitives}

/-! ## Targets and hashes -/

theorem consensusFloor_le_iff {totalIssued bondedStake : UInt64} {most : ℕ} :
    (computeConsensusFloor totalIssued bondedStake).toNat ≤ most ↔
      bondedStake = 0 ∨ totalIssued.toNat < (most + 1) * bondedStake.toNat := by
  unfold computeConsensusFloor
  split
  · rename_i hnone
    exact iff_of_true (Nat.zero_le _) (Or.inl hnone)
  · rename_i hbonded
    have hpos : 0 < bondedStake.toNat := by
      have hne : bondedStake.toNat ≠ (0 : UInt64).toNat := mt UInt64.toNat_inj.mp hbonded
      rw [UInt64.toNat_zero] at hne
      omega
    rw [UInt64.toNat_div, or_iff_right hbonded, ← Nat.div_lt_iff_lt_mul hpos]
    omega

theorem leadingZeroBits_fill : leadingZeroBits (FixedBytes.fill 32 0).bytes = 256 := by
  decide +kernel

/-- A hash can start with as many zero bits as it has bits. -/
theorem exists_hash_iff {difficulty : ℕ} :
    (∃ hash : FixedBytes 32, difficulty ≤ leadingZeroBits hash.bytes) ↔ difficulty ≤ 256 := by
  constructor
  · rintro ⟨hash, hle⟩
    have hmost := leadingZeroBits_le hash.bytes
    rw [FixedBytes.length_bytes] at hmost
    omega
  · intro hle
    refine ⟨FixedBytes.fill 32 0, ?_⟩
    rw [leadingZeroBits_fill]
    exact hle

/-- Above 64 the target is 0, and no hash earns more than the base reward. -/
theorem computeBlockReward_of_hard {difficulty : UInt64} (h : 64 < difficulty.toNat)
    (baseReward hashValue : UInt64) :
    Emission.difficultyToTarget difficulty = 0 ∧
      Emission.computeBlockReward baseReward difficulty hashValue = baseReward / difficulty := by
  have htarget : Emission.difficultyToTarget difficulty = 0 := by
    unfold Emission.difficultyToTarget
    have hsixtyfour : (64 : UInt64).toNat = 64 := rfl
    have hlt : 64 < difficulty := UInt64.lt_iff_toNat_lt.mpr (hsixtyfour ▸ h)
    rw [if_pos (Or.inr hlt)]
  have hyield : Emission.computeVeinYield difficulty hashValue = 1000 := by
    unfold Emission.computeVeinYield
    rw [htarget]
    dsimp only
    rw [if_pos rfl, ite_self]
  have hmax : max difficulty minDifficulty = difficulty := by
    rw [← UInt64.toNat_inj, MachineInt.toNat_max, toNat_minDifficulty]
    omega
  have hthousand : (1000 : UInt64).toNat = 1000 := rfl
  refine ⟨htarget, ?_⟩
  unfold Emission.computeBlockReward Emission.saturatingU128ToFlakes
  dsimp only
  rw [hyield, hmax, hthousand, Nat.mul_div_cancel _ (by omega), ← UInt64.toNat_inj,
    MachineInt.toNat_clamp]
  have hlt := (baseReward / difficulty).toNat_lt
  omega

/-! ## The next block -/

namespace OpolysNode

/-- The retarget of the last difficulty is at most 64, and so is the issued supply over the
bonded stake. -/
structure Expressible (node : OpolysNode) : Prop where
  retarget : (if node.chain.currentHeight < epoch then node.chain.currentDifficulty
    else adjustedDifficulty node.chain.currentDifficulty node.elapsedMs).toNat ≤ 64
  floor : node.refiners.totalBondedStake = 0 ∨
    node.chain.totalIssued.toNat < 65 * node.refiners.totalBondedStake.toNat

theorem expectedDifficulty_le_iff {node : OpolysNode} (h : node.chain.tip.Windowed) :
    node.expectedDifficulty.toNat ≤ 64 ↔ node.Expressible := by
  have hfloor : node.nextDifficulty.consensusFloor.toNat ≤ 64 ↔
      node.refiners.totalBondedStake = 0 ∨
        node.chain.totalIssued.toNat < 65 * node.refiners.totalBondedStake.toNat :=
    consensusFloor_le_iff
  have hretarget : node.nextDifficulty.retarget.toNat ≤ 64 ↔
      (if node.chain.currentHeight < epoch then node.chain.currentDifficulty
        else adjustedDifficulty node.chain.currentDifficulty node.elapsedMs).toNat ≤ 64 := by
    rw [retarget_eq h]
    split
    · rw [MachineInt.toNat_max, toNat_minDifficulty]
      omega
    · exact Iff.rfl
  rw [toNat_expectedDifficulty]
  constructor
  · intro hle
    exact ⟨hretarget.mp (by omega), hfloor.mp (by omega)⟩
  · rintro ⟨hone, htwo⟩
    have hone := hretarget.mpr hone
    have htwo := hfloor.mpr htwo
    omega

/-- Beyond the bits of a hash no mined block is accepted. -/
theorem not_accepts_mined {node : OpolysNode} (h : 256 < node.expectedDifficulty.toNat)
    {call : Call} (hmined : call.block.header.isMined = true) : node.accepts P call = false := by
  by_contra haccept
  obtain ⟨st, hst⟩ := accepted_of_accepts (Bool.not_eq_false _ ▸ haccept)
  obtain ⟨hkind, -, hproof⟩ := checkBlock_eq_ok hst.check
  obtain ⟨-, -, hdifficulty, -⟩ := checkBlock_header hst.check
  have hst' : st.kind = .mined := by
    unfold BlockHeader.isMined at hmined
    rw [hkind] at hmined
    exact Option.some.inj (of_decide_eq_true hmined)
  have hle := difficulty_le_of_verifyPowLight (hproof hst')
  rw [hdifficulty] at hle
  omega

end OpolysNode

/-- In every state that blocks and restarts can reach from genesis, the difficulty of the next
block is at most 64 exactly when the retarget and the supply over the stake are. Then the
target is the greatest word with as many leading zero bits. Above 64 the target is 0 and a
miner is paid the base reward over the difficulty. A hash that meets the difficulty exists up
to 256, and beyond no mined block is accepted. -/
theorem difficulty_le_iff {config : GenesisConfig} {keyFile : Option (List UInt8)}
    {start : OpolysNode}
    (hnew : OpolysNode.new P config keyFile BlockchainStore.empty = .ok start)
    (events : List OpolysNode.Event) :
    let node := Transition.run (OpolysNode.next P config) start events
    let difficulty := node.expectedDifficulty
    (difficulty.toNat ≤ 64 ↔ node.Expressible) ∧
      (difficulty.toNat ≤ 64 →
        (Emission.difficultyToTarget difficulty).toNat = 2 ^ (64 - difficulty.toNat) - 1) ∧
      (64 < difficulty.toNat → Emission.difficultyToTarget difficulty = 0 ∧ ∀ hashValue,
        Emission.computeBlockReward node.chain.baseReward difficulty hashValue =
          node.chain.baseReward / difficulty) ∧
      ((∃ hash : FixedBytes 32, difficulty.toNat ≤ leadingZeroBits hash.bytes) ↔
        difficulty.toNat ≤ 256) ∧
      (256 < difficulty.toNat → ∀ call : Call, call.block.header.isMined = true →
        node.accepts P call = false) := by
  intro node difficulty
  have hwindowed : node.chain.tip.Windowed := (windowed_invariant P config).run hnew events
  have hpos : 1 ≤ difficulty.toNat := by
    have heq : difficulty.toNat = _ := OpolysNode.toNat_expectedDifficulty node
    omega
  refine ⟨OpolysNode.expectedDifficulty_le_iff hwindowed, fun hle => ?_, fun hlt => ?_,
    exists_hash_iff, fun hlt call hmined => OpolysNode.not_accepts_mined hlt hmined⟩
  · exact Emission.toNat_difficultyToTarget hpos hle
  · exact ⟨(computeBlockReward_of_hard hlt 0 0).1,
      fun hashValue => (computeBlockReward_of_hard hlt _ hashValue).2⟩

/-- A chain with a bond that keeps the next difficulty expressible. -/
theorem difficulty_le_iff_of_reference :
    let config := Reference.config [(1, 1000000000)]
    let start := Reference.start config (some 1)
    let node := Transition.run (OpolysNode.next Reference.primitives config) start
      [.call (Reference.call (Reference.mine start 0
        { transactions := Reference.signed 1 (.refinerBond 32000000) 10 0 }))]
    node.Expressible := by
  intro config start node
  have hnew := Reference.new_start config (some 1) (by decide +kernel)
  exact (difficulty_le_iff hnew _).1.mp (by decide +kernel)

/-- A chain whose first block bonds stake and withdraws all but one flake of it. No hash can
meet the difficulty of the next block. -/
theorem difficulty_above_hash :
    let config := Reference.config [(1, 1000000000)]
    let start := Reference.start config (some 1)
    let call := Reference.call (Reference.mine start 0
      { transactions := Reference.signed 1 (.refinerBond 32000000) 10 0 ++
          Reference.signed 1 (.refinerUnbond 31999999) 10 1 })
    let node := start.step Reference.primitives call
    OpolysNode.new Reference.primitives config (some (Reference.seed 1).bytes)
        BlockchainStore.empty = .ok start ∧
      start.accepts Reference.primitives call = true ∧
      node.refiners.totalBondedStake = 1 ∧ 64 < node.expectedDifficulty.toNat ∧
      ¬∃ hash : FixedBytes 32, node.expectedDifficulty.toNat ≤ leadingZeroBits hash.bytes := by
  intro config start call node
  refine ⟨Reference.new_start config (some 1) (by decide +kernel), by decide +kernel,
    by decide +kernel, by decide +kernel, ?_⟩
  rw [exists_hash_iff]
  decide +kernel

end Opolys
