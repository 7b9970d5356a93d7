import Opolys.Consensus.Ranking
import Opolys.Node.Applied
import Opolys.Node.Idle

/-!
# A chain with an active refiner

To become active a refiner has to bond, to wait for an epoch, and to be ranked at the end of
the next one. On a chain that idles from the first block to height 1920, one refiner comes
that far, and from there on it can sign blocks.

* `Reference.reaches_refining` : the run to the active refiner.
-/

namespace Opolys

open Codec (Borsh leBytes)
open MachineInt (saturatingAdd)

variable {P : Primitives}

/-! ## Before the first refined block -/

/-- A block that refiners have no part in, but for its transactions. -/
structure Block.Plain (block : Block) : Prop where
  signature : block.header.refinerSignature = none
  evidence : block.slashEvidence = []
  attestations : block.attestations = []

/-- A node that has seen plain blocks only. -/
structure OpolysNode.Quiet (node : OpolysNode) : Prop where
  signatures : node.chain.producerSignatures = ∅
  attesters : node.chain.attestationFinalityRefiners = ∅
  finalized : node.chain.finalizedHeight = 0
  evidence : node.pendingSlashEvidence = []
  store : ∃ store, node.store = some store

theorem pruneAttestationFinalityIndex_of_empty {chain : ChainState}
    (h : chain.attestationFinalityRefiners = ∅) :
    (pruneAttestationFinalityIndex chain).attestationFinalityRefiners = ∅ := by
  unfold pruneAttestationFinalityIndex
  dsimp only
  rw [h]
  rfl

/-- Without attestations the finalized height stays, and nobody gets into an empty index. -/
theorem Accepted.finality_of_none {env : Env} {block : Block} {node node' : OpolysNode}
    {st : Stages}
    (h : Accepted P env block node node' st) (hattestations : block.attestations = []) :
    node'.chain.finalizedHeight = node.chain.finalizedHeight ∧
      (node.chain.attestationFinalityRefiners = ∅ →
        node'.chain.attestationFinalityRefiners = ∅) := by
  have hattest := h.attest
  rw [hattestations, List.foldlM_nil, Effect.run_pure_eq_ok] at hattest
  obtain ⟨hlog, hattested⟩ := hattest
  rw [h.chain_eq, h.finalized_eq, ← hlog, ← hattested]
  refine ⟨?_, fun hempty => pruneAttestationFinalityIndex_of_empty hempty⟩
  have hnone (threshold : ℕ) : finalizedHeightFromAttestationWeights node.chain.finalizedHeight
      (∅ : Std.ExtTreeMap UInt64 ℕ) threshold = node.chain.finalizedHeight := by
    unfold finalizedHeightFromAttestationWeights
    split <;> rfl
  have hmax (threshold : ℕ) : max node.chain.finalizedHeight
      (finalizedHeightFromAttestationWeights node.chain.finalizedHeight
        (∅ : Std.ExtTreeMap UInt64 ℕ) threshold) = node.chain.finalizedHeight := by
    rw [hnone]
    exact if_pos (UInt64.le_refl _)
  exact hmax _

namespace OpolysNode.Quiet

theorem new {config : GenesisConfig} {keyFile : Option (List UInt8)} {start : OpolysNode}
    (h : OpolysNode.new P config keyFile BlockchainStore.empty = .ok start) : start.Quiet := by
  obtain ⟨accounts, hgenesis, -, -, hstore, hevidence, -⟩ := OpolysNode.new_fresh h
  obtain ⟨-, -, -, -, -, -, -, hsignatures, hfinalized, hattesters⟩ := genesisState_chain hgenesis
  exact ⟨hsignatures, hattesters, hfinalized, hevidence, _, hstore⟩

theorem step {node : OpolysNode} (h : node.Quiet) {call : Call} (hplain : call.block.Plain)
    (haccepts : node.accepts P call = true) : (node.step P call).Quiet := by
  obtain ⟨st, hst⟩ := accepted_of_accepts haccepts
  obtain ⟨hfinalized, hattesters⟩ := hst.finality_of_none hplain.attestations
  refine ⟨?_, hattesters h.attesters, hfinalized.trans h.finalized, ?_, ?_⟩
  · rw [hst.detected.2, noted_of_unsigned _ hplain.signature]
    exact h.signatures
  · rw [hst.pendingSlashEvidence_eq, doubleSigned_of_unsigned _ _ hplain.signature, h.evidence]
    rfl
  · obtain ⟨store, hstore⟩ := h.store
    rcases hst.store_cases hstore with hsame | ⟨-, store', hstore', -⟩
    · exact ⟨store, hsame⟩
    · exact ⟨store', hstore'⟩

theorem run {node : OpolysNode} (h : node.Quiet) {calls : List Call}
    (hplain : ∀ call ∈ calls, call.block.Plain)
    (hall : Transition.EveryStep (OpolysNode.step P)
      (fun node call => node.accepts P call = true) node calls) :
    (Transition.run (OpolysNode.step P) node calls).Quiet := by
  induction calls generalizing node with
  | nil => exact h
  | cons call calls ih =>
    have hstep := h.step (hplain call List.mem_cons_self) hall.1
    exact ih hstep (fun c hc => hplain c (List.mem_cons_of_mem _ hc)) hall.2

end OpolysNode.Quiet

namespace Reference

theorem plain_tick (delay : ℕ) (transactions : List Transaction) (node : OpolysNode) :
    (tick delay transactions node).block.Plain := ⟨rfl, rfl, rfl⟩

theorem plain_idleAll (delay n : ℕ) (node : OpolysNode) :
    ∀ call ∈ idleAll delay n node, call.block.Plain := by
  induction n generalizing node with
  | zero => nofun
  | succ n ih =>
    unfold idleAll
    rw [List.forall_mem_cons]
    exact ⟨plain_tick delay [] node, ih _⟩

/-! ## A set with one refiner -/

/-- A set with one refiner. -/
def sole (r : RefinerInfo) : RefinerSet where
  cachedRefiners := Registry.empty.put r
  activeSet := if r.status = .active then [r.objectId] else []
  unbondingQueue := []

theorem values_sole (r : RefinerInfo) : (sole r).cachedRefiners.values = [r] := by
  refine List.perm_singleton.mp ((List.perm_ext_iff_of_nodup
    (sole r).cachedRefiners.nodup_values (List.nodup_singleton r)).mpr fun x => ?_)
  have hempty : x ∉ (Registry.empty : Registry RefinerInfo.objectId).values := by
    rw [Registry.mem_values, Registry.get?_empty]
    nofun
  rw [List.mem_singleton]
  exact (Registry.mem_values_put_new (Registry.get?_empty _)).trans (or_iff_left hempty)

theorem getRefiner_sole (r : RefinerInfo) : (sole r).getRefiner r.objectId = some r :=
  Registry.get?_put_name _ r

/-- A set is known from its records, its active ids and its queue. -/
theorem eq_sole {set : RefinerSet} {r : RefinerInfo} (hvalues : set.cachedRefiners.values = [r])
    (hactive : set.activeSet = if r.status = .active then [r.objectId] else [])
    (hqueue : set.unbondingQueue = []) : set = sole r := by
  obtain ⟨cachedRefiners, activeSet, unbondingQueue⟩ := set
  dsimp only at hvalues hactive hqueue
  have hrecords := Registry.ofList_values cachedRefiners
  rw [hvalues] at hrecords
  unfold sole
  rw [← hrecords, hactive, hqueue]
  rfl

theorem put_sole (r : RefinerInfo) {r' : RefinerInfo} (h : r'.objectId = r.objectId) :
    (sole r).cachedRefiners.put r' = (sole r').cachedRefiners :=
  Registry.put_put _ h.symm

theorem activateMaturedRefiners_sole (r : RefinerInfo) (height : BlockHeight) :
    (sole r).activateMaturedRefiners height =
      sole (if RefinerSet.isMatured height r then RefinerSet.startWaiting height r else r) := by
  unfold RefinerSet.activateMaturedRefiners
  rw [values_sole]
  cases hmatured : RefinerSet.isMatured height r with
  | false => simp [hmatured]
  | true =>
    have hbonding : r.status = .bonding := by
      unfold RefinerSet.isMatured at hmatured
      rw [Bool.and_eq_true] at hmatured
      exact of_decide_eq_true hmatured.1
    have hupdate : (sole r).cachedRefiners.update r.objectId (RefinerSet.startWaiting height) =
        (sole (RefinerSet.startWaiting height r)).cachedRefiners := by
      rw [Registry.update_of_some (getRefiner_sole r)]
      exact put_sole r rfl
    simp only [List.filter_cons, hmatured, if_true, List.filter_nil, List.map_cons, List.map_nil,
      List.foldl_cons, List.foldl_nil]
    rw [hupdate]
    unfold sole
    rw [hbonding]
    rfl

theorem rerankRefiners_sole {r : RefinerInfo} (hstake : r.totalStake > 0)
    (hstatus : r.status ≠ .slashed) (totalIssued : FlakeAmount) :
    (sole r).rerankRefiners totalIssued = sole r.promoted := by
  have hlimit := RefinerSet.activeRefinerLimit_pos totalIssued
  unfold RefinerSet.rerankRefiners
  rw [values_sole]
  simp only [List.filter_cons, hstake, hstatus, ne_eq, not_false_eq_true, and_self, decide_true,
    if_true, List.filter_nil, List.map_cons, List.map_nil, List.insertionSort_cons,
    List.insertionSort_nil, List.orderedInsert_nil, List.zipIdx_cons, List.zipIdx_nil,
    List.foldl_cons, List.foldl_nil]
  unfold RefinerSet.rankRefiner
  dsimp only
  rw [getRefiner_sole]
  dsimp only
  rw [if_pos hlimit]
  unfold RefinerInfo.promoted
  split
  · rename_i hwaiting
    have hid : { r with status := .active }.objectId = r.objectId := rfl
    have hput := put_sole r hid
    unfold sole at hput ⊢
    rw [hput, hwaiting]
    rfl
  · rfl

theorem ranked_sole {r : RefinerInfo} (hstake : r.totalStake > 0) (hstatus : r.status ≠ .slashed)
    (height : BlockHeight) (totalIssued : FlakeAmount) :
    (sole r).ranked height totalIssued =
      let r := if RefinerSet.isMatured height r then RefinerSet.startWaiting height r else r
      sole (if isEpochBoundary height then r.promoted else r) := by
  unfold RefinerSet.ranked
  dsimp only
  rw [activateMaturedRefiners_sole]
  split
  · split
    · exact rerankRefiners_sole (r := RefinerSet.startWaiting height r) hstake nofun totalIssued
    · exact rerankRefiners_sole hstake hstatus totalIssued
  · rfl

theorem activeRefiners_sole (r : RefinerInfo) :
    (sole r).activeRefiners = if r.status = .active then [r] else [] := by
  have hget := getRefiner_sole r
  unfold RefinerSet.activeRefiners
  change (if r.status = .active then [r.objectId] else []).filterMap (sole r).getRefiner = _
  split
  · rw [List.filterMap_cons, hget]
    rfl
  · rfl

theorem totalBondedStake_sole {r : RefinerInfo}
    (h : r.status = .bonding ∨ r.status = .waiting ∨ r.status = .active) :
    (sole r).totalBondedStake = r.totalStake := by
  have hzero (a : UInt64) : saturatingAdd 0 a = a := by
    rw [← UInt64.toNat_inj, MachineInt.toNat_saturatingAdd, UInt64.toNat_zero]
    have := a.toNat_lt
    omega
  unfold RefinerSet.totalBondedStake
  rw [activeRefiners_sole, values_sole]
  rcases h with h | h | h <;> simp [h, hzero]

/-- Where the stake is a power of two, the only active refiner is selected at once. -/
theorem selectBlockProducer_sole {r : RefinerInfo} (hactive : r.status = .active)
    (hstake : r.totalStake = 2 ^ 29) (seed : UInt64) :
    (sole r).selectBlockProducer seed = some r := by
  have hnat : (2 ^ 29 : UInt64).toNat = 536870912 := rfl
  have hpos : r.totalStake > 0 := by
    rw [hstake]
    decide
  have hsum : saturatingAdd 0 r.totalStake = 2 ^ 29 := by
    rw [hstake]
    decide
  have hdraw : uniformAmountFromSeed seed (2 ^ 29) =
      some (UInt64.ofNat (seed.toNat % 536870912)) := by
    have hfuel : (2 ^ 64 : ℕ) = 18446744073709551615 + 1 := rfl
    unfold uniformAmountFromSeed
    dsimp only
    rw [hnat, if_neg (by decide), hfuel, drawTicket, if_pos]
    have := seed.toNat_lt
    omega
  unfold RefinerSet.selectBlockProducer
  rw [activeRefiners_sole, if_pos hactive]
  simp only [List.filter_cons, hpos, decide_true, if_true, List.filter_nil,
    List.insertionSort_cons, List.insertionSort_nil, List.orderedInsert_nil, List.foldl_cons,
    List.foldl_nil, hsum, hdraw]
  unfold RefinerSet.pickByTicket
  dsimp only
  rw [hsum, if_pos]
  rw [UInt64.lt_iff_toNat_lt, hnat, MachineInt.toNat_ofNat_of_lt (by omega)]
  omega

/-! ## The bond -/

/-- The refiner of the chain, with its bond of the first block. -/
def refiner (status : RefinerStatus) (lastSignedHeight : BlockHeight) (count : UInt64) :
    RefinerInfo where
  objectId := account 1
  entries := [{ stake := 2 ^ 29, bondedAtHeight := 1, bondedAtTimestamp := 90 }]
  status
  lastSignedHeight
  consecutiveCorrectAttestations := count

theorem totalStake_refiner (status : RefinerStatus) (lastSignedHeight : BlockHeight)
    (count : UInt64) : (refiner status lastSignedHeight count).totalStake = 2 ^ 29 := rfl

/-- A chain whose blocks are paid nothing. -/
def bondConfig : GenesisConfig :=
  { config [(1, 1000000000)] with initialDifficulty := 7, baseReward := 1 }

/-- The node that mines on it. -/
def founder : OpolysNode := start bondConfig (some 1)

theorem new_founder : OpolysNode.new primitives bondConfig (some (seed 1).bytes)
    BlockchainStore.empty = .ok founder := new_start bondConfig (some 1) (by decide +kernel)

/-- The first block holds the bond. -/
def bondCall : Call := tick 90 (signed 1 (.refinerBond (2 ^ 29)) 100000 0) founder

/-- The node after the first block. -/
def bonded : OpolysNode := founder.step primitives bondCall

/-- What the first block leaves. -/
structure Bonded (node : OpolysNode) : Prop where
  height : node.chain.currentHeight = 1
  difficulty : node.chain.currentDifficulty = 7
  baseReward : node.chain.baseReward = 1
  issued : node.chain.totalIssued = 1000000000
  refiners : node.refiners = sole (refiner .bonding 0 0)
  ready : Ready 90 node

/-- The first block, computed. -/
theorem bonded_computed :
    (founder.accepts primitives bondCall = true ∧ bonded.chain.currentHeight = 1 ∧
        bonded.chain.currentDifficulty = 7 ∧ bonded.chain.baseReward = 1 ∧
        bonded.chain.totalIssued = 1000000000) ∧
      (bonded.refiners.cachedRefiners.values = [refiner .bonding 0 0] ∧
        bonded.refiners.activeSet = [] ∧ bonded.refiners.unbondingQueue = []) ∧
      bonded.Conserved ∧
      (∀ a ∈ bonded.accounts.values, (a.publicKey.getD []).length < 2 ^ 32) ∧
      bonded.minerId.hash.isZero = false ∧
      checkMinedProducer bonded.accounts bonded.minerId = .ok () ∧
      bonded.accounts.keyOf (account 1) = some (publicKey 1).bytes ∧
      bonded.chain.blockTimestamps = [0, 90] ∧
      Borsh.fits (AccountStore.allAccounts bonded.accounts) = true := by
  unfold OpolysNode.Conserved OpolysNode.Balanced OpolysNode.held
  decide +kernel

theorem accepts_bondCall : founder.accepts primitives bondCall = true := bonded_computed.1.1

theorem bonded_bonded : Bonded bonded := by
  obtain ⟨⟨-, hheight, hdifficulty, hbase, hissued⟩, ⟨hvalues, hactive, hqueue⟩, hconserved, hkeys,
    hidentity, hproducer, -, htimestamps, -⟩ := bonded_computed
  have hrefiners := eq_sole hvalues hactive hqueue
  refine ⟨hheight, hdifficulty, hbase, hissued, hrefiners, hconserved, ?_, hidentity, hproducer,
    ?_⟩
  · refine encodable_of_values hkeys fun r hr => ?_
    unfold OpolysNode.ledger at hr
    rw [hvalues, List.mem_singleton] at hr
    rw [hr]
    decide
  · unfold Tip.Ticking ChainState.tip
    dsimp only
    rw [hheight, htimestamps]
    decide

/-! ## From the bond to the first epoch boundary and the second -/

theorem isMatured_iff {height : BlockHeight} {status : RefinerStatus} {last : BlockHeight}
    {count : UInt64} : RefinerSet.isMatured height (refiner status last count) = true ↔
      status = .bonding ∧ 961 ≤ height.toNat := by
  have hmature : (saturatingAdd 1 epoch).toNat = 961 := by decide
  have hle : saturatingAdd 1 epoch ≤ height ↔ 961 ≤ height.toNat := by
    rw [UInt64.le_iff_toNat_le, hmature]
  unfold RefinerSet.isMatured refiner
  rw [Bool.and_eq_true, decide_eq_true_iff, decide_eq_true_iff, hle]

theorem isEpochBoundary_iff {height : BlockHeight} :
    isEpochBoundary height = true ↔ 0 < height.toNat ∧ height.toNat % 960 = 0 := by
  unfold isEpochBoundary
  rw [Bool.and_eq_true, decide_eq_true_iff, decide_eq_true_iff, gt_iff_lt, UInt64.lt_iff_toNat_lt,
    ← UInt64.toNat_inj, UInt64.toNat_mod, toNat_epoch, UInt64.toNat_zero]

theorem ranked_refiner {status : RefinerStatus} (hstatus : status ≠ .slashed)
    (last height : BlockHeight) (count : UInt64) (totalIssued : FlakeAmount) :
    (sole (refiner status last count)).ranked height totalIssued =
      let r := if status = .bonding ∧ 961 ≤ height.toNat then refiner .waiting height count
        else refiner status last count
      sole (if 0 < height.toNat ∧ height.toNat % 960 = 0 then r.promoted else r) := by
  rw [ranked_sole (by rw [totalStake_refiner]; decide) hstatus]
  have hwaiting : RefinerSet.startWaiting height (refiner status last count) =
      refiner .waiting height count := rfl
  dsimp only
  rw [hwaiting]
  refine congrArg sole (if_congr isEpochBoundary_iff ?_ ?_)
  · exact congrArg RefinerInfo.promoted (if_congr isMatured_iff rfl rfl)
  · exact if_congr isMatured_iff rfl rfl

/-- A chain with the refiner in some status. -/
structure Stage (status : RefinerStatus) (lastSignedHeight : BlockHeight) (count : UInt64)
    (node : OpolysNode) : Prop extends Ready 90 node where
  difficulty : node.chain.currentDifficulty = 7
  baseReward : node.chain.baseReward = 1
  issued : node.chain.totalIssued = 1000000000
  accounts : node.accounts = bonded.accounts
  refiners : node.refiners = sole (refiner status lastSignedHeight count)

theorem stage_bonded : Stage .bonding 0 0 bonded :=
  { bonded_bonded.ready with
    difficulty := bonded_bonded.difficulty
    baseReward := bonded_bonded.baseReward
    issued := bonded_bonded.issued
    accounts := rfl
    refiners := bonded_bonded.refiners }

variable {status : RefinerStatus} {lastSignedHeight : BlockHeight} {count : UInt64}
  {node : OpolysNode}

theorem Stage.floor (h : Stage status lastSignedHeight count node)
    (hstatus : status = .bonding ∨ status = .waiting ∨ status = .active) :
    computeConsensusFloor node.chain.totalIssued node.refiners.totalBondedStake ≤
      node.chain.currentDifficulty := by
  rw [h.refiners, totalBondedStake_sole hstatus, h.issued, h.difficulty, totalStake_refiner]
  decide

theorem Stage.idling (h : Stage status lastSignedHeight count node)
    (hstatus : status = .bonding ∨ status = .waiting ∨ status = .active) {last : ℕ}
    (hsettled : ∀ height : BlockHeight, node.chain.currentHeight < height → height.toNat ≤ last →
      node.refiners.ranked height node.chain.totalIssued = node.refiners) :
    Idling 90 last node :=
  { h.toReady with
    queue := by rw [h.refiners]; rfl
    unpaid := by rw [h.baseReward, h.difficulty]; decide
    solvable := by rw [h.difficulty]; decide
    floor := h.floor hstatus
    settled := hsettled }

theorem Stage.expectedDifficulty (h : Stage status lastSignedHeight count node)
    (hstatus : status = .bonding ∨ status = .waiting ∨ status = .active)
    (hheight : node.chain.currentHeight.toNat < 2 ^ 32) : node.expectedDifficulty = 7 := by
  rw [expectedDifficulty_held h.toReady hheight (Or.inr rfl) (by rw [h.difficulty]; decide)
    (by rw [h.difficulty]; decide) (h.floor hstatus), h.difficulty]

/-- An idle block that ranks the refiner. -/
theorem Stage.turn (h : Stage status lastSignedHeight count node)
    (hstatus : status = .bonding ∨ status = .waiting ∨ status = .active)
    (hheight : node.chain.currentHeight.toNat < 2 ^ 32) (status' : RefinerStatus)
    (lastSignedHeight' : BlockHeight)
    (hranked : (sole (refiner status lastSignedHeight count)).ranked (node.chain.currentHeight + 1)
      node.chain.totalIssued = sole (refiner status' lastSignedHeight' count)) :
    node.accepts primitives (tick 90 [] node) = true ∧
      Stage status' lastSignedHeight' count (node.step primitives (tick 90 [] node)) ∧
      (node.step primitives (tick 90 [] node)).chain.currentHeight =
        node.chain.currentHeight + 1 := by
  have hexpected := h.expectedDifficulty hstatus hheight
  obtain ⟨haccepts, hready, hidled⟩ := idle_step h.toReady
    ⟨by rw [hexpected, h.baseReward]; decide, by rw [hexpected]; decide⟩
    (by rw [h.refiners]; rfl) ⟨by omega, by omega⟩ hheight
  refine ⟨haccepts, { hready with
    difficulty := hidled.difficulty.trans hexpected
    baseReward := hidled.baseReward.trans h.baseReward
    issued := hidled.issued.trans h.issued
    accounts := hidled.accounts.trans h.accounts
    refiners := ?_ }, hidled.height⟩
  rw [hidled.refiners, h.refiners, hranked]

/-- Idle blocks that leave the refiner as it is. -/
theorem Stage.idle (h : Stage status lastSignedHeight count node)
    (hstatus : status = .bonding ∨ status = .waiting ∨ status = .active) (n : ℕ)
    (hlast : node.chain.currentHeight.toNat + n < 2 ^ 32)
    (hsettled : ∀ height : BlockHeight, node.chain.currentHeight < height →
      height.toNat ≤ node.chain.currentHeight.toNat + n →
        (sole (refiner status lastSignedHeight count)).ranked height node.chain.totalIssued =
          sole (refiner status lastSignedHeight count)) :
    let node' := Transition.run (OpolysNode.step primitives) node (idleAll 90 n node)
    Transition.EveryStep (OpolysNode.step primitives)
        (fun node call => node.accepts primitives call = true) node (idleAll 90 n node) ∧
      Stage status lastSignedHeight count node' ∧
      node'.chain.currentHeight.toNat = node.chain.currentHeight.toNat + n := by
  rw [← h.refiners] at hsettled
  obtain ⟨hall, hidling, hheight, hdifficulty, hbase, hissued, haccounts, hrefiners⟩ :=
    idle_run n (h.idling hstatus hsettled) ⟨by omega, by omega⟩ le_rfl hlast (Or.inr rfl)
  exact ⟨hall, { hidling.toReady with
    difficulty := hdifficulty.trans h.difficulty
    baseReward := hbase.trans h.baseReward
    issued := hissued.trans h.issued
    accounts := haccounts.trans h.accounts
    refiners := hrefiners.trans h.refiners }, hheight⟩

/-! ## The run -/

/-- Plain blocks lead from one node to another. -/
def Reaches (node node' : OpolysNode) : Prop :=
  ∃ calls, (∀ call ∈ calls, call.block.Plain) ∧
    Transition.EveryStep (OpolysNode.step primitives)
      (fun node call => node.accepts primitives call = true) node calls ∧
    Transition.run (OpolysNode.step primitives) node calls = node'

theorem Reaches.identity {node node' : OpolysNode} (h : Reaches node node') :
    node'.minerId = node.minerId ∧ node'.signingKey = node.signingKey := by
  obtain ⟨calls, -, -, rfl⟩ := h
  induction calls generalizing node with
  | nil => exact ⟨rfl, rfl⟩
  | cons call calls ih =>
    have hstep := OpolysNode.identity_step (P := primitives) node call
    have hrest := @ih (node.step primitives call)
    exact ⟨hrest.1.trans hstep.1, hrest.2.trans hstep.2⟩

/-- Plain blocks lead from one node to another, one height after the other. -/
def Climbs (node node' : OpolysNode) : Prop :=
  ∃ calls, (∀ call ∈ calls, call.block.Plain) ∧
    Transition.EveryStep (OpolysNode.step primitives)
      (fun node call => node.accepts primitives call = true) node calls ∧
    Transition.run (OpolysNode.step primitives) node calls = node' ∧
    node'.chain.currentHeight.toNat = node.chain.currentHeight.toNat + calls.length

theorem Climbs.reaches {node node' : OpolysNode} (h : Climbs node node') : Reaches node node' := by
  obtain ⟨calls, hplain, hall, hrun, -⟩ := h
  exact ⟨calls, hplain, hall, hrun⟩

theorem Climbs.trans {a b c : OpolysNode} (h : Climbs a b) (h' : Climbs b c) : Climbs a c := by
  obtain ⟨calls, hplain, hall, rfl, hheight⟩ := h
  obtain ⟨calls', hplain', hall', rfl, hheight'⟩ := h'
  refine ⟨calls ++ calls', List.forall_mem_append.mpr ⟨hplain, hplain'⟩,
    Transition.everyStep_append.mpr ⟨hall, hall'⟩, Transition.run_append _ _ _ _, ?_⟩
  rw [List.length_append, hheight', hheight]
  exact Nat.add_assoc _ _ _

theorem Climbs.tick {delay : ℕ} {transactions : List Transaction} {node : OpolysNode}
    (h : node.accepts primitives (tick delay transactions node) = true)
    (hheight : (node.step primitives (tick delay transactions node)).chain.currentHeight.toNat =
      node.chain.currentHeight.toNat + 1) :
    Climbs node (node.step primitives (tick delay transactions node)) := by
  refine ⟨[Reference.tick delay transactions node], fun call hcall => ?_, ⟨h, trivial⟩, rfl,
    hheight⟩
  rw [List.mem_singleton.mp hcall]
  exact plain_tick delay transactions node

theorem length_idleAll (delay n : ℕ) (node : OpolysNode) : (idleAll delay n node).length = n := by
  induction n generalizing node with
  | zero => rfl
  | succ n ih =>
    unfold idleAll
    rw [List.length_cons, ih]

/-- The chain at height 1920, with its refiner active. -/
structure Refining (node : OpolysNode) : Prop extends Stage .active 961 0 node, node.Quiet where
  height : node.chain.currentHeight.toNat = 1920
  minerId : node.minerId = account 1
  signingKey : node.signingKey = some (seed 1)

/-- Until height 960 the refiner is bonding. -/
theorem climbs_bonding : ∃ node, Climbs founder node ∧ Stage .bonding 0 0 node ∧
    node.chain.currentHeight.toNat = 960 := by
  have hone : bonded.chain.currentHeight.toNat = 1 := by
    rw [bonded_bonded.height]
    rfl
  have hzero : founder.chain.currentHeight.toNat = 0 := by
    obtain ⟨accounts, hgenesis, -⟩ := OpolysNode.new_fresh new_founder
    rw [(OpolysNode.genesisState_chain hgenesis).2.1]
    rfl
  have hstart : Climbs founder bonded :=
    Climbs.tick accepts_bondCall (hone.trans (by rw [hzero]))
  obtain ⟨hall, hstage, hheight⟩ := stage_bonded.idle (Or.inl rfl) 959 (by omega) (by
    intro height _ hle
    have hstatus : RefinerStatus.bonding ≠ .slashed := nofun
    have hearly : ¬(RefinerStatus.bonding = .bonding ∧ 961 ≤ height.toNat) := by omega
    rw [ranked_refiner hstatus]
    dsimp only
    rw [if_neg hearly, RefinerInfo.promoted_of_bonding rfl, ite_self])
  have hclimbs : Climbs bonded
      (Transition.run (OpolysNode.step primitives) bonded (idleAll 90 959 bonded)) :=
    ⟨_, plain_idleAll 90 959 bonded, hall, rfl, by rw [length_idleAll]; exact hheight⟩
  exact ⟨_, hstart.trans hclimbs, hstage, by omega⟩

/-- From height 961 to height 1919 it waits. -/
theorem climbs_waiting : ∃ node, Climbs founder node ∧ Stage .waiting 961 0 node ∧
    node.chain.currentHeight.toNat = 1919 := by
  obtain ⟨node, hclimbs, hstage, hheight⟩ := climbs_bonding
  have hone : (1 : UInt64).toNat = 1 := rfl
  have hnext : node.chain.currentHeight + 1 = 961 := by
    rw [← UInt64.toNat_inj, MachineInt.toNat_add_of_lt (by omega), hheight]
    rfl
  obtain ⟨haccepts, hwaiting, hturned⟩ := hstage.turn (Or.inl rfl) (by omega) .waiting 961 (by
      have hstatus : RefinerStatus.bonding ≠ .slashed := nofun
      rw [ranked_refiner hstatus, hnext]
      rfl)
  have hmoved := congrArg UInt64.toNat hturned
  rw [MachineInt.toNat_add_of_lt (by omega), hone] at hmoved
  have hclimbs := hclimbs.trans (Climbs.tick haccepts hmoved)
  generalize node.step primitives (tick 90 [] node) = node' at hwaiting hmoved hclimbs
  obtain ⟨hall, hlast, hheight'⟩ := hwaiting.idle (Or.inr (Or.inl rfl)) 958 (by omega) (by
    intro height hlt hle
    rw [UInt64.lt_iff_toNat_lt] at hlt
    have hstatus : RefinerStatus.waiting ≠ .slashed := nofun
    have hnot : ¬(RefinerStatus.waiting = .bonding ∧ 961 ≤ height.toNat) := fun h => nomatch h.1
    have hinside : ¬(0 < height.toNat ∧ height.toNat % 960 = 0) := by omega
    rw [ranked_refiner hstatus]
    dsimp only
    rw [if_neg hnot, if_neg hinside])
  have hclimbs' : Climbs node'
      (Transition.run (OpolysNode.step primitives) node' (idleAll 90 958 node')) :=
    ⟨_, plain_idleAll 90 958 node', hall, rfl, by rw [length_idleAll]; exact hheight'⟩
  exact ⟨_, hclimbs.trans hclimbs', hlast, by omega⟩

/-- At the end of the second epoch it becomes active. -/
theorem climbs_refining : ∃ node, Climbs founder node ∧ Refining node := by
  obtain ⟨node, hclimbs, hstage, hheight⟩ := climbs_waiting
  have hone : (1 : UInt64).toNat = 1 := rfl
  have hnext : node.chain.currentHeight + 1 = 1920 := by
    rw [← UInt64.toNat_inj, MachineInt.toNat_add_of_lt (by omega), hheight]
    rfl
  obtain ⟨haccepts, hactive, hturned⟩ := hstage.turn (Or.inr (Or.inl rfl)) (by omega) .active 961
    (by
      have hstatus : RefinerStatus.waiting ≠ .slashed := nofun
      rw [ranked_refiner hstatus, hnext]
      rfl)
  have hmoved := congrArg UInt64.toNat hturned
  rw [MachineInt.toNat_add_of_lt (by omega), hone] at hmoved
  have hclimbs := hclimbs.trans (Climbs.tick haccepts hmoved)
  generalize node.step primitives (tick 90 [] node) = node' at hactive hturned hclimbs
  have hidentity := hclimbs.reaches.identity
  have hquiet : node'.Quiet := by
    obtain ⟨calls, hplain, hall, rfl⟩ := hclimbs.reaches
    exact (OpolysNode.Quiet.new new_founder).run hplain hall
  have hfounder : founder.minerId = account 1 ∧ founder.signingKey = some (seed 1) := by
    decide +kernel
  refine ⟨node', hclimbs, { hactive, hquiet with
    height := ?_
    minerId := hidentity.1.trans hfounder.1
    signingKey := hidentity.2.trans hfounder.2 }⟩
  rw [hturned, hnext]
  rfl

theorem reaches_refining : ∃ node, Reaches founder node ∧ Refining node := by
  obtain ⟨node, hclimbs, hrefining⟩ := climbs_refining
  exact ⟨node, hclimbs.reaches, hrefining⟩

/-! ## A refined block -/

/-- The call with which the refiner signs a block, `late` seconds after the last one. -/
def refine (late : ℕ) (node : OpolysNode) : Call :=
  let nowSecs := node.chain.blockTimestamps.getLast?.getD 0 + UInt64.ofNat late
  { env := { nowSecs, writeOk := true }
    block := withRefinerSignature primitives (seed 1)
      ((node.candidateBlock primitives nowSecs {}).toOption.getD emptyBlock) }

/-- What the refiner signs. -/
structure RefinedBlock (late : ℕ) (node : OpolysNode) (block : Block) : Prop where
  height : block.header.height = node.chain.currentHeight + 1
  previousHash : block.header.previousHash = node.chain.latestBlockHash
  timestamp : block.header.timestamp.toNat = node.chain.currentHeight.toNat * 90 + late
  difficulty : block.header.difficulty = node.expectedDifficulty
  producer : block.header.producer = node.minerId
  signature : block.header.refinerSignature = some (primitives.sign (seed 1)
    (refinerBlockSigningPayload (computeBlockHash primitives block.header))).bytes
  unmined : block.header.powProof = none
  transactions : block.transactions = []
  evidence : block.slashEvidence = []
  attestations : block.attestations = []
  ceremony : block.genesisCeremony = none
  extension : block.header.extensionRoot = none

/-- The block that the refiner signs, whenever its parent has come. -/
structure SignedBlock (late : ℕ) (node : OpolysNode) (block : Block) : Prop where
  height : block.header.height = node.chain.currentHeight + 1
  previousHash : block.header.previousHash = node.chain.latestBlockHash
  timestamp : block.header.timestamp.toNat =
    (node.chain.blockTimestamps.getLast?.getD 0).toNat + late
  difficulty : block.header.difficulty = node.expectedDifficulty
  producer : block.header.producer = node.minerId
  signature : block.header.refinerSignature = some (primitives.sign (seed 1)
    (refinerBlockSigningPayload (computeBlockHash primitives block.header))).bytes
  unmined : block.header.powProof = none
  transactions : block.transactions = []
  evidence : block.slashEvidence = []
  attestations : block.attestations = []
  ceremony : block.genesisCeremony = none
  extension : block.header.extensionRoot = none

theorem nonzero_account : (account 1).hash.isZero = false := by decide +kernel

theorem checkBlock_signed {late : ℕ} {node : OpolysNode} (hminer : node.minerId = account 1)
    (hheight : node.chain.currentHeight.toNat < 2 ^ 32) (hlate : 45 ≤ late ∧ late < 2 ^ 16)
    (hnext : (node.chain.blockTimestamps.getLast?.getD 0).toNat + late < 2 ^ 64) :
    checkBlock primitives (refine late node).env (refine late node).block node = .ok .refined ∧
      SignedBlock late node (refine late node).block := by
  have hlateNat : (UInt64.ofNat late).toNat = late := MachineInt.toNat_ofNat_of_lt (by omega)
  unfold refine
  dsimp only
  generalize hlast : node.chain.blockTimestamps.getLast?.getD 0 = last at hnext ⊢
  generalize hnow : last + UInt64.ofNat late = now
  have hnowNat : now.toNat = last.toNat + late := by
    rw [← hnow, MachineInt.toNat_add_of_lt (by omega), hlateNat]
  have htime : node.candidateTimestamp now = now := by
    have hfortyfive : minimumBlockTimestampDeltaSecs.toNat = 45 := rfl
    rw [← UInt64.toNat_inj, OpolysNode.candidateTimestamp, hlast, MachineInt.toNat_max,
      MachineInt.toNat_saturatingAdd, hfortyfive, hnowNat]
    omega
  obtain ⟨block, hblock⟩ : ∃ block, node.candidateBlock primitives now {} = .ok block := ⟨_, rfl⟩
  obtain ⟨-, -, hblockHeight, hprevious, -, hblockTime, hdifficulty, hproducer, hext,
    -, htransactions, hevidence, hattestations, hceremony⟩ :=
    OpolysNode.candidateBlock_eq_ok hblock
  have hunmined : block.header.powProof = none := by
    cases hblock
    rfl
  rw [hblock]
  change checkBlock primitives _ (withRefinerSignature primitives (seed 1) block) node =
    .ok .refined ∧ SignedBlock late node (withRefinerSignature primitives (seed 1) block)
  generalize hsignature : (primitives.sign (seed 1) (refinerBlockSigningPayload
    (computeBlockHash primitives block.header))).bytes = signature
  have hlength : signature.length = 64 := by
    rw [← hsignature]
    exact Codec.FixedBytes.length_bytes _
  have hproofs : withRefinerSignature primitives (seed 1) block =
      block.withProofs none (some signature) := by
    rw [← hsignature, ← hunmined]
    rfl
  rw [hproofs]
  refine ⟨?_, hblockHeight, hprevious, ?_, hdifficulty, hproducer, ?_, rfl, htransactions,
    hevidence, hattestations, hceremony, hext⟩
  · have hone : (1 : UInt64).toNat = 1 := rfl
    have hnonzero : ¬block.header.height = 0 := by
      rw [hblockHeight, ← UInt64.toNat_inj, MachineInt.toNat_add_of_lt (by omega), hone,
        UInt64.toNat_zero]
      omega
    have hkind : (block.withProofs none (some signature)).header.productionKind =
        some .refined := BlockHeader.productionKind_refined hnonzero rfl rfl
    refine (checkBlock_candidate hblock _ _ _ _).mpr ⟨hkind, ?_, ?_, fun _ => ?_⟩
    · dsimp only
      rw [htime, UInt64.le_iff_toNat_le, MachineInt.toNat_saturatingAdd]
      have := now.toNat_lt
      omega
    · have hfields : block.withProofs none (some signature) =
          ⟨(block.withProofs none (some signature)).header, [], [], [], none⟩ :=
        Block.ext rfl htransactions hevidence hattestations hceremony
      have hlengths : (Borsh.encode (none : Option (List UInt8))).length +
          (Borsh.encode (some signature)).length ≤ 100 := by
        rw [length_encode_some_bytes, hlength]
        decide
      have hsize : blockSize ⟨(block.withProofs none (some signature)).header, [], [], [], none⟩ ≤
          450 + (Borsh.encode ([] : List Transaction)).length +
            (Borsh.encode ([] : List BlockAttestation)).length :=
        blockSize_le_of_proofs hext hlengths rfl (fits_some_bytes (by omega)) rfl rfl
      rw [hfields]
      exact ⟨Nat.zero_le _, Nat.zero_le _, Nat.zero_le _, hsize.trans (by decide), List.nodup_nil,
        fun _ htx => absurd htx List.not_mem_nil, fun _ hev => absurd hev List.not_mem_nil⟩
    · unfold checkProof
      rw [hkind]
      dsimp only
      rw [Effect.check_bind_eq_ok]
      refine ⟨?_, Effect.check_eq_ok.mpr hlength⟩
      change block.header.producer.hash.isZero = false
      rw [hproducer, hminer]
      exact nonzero_account
  · change block.header.timestamp.toNat = _
    rw [hblockTime, htime, hnowNat, hlast]
  · change some signature = some (primitives.sign (seed 1) (refinerBlockSigningPayload
      (computeBlockHash primitives block.header))).bytes
    rw [hsignature]

theorem checkBlock_refine {late : ℕ} {node : OpolysNode} (h : Refining node)
    (hlate : 45 ≤ late ∧ late < 2 ^ 16) :
    checkBlock primitives (refine late node).env (refine late node).block node = .ok .refined ∧
      RefinedBlock late node (refine late node).block := by
  have hheight := h.height
  have hlast : node.chain.blockTimestamps.getLast? =
      some (UInt64.ofNat (node.chain.currentHeight.toNat * 90)) := h.ticking.getLast?
  have hlastNat : (node.chain.blockTimestamps.getLast?.getD 0).toNat =
      node.chain.currentHeight.toNat * 90 := by
    rw [hlast, Option.getD_some, MachineInt.toNat_ofNat_of_lt (by omega)]
  obtain ⟨hcheck, hblock⟩ := checkBlock_signed h.minerId (by omega) hlate (by omega)
  exact ⟨hcheck, hblock.height, hblock.previousHash, hblock.timestamp.trans (by rw [hlastNat]),
    hblock.difficulty, hblock.producer, hblock.signature, hblock.unmined, hblock.transactions,
    hblock.evidence, hblock.attestations, hblock.ceremony, hblock.extension⟩

theorem keyOf_bonded : bonded.accounts.keyOf (account 1) = some (publicKey 1).bytes := by
  obtain ⟨-, -, -, -, -, -, hkey, -⟩ := bonded_computed
  exact hkey

/-- A signature of the refiner verifies under the key that it has registered. -/
theorem verifyRefinerSignature_signed {header : BlockHeader}
    (hproducer : header.producer = account 1)
    (hsignature : header.refinerSignature = some (primitives.sign (seed 1)
      (refinerBlockSigningPayload (computeBlockHash primitives header))).bytes) :
    verifyRefinerSignature primitives bonded.accounts header = .ok () := by
  obtain ⟨registered, haccount, hpublic⟩ := Option.bind_eq_some_iff.mp keyOf_bonded
  have hverify : primitives.verifyStrict (publicKey 1)
      (refinerBlockSigningPayload (computeBlockHash primitives header))
      (primitives.sign (seed 1) (refinerBlockSigningPayload
        (computeBlockHash primitives header))) = true := verify_sign _ _
  have hget : bonded.accounts.getAccount (account 1) = some registered := haccount
  unfold verifyRefinerSignature
  rw [hsignature, hproducer, nonzero_account]
  dsimp only
  rw [if_neg Bool.false_ne_true, Codec.FixedBytes.ofList?_bytes]
  dsimp only
  rw [hget]
  dsimp only
  rw [hpublic]
  dsimp only
  rw [Codec.FixedBytes.ofList?_bytes]
  dsimp only
  rw [Effect.check_bind_eq_ok, Effect.check_eq_ok]
  exact ⟨rfl, hverify⟩

theorem verifyRefinerSignature_refine {late : ℕ} {node : OpolysNode} {block : Block}
    (h : Refining node) (hblock : RefinedBlock late node block) :
    verifyRefinerSignature primitives node.accounts block.header = .ok () := by
  rw [h.accounts]
  exact verifyRefinerSignature_signed (hblock.producer.trans h.minerId) hblock.signature

/-- A chain with its refiner active, whatever its pace and its difficulty. -/
structure Signing (node : OpolysNode) : Prop extends Prepared node where
  minerId : node.minerId = account 1
  baseReward : node.chain.baseReward = 1
  issued : node.chain.totalIssued = 1000000000
  accounts : node.accounts = bonded.accounts
  refiners : node.refiners = sole (refiner .active 961 0)

theorem Refining.signing (h : Refining node) : Signing node :=
  { h.toReady.prepared with
    minerId := h.minerId
    baseReward := h.baseReward
    issued := h.issued
    accounts := h.accounts
    refiners := h.refiners }

theorem checkProducer_signed {late : ℕ} {node finalized : OpolysNode} {block : Block}
    (h : Signing node) (hblock : SignedBlock late node block)
    (haccounts : finalized.accounts = node.accounts)
    (hrefiners : finalized.refiners = node.refiners) :
    checkProducer primitives .refined block.header finalized = .ok () := by
  have hproducer : block.header.producer = account 1 := hblock.producer.trans h.minerId
  have hselected : checkRefinedProducer finalized.chain.latestBlockHash finalized.refiners
      block.header.producer = .ok () := by
    unfold checkRefinedProducer
    rw [hrefiners, h.refiners, selectBlockProducer_sole rfl (totalStake_refiner _ _ _), hproducer]
    exact Effect.check_eq_ok.mpr rfl
  unfold checkProducer
  rw [haccounts, h.accounts, verifyRefinerSignature_signed hproducer hblock.signature,
    Effect.ok_bind]
  dsimp only
  rw [hproducer, nonzero_account, if_neg Bool.false_ne_true, ← hproducer]
  exact hselected

/-- The signed block is accepted where the difficulty leaves no reward. -/
theorem accepts_signed {late : ℕ} {node : OpolysNode} (h : Signing node)
    (hheight : node.chain.currentHeight.toNat < 2 ^ 32) (hlate : 45 ≤ late ∧ late < 2 ^ 16)
    (hnext : (node.chain.blockTimestamps.getLast?.getD 0).toNat + late < 2 ^ 64)
    (hunpaid : 1 < node.expectedDifficulty.toNat) :
    node.accepts primitives (refine late node) = true := by
  obtain ⟨hcheck, hblock⟩ := checkBlock_signed h.minerId hheight hlate hnext
  generalize refine late node = call at hcheck hblock ⊢
  have hgross : (node.rewardOf primitives .refined call.block.header).grossReward = 0 := by
    unfold OpolysNode.rewardOf
    rw [blockReward_of_lt]
    rw [hblock.difficulty, h.baseReward]
    exact hunpaid
  have hattest : processAttestations primitives call.block node =
      .ok () (advanceFinality (activeRefinerWeightMilliThreshold node.refiners
        call.block.header.timestamp) call.block.header.timestamp ∅ node) := by
    unfold processAttestations
    rw [hblock.attestations]
    rfl
  obtain ⟨hash, node', hrun⟩ := applyBlock_succeeds h.conserved hcheck hattest
    (checkProducer_signed h hblock rfl rfl)
    (by rw [hgross]; exact node.chain.totalIssued.toNat_lt) h.encodable (by
      rw [hblock.transactions]
      decide)
  unfold OpolysNode.accepts OpolysNode.outcome
  rw [hrun]
  rfl

/-- The clock has not run out, and the difficulty leaves no reward. -/
theorem Refining.paced {late : ℕ} {node : OpolysNode} (h : Refining node) (hlate : late < 2 ^ 16) :
    node.chain.currentHeight.toNat < 2 ^ 32 ∧
      (node.chain.blockTimestamps.getLast?.getD 0).toNat + late < 2 ^ 64 ∧
      1 < node.expectedDifficulty.toNat := by
  have hheight : node.chain.currentHeight.toNat < 2 ^ 32 := by
    rw [h.height]
    omega
  refine ⟨hheight, ?_, ?_⟩
  · have hlast : node.chain.blockTimestamps.getLast? =
        some (UInt64.ofNat (node.chain.currentHeight.toNat * 90)) := h.ticking.getLast?
    rw [hlast, Option.getD_some, MachineInt.toNat_ofNat_of_lt (by omega)]
    omega
  · rw [h.expectedDifficulty (Or.inr (Or.inr rfl)) hheight]
    decide

theorem accepts_refine {late : ℕ} {node : OpolysNode} (h : Refining node)
    (hlate : 45 ≤ late ∧ late < 2 ^ 16) :
    node.accepts primitives (refine late node) = true := by
  obtain ⟨hheight, hnext, hunpaid⟩ := h.paced hlate.2
  exact accepts_signed h.signing hheight hlate hnext hunpaid

/-! ## What the refined block leaves -/

/-- The chain state can be written while nobody has attested a block. -/
theorem fits_toPersisted {chain : ChainState} (hsize : chain.producerSignatures.size < 2 ^ 32)
    (hsignatures : ∀ (key : UInt64 × ObjectId) (hash : Hash) (sig : List UInt8),
      chain.producerSignatures[key]? = some (hash, sig) → sig.length < 2 ^ 32)
    (hattesters : chain.attestationFinalityRefiners = ∅) :
    Borsh.fits chain.toPersisted = true := by
  have htimestamps : Borsh.fits (ChainState.pruneBlockTimestamps chain.blockTimestamps) = true := by
    refine Borsh.fits_list.mpr ⟨?_, fun _ _ => rfl⟩
    unfold ChainState.pruneBlockTimestamps
    rw [List.length_drop, blockTimestampWindowLen_eq]
    omega
  have hnotes : Borsh.fits (chain.producerSignatures.toList.map
      fun e => (e.1.1, e.1.2, e.2.1, e.2.2)) = true := by
    refine Borsh.fits_list.mpr ⟨?_, fun note hnote => ?_⟩
    · rw [List.length_map, Std.ExtTreeMap.length_toList]
      exact hsize
    · obtain ⟨⟨key, hash, sig⟩, hmem, rfl⟩ := List.mem_map.mp hnote
      have hget := Std.ExtTreeMap.mem_toList_iff_getElem?_eq_some.mp hmem
      have hsig : Borsh.fits sig = true :=
        Borsh.fits_list.mpr ⟨hsignatures key hash sig hget, fun _ _ => rfl⟩
      exact hsig
  have hindex : Borsh.fits (chain.attestationFinalityRefiners.toList.map
      fun e => (e.1.1, e.1.2, e.2.toList)) = true := by
    rw [hattesters]
    rfl
  have hfields (state : PersistedChainState) : Borsh.fits state =
      (Borsh.fits state.blockTimestamps && (Borsh.fits state.producerSignatures &&
        (true && Borsh.fits state.attestationFinalityRefiners))) := rfl
  rw [hfields]
  unfold ChainState.toPersisted
  dsimp only
  rw [htimestamps, hnotes, hindex]
  rfl

theorem fits_bonded : Borsh.fits (AccountStore.allAccounts bonded.accounts) = true := by
  obtain ⟨-, -, -, -, -, -, -, -, hfits⟩ := bonded_computed
  exact hfits

theorem fits_refined {late : ℕ} {node : OpolysNode} {block : Block}
    (h : RefinedBlock late node block) : Borsh.fits block = true := by
  have hsignature : Borsh.fits block.header.refinerSignature = true := by
    rw [h.signature]
    exact fits_some_bytes (by rw [Codec.FixedBytes.length_bytes]; omega)
  have hheader : Borsh.fits block.header = (Borsh.fits block.header.extensionRoot &&
      (true && (Borsh.fits block.header.powProof &&
        Borsh.fits block.header.refinerSignature))) := rfl
  have hfields : Borsh.fits block = (Borsh.fits block.header && (Borsh.fits block.transactions &&
      (Borsh.fits block.slashEvidence && (Borsh.fits block.attestations &&
        Borsh.fits block.genesisCeremony)))) := rfl
  rw [hfields, hheader, hsignature, h.extension, h.unmined, h.transactions, h.evidence,
    h.attestations, h.ceremony]
  rfl

/-- A refined block is stored, and the refiner stays active. -/
structure Holding (block : Block) (count : UInt64) (node : OpolysNode) : Prop
    extends Stage .active 961 count node where
  refined : block.header.isRefined = true
  height : block.header.height.toNat = 1921
  stored : ∃ store, node.store = some store ∧
    store.loadBlock block.header.height = some block

theorem ranked_active {height : BlockHeight} (count : UInt64) (totalIssued : FlakeAmount) :
    (sole (refiner .active 961 count)).ranked height totalIssued =
      sole (refiner .active 961 count) := by
  have hstatus : RefinerStatus.active ≠ .slashed := nofun
  have hnot : ¬(RefinerStatus.active = .bonding ∧ 961 ≤ height.toNat) := fun h => nomatch h.1
  have hpromoted : (refiner .active 961 count).promoted = refiner .active 961 count := rfl
  rw [ranked_refiner hstatus]
  dsimp only
  rw [if_neg hnot, hpromoted, ite_self]

/-- The database can encode what it writes of the refined block and the node that takes it. -/
theorem writable_refined {late : ℕ} {node node' : OpolysNode} {env : Env} {block : Block}
    {st : Stages} (h : Refining node) (hst : Accepted primitives env block node node' st)
    (hblock : RefinedBlock late node block) (haccounts : node'.accounts = bonded.accounts)
    (hrefiners : node'.refiners = sole (refiner .active 961 0)) :
    BlockchainStore.Writable block node' := by
  refine ⟨fits_refined hblock, fits_toPersisted ?_ ?_ ?_, ?_, ?_, ?_, ?_⟩
  · rw [hst.detected.2, h.signatures]
    exact (size_noted_le _ _).trans_lt (by decide)
  · intro key hash sig hnoted
    rw [hst.detected.2, h.signatures] at hnoted
    rcases getElem?_noted hnoted with hnone | hsig
    · cases hnone
    · rw [hblock.signature] at hsig
      rw [← Option.some.inj hsig, Codec.FixedBytes.length_bytes]
      omega
  · exact (hst.finality_of_none hblock.attestations).2 h.attesters
  · rw [haccounts]
    exact fits_bonded
  · rw [hrefiners]
    unfold RefinerSet.allRefiners
    rw [values_sole]
    decide
  · rw [hrefiners]
    rfl
  · rw [hrefiners]
    rfl

/-- The refined block pays nothing and is stored. -/
theorem holding_refine {node : OpolysNode} (h : Refining node) :
    Holding (refine 90 node).block 0 (node.step primitives (refine 90 node)) ∧
      (node.step primitives (refine 90 node)).chain.currentHeight.toNat = 1921 := by
  have hlate : 45 ≤ 90 ∧ 90 < 2 ^ 16 := ⟨by omega, by omega⟩
  have haccepts := accepts_refine h hlate
  obtain ⟨hcheck, hblock⟩ := checkBlock_refine h hlate
  obtain ⟨st, hst⟩ := OpolysNode.accepted_of_accepts haccepts
  have hexpected := h.expectedDifficulty (Or.inr (Or.inr rfl)) (by rw [h.height]; omega)
  have hwrite : (refine 90 node).env.writeOk = true := rfl
  have hheight := h.height
  have hone : (1 : UInt64).toNat = 1 := rfl
  generalize refine 90 node = call at haccepts hcheck hblock hst hwrite ⊢
  have hattested := hst.attested_of_none hblock.attestations
  have hreward : st.opening.reward = ⟨0, 0, 0, 0⟩ := by
    rw [hst.reward_eq]
    refine blockReward_of_lt ?_
    rw [hblock.difficulty, hexpected, hst.finalized_frame]
    dsimp only
    rw [h.baseReward]
    decide
  obtain ⟨hready, hidled⟩ := empty_step h.toReady hst (by omega) (by
      rw [← UInt64.toNat_inj, hblock.timestamp, hheight]
      rfl) (Block.barren_of_empty hblock.transactions) hblock.evidence hreward
    (by rw [hattested, h.refiners]; rfl)
  rw [hattested] at hidled
  have hrefiners : (node.step primitives call).refiners = sole (refiner .active 961 0) := by
    rw [hidled.refiners, h.refiners, ranked_active]
  have hblockHeight : call.block.header.height.toNat = 1921 := by
    rw [hblock.height, MachineInt.toNat_add_of_lt (by omega), hone, hheight]
  refine ⟨{ hready with
    difficulty := hidled.difficulty.trans hexpected
    baseReward := hidled.baseReward.trans h.baseReward
    issued := hidled.issued.trans h.issued
    accounts := hidled.accounts.trans h.accounts
    refiners := hrefiners
    refined := decide_eq_true (checkBlock_eq_ok hcheck).1
    height := hblockHeight
    stored := ?_ }, ?_⟩
  · obtain ⟨store, hstore⟩ := h.toQuiet.store
    have hwritable := writable_refined h hst hblock (hidled.accounts.trans h.accounts) hrefiners
    obtain ⟨store', hstore', hsaved⟩ := hst.saved hstore hwrite hwritable
    refine ⟨store', hstore', ?_⟩
    unfold BlockchainStore.loadBlock
    rw [hsaved.blocks_eq, FiniteMap.getElem?_insert', if_pos rfl]
  · rw [hidled.height, MachineInt.toNat_add_of_lt (by omega), hone, hheight]

end Reference

end Opolys
