import Opolys.Library.Tally
import Opolys.Node.Finality
import Opolys.Node.Refining
import Opolys.Rpc.Server

/-!
# The confidence of a block

The server says how sure a refined block is. It collects the attestations of the block from the
blocks after it, counts every attester once, and answers with the share of the active weight that
has attested. The node counts the attesters it has indexed and compares them with a threshold.

* `confidence_agrees` : when the share of the server reaches the quorum of the node.
-/

namespace Opolys

open Std (ExtTreeSet)
open MachineInt (saturatingAdd saturatingSub saturatingAdd128 saturatingMul128 max128)

/-! ## The handler -/

/-- How a request names a block. -/
inductive BlockSelector where
  | height (height : BlockHeight)
  | hash (hash : Hash)

/-- Why the server says nothing of a block. -/
inductive ConfidenceError where
  | notFound
deriving DecidableEq

/-- What the server says of a block. The hash is sent as hexadecimal text. -/
structure BlockConfidenceResponse where
  height : BlockHeight
  blockHash : Hash
  confirmations : UInt64
  finalized : Bool
  securityModel : String
  attestationRequired : Bool
  attestationCount : ℕ
  attestingWeight : UInt64
  totalActiveWeight : UInt64
  confidenceMilli : UInt64
  confidencePercent : String
  includedThroughHeight : BlockHeight
deriving DecidableEq

/-- The block that a request names. -/
def loadConfidenceTargetBlock (store : BlockchainStore) : BlockSelector → Option Block
  | .height height => store.loadBlock height
  | .hash hash => store.loadBlockByHash hash

/-- The words from `first` to `last`. -/
def inclusiveRange (first last : UInt64) : List UInt64 :=
  (List.range (last.toNat + 1 - first.toNat)).map fun i => UInt64.ofNat (first.toNat + i)

/-- The blocks at heights, up to the first height that is not stored. -/
def scanBlocks (store : BlockchainStore) : List UInt64 → List (UInt64 × Block)
  | [] => []
  | height :: heights =>
    match store.loadBlock height with
    | none => []
    | some block => (height, block) :: scanBlocks store heights

/-- The weight of those refiners that are active. -/
def totalActiveRefinerWeight (refiners : RefinerSet) (currentTimestamp : UInt64) : ℕ :=
  ((refiners.allRefiners.filter fun r => r.status = .active).map
    fun r => (r.weight currentTimestamp).toNat).sum

/-- Count an attestation of the target, unless its refiner has been seen. -/
def countAttestation (targetHeight : BlockHeight) (targetHash : Hash) (refiners : RefinerSet)
    (currentTimestamp : UInt64) (tally : ExtTreeSet ObjectId × ℕ)
    (attestation : BlockAttestation) : ExtTreeSet ObjectId × ℕ :=
  if attestation.height ≠ targetHeight ∨ attestation.blockHash ≠ targetHash then tally
  else if attestation.refiner ∈ tally.1 then tally
  else
    let seenRefiners := tally.1.insert attestation.refiner
    match refiners.getRefiner attestation.refiner with
    | none => (seenRefiners, tally.2)
    | some refiner =>
      if refiner.status = .active then
        (seenRefiners, saturatingAdd128 tally.2 (refiner.weight currentTimestamp).toNat)
      else (seenRefiners, tally.2)

/-- How many refiners have attested the target, and the weight of those that are active. -/
def attestationConfidenceWeight (targetHeight : BlockHeight) (targetHash : Hash)
    (attestations : List BlockAttestation) (refiners : RefinerSet) (currentTimestamp : UInt64) :
    ℕ × ℕ :=
  let tally := attestations.foldl
    (countAttestation targetHeight targetHash refiners currentTimestamp) (∅, 0)
  (tally.1.size, tally.2)

/-- The share of the active weight in thousandths, rounded down. -/
def confidenceMilli (attestingWeight totalActiveWeight : ℕ) : UInt64 :=
  let share :=
    if totalActiveWeight = 0 then 0 else saturatingMul128 attestingWeight 1000 / totalActiveWeight
  UInt64.ofNat (min share 1000)

/-- What the server says of a block. -/
def handleGetBlockConfidence (P : Primitives) (chain : ChainInfo) (refiners : RefinerSet)
    (store : BlockchainStore) (selector : BlockSelector) :
    Except ConfidenceError BlockConfidenceResponse :=
  match loadConfidenceTargetBlock store selector with
  | none => .error .notFound
  | some targetBlock =>
    let targetHeight := targetBlock.header.height
    let targetHash := computeBlockHash P targetBlock.header
    let currentTimestamp := chain.blockTimestamps.getLast?.getD 0
    let confirmations := saturatingAdd (saturatingSub chain.height targetHeight) 1
    let finalized := decide (targetHeight ≤ chain.finalizedHeight)
    if targetBlock.header.isRefined = false then
      .ok {
        height := targetHeight, blockHash := targetHash, confirmations, finalized
        securityModel := "pow"
        attestationRequired := false
        attestationCount := 0, attestingWeight := 0, totalActiveWeight := 0, confidenceMilli := 0
        confidencePercent := "n/a"
        includedThroughHeight := targetHeight }
    else
      let scanThroughHeight := min chain.height (saturatingAdd targetHeight epoch)
      let included := scanBlocks store
        (inclusiveRange (saturatingAdd targetHeight 1) scanThroughHeight)
      let includedAttestations := included.flatMap fun entry => entry.2.attestations
      let totalActiveWeight := totalActiveRefinerWeight refiners currentTimestamp
      let (attestationCount, attestingWeight) := attestationConfidenceWeight targetHeight targetHash
        includedAttestations refiners currentTimestamp
      let confidenceMilli := confidenceMilli attestingWeight totalActiveWeight
      .ok {
        height := targetHeight, blockHash := targetHash, confirmations, finalized
        securityModel := "refiner_attestation"
        attestationRequired := true
        attestationCount
        attestingWeight := UInt64.ofNatClamp attestingWeight
        totalActiveWeight := UInt64.ofNatClamp totalActiveWeight
        confidenceMilli
        confidencePercent := s!"{confidenceMilli / 10}.{confidenceMilli % 10}"
        includedThroughHeight := (included.getLast?.map Prod.fst).getD targetHeight }

/-! ## Counting -/

/-- The blocks after a block from which its attestations are collected. -/
def includedBlocks (chain : ChainInfo) (store : BlockchainStore) (targetHeight : BlockHeight) :
    List Block :=
  (scanBlocks store (inclusiveRange (saturatingAdd targetHeight 1)
    (min chain.height (saturatingAdd targetHeight epoch)))).map Prod.snd

/-- The refiners whose attestations of a block are in later blocks. -/
def attestersOf (targetHeight : BlockHeight) (targetHash : Hash) (blocks : List Block) :
    ExtTreeSet ObjectId :=
  ExtTreeSet.ofList (((blocks.flatMap Block.attestations).filter fun a =>
    a.height = targetHeight ∧ a.blockHash = targetHash).map BlockAttestation.refiner)

namespace RefinerSet

/-- The weight a vote of an identity has. -/
def activeWeight (refiners : RefinerSet) (timestamp : UInt64) (id : ObjectId) : ℕ :=
  match refiners.getRefiner id with
  | none => 0
  | some r => if r.status = .active then (r.weight timestamp).toNat else 0

/-- The node counts the active weight of a set, up to the greatest word. -/
theorem indexedAttestationWeight_eq (attesters : ExtTreeSet ObjectId) (refiners : RefinerSet)
    (timestamp : UInt64) :
    indexedAttestationWeightForRefiners attesters refiners timestamp =
      min (Tally.ofSet (refiners.activeWeight timestamp) attesters) max128 := by
  have hfold (ids : List ObjectId) {weight : ℕ} (hweight : weight ≤ max128) :
      ((ids.filterMap refiners.getRefiner).filter fun r => r.status = .active).foldl
        (fun weight r => saturatingAdd128 weight (r.weight timestamp).toNat) weight =
          min (weight + (ids.map (refiners.activeWeight timestamp)).sum) max128 := by
    induction ids generalizing weight with
    | nil => simp [hweight]
    | cons id ids ih =>
      rw [List.map_cons, List.sum_cons]
      unfold activeWeight
      cases hr : refiners.getRefiner id with
      | none =>
        rw [List.filterMap_cons_none hr, ih hweight]
        simp
        rfl
      | some r =>
        rw [List.filterMap_cons_some hr, List.filter_cons]
        by_cases hactive : r.status = .active
        · have hcap : saturatingAdd128 weight (r.weight timestamp).toNat ≤ max128 :=
          min_le_right _ _
          simp only [hactive, decide_true, if_true, List.foldl_cons]
          rw [ih hcap]
          unfold saturatingAdd128
          change min (_ + (ids.map (refiners.activeWeight timestamp)).sum) _ =
            min (_ + (_ + (ids.map (refiners.activeWeight timestamp)).sum)) _
          omega
        · simp only [hactive, decide_false, Bool.false_eq_true, if_false]
          rw [ih hweight, Nat.zero_add]
          rfl
  unfold indexedAttestationWeightForRefiners Tally.ofSet
  rw [hfold _ (Nat.zero_le _), Nat.zero_add]

end RefinerSet

/-- An attestation of the target is a vote of its refiner, and every other one is none. -/
theorem countAttestation_eq (targetHeight : BlockHeight) (targetHash : Hash) (refiners : RefinerSet)
    (timestamp : UInt64) {tally : ExtTreeSet ObjectId × ℕ} (h : tally.2 ≤ max128)
    (attestation : BlockAttestation) :
    countAttestation targetHeight targetHash refiners timestamp tally attestation =
      if attestation.height = targetHeight ∧ attestation.blockHash = targetHash then
        Tally.count (refiners.activeWeight timestamp) max128 tally attestation.refiner
      else tally := by
  unfold countAttestation Tally.count RefinerSet.activeWeight
  by_cases htarget : attestation.height = targetHeight ∧ attestation.blockHash = targetHash
  · rw [if_pos htarget, if_neg (by tauto)]
    by_cases hseen : attestation.refiner ∈ tally.1
    · rw [if_pos hseen, if_pos hseen]
    · rw [if_neg hseen, if_neg hseen]
      dsimp only
      cases refiners.getRefiner attestation.refiner with
      | none => simp [h]
      | some r =>
        by_cases hactive : r.status = .active
        · simp [hactive, saturatingAdd128]
        · simp [hactive, h]
  · rw [if_neg htarget, if_pos (by tauto)]

theorem foldl_countAttestation (targetHeight : BlockHeight) (targetHash : Hash)
    (refiners : RefinerSet) (timestamp : UInt64) (attestations : List BlockAttestation)
    {tally : ExtTreeSet ObjectId × ℕ} (h : tally.2 ≤ max128) :
    attestations.foldl (countAttestation targetHeight targetHash refiners timestamp) tally =
      ((attestations.filter fun a => a.height = targetHeight ∧ a.blockHash = targetHash).map
        BlockAttestation.refiner).foldl
          (Tally.count (refiners.activeWeight timestamp) max128) tally := by
  induction attestations generalizing tally with
  | nil => rfl
  | cons attestation attestations ih =>
    rw [List.foldl_cons, countAttestation_eq targetHeight targetHash refiners timestamp h,
      List.filter_cons]
    by_cases htarget : attestation.height = targetHeight ∧ attestation.blockHash = targetHash
    · have hcap : (Tally.count (refiners.activeWeight timestamp) max128 tally
          attestation.refiner).2 ≤ max128 := by
        unfold Tally.count
        split
        · exact h
        · exact min_le_right _ _
      simp only [htarget, and_self, decide_true, if_true, List.map_cons, List.foldl_cons]
      exact ih hcap
    · simp only [htarget, decide_false, Bool.false_eq_true, if_false]
      exact ih h

/-- The server counts as the node does. -/
theorem attestationConfidenceWeight_eq (targetHeight : BlockHeight) (targetHash : Hash)
    (blocks : List Block) (refiners : RefinerSet) (timestamp : UInt64) :
    (attestationConfidenceWeight targetHeight targetHash (blocks.flatMap Block.attestations)
      refiners timestamp).2 =
        indexedAttestationWeightForRefiners (attestersOf targetHeight targetHash blocks) refiners
          timestamp := by
  unfold attestationConfidenceWeight
  dsimp only
  rw [foldl_countAttestation _ _ _ _ _ (Nat.zero_le _), Tally.count_votes,
    RefinerSet.indexedAttestationWeight_eq]
  rfl

/-- The share of the server reaches two thirds when the threshold of the node is not zero, its
product fits, and it is reached. -/
theorem le_confidenceMilli_iff (weight total : ℕ) :
    667 ≤ (confidenceMilli weight total).toNat ↔
      (total ≠ 0 ∧ total * 667 < 2 ^ 128) ∧ (total * 667 + 999) / 1000 ≤ weight := by
  have hshare : 667 ≤ min (weight * 1000) max128 / total ↔
      (total ≠ 0 ∧ total * 667 ≤ max128) ∧ (total * 667 + (1000 - 1)) / 1000 ≤ weight :=
    Tally.le_share_iff (by decide) (by decide)
  have hword : total * 667 ≤ max128 ↔ total * 667 < 2 ^ 128 := by
    unfold max128
    omega
  rw [hword] at hshare
  unfold confidenceMilli saturatingMul128
  dsimp only
  rw [MachineInt.toNat_ofNat_of_lt (by omega), ← hshare, le_min_iff]
  by_cases htotal : total = 0
  · simp [htotal]
  · simp [htotal]

/-! ## The quorum -/

theorem weights_lt {refiners : List RefinerInfo} (timestamp : UInt64) :
    (refiners.map fun r => (r.weight timestamp).toNat).sum ≤ refiners.length * 2 ^ 64 := by
  induction refiners with
  | nil => simp
  | cons r refiners ih =>
    have hword := (r.weight timestamp).toNat_lt
    rw [List.map_cons, List.sum_cons, List.length_cons]
    omega

/-- The product of the threshold fits for every set that fits into a memory. -/
theorem totalActiveRefinerWeight_lt {refiners : RefinerSet} (timestamp : UInt64)
    (h : refiners.allRefiners.length < 2 ^ 54) :
    totalActiveRefinerWeight refiners timestamp * 667 < 2 ^ 128 := by
  have hactive := List.length_filter_le (fun r : RefinerInfo => decide (r.status = .active))
    refiners.allRefiners
  have hweights := @weights_lt (refiners.allRefiners.filter fun r => r.status = .active) timestamp
  unfold totalActiveRefinerWeight
  omega

/-- The share that the server reports for a refined block. -/
theorem confidenceMilli_response {P : Primitives} {chain : ChainInfo} {refiners : RefinerSet}
    {store : BlockchainStore} {selector : BlockSelector} {target : Block}
    {response : BlockConfidenceResponse} (timestamp : UInt64)
    (hload : loadConfidenceTargetBlock store selector = some target)
    (hrefined : target.header.isRefined = true)
    (hresponse : handleGetBlockConfidence P chain refiners store selector = .ok response) :
    response.confidenceMilli =
      confidenceMilli (indexedAttestationWeightForRefiners
        (attestersOf target.header.height (computeBlockHash P target.header)
          (includedBlocks chain store target.header.height)) refiners timestamp)
        (totalActiveRefinerWeight refiners timestamp) := by
  unfold handleGetBlockConfidence at hresponse
  rw [hload] at hresponse
  dsimp only at hresponse
  rw [if_neg (by simp [hrefined])] at hresponse
  cases hresponse
  rw [← attestationConfidenceWeight_eq]
  unfold includedBlocks
  rw [List.flatMap_map]
  rfl

/-- Every stored block is answered for. -/
theorem exists_response (P : Primitives) (chain : ChainInfo) (refiners : RefinerSet)
    {store : BlockchainStore} {selector : BlockSelector} {target : Block}
    (hload : loadConfidenceTargetBlock store selector = some target) :
    ∃ response, handleGetBlockConfidence P chain refiners store selector = .ok response := by
  unfold handleGetBlockConfidence
  rw [hload]
  dsimp only
  split
  · exact ⟨_, rfl⟩
  · exact ⟨_, rfl⟩

/-- The server reports at least 667 thousandths for a refined block exactly when the threshold of
the node is not zero (and its product fits into 128 bits, as it does for less than `2 ^ 54`
refiners) and the attesters of the block in the included blocks reach it. -/
theorem confidence_agrees (P : Primitives) {chain : ChainInfo} {refiners : RefinerSet}
    {store : BlockchainStore} {selector : BlockSelector} {target : Block}
    {response : BlockConfidenceResponse} (timestamp : UInt64)
    (hload : loadConfidenceTargetBlock store selector = some target)
    (hrefined : target.header.isRefined = true)
    (hresponse : handleGetBlockConfidence P chain refiners store selector = .ok response) :
    (667 ≤ response.confidenceMilli.toNat ↔
      (activeRefinerWeightMilliThreshold refiners timestamp ≠ 0 ∧
          totalActiveRefinerWeight refiners timestamp * 667 < 2 ^ 128) ∧
        activeRefinerWeightMilliThreshold refiners timestamp ≤
          indexedAttestationWeightForRefiners
            (attestersOf target.header.height (computeBlockHash P target.header)
              (includedBlocks chain store target.header.height)) refiners timestamp) ∧
      (refiners.allRefiners.length < 2 ^ 54 →
        totalActiveRefinerWeight refiners timestamp * 667 < 2 ^ 128) := by
  have hthreshold : activeRefinerWeightMilliThreshold refiners timestamp =
      (totalActiveRefinerWeight refiners timestamp * 667 + 999) / 1000 := rfl
  have hzero : (totalActiveRefinerWeight refiners timestamp * 667 + 999) / 1000 ≠ 0 ↔
      totalActiveRefinerWeight refiners timestamp ≠ 0 := by omega
  refine ⟨?_, totalActiveRefinerWeight_lt timestamp⟩
  rw [confidenceMilli_response timestamp hload hrefined hresponse, hthreshold, hzero]
  exact le_confidenceMilli_iff _ _

namespace Reference

/-- A refined block. -/
def refinedBlock (height : BlockHeight) : Block :=
  { emptyBlock with header := { emptyBlock.header with
      height, powProof := none, refinerSignature := some [] } }

/-- A block with the attestation of a refiner for the first block. -/
def attestingBlock (height : BlockHeight) : Block :=
  { refinedBlock height with attestations := [{
      refiner := account 1
      refinerPubkey := []
      height := 1
      blockHash := computeBlockHash primitives (refinedBlock 1).header
      signature := [] }] }

/-- A database with blocks. -/
def storeOf (blocks : List Block) : BlockchainStore :=
  { BlockchainStore.empty with
    blocks := blocks.foldl (fun stored block => stored.insert block.header.height block) ∅ }

/-- A chain of a height. -/
def chainOf (height : BlockHeight) : ChainInfo :=
  chainStateToInfo { emptyNode.chain with currentHeight := height }

theorem load_storeOf_concat (blocks : List Block) :
    loadConfidenceTargetBlock (storeOf (blocks ++ [refinedBlock 1])) (.height 1) =
      some (refinedBlock 1) := by
  unfold loadConfidenceTargetBlock storeOf BlockchainStore.loadBlock
  rw [List.foldl_append]
  exact FiniteMap.getElem?_insert_self _ _ _

/-- The threshold for the attesters of the first block in blocks. -/
def quorumOf (refiners : RefinerSet) (blocks : List Block) : Bool :=
  activeRefinerWeightMilliThreshold refiners 0 ≤
    indexedAttestationWeightForRefiners
      (attestersOf 1 (computeBlockHash primitives (refinedBlock 1).header) blocks) refiners 0

end Reference

open Reference

/-- The first block, and the next one with the attestation of the only active refiner. -/
theorem confidence_agrees_of_reference :
    ∃ response, handleGetBlockConfidence primitives (chainOf 2) (sole (refiner .active 0 0))
        (storeOf [attestingBlock 2, refinedBlock 1]) (.height 1) = .ok response ∧
      667 ≤ response.confidenceMilli.toNat := by
  have hload := load_storeOf_concat [attestingBlock 2]
  have hrefined : (refinedBlock 1).header.isRefined = true := by decide
  obtain ⟨response, hresponse⟩ :=
    exists_response primitives (chainOf 2) (sole (refiner .active 0 0)) hload
  refine ⟨response, hresponse, ?_⟩
  exact (confidence_agrees primitives 0 hload hrefined hresponse).1.mpr (by decide +kernel)

namespace Reference

theorem loadBlock_storeOf {blocks : List Block} {height : UInt64} {block : Block}
    (h : (storeOf blocks).loadBlock height = some block) :
    block ∈ blocks ∧ block.header.height = height := by
  have hfold (blocks : List Block) (stored : Std.ExtTreeMap UInt64 Block)
      (h : (blocks.foldl (fun stored block => stored.insert block.header.height block)
        stored)[height]? = some block) :
      (block ∈ blocks ∧ block.header.height = height) ∨ stored[height]? = some block := by
    induction blocks generalizing stored with
    | nil => exact Or.inr h
    | cons b blocks ih =>
      rcases ih _ h with ⟨hmem, heq⟩ | hget
      · exact Or.inl ⟨List.mem_cons_of_mem _ hmem, heq⟩
      · rw [FiniteMap.getElem?_insert'] at hget
        split at hget
        · rename_i heq
          cases hget
          exact Or.inl ⟨List.mem_cons_self, heq⟩
        · exact Or.inr hget
  rcases hfold blocks ∅ h with hmem | hempty
  · exact hmem
  · simp at hempty

theorem mem_scanBlocks {store : BlockchainStore} {heights : List UInt64} {entry : UInt64 × Block}
    (h : entry ∈ scanBlocks store heights) :
    entry.1 ∈ heights ∧ store.loadBlock entry.1 = some entry.2 := by
  induction heights with
  | nil => cases h
  | cons height heights ih =>
    unfold scanBlocks at h
    cases hload : store.loadBlock height with
    | none =>
      rw [hload] at h
      cases h
    | some block =>
      rw [hload] at h
      rcases List.mem_cons.mp h with rfl | hmem
      · exact ⟨List.mem_cons_self, hload⟩
      · exact ⟨List.mem_cons_of_mem _ (ih hmem).1, (ih hmem).2⟩

/-- The blocks of an epoch after the first one, and a block with an attestation. -/
def lateBlocks : List Block :=
  attestingBlock 962 :: (List.range 960).map fun i => refinedBlock (UInt64.ofNat (i + 2))

/-- An attestation that comes after the epoch is not collected. -/
theorem late_not_included :
    attestersOf 1 (computeBlockHash primitives (refinedBlock 1).header)
      (includedBlocks (chainOf 962) (storeOf (lateBlocks ++ [refinedBlock 1])) 1) = ∅ := by
  have hnone : ∀ block ∈ includedBlocks (chainOf 962) (storeOf (lateBlocks ++ [refinedBlock 1])) 1,
      block.attestations = [] := by
    intro block hblock
    unfold includedBlocks at hblock
    obtain ⟨entry, hentry, rfl⟩ := List.mem_map.mp hblock
    obtain ⟨hheight, hload⟩ := mem_scanBlocks hentry
    obtain ⟨hmem, heq⟩ := loadBlock_storeOf hload
    rcases List.mem_append.mp hmem with hlate | hfirst
    · unfold lateBlocks at hlate
      rcases List.mem_cons.mp hlate with hattesting | hrest
      · rw [hattesting] at heq
        rw [← heq] at hheight
        exact absurd hheight (by decide +kernel)
      · obtain ⟨i, -, hi⟩ := List.mem_map.mp hrest
        rw [← hi]
        rfl
    · rw [List.mem_singleton.mp hfirst]
      rfl
  have hempty : (includedBlocks (chainOf 962) (storeOf (lateBlocks ++ [refinedBlock 1])) 1).flatMap
      Block.attestations = [] := List.flatMap_eq_nil_iff.mpr hnone
  unfold attestersOf
  rw [hempty]
  rfl

end Reference

/-- Without an active refiner the server reports nothing, while no weight reaches the threshold of
nothing. And the server reports nothing when the attestation comes after the epoch. -/
theorem confidence_disagrees :
    (∃ response, handleGetBlockConfidence primitives (chainOf 2) .new
        (storeOf [refinedBlock 2, refinedBlock 1]) (.height 1) = .ok response ∧
      ¬667 ≤ response.confidenceMilli.toNat ∧ quorumOf .new [refinedBlock 2] = true) ∧
    ∃ response, handleGetBlockConfidence primitives (chainOf 962) (sole (refiner .active 0 0))
        (storeOf (lateBlocks ++ [refinedBlock 1])) (.height 1) = .ok response ∧
      ¬667 ≤ response.confidenceMilli.toNat ∧
      quorumOf (sole (refiner .active 0 0)) lateBlocks = true := by
  have hrefined : (refinedBlock 1).header.isRefined = true := by decide
  constructor
  · have hload := load_storeOf_concat [refinedBlock 2]
    obtain ⟨response, hresponse⟩ := exists_response primitives (chainOf 2) .new hload
    refine ⟨response, hresponse, ?_, by decide +kernel⟩
    rw [confidenceMilli_response 0 hload hrefined hresponse, le_confidenceMilli_iff]
    intro h
    exact h.1.1 (by decide +kernel)
  · have hload := load_storeOf_concat lateBlocks
    obtain ⟨response, hresponse⟩ :=
      exists_response primitives (chainOf 962) (sole (refiner .active 0 0)) hload
    refine ⟨response, hresponse, ?_, by decide +kernel⟩
    have hnone := late_not_included
    have hheight : (refinedBlock 1).header.height = 1 := rfl
    rw [confidenceMilli_response 0 hload hrefined hresponse, le_confidenceMilli_iff, hheight,
      hnone]
    intro h
    exact absurd h.2 (by decide +kernel)

end Opolys
