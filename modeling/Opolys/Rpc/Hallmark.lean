import Opolys.Node.Archive
import Opolys.Node.Confirmation
import Opolys.Rpc.Confidence
import Opolys.Wallet.Amount
import Mathlib.Algebra.Order.BigOperators.Group.List

/-!
# The hallmark of a refiner

The server sums up what a refiner has done in the blocks of the last epoch: refined blocks and
their fees, attestations, and the evidence against it. It reads this off the bodies of the blocks.
The node has credited every attestation of an accepted block, and the receipts hold the fees it
has credited. Evidence, however, may be in a block without the node having acted on it.

* `hallmark_reports_iff` : when the numbers are those of the blocks as they were applied.
-/

namespace Opolys

open MachineInt (saturatingAdd saturatingSub)

/-! ## The handler -/

/-- Why the server says nothing of a refiner. -/
inductive HallmarkError where
  | notFound
deriving DecidableEq

/-- What the server says of a refiner. Id and status are sent as text. -/
structure RefinerHallmarkResponse where
  objectId : ObjectId
  status : RefinerStatus
  totalStakeFlakes : UInt64
  totalStakeOpl : String
  totalWeightFlakes : UInt64
  lastSignedHeight : UInt64
  consecutiveCorrectAttestations : UInt64
  scanFromHeight : UInt64
  scanToHeight : UInt64
  refinedBlocksProduced : UInt64
  attestationsIncluded : UInt64
  slashEventsIncluded : UInt64
  refinerFeeIncomeFlakes : UInt64
  refinerFeeIncomeOpl : String
  missingReceipts : UInt64
  lastRefinedBlockHeight : Option UInt64
  lastAttestationIncludedHeight : Option UInt64
  lastSlashHeight : Option UInt64

/-- The counters of a scan. -/
structure HallmarkScan where
  refinedBlocksProduced : UInt64 := 0
  attestationsIncluded : UInt64 := 0
  slashEventsIncluded : UInt64 := 0
  refinerFeeIncome : UInt64 := 0
  missingReceipts : UInt64 := 0
  lastRefinedBlockHeight : Option UInt64 := none
  lastAttestationIncludedHeight : Option UInt64 := none
  lastSlashHeight : Option UInt64 := none

namespace HallmarkScan

/-- Count a block that the refiner has produced, with the fee income on its receipt. -/
def countRefined (store : BlockchainStore) (refinerId : ObjectId) (block : Block)
    (scan : HallmarkScan) : HallmarkScan :=
  if block.header.isRefined = true ∧ block.header.producer = refinerId then
    let scan := { scan with
      refinedBlocksProduced := saturatingAdd scan.refinedBlocksProduced 1
      lastRefinedBlockHeight := some block.header.height }
    match store.loadBlockReceipt block.header.height with
    | some receipt =>
      { scan with refinerFeeIncome := saturatingAdd scan.refinerFeeIncome receipt.refinerFeeIncome }
    | none => { scan with missingReceipts := saturatingAdd scan.missingReceipts 1 }
  else scan

/-- Count the attestations of the refiner in a block. -/
def countAttestations (refinerId : ObjectId) (block : Block) (scan : HallmarkScan) :
    HallmarkScan :=
  let blockAttestations := UInt64.ofNat
    (block.attestations.filter fun attestation => attestation.refiner = refinerId).length
  if blockAttestations > 0 then
    { scan with
      attestationsIncluded := saturatingAdd scan.attestationsIncluded blockAttestations
      lastAttestationIncludedHeight := some block.header.height }
  else scan

/-- Count the evidence against the refiner in a block. -/
def countSlashes (refinerId : ObjectId) (block : Block) (scan : HallmarkScan) : HallmarkScan :=
  let blockSlashes := UInt64.ofNat
    (block.slashEvidence.filter fun evidence => evidence.producer = refinerId).length
  if blockSlashes > 0 then
    { scan with
      slashEventsIncluded := saturatingAdd scan.slashEventsIncluded blockSlashes
      lastSlashHeight := some block.header.height }
  else scan

/-- Count the block at a height, if there is one. -/
def visit (store : BlockchainStore) (refinerId : ObjectId) (scan : HallmarkScan)
    (height : UInt64) : HallmarkScan :=
  match store.loadBlock height with
  | none => scan
  | some block =>
    countSlashes refinerId block (countAttestations refinerId block
      (countRefined store refinerId block scan))

end HallmarkScan

/-- The first height of a scan. -/
def hallmarkScanFrom (currentHeight : BlockHeight) (lookbackBlocks : UInt64) : BlockHeight :=
  let scanLen := min (min lookbackBlocks epoch) (saturatingAdd currentHeight 1)
  saturatingSub (saturatingAdd currentHeight 1) scanLen

/-- The heights that are scanned. -/
def hallmarkHeights (currentHeight : BlockHeight) (lookbackBlocks : UInt64) : List UInt64 :=
  inclusiveRange (hallmarkScanFrom currentHeight lookbackBlocks) currentHeight

/-- What the server says of a refiner. -/
def handleGetRefinerHallmark (chain : ChainInfo) (refiners : RefinerSet) (store : BlockchainStore)
    (refinerId : ObjectId) (lookbackBlocks : UInt64) :
    Except HallmarkError RefinerHallmarkResponse :=
  let currentTimestamp := chain.blockTimestamps.getLast?.getD 0
  match refiners.getRefiner refinerId with
  | none => .error .notFound
  | some refiner =>
    let scan := (hallmarkHeights chain.height lookbackBlocks).foldl
      (HallmarkScan.visit store refinerId) {}
    .ok {
      objectId := refiner.objectId
      status := refiner.status
      totalStakeFlakes := refiner.totalStake
      totalStakeOpl := Wallet.formatFlakes refiner.totalStake
      totalWeightFlakes := refiner.weight currentTimestamp
      lastSignedHeight := refiner.lastSignedHeight
      consecutiveCorrectAttestations := refiner.consecutiveCorrectAttestations
      scanFromHeight := hallmarkScanFrom chain.height lookbackBlocks
      scanToHeight := chain.height
      refinedBlocksProduced := scan.refinedBlocksProduced
      attestationsIncluded := scan.attestationsIncluded
      slashEventsIncluded := scan.slashEventsIncluded
      refinerFeeIncomeFlakes := scan.refinerFeeIncome
      refinerFeeIncomeOpl := Wallet.formatFlakes scan.refinerFeeIncome
      missingReceipts := scan.missingReceipts
      lastRefinedBlockHeight := scan.lastRefinedBlockHeight
      lastAttestationIncludedHeight := scan.lastAttestationIncludedHeight
      lastSlashHeight := scan.lastSlashHeight }

/-! ## What the node has done -/

namespace AppliedBlock

/-- How many items of evidence against a refiner the node has acted on. -/
def slashEvents (refinerId : ObjectId) (applied : AppliedBlock) : ℕ :=
  (applied.stages.slashing.processed.filter fun key => key.1 = refinerId).length

/-- How many attestations of a refiner the node has credited. -/
def creditedAttestations (refinerId : ObjectId) (applied : AppliedBlock) : ℕ :=
  (applied.stages.log.processed.filter fun key => key.2 = refinerId).length

/-- What the node has credited to a refiner when it settled the fees. -/
def creditedFees (refinerId : ObjectId) (applied : AppliedBlock) : ℕ :=
  (applied.stages.settled.accounts.balanceOf refinerId).toNat -
    (applied.stages.executed.accounts.balanceOf refinerId).toNat

end AppliedBlock

/-- The evidence of a block against a refiner is genuine and names no height twice. -/
structure Block.EvidenceClean (P : Primitives) (refinerId : ObjectId) (block : Block) : Prop where
  genuine : ∀ evidence ∈ block.slashEvidence, evidence.producer = refinerId →
    verifySlashEvidence P evidence = true
  distinct : ((block.slashEvidence.filter fun evidence => evidence.producer = refinerId).map
    DoubleSignEvidence.height).Nodup

variable {P : Primitives} {config : GenesisConfig}

/-! ## One block -/

/-- The keys used after an item of evidence. -/
def useKey (P : Primitives) (processed : List (ObjectId × UInt64)) (item : DoubleSignEvidence) :
    List (ObjectId × UInt64) :=
  if processed.any fun key => key.1 = item.producer ∧ key.2 = item.height then processed
  else if verifySlashEvidence P item = true then (item.producer, item.height) :: processed
  else processed

section Keys

variable {processed : List (ObjectId × UInt64)} {item : DoubleSignEvidence}

theorem any_key_iff :
    (processed.any fun key => key.1 = item.producer ∧ key.2 = item.height) = true ↔
      (item.producer, item.height) ∈ processed := by
  rw [List.any_eq_true]
  constructor
  · rintro ⟨⟨producer, height⟩, hmem, hkey⟩
    obtain ⟨rfl, rfl⟩ := of_decide_eq_true hkey
    exact hmem
  · intro hmem
    exact ⟨_, hmem, decide_eq_true ⟨rfl, rfl⟩⟩

theorem useKey_of_genuine (h : (item.producer, item.height) ∉ processed ∧
    verifySlashEvidence P item = true) :
    useKey P processed item = (item.producer, item.height) :: processed := by
  unfold useKey
  rw [if_neg (mt any_key_iff.mp h.1), if_pos h.2]

theorem useKey_of_not_genuine (h : ¬((item.producer, item.height) ∉ processed ∧
    verifySlashEvidence P item = true)) : useKey P processed item = processed := by
  unfold useKey
  by_cases hmem : (item.producer, item.height) ∈ processed
  · rw [if_pos (any_key_iff.mpr hmem)]
  · rw [if_neg (mt any_key_iff.mp hmem), if_neg fun hgenuine => h ⟨hmem, hgenuine⟩]

end Keys

theorem processed_foldl_slashStep (evidence : List DoubleSignEvidence) (slashing : Slashing) :
    (evidence.foldl (slashStep P) slashing).processed =
      evidence.foldl (useKey P) slashing.processed := by
  induction evidence generalizing slashing with
  | nil => rfl
  | cons item evidence ih =>
    rw [List.foldl_cons, List.foldl_cons, ih, slashStep_eq]
    by_cases hkey : (item.producer, item.height) ∉ slashing.processed ∧
        verifySlashEvidence P item = true
    · rw [if_pos hkey, useKey_of_genuine hkey]
    · rw [if_neg hkey, useKey_of_not_genuine hkey]

/-- How many of the keys name a refiner. -/
def keysOf (refinerId : ObjectId) (processed : List (ObjectId × UInt64)) : ℕ :=
  (processed.filter fun key => key.1 = refinerId).length

/-- No item of evidence uses more than one key, and every item of a refiner uses one exactly
when all of them are genuine and none of them has a key that is used. -/
theorem keysOf_foldl_useKey (refinerId : ObjectId) (evidence : List DoubleSignEvidence)
    (processed : List (ObjectId × UInt64)) :
    let named := evidence.filter fun item => item.producer = refinerId
    let used := keysOf refinerId (evidence.foldl (useKey P) processed)
    used ≤ keysOf refinerId processed + named.length ∧
      (used = keysOf refinerId processed + named.length ↔
        (∀ item ∈ named, verifySlashEvidence P item = true ∧
          (refinerId, item.height) ∉ processed) ∧ (named.map DoubleSignEvidence.height).Nodup) := by
  induction evidence generalizing processed with
  | nil => simp
  | cons item evidence ih =>
    intro named used
    obtain ⟨hle, hiff⟩ := ih (useKey P processed item)
    change used ≤ _ at hle
    change used = _ ↔ _ at hiff
    by_cases hid : item.producer = refinerId
    · have hnamed : named = item :: evidence.filter fun item => item.producer = refinerId :=
        List.filter_cons_of_pos (decide_eq_true hid)
      rw [hnamed, List.length_cons]
      by_cases hkey : (item.producer, item.height) ∉ processed ∧ verifySlashEvidence P item = true
      · have huse : useKey P processed item = (item.producer, item.height) :: processed :=
          useKey_of_genuine hkey
        have hkeys :
            keysOf refinerId (useKey P processed item) = keysOf refinerId processed + 1 := by
          unfold keysOf
          rw [huse, List.filter_cons, if_pos (decide_eq_true hid), List.length_cons]
        rw [hkeys] at hle hiff
        rw [huse, hid] at hiff
        rw [hid] at hkey
        refine ⟨by omega, ?_⟩
        rw [← Nat.add_assoc, Nat.add_right_comm, hiff]
        rw [List.forall_mem_cons, List.map_cons, List.nodup_cons]
        constructor
        · rintro ⟨hall, hnodup⟩
          refine ⟨⟨⟨hkey.2, hkey.1⟩, fun other hother => ⟨(hall other hother).1, fun hmem =>
            (hall other hother).2 (List.mem_cons_of_mem _ hmem)⟩⟩, fun hmem => ?_, hnodup⟩
          obtain ⟨other, hother, hheight⟩ := List.mem_map.mp hmem
          exact (hall other hother).2 (by rw [hheight]; exact List.mem_cons_self)
        · rintro ⟨⟨-, hall⟩, hfresh, hnodup⟩
          refine ⟨fun other hother => ⟨(hall other hother).1, fun hmem => ?_⟩, hnodup⟩
          rcases List.mem_cons.mp hmem with heq | hmem
          · exact hfresh (List.mem_map.mpr ⟨other, hother, (Prod.mk.inj heq).2⟩)
          · exact (hall other hother).2 hmem
      · have huse : useKey P processed item = processed := useKey_of_not_genuine hkey
        rw [huse] at hle
        refine ⟨by omega, iff_of_false (by omega) ?_⟩
        rintro ⟨hall, -⟩
        obtain ⟨hgenuine, hfresh⟩ := hall item List.mem_cons_self
        rw [hid] at hkey
        exact hkey ⟨hfresh, hgenuine⟩
    · have hnamed : named = evidence.filter fun item => item.producer = refinerId :=
        List.filter_cons_of_neg (by simpa using hid)
      have hkeys : keysOf refinerId (useKey P processed item) = keysOf refinerId processed := by
        by_cases hkey : (item.producer, item.height) ∉ processed ∧
            verifySlashEvidence P item = true
        · unfold keysOf
          rw [useKey_of_genuine hkey]
          simp [hid]
        · rw [useKey_of_not_genuine hkey]
      have hmem (height : UInt64) : (refinerId, height) ∈ useKey P processed item ↔
          (refinerId, height) ∈ processed := by
        by_cases hkey : (item.producer, item.height) ∉ processed ∧
            verifySlashEvidence P item = true
        · rw [useKey_of_genuine hkey]
          simp [Ne.symm hid]
        · rw [useKey_of_not_genuine hkey]
      rw [hnamed]
      simp only [hkeys, hmem] at hle hiff
      exact ⟨hle, hiff⟩

/-- What a producer is credited arrives in its account, and nowhere else. -/
theorem balanceOf_creditProducer {producer : ObjectId} {amount : FlakeAmount}
    {accounts accounts' : AccountStore}
    (h : creditProducer producer amount accounts = .ok accounts')
    (hproducer : amount ≠ 0 → producer.hash.isZero = false) (id : ObjectId) :
    (accounts'.balanceOf id).toNat =
      (accounts.balanceOf id).toNat + if producer = id then amount.toNat else 0 := by
  by_cases hamount : amount = 0
  · have hnone : ¬(producer.hash.isZero = false ∧ amount > 0) := by
      rw [hamount]
      exact fun hpos => absurd hpos.2 (by decide)
    unfold creditProducer at h
    rw [if_neg hnone] at h
    cases h
    rw [hamount, UInt64.toNat_zero, ite_self, Nat.add_zero]
  · rw [creditProducer_eq (hproducer hamount) hamount] at h
    obtain ⟨-, -, h⟩ := Effect.bind_eq_ok.mp h
    exact balanceOf_creditOrCreateAccount h id

namespace Accepted

variable {env : Env} {block : Block} {node node' : OpolysNode} {st : Stages}

/-- The node acts on at most the evidence there is, and on all of it exactly when it is clean. -/
theorem slashEvents_iff (h : Accepted P env block node node' st) (refinerId : ObjectId) :
    let events := AppliedBlock.slashEvents refinerId ⟨block, node, st, node'⟩
    let included := (block.slashEvidence.filter fun item => item.producer = refinerId).length
    events ≤ included ∧ (events = included ↔ block.EvidenceClean P refinerId) := by
  intro events included
  have hevents : events = keysOf refinerId (block.slashEvidence.foldl (useKey P) []) := by
    change (st.slashing.processed.filter _).length = _
    rw [h.slashing_eq, processed_foldl_slashStep]
    rfl
  obtain ⟨hle, hiff⟩ := keysOf_foldl_useKey (P := P) refinerId block.slashEvidence []
  rw [← hevents, show keysOf refinerId [] = 0 from rfl, Nat.zero_add] at hle hiff
  refine ⟨hle, hiff.trans ⟨fun ⟨hall, hnodup⟩ => ⟨fun item hmem hid => ?_, hnodup⟩,
    fun hclean => ⟨fun item hmem => ?_, hclean.distinct⟩⟩⟩
  · exact (hall item (List.mem_filter.mpr ⟨hmem, decide_eq_true hid⟩)).1
  · obtain ⟨hmem, hid⟩ := List.mem_filter.mp hmem
    exact ⟨hclean.genuine item hmem (of_decide_eq_true hid), List.not_mem_nil⟩

/-- Every attestation of an accepted block is credited. -/
theorem creditedAttestations_eq (h : Accepted P env block node node' st) (refinerId : ObjectId) :
    AppliedBlock.creditedAttestations refinerId ⟨block, node, st, node'⟩ =
      (block.attestations.filter fun attestation => attestation.refiner = refinerId).length := by
  have hloop (attestations : List BlockAttestation) {log log' : AttestationLog}
      {a b : OpolysNode}
      (hrun : attestations.foldlM (processAttestation P block.header) log a = .ok log' b) :
      log'.processed.countP (fun key => key.2 = refinerId) =
        log.processed.countP (fun key => key.2 = refinerId) +
          attestations.countP fun attestation => attestation.refiner = refinerId := by
    induction attestations generalizing log a with
    | nil =>
      obtain ⟨rfl, -⟩ := Effect.run_pure_eq_ok.mp hrun
      rfl
    | cons attestation attestations ih =>
      rw [List.foldlM_cons, Effect.run_bind_eq_ok] at hrun
      obtain ⟨log1, a1, hone, hrun⟩ := hrun
      obtain ⟨-, -, store, attested, -, -, -, -, refiners, -, rfl, -⟩ :=
        processAttestation_eq_ok hone
      rw [ih hrun, List.countP_cons, List.countP_cons]
      dsimp only
      omega
  have hcount := hloop block.attestations h.attest
  rw [List.countP_nil, Nat.zero_add, List.countP_eq_length_filter,
    List.countP_eq_length_filter] at hcount
  exact hcount

/-- The fees credited to a refiner are on the receipt of the block, if it is a refined block of
that refiner, and else there are none. -/
theorem creditedFees_eq (h : Accepted P env block node node' st) (refinerId : ObjectId) :
    AppliedBlock.creditedFees refinerId ⟨block, node, st, node'⟩ =
      if block.header.isRefined = true ∧ block.header.producer = refinerId then
        (st.receipt P block.header).refinerFeeIncome.toNat
      else 0 := by
  obtain ⟨hkind, hzero, -⟩ := checkBlock_eq_ok h.check
  have hrefined : block.header.isRefined = true ↔ st.kind = .refined := by
    unfold BlockHeader.isRefined
    rw [hkind, decide_eq_true_iff, Option.some.injEq]
  have hproducer : feeIncome st.opening st.tally ≠ 0 →
      block.header.producer.hash.isZero = false := by
    intro hpaid
    refine hzero fun hgenesis => hpaid ?_
    unfold feeIncome
    rw [h.opening_kind, hgenesis]
    rfl
  have hcredit := balanceOf_creditProducer h.fee_credit hproducer refinerId
  unfold AppliedBlock.creditedFees
  dsimp only
  rw [hcredit, Nat.add_sub_cancel_left]
  unfold feeIncome
  rw [h.opening_kind]
  by_cases hkind : st.kind = .refined
  · simp [hrefined.mpr hkind, hkind, Stages.receipt, economicReceipt]
  · have hnot : ¬block.header.isRefined = true := fun hpos => hkind (hrefined.mp hpos)
    simp [hnot, hkind]

end Accepted

/-! ## A scan -/

/-- A counter that adds up numbers over a list of heights, up to the greatest word. -/
theorem HallmarkScan.toNat_foldl_visit {store : BlockchainStore} {refinerId : ObjectId}
    {counter : HallmarkScan → UInt64} {count : UInt64 → ℕ}
    (hvisit : ∀ scan height, (counter (visit store refinerId scan height)).toNat =
      min ((counter scan).toNat + count height) (2 ^ 64 - 1))
    (heights : List UInt64) (scan : HallmarkScan) :
    (counter (heights.foldl (visit store refinerId) scan)).toNat =
      min ((counter scan).toNat + (heights.map count).sum) (2 ^ 64 - 1) := by
  induction heights generalizing scan with
  | nil =>
    have := (counter scan).toNat_lt
    simp only [List.foldl_nil, List.map_nil, List.sum_nil]
    omega
  | cons height heights ih =>
    rw [List.foldl_cons, ih, hvisit, List.map_cons, List.sum_cons]
    omega

/-- The numbers of the blocks that a node has on disk in a window of heights. -/
def writtenTotal (written : UInt64 → Option AppliedBlock) (heights : List UInt64)
    (number : AppliedBlock → ℕ) : ℕ := ((heights.filterMap written).map number).sum

theorem writtenTotal_eq (written : UInt64 → Option AppliedBlock) (heights : List UInt64)
    (number : AppliedBlock → ℕ) :
    writtenTotal written heights number =
      (heights.map fun height => ((written height).map number).getD 0).sum := by
  unfold writtenTotal
  induction heights with
  | nil => rfl
  | cons height heights ih =>
    rw [List.map_cons, List.sum_cons, ← ih]
    cases hwritten : written height with
    | none => simp [List.filterMap_cons_none hwritten]
    | some applied => simp [List.filterMap_cons_some hwritten]

theorem writtenTotal_le {written : UInt64 → Option AppliedBlock} {number bound : AppliedBlock → ℕ}
    (hle : ∀ height applied, written height = some applied → number applied ≤ bound applied)
    (heights : List UInt64) :
    writtenTotal written heights number ≤ writtenTotal written heights bound := by
  rw [writtenTotal_eq, writtenTotal_eq]
  refine List.sum_le_sum fun height _ => ?_
  cases hwritten : written height with
  | none => exact Nat.le_refl _
  | some applied => exact hle height applied hwritten

/-- A total of greater numbers is the same exactly when all the numbers are. -/
theorem writtenTotal_eq_iff {written : UInt64 → Option AppliedBlock} {heights : List UInt64}
    {number bound : AppliedBlock → ℕ}
    (hle : ∀ height applied, written height = some applied → number applied ≤ bound applied) :
    writtenTotal written heights bound = writtenTotal written heights number ↔
      ∀ height ∈ heights, ∀ applied, written height = some applied →
        bound applied = number applied := by
  induction heights with
  | nil => simp [writtenTotal]
  | cons height heights ih =>
    have hrest := writtenTotal_le hle heights
    rw [List.forall_mem_cons, ← ih]
    have hcons (f : AppliedBlock → ℕ) : writtenTotal written (height :: heights) f =
        ((written height).map f).getD 0 + writtenTotal written heights f := by
      rw [writtenTotal_eq, writtenTotal_eq, List.map_cons, List.sum_cons]
    rw [hcons, hcons]
    cases hwritten : written height with
    | none => simp
    | some applied =>
      have hhere := hle height applied hwritten
      simp only [Option.map_some, Option.getD_some, Option.some.injEq, forall_eq']
      omega

/-- A scan goes over at most an epoch of blocks and the first height. -/
theorem length_hallmarkHeights (currentHeight : BlockHeight) (lookbackBlocks : UInt64) :
    (hallmarkHeights currentHeight lookbackBlocks).length ≤ 961 := by
  have hepoch := toNat_epoch
  have hone : (1 : UInt64).toNat = 1 := rfl
  unfold hallmarkHeights inclusiveRange hallmarkScanFrom
  rw [List.length_map, List.length_range, MachineInt.toNat_saturatingSub,
    MachineInt.toNat_min, MachineInt.toNat_min, MachineInt.toNat_saturatingAdd, hone, hepoch]
  have := currentHeight.toNat_lt
  omega

namespace HallmarkScan

variable (store : BlockchainStore) (refinerId : ObjectId) (block : Block) (scan : HallmarkScan)

@[simp] theorem attestationsIncluded_countRefined :
    (countRefined store refinerId block scan).attestationsIncluded = scan.attestationsIncluded := by
  unfold countRefined
  dsimp only
  split
  · split <;> rfl
  · rfl

@[simp] theorem slashEventsIncluded_countRefined :
    (countRefined store refinerId block scan).slashEventsIncluded = scan.slashEventsIncluded := by
  unfold countRefined
  dsimp only
  split
  · split <;> rfl
  · rfl

@[simp] theorem slashEventsIncluded_countAttestations :
    (countAttestations refinerId block scan).slashEventsIncluded = scan.slashEventsIncluded := by
  unfold countAttestations
  dsimp only
  split <;> rfl

@[simp] theorem refinerFeeIncome_countAttestations :
    (countAttestations refinerId block scan).refinerFeeIncome = scan.refinerFeeIncome := by
  unfold countAttestations
  dsimp only
  split <;> rfl

@[simp] theorem attestationsIncluded_countSlashes :
    (countSlashes refinerId block scan).attestationsIncluded = scan.attestationsIncluded := by
  unfold countSlashes
  dsimp only
  split <;> rfl

@[simp] theorem refinerFeeIncome_countSlashes :
    (countSlashes refinerId block scan).refinerFeeIncome = scan.refinerFeeIncome := by
  unfold countSlashes
  dsimp only
  split <;> rfl

theorem toNat_countAttestations {n : ℕ}
    (h : (block.attestations.filter fun item => item.refiner = refinerId).length = n)
    (hn : n < 2 ^ 64) :
    (countAttestations refinerId block scan).attestationsIncluded.toNat =
      min (scan.attestationsIncluded.toNat + n) (2 ^ 64 - 1) := by
  have hword := MachineInt.toNat_ofNat_of_lt hn
  have hlt := scan.attestationsIncluded.toNat_lt
  unfold countAttestations
  rw [h]
  dsimp only
  split
  · rw [MachineInt.toNat_saturatingAdd, hword]
  · rename_i hzero
    rw [gt_iff_lt, UInt64.lt_iff_toNat_lt, UInt64.toNat_zero, hword] at hzero
    omega

theorem toNat_countSlashes {n : ℕ}
    (h : (block.slashEvidence.filter fun item => item.producer = refinerId).length = n)
    (hn : n < 2 ^ 64) :
    (countSlashes refinerId block scan).slashEventsIncluded.toNat =
      min (scan.slashEventsIncluded.toNat + n) (2 ^ 64 - 1) := by
  have hword := MachineInt.toNat_ofNat_of_lt hn
  have hlt := scan.slashEventsIncluded.toNat_lt
  unfold countSlashes
  rw [h]
  dsimp only
  split
  · rw [MachineInt.toNat_saturatingAdd, hword]
  · rename_i hzero
    rw [gt_iff_lt, UInt64.lt_iff_toNat_lt, UInt64.toNat_zero, hword] at hzero
    omega

theorem toNat_countRefined {receipt : BlockEconomicReceipt}
    (h : store.loadBlockReceipt block.header.height = some receipt) :
    (countRefined store refinerId block scan).refinerFeeIncome.toNat =
      min (scan.refinerFeeIncome.toNat +
        if block.header.isRefined = true ∧ block.header.producer = refinerId then
          receipt.refinerFeeIncome.toNat else 0) (2 ^ 64 - 1) := by
  have hlt := scan.refinerFeeIncome.toNat_lt
  unfold countRefined
  rw [h]
  dsimp only
  split
  · exact MachineInt.toNat_saturatingAdd _ _
  · omega

end HallmarkScan

/-! ## The hallmark -/

namespace Archive

variable {node : OpolysNode} {written : UInt64 → Option AppliedBlock} {store : BlockchainStore}

/-- The evidence against a refiner in a block. -/
def evidenceAgainst (refinerId : ObjectId) (applied : AppliedBlock) : ℕ :=
  (applied.block.slashEvidence.filter fun item => item.producer = refinerId).length

theorem counts_lt (h : Archive P config node written) {height : UInt64} {applied : AppliedBlock}
    (hwritten : written height = some applied) (refinerId : ObjectId) :
    evidenceAgainst refinerId applied ≤ 10 ∧
      applied.creditedAttestations refinerId ≤ 1024 := by
  obtain ⟨-, env, hst⟩ := h.accepted hwritten
  have hlimits := checkBlock_limits hst.check
  have hevidence : applied.block.slashEvidence.length ≤ 10 := hlimits.evidence
  have hattestations : applied.block.attestations.length ≤ 1024 := hlimits.attestations
  have hcredited := hst.creditedAttestations_eq refinerId
  exact ⟨(List.length_filter_le _ _).trans hevidence,
    hcredited.le.trans ((List.length_filter_le _ _).trans hattestations)⟩

/-- What a scan of the database counts: the evidence in the blocks, and the attestations and the
fees as they were credited, up to the greatest word. -/
theorem scan_eq (h : Archive P config node written) (hstore : node.store = some store)
    (refinerId : ObjectId) (heights : List UInt64) :
    let scan := heights.foldl (HallmarkScan.visit store refinerId) {}
    scan.slashEventsIncluded.toNat =
        min (writtenTotal written heights (evidenceAgainst refinerId)) (2 ^ 64 - 1) ∧
      scan.attestationsIncluded.toNat =
        min (writtenTotal written heights (AppliedBlock.creditedAttestations refinerId))
          (2 ^ 64 - 1) ∧
      scan.refinerFeeIncome.toNat =
        min (writtenTotal written heights (AppliedBlock.creditedFees refinerId)) (2 ^ 64 - 1) := by
  have hvisit (scan : HallmarkScan) (height : UInt64) :
      let after := scan.visit store refinerId height
      let count (number : AppliedBlock → ℕ) := ((written height).map number).getD 0
      after.slashEventsIncluded.toNat =
          min (scan.slashEventsIncluded.toNat + count (evidenceAgainst refinerId)) (2 ^ 64 - 1) ∧
        after.attestationsIncluded.toNat = min (scan.attestationsIncluded.toNat +
          count (AppliedBlock.creditedAttestations refinerId)) (2 ^ 64 - 1) ∧
        after.refinerFeeIncome.toNat = min (scan.refinerFeeIncome.toNat +
          count (AppliedBlock.creditedFees refinerId)) (2 ^ 64 - 1) := by
    obtain ⟨hblock, hreceipt⟩ := h.load_eq hstore height
    have hslashes := scan.slashEventsIncluded.toNat_lt
    have hattestations := scan.attestationsIncluded.toNat_lt
    have hfees := scan.refinerFeeIncome.toNat_lt
    unfold HallmarkScan.visit
    rw [hblock]
    cases hwritten : written height with
    | none =>
      simp only [Option.map_none, Option.getD_none, Nat.add_zero]
      omega
    | some applied =>
      obtain ⟨hheight, env, hst⟩ := h.accepted hwritten
      obtain ⟨hten, hmany⟩ := h.counts_lt hwritten refinerId
      rw [hwritten, ← hheight] at hreceipt
      have hcredited := hst.creditedAttestations_eq refinerId
      have hpaid := hst.creditedFees_eq refinerId
      simp only [Option.map_some, Option.getD_some]
      refine ⟨?_, ?_, ?_⟩
      · rw [HallmarkScan.toNat_countSlashes _ _ _ rfl (hten.trans_lt (by decide))]
        simp [evidenceAgainst]
      · rw [HallmarkScan.attestationsIncluded_countSlashes,
          HallmarkScan.toNat_countAttestations _ _ _ hcredited.symm (hmany.trans_lt (by decide))]
        simp
      · rw [HallmarkScan.refinerFeeIncome_countSlashes,
          HallmarkScan.refinerFeeIncome_countAttestations,
          HallmarkScan.toNat_countRefined _ _ _ _ hreceipt, ← hpaid]
  intro scan
  rw [writtenTotal_eq, writtenTotal_eq, writtenTotal_eq]
  have hslashes := HallmarkScan.toNat_foldl_visit (fun scan height => (hvisit scan height).1)
    heights {}
  have hattestations := HallmarkScan.toNat_foldl_visit
    (fun scan height => (hvisit scan height).2.1) heights {}
  have hfees := HallmarkScan.toNat_foldl_visit (fun scan height => (hvisit scan height).2.2)
    heights {}
  simp only [UInt64.toNat_zero, Nat.zero_add] at hslashes hattestations hfees
  exact ⟨hslashes, hattestations, hfees⟩

/-- The evidence that is counted is at least the evidence acted on, and exactly that when all of
it is clean. -/
theorem evidence_iff (h : Archive P config node written) (refinerId : ObjectId)
    (heights : List UInt64) :
    writtenTotal written heights (AppliedBlock.slashEvents refinerId) ≤
        writtenTotal written heights (evidenceAgainst refinerId) ∧
      (writtenTotal written heights (evidenceAgainst refinerId) =
          writtenTotal written heights (AppliedBlock.slashEvents refinerId) ↔
        ∀ height ∈ heights, ∀ applied, written height = some applied →
          applied.block.EvidenceClean P refinerId) := by
  have hone {height : UInt64} {applied : AppliedBlock} (hwritten : written height = some applied) :
      applied.slashEvents refinerId ≤ evidenceAgainst refinerId applied ∧
        (evidenceAgainst refinerId applied = applied.slashEvents refinerId ↔
          applied.block.EvidenceClean P refinerId) := by
    obtain ⟨-, env, hst⟩ := h.accepted hwritten
    obtain ⟨hle, hiff⟩ := hst.slashEvents_iff refinerId
    exact ⟨hle, eq_comm.trans hiff⟩
  refine ⟨writtenTotal_le (fun height applied hwritten => (hone hwritten).1) heights, ?_⟩
  rw [writtenTotal_eq_iff fun height applied hwritten => (hone hwritten).1]
  exact forall_congr' fun height => forall_congr' fun _ => forall_congr' fun applied =>
    forall_congr' fun hwritten => (hone hwritten).2

/-- The numbers of a window are small, but for the fees. -/
theorem totals_lt (h : Archive P config node written) (refinerId : ObjectId)
    {heights : List UInt64} (hlength : heights.length ≤ 961) :
    writtenTotal written heights (evidenceAgainst refinerId) < 2 ^ 64 - 1 ∧
      writtenTotal written heights (AppliedBlock.creditedAttestations refinerId) < 2 ^ 64 - 1 := by
  have hbound {number : AppliedBlock → ℕ}
      (hnumber : ∀ height applied, written height = some applied → number applied ≤ 1024) :
      writtenTotal written heights number ≤ heights.length * 1024 := by
    rw [writtenTotal_eq]
    refine (List.sum_le_card_nsmul _ 1024 fun count hcount => ?_).trans ?_
    · obtain ⟨height, -, rfl⟩ := List.mem_map.mp hcount
      cases hwritten : written height with
      | none => exact Nat.zero_le _
      | some applied => exact hnumber height applied hwritten
    · rw [List.length_map]
      exact Nat.le_refl _
  have hevidence := hbound fun height applied hwritten =>
    (h.counts_lt hwritten refinerId).1.trans (by decide)
  have hattestations := hbound fun height applied hwritten => (h.counts_lt hwritten refinerId).2
  omega

end Archive

/-- A hallmark reports what the node has done to a refiner in the blocks of the window exactly
when these blocks hold no evidence against it that is not genuine or names a height twice, and
the fees fit into a word. The window ends at whatever height the server knows of, and the blocks
are those that the database has after any run. -/
theorem hallmark_reports_iff {node : OpolysNode} {written : UInt64 → Option AppliedBlock}
    (h : Archive P config node written) {store : BlockchainStore}
    (hstore : node.store = some store) (chain : ChainInfo) {refinerId : ObjectId}
    (hrefiner : (node.refiners.getRefiner refinerId).isSome = true) (lookbackBlocks : UInt64) :
    let heights := hallmarkHeights chain.height lookbackBlocks
    ∃ response, handleGetRefinerHallmark chain node.refiners store refinerId lookbackBlocks =
        .ok response ∧
      (response.slashEventsIncluded.toNat =
          writtenTotal written heights (AppliedBlock.slashEvents refinerId) ∧
        response.attestationsIncluded.toNat =
          writtenTotal written heights (AppliedBlock.creditedAttestations refinerId) ∧
        response.refinerFeeIncomeFlakes.toNat =
          writtenTotal written heights (AppliedBlock.creditedFees refinerId) ↔
      (∀ height ∈ heights, ∀ applied, written height = some applied →
        applied.block.EvidenceClean P refinerId) ∧
      writtenTotal written heights (AppliedBlock.creditedFees refinerId) < 2 ^ 64) := by
  obtain ⟨refiner, hget⟩ := Option.isSome_iff_exists.mp hrefiner
  have hlength := length_hallmarkHeights chain.height lookbackBlocks
  unfold handleGetRefinerHallmark
  rw [hget]
  generalize hallmarkHeights chain.height lookbackBlocks = heights at hlength ⊢
  refine ⟨_, rfl, ?_⟩
  dsimp only
  obtain ⟨hslashes, hattestations, hfees⟩ := h.scan_eq hstore refinerId heights
  obtain ⟨hfew, hmany⟩ := h.totals_lt refinerId hlength
  rw [hslashes, hattestations, hfees, ← (h.evidence_iff refinerId heights).2]
  omega

namespace Reference

/-- Evidence without a signature against the refiner that has bonded. -/
def forged : DoubleSignEvidence where
  producer := account 1
  producerPubkey := []
  height := 1
  hashA := Hash.zero
  signatureA := []
  hashB := Hash.zero
  signatureB := []

/-- A block with that evidence. -/
def framingCall : Call := mineWith 90 { slashEvidence := [forged] } bonded

/-- The node after it. -/
def framed : OpolysNode := bonded.step primitives framingCall

/-- What its server says of the refiner. -/
def framedHallmark : Option RefinerHallmarkResponse :=
  framed.store.bind fun store => (handleGetRefinerHallmark (chainStateToInfo framed.chain)
    framed.refiners store (account 1) 960).toOption

end Reference

open Reference

/-- After the bond the hallmark of the refiner is read from the block with the bond. -/
theorem hallmark_reports_of_reference : ∃ written store, bonded.store = some store ∧
    Archive primitives bondConfig bonded written ∧ ∃ response,
      handleGetRefinerHallmark (chainStateToInfo bonded.chain) bonded.refiners store (account 1)
        960 = .ok response ∧
      response.slashEventsIncluded.toNat =
        writtenTotal written [0, 1] (AppliedBlock.slashEvents (account 1)) := by
  obtain ⟨written, harchive⟩ := Archive.exists_of_run new_founder [.call bondCall]
  have hbonded : Archive primitives bondConfig bonded written := harchive
  obtain ⟨store, hstore⟩ : ∃ store, bonded.store = some store :=
    Option.isSome_iff_exists.mp (by decide +kernel)
  have hrefiner : (bonded.refiners.getRefiner (account 1)).isSome = true := by decide +kernel
  obtain ⟨response, hresponse, hiff⟩ := hallmark_reports_iff hbonded hstore
    (chainStateToInfo bonded.chain) hrefiner 960
  have hheights : hallmarkHeights (chainStateToInfo bonded.chain).height 960 = [0, 1] := by
    decide +kernel
  have hplain : (bonded.store.map fun store => [0, 1].all fun height =>
      (store.loadBlock height).all fun block =>
        block.slashEvidence.isEmpty && !block.header.isRefined) = some true := by decide +kernel
  rw [hstore, Option.map_some, Option.some.injEq, List.all_eq_true] at hplain
  have hblock {height : UInt64} (hmem : height ∈ [0, 1]) {applied : AppliedBlock}
      (hwritten : written height = some applied) :
      applied.block.slashEvidence = [] ∧ applied.block.header.isRefined = false := by
    have h := hplain height hmem
    rw [(hbonded.load_eq hstore height).1, hwritten] at h
    simpa using h
  rw [hheights] at hiff
  refine ⟨written, store, hstore, hbonded, response, hresponse, (hiff.mpr ⟨?_, ?_⟩).1⟩
  · intro height hmem applied hwritten
    have hnone := (hblock hmem hwritten).1
    exact ⟨by simp [hnone], by simp [hnone]⟩
  · have hzero := writtenTotal_eq written [0, 1] (AppliedBlock.creditedFees (account 1))
    have hcount : ∀ height ∈ [0, 1],
        ((written height).map (AppliedBlock.creditedFees (account 1))).getD 0 = 0 := by
      intro height hmem
      cases hwritten : written height with
      | none => rfl
      | some applied =>
        obtain ⟨-, env, hst⟩ := hbonded.accepted hwritten
        have hfees := hst.creditedFees_eq (account 1)
        simpa [(hblock hmem hwritten).2] using hfees
    rw [hzero, List.map_congr_left hcount]
    simp

/-- A miner puts evidence without signatures against an honest refiner into a block. The block is
accepted, nobody is slashed, and the server counts a slash event. -/
theorem forged_evidence_reported :
    bonded.accepts primitives framingCall = true ∧
      ((framed.refiners.getRefiner (account 1)).map RefinerInfo.status) = some .bonding ∧
      (framedHallmark.map RefinerHallmarkResponse.slashEventsIncluded) = some 1 ∧
      ∃ written, Archive primitives bondConfig framed written ∧
        writtenTotal written [0, 1, 2] (AppliedBlock.slashEvents (account 1)) = 0 := by
  obtain ⟨written, harchive⟩ :=
    Archive.exists_of_run new_founder [.call bondCall, .call framingCall]
  have hframed : Archive primitives bondConfig framed written := harchive
  refine ⟨by decide +kernel, by decide +kernel, by decide +kernel, written, hframed, ?_⟩
  obtain ⟨store, hstore⟩ : ∃ store, framed.store = some store :=
    Option.isSome_iff_exists.mp (by decide +kernel)
  have hloaded : (framed.store.bind fun store => store.loadBlock 2) = some framingCall.block := by
    decide +kernel
  have hscan : (framed.store.map fun store => ([0, 1, 2].foldl
      (HallmarkScan.visit store (account 1)) {}).slashEventsIncluded) = some 1 := by decide +kernel
  rw [hstore, Option.bind_some, (hframed.load_eq hstore 2).1, Option.map_eq_some_iff] at hloaded
  obtain ⟨applied, hwritten, happlied⟩ := hloaded
  rw [hstore, Option.map_some, Option.some.injEq] at hscan
  have hone := (hframed.scan_eq hstore (account 1) [0, 1, 2]).1
  rw [hscan, show (1 : UInt64).toNat = 1 from rfl] at hone
  obtain ⟨hle, hiff⟩ := hframed.evidence_iff (account 1) [0, 1, 2]
  have hforged : ¬applied.block.EvidenceClean primitives (account 1) := by
    intro hclean
    rw [happlied] at hclean
    have hgenuine := hclean.genuine forged (by decide +kernel) rfl
    exact absurd hgenuine (by decide)
  have hne := mt hiff.mp fun hall => hforged (hall 2 (by decide) applied hwritten)
  omega

end Opolys
