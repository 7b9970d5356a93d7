import Opolys.Crypto.Reference
import Opolys.EvoOmap.Mining

/-!
# Mining blocks

The node mines with the library's search, and keeps the dataset of the last epoch and parent. A
block that it mines verifies.

* `PowContext` : the cached dataset, and mining with one thread or several.
* `Primitives.withEvoOmap` : primitives whose hash is the library's.
* `mineSingle_verifies`, `mineParallel_verifies` : what a mined block looks like.
-/

namespace Opolys

open Codec (FixedBytes leBytes ofLeBytes)
open EvoOmap (Hashes Dataset Search)

/-! ## The cache -/

/-- A dataset, with what it was generated for. -/
structure CachedDataset where
  epoch : UInt64
  seedMaterialHash : FixedBytes 32
  dataset : Dataset

/-- The last dataset that was asked for, if one was. -/
abbrev DatasetCache : Type := Option CachedDataset

variable (H : Hashes)

def generateCached (height epochLength : UInt64) (seedMaterial : List UInt8) : CachedDataset :=
  { epoch := EvoOmap.computeEpochNumber height epochLength
    seedMaterialHash := H.blake3 seedMaterial
    dataset := EvoOmap.generateDataset H
      (EvoOmap.computeEpochSeed H height epochLength seedMaterial) }

/-- The dataset for a height and a material, generated anew if the last one was for another. -/
def DatasetCache.getDataset (cache : DatasetCache) (height epochLength : UInt64)
    (seedMaterial : List UInt8) : Dataset × DatasetCache :=
  match cache with
  | some cached =>
    if cached.epoch ≠ EvoOmap.computeEpochNumber height epochLength ∨
        cached.seedMaterialHash ≠ H.blake3 seedMaterial then
      let generated := generateCached H height epochLength seedMaterial
      (generated.dataset, some generated)
    else (cached.dataset, some cached)
  | none =>
    let generated := generateCached H height epochLength seedMaterial
    (generated.dataset, some generated)

structure PowContext where
  cache : DatasetCache
  lastEpoch : Option UInt64

namespace PowContext

def new : PowContext := { cache := none, lastEpoch := none }

/-- The dataset for a header. -/
def getDataset (ctx : PowContext) (header : BlockHeader) : Dataset × PowContext :=
  let blockEpoch := header.height / epoch
  let seedMaterial := epochSeedMaterial header
  let ctx :=
    if ctx.lastEpoch ≠ some blockEpoch then
      { cache := (ctx.cache.getDataset H header.height epoch seedMaterial).2
        lastEpoch := some blockEpoch }
    else ctx
  let answer := ctx.cache.getDataset H header.height epoch seedMaterial
  (answer.1, { ctx with cache := answer.2 })

/-! ## Mining -/

/-- What is searched for a header. -/
def search (header : BlockHeader) (difficulty maxAttempts : UInt64) : Search :=
  { header := serializeHeaderForPow header, height := header.height, difficulty
    maxNonceAttempts := maxAttempts, epochLength := epoch
    seedMaterial := epochSeedMaterial header }

/-- A block with a header and a nonce, and nothing else. -/
def minedBlock (header : BlockHeader) (nonce : UInt64) : Block :=
  { header := { header with powProof := some (leBytes 8 nonce.toNat) }
    transactions := [], slashEvidence := [], attestations := [], genesisCeremony := none }

def mineSingle (ctx : PowContext) (header : BlockHeader) (difficulty maxAttempts : UInt64) :
    Option Block × PowContext :=
  let ctx := (ctx.getDataset H header).2
  ((((search header difficulty maxAttempts).mine H).1).map (minedBlock header), ctx)

/-- Mine with threads. There is no result as long as a thread is not done. -/
def mineParallel {threads : ℕ} (ctx : PowContext) (header : BlockHeader)
    (difficulty maxAttempts : UInt64) (schedule : List (Fin threads)) :
    Option (Option Block) × PowContext :=
  let ctx := (ctx.getDataset H header).2
  ((EvoOmap.mineParallel H (search header difficulty maxAttempts) schedule).map fun mined =>
    mined.1.map (minedBlock header), ctx)

end PowContext

/-- Primitives with the hash of the mining library. -/
def Primitives.withEvoOmap (P : Primitives) (H : Hashes) : Primitives :=
  { P with evoOmapHash := fun headerBytes height nonce seedMaterial =>
      EvoOmap.lightHash H headerBytes height nonce epoch seedMaterial }

/-! ## A cached dataset is the right one -/

variable {H}

namespace DatasetCache

/-- A cached dataset was generated for one of the materials that were asked for. -/
def Fresh (H : Hashes) (materials : Set (List UInt8)) (cache : DatasetCache) : Prop :=
  ∀ cached ∈ cache, ∃ material ∈ materials,
    cached.seedMaterialHash = H.blake3 material ∧
      ∀ height, EvoOmap.computeEpochNumber height epoch = cached.epoch →
        cached.dataset =
          EvoOmap.generateDataset H (EvoOmap.computeEpochSeed H height epoch material)

/-- Without collisions the cache answers with the dataset that was asked for. -/
theorem Fresh.getDataset {materials : Set (List UInt8)} {cache : DatasetCache}
    (h : cache.Fresh H materials) (hfree : CollisionFree H.blake3 materials) {height : UInt64}
    {material : List UInt8} (hmem : material ∈ materials) :
    (cache.getDataset H height epoch material).1 =
        EvoOmap.generateDataset H (EvoOmap.computeEpochSeed H height epoch material) ∧
      (cache.getDataset H height epoch material).2.Fresh H materials := by
  have hgenerated : Fresh H materials (some (generateCached H height epoch material)) := by
    intro cached hcached
    cases hcached
    refine ⟨material, hmem, rfl, ?_⟩
    intro other hsame
    have hseed : EvoOmap.computeEpochSeed H other epoch material =
        EvoOmap.computeEpochSeed H height epoch material := by
      unfold EvoOmap.computeEpochSeed
      rw [hsame]
      rfl
    rw [hseed]
    rfl
  unfold DatasetCache.getDataset
  cases cache with
  | none => exact ⟨rfl, hgenerated⟩
  | some cached =>
    dsimp only
    split
    · exact ⟨rfl, hgenerated⟩
    · rename_i hnot
      obtain ⟨hepoch, hhash⟩ := not_or.mp hnot
      obtain ⟨other, hother, hsame, hdataset⟩ := h cached rfl
      have hmaterial : other = material :=
        hfree other hother material hmem (hsame.symm.trans (not_not.mp hhash))
      refine ⟨?_, h⟩
      rw [← hmaterial]
      exact hdataset height (not_not.mp hepoch).symm

end DatasetCache

namespace PowContext

/-- Without collisions a context answers with the dataset of the header. -/
theorem getDataset_fresh {materials : Set (List UInt8)} {ctx : PowContext}
    (h : ctx.cache.Fresh H materials) (hfree : CollisionFree H.blake3 materials)
    {header : BlockHeader} (hmem : epochSeedMaterial header ∈ materials) :
    (ctx.getDataset H header).1 = EvoOmap.generateDataset H
        (EvoOmap.computeEpochSeed H header.height epoch (epochSeedMaterial header)) ∧
      (ctx.getDataset H header).2.cache.Fresh H materials := by
  unfold PowContext.getDataset
  dsimp only
  by_cases hlast : ctx.lastEpoch ≠ some (header.height / epoch)
  · rw [if_pos hlast]
    exact (h.getDataset hfree hmem).2.getDataset hfree hmem
  · rw [if_neg hlast]
    exact h.getDataset hfree hmem

/-- The datasets that a context answers with, one header after the other. -/
def datasets (H : Hashes) (headers : List BlockHeader) : List Dataset :=
  Transition.trace (fun ctx header => (PowContext.getDataset H ctx header).2)
    (fun ctx header => (PowContext.getDataset H ctx header).1) PowContext.new headers

end PowContext

/-- Whatever headers a miner works on one after the other, it works on the dataset of each header,
unless two of their seed materials have the same hash. -/
theorem datasets_eq (headers : List BlockHeader)
    (hfree : CollisionFree H.blake3 {material | ∃ header ∈ headers,
      epochSeedMaterial header = material}) :
    PowContext.datasets H headers = headers.map fun header => EvoOmap.generateDataset H
      (EvoOmap.computeEpochSeed H header.height epoch (epochSeedMaterial header)) := by
  have hrun (rest : List BlockHeader) (ctx : PowContext) (hsub : ∀ header ∈ rest, header ∈ headers)
      (h : ctx.cache.Fresh H {material | ∃ header ∈ headers,
        epochSeedMaterial header = material}) :
      Transition.trace (fun ctx header => (PowContext.getDataset H ctx header).2)
          (fun ctx header => (PowContext.getDataset H ctx header).1) ctx rest =
        rest.map fun header => EvoOmap.generateDataset H
          (EvoOmap.computeEpochSeed H header.height epoch (epochSeedMaterial header)) := by
    induction rest generalizing ctx with
    | nil => rfl
    | cons header rest ih =>
      obtain ⟨hdataset, hnext⟩ := PowContext.getDataset_fresh h hfree
        ⟨header, hsub header List.mem_cons_self, rfl⟩
      rw [Transition.trace, List.map_cons, hdataset,
        ih _ (fun header hmem => hsub header (List.mem_cons_of_mem _ hmem)) hnext]
  refine hrun headers PowContext.new (fun _ => id) ?_
  intro cached hcached
  cases hcached

namespace Reference

/-- Hash functions that are no cryptography, but compute. -/
def hashes : Hashes where
  blake3 := hash
  blake3Xof msg n := { bytes := leBytes n (ofLeBytes (hash msg).bytes)
                       length_bytes := Codec.length_leBytes _ _ }
  sha3 := hash

/-- A header that follows the genesis block. -/
def firstHeader : BlockHeader := minedHeader ObjectId.zero []

/-- A header that follows another block. -/
def laterHeader : BlockHeader := { firstHeader with previousHash := hash [] }

theorem collisionFree_headers : CollisionFree hashes.blake3 {material |
    ∃ header ∈ [firstHeader, laterHeader], epochSeedMaterial header = material} := by
  have hne : hashes.blake3 (epochSeedMaterial firstHeader) ≠
      hashes.blake3 (epochSeedMaterial laterHeader) := by decide +kernel
  rintro a ⟨header, hheader, rfl⟩ b ⟨other, hother, rfl⟩ heq
  simp only [List.mem_cons, List.not_mem_nil, or_false] at hheader hother
  rcases hheader with rfl | rfl <;> rcases hother with rfl | rfl
  · rfl
  · exact absurd heq hne
  · exact absurd heq.symm hne
  · rfl

end Reference

theorem datasets_eq_of_reference :
    PowContext.datasets Reference.hashes [Reference.firstHeader, Reference.laterHeader] =
      [Reference.firstHeader, Reference.laterHeader].map fun header =>
        EvoOmap.generateDataset Reference.hashes (EvoOmap.computeEpochSeed Reference.hashes
          header.height epoch (epochSeedMaterial header)) :=
  datasets_eq [Reference.firstHeader, Reference.laterHeader] Reference.collisionFree_headers

/-! ## What is mined verifies -/

variable {P : Primitives}

theorem nonceOfProof_leBytes (nonce : UInt64) :
    nonceOfProof (some (leBytes 8 nonce.toNat)) = some nonce := by
  have hlt : nonce.toNat < 256 ^ 8 := nonce.toNat_lt
  unfold nonceOfProof
  dsimp only
  rw [if_pos (Codec.length_leBytes 8 _), Codec.ofLeBytes_leBytes, Nat.mod_eq_of_lt hlt,
    UInt64.ofNat_toNat]

/-- The verification of a mined block is that of the library. -/
theorem verifyPowLight_minedBlock (header : BlockHeader) (nonce difficulty : UInt64) :
    verifyPowLight (P.withEvoOmap H) (PowContext.minedBlock header nonce).header difficulty =
      if EvoOmap.verifyLight H (serializeHeaderForPow header) header.height nonce difficulty epoch
        (epochSeedMaterial header) then .ok () else .error .invalidProofOfWork := by
  have hnonce : nonceOfProof (PowContext.minedBlock header nonce).header.powProof = some nonce :=
    nonceOfProof_leBytes nonce
  have hverify : verifyLight (P.withEvoOmap H)
      (serializeHeaderForPow (PowContext.minedBlock header nonce).header) header.height nonce
        difficulty (epochSeedMaterial header) =
      EvoOmap.verifyLight H (serializeHeaderForPow header) header.height nonce difficulty epoch
        (epochSeedMaterial header) := rfl
  unfold verifyPowLight
  rw [hnonce]
  dsimp only
  by_cases hzero : difficulty = 0
  · have hfalse : EvoOmap.verifyLight H (serializeHeaderForPow header) header.height nonce
        difficulty epoch (epochSeedMaterial header) = false := if_pos hzero
    rw [if_pos hzero, hfalse]
    rfl
  · rw [if_neg hzero]
    exact congrArg (fun accepted : Bool =>
      if accepted = true then (.ok () : Except OpolysError Unit) else .error .invalidProofOfWork)
      hverify

theorem verifyPowLight_minedBlock_eq_ok {header : BlockHeader} {nonce difficulty : UInt64} :
    verifyPowLight (P.withEvoOmap H) (PowContext.minedBlock header nonce).header difficulty =
        .ok () ↔
      EvoOmap.verifyLight H (serializeHeaderForPow header) header.height nonce difficulty epoch
        (epochSeedMaterial header) = true := by
  rw [verifyPowLight_minedBlock]
  by_cases h : EvoOmap.verifyLight H (serializeHeaderForPow header) header.height nonce difficulty
      epoch (epochSeedMaterial header) = true
  · simp [h]
  · simp [h]

theorem verifyPowLight_minedBlock_of_false {header : BlockHeader} {nonce difficulty : UInt64}
    (h : EvoOmap.verifyLight H (serializeHeaderForPow header) header.height nonce difficulty epoch
      (epochSeedMaterial header) = false) :
    verifyPowLight (P.withEvoOmap H) (PowContext.minedBlock header nonce).header difficulty =
      .error .invalidProofOfWork := by
  rw [verifyPowLight_minedBlock, h]
  rfl

/-- One thread mines the block with the first nonce that verifies, or there is none. -/
theorem mineSingle_verifies (ctx : PowContext) (header : BlockHeader)
    (difficulty maxAttempts : UInt64) :
    (∀ block, (ctx.mineSingle H header difficulty maxAttempts).1 = some block →
      ∃ nonce < maxAttempts, block = PowContext.minedBlock header nonce ∧
        verifyPowLight (P.withEvoOmap H) block.header difficulty = .ok () ∧
        ∀ other < nonce, verifyPowLight (P.withEvoOmap H)
          (PowContext.minedBlock header other).header difficulty = .error .invalidProofOfWork) ∧
    ((ctx.mineSingle H header difficulty maxAttempts).1 = none →
      ∀ nonce < maxAttempts, verifyPowLight (P.withEvoOmap H)
        (PowContext.minedBlock header nonce).header difficulty = .error .invalidProofOfWork) := by
  have hresult : (ctx.mineSingle H header difficulty maxAttempts).1 =
      ((PowContext.search header difficulty maxAttempts).mine H).1.map
        (PowContext.minedBlock header) := rfl
  rw [hresult]
  by_cases hzero : difficulty = 0
  · have hnone : ((PowContext.search header difficulty maxAttempts).mine H).1 = none := by
      unfold Search.mine
      rw [if_pos (show (PowContext.search header difficulty maxAttempts).difficulty = 0 from hzero)]
    rw [hnone]
    constructor
    · intro block h
      cases h
    · intro _ nonce _
      exact verifyPowLight_minedBlock_of_false (if_pos hzero)
  · have hdifficulty : (PowContext.search header difficulty maxAttempts).difficulty ≠ 0 := hzero
    have hsolves (nonce : UInt64) : EvoOmap.verifyLight H (serializeHeaderForPow header)
        header.height nonce difficulty epoch (epochSeedMaterial header) =
          (PowContext.search header difficulty maxAttempts).solves H nonce :=
      EvoOmap.verifyLight_eq_solves hdifficulty nonce
    have hfirst : (PowContext.search header difficulty maxAttempts).First H 0 maxAttempts.toNat
        ((PowContext.search header difficulty maxAttempts).mine H).1 :=
      Search.first_mine hdifficulty
    constructor
    · intro block h
      obtain ⟨nonce, hnonce, rfl⟩ := Option.map_eq_some_iff.mp h
      rw [hnonce] at hfirst
      obtain ⟨-, hlt, hsolved, hbefore⟩ := hfirst
      refine ⟨nonce, UInt64.lt_iff_toNat_lt.mpr hlt, rfl, ?_, ?_⟩
      · rw [verifyPowLight_minedBlock_eq_ok, hsolves]
        exact hsolved
      · intro other hother
        apply verifyPowLight_minedBlock_of_false
        rw [hsolves]
        exact hbefore other (Nat.zero_le _) (UInt64.lt_iff_toNat_lt.mp hother)
    · intro h nonce hlimit
      rw [Option.map_eq_none_iff.mp h] at hfirst
      apply verifyPowLight_minedBlock_of_false
      rw [hsolves]
      exact hfirst nonce (Nat.zero_le _) (UInt64.lt_iff_toNat_lt.mp hlimit)

theorem PowContext.fst_mineParallel {threads : ℕ} (ctx : PowContext) (header : BlockHeader)
    (difficulty maxAttempts : UInt64) (schedule : List (Fin threads)) :
    (ctx.mineParallel H header difficulty maxAttempts schedule).1 =
      (EvoOmap.mineParallel H (PowContext.search header difficulty maxAttempts) schedule).map
        fun mined => mined.1.map (PowContext.minedBlock header) := rfl

/-- In whatever order its threads take their steps, a miner mines a block that verifies, or there is
no nonce below the limit that does. No thread goes on for ever. -/
theorem mineParallel_verifies {threads : ℕ} [NeZero threads] (ctx : PowContext)
    (header : BlockHeader) (difficulty maxAttempts : UInt64) (schedule : List (Fin threads))
    (hroom : maxAttempts.toNat + threads < 2 ^ 64) :
    (∀ block, (ctx.mineParallel H header difficulty maxAttempts schedule).1 = some (some block) →
      ∃ nonce < maxAttempts, block = PowContext.minedBlock header nonce ∧
        verifyPowLight (P.withEvoOmap H) block.header difficulty = .ok ()) ∧
    ((ctx.mineParallel H header difficulty maxAttempts schedule).1 = some none →
      ∀ nonce < maxAttempts, verifyPowLight (P.withEvoOmap H)
        (PowContext.minedBlock header nonce).header difficulty = .error .invalidProofOfWork) ∧
    (difficulty ≠ 0 →
      Transition.EveryStep
          (EvoOmap.MiningPool.step H (PowContext.search header difficulty maxAttempts))
          EvoOmap.MiningPool.Busy
          (.start ((PowContext.search header difficulty maxAttempts).baseDataset H)) schedule →
        schedule.length ≤ 5 * maxAttempts.toNat + 2 * threads) := by
  rw [PowContext.fst_mineParallel]
  by_cases hzero : difficulty = 0
  · have hnone : EvoOmap.mineParallel H (PowContext.search header difficulty maxAttempts) schedule =
        some (none, 0) := if_pos hzero
    rw [hnone]
    refine ⟨?_, ?_, fun hne => absurd hzero hne⟩
    · intro block h
      cases h
    · intro _ nonce _
      exact verifyPowLight_minedBlock_of_false (if_pos hzero)
  · obtain ⟨hfound, hnone, hends⟩ := EvoOmap.mineParallel_ends (H := H)
      (PowContext.search header difficulty maxAttempts) hzero hroom schedule
    refine ⟨?_, ?_, fun _ => hends⟩
    · intro block h
      obtain ⟨⟨found, attempts⟩, hmined, hblock⟩ := Option.map_eq_some_iff.mp h
      obtain ⟨nonce, rfl, rfl⟩ := Option.map_eq_some_iff.mp hblock
      obtain ⟨hlimit, hverifies⟩ := hfound nonce attempts hmined
      exact ⟨nonce, hlimit, rfl, verifyPowLight_minedBlock_eq_ok.mpr hverifies⟩
    · intro h nonce hlimit
      obtain ⟨⟨found, attempts⟩, hmined, hblock⟩ := Option.map_eq_some_iff.mp h
      have hunfound : found = none := Option.map_eq_none_iff.mp hblock
      rw [hunfound] at hmined
      exact verifyPowLight_minedBlock_of_false (hnone attempts hmined nonce hlimit)

namespace Reference

/-- Hash functions with which every nonce is a solution. -/
def zeroHashes : Hashes where
  blake3 _ := FixedBytes.fill 32 0
  blake3Xof _ n := FixedBytes.fill n 0
  sha3 _ := FixedBytes.fill 32 0

theorem solves_zeroHashes {search : Search} (h : search.difficulty.toNat ≤ 256) :
    search.solves zeroHashes = fun _ => true := by
  funext nonce
  have hhash : EvoOmap.lightHash zeroHashes search.header search.height nonce search.epochLength
      search.seedMaterial = FixedBytes.fill 32 0 := by
    rw [EvoOmap.lightHash_eq]
    rfl
  have hbits : leadingZeroBits (FixedBytes.fill 32 0).bytes = 256 := by decide +kernel
  unfold EvoOmap.Search.solves EvoOmap.meets
  rw [hhash, hbits]
  exact decide_eq_true h

/-- A search in which every nonce is a solution ends as it would without datasets. -/
theorem mineParallel_zeroHashes {threads : ℕ} {search : Search} (hpos : search.difficulty ≠ 0)
    (h : search.difficulty.toNat ≤ 256) {schedule : List (Fin threads)}
    (hdone : ∀ i, (Transition.run (ParallelSearch.Pool.step (fun _ => true) search.maxNonceAttempts)
      ParallelSearch.Pool.start schedule).phases i = .done) :
    EvoOmap.mineParallel zeroHashes search schedule =
      some (Transition.run (ParallelSearch.Pool.step (fun _ => true) search.maxNonceAttempts)
        ParallelSearch.Pool.start schedule).result := by
  have hrefines : EvoOmap.MiningPool.Refines zeroHashes search
      (Transition.run (EvoOmap.MiningPool.step zeroHashes search)
        (.start (search.baseDataset zeroHashes)) schedule)
      (Transition.run (ParallelSearch.Pool.step (search.solves zeroHashes) search.maxNonceAttempts)
        ParallelSearch.Pool.start schedule) :=
    EvoOmap.MiningPool.refines_run _
  have hlooks := hrefines.looks
  rw [solves_zeroHashes h] at hlooks
  unfold EvoOmap.mineParallel
  rw [if_neg hpos]
  dsimp only
  rw [← hlooks] at hdone ⊢
  exact if_pos hdone

/-- Two threads draw the nonces 0 and 1, and the second one is faster. -/
def race : List (Fin 2) := [0, 1, 0, 1, 1, 1, 1, 1, 0, 0, 0, 0]

theorem mineParallel_race {search : Search} (hpos : search.difficulty ≠ 0)
    (h : search.difficulty.toNat ≤ 256) (hlimit : search.maxNonceAttempts = 3) :
    EvoOmap.mineParallel zeroHashes search race = some (some 1, 2) := by
  rw [mineParallel_zeroHashes hpos h (by rw [hlimit]; decide +kernel), hlimit]
  decide +kernel

end Reference

open Reference

theorem mineParallel_verifies_of_reference :
    (PowContext.new.mineParallel zeroHashes firstHeader firstHeader.difficulty 3 race).1 =
        some (some (PowContext.minedBlock firstHeader 1)) ∧
      verifyPowLight (primitives.withEvoOmap zeroHashes)
        (PowContext.minedBlock firstHeader 1).header firstHeader.difficulty = .ok () := by
  have hmined : (PowContext.new.mineParallel zeroHashes firstHeader firstHeader.difficulty 3
      race).1 = some (some (PowContext.minedBlock firstHeader 1)) := by
    rw [PowContext.fst_mineParallel, mineParallel_race (by decide) (by decide) rfl]
    rfl
  obtain ⟨hverifies, -, -⟩ := @mineParallel_verifies zeroHashes primitives 2 _ PowContext.new
    firstHeader firstHeader.difficulty 3 race (by decide)
  obtain ⟨nonce, -, hblock, hok⟩ := hverifies _ hmined
  exact ⟨hmined, hok⟩

end Opolys
