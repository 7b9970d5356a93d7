import Mathlib.Tactic.Linarith
import Mathlib.Tactic.NormNum
import Opolys.Ceremony.Attestation
import Opolys.Consensus.Genesis
import Opolys.Library.Effect

/-!
# Loading a ceremony

The node starts from the file of a ceremony. It checks the number and the bounds of the sources, the
evidence of manual ones, the reward against the stated median, the hash and the signature, and
refuses the public key of a dry run. It reads fewer fields than the ceremony writes.
-/

namespace Opolys.Ceremony

open Codec (FixedBytes)
open Effect (check)
open MachineInt (checkedMul)

/-! ## What the node reads -/

/-- What the node reads of a source. -/
structure CeremonySourceResult where
  name : String
  rawResponseHash : String
  extractedValue : Option ℚ
  valueOrigin : String
  evidenceNote : Option String
  evidenceTimestampMs : Option UInt64

structure CeremonyAttestationFile where
  ceremonyTimestamp : UInt64
  operatorPublicKey : String
  operatorSignature : String
  productionSources : List CeremonySourceResult
  priceSources : List CeremonySourceResult
  medianProductionTonnes : ℚ
  medianPriceUsdCents : UInt64
  blocksPerYear : UInt64
  baseRewardFlakes : UInt64
  derivationSteps : List String
  masterHash : String

def SourceResult.read (source : SourceResult) : CeremonySourceResult where
  name := source.name
  rawResponseHash := source.rawResponseHash
  extractedValue := source.extractedValue
  valueOrigin := source.valueOrigin
  evidenceNote := source.evidenceNote
  evidenceTimestampMs := source.evidenceTimestampMs

/-- The fields of the file that the node reads. -/
def GenesisAttestation.read (a : GenesisAttestation) : CeremonyAttestationFile where
  ceremonyTimestamp := a.ceremonyTimestamp
  operatorPublicKey := a.operatorPublicKey
  operatorSignature := a.operatorSignature
  productionSources := a.productionSources.map SourceResult.read
  priceSources := a.priceSources.map SourceResult.read
  medianProductionTonnes := a.medianProductionTonnes
  medianPriceUsdCents := a.medianPriceUsdCents
  blocksPerYear := a.blocksPerYear
  baseRewardFlakes := a.baseRewardFlakes
  derivationSteps := a.derivationSteps
  masterHash := a.masterHash

/-- What both programs take from libraries to read and show texts. -/
structure TextFunctions where
  hexDecode : String → Except String (List UInt8)
  trim : String → String
  /-- A floating-point number in its shortest form. -/
  showF64 : ℚ → String
  /-- A floating-point number with so many places. -/
  showPlaces : ℕ → ℚ → String

/-! ## Constants -/

def troyOzPerTonne : ℚ := 321507 / 10

def minProductionSources : ℕ := 5

def ceremonyProdMinTonnes : ℚ := 1000

def ceremonyProdMaxTonnes : ℚ := 10000

def ceremonyPriceMinUsdCents : UInt64 := 50000

def ceremonyPriceMaxUsdCents : UInt64 := 1500000

def blocksPerYear : UInt64 := (365 * 86400 + 86400 / 4) / 90

/-- A number without places as a word, the nearest where it does not fit. -/
def toWord (n : ℤ) : UInt64 := UInt64.ofNatClamp n.toNat

/-- The nearest integer, away from zero where two are. -/
def roundAway (x : ℚ) : ℤ := if 0 ≤ x then ⌊x + 1 / 2⌋ else ⌈x - 1 / 2⌉

section Load

variable (P : Primitives) (T : TextFunctions) (ceremonyHash : GenesisAttestation → Hash)

/-- An array of `n` bytes from hexadecimal digits, with the text for digits that are none. -/
def decodeHexWith (invalid : String) (n : ℕ) (field value : String) :
    Except String (FixedBytes n) :=
  match T.hexDecode value with
  | .error e => .error s!"{field} {invalid}: {e}"
  | .ok bytes =>
    match FixedBytes.ofList? n bytes with
    | some array => .ok array
    | none => .error s!"{field} must be {n} bytes, got {bytes.length}"

def decodeHexArray (n : ℕ) (field value : String) : Except String (FixedBytes n) :=
  decodeHexWith T "must be hex" n field value

/-- The first value that is not accepted is an error. -/
def checkEach {α : Type} (xs : List α) (accepts : α → Bool) (text : α → String) :
    Except String Unit :=
  match xs.find? fun x => !accepts x with
  | some x => .error (text x)
  | none => .ok ⟨⟩

def within (low high value : ℚ) : Bool := decide (low ≤ value ∧ value ≤ high)

/-- A value that was entered by hand has a note and a time. -/
def hasEvidence (source : CeremonySourceResult) : Bool :=
  if "manual".toList.isPrefixOf source.valueOrigin.toList && source.extractedValue.isSome then
    source.evidenceNote.any (fun note => 12 ≤ (T.trim note).utf8ByteSize) &&
      source.evidenceTimestampMs.isSome
  else true

def validateCeremonySources (attestation : CeremonyAttestationFile) : Except String Unit := do
  let productionValues := attestation.productionSources.filterMap (·.extractedValue)
  check (minProductionSources ≤ productionValues.length)
    (s!"Genesis ceremony has only {productionValues.length} production sources; need at least " ++
      s!"{minProductionSources}")
  checkEach productionValues (within ceremonyProdMinTonnes ceremonyProdMaxTonnes) fun value =>
    s!"Genesis ceremony production source value {T.showF64 value} is outside sanity bounds " ++
      s!"[{T.showF64 ceremonyProdMinTonnes}, {T.showF64 ceremonyProdMaxTonnes}] tonnes"
  let priceValues := attestation.priceSources.filterMap (·.extractedValue)
  check (priceValues ≠ []) "Genesis ceremony must include at least one price source"
  let priceMinUsd : ℚ := ceremonyPriceMinUsdCents.toNat / 100
  let priceMaxUsd : ℚ := ceremonyPriceMaxUsdCents.toNat / 100
  checkEach priceValues (within priceMinUsd priceMaxUsd) fun value =>
    s!"Genesis ceremony price source value {T.showF64 value} is outside sanity bounds " ++
      s!"[{T.showF64 priceMinUsd}, {T.showF64 priceMaxUsd}] USD/oz"
  checkEach (attestation.productionSources ++ attestation.priceSources)
    (hasEvidence T) fun source =>
    s!"Genesis ceremony manual source '{source.name}' is missing evidence"

def okOr {α : Type} (value : Option α) (text : String) : Except String α :=
  match value with
  | some value => .ok value
  | none => .error text

/-- The reward of a block for an annual production, or the error of an overflow. -/
def rewardFlakes (tonnes : ℚ) (blocks : UInt64) (overflow : String) : Except String UInt64 :=
  let annualOz := tonnes * troyOzPerTonne
  let baseRewardOpl := toWord ⌊annualOz / blocks.toNat⌋
  okOr (checkedMul baseRewardOpl flakesPerOpl) overflow

def validateCeremonyRewardDerivation (attestation : CeremonyAttestationFile) :
    Except String Unit := do
  let median := attestation.medianProductionTonnes
  check (0 < median) "Genesis ceremony median_production_tonnes must be positive"
  check (ceremonyProdMinTonnes ≤ median ∧ median ≤ ceremonyProdMaxTonnes)
    (s!"Genesis ceremony median_production_tonnes {T.showF64 median} is outside sanity bounds " ++
      s!"[{T.showF64 ceremonyProdMinTonnes}, {T.showF64 ceremonyProdMaxTonnes}]")
  let price := attestation.medianPriceUsdCents
  check (ceremonyPriceMinUsdCents ≤ price ∧ price ≤ ceremonyPriceMaxUsdCents)
    (s!"Genesis ceremony median_price_usd_cents {price} is outside sanity bounds " ++
      s!"[{ceremonyPriceMinUsdCents}, {ceremonyPriceMaxUsdCents}]")
  check (attestation.blocksPerYear = blocksPerYear)
    s!"Genesis ceremony blocks_per_year must be {blocksPerYear}, got {attestation.blocksPerYear}"
  check (attestation.baseRewardFlakes ≠ 0) "Genesis ceremony base_reward_flakes must be non-zero"
  let maxBaseRewardFlakes ← rewardFlakes ceremonyProdMaxTonnes blocksPerYear
    "Genesis ceremony base reward ceiling overflowed"
  check (attestation.baseRewardFlakes ≤ maxBaseRewardFlakes)
    (s!"Genesis ceremony base_reward_flakes {attestation.baseRewardFlakes} exceeds " ++
      s!"safety ceiling {maxBaseRewardFlakes}")
  let expectedBaseRewardFlakes ← rewardFlakes median attestation.blocksPerYear
    "Genesis ceremony base reward derivation overflowed"
  check (attestation.baseRewardFlakes = expectedBaseRewardFlakes)
    (s!"Genesis ceremony base_reward_flakes mismatch: attestation " ++
      s!"{attestation.baseRewardFlakes}, computed {expectedBaseRewardFlakes}")

/-- The hash of the first source whose name contains a word. -/
def sourceHash (sources : List CeremonySourceResult) (needle : String) : FixedBytes 32 :=
  let found := sources.find? fun source =>
    decide (needle.toList <:+: (source.name.map Char.toLower).toList)
  match found with
  | none => FixedBytes.fill 32 0
  | some source =>
    match decodeHexArray T 32 source.name source.rawResponseHash with
    | .ok hash => hash
    | .error _ => FixedBytes.fill 32 0

/-- The configuration of a node from a file. -/
def loadGenesisConfig (allowDryRunGenesis : Bool) (file : GenesisAttestation) :
    Except String GenesisConfig := do
  let attestation := file.read
  validateCeremonySources T attestation
  validateCeremonyRewardDerivation T attestation
  let computedMasterHash := ceremonyHash file
  let statedMasterHash ← decodeHexArray T 32 "master_hash" attestation.masterHash
  check (computedMasterHash = statedMasterHash)
    "Genesis ceremony master_hash does not match attestation contents"
  let operatorPublicKey ←
    decodeHexArray T 32 "operator_public_key" attestation.operatorPublicKey
  let dryRunPublicKey := P.verifyingKey (FixedBytes.fill 32 42)
  check (operatorPublicKey = dryRunPublicKey → allowDryRunGenesis = true)
    "Genesis ceremony uses the dry-run operator key; refuse to start mainnet state"
  let operatorSignature ← decodeHexArray T 64 "operator_signature" attestation.operatorSignature
  check (P.verifyingKeyOk operatorPublicKey = true)
    "Genesis ceremony operator_public_key is not a valid ed25519 key"
  check (P.verifyStrict operatorPublicKey statedMasterHash.bytes operatorSignature = true)
    "Genesis ceremony operator_signature verification failed"
  return {
    initialDifficulty := genesisDifficulty
    protocolVersion := networkProtocolVersion
    attestation := {
      ceremonyTimestamp := attestation.ceremonyTimestamp
      goldSpotPriceUsdCents := attestation.medianPriceUsdCents
      annualProductionTonnes := toWord (roundAway attestation.medianProductionTonnes)
      totalAboveGroundTonnes := 0
      lbmaResponseHash := sourceHash T attestation.priceSources "lbma"
      usgsResponseHash := sourceHash T attestation.productionSources "usgs"
      wgcResponseHash := sourceHash T attestation.productionSources "world gold council"
      derivationFormula := "; ".intercalate attestation.derivationSteps }
    genesisAccounts := []
    baseReward := attestation.baseRewardFlakes
    ceremonyData := some {
      ceremonyTimestamp := attestation.ceremonyTimestamp
      ceremonyMasterHash := statedMasterHash
      operatorPublicKey
      operatorSignature
      baseRewardFlakes := attestation.baseRewardFlakes
      productionTonnesMilli := toWord (roundAway (attestation.medianProductionTonnes * 1000))
      priceUsdCents := attestation.medianPriceUsdCents
      blocksPerYear := attestation.blocksPerYear } }

end Load

/-! ## What is loaded -/

theorem checkEach_eq_ok {α : Type} {xs : List α} {accepts : α → Bool} {text : α → String}
    {u : Unit} : checkEach xs accepts text = .ok u ↔ ∀ x ∈ xs, accepts x = true := by
  unfold checkEach
  cases hfind : xs.find? fun x => !accepts x with
  | none =>
    have hall := List.find?_eq_none.mp hfind
    simpa using hall
  | some x =>
    have hmem := List.mem_of_find?_eq_some hfind
    have hrefused := List.find?_some hfind
    constructor
    · intro h
      cases h
    · intro h
      rw [h x hmem] at hrefused
      cases hrefused

theorem decodeHexWith_eq_ok {T : TextFunctions} {invalid : String} {n : ℕ} {field value : String}
    {array : FixedBytes n} :
    decodeHexWith T invalid n field value = .ok array ↔ T.hexDecode value = .ok array.bytes := by
  unfold decodeHexWith
  cases hdecode : T.hexDecode value with
  | error e => simp
  | ok bytes =>
    have hiff : FixedBytes.ofList? n bytes = some array ↔ bytes = array.bytes :=
      FixedBytes.ofList?_eq_some
    dsimp only
    cases harray : FixedBytes.ofList? n bytes with
    | none =>
      rw [harray] at hiff
      simpa using hiff
    | some found =>
      rw [harray] at hiff
      simpa using hiff

/-- The values that sources report. -/
def reportedValues (sources : List SourceResult) : List ℚ :=
  sources.filterMap (·.extractedValue)

theorem filterMap_read (sources : List SourceResult) :
    (sources.map SourceResult.read).filterMap (·.extractedValue) = reportedValues sources := by
  unfold reportedValues
  rw [List.filterMap_map]
  rfl

theorem toNat_blocksPerYear : blocksPerYear.toNat = 350640 := by decide

theorem toNat_toWord {n : ℤ} (h0 : 0 ≤ n) (h : n < 2 ^ 64) : ((toWord n).toNat : ℤ) = n := by
  unfold toWord
  rw [MachineInt.toNat_clamp]
  omega

/-- The reward in OPL that follows from a median within bounds. -/
theorem reward_bounds {median : ℚ} (h : ceremonyProdMinTonnes ≤ median ∧
    median ≤ ceremonyProdMaxTonnes) :
    91 ≤ (toWord ⌊median * troyOzPerTonne / blocksPerYear.toNat⌋).toNat ∧
      (toWord ⌊median * troyOzPerTonne / blocksPerYear.toNat⌋).toNat ≤ 916 := by
  obtain ⟨hlow, hhigh⟩ := h
  unfold ceremonyProdMinTonnes at hlow
  unfold ceremonyProdMaxTonnes at hhigh
  have hlow' : 91 ≤ ⌊median * troyOzPerTonne / blocksPerYear.toNat⌋ := by
    rw [Int.le_floor, toNat_blocksPerYear]
    unfold troyOzPerTonne
    push_cast
    linarith
  have hhigh' : ⌊median * troyOzPerTonne / blocksPerYear.toNat⌋ < 917 := by
    rw [Int.floor_lt, toNat_blocksPerYear]
    unfold troyOzPerTonne
    push_cast
    linarith
  have hword := toNat_toWord (n := ⌊median * troyOzPerTonne / blocksPerYear.toNat⌋)
    (by omega) (by omega)
  omega

section Loaded

variable {P : Primitives} {T : TextFunctions} {ceremonyHash : GenesisAttestation → Hash}

theorem validateCeremonySources_eq_ok {file : GenesisAttestation} {u : Unit} :
    validateCeremonySources T file.read = .ok u ↔
      5 ≤ (reportedValues file.productionSources).length ∧
      (∀ v ∈ reportedValues file.productionSources,
        within ceremonyProdMinTonnes ceremonyProdMaxTonnes v = true) ∧
      reportedValues file.priceSources ≠ [] ∧
      (∀ v ∈ reportedValues file.priceSources, within 500 15000 v = true) ∧
      ∀ source ∈ file.productionSources ++ file.priceSources, hasEvidence T source.read = true := by
  have hmin : (ceremonyPriceMinUsdCents.toNat : ℚ) / 100 = 500 := by
    have h : ceremonyPriceMinUsdCents.toNat = 50000 := rfl
    rw [h]
    norm_num
  have hmax : (ceremonyPriceMaxUsdCents.toNat : ℚ) / 100 = 15000 := by
    have h : ceremonyPriceMaxUsdCents.toNat = 1500000 := rfl
    rw [h]
    norm_num
  unfold validateCeremonySources GenesisAttestation.read
  dsimp only
  rw [filterMap_read, filterMap_read, hmin, hmax, ← List.map_append]
  simp only [Effect.bind_eq_ok, checkEach_eq_ok, minProductionSources, List.forall_mem_map]
  simp

/-- The reward the node computes from the median. -/
def derivedReward (median : ℚ) : UInt64 :=
  toWord ⌊median * troyOzPerTonne / blocksPerYear.toNat⌋ * flakesPerOpl

theorem checkedMul_reward {median : ℚ}
    (h : ceremonyProdMinTonnes ≤ median ∧ median ≤ ceremonyProdMaxTonnes) :
    checkedMul (toWord ⌊median * troyOzPerTonne / blocksPerYear.toNat⌋) flakesPerOpl =
      some (derivedReward median) := by
  have hbounds := reward_bounds h
  have hunit : flakesPerOpl.toNat = 1000000 := rfl
  unfold derivedReward
  rw [MachineInt.checkedMul_eq_some, UInt64.toNat_mul, hunit]
  omega

theorem toNat_derivedReward {median : ℚ}
    (h : ceremonyProdMinTonnes ≤ median ∧ median ≤ ceremonyProdMaxTonnes) :
    (derivedReward median).toNat =
      (toWord ⌊median * troyOzPerTonne / blocksPerYear.toNat⌋).toNat * 1000000 :=
  MachineInt.checkedMul_eq_some.mp (checkedMul_reward h)

theorem rewardFlakes_eq_ok {median : ℚ}
    (h : ceremonyProdMinTonnes ≤ median ∧ median ≤ ceremonyProdMaxTonnes) (overflow : String) :
    rewardFlakes median blocksPerYear overflow = .ok (derivedReward median) := by
  unfold rewardFlakes
  dsimp only
  rw [checkedMul_reward h]
  rfl

theorem derivedReward_ne_zero {median : ℚ}
    (h : ceremonyProdMinTonnes ≤ median ∧ median ≤ ceremonyProdMaxTonnes) :
    derivedReward median ≠ 0 := by
  intro hzero
  have hbounds := reward_bounds h
  have hvalue := toNat_derivedReward h
  rw [hzero, UInt64.toNat_zero] at hvalue
  omega

theorem derivedReward_le_max {median : ℚ}
    (h : ceremonyProdMinTonnes ≤ median ∧ median ≤ ceremonyProdMaxTonnes) :
    derivedReward median ≤ derivedReward ceremonyProdMaxTonnes := by
  have hmax : ceremonyProdMinTonnes ≤ ceremonyProdMaxTonnes ∧
      ceremonyProdMaxTonnes ≤ ceremonyProdMaxTonnes := by
    unfold ceremonyProdMinTonnes ceremonyProdMaxTonnes
    norm_num
  have hfloor : 916 ≤ ⌊ceremonyProdMaxTonnes * troyOzPerTonne / blocksPerYear.toNat⌋ := by
    rw [Int.le_floor, toNat_blocksPerYear]
    unfold ceremonyProdMaxTonnes troyOzPerTonne
    norm_num
  have hfits : ⌊ceremonyProdMaxTonnes * troyOzPerTonne / blocksPerYear.toNat⌋ < 917 := by
    rw [Int.floor_lt, toNat_blocksPerYear]
    unfold ceremonyProdMaxTonnes troyOzPerTonne
    norm_num
  have hword := toNat_toWord
    (n := ⌊ceremonyProdMaxTonnes * troyOzPerTonne / blocksPerYear.toNat⌋) (by omega) (by omega)
  have hbounds := reward_bounds h
  apply UInt64.le_iff_toNat_le.mpr
  rw [toNat_derivedReward h, toNat_derivedReward hmax]
  omega

theorem validateCeremonyRewardDerivation_eq_ok {file : GenesisAttestation} {u : Unit} :
    validateCeremonyRewardDerivation T file.read = .ok u ↔
      (ceremonyProdMinTonnes ≤ file.medianProductionTonnes ∧
        file.medianProductionTonnes ≤ ceremonyProdMaxTonnes) ∧
      (ceremonyPriceMinUsdCents ≤ file.medianPriceUsdCents ∧
        file.medianPriceUsdCents ≤ ceremonyPriceMaxUsdCents) ∧
      file.blocksPerYear = blocksPerYear ∧
      file.baseRewardFlakes = derivedReward file.medianProductionTonnes := by
  have hmax : ceremonyProdMinTonnes ≤ ceremonyProdMaxTonnes ∧
      ceremonyProdMaxTonnes ≤ ceremonyProdMaxTonnes := by
    unfold ceremonyProdMinTonnes ceremonyProdMaxTonnes
    norm_num
  unfold validateCeremonyRewardDerivation GenesisAttestation.read
  dsimp only
  rw [rewardFlakes_eq_ok hmax]
  simp only [Effect.check_bind_eq_ok, Effect.ok_bind]
  constructor
  · rintro ⟨-, hmedian, hprice, hblocks, -, -, hreward⟩
    rw [hblocks, rewardFlakes_eq_ok hmedian, Effect.ok_bind, Effect.check_eq_ok] at hreward
    exact ⟨hmedian, hprice, hblocks, hreward⟩
  · rintro ⟨hmedian, hprice, hblocks, hreward⟩
    have hpos : 0 < file.medianProductionTonnes := by
      have hmin : (0 : ℚ) < ceremonyProdMinTonnes := by
        unfold ceremonyProdMinTonnes
        norm_num
      exact hmin.trans_le hmedian.1
    rw [hblocks, rewardFlakes_eq_ok hmedian, Effect.ok_bind, Effect.check_eq_ok, hreward]
    exact ⟨hpos, hmedian, hprice, rfl, derivedReward_ne_zero hmedian,
      derivedReward_le_max hmedian, rfl⟩

/-- What the node asks of a file. -/
structure Loadable (P : Primitives) (T : TextFunctions) (ceremonyHash : GenesisAttestation → Hash)
    (allowDryRunGenesis : Bool) (file : GenesisAttestation) : Prop where
  production_count : 5 ≤ (reportedValues file.productionSources).length
  production_bounds : ∀ v ∈ reportedValues file.productionSources,
    within ceremonyProdMinTonnes ceremonyProdMaxTonnes v = true
  price_count : reportedValues file.priceSources ≠ []
  price_bounds : ∀ v ∈ reportedValues file.priceSources, within 500 15000 v = true
  evidence : ∀ source ∈ file.productionSources ++ file.priceSources,
    hasEvidence T source.read = true
  median : ceremonyProdMinTonnes ≤ file.medianProductionTonnes ∧
    file.medianProductionTonnes ≤ ceremonyProdMaxTonnes
  price : ceremonyPriceMinUsdCents ≤ file.medianPriceUsdCents ∧
    file.medianPriceUsdCents ≤ ceremonyPriceMaxUsdCents
  blocks : file.blocksPerYear = blocksPerYear
  reward : file.baseRewardFlakes = derivedReward file.medianProductionTonnes
  hash : decodeHexArray T 32 "master_hash" file.masterHash = .ok (ceremonyHash file)
  signed : ∃ publicKey signature,
    decodeHexArray T 32 "operator_public_key" file.operatorPublicKey = .ok publicKey ∧
    (publicKey = P.verifyingKey (FixedBytes.fill 32 42) → allowDryRunGenesis = true) ∧
    decodeHexArray T 64 "operator_signature" file.operatorSignature = .ok signature ∧
    P.verifyingKeyOk publicKey = true ∧
    P.verifyStrict publicKey (ceremonyHash file).bytes signature = true

theorem exists_loadGenesisConfig_iff {allowDryRunGenesis : Bool} {file : GenesisAttestation} :
    (∃ config, loadGenesisConfig P T ceremonyHash allowDryRunGenesis file = .ok config) ↔
      Loadable P T ceremonyHash allowDryRunGenesis file := by
  unfold loadGenesisConfig
  simp only [Effect.bind_eq_ok, Effect.check_eq_ok, validateCeremonySources_eq_ok,
    validateCeremonyRewardDerivation_eq_ok]
  constructor
  · rintro ⟨config, -, ⟨hcount, hbounds, hpcount, hpbounds, hevidence⟩, -,
      ⟨hmedian, hprice, hblocks, hreward⟩, stated, hstated, -, hhash, publicKey, hkey, -, hdry,
      signature, hsignature, -, hpoint, -, hverify, -⟩
    subst hhash
    exact ⟨hcount, hbounds, hpcount, hpbounds, hevidence, hmedian, hprice, hblocks, hreward,
      hstated, publicKey, signature, hkey, hdry, hsignature, hpoint, hverify⟩
  · intro h
    obtain ⟨publicKey, signature, hkey, hdry, hsignature, hpoint, hverify⟩ := h.signed
    exact ⟨_, ⟨⟩, ⟨h.production_count, h.production_bounds, h.price_count, h.price_bounds,
      h.evidence⟩, ⟨⟩, ⟨h.median, h.price, h.blocks, h.reward⟩, _, h.hash, ⟨⟩, rfl, publicKey, hkey,
      ⟨⟩, hdry, signature, hsignature, ⟨⟩, hpoint, ⟨⟩, hverify, rfl⟩

end Loaded

end Opolys.Ceremony
