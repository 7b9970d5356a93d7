import Opolys.Ceremony.Loading
import Opolys.Ceremony.Median
import Opolys.Library.Hex

/-!
# Verifying a ceremony

The tool verifies an attestation: it computes the hash, the medians, the fetch spread and the reward
again and collects what does not match. The node, which starts from the same file, does not make all
of these checks; `verifies_iff` says which attestations of those the node takes the tool accepts.
-/

namespace Opolys.Ceremony

open Codec (FixedBytes)
open MachineInt (saturatingMul saturatingSub)

/-! ## The report -/

structure VerificationReport where
  errors : List String
  warnings : List String

/-- A remark where something holds. -/
def remark (c : Prop) [Decidable c] (text : String) : List String := if c then [text] else []

@[simp] theorem remark_eq_nil {c : Prop} [Decidable c] {text : String} :
    remark c text = [] ↔ ¬c := by
  unfold remark
  by_cases hc : c <;> simp [hc]

def ceremonyWindowSecs : UInt64 := 300

def priceSpreadWarnMs : UInt64 := 60000

section Tool

variable (P : Primitives) (T : TextFunctions) (ceremonyHash : GenesisAttestation → Hash)

def decodeHex (n : ℕ) (field value : String) : Except String (FixedBytes n) :=
  decodeHexWith T "is not valid hex" n field value

/-- The value, or zeros and the error. -/
def orZeros {n : ℕ} (decoded : Except String (FixedBytes n)) : FixedBytes n × List String :=
  match decoded with
  | .ok array => (array, [])
  | .error e => (FixedBytes.fill n 0, [e])

def sourceErrors (label : String) (source : SourceResult) : List String :=
  remark (T.trim source.name = "") s!"{label} source has empty name" ++
  remark ((decodeHex T 32 s!"{label} source '{source.name}' raw_response_hash"
      source.rawResponseHash).toOption = none)
    s!"{label} source '{source.name}' raw_response_hash must be 32-byte hex" ++
  if "manual".toList.isPrefixOf source.valueOrigin.toList && source.extractedValue.isSome then
    remark (¬source.evidenceNote.any (fun note => 12 ≤ (T.trim note).utf8ByteSize) = true)
      s!"{label} source '{source.name}' manual value is missing evidence_note" ++
    remark (source.evidenceTimestampMs = none)
      s!"{label} source '{source.name}' manual value is missing evidence_timestamp_ms"
  else []

def sourceWarnings (label : String) (source : SourceResult) : List String :=
  remark (T.trim source.url = "" ∧ source.status ≠ "dry-run")
    s!"{label} source '{source.name}' has empty URL" ++
  remark (T.trim source.valueOrigin = "")
    s!"{label} source '{source.name}' has no value_origin provenance" ++
  remark (source.fetchedAtMs = 0 ∧ source.status ≠ "dry-run")
    s!"{label} source '{source.name}' has no fetch timestamp" ++
  remark (source.httpStatus.isSome = true ∧ source.responseBytes = 0)
    s!"{label} source '{source.name}' has HTTP status but zero response bytes"

/-- The time between the first and the last fetch of a price. -/
def computePriceFetchSpreadMs (results : List SourceResult) : UInt64 :=
  let ts := (results.filter fun r => 0 < r.fetchedAtMs && r.extractedValue.isSome).map
    (·.fetchedAtMs)
  if ts.length < 2 then 0
  else
    match ts.max?, ts.min? with
    | some last, some first => last - first
    | _, _ => 0

def computeBlocksPerYear : UInt64 :=
  toWord ⌊(1461 / 4 * 86400 * 1000 : ℚ) / blockTargetTimeMs.toNat⌋

/-- What the production sources say against the stated median. No result is a panic. -/
def productionMedianErrors (attestation : GenesisAttestation) : Option (List String) :=
  let values := attestation.productionSources.filterMap (·.extractedValue)
  if values.length < minProductionSources then
    some [s!"only {values.length} production sources succeeded; need at least " ++
      s!"{minProductionSources}"]
  else do
    let median ← trimmedMedian values
    return remark (1 / 10000 < |median - attestation.medianProductionTonnes|)
      (s!"median_production_tonnes mismatch: attestation " ++
        s!"{T.showPlaces 4 attestation.medianProductionTonnes}, computed {T.showPlaces 4 median}")

/-- What the price sources say against the stated median. -/
def priceMedianErrors (attestation : GenesisAttestation) : Option (List String) :=
  let values := attestation.priceSources.filterMap (·.extractedValue)
  if values.isEmpty then some ["no price sources succeeded"]
  else do
    let median ← trimmedMedian values
    let priceCents := toWord (roundAway (median * 100))
    return remark (priceCents ≠ attestation.medianPriceUsdCents)
      (s!"median_price_usd_cents mismatch: attestation {attestation.medianPriceUsdCents}, " ++
        s!"computed {priceCents}")

def verifyAttestation (attestation : GenesisAttestation) : Option VerificationReport := do
  let computedMasterHash := (ceremonyHash attestation).toHex
  let (masterHash, hashErrors) := orZeros (decodeHex T 32 "master_hash" attestation.masterHash)
  let (operatorPublicKey, keyErrors) :=
    orZeros (decodeHex T 32 "operator_public_key" attestation.operatorPublicKey)
  let (operatorSignature, signatureErrors) :=
    orZeros (decodeHex T 64 "operator_signature" attestation.operatorSignature)
  let durationMs := saturatingSub attestation.ceremonyEndMs attestation.ceremonyStartMs
  let productionErrors ← productionMedianErrors T attestation
  let priceErrors ← priceMedianErrors attestation
  let spreadMs := computePriceFetchSpreadMs attestation.priceSources
  let blocksPerYear := computeBlocksPerYear
  let annualOz := attestation.medianProductionTonnes * troyOzPerTonne
  let baseRewardOpl := toWord ⌊annualOz / blocksPerYear.toNat⌋
  let baseRewardFlakes := saturatingMul baseRewardOpl flakesPerOpl
  return {
    errors :=
      remark (computedMasterHash ≠ attestation.masterHash)
        (s!"master_hash mismatch: expected {attestation.masterHash}, computed " ++
          s!"{computedMasterHash}") ++
      hashErrors ++ keyErrors ++ signatureErrors ++
      (if P.verifyingKeyOk operatorPublicKey = true then
        remark (P.verifyStrict operatorPublicKey masterHash.bytes operatorSignature = false)
          "operator_signature does not verify master_hash"
      else ["operator_public_key is not a valid ed25519 key"]) ++
      remark (attestation.ceremonyEndMs < attestation.ceremonyStartMs)
        "ceremony_end_ms is earlier than ceremony_start_ms" ++
      remark (ceremonyWindowSecs * 1000 < durationMs)
        s!"ceremony duration {durationMs / 1000}s exceeds {ceremonyWindowSecs}s window" ++
      remark (attestation.ceremonyTimestamp ≠ attestation.ceremonyStartMs / 1000)
        "ceremony_timestamp must equal ceremony_start_ms / 1000" ++
      attestation.productionSources.flatMap (sourceErrors T "production") ++
      attestation.priceSources.flatMap (sourceErrors T "price") ++
      productionErrors ++ priceErrors ++
      remark (spreadMs ≠ attestation.priceFetchSpreadMs)
        (s!"price_fetch_spread_ms mismatch: attestation {attestation.priceFetchSpreadMs}, " ++
          s!"computed {spreadMs}") ++
      remark (attestation.blocksPerYear ≠ blocksPerYear)
        (s!"blocks_per_year mismatch: attestation {attestation.blocksPerYear}, computed " ++
          s!"{blocksPerYear}") ++
      remark (attestation.baseRewardOpl ≠ baseRewardOpl)
        (s!"base_reward_opl mismatch: attestation {attestation.baseRewardOpl}, computed " ++
          s!"{baseRewardOpl}") ++
      remark (attestation.baseRewardFlakes ≠ baseRewardFlakes)
        (s!"base_reward_flakes mismatch: attestation {attestation.baseRewardFlakes}, computed " ++
          s!"{baseRewardFlakes}") ++
      remark (attestation.productionDataYear = 0) "production_data_year must be non-zero"
    warnings :=
      attestation.productionSources.flatMap (sourceWarnings T "production") ++
      attestation.priceSources.flatMap (sourceWarnings T "price") ++
      remark (priceSpreadWarnMs < spreadMs)
        (s!"price source fetch spread is {T.showPlaces 1 (spreadMs.toNat / 1000)}s, above " ++
          s!"{T.showPlaces 1 (priceSpreadWarnMs.toNat / 1000)}s warning threshold") ++
      remark (attestation.derivationSteps = []) "derivation_steps is empty" }

end Tool

/-! ## What the tool accepts of what the node takes -/

/-- What the tool asks of an attestation that the node takes. -/
structure Verifiable (T : TextFunctions) (ceremonyHash : GenesisAttestation → Hash)
    (file : GenesisAttestation) : Prop where
  master_hash : file.masterHash = (ceremonyHash file).toHex
  ends : file.ceremonyStartMs ≤ file.ceremonyEndMs
  window : file.ceremonyEndMs.toNat - file.ceremonyStartMs.toNat ≤ 300000
  timestamp : file.ceremonyTimestamp = file.ceremonyStartMs / 1000
  named : ∀ source ∈ file.productionSources ++ file.priceSources, T.trim source.name ≠ ""
  hashed : ∀ source ∈ file.productionSources ++ file.priceSources,
    ∃ hash : FixedBytes 32, T.hexDecode source.rawResponseHash = .ok hash.bytes
  production_median : ∃ m, trimmedMedian (reportedValues file.productionSources) = some m ∧
    |m - file.medianProductionTonnes| ≤ 1 / 10000
  price_median : ∃ m, trimmedMedian (reportedValues file.priceSources) = some m ∧
    toWord (roundAway (m * 100)) = file.medianPriceUsdCents
  spread : computePriceFetchSpreadMs file.priceSources = file.priceFetchSpreadMs
  reward_opl : file.baseRewardOpl =
    toWord ⌊file.medianProductionTonnes * troyOzPerTonne / blocksPerYear.toNat⌋
  year : file.productionDataYear ≠ 0

section Verified

variable {P : Primitives} {T : TextFunctions} {ceremonyHash : GenesisAttestation → Hash}

theorem computeBlocksPerYear_eq : computeBlocksPerYear = blocksPerYear := by
  have htarget : blockTargetTimeMs.toNat = 90000 := rfl
  have hfloor : ⌊(1461 / 4 * 86400 * 1000 : ℚ) / blockTargetTimeMs.toNat⌋ = 350640 := by
    rw [htarget, Int.floor_eq_iff]
    norm_num
  unfold computeBlocksPerYear
  rw [hfloor]
  rfl

theorem orZeros_ok {n : ℕ} (field : String) {value : String} {array : FixedBytes n}
    (h : T.hexDecode value = .ok array.bytes) :
    orZeros (decodeHex T n field value) = (array, []) := by
  unfold decodeHex
  rw [decodeHexWith_eq_ok.mpr h]
  rfl

/-- A source of which the node has seen the evidence has an error exactly where it has no name or no
hash. -/
theorem sourceErrors_eq_nil {label : String} {source : SourceResult}
    (h : hasEvidence T source.read = true) : sourceErrors T label source = [] ↔
      T.trim source.name ≠ "" ∧
        ∃ hash : FixedBytes 32, T.hexDecode source.rawResponseHash = .ok hash.bytes := by
  have hhash (field : String) :
      ¬(decodeHex T 32 field source.rawResponseHash).toOption = none ↔
        ∃ hash : FixedBytes 32, T.hexDecode source.rawResponseHash = .ok hash.bytes := by
    unfold decodeHex
    cases hdecode : decodeHexWith T "is not valid hex" 32 field source.rawResponseHash with
    | error e =>
      simp [Except.toOption]
      intro hash hok
      rw [decodeHexWith_eq_ok.mpr hok] at hdecode
      cases hdecode
    | ok hash =>
      simp [Except.toOption]
      exact ⟨hash, decodeHexWith_eq_ok.mp hdecode⟩
  unfold hasEvidence SourceResult.read at h
  unfold sourceErrors
  by_cases hmanual : ("manual".toList.isPrefixOf source.valueOrigin.toList &&
      source.extractedValue.isSome) = true
  · rw [if_pos hmanual] at h ⊢
    obtain ⟨hnote, htime⟩ := Bool.and_eq_true_iff.mp h
    have hsome : ¬source.evidenceTimestampMs = none := by
      intro hnone
      rw [hnone] at htime
      cases htime
    simp only [List.append_eq_nil_iff, remark_eq_nil, hhash, hnote, hsome]
    simp
  · rw [if_neg hmanual]
    simp only [List.append_eq_nil_iff, remark_eq_nil, hhash]
    simp

theorem flatMap_sourceErrors_eq_nil {label : String} {sources : List SourceResult}
    (h : ∀ source ∈ sources, hasEvidence T source.read = true) :
    sources.flatMap (sourceErrors T label) = [] ↔
      (∀ source ∈ sources, T.trim source.name ≠ "") ∧ ∀ source ∈ sources,
        ∃ hash : FixedBytes 32, T.hexDecode source.rawResponseHash = .ok hash.bytes := by
  rw [List.flatMap_eq_nil_iff]
  constructor
  · intro hnil
    constructor
    · intro source hsource
      exact ((sourceErrors_eq_nil (h source hsource)).mp (hnil source hsource)).1
    · intro source hsource
      exact ((sourceErrors_eq_nil (h source hsource)).mp (hnil source hsource)).2
  · rintro ⟨hnamed, hhashed⟩ source hsource
    exact (sourceErrors_eq_nil (h source hsource)).mpr
      ⟨hnamed source hsource, hhashed source hsource⟩

/-- There is a median of any values. -/
theorem exists_trimmedMedian {values : List ℚ} (h : values ≠ []) :
    ∃ m, trimmedMedian values = some m := by
  obtain ⟨_, _, hm⟩ := OrderStatistic.median_eq h
  exact ⟨_, (trimmedMedian_eq_median h).trans hm⟩

theorem productionMedianErrors_eq {file : GenesisAttestation} {m : ℚ}
    (hcount : 5 ≤ (reportedValues file.productionSources).length)
    (hm : trimmedMedian (reportedValues file.productionSources) = some m) :
    ∃ text, productionMedianErrors T file =
      some (remark (1 / 10000 < |m - file.medianProductionTonnes|) text) := by
  unfold productionMedianErrors
  dsimp only
  unfold reportedValues at hcount hm
  have henough : ¬(file.productionSources.filterMap (·.extractedValue)).length <
      minProductionSources := not_lt.mpr hcount
  rw [if_neg henough, hm]
  exact ⟨_, rfl⟩

theorem priceMedianErrors_eq {file : GenesisAttestation} {m : ℚ}
    (hcount : reportedValues file.priceSources ≠ [])
    (hm : trimmedMedian (reportedValues file.priceSources) = some m) :
    ∃ text, priceMedianErrors file =
      some (remark (toWord (roundAway (m * 100)) ≠ file.medianPriceUsdCents) text) := by
  unfold priceMedianErrors
  dsimp only
  unfold reportedValues at hcount hm
  rw [if_neg (by simpa using hcount), hm]
  exact ⟨_, rfl⟩

theorem saturatingMul_reward {median : ℚ}
    (h : ceremonyProdMinTonnes ≤ median ∧ median ≤ ceremonyProdMaxTonnes) :
    saturatingMul (toWord ⌊median * troyOzPerTonne / blocksPerYear.toNat⌋) flakesPerOpl =
      derivedReward median := by
  have hunit : flakesPerOpl.toNat = 1000000 := rfl
  have hbounds := reward_bounds h
  apply UInt64.toNat_inj.mp
  rw [MachineInt.toNat_saturatingMul, toNat_derivedReward h, hunit]
  omega

theorem exists_clean_report_iff {file : GenesisAttestation} {allowDryRunGenesis : Bool}
    (hloadable : Loadable P T ceremonyHash allowDryRunGenesis file) :
    (∃ report, verifyAttestation P T ceremonyHash file = some report ∧ report.errors = []) ↔
      Verifiable T ceremonyHash file := by
  obtain ⟨publicKey, signature, hkey, -, hsignature, hpoint, hverify⟩ := hloadable.signed
  have hproduction : ∀ source ∈ file.productionSources, hasEvidence T source.read = true :=
    fun source hsource => hloadable.evidence source (List.mem_append_left _ hsource)
  have hprice : ∀ source ∈ file.priceSources, hasEvidence T source.read = true :=
    fun source hsource => hloadable.evidence source (List.mem_append_right _ hsource)
  obtain ⟨production, hpm⟩ := exists_trimmedMedian
    (List.length_pos_iff.mp (Nat.lt_of_lt_of_le (by norm_num) hloadable.production_count))
  obtain ⟨price, hcm⟩ := exists_trimmedMedian hloadable.price_count
  obtain ⟨productionText, hproductionErrors⟩ :=
    productionMedianErrors_eq (T := T) hloadable.production_count hpm
  obtain ⟨priceText, hpriceErrors⟩ := priceMedianErrors_eq hloadable.price_count hcm
  have hmaster := orZeros_ok "master_hash" (decodeHexWith_eq_ok.mp hloadable.hash)
  have hpublic := orZeros_ok "operator_public_key" (decodeHexWith_eq_ok.mp hkey)
  have hseal := orZeros_ok "operator_signature" (decodeHexWith_eq_ok.mp hsignature)
  have hreward := saturatingMul_reward hloadable.median
  have hwindow : (ceremonyWindowSecs * 1000).toNat = 300000 := rfl
  unfold verifyAttestation
  simp only [hmaster, hpublic, hseal, hproductionErrors, hpriceErrors, computeBlocksPerYear_eq,
    hreward, Option.bind_eq_bind, Option.bind_some, Option.pure_def, Option.some.injEq,
    exists_eq_left', List.append_eq_nil_iff, remark_eq_nil, hpoint, hverify, if_true,
    flatMap_sourceErrors_eq_nil hproduction, flatMap_sourceErrors_eq_nil hprice]
  have hduration : ¬ceremonyWindowSecs * 1000 <
      saturatingSub file.ceremonyEndMs file.ceremonyStartMs ↔
      file.ceremonyEndMs.toNat - file.ceremonyStartMs.toNat ≤ 300000 := by
    rw [UInt64.lt_iff_toNat_lt, hwindow, MachineInt.toNat_saturatingSub, not_lt]
  have hends : ¬file.ceremonyEndMs < file.ceremonyStartMs ↔
      file.ceremonyStartMs ≤ file.ceremonyEndMs := by
    rw [UInt64.lt_iff_toNat_lt, UInt64.le_iff_toNat_le, not_lt]
  simp only [hduration, hends, ne_eq, not_not, and_true, and_assoc, not_lt]
  constructor
  · rintro ⟨hmasterHash, -, hfirst, hlength, htimestamp, hnamed, hhashed, hnamed', hhashed',
      hproductionMedian, hpriceMedian, hspread, -, hopl, -, hyear⟩
    refine ⟨hmasterHash.symm, hfirst, hlength, htimestamp, ?_, ?_, ⟨production, hpm,
      hproductionMedian⟩, ⟨price, hcm, hpriceMedian⟩, hspread, hopl, hyear⟩
    · intro source hsource
      rcases List.mem_append.mp hsource with hsource | hsource
      · exact hnamed source hsource
      · exact hnamed' source hsource
    · intro source hsource
      rcases List.mem_append.mp hsource with hsource | hsource
      · exact hhashed source hsource
      · exact hhashed' source hsource
  · intro hv
    obtain ⟨m, hm, hclose⟩ := hv.production_median
    rw [hpm] at hm
    cases hm
    obtain ⟨m, hm, hcents⟩ := hv.price_median
    rw [hcm] at hm
    cases hm
    exact ⟨hv.master_hash.symm, by simp, hv.ends, hv.window, hv.timestamp,
      fun source hsource => hv.named source (List.mem_append_left _ hsource),
      fun source hsource => hv.hashed source (List.mem_append_left _ hsource),
      fun source hsource => hv.named source (List.mem_append_right _ hsource),
      fun source hsource => hv.hashed source (List.mem_append_right _ hsource),
      hclose, hcents, hv.spread, hloadable.blocks, hv.reward_opl, hloadable.reward, hv.year⟩

/-- Of the attestations that the node takes, the tool accepts exactly those that also meet the
checks that only the tool makes. -/
theorem verifies_iff (P : Primitives) (T : TextFunctions)
    (ceremonyHash : GenesisAttestation → Hash) (file : GenesisAttestation) (config : GenesisConfig)
    (h : loadGenesisConfig P T ceremonyHash false file = .ok config) :
    (∃ report, verifyAttestation P T ceremonyHash file = some report ∧ report.errors = []) ↔
      Verifiable T ceremonyHash file :=
  exists_clean_report_iff (exists_loadGenesisConfig_iff.mp ⟨config, h⟩)

end Verified

/-! ## A ceremony to compute with -/

/-- Texts of plain words and whole numbers. -/
def plainTexts : TextFunctions where
  hexDecode s := Hex.bytes s.toList
  trim s := s
  showF64 x := toString x
  showPlaces _ x := toString x

/-- The hash of a ceremony with strings that need no escapes. -/
def plainHash (a : GenesisAttestation) : Hash :=
  ((hashedBytes quotedText a.toJson).map Reference.primitives.blake3).getD Hash.zero

/-- The secret of an operator. -/
def operatorSeed : FixedBytes 32 := FixedBytes.fill 32 7

/-- A ceremony signed by its operator. -/
def signCeremony (a : GenesisAttestation) : GenesisAttestation :=
  { a with
    operatorSignature := String.ofList
      ((Reference.primitives.sign operatorSeed (plainHash a).bytes).bytes.flatMap Hex.digits)
    masterHash := (plainHash a).toHex }

theorem hexDecode_plain (bytes : List UInt8) :
    plainTexts.hexDecode (String.ofList (bytes.flatMap Hex.digits)) = .ok bytes := by
  show Hex.bytes (String.ofList (bytes.flatMap Hex.digits)).toList = .ok bytes
  rw [String.toList_ofList]
  exact Hex.bytes_flatMap_digits bytes

theorem hexDecode_toHex (h : Hash) : plainTexts.hexDecode h.toHex = .ok h.bytes :=
  hexDecode_plain h.bytes

theorem plainHash_signCeremony (a : GenesisAttestation) :
    plainHash (signCeremony a) = plainHash a := by
  unfold plainHash signCeremony
  rw [hashedBytes_seal]

/-- A source with a value. -/
def plainSource (name : String) (value : ℚ) : SourceResult where
  name := name
  url := "https://example.invalid"
  fetchedAtMs := 1700000000500
  rawResponseHash := Hash.zero.toHex
  httpStatus := some 200
  responseBytes := 100
  extractedValue := some value
  status := "ok"
  valueOrigin := "auto-parse"
  evidenceNote := none
  evidenceTimestampMs := none

/-- A ceremony with five sources that report the same production, before it is signed. -/
def unsignedCeremony (tonnes : ℚ) : GenesisAttestation :=
  { emptyCeremony with
    operatorPublicKey := Hash.toHex (Reference.primitives.verifyingKey operatorSeed)
    productionSources := ["USGS", "World Gold Council", "Kitco Production", "LBMA Annual Survey",
      "Metals Focus"].map fun name => plainSource name tonnes
    priceSources := [plainSource "LBMA Live Price" 2386]
    medianProductionTonnes := 3630 }

def plainCeremony (tonnes : ℚ) : GenesisAttestation := signCeremony (unsignedCeremony tonnes)

theorem reward_plain : ⌊(3630 : ℚ) * troyOzPerTonne / blocksPerYear.toNat⌋ = 332 := by
  rw [toNat_blocksPerYear, Int.floor_eq_iff]
  unfold troyOzPerTonne
  norm_num

theorem derivedReward_plain : derivedReward 3630 = 332000000 := by
  unfold derivedReward
  rw [reward_plain]
  rfl

theorem hasEvidence_plainSource (name : String) (value : ℚ) :
    hasEvidence plainTexts (plainSource name value).read = true := by
  simp [hasEvidence, SourceResult.read, plainSource]

theorem operatorKey_ne_dryRun : Reference.primitives.verifyingKey operatorSeed ≠
    Reference.primitives.verifyingKey (FixedBytes.fill 32 42) := by decide +kernel

theorem loadable_plainCeremony {tonnes : ℚ}
    (h : within ceremonyProdMinTonnes ceremonyProdMaxTonnes tonnes = true) :
    Loadable Reference.primitives plainTexts plainHash false (plainCeremony tonnes) := by
  have hhash : plainHash (plainCeremony tonnes) = plainHash (unsignedCeremony tonnes) :=
    plainHash_signCeremony _
  refine ⟨?_, ?_, ?_, ?_, ?_, ?_, ?_, ?_, ?_, ?_, ?_⟩
  · exact le_refl 5
  · intro v hv
    have hvalue : v = tonnes := by
      simpa [plainCeremony, unsignedCeremony, signCeremony, reportedValues, plainSource] using hv
    rw [hvalue]
    exact h
  · exact List.cons_ne_nil _ _
  · intro v hv
    have hvalue : v = 2386 := by
      simpa [plainCeremony, unsignedCeremony, signCeremony, reportedValues, plainSource] using hv
    rw [hvalue]
    decide
  · intro source hsource
    have hplain : ∃ name value, source = plainSource name value := by
      rcases List.mem_append.mp hsource with hmem | hmem
      · obtain ⟨name, -, rfl⟩ := List.mem_map.mp hmem
        exact ⟨name, tonnes, rfl⟩
      · rw [List.mem_singleton.mp hmem]
        exact ⟨_, _, rfl⟩
    obtain ⟨name, value, rfl⟩ := hplain
    exact hasEvidence_plainSource name value
  · show ceremonyProdMinTonnes ≤ 3630 ∧ 3630 ≤ ceremonyProdMaxTonnes
    unfold ceremonyProdMinTonnes ceremonyProdMaxTonnes
    norm_num
  · show ceremonyPriceMinUsdCents ≤ 238600 ∧ 238600 ≤ ceremonyPriceMaxUsdCents
    decide
  · rfl
  · exact derivedReward_plain.symm
  · rw [hhash]
    exact decodeHexWith_eq_ok.mpr (hexDecode_toHex _)
  · refine ⟨Reference.primitives.verifyingKey operatorSeed,
      Reference.primitives.sign operatorSeed (plainHash (unsignedCeremony tonnes)).bytes,
      decodeHexWith_eq_ok.mpr (hexDecode_toHex _), fun he => absurd he operatorKey_ne_dryRun,
      decodeHexWith_eq_ok.mpr (hexDecode_plain _), rfl, ?_⟩
    rw [hhash]
    exact decide_eq_true rfl

theorem exists_plainConfig {tonnes : ℚ}
    (h : within ceremonyProdMinTonnes ceremonyProdMaxTonnes tonnes = true) :
    ∃ config, loadGenesisConfig Reference.primitives plainTexts plainHash false
      (plainCeremony tonnes) = .ok config :=
  exists_loadGenesisConfig_iff.mpr (loadable_plainCeremony h)

theorem trimmedMedian_replicate {n : ℕ} (hn : n ≠ 0) (x : ℚ) :
    trimmedMedian (List.replicate n x) = some x := by
  have hne : List.replicate n x ≠ [] := by simp [hn]
  obtain ⟨m, hm, low, hlow, high, hhigh, hle, hge⟩ := OrderStatistic.median_between hne
    (List.Perm.of_eq (List.append_nil _).symm) (Nat.zero_le _)
  rw [List.eq_of_mem_replicate hlow] at hle
  rw [List.eq_of_mem_replicate hhigh] at hge
  rw [trimmedMedian_eq_median hne, hm, le_antisymm hge hle]

/-- The stated median is not the one of the sources, but the node starts from it, and the reward
does not follow from what the sources report. -/
theorem inflated_ceremony_loads :
    trimmedMedian (reportedValues (plainCeremony 3000).productionSources) = some 3000 ∧
      (∃ config, loadGenesisConfig Reference.primitives plainTexts plainHash false
        (plainCeremony 3000) = .ok config) ∧
      ¬∃ report, verifyAttestation Reference.primitives plainTexts plainHash (plainCeremony 3000) =
        some report ∧ report.errors = [] := by
  have hwithin : within ceremonyProdMinTonnes ceremonyProdMaxTonnes 3000 = true := by decide
  have hmedian :
      trimmedMedian (reportedValues (plainCeremony 3000).productionSources) = some 3000 :=
    trimmedMedian_replicate (n := 5) (by norm_num) 3000
  refine ⟨hmedian, exists_plainConfig hwithin, ?_⟩
  rw [exists_clean_report_iff (loadable_plainCeremony hwithin)]
  intro hv
  obtain ⟨m, hm, hclose⟩ := hv.production_median
  rw [hmedian] at hm
  cases hm
  have hstated : (plainCeremony 3000).medianProductionTonnes = 3630 := rfl
  rw [hstated] at hclose
  norm_num [abs_le] at hclose

/-- With a stated median that is the one of the sources, the tool accepts the ceremony too. -/
theorem verifies_iff_plain :
    ∃ report, verifyAttestation Reference.primitives plainTexts plainHash (plainCeremony 3630) =
      some report ∧ report.errors = [] := by
  have hwithin : within ceremonyProdMinTonnes ceremonyProdMaxTonnes 3630 = true := by decide
  obtain ⟨config, hconfig⟩ := exists_plainConfig hwithin
  have hsource : ∀ source ∈ (plainCeremony 3630).productionSources ++
      (plainCeremony 3630).priceSources, ∃ name value, name ≠ "" ∧
        source = plainSource name value := by
    intro source hsource
    rcases List.mem_append.mp hsource with hmem | hmem
    · obtain ⟨name, hname, rfl⟩ := List.mem_map.mp hmem
      refine ⟨name, 3630, ?_, rfl⟩
      rintro rfl
      simp at hname
    · rw [List.mem_singleton.mp hmem]
      exact ⟨_, _, by decide, rfl⟩
  have hcents : toWord (roundAway (2386 * 100)) = 238600 := by
    have hround : roundAway (2386 * 100) = 238600 := by
      unfold roundAway
      rw [if_pos (by norm_num), Int.floor_eq_iff]
      norm_num
    rw [hround]
    rfl
  apply (verifies_iff _ _ _ _ config hconfig).mpr
  refine ⟨?_, by decide, by decide, rfl, ?_, ?_,
    ⟨3630, trimmedMedian_replicate (n := 5) (by norm_num)
    3630, ?_⟩, ⟨2386, trimmedMedian_replicate (n := 1) (by norm_num) 2386, hcents⟩, by decide, ?_,
    by decide⟩
  · exact congrArg Hash.toHex (plainHash_signCeremony _).symm
  · intro source hmem
    obtain ⟨name, value, hname, rfl⟩ := hsource source hmem
    exact hname
  · intro source hmem
    obtain ⟨name, value, -, rfl⟩ := hsource source hmem
    exact ⟨Hash.zero, hexDecode_toHex _⟩
  · show |(3630 : ℚ) - 3630| ≤ 1 / 10000
    norm_num
  · show (332 : UInt64) = toWord ⌊(3630 : ℚ) * troyOzPerTonne / blocksPerYear.toNat⌋
    rw [reward_plain]
    rfl

end Opolys.Ceremony
