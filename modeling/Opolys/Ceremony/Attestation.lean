import Opolys.Ceremony.Json
import Opolys.Crypto.Reference

/-!
# The hash of a ceremony

The operator signs a hash of the attestation: the document with two empty fields, in canonical form.
The ceremony tool computes it from its own record, the node from the text of the file.
-/

namespace Opolys

/-! ## Entries of an object -/

/-- An entry in the place of all entries with its key. -/
def insertKey {α : Type} (key : String) (value : α) (entries : List (String × α)) :
    List (String × α) :=
  (key, value) :: entries.filter fun entry => entry.1 ≠ key

/-- Assign to a field of a document. No result is a panic: the document has no fields. -/
def Json.setField {ν : Type} (document : Json ν) (key : String) (value : Json ν) :
    Option (Json ν) :=
  match document with
  | .object entries => some (.object (insertKey key value entries))
  | .null => some (.object [(key, value)])
  | _ => none

theorem lookup_cons_ite {α : Type} (key : String) (entry : String × α)
    (entries : List (String × α)) :
    (entry :: entries).lookup key =
      if key = entry.1 then some entry.2 else entries.lookup key := by
  rw [List.lookup_cons]
  by_cases h : key = entry.1
  · simp [h]
  · simp [h, beq_false_of_ne h]

theorem lookup_insertKey {α : Type} {key other : String} (h : other ≠ key) (value : α)
    (entries : List (String × α)) :
    (insertKey key value entries).lookup other = entries.lookup other := by
  unfold insertKey
  rw [lookup_cons_ite, if_neg h]
  induction entries with
  | nil => rfl
  | cons entry entries ih =>
    by_cases hkey : entry.1 = key
    · have hother : other ≠ entry.1 := by
        rw [hkey]
        exact h
      rw [List.filter_cons_of_neg (by simpa using hkey), ih, lookup_cons_ite, if_neg hother]
    · rw [List.filter_cons_of_pos (by simpa using hkey), lookup_cons_ite, lookup_cons_ite, ih]

/-- Sorting does not change what is found under a key. -/
theorem lookup_sortByKey {α : Type} (key : String) (entries : List (String × α)) :
    (sortByKey entries).lookup key = entries.lookup key := by
  have hinsert (entry : String × α) (sorted : List (String × α)) :
      (sorted.orderedInsert (fun e f => e.1 ≤ f.1) entry).lookup key =
        (entry :: sorted).lookup key := by
    induction sorted with
    | nil => rfl
    | cons other sorted ih =>
      rw [List.orderedInsert_cons]
      split
      · rfl
      · rename_i hle
        have hne : entry.1 ≠ other.1 := by
          intro he
          rw [he] at hle
          exact hle (String.le_refl _)
        rw [lookup_cons_ite, ih, lookup_cons_ite, lookup_cons_ite, lookup_cons_ite]
        by_cases hkey : key = other.1
        · have hentry : key ≠ entry.1 := fun he => hne (he.symm.trans hkey)
          rw [if_pos hkey, if_neg hentry, if_pos hkey]
        · rw [if_neg hkey, if_neg hkey]
  unfold sortByKey
  induction entries with
  | nil => rfl
  | cons entry entries ih =>
    rw [List.insertionSort_cons, hinsert, lookup_cons_ite, lookup_cons_ite, ih]

theorem lookup_map {α β : Type} (f : α → β) (key : String) (entries : List (String × α)) :
    (entries.map fun entry => (entry.1, f entry.2)).lookup key = (entries.lookup key).map f := by
  induction entries with
  | nil => rfl
  | cons entry entries ih =>
    rw [List.map_cons, lookup_cons_ite, lookup_cons_ite, ih]
    by_cases hkey : key = entry.1
    · rw [if_pos hkey, if_pos hkey, Option.map_some]
    · rw [if_neg hkey, if_neg hkey]

namespace Ceremony

/-! ## The attestation of the tool -/

/-- What the ceremony records of one source. -/
structure SourceResult where
  name : String
  url : String
  fetchedAtMs : UInt64
  rawResponseHash : String
  httpStatus : Option UInt16
  responseBytes : UInt64
  extractedValue : Option ℚ
  status : String
  valueOrigin : String
  evidenceNote : Option String
  evidenceTimestampMs : Option UInt64

structure GenesisAttestation where
  ceremonyStartMs : UInt64
  ceremonyEndMs : UInt64
  ceremonyTimestamp : UInt64
  operatorName : String
  operatorPublicKey : String
  operatorSignature : String
  productionDataYear : UInt32
  productionSources : List SourceResult
  priceSources : List SourceResult
  priceFetchSpreadMs : UInt64
  medianProductionTonnes : ℚ
  medianPriceUsdCents : UInt64
  blocksPerYear : UInt64
  baseRewardOpl : UInt64
  baseRewardFlakes : UInt64
  derivationSteps : List String
  masterHash : String

def wordJson (n : UInt64) : Json JsonNumber := .number (.posInt n)

def floatJson (x : ℚ) : Json JsonNumber := .number (.float x)

/-- A field that is left out where it has no value. -/
def optionalField {α : Type} (key : String) (json : α → Json JsonNumber) :
    Option α → List (String × Json JsonNumber)
  | none => []
  | some value => [(key, json value)]

def SourceResult.toJson (source : SourceResult) : Json JsonNumber :=
  .object ([("name", .string source.name), ("url", .string source.url),
    ("fetched_at_ms", wordJson source.fetchedAtMs),
    ("raw_response_hash", .string source.rawResponseHash)] ++
    optionalField "http_status" (fun status => wordJson status.toUInt64) source.httpStatus ++
    [("response_bytes", wordJson source.responseBytes),
    ("extracted_value", source.extractedValue.elim .null floatJson),
    ("status", .string source.status), ("value_origin", .string source.valueOrigin)] ++
    optionalField "evidence_note" .string source.evidenceNote ++
    optionalField "evidence_timestamp_ms" wordJson source.evidenceTimestampMs)

/-- The fields of an attestation as a document. -/
def GenesisAttestation.fields (a : GenesisAttestation) : List (String × Json JsonNumber) :=
  [("ceremony_start_ms", wordJson a.ceremonyStartMs), ("ceremony_end_ms", wordJson a.ceremonyEndMs),
    ("ceremony_timestamp", wordJson a.ceremonyTimestamp), ("operator_name", .string a.operatorName),
    ("operator_public_key", .string a.operatorPublicKey),
    ("operator_signature", .string a.operatorSignature),
    ("production_data_year", wordJson a.productionDataYear.toUInt64),
    ("production_sources", .array (a.productionSources.map SourceResult.toJson)),
    ("price_sources", .array (a.priceSources.map SourceResult.toJson)),
    ("price_fetch_spread_ms", wordJson a.priceFetchSpreadMs),
    ("median_production_tonnes", floatJson a.medianProductionTonnes),
    ("median_price_usd_cents", wordJson a.medianPriceUsdCents),
    ("blocks_per_year", wordJson a.blocksPerYear), ("base_reward_opl", wordJson a.baseRewardOpl),
    ("base_reward_flakes", wordJson a.baseRewardFlakes),
    ("derivation_steps", .array (a.derivationSteps.map .string)),
    ("master_hash", .string a.masterHash)]

def GenesisAttestation.toJson (a : GenesisAttestation) : Json JsonNumber := .object a.fields

/-! ## The two hashes -/

/-- The bytes of a text. -/
def asBytes (text : List Char) : List UInt8 := text.flatMap String.utf8EncodeChar

/-- A document with the two fields empty that the hash does not cover. -/
def withoutSeal (value : Json JsonNumber) : Option (Json JsonNumber) :=
  (value.setField "master_hash" (.string "")).bind (·.setField "operator_signature" (.string ""))

section Hashes

variable (P : Primitives) (encodeString : String → List Char)
  (fromStr : List Char → Except String (Json JsonNumber))

/-- The bytes that are hashed. -/
def hashedBytes (value : Json JsonNumber) : Option (List UInt8) :=
  (withoutSeal value).map fun value => asBytes (canonicalJson encodeString value)

/-- The hash the tool computes from its record. -/
def computeMasterHash (attestation : GenesisAttestation) : Option String :=
  (hashedBytes encodeString attestation.toJson).map fun bytes => (P.blake3 bytes).toHex

/-- The hash the node computes from the text of a file. -/
def computeCeremonyMasterHash (attestationJson : List Char) : Option (Except String Hash) :=
  match fromStr attestationJson with
  | .error e => some (.error s!"Genesis ceremony JSON parse failed: {e}")
  | .ok value => (hashedBytes encodeString value).map fun bytes => .ok (P.blake3 bytes)

end Hashes

/-! ## What the hash commits to -/

theorem asBytes_injective : Function.Injective asBytes := by
  intro cs ds h
  have hencode : cs.utf8Encode = ds.utf8Encode := congrArg List.toByteArray h
  have hdecode := congrArg ByteArray.utf8Decode? hencode
  rw [List.utf8Decode?_utf8Encode, List.utf8Decode?_utf8Encode] at hdecode
  simpa using hdecode

/-- The fields that the hash does not cover. -/
def SealField (key : String) : Prop := key = "master_hash" ∨ key = "operator_signature"

/-- Objects with the same normal form have the same values in normal form. -/
theorem lookup_normal {entries entries' : List (String × Json JsonNumber)}
    (h : (Json.object entries).normal = (Json.object entries').normal) (key : String) :
    (entries.lookup key).map Json.normal = (entries'.lookup key).map Json.normal := by
  have hentries := congrArg (List.lookup key) (Json.object.inj h)
  rw [normalEntries_eq, normalEntries_eq, lookup_sortByKey, lookup_sortByKey, lookup_map,
    lookup_map] at hentries
  exact hentries

theorem lookup_withoutSeal {entries : List (String × Json JsonNumber)} {key : String}
    (h : ¬SealField key) : (insertKey "operator_signature" (Json.string "")
      (insertKey "master_hash" (.string "") entries)).lookup key = entries.lookup key := by
  rw [lookup_insertKey (fun he => h (Or.inr he)), lookup_insertKey (fun he => h (Or.inl he))]

theorem hashedBytes_object (encodeString : String → List Char)
    (entries : List (String × Json JsonNumber)) :
    hashedBytes encodeString (.object entries) =
      some (asBytes (canonicalJson encodeString (.object
        (insertKey "operator_signature" (.string "")
          (insertKey "master_hash" (.string "") entries))))) := rfl

/-- The hash does not cover the two fields that the signing fills in. -/
theorem hashedBytes_seal (encodeString : String → List Char) (a : GenesisAttestation)
    (signature hash : String) :
    hashedBytes encodeString
        { a with operatorSignature := signature, masterHash := hash : GenesisAttestation }.toJson =
      hashedBytes encodeString a.toJson := by
  unfold GenesisAttestation.toJson
  rw [hashedBytes_object, hashedBytes_object]
  simp [insertKey, GenesisAttestation.fields]

/-- Documents of which the same bytes are hashed have the same other fields. -/
theorem fields_eq_of_hashedBytes {encodeString : String → List Char}
    (henc : StringEncoding encodeString) {entries entries' : List (String × Json JsonNumber)}
    (h : hashedBytes encodeString (.object entries) = hashedBytes encodeString (.object entries'))
    {key : String} (hkey : ¬SealField key) :
    (entries.lookup key).map Json.normal = (entries'.lookup key).map Json.normal := by
  rw [hashedBytes_object, hashedBytes_object] at h
  have htext := asBytes_injective (Option.some.inj h)
  have hnormal := lookup_normal ((canonicalJson_eq_iff henc).mp htext) key
  rw [lookup_withoutSeal hkey, lookup_withoutSeal hkey] at hnormal
  exact hnormal

/-! ## An encoding of strings -/

/-- A quotation mark or a backslash gets a backslash. -/
def escaped (c : Char) : List Char := if c = '"' ∨ c = '\\' then ['\\', c] else [c]

/-- A string without control characters. -/
def quotedText (s : String) : List Char := '"' :: (s.toList.flatMap escaped ++ ['"'])

theorem escaped_inj {c d : Char} {s t : List Char} (h : escaped c ++ s = escaped d ++ t) :
    c = d ∧ s = t := by
  unfold escaped at h
  by_cases hc : c = '"' ∨ c = '\\'
  · by_cases hd : d = '"' ∨ d = '\\'
    · simpa [hc, hd] using h
    · rw [if_pos hc, if_neg hd] at h
      exact absurd (List.cons.inj h).1.symm (not_or.mp hd).2
  · by_cases hd : d = '"' ∨ d = '\\'
    · rw [if_neg hc, if_pos hd] at h
      exact absurd (List.cons.inj h).1 (not_or.mp hc).2
    · simpa [hc, hd] using h

theorem escaped_ne_quote (c : Char) (s t : List Char) : escaped c ++ s ≠ '"' :: t := by
  intro h
  unfold escaped at h
  by_cases hc : c = '"' ∨ c = '\\'
  · rw [if_pos hc] at h
    cases (List.cons.inj h).1
  · rw [if_neg hc] at h
    exact hc (Or.inl (List.cons.inj h).1)

theorem flatMap_escaped_inj {cs ds : List Char} {s t : List Char}
    (h : cs.flatMap escaped ++ '"' :: s = ds.flatMap escaped ++ '"' :: t) : cs = ds ∧ s = t := by
  induction cs generalizing ds with
  | nil =>
    cases ds with
    | nil => exact ⟨rfl, (List.cons.inj h).2⟩
    | cons d ds =>
      rw [List.flatMap_cons, List.append_assoc] at h
      exact absurd h.symm (escaped_ne_quote d _ s)
  | cons c cs ih =>
    rw [List.flatMap_cons, List.append_assoc] at h
    cases ds with
    | nil => exact absurd h (escaped_ne_quote c _ t)
    | cons d ds =>
      rw [List.flatMap_cons, List.append_assoc] at h
      obtain ⟨rfl, hrest⟩ := escaped_inj h
      obtain ⟨rfl, hst⟩ := ih hrest
      exact ⟨rfl, hst⟩

theorem quotedText_append_inj {x y : String} {s t : List Char}
    (h : quotedText x ++ s = quotedText y ++ t) : x = y ∧ s = t := by
  unfold quotedText at h
  simp only [List.cons_append, List.append_assoc, List.nil_append, List.cons.injEq,
    true_and] at h
  obtain ⟨hlist, hst⟩ := flatMap_escaped_inj h
  exact ⟨String.toList_injective hlist, hst⟩

theorem stringEncoding_quotedText : StringEncoding quotedText where
  quoted _ := ⟨_, rfl⟩
  delimited x y s t h := by rw [(quotedText_append_inj h).1]
  injective x y h := (quotedText_append_inj (s := []) (t := []) (by rw [h])).1

/-! ## The result -/

/-- The canonical text determines a document up to the order of keys and the canonical form of
numbers. So two files with the same hash have the same fields up to that, except for the two that
the hash does not cover, and the tool's hash of its record is the node's hash of what it writes. -/
theorem ceremony_hash_commits (P : Primitives) {encodeString : String → List Char}
    (henc : StringEncoding encodeString)
    (fromStr : List Char → Except String (Json JsonNumber)) :
    (∀ v w : Json JsonNumber, canonicalJson encodeString v = canonicalJson encodeString w ↔
      v.normal = w.normal) ∧
    (∀ text text' entries entries', fromStr text = .ok (.object entries) →
      fromStr text' = .ok (.object entries') →
      CollisionFree P.blake3 {m | hashedBytes encodeString (.object entries) = some m ∨
        hashedBytes encodeString (.object entries') = some m} →
      computeCeremonyMasterHash P encodeString fromStr text =
        computeCeremonyMasterHash P encodeString fromStr text' →
      ∀ key, ¬SealField key →
        (entries.lookup key).map Json.normal = (entries'.lookup key).map Json.normal) ∧
    ∀ (attestation : GenesisAttestation) text, fromStr text = .ok attestation.toJson →
      ∃ h, computeCeremonyMasterHash P encodeString fromStr text = some (.ok h) ∧
        computeMasterHash P encodeString attestation = some h.toHex := by
  refine ⟨fun v w => canonicalJson_eq_iff henc, ?_, ?_⟩
  · intro text text' entries entries' htext htext' hfree hhash key hkey
    apply fields_eq_of_hashedBytes henc _ hkey
    have hbytes := hashedBytes_object encodeString entries
    have hbytes' := hashedBytes_object encodeString entries'
    unfold computeCeremonyMasterHash at hhash
    rw [htext, htext'] at hhash
    simp only [hbytes, hbytes', Option.map_some, Option.some.injEq, Except.ok.injEq] at hhash ⊢
    exact hfree _ (Or.inl hbytes) _ (Or.inr hbytes') hhash
  · intro attestation text htext
    have hbytes := hashedBytes_object encodeString attestation.fields
    unfold computeCeremonyMasterHash computeMasterHash GenesisAttestation.toJson at *
    rw [htext]
    simp only [hbytes, Option.map_some]
    exact ⟨_, rfl, rfl⟩

/-- A source that has given an amount. -/
def amountSource : SourceResult where
  name := "A"
  url := ""
  fetchedAtMs := 1700000001000
  rawResponseHash := ""
  httpStatus := some 200
  responseBytes := 5120
  extractedValue := some 3630
  status := "ok"
  valueOrigin := "fetched"
  evidenceNote := none
  evidenceTimestampMs := none

/-- A ceremony without sources. -/
def emptyCeremony : GenesisAttestation where
  ceremonyStartMs := 1700000000000
  ceremonyEndMs := 1700000060000
  ceremonyTimestamp := 1700000000
  operatorName := "operator"
  operatorPublicKey := ""
  operatorSignature := ""
  productionDataYear := 2024
  productionSources := []
  priceSources := []
  priceFetchSpreadMs := 0
  medianProductionTonnes := 7261 / 2
  medianPriceUsdCents := 238600
  blocksPerYear := 350640
  baseRewardOpl := 332
  baseRewardFlakes := 332000000
  derivationSteps := []
  masterHash := ""

/-- A ceremony with one source. -/
def draftCeremony : GenesisAttestation :=
  { emptyCeremony with
    productionSources := [amountSource]
    medianProductionTonnes := 3630
    derivationSteps := ["3630"] }

/-- The ceremony with its hash and its signature. -/
def sealedCeremony : GenesisAttestation :=
  { draftCeremony with masterHash := "ab", operatorSignature := "cd" }

/-- The text of an attestation. -/
def attestationText (attestation : GenesisAttestation) : List Char :=
  canonicalJson quotedText attestation.toJson

/-- The documents that these texts hold. -/
def readAttestation (text : List Char) : Except String (Json JsonNumber) :=
  if text = attestationText draftCeremony then .ok draftCeremony.toJson
  else if text = attestationText sealedCeremony then .ok sealedCeremony.toJson
  else .error "expected value"

/-- The hash of a ceremony is the same before and after it is sealed, and tells lists of numbers
apart. -/
theorem ceremony_hash_commits_of_sealed :
    canonicalJson quotedText (.array [.number (.posInt 1), .number (.posInt 23)]) ≠
        canonicalJson quotedText (.array [.number (.posInt 12), .number (.posInt 3)]) ∧
      (∀ key, ¬SealField key → (draftCeremony.fields.lookup key).map Json.normal =
        (sealedCeremony.fields.lookup key).map Json.normal) ∧
      ∃ h, computeCeremonyMasterHash Reference.primitives quotedText readAttestation
          (attestationText sealedCeremony) = some (.ok h) ∧
        computeMasterHash Reference.primitives quotedText sealedCeremony = some h.toHex := by
  obtain ⟨hinj, hfields, hagree⟩ :=
    ceremony_hash_commits Reference.primitives stringEncoding_quotedText readAttestation
  have hne : attestationText sealedCeremony ≠ attestationText draftCeremony := by
    intro h
    have hnormal := lookup_normal ((hinj _ _).mp h) "master_hash"
    simp [sealedCeremony, draftCeremony, emptyCeremony, GenesisAttestation.fields, lookup_cons_ite,
      Json.normal] at hnormal
  have hdraft : readAttestation (attestationText draftCeremony) = .ok draftCeremony.toJson :=
    if_pos rfl
  have hsealed : readAttestation (attestationText sealedCeremony) = .ok sealedCeremony.toJson := by
    unfold readAttestation
    rw [if_neg hne, if_pos rfl]
  have hbytes : hashedBytes quotedText sealedCeremony.toJson =
      hashedBytes quotedText draftCeremony.toJson := hashedBytes_seal quotedText draftCeremony _ _
  refine ⟨?_, ?_, hagree sealedCeremony _ hsealed⟩
  · intro h
    have hnormal := (hinj _ _).mp h
    simp [Json.normal, normalItems, JsonNumber.millionths] at hnormal
  · refine hfields _ _ _ _ hdraft hsealed ?_ ?_
    · rintro m hm m' hm' -
      change hashedBytes quotedText draftCeremony.toJson = some m ∨
        hashedBytes quotedText sealedCeremony.toJson = some m at hm
      change hashedBytes quotedText draftCeremony.toJson = some m' ∨
        hashedBytes quotedText sealedCeremony.toJson = some m' at hm'
      rw [hbytes, or_self] at hm hm'
      exact Option.some.inj (hm.symm.trans hm')
    · unfold computeCeremonyMasterHash
      rw [hdraft, hsealed]
      dsimp only
      rw [hbytes]

end Ceremony

end Opolys
