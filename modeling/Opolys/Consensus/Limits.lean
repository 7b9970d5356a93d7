import Opolys.Consensus.Block

/-!
# What a body may hold

`checkBody` accepts a block exactly when its body keeps to the limits and its header carries
the roots of the body. The roots of a block that was built with `setBodyRoots` are right
whatever proof is added to it.
-/

namespace Opolys

open Codec (Borsh FixedBytes leBytes)
open Effect (bind_eq_ok check_bind_eq_ok check_eq_ok)
open MachineInt (saturatingAdd)

variable {P : Primitives}

/-! ## Limits -/

/-- A body that keeps to the limits of a block. -/
structure Block.WithinLimits (block : Block) : Prop where
  transactions : block.transactions.length ≤ maxTransactionsPerBlock
  evidence : block.slashEvidence.length ≤ maxSlashEvidencePerBlock
  attestations : block.attestations.length ≤ maxAttestationsPerBlock
  size : blockSize block ≤ maxBlockSizeBytes
  distinct : (block.transactions.map Transaction.txId).Nodup
  data : ∀ tx ∈ block.transactions, tx.data.length ≤ maxTxDataSizeBytes
  fee : ∀ tx ∈ block.transactions, minFee ≤ tx.fee

/-- A header that carries the roots of the body. -/
structure Block.RootsMatch (P : Primitives) (block : Block) : Prop where
  transactions : computeTransactionRoot P block.transactions = block.header.transactionRoot
  evidence : computeEvidenceRoot P block.slashEvidence = .ok block.header.evidenceRoot
  attestations : computeAttestationRoot P block.attestations = .ok block.header.attestationRoot
  ceremony : computeGenesisCeremonyHash P block.genesisCeremony =
    .ok block.header.genesisCeremonyHash

theorem checkDistinct_eq_ok {height : BlockHeight} {txs : List Transaction}
    {seen : List ObjectId} :
    checkDistinct height txs seen = .ok () ↔
      (txs.map Transaction.txId).Nodup ∧ ∀ tx ∈ txs, tx.txId ∉ seen := by
  induction txs generalizing seen with
  | nil => simp [checkDistinct]
  | cons tx txs ih =>
    rw [checkDistinct, check_bind_eq_ok, ih, List.map_cons, List.nodup_cons]
    constructor
    · rintro ⟨hfresh, hnodup, hrest⟩
      refine ⟨⟨fun hmem => ?_, hnodup⟩, fun t ht => ?_⟩
      · obtain ⟨t, ht, hid⟩ := List.mem_map.mp hmem
        exact hrest t ht (hid ▸ List.mem_cons_self)
      · rcases List.mem_cons.mp ht with rfl | ht
        · exact hfresh
        · exact fun hmem => hrest t ht (List.mem_cons_of_mem _ hmem)
    · rintro ⟨⟨hnew, hnodup⟩, hfresh⟩
      refine ⟨hfresh tx List.mem_cons_self, hnodup, fun t ht hmem => ?_⟩
      rcases List.mem_cons.mp hmem with hid | hmem
      · exact hnew (List.mem_map.mpr ⟨t, ht, hid⟩)
      · exact hfresh t (List.mem_cons_of_mem _ ht) hmem

theorem forM_check_eq_ok {α : Type} {c : α → Prop} [DecidablePred c] {e : α → OpolysError}
    {xs : List α} : (xs.forM fun x => Effect.check (c x) (e x)) = .ok () ↔ ∀ x ∈ xs, c x := by
  rw [List.forM_eq_forM]
  induction xs with
  | nil => exact iff_of_true rfl nofun
  | cons x xs ih =>
    rw [List.forM_cons, check_bind_eq_ok, ih, List.forall_mem_cons]

theorem checkRoot_eq_ok {name : String} {expected actual : Hash} :
    checkRoot name expected actual = .ok () ↔ actual = expected := check_eq_ok

/-- A body passes exactly when it keeps to the limits and the header carries its roots. -/
theorem checkBody_eq_ok {block : Block} :
    checkBody P block = .ok () ↔ block.WithinLimits ∧ block.RootsMatch P := by
  unfold checkBody
  dsimp only
  rw [check_bind_eq_ok, check_bind_eq_ok, check_bind_eq_ok, check_bind_eq_ok]
  constructor
  · rintro ⟨htransactions, hevidence, hattestations, hsize, h⟩
    obtain ⟨⟨⟩, hroot, h⟩ := bind_eq_ok.mp h
    obtain ⟨evidenceRoot, hevidenceRoot, h⟩ := bind_eq_ok.mp h
    obtain ⟨⟨⟩, hevidenceSame, h⟩ := bind_eq_ok.mp h
    obtain ⟨attestationRoot, hattestationRoot, h⟩ := bind_eq_ok.mp h
    obtain ⟨⟨⟩, hattestationSame, h⟩ := bind_eq_ok.mp h
    obtain ⟨ceremonyHash, hceremony, h⟩ := bind_eq_ok.mp h
    obtain ⟨⟨⟩, hceremonySame, h⟩ := bind_eq_ok.mp h
    obtain ⟨⟨⟩, hdistinct, h⟩ := bind_eq_ok.mp h
    obtain ⟨⟨⟩, hdata, hfee⟩ := bind_eq_ok.mp h
    rw [checkRoot_eq_ok] at hroot hevidenceSame hattestationSame hceremonySame
    rw [forM_check_eq_ok] at hdata hfee
    refine ⟨⟨htransactions, hevidence, hattestations, hsize, (checkDistinct_eq_ok.mp hdistinct).1,
      hdata, hfee⟩, ⟨hroot.symm, ?_, ?_, ?_⟩⟩
    · rw [hevidenceRoot, hevidenceSame]
    · rw [hattestationRoot, hattestationSame]
    · rw [hceremony, hceremonySame]
  · rintro ⟨hlimits, hroots⟩
    refine ⟨hlimits.transactions, hlimits.evidence, hlimits.attestations, hlimits.size, ?_⟩
    rw [checkRoot_eq_ok.mpr hroots.transactions.symm, Effect.ok_bind, hroots.evidence,
      Effect.ok_bind, checkRoot_eq_ok.mpr rfl, Effect.ok_bind, hroots.attestations,
      Effect.ok_bind, checkRoot_eq_ok.mpr rfl, Effect.ok_bind, hroots.ceremony, Effect.ok_bind,
      checkRoot_eq_ok.mpr rfl, Effect.ok_bind,
      checkDistinct_eq_ok.mpr ⟨hlimits.distinct, fun _ _ => List.not_mem_nil⟩, Effect.ok_bind,
      forM_check_eq_ok.mpr hlimits.data, Effect.ok_bind]
    exact forM_check_eq_ok.mpr hlimits.fee

/-! ## Headers -/

theorem checkHeader_eq_ok {header : BlockHeader} {expectedHeight : BlockHeight} {parentHash : Hash}
    {parentTimestamp expectedDifficulty nowSecs : UInt64} :
    checkHeader header expectedHeight parentHash parentTimestamp expectedDifficulty nowSecs =
        .ok () ↔
      header.version = blockVersion ∧ header.height = expectedHeight ∧
        header.previousHash = parentHash ∧
        (expectedHeight > 0 →
          saturatingAdd parentTimestamp minimumBlockTimestampDeltaSecs ≤ header.timestamp) ∧
        header.timestamp ≤ saturatingAdd nowSecs maxFutureBlockTimeSecs ∧
        header.difficulty = expectedDifficulty := by
  unfold checkHeader
  dsimp only
  rw [check_bind_eq_ok, check_bind_eq_ok, check_bind_eq_ok, check_bind_eq_ok, check_bind_eq_ok,
    check_eq_ok]

/-- A block passes when its header, its body and, after genesis, its proof do. -/
theorem validateBlock_eq_ok {block : Block} {expectedHeight : BlockHeight} {parentHash : Hash}
    {parentTimestamp expectedDifficulty nowSecs : UInt64} :
    validateBlock P block expectedHeight parentHash parentTimestamp expectedDifficulty nowSecs =
        .ok () ↔
      checkHeader block.header expectedHeight parentHash parentTimestamp expectedDifficulty
          nowSecs = .ok () ∧
        (block.WithinLimits ∧ block.RootsMatch P) ∧
        (expectedHeight > 0 → checkProof P block.header = .ok ()) := by
  have hproof : (if expectedHeight > 0 then checkProof P block.header else .ok ()) = .ok () ↔
      (expectedHeight > 0 → checkProof P block.header = .ok ()) := by
    by_cases hpos : expectedHeight > 0
    · simp [hpos]
    · simp [hpos]
  unfold validateBlock
  rw [bind_eq_ok]
  constructor
  · rintro ⟨⟨⟩, hheader, hrest⟩
    obtain ⟨⟨⟩, hbody, hrest⟩ := bind_eq_ok.mp hrest
    exact ⟨hheader, checkBody_eq_ok.mp hbody, hproof.mp hrest⟩
  · intro h
    refine ⟨(), h.1, ?_⟩
    rw [checkBody_eq_ok.mpr h.2.1, Effect.ok_bind]
    exact hproof.mpr h.2.2

/-! ## Roots -/

/-- What `setBodyRoots` leaves: the body as it was, under a header that carries its roots. -/
theorem setBodyRoots_eq_ok {block block' : Block} (h : setBodyRoots P block = .ok block') :
    block'.RootsMatch P ∧ block' = { block with header := { block.header with
      transactionRoot := block'.header.transactionRoot
      evidenceRoot := block'.header.evidenceRoot
      attestationRoot := block'.header.attestationRoot
      genesisCeremonyHash := block'.header.genesisCeremonyHash } } := by
  unfold setBodyRoots at h
  obtain ⟨evidenceRoot, hevidence, h⟩ := bind_eq_ok.mp h
  obtain ⟨attestationRoot, hattestation, h⟩ := bind_eq_ok.mp h
  obtain ⟨ceremonyHash, hceremony, h⟩ := bind_eq_ok.mp h
  cases h
  exact ⟨⟨rfl, hevidence, hattestation, hceremony⟩, rfl⟩

/-! ## Sizes -/

theorem length_encode_uint64 (x : UInt64) : (Borsh.encode x).length = 8 := Codec.length_leBytes _ _

theorem length_encode_uint32 (x : UInt32) : (Borsh.encode x).length = 4 := Codec.length_leBytes _ _

theorem length_encode_fixed {n : ℕ} (x : FixedBytes n) : (Borsh.encode x).length = n :=
  x.length_bytes

theorem length_encode_pair {α β : Type} [Borsh α] [Borsh β] (p : α × β) :
    (Borsh.encode p).length = (Borsh.encode p.1).length + (Borsh.encode p.2).length :=
  List.length_append

/-- Proof fields of at most 100 bytes, the rest of the header and the empty parts of the body
take up at most 450 bytes. -/
theorem blockSize_le_of_proofs {header : BlockHeader} {txs : List Transaction}
    {attestations : List BlockAttestation} (hext : header.extensionRoot = none)
    (hproofs : (Borsh.encode header.powProof).length +
      (Borsh.encode header.refinerSignature).length ≤ 100)
    (hpow : Borsh.fits header.powProof = true)
    (hsignature : Borsh.fits header.refinerSignature = true)
    (htxs : Borsh.fits txs = true) (hattestations : Borsh.fits attestations = true) :
    blockSize ⟨header, txs, [], attestations, none⟩ ≤
      450 + (Borsh.encode txs).length + (Borsh.encode attestations).length := by
  have hheader : (Borsh.encode header).length ≤ 400 := by
    change (Borsh.encode (header.version, header.height, header.previousHash, header.stateRoot,
      header.transactionRoot, header.evidenceRoot, header.attestationRoot,
      header.genesisCeremonyHash, header.timestamp, header.difficulty, header.suggestedFee,
      header.extensionRoot, header.producer, header.powProof, header.refinerSignature)).length ≤ 400
    rw [hext]
    simp only [length_encode_pair, length_encode_uint64, length_encode_uint32, length_encode_fixed]
    change 4 + (8 + (32 + (32 + (32 + (32 + (32 + (32 + (8 + (8 + (8 + (1 +
      ((Borsh.encode header.producer.hash).length + ((Borsh.encode header.powProof).length +
        (Borsh.encode header.refinerSignature).length))))))))))))) ≤ 400
    rw [length_encode_fixed]
    omega
  have hfits : Borsh.fits (Block.mk header txs [] attestations none) = true := by
    change (Borsh.fits header && (Borsh.fits txs && (true && (Borsh.fits attestations && true)))) =
      true
    rw [htxs, hattestations]
    change (Borsh.fits header.extensionRoot && (true && (Borsh.fits header.powProof &&
      Borsh.fits header.refinerSignature)) && true) = true
    rw [hext, hpow, hsignature]
    rfl
  unfold blockSize Borsh.toVec
  rw [if_pos hfits]
  change (Borsh.encode (header, txs, ([] : List DoubleSignEvidence), attestations,
    (none : Option GenesisCeremonyData))).length ≤ _
  simp only [length_encode_pair]
  change (Borsh.encode header).length + ((Borsh.encode txs).length + (4 +
    ((Borsh.encode attestations).length + 1))) ≤ _
  omega

/-- The encoding of a vector of bytes adds its length in four bytes. -/
theorem length_encode_bytes (bytes : List UInt8) :
    (Borsh.encode bytes).length = 4 + bytes.length := by
  change (leBytes 4 bytes.length ++ bytes.flatMap fun b => [b]).length = _
  rw [List.flatMap_singleton', List.length_append, Codec.length_leBytes]

theorem fits_bytes {bytes : List UInt8} (h : bytes.length < 2 ^ 32) :
    Borsh.fits bytes = true := Borsh.fits_list.mpr ⟨h, fun _ _ => rfl⟩

/-- The size of a transaction: 101 bytes besides its action and its vectors. -/
theorem length_encode_transaction (tx : Transaction) :
    (Borsh.encode tx).length = 101 + (Borsh.encode tx.action).length + tx.signature.length +
      tx.data.length + tx.publicKey.length := by
  change (Borsh.encode (tx.txId.hash, tx.sender.hash, tx.action, tx.fee, tx.signature,
    tx.signatureType, tx.nonce, tx.chainId, tx.data, tx.publicKey)).length = _
  simp only [length_encode_pair, length_encode_uint64, length_encode_bytes, length_encode_fixed]
  change 32 + (32 + ((Borsh.encode tx.action).length + (8 + (4 + tx.signature.length +
    (1 + (8 + (8 + (4 + tx.data.length + (4 + tx.publicKey.length))))))))) = _
  omega

theorem fits_transaction {tx : Transaction} (hsignature : tx.signature.length < 2 ^ 32)
    (hdata : tx.data.length < 2 ^ 32) (hkey : tx.publicKey.length < 2 ^ 32) :
    Borsh.fits tx = true := by
  change (Borsh.fits tx.action && (true && (Borsh.fits tx.signature && (true && (true && (true &&
    (Borsh.fits tx.data && Borsh.fits tx.publicKey))))))) = true
  rw [fits_bytes hsignature, fits_bytes hdata, fits_bytes hkey]
  rfl

/-- The encoding of a proof field adds five bytes to it. -/
theorem length_encode_some_bytes (bytes : List UInt8) :
    (Borsh.encode (some bytes)).length = 5 + bytes.length := by
  change (Borsh.encode bytes).length + 1 = _
  rw [length_encode_bytes]
  omega

theorem fits_some_bytes {bytes : List UInt8} (h : bytes.length < 2 ^ 32) :
    Borsh.fits (some bytes) = true := fits_bytes h

/-- What the header of a mined block and the empty parts of its body take up is at most 500
bytes. -/
theorem blockSize_le {header : BlockHeader} {proof : List UInt8} {txs : List Transaction}
    (hext : header.extensionRoot = none) (hsignature : header.refinerSignature = none)
    (hproof : header.powProof = some proof) (hlength : proof.length = 8)
    (htxs : Borsh.fits txs = true) :
    blockSize ⟨header, txs, [], [], none⟩ ≤ 500 + (Borsh.encode txs).length := by
  have hproofs : (Borsh.encode header.powProof).length +
      (Borsh.encode header.refinerSignature).length ≤ 100 := by
    rw [hproof, hsignature, length_encode_some_bytes, hlength]
    decide
  have hle : blockSize ⟨header, txs, [], [], none⟩ ≤
      450 + (Borsh.encode txs).length + (Borsh.encode ([] : List BlockAttestation)).length :=
    blockSize_le_of_proofs hext hproofs (by rw [hproof]; exact fits_some_bytes (by omega))
      (by rw [hsignature]; rfl) htxs rfl
  have hnil : (Borsh.encode ([] : List BlockAttestation)).length = 4 := rfl
  omega

end Opolys
