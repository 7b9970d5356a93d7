import Opolys.Consensus.Custody
import Opolys.Node.Produce

/-!
# Soundness of slashing

A refiner loses its stake to evidence that it signed two blocks of one height. What it
signs is the hash of a block, and neither the signed bytes nor the check of the evidence
mention a height. So the evidence shows that two different blocks were signed, and the
height on it is a claim that nothing backs.

* `Signer` : the messages the holder of a key has signed, when no published signature is forged.
* `verifySlashEvidence_sound`, `verifySlashEvidence_complete` : evidence that is made of published
  signatures passes exactly for two different blocks its key has signed.
* `slashing_sound_iff` : an honest refiner is safe exactly as long as it has signed a
  single block, and in a run where genuine evidence names the height of its blocks, only
  refiners that signed two blocks of that height are slashed.
-/

namespace Opolys

open Codec (FixedBytes Borsh)
open Effect (Ends ofExcept)

variable {P : Primitives}

/-! ## Signers -/

/-- What the holder of a public key has signed, where `published` are the messages and signatures
that have come to light. -/
structure Signer (P : Primitives) (published : List UInt8 → FixedBytes 64 → Prop)
    (publicKey : FixedBytes 32) where
  /-- Block headers, each with its published signature. -/
  blocks : List (BlockHeader × FixedBytes 64)
  /-- Attested heights and hashes. -/
  attestations : List (BlockHeight × Hash)
  /-- Contents of transactions. -/
  transactions : List (ObjectId × TransactionAction × UInt64 × UInt64 × UInt64)
  /-- The signatures of blocks are signatures. -/
  verify_blocks : ∀ b ∈ blocks,
    P.verify publicKey (refinerBlockSigningPayload (computeBlockHash P b.1)) b.2 = true
  published_blocks : ∀ b ∈ blocks,
    published (refinerBlockSigningPayload (computeBlockHash P b.1)) b.2
  /-- Nobody else has made any of the published signatures. -/
  unforgeable : ∀ message signature, published message signature →
    P.verify publicKey message signature = true →
    (∃ b ∈ blocks, message = refinerBlockSigningPayload (computeBlockHash P b.1)) ∨
      (∃ a ∈ attestations, message = blockAttestationSigningPayload a.1 a.2) ∨
        ∃ content ∈ transactions, message = domainTxSignature ++ Borsh.encode content

/-- Both signatures of the evidence are published ones. -/
def DoubleSignEvidence.MadeOf (published : List UInt8 → FixedBytes 64 → Prop)
    (evidence : DoubleSignEvidence) : Prop :=
  ∀ signature : FixedBytes 64,
    (signature.bytes = evidence.signatureA →
        published (refinerBlockSigningPayload evidence.hashA) signature) ∧
      (signature.bytes = evidence.signatureB →
        published (refinerBlockSigningPayload evidence.hashB) signature)

/-- The messages and signatures of a list of signed blocks. -/
def PublishedIn (P : Primitives) (blocks : List (BlockHeader × FixedBytes 64))
    (message : List UInt8) (signature : FixedBytes 64) : Prop :=
  ∃ b ∈ blocks, message = refinerBlockSigningPayload (computeBlockHash P b.1) ∧ signature = b.2

/-- Where nothing but blocks is published, the holder of a key is who has signed those that verify
under it. -/
def Signer.ofBlocks (P : Primitives) (blocks : List (BlockHeader × FixedBytes 64))
    (publicKey : FixedBytes 32) : Signer P (PublishedIn P blocks) publicKey where
  blocks := blocks.filter fun b =>
    P.verify publicKey (refinerBlockSigningPayload (computeBlockHash P b.1)) b.2
  attestations := []
  transactions := []
  verify_blocks b hb := (List.mem_filter.mp hb).2
  published_blocks b hb := ⟨b, List.mem_of_mem_filter hb, rfl, rfl⟩
  unforgeable message signature hpublished hverify := by
    obtain ⟨b, hb, rfl, rfl⟩ := hpublished
    exact Or.inl ⟨b, List.mem_filter.mpr ⟨hb, hverify⟩, rfl⟩

variable {published : List UInt8 → FixedBytes 64 → Prop}

namespace Signer

variable {publicKey : FixedBytes 32}

/-- An honest refiner signs at most one block of a height. -/
def OnePerHeight (signer : Signer P published publicKey) : Prop :=
  ∀ b ∈ signer.blocks, ∀ c ∈ signer.blocks, b.1.height = c.1.height →
    computeBlockHash P b.1 = computeBlockHash P c.1

/-- All signed blocks are the same block. -/
def SingleBlock (signer : Signer P published publicKey) : Prop :=
  ∀ b ∈ signer.blocks, ∀ c ∈ signer.blocks, computeBlockHash P b.1 = computeBlockHash P c.1

/-- Two different blocks of a height were signed. -/
def SignedTwoAt (signer : Signer P published publicKey) (height : BlockHeight) : Prop :=
  ∃ b ∈ signer.blocks, ∃ c ∈ signer.blocks, b.1.height = height ∧ c.1.height = height ∧
    computeBlockHash P b.1 ≠ computeBlockHash P c.1

/-- The signed blocks whose hashes are on the evidence are of the height it names. -/
def HeightsOf (signer : Signer P published publicKey) (evidence : DoubleSignEvidence) : Prop :=
  ∀ b ∈ signer.blocks, computeBlockHash P b.1 = evidence.hashA ∨
    computeBlockHash P b.1 = evidence.hashB → b.1.height = evidence.height

end Signer

/-! ## Evidence -/

theorem refinerBlock_ne_attestation (blockHash : Hash) (height : BlockHeight) (hash : Hash) :
    refinerBlockSigningPayload blockHash ≠ blockAttestationSigningPayload height hash :=
  Codec.append_ne_of_take_ne (n := 5) (by decide +kernel) (by decide +kernel) (by decide +kernel)

theorem refinerBlock_ne_transaction (blockHash : Hash) (content : List UInt8) :
    refinerBlockSigningPayload blockHash ≠ domainTxSignature ++ content :=
  Codec.append_ne_of_take_ne (n := 5) (by decide +kernel) (by decide +kernel) (by decide +kernel)

/-- A published signature of a block hash comes from a signed block, because the domains of the
other messages differ. -/
theorem Signer.exists_block {publicKey : FixedBytes 32} (signer : Signer P published publicKey)
    {blockHash : Hash} {signature : List UInt8}
    (hpublished : ∀ sig : FixedBytes 64, sig.bytes = signature →
      published (refinerBlockSigningPayload blockHash) sig)
    (h : verifyEd25519 P publicKey.bytes (refinerBlockSigningPayload blockHash) signature = true) :
    ∃ b ∈ signer.blocks, computeBlockHash P b.1 = blockHash := by
  obtain ⟨pk, sig, hpk, hsig, -, hver⟩ := verifyEd25519_eq_true.mp h
  obtain rfl := FixedBytes.bytes_injective hpk
  rcases signer.unforgeable _ _ (hpublished sig hsig) hver with ⟨b, hb, he⟩ | ⟨a, -, he⟩
    | ⟨content, -, he⟩
  · exact ⟨b, hb, (refinerBlockSigningPayload_injective he).symm⟩
  · exact absurd he (refinerBlock_ne_attestation _ _ _)
  · exact absurd he (refinerBlock_ne_transaction _ _)

/-- What evidence that passes consists of. -/
theorem verifySlashEvidence_eq_true {evidence : DoubleSignEvidence} :
    verifySlashEvidence P evidence = true ↔ evidence.hashA ≠ evidence.hashB ∧
      ∃ publicKey : FixedBytes 32, evidence.producerPubkey = publicKey.bytes ∧
        ed25519PublicKeyToObjectId P publicKey = evidence.producer ∧
        verifyEd25519 P publicKey.bytes (refinerBlockSigningPayload evidence.hashA)
          evidence.signatureA = true ∧
        verifyEd25519 P publicKey.bytes (refinerBlockSigningPayload evidence.hashB)
          evidence.signatureB = true := by
  constructor
  · intro h
    unfold verifySlashEvidence at h
    split at h
    · cases h
    · rename_i hne
      split at h
      · cases h
      · rename_i pk hpk
        split at h
        · cases h
        · rename_i hid
          rw [Bool.and_eq_true, ← FixedBytes.bytes_of_ofList? hpk] at h
          exact ⟨hne, pk, (FixedBytes.bytes_of_ofList? hpk).symm, not_not.mp hid, h.1, h.2⟩
  · rintro ⟨hne, pk, hpk, hid, hA, hB⟩
    unfold verifySlashEvidence
    rw [if_neg hne, hpk, FixedBytes.ofList?_bytes]
    dsimp only
    rw [if_neg (not_not.mpr hid), hA, hB]
    rfl

/-- Evidence that is made of published signatures and passes holds the hashes of two different
blocks its key has signed. -/
theorem verifySlashEvidence_sound {publicKey : FixedBytes 32}
    (signer : Signer P published publicKey)
    {evidence : DoubleSignEvidence} (hkey : evidence.producerPubkey = publicKey.bytes)
    (hmade : evidence.MadeOf published) (h : verifySlashEvidence P evidence = true) :
    ∃ b ∈ signer.blocks, ∃ c ∈ signer.blocks, computeBlockHash P b.1 = evidence.hashA ∧
      computeBlockHash P c.1 = evidence.hashB ∧ evidence.hashA ≠ evidence.hashB := by
  obtain ⟨hne, pk, hpk, -, hA, hB⟩ := verifySlashEvidence_eq_true.mp h
  obtain rfl := FixedBytes.bytes_injective (hkey.symm.trans hpk)
  obtain ⟨b, hb, hbA⟩ := signer.exists_block (fun sig hsig => (hmade sig).1 hsig) hA
  obtain ⟨c, hc, hcB⟩ := signer.exists_block (fun sig hsig => (hmade sig).2 hsig) hB
  exact ⟨b, hb, c, hc, hbA, hcB, hne⟩

/-- The evidence that two published signatures make, under any height. -/
def evidenceFrom (P : Primitives) (publicKey : FixedBytes 32) (height : BlockHeight)
    (b c : BlockHeader × FixedBytes 64) : DoubleSignEvidence where
  producer := ed25519PublicKeyToObjectId P publicKey
  producerPubkey := publicKey.bytes
  height
  hashA := computeBlockHash P b.1
  signatureA := b.2.bytes
  hashB := computeBlockHash P c.1
  signatureB := c.2.bytes

/-- Any two different signed blocks make evidence that passes. -/
theorem verifySlashEvidence_complete {publicKey : FixedBytes 32}
    (signer : Signer P published publicKey)
    (hok : P.verifyingKeyOk publicKey = true) {b c : BlockHeader × FixedBytes 64}
    (hb : b ∈ signer.blocks) (hc : c ∈ signer.blocks)
    (hne : computeBlockHash P b.1 ≠ computeBlockHash P c.1) (height : BlockHeight) :
    verifySlashEvidence P (evidenceFrom P publicKey height b c) = true :=
  verifySlashEvidence_eq_true.mpr ⟨hne, publicKey, rfl, rfl,
    verifyEd25519_eq_true.mpr ⟨publicKey, b.2, rfl, rfl, hok, signer.verify_blocks b hb⟩,
    verifyEd25519_eq_true.mpr ⟨publicKey, c.2, rfl, rfl, hok, signer.verify_blocks c hc⟩⟩

theorem madeOf_evidenceFrom {publicKey : FixedBytes 32} (signer : Signer P published publicKey)
    {b c : BlockHeader × FixedBytes 64} (hb : b ∈ signer.blocks) (hc : c ∈ signer.blocks)
    (height : BlockHeight) : (evidenceFrom P publicKey height b c).MadeOf published := by
  refine fun signature => ⟨fun hsig => ?_, fun hsig => ?_⟩
  · obtain rfl := FixedBytes.bytes_injective hsig
    exact signer.published_blocks b hb
  · obtain rfl := FixedBytes.bytes_injective hsig
    exact signer.published_blocks c hc

/-- No evidence against a key can be made that passes exactly when it has signed a single block. -/
theorem no_evidence_iff {publicKey : FixedBytes 32} (signer : Signer P published publicKey)
    (hok : P.verifyingKeyOk publicKey = true) :
    (∀ evidence : DoubleSignEvidence, evidence.producerPubkey = publicKey.bytes →
      evidence.MadeOf published → verifySlashEvidence P evidence = false) ↔
        signer.SingleBlock := by
  constructor
  · intro hnone b hb c hc
    by_contra hne
    have htrue := verifySlashEvidence_complete signer hok hb hc hne 0
    rw [hnone _ rfl (madeOf_evidenceFrom signer hb hc 0)] at htrue
    cases htrue
  · intro hsingle evidence hkey hmade
    by_contra htrue
    rw [Bool.not_eq_false] at htrue
    obtain ⟨b, hb, c, hc, hA, hB, hne⟩ := verifySlashEvidence_sound signer hkey hmade htrue
    exact hne (hA.symm.trans ((hsingle b hb c hc).trans hB))

/-! ## Acting on evidence -/

/-- Evidence that is genuine and not yet used slashes its producer, other evidence does
nothing. -/
theorem slashStep_eq (slashing : Slashing) (evidence : DoubleSignEvidence) :
    slashStep P slashing evidence =
      if (evidence.producer, evidence.height) ∉ slashing.processed ∧
        verifySlashEvidence P evidence = true then
        let burned := slashing.refiners.slashAmount evidence.producer
        { refiners := slashing.refiners.afterSlash evidence.producer
          totalBurned := MachineInt.saturatingAdd slashing.totalBurned burned
          slashedBurned := MachineInt.saturatingAdd slashing.slashedBurned burned
          processed := (evidence.producer, evidence.height) :: slashing.processed }
      else slashing := by
  unfold slashStep
  dsimp only
  by_cases hseen : (evidence.producer, evidence.height) ∈ slashing.processed
  · rw [if_pos hseen, if_neg (fun h => h.1 hseen)]
  · rw [if_neg hseen]
    by_cases hver : verifySlashEvidence P evidence = true
    · rw [if_pos hver, if_pos ⟨hseen, hver⟩]
      have hends := RefinerSet.slashRefiner_ends evidence.producer slashing.refiners
      cases hs : RefinerSet.slashRefiner evidence.producer slashing.refiners with
      | ok burned refiners =>
        obtain ⟨rfl, rfl⟩ := hends.ok hs
        rfl
      | error message refiners =>
        obtain ⟨hzero, rfl⟩ := hends.error hs
        rw [hzero, MachineInt.saturatingAdd_zero, MachineInt.saturatingAdd_zero]
    · rw [if_neg hver, if_neg (fun h => hver h.2)]

/-- What a refiner holds changes only by genuine evidence against it. -/
theorem holding_foldl_slashStep {evidence : List DoubleSignEvidence} {slashing : Slashing}
    {id : ObjectId} (h : (evidence.foldl (slashStep P) slashing).refiners.holding id ≠
      slashing.refiners.holding id) :
    ∃ e ∈ evidence, e.producer = id ∧ verifySlashEvidence P e = true := by
  induction evidence generalizing slashing with
  | nil => exact absurd rfl h
  | cons e es ih =>
    rw [List.foldl_cons] at h
    by_cases hstep : (slashStep P slashing e).refiners.holding id = slashing.refiners.holding id
    · rw [← hstep] at h
      obtain ⟨e', hmem, he'⟩ := ih h
      exact ⟨e', List.mem_cons_of_mem _ hmem, he'⟩
    · rw [slashStep_eq] at hstep
      split at hstep
      · rename_i hact
        refine ⟨e, List.mem_cons_self, ?_, hact.2⟩
        by_contra hne
        exact hstep (RefinerSet.holding_afterSlash hne)
      · exact absurd rfl hstep

/-! ## Runs -/

/-- The refiners when a call begins to act on its evidence, if it gets there. -/
def refinersAtEvidence (P : Primitives) (node : OpolysNode) (call : Call) : Option RefinerSet :=
  match checkBlock P call.env call.block node with
  | .error _ => none
  | .ok kind =>
    match processAttestations P call.block node with
    | .error _ _ => none
    | .ok _ node =>
      match checkProducer P kind call.block.header node with
      | .error _ => none
      | .ok _ => some node.refiners

/-- The refiners after the evidence of a block has been acted on. -/
def refinersAfterEvidence (P : Primitives) (block : Block) (refiners : RefinerSet)
    (totalBurned : FlakeAmount) : RefinerSet :=
  (block.slashEvidence.foldl (slashStep P)
    { refiners, totalBurned, slashedBurned := 0, processed := [] }).refiners

/-- When the evidence of a call takes from what a refiner holds, then a key of this refiner
has signed two blocks of the height that the evidence names. -/
def SlashesTheGuilty (signers : ∀ publicKey, Signer P published publicKey) (node : OpolysNode)
    (call : Call) : Prop :=
  ∀ refiners totalBurned id, refinersAtEvidence P node call = some refiners →
    (refinersAfterEvidence P call.block refiners totalBurned).holding id ≠ refiners.holding id →
    ∃ evidence ∈ call.block.slashEvidence, evidence.producer = id ∧
      ∃ publicKey, evidence.producerPubkey = publicKey.bytes ∧
        ed25519PublicKeyToObjectId P publicKey = id ∧
        (signers publicKey).SignedTwoAt evidence.height

/-- The genuine evidence of a call names the height of the blocks whose hashes it holds. -/
def NamesItsHeight (signers : ∀ publicKey, Signer P published publicKey) (_ : OpolysNode)
    (call : Call) : Prop :=
  ∀ evidence ∈ call.block.slashEvidence, verifySlashEvidence P evidence = true →
    ∀ publicKey, evidence.producerPubkey = publicKey.bytes → (signers publicKey).HeightsOf evidence

theorem slashesTheGuilty_of_namesItsHeight {signers : ∀ publicKey, Signer P published publicKey}
    {node : OpolysNode} {call : Call}
    (hmade : ∀ evidence ∈ call.block.slashEvidence, evidence.MadeOf published)
    (h : NamesItsHeight signers node call) : SlashesTheGuilty signers node call := by
  intro refiners totalBurned id _ hburn
  obtain ⟨e, hmem, hid, hver⟩ := holding_foldl_slashStep hburn
  obtain ⟨-, pk, hpk, hpkid, -⟩ := verifySlashEvidence_eq_true.mp hver
  obtain ⟨b, hb, c, hc, hA, hB, hne⟩ :=
    verifySlashEvidence_sound (signers pk) hpk (hmade e hmem) hver
  have hheights := h e hmem hver pk hpk
  refine ⟨e, hmem, hid, pk, hpk, hpkid.trans hid, b, hb, c, hc, hheights b hb (Or.inl hA),
    hheights c hc (Or.inr hB), ?_⟩
  rw [hA, hB]
  exact hne

/-- An honest refiner is safe from all evidence that published signatures make exactly as long as
all blocks it has signed are one block. In a run where genuine evidence names the height of its two
blocks, only refiners that signed two blocks of that height are slashed. -/
theorem slashing_sound_iff (signers : ∀ publicKey, Signer P published publicKey) :
    (∀ publicKey, P.verifyingKeyOk publicKey = true → (signers publicKey).OnePerHeight →
      ((∀ evidence : DoubleSignEvidence, evidence.producerPubkey = publicKey.bytes →
        evidence.MadeOf published → verifySlashEvidence P evidence = false) ↔
          (signers publicKey).SingleBlock)) ∧
    ∀ node calls,
      (∀ call ∈ calls, ∀ evidence ∈ call.block.slashEvidence, evidence.MadeOf published) →
      Transition.EveryStep (OpolysNode.step P) (NamesItsHeight signers) node calls →
      Transition.EveryStep (OpolysNode.step P) (SlashesTheGuilty signers) node calls := by
  refine ⟨fun publicKey hok _ => no_evidence_iff (signers publicKey) hok,
    fun node calls hmade hnames => ?_⟩
  rw [Transition.everyStep_iff] at hnames ⊢
  intro before call after hcalls
  have hcall : call ∈ calls := by
    rw [hcalls]
    exact List.mem_append_right _ List.mem_cons_self
  exact slashesTheGuilty_of_namesItsHeight (hmade call hcall) (hnames before call after hcalls)

/-! ## An honest refiner that is slashed -/

namespace Innocent

/-- The public key of an honest refiner. -/
def publicKey : FixedBytes 32 := FixedBytes.fill 32 7

/-- The block it signs at a height. -/
def header (height : BlockHeight) : BlockHeader :=
  { Reference.minedHeader (ed25519PublicKeyToObjectId Reference.primitives publicKey) [] with
    height, powProof := none }

/-- The bytes it signs for the block of a height. -/
def payload (height : BlockHeight) : List UInt8 :=
  refinerBlockSigningPayload (computeBlockHash Reference.primitives (header height))

/-- The block of a height with its signature. -/
def signedBlock (height : BlockHeight) : BlockHeader × FixedBytes 64 :=
  (header height, Reference.signature publicKey (payload height))

/-- It has signed a block at height 1 and a block at height 2, and nothing else is published. -/
def signer (pk : FixedBytes 32) :
    Signer Reference.primitives (PublishedIn Reference.primitives [signedBlock 1, signedBlock 2])
      pk :=
  Signer.ofBlocks Reference.primitives [signedBlock 1, signedBlock 2] pk

theorem blocks_signer : (signer publicKey).blocks = [signedBlock 1, signedBlock 2] :=
  List.filter_eq_self.mpr (by decide +kernel)

theorem onePerHeight : (signer publicKey).OnePerHeight := by
  intro b hb c hc he
  rw [blocks_signer] at hb hc
  simp only [List.mem_cons, List.not_mem_nil, or_false] at hb hc
  rcases hb with rfl | rfl <;> rcases hc with rfl | rfl
  · rfl
  · exact absurd he (by decide)
  · exact absurd he (by decide)
  · rfl

/-- The evidence anyone can make of its two signatures. -/
def evidence : DoubleSignEvidence :=
  evidenceFrom Reference.primitives publicKey 1 (signedBlock 1) (signedBlock 2)

/-- A set in which it is active with a stake of five OPL. -/
def refiners : RefinerSet :=
  RefinerSet.loadFromRefiners
    [{ RefinerInfo.new evidence.producer 5000000 1 90 with status := .active }] []

/-- The evidence passes, and the whole stake is burned, although no height was signed
twice. -/
theorem slashed :
    (signer publicKey).OnePerHeight ∧ verifySlashEvidence Reference.primitives evidence = true ∧
      refiners.slashAmount evidence.producer = 5000000 ∧
      (slashStep Reference.primitives ⟨refiners, 0, 0, []⟩ evidence).slashedBurned = 5000000 ∧
      ¬∀ (P : Primitives) (published : List UInt8 → FixedBytes 64 → Prop) (pk : FixedBytes 32)
        (signer : Signer P published pk), P.verifyingKeyOk pk = true → signer.OnePerHeight →
          ∀ evidence : DoubleSignEvidence, evidence.producerPubkey = pk.bytes →
            evidence.MadeOf published → verifySlashEvidence P evidence = false := by
  have hpass : verifySlashEvidence Reference.primitives evidence = true := by decide +kernel
  have hmade : evidence.MadeOf (PublishedIn Reference.primitives [signedBlock 1, signedBlock 2]) :=
    madeOf_evidenceFrom (signer publicKey) (by rw [blocks_signer]; exact List.mem_cons_self)
      (by rw [blocks_signer]; exact List.mem_cons_of_mem _ List.mem_cons_self) 1
  refine ⟨onePerHeight, hpass, by decide +kernel, by decide +kernel, fun hall => ?_⟩
  have hfail := hall Reference.primitives _ publicKey (signer publicKey) rfl onePerHeight evidence
    rfl hmade
  rw [hpass] at hfail
  cases hfail

end Innocent

/-! ## A guilty refiner that is slashed -/

namespace Reference

/-- A node whose owner has money. -/
def staker : OpolysNode := start (config [(1, 1000000000)]) (some 1)

/-- The bond, and the withdrawal of a part of it. -/
def stakeTransactions : List Transaction :=
  signed 1 (.refinerBond 32000000) 10 0 ++ signed 1 (.refinerUnbond 1000000) 10 1

/-- The first block holds both. -/
def stakeCall : Call := call (mine staker 0 { transactions := stakeTransactions })

/-- The node after its bond. -/
def staked : OpolysNode := staker.step primitives stakeCall

/-- A block of height 1 that it signs. -/
def doubleBlock (timestamp : UInt64) : BlockHeader × FixedBytes 64 :=
  let header := { minedHeader (account 1) [] with timestamp, powProof := none }
  (header, primitives.sign (seed 1)
    (refinerBlockSigningPayload (computeBlockHash primitives header)))

/-- The two blocks of height 1 that it signs. -/
def doubleBlocks : List (BlockHeader × FixedBytes 64) := [doubleBlock 90, doubleBlock 91]

/-- The evidence that they make. -/
def doubleSign : DoubleSignEvidence :=
  evidenceFrom primitives (publicKey 1) 1 (doubleBlock 90) (doubleBlock 91)

/-- The next block brings the evidence. -/
def slashCall : Call := call (mine staked 0 { slashEvidence := [doubleSign] })

/-- Both blocks are accepted, and the second takes what the refiner has bonded and queued. -/
theorem slash_computed :
    (staker.accepts primitives stakeCall = true ∧ staked.accepts primitives slashCall = true) ∧
      staked.refiners.slashAmount (account 1) = 32000000 ∧
      queuedAmount staked.refiners.unbondingQueue = 1000000 ∧
      (refinersAtEvidence primitives staked slashCall).isSome = true ∧
      queuedAmount (staked.step primitives slashCall).refiners.unbondingQueue = 0 ∧
      (staked.step primitives slashCall).refiners.slashAmount (account 1) = 0 := by
  decide +kernel

theorem madeOf_doubleSign : doubleSign.MadeOf (PublishedIn primitives doubleBlocks) := by
  refine fun signature => ⟨fun hsig => ?_, fun hsig => ?_⟩
  · exact ⟨doubleBlock 90, List.mem_cons_self, rfl, FixedBytes.bytes_injective hsig⟩
  · exact ⟨doubleBlock 91, List.mem_cons_of_mem _ List.mem_cons_self, rfl,
      FixedBytes.bytes_injective hsig⟩

/-- The evidence names the height of both blocks. -/
theorem heightsOf_doubleSign (publicKey : FixedBytes 32) :
    (Signer.ofBlocks primitives doubleBlocks publicKey).HeightsOf doubleSign := by
  intro b hb _
  have hmem : b ∈ doubleBlocks := (List.mem_filter.mp hb).1
  unfold doubleBlocks at hmem
  simp only [List.mem_cons, List.not_mem_nil, or_false] at hmem
  rcases hmem with rfl | rfl <;> rfl

end Reference

open Reference (staker staked stakeCall slashCall doubleSign doubleBlocks)

/-- Evidence against the innocent refiner can be made, and on a chain where genuine evidence names
its height, the guilty one loses its stake. -/
theorem slashing_sound_of_reference :
    (¬∀ evidence : DoubleSignEvidence, evidence.producerPubkey = Innocent.publicKey.bytes →
        evidence.MadeOf (PublishedIn Reference.primitives
          [Innocent.signedBlock 1, Innocent.signedBlock 2]) →
        verifySlashEvidence Reference.primitives evidence = false) ∧
      Transition.EveryStep (OpolysNode.step Reference.primitives)
        (SlashesTheGuilty (Signer.ofBlocks Reference.primitives doubleBlocks)) staker
        [stakeCall, slashCall] ∧
      (refinersAtEvidence Reference.primitives staked slashCall).isSome = true ∧
      staked.refiners.slashAmount (Reference.account 1) = 32000000 := by
  have hbond : stakeCall.block.slashEvidence = [] := rfl
  have hslash : slashCall.block.slashEvidence = [doubleSign] := rfl
  obtain ⟨-, hstake, -, hreaches, -⟩ := Reference.slash_computed
  refine ⟨?_, ?_, hreaches, hstake⟩
  · rw [(slashing_sound_iff Innocent.signer).1 Innocent.publicKey rfl Innocent.onePerHeight]
    intro hsingle
    have hsame := hsingle (Innocent.signedBlock 1)
      (by rw [Innocent.blocks_signer]; exact List.mem_cons_self) (Innocent.signedBlock 2)
      (by rw [Innocent.blocks_signer]; exact List.mem_cons_of_mem _ List.mem_cons_self)
    exact absurd hsame (by decide +kernel)
  · refine (slashing_sound_iff (Signer.ofBlocks Reference.primitives doubleBlocks)).2 staker
      [stakeCall, slashCall] ?_ ⟨?_, ?_, trivial⟩
    · intro call hcall evidence hevidence
      simp only [List.mem_cons, List.not_mem_nil, or_false] at hcall
      rcases hcall with rfl | rfl
      · rw [hbond] at hevidence
        cases hevidence
      · rw [hslash, List.mem_singleton] at hevidence
        rw [hevidence]
        exact Reference.madeOf_doubleSign
    · intro evidence hevidence
      rw [hbond] at hevidence
      cases hevidence
    · intro evidence hevidence _ publicKey _
      rw [hslash, List.mem_singleton] at hevidence
      rw [hevidence]
      exact Reference.heightsOf_doubleSign publicKey

end Opolys
