import Opolys.Node.ApplyBlock

/-!
# What a node notes of signatures

A node notes the first signature it sees of a producer at a height, and compares a later
one with it. The note is taken, and the comparison made, once the block has passed
validation and the checks of its producer.

* `noted`, `doubleSigned` : the notes after a header, and the evidence it gives.
* `detectDoubleSign_eq` : the detection writes the one and returns the other.
-/

namespace Opolys

open Effect
open Std (ExtTreeMap)

variable (P : Primitives)

/-- The first block hash and signature that a node has seen of a producer at a height. -/
abbrev Signatures := ExtTreeMap (UInt64 × ObjectId) (Hash × List UInt8)

/-- The notes after a header. -/
def noted (signatures : Signatures) (header : BlockHeader) : Signatures :=
  match header.refinerSignature with
  | none => signatures
  | some sigBytes =>
    if header.producer.hash.isZero then signatures
    else
      match signatures[(header.height, header.producer)]? with
      | some _ => signatures
      | none => signatures.insert (header.height, header.producer)
          (computeBlockHash P header, sigBytes)

/-- The node after it has noted the signature of a header. -/
def OpolysNode.note (node : OpolysNode) (header : BlockHeader) : OpolysNode :=
  { node with chain := { node.chain with
      producerSignatures := noted P node.chain.producerSignatures header } }

/-- The evidence that a header gives against its producer. -/
def doubleSigned (accounts : AccountStore) (signatures : Signatures) (header : BlockHeader) :
    List DoubleSignEvidence :=
  match header.refinerSignature with
  | none => []
  | some sigBytes =>
    if header.producer.hash.isZero then []
    else
      match signatures[(header.height, header.producer)]? with
      | none => []
      | some (prevHash, prevSig) =>
        if prevHash = computeBlockHash P header then []
        else [{
          producer := header.producer
          producerPubkey := ((accounts.getAccount header.producer).bind Account.publicKey).getD []
          height := header.height
          hashA := prevHash
          signatureA := prevSig
          hashB := computeBlockHash P header
          signatureB := sigBytes }]

variable {P}

/-- Detection never fails. -/
theorem detectDoubleSign_eq (header : BlockHeader) (node : OpolysNode) :
    detectDoubleSign P header node =
      .ok (doubleSigned P node.accounts node.chain.producerSignatures header)
        (node.note P header) := by
  unfold detectDoubleSign doubleSigned OpolysNode.note noted
  rw [run_get_bind]
  cases header.refinerSignature with
  | none => rfl
  | some sigBytes =>
    dsimp only
    by_cases hzero : header.producer.hash.isZero = true
    · rw [if_pos hzero, if_pos hzero, if_pos hzero]
      rfl
    · rw [if_neg hzero, if_neg hzero, if_neg hzero]
      cases node.chain.producerSignatures[(header.height, header.producer)]? with
      | none => rfl
      | some previous =>
        obtain ⟨prevHash, prevSig⟩ := previous
        dsimp only
        by_cases hsame : prevHash = computeBlockHash P header
        · rw [if_pos hsame, if_neg (not_not.mpr hsame)]
          rfl
        · rw [if_neg hsame, if_pos hsame]
          rfl

/-- Without a signature there is nothing to note. -/
theorem noted_of_unsigned (signatures : Signatures) {header : BlockHeader}
    (h : header.refinerSignature = none) : noted P signatures header = signatures := by
  unfold noted
  rw [h]

theorem doubleSigned_of_unsigned (accounts : AccountStore) (signatures : Signatures)
    {header : BlockHeader} (h : header.refinerSignature = none) :
    doubleSigned P accounts signatures header = [] := by
  unfold doubleSigned
  rw [h]

/-- A header gives evidence against its producer where the node has noted his signature of another
block. -/
theorem mem_doubleSigned {accounts : AccountStore} {signatures : Signatures}
    {header : BlockHeader} {evidence : DoubleSignEvidence} :
    evidence ∈ doubleSigned P accounts signatures header ↔
      header.producer.hash.isZero = false ∧ ∃ hash sig sig',
        signatures[(header.height, header.producer)]? = some (hash, sig) ∧
          header.refinerSignature = some sig' ∧ hash ≠ computeBlockHash P header ∧
          evidence = ⟨header.producer,
            ((accounts.getAccount header.producer).bind Account.publicKey).getD [],
            header.height, hash, sig, computeBlockHash P header, sig'⟩ := by
  unfold doubleSigned
  cases header.refinerSignature with
  | none => simp
  | some sigBytes =>
    cases header.producer.hash.isZero with
    | true => simp
    | false =>
      cases signatures[(header.height, header.producer)]? with
      | none => simp
      | some previous =>
        obtain ⟨prevHash, prevSig⟩ := previous
        simp only [Bool.false_eq_true, if_false, Option.some.injEq, Prod.mk.injEq, true_and]
        by_cases hsame : prevHash = computeBlockHash P header
        · rw [if_pos hsame]
          constructor
          · nofun
          · rintro ⟨hash, sig, sig', ⟨rfl, -⟩, -, hne, -⟩
            exact absurd hsame hne
        · rw [if_neg hsame, List.mem_singleton]
          constructor
          · exact fun h => ⟨prevHash, prevSig, sigBytes, ⟨rfl, rfl⟩, rfl, hsame, h⟩
          · rintro ⟨hash, sig, sig', ⟨rfl, rfl⟩, rfl, -, h⟩
            exact h

/-- A header adds a note about its own height only. -/
theorem mem_noted {signatures : Signatures} {header : BlockHeader} {key : UInt64 × ObjectId}
    (h : key ∈ noted P signatures header) : key ∈ signatures ∨ key.1 = header.height := by
  unfold noted at h
  split at h
  · exact Or.inl h
  · split at h
    · exact Or.inl h
    · split at h
      · exact Or.inl h
      · rw [ExtTreeMap.mem_insert] at h
        rcases h with h | h
        · have hkey := Std.LawfulEqOrd.compare_eq_iff_eq.mp h
          exact Or.inr (congrArg Prod.fst hkey).symm
        · exact Or.inl h

theorem size_noted_le (signatures : Signatures) (header : BlockHeader) :
    (noted P signatures header).size ≤ signatures.size + 1 := by
  unfold noted
  split
  · exact Nat.le_succ _
  · split
    · exact Nat.le_succ _
    · split
      · exact Nat.le_succ _
      · exact ExtTreeMap.size_insert_le

/-- What is noted is old or the signature of the header. -/
theorem getElem?_noted {signatures : Signatures} {header : BlockHeader} {key : UInt64 × ObjectId}
    {hash : Hash} {sig : List UInt8} (h : (noted P signatures header)[key]? = some (hash, sig)) :
    signatures[key]? = some (hash, sig) ∨ header.refinerSignature = some sig := by
  unfold noted at h
  split at h
  · exact Or.inl h
  · rename_i sigBytes hsig
    split at h
    · exact Or.inl h
    · split at h
      · exact Or.inl h
      · rw [FiniteMap.getElem?_insert'] at h
        split at h
        · cases h
          exact Or.inr hsig
        · exact Or.inl h

end Opolys
