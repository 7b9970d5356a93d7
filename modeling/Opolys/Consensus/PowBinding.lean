import Opolys.Consensus.Pow
import Opolys.Crypto.Reference

/-!
# What a proof of work binds

The bytes under the proof of work hold every field of a header except the two proofs and
the producer. So they tell two headers apart exactly when something other than the
producer distinguishes them, and a proof moves with its header to another producer.
-/

namespace Opolys

open Codec (FixedBytes leBytes)

namespace BlockHeader

/-- The header without its production proofs, which is what a proof is meant to bind. -/
def unproved (h : BlockHeader) : BlockHeader :=
  { h with powProof := none, refinerSignature := none }

/-- The header without its production proofs and its producer. -/
def unowned (h : BlockHeader) : BlockHeader := { h.unproved with producer := ObjectId.zero }

theorem unproved_eq_iff {h h' : BlockHeader} :
    h.unproved = h'.unproved ↔ h.producer = h'.producer ∧ h.unowned = h'.unowned := by
  constructor
  · intro he
    have hprod : h.unproved.producer = h'.unproved.producer := by rw [he]
    exact ⟨hprod, by rw [unowned, he]; rfl⟩
  · rintro ⟨hprod, he⟩
    have hback : { h.unowned with producer := h.producer } =
        { h'.unowned with producer := h'.producer } := by rw [he, hprod]
    exact hback

end BlockHeader

/-- The root of the extension, when there is one. -/
def extensionBytes (extensionRoot : Option Hash) : List UInt8 :=
  match extensionRoot with
  | some extRoot => extRoot.bytes
  | none => []

/-- The optional root needs no tag: it is last, and its length shows whether it is there. -/
theorem extensionBytes_injective : Function.Injective extensionBytes := by
  intro a b h
  have hlen := congrArg List.length h
  cases a <;> cases b <;> simp only [extensionBytes, FixedBytes.length_bytes] at h hlen
  case none.none => rfl
  case some.some => rw [FixedBytes.bytes_injective h]
  all_goals exact absurd hlen (by decide)

/-- The bytes under the proof of work hold every field but the producer and the proofs. -/
theorem serializeHeaderForPow_eq_iff {h h' : BlockHeader} :
    serializeHeaderForPow h = serializeHeaderForPow h' ↔ h.unowned = h'.unowned := by
  constructor
  · intro he
    have hlen (a b : Hash) : a.bytes.length = b.bytes.length := by
      rw [a.length_bytes, b.length_bytes]
    unfold serializeHeaderForPow at he
    simp only [List.append_assoc] at he
    obtain ⟨h1, he⟩ := List.append_inj he (by simp)
    obtain ⟨h2, he⟩ := List.append_inj he (by simp)
    obtain ⟨h3, he⟩ := List.append_inj he (hlen _ _)
    obtain ⟨h4, he⟩ := List.append_inj he (hlen _ _)
    obtain ⟨h5, he⟩ := List.append_inj he (hlen _ _)
    obtain ⟨h6, he⟩ := List.append_inj he (hlen _ _)
    obtain ⟨h7, he⟩ := List.append_inj he (hlen _ _)
    obtain ⟨h8, he⟩ := List.append_inj he (hlen _ _)
    obtain ⟨h9, he⟩ := List.append_inj he (by simp)
    obtain ⟨h10, he⟩ := List.append_inj he (by simp)
    obtain ⟨h11, h12⟩ := List.append_inj he (by simp)
    refine BlockHeader.ext (Codec.leBytes_uint32_inj h1) (Codec.leBytes_uint64_inj h2)
      (FixedBytes.bytes_injective h3) (FixedBytes.bytes_injective h4)
      (FixedBytes.bytes_injective h5) (FixedBytes.bytes_injective h6)
      (FixedBytes.bytes_injective h7) (FixedBytes.bytes_injective h8)
      (Codec.leBytes_uint64_inj h9) (Codec.leBytes_uint64_inj h10)
      (Codec.leBytes_uint64_inj h11) (extensionBytes_injective h12) rfl rfl rfl
  · intro he
    change serializeHeaderForPow h.unowned = serializeHeaderForPow h'.unowned
    rw [he]

/-- Whatever the hash function, a header that carries over the proof of `h` is accepted
wherever `h` is. -/
def ProofCarriesOver (h h' : BlockHeader) : Prop :=
  ∀ P difficulty, verifyPowLight P h difficulty = .ok () →
    verifyPowLight P { h' with powProof := h.powProof } difficulty = .ok ()

/-- Primitives whose mining hash is accepted over the bytes `work` and over no others. -/
def acceptOnly (work : List UInt8) : Primitives :=
  let evoOmapHash headerBytes (_ _ : UInt64) (_ : List UInt8) :=
    FixedBytes.fill 32 (if headerBytes = work then 0 else 255)
  { Reference.primitives with evoOmapHash }

theorem verifyPowLight_acceptOnly (work : List UInt8) {h : BlockHeader}
    (hproof : (nonceOfProof h.powProof).isSome = true) :
    verifyPowLight (acceptOnly work) h 1 = .ok () ↔ serializeHeaderForPow h = work := by
  obtain ⟨nonce, hnonce⟩ := Option.isSome_iff_exists.mp hproof
  have hzero : 1 ≤ leadingZeroBits (FixedBytes.fill 32 0).bytes := by decide +kernel
  have hfull : ¬1 ≤ leadingZeroBits (FixedBytes.fill 32 255).bytes := by decide +kernel
  have hhash (n : UInt64) : powHash (acceptOnly work) h n =
      FixedBytes.fill 32 (if serializeHeaderForPow h = work then 0 else 255) := rfl
  rw [verifyPowLight_eq_ok]
  simp only [hhash]
  split
  · rename_i hw
    exact iff_of_true ⟨by decide, nonce, hnonce, hzero⟩ hw
  · rename_i hw
    refine iff_of_false ?_ hw
    rintro ⟨_, _, _, hle⟩
    exact hfull hle

/-- The proof of work binds a header, in that another header has other bytes under the
proof and cannot carry the proof over, exactly when the other header has the same producer
or differs in a further field. -/
theorem proof_binds_header_iff (h h' : BlockHeader) :
    (h.unproved ≠ h'.unproved → serializeHeaderForPow h ≠ serializeHeaderForPow h' ∧
      ((nonceOfProof h.powProof).isSome = true → ¬ProofCarriesOver h h')) ↔
    (h.producer = h'.producer ∨ h.unowned ≠ h'.unowned) := by
  constructor
  · intro hbind
    by_contra hcond
    rw [not_or, not_not] at hcond
    have hne : h.unproved ≠ h'.unproved := fun he =>
      hcond.1 (BlockHeader.unproved_eq_iff.mp he).1
    exact (hbind hne).1 (serializeHeaderForPow_eq_iff.mpr hcond.2)
  · intro hcond hne
    have hun : h.unowned ≠ h'.unowned := by
      rcases hcond with hprod | hun
      · exact fun he => hne (BlockHeader.unproved_eq_iff.mpr ⟨hprod, he⟩)
      · exact hun
    have hser := mt serializeHeaderForPow_eq_iff.mp hun
    refine ⟨hser, fun hproof hcarry => hser ?_⟩
    have hok := (verifyPowLight_acceptOnly (serializeHeaderForPow h) hproof).mpr rfl
    have hproof' : (nonceOfProof { h' with powProof := h.powProof }.powProof).isSome = true :=
      hproof
    exact ((verifyPowLight_acceptOnly _ hproof').mp (hcarry _ _ hok)).symm

/-- A proof is not bound to the producer: whoever sees it can put itself in the place of the
one who found it. -/
theorem proof_does_not_bind_producer :
    let h := Reference.minedHeader ⟨FixedBytes.fill 32 1⟩ (leBytes 8 0)
    let h' := Reference.minedHeader ⟨FixedBytes.fill 32 2⟩ (leBytes 8 0)
    h.unproved ≠ h'.unproved ∧ serializeHeaderForPow h = serializeHeaderForPow h' ∧
      verifyPowLight Reference.primitives h h.difficulty = .ok () ∧
      verifyPowLight Reference.primitives h' h'.difficulty = .ok () ∧
      ¬∀ h h' : BlockHeader, h.unproved ≠ h'.unproved →
        serializeHeaderForPow h ≠ serializeHeaderForPow h' ∧
          ((nonceOfProof h.powProof).isSome = true → ¬ProofCarriesOver h h') := by
  intro h h'
  have hne : h.unproved ≠ h'.unproved := by decide +kernel
  have hok : verifyPowLight Reference.primitives h h.difficulty = .ok () := by decide +kernel
  have hok' : verifyPowLight Reference.primitives h' h'.difficulty = .ok () := by decide +kernel
  exact ⟨hne, rfl, hok, hok', fun hall => (hall h h' hne).1 rfl⟩

end Opolys
