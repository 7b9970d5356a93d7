import Opolys.Consensus.Difficulty
import Opolys.Consensus.Pow
import Opolys.Crypto.Reference

/-!
# The two readings of a proof-of-work hash

The verifier counts the leading zero bits of the 32 bytes of the hash. The gossip
pre-check, `checkProofOfWork` and the vein yield compare a 64-bit word with
`difficultyToTarget`. The word is made of the first eight bytes, least significant first,
so its leading bits are those of the eighth byte and not of the first.

* `le_leadingZeroBits_iff` : leading zero bits are a bound on the big-endian number.
* `powHashValue_le_target_iff` : the word of an accepted hash is at most the target
  exactly when the eight bytes have the zero bits backwards, too.
-/

namespace Opolys

open Codec (FixedBytes leBytes ofLeBytes ofBeBytes ofBeBytes_cons ofBeBytes_lt)

/-! ## Leading zero bits as a bound -/

/-- Zero bits at the front of one byte. -/
def leadingZeroBitsOfByte (b : UInt8) : ℕ := ((bitsOfByte b).takeWhile fun bit => bit = 0).length

theorem leadingZeroBitsOfByte_spec :
    ∀ i < 256, ∀ d ≤ 8, d ≤ leadingZeroBitsOfByte (UInt8.ofNat i) ↔ i < 2 ^ (8 - d) := by
  decide +kernel

/-- A byte starts with `d` zero bits when it is small enough. -/
theorem le_leadingZeroBitsOfByte_iff {b : UInt8} {d : ℕ} (hd : d ≤ 8) :
    d ≤ leadingZeroBitsOfByte b ↔ b.toNat < 2 ^ (8 - d) := by
  have h := leadingZeroBitsOfByte_spec b.toNat b.toNat_lt d hd
  rwa [UInt8.ofNat_toNat] at h

/-- The count goes on to the next byte only over a zero byte. -/
theorem leadingZeroBits_cons (b : UInt8) (bs : List UInt8) :
    leadingZeroBits (b :: bs) =
      if b = 0 then 8 + leadingZeroBits bs else leadingZeroBitsOfByte b := by
  unfold leadingZeroBits leadingZeroBitsOfByte
  rw [List.flatMap_cons, List.takeWhile_append]
  by_cases hb : b = 0
  · subst hb
    rw [if_pos (by decide), if_pos rfl, List.length_append, length_bitsOfByte]
  · have hlt : leadingZeroBitsOfByte b < 8 := by
      by_contra hge
      have h8 := (le_leadingZeroBitsOfByte_iff (b := b) le_rfl).mp (not_lt.mp hge)
      exact hb (UInt8.toNat_inj.mp (by simpa using h8))
    rw [if_neg ?_, if_neg hb]
    rw [length_bitsOfByte]
    exact hlt.ne

/-- A string of bytes starts with `d` zero bits exactly when the number it denotes, most
significant byte first, has that many bits less. -/
theorem le_leadingZeroBits_iff {bs : List UInt8} {d : ℕ} (hd : d ≤ 8 * bs.length) :
    d ≤ leadingZeroBits bs ↔ ofBeBytes bs < 2 ^ (8 * bs.length - d) := by
  induction bs generalizing d with
  | nil =>
    obtain rfl : d = 0 := by simpa using hd
    simp [ofBeBytes, ofLeBytes]
  | cons b bs ih =>
    rw [List.length_cons] at hd ⊢
    rw [leadingZeroBits_cons, ofBeBytes_cons]
    have hrest := ofBeBytes_lt bs
    have hpow : 256 ^ bs.length = 2 ^ (8 * bs.length) := by rw [pow_mul]; rfl
    rw [hpow] at hrest ⊢
    by_cases hb : b = 0
    · subst hb
      rw [if_pos rfl, UInt8.toNat_zero, Nat.zero_mul, Nat.zero_add]
      by_cases hd8 : d ≤ 8
      · have hle : 2 ^ (8 * bs.length) ≤ 2 ^ (8 * (bs.length + 1) - d) :=
          Nat.pow_le_pow_right (by omega) (by omega)
        constructor
        · exact fun _ => hrest.trans_le hle
        · exact fun _ => by omega
      · have h := ih (d := d - 8) (by omega)
        rw [show 8 * (bs.length + 1) - d = 8 * bs.length - (d - 8) by omega, ← h]
        omega
    · have hpos : 1 ≤ b.toNat := by
        by_contra h0
        exact hb (UInt8.toNat_inj.mp (by simpa using h0))
      rw [if_neg hb]
      by_cases hd8 : d ≤ 8
      · rw [le_leadingZeroBitsOfByte_iff hd8,
          show 8 * (bs.length + 1) - d = 8 - d + 8 * bs.length by omega, pow_add]
        constructor
        · intro h
          calc b.toNat * 2 ^ (8 * bs.length) + ofBeBytes bs
              < (b.toNat + 1) * 2 ^ (8 * bs.length) := by rw [Nat.add_mul]; omega
            _ ≤ 2 ^ (8 - d) * 2 ^ (8 * bs.length) := Nat.mul_le_mul_right _ h
        · intro h
          exact Nat.lt_of_mul_lt_mul_right (by omega : b.toNat * 2 ^ (8 * bs.length) < _)
      · -- a byte that is not zero ends the count, and its weight alone exceeds the bound
        have h8 : leadingZeroBitsOfByte b ≤ 8 := by
          rw [← length_bitsOfByte b]
          exact (List.takeWhile_prefix _).length_le
        have hle : 2 ^ (8 * (bs.length + 1) - d) ≤ 2 ^ (8 * bs.length) :=
          Nat.pow_le_pow_right (by omega) (by omega)
        have hmul : 2 ^ (8 * bs.length) ≤ b.toNat * 2 ^ (8 * bs.length) :=
          Nat.le_mul_of_pos_left _ hpos
        constructor
        · exact fun h => absurd h (by omega)
        · exact fun h => absurd h (by omega)

/-! ## The word against the target -/

/-- A word made of eight bytes, least significant first, is at most the target of a
difficulty exactly when the bytes backwards start with that many zero bits. -/
theorem ofLeBytes_le_target_iff {bs : List UInt8} (hlen : bs.length = 8) {difficulty : UInt64}
    (h1 : 1 ≤ difficulty.toNat) (h64 : difficulty.toNat ≤ 64) :
    UInt64.ofNat (ofLeBytes bs) ≤ Emission.difficultyToTarget difficulty ↔
      difficulty.toNat ≤ leadingZeroBits bs.reverse := by
  have hlt := Codec.ofLeBytes_lt bs
  rw [hlen] at hlt
  have hpos : 0 < 2 ^ (64 - difficulty.toNat) := Nat.pow_pos (by omega)
  rw [le_leadingZeroBits_iff (by rw [List.length_reverse, hlen]; omega), List.length_reverse,
    hlen, ofBeBytes, List.reverse_reverse, UInt64.le_iff_toNat_le,
    Emission.toNat_difficultyToTarget h1 h64, MachineInt.toNat_ofNat_of_lt (by omega)]
  exact Nat.le_sub_one_iff_lt hpos

theorem checkProofOfWork_eq {hashValue difficulty : UInt64} (h1 : 1 ≤ difficulty.toNat)
    (h63 : difficulty.toNat ≤ 63) :
    checkProofOfWork hashValue difficulty =
      decide (hashValue ≤ Emission.difficultyToTarget difficulty) := by
  have hne : Emission.difficultyToTarget difficulty ≠ 0 := by
    intro h0
    have ht := Emission.toNat_difficultyToTarget h1 (by omega)
    rw [h0] at ht
    have := Nat.pow_le_pow_right (show 0 < 2 by omega) (show 1 ≤ 64 - difficulty.toNat by omega)
    have hz : (0 : UInt64).toNat = 0 := rfl
    omega
  unfold checkProofOfWork
  rw [if_neg hne]

variable {P : Primitives}

/-- A hash the verifier accepts has a word, and the word is at most the target, so that the
gossip pre-check and `checkProofOfWork` accept it too, exactly when the first eight bytes
read backwards start with as many zero bits as the difficulty asks. -/
theorem powHashValue_le_target_iff {header : BlockHeader} {difficulty : UInt64}
    (h1 : 1 ≤ difficulty.toNat) (h63 : difficulty.toNat ≤ 63)
    (hok : verifyPowLight P header difficulty = .ok ()) :
    ∃ nonce value, nonceOfProof header.powProof = some nonce ∧
      computePowHashValue P header = some value ∧
      (value ≤ Emission.difficultyToTarget difficulty ↔
        difficulty.toNat ≤ leadingZeroBits ((powHash P header nonce).bytes.take 8).reverse) ∧
      (checkProofOfWork value difficulty = true ↔
        difficulty.toNat ≤ leadingZeroBits ((powHash P header nonce).bytes.take 8).reverse) := by
  obtain ⟨_, nonce, hnonce, _⟩ := verifyPowLight_eq_ok.mp hok
  have hlen : ((powHash P header nonce).bytes.take 8).length = 8 := by
    rw [List.length_take, (powHash P header nonce).length_bytes]
    rfl
  have hiff := ofLeBytes_le_target_iff hlen h1 (by omega)
  refine ⟨nonce, _, hnonce, by rw [computePowHashValue, hnonce], hiff, ?_⟩
  rw [checkProofOfWork_eq h1 h63, decide_eq_true_iff]
  exact hiff

theorem powHashValue_le_target_iff_of_reference :
    let P := Reference.primitives
    let header := Reference.minedHeader ObjectId.zero (leBytes 8 5)
    ∃ nonce value, nonceOfProof header.powProof = some nonce ∧
      computePowHashValue P header = some value ∧
      (value ≤ Emission.difficultyToTarget 7 ↔
        7 ≤ leadingZeroBits ((powHash P header nonce).bytes.take 8).reverse) ∧
      (checkProofOfWork value 7 = true ↔
        7 ≤ leadingZeroBits ((powHash P header nonce).bytes.take 8).reverse) := by
  intro P header
  have hok : verifyPowLight P header 7 = .ok () := by decide +kernel
  exact powHashValue_le_target_iff (by decide) (by decide) hok

/-- A hash that starts with seven zero bits and holds nothing but ones after them. -/
def onesAfterSevenZeros : FixedBytes 32 where
  bytes := 1 :: List.replicate 31 255
  length_bytes := by decide

/-- The verifier accepts this hash at difficulty 7, while its word is far above the
target, so that the gossip pre-check rejects the block. -/
theorem accepted_hash_above_target :
    let P := { Reference.primitives with evoOmapHash := fun _ _ _ _ => onesAfterSevenZeros }
    let header := Reference.minedHeader ObjectId.zero (leBytes 8 0)
    verifyPowLight P header 7 = .ok () ∧
      computePowHashValue P header = some 0xffffffffffffff01 ∧
      ¬0xffffffffffffff01 ≤ Emission.difficultyToTarget 7 ∧
      checkProofOfWork 0xffffffffffffff01 7 = false ∧
      ¬∀ (P : Primitives) (header : BlockHeader) (difficulty : UInt64),
        1 ≤ difficulty.toNat → difficulty.toNat ≤ 63 →
        verifyPowLight P header difficulty = .ok () → ∃ value,
          computePowHashValue P header = some value ∧
            value ≤ Emission.difficultyToTarget difficulty := by
  intro P header
  have hok : verifyPowLight P header 7 = .ok () := by decide +kernel
  have hvalue : computePowHashValue P header = some 0xffffffffffffff01 := by decide +kernel
  have hlt : ¬(0xffffffffffffff01 : UInt64) ≤ Emission.difficultyToTarget 7 := by
    decide +kernel
  refine ⟨hok, hvalue, hlt, by decide +kernel, fun hall => hlt ?_⟩
  obtain ⟨value, hv, hle⟩ := hall P header 7 (by decide) (by decide) hok
  rw [hvalue, Option.some.injEq] at hv
  rwa [hv]

end Opolys
