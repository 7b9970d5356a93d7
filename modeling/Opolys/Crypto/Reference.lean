import Mathlib.Data.Nat.ModEq
import Opolys.Crypto.Hash

/-!
# Primitives to compute with

The results about the node hold for all primitives. Where a result is applied to a concrete
chain, the primitives are the ones of this file: a polynomial hash, signatures that are
such hashes over key and message, and a mining hash that starts with a zero byte followed
by the nonce. They are no cryptography, but they compute, and verification accepts exactly
what signing returns.
-/

namespace Opolys.Reference

open Codec (FixedBytes leBytes leBytes_inj)

/-- A polynomial hash over a prime field. -/
def hash (msg : List UInt8) : Hash where
  bytes := leBytes 32 (msg.foldl (fun acc b => (acc * 257 + b.toNat + 1) % (2 ^ 255 - 19)) 7)
  length_bytes := Codec.length_leBytes _ _

/-- The two hashes that make up a signature under a key. -/
def signature (publicKey : FixedBytes 32) (msg : List UInt8) : FixedBytes 64 where
  bytes := (hash (publicKey.bytes ++ msg)).bytes ++ (hash (msg ++ publicKey.bytes)).bytes
  length_bytes := by rw [List.length_append, FixedBytes.length_bytes, FixedBytes.length_bytes]

/-- A zero byte, then the nonce. -/
def powHash (nonce : UInt64) : FixedBytes 32 where
  bytes := leBytes 9 (nonce.toNat * 256) ++ List.replicate 23 0
  length_bytes := by simp

/-- The primitives of this file. -/
def primitives : Primitives where
  blake3 := hash
  verifyingKeyOk _ := true
  verify publicKey msg sig := sig = signature publicKey msg
  verifyStrict publicKey msg sig := sig = signature publicKey msg
  verifyingKey seed := hash seed.bytes
  sign seed msg := signature (hash seed.bytes) msg
  evoOmapHash _ _ nonce _ := powHash nonce

/-- A round of the hash loses nothing. -/
theorem hash_round_injective {acc acc' : ℕ} (h : acc < 2 ^ 255 - 19) (h' : acc' < 2 ^ 255 - 19)
    (b : UInt8) (heq : (acc * 257 + b.toNat + 1) % (2 ^ 255 - 19) =
      (acc' * 257 + b.toNat + 1) % (2 ^ 255 - 19)) : acc = acc' := by
  have hcoprime : Nat.gcd (2 ^ 255 - 19) 257 = 1 := by decide +kernel
  have hmod : acc * 257 ≡ acc' * 257 [MOD 2 ^ 255 - 19] := by
    rw [Nat.add_assoc, Nat.add_assoc] at heq
    exact Nat.ModEq.add_right_cancel' _ heq
  exact (Nat.ModEq.cancel_right_of_coprime hcoprime hmod).eq_of_lt_of_lt h h'

theorem foldl_round_injective (msg : List UInt8) {acc acc' : ℕ} (h : acc < 2 ^ 255 - 19)
    (h' : acc' < 2 ^ 255 - 19)
    (heq : msg.foldl (fun acc b => (acc * 257 + b.toNat + 1) % (2 ^ 255 - 19)) acc =
      msg.foldl (fun acc b => (acc * 257 + b.toNat + 1) % (2 ^ 255 - 19)) acc') : acc = acc' := by
  induction msg generalizing acc acc' with
  | nil => exact heq
  | cons b msg ih =>
    exact hash_round_injective h h' b
      (ih (Nat.mod_lt _ (by decide)) (Nat.mod_lt _ (by decide)) heq)

theorem foldl_round_lt (msg : List UInt8) {acc : ℕ} (h : acc < 2 ^ 255 - 19) :
    msg.foldl (fun acc b => (acc * 257 + b.toNat + 1) % (2 ^ 255 - 19)) acc < 2 ^ 255 - 19 := by
  induction msg generalizing acc with
  | nil => exact h
  | cons b msg ih => exact ih (Nat.mod_lt _ (by decide))

/-- Two messages that differ in one byte have different hashes. -/
theorem hash_ne (before after : List UInt8) {b b' : UInt8} (h : b ≠ b') :
    hash (before ++ b :: after) ≠ hash (before ++ b' :: after) := by
  intro heq
  have hround (c : UInt8) (acc : ℕ) : (acc * 257 + c.toNat + 1) % (2 ^ 255 - 19) < 2 ^ 255 - 19 :=
    Nat.mod_lt _ (by decide)
  have hfit : (2 ^ 255 - 19 : ℕ) < 256 ^ 32 := by decide
  have hbytes := congrArg FixedBytes.bytes heq
  unfold hash at hbytes
  dsimp only at hbytes
  rw [List.foldl_append, List.foldl_append, List.foldl_cons, List.foldl_cons] at hbytes
  have hfolds := leBytes_inj ((foldl_round_lt after (hround b _)).trans hfit)
    ((foldl_round_lt after (hround b' _)).trans hfit) hbytes
  have hrounds := foldl_round_injective after (hround b _) (hround b' _) hfolds
  have hmod : b.toNat ≡ b'.toNat [MOD 2 ^ 255 - 19] := by
    rw [Nat.add_assoc, Nat.add_assoc] at hrounds
    exact Nat.ModEq.add_right_cancel' 1 (Nat.ModEq.add_left_cancel' _ hrounds)
  have hb := b.toNat_lt
  have hb' := b'.toNat_lt
  exact h (UInt8.toNat_inj.mp (hmod.eq_of_lt_of_lt (by omega) (by omega)))

theorem verify_sign (seed : FixedBytes 32) (msg : List UInt8) :
    primitives.verify (primitives.verifyingKey seed) msg (primitives.sign seed msg) = true :=
  decide_eq_true rfl

/-- A mined header at the genesis difficulty, for a producer and an eight-byte proof. -/
def minedHeader (producer : ObjectId) (powProof : List UInt8) : BlockHeader where
  version := blockVersion
  height := 1
  previousHash := Hash.zero
  stateRoot := Hash.zero
  transactionRoot := Hash.zero
  evidenceRoot := Hash.zero
  attestationRoot := Hash.zero
  genesisCeremonyHash := Hash.zero
  timestamp := 90
  difficulty := genesisDifficulty
  suggestedFee := minFee
  extensionRoot := none
  producer
  powProof := some powProof
  refinerSignature := none

end Opolys.Reference
