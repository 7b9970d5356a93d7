import Opolys.Core.Constants
import Opolys.Library.Codec
import Opolys.Library.MachineInt

/-!
# Ledger types

The records that blocks are made of, with the Borsh encoding under which the node hashes,
signs and measures them.

* `Transaction`, `DoubleSignEvidence`, `BlockAttestation` : the contents of a body.
* `BlockHeader`, `Block` : the header with its body roots, and the two together.
* `BlockEconomicReceipt`, `MintLedgerTotals` : the accounting kept beside the chain.

Every record is encoded as the tuple of its fields in the order of its declaration. An
enumeration is encoded as the number of its variant followed by the variant's fields.
-/

namespace Opolys

open Codec (FixedBytes Borsh leBytes)
open MachineInt (saturatingAdd saturatingMul)

/-! ## Hashes and identifiers -/

/-- A 32-byte hash. -/
abbrev Hash := FixedBytes 32

/-- The two lowercase hexadecimal digits of a byte. -/
def hexDigits (b : UInt8) : List Char :=
  [Nat.digitChar (b.toNat / 16), Nat.digitChar (b.toNat % 16)]

namespace Hash

/-- The all-zero hash, a sentinel. -/
def zero : Hash := FixedBytes.fill 32 0

/-- Every byte is zero. -/
def isZero (h : Hash) : Bool := h = zero

/-- The hash as 64 lowercase hexadecimal digits. -/
def toHex (h : Hash) : String := String.ofList (h.bytes.flatMap hexDigits)

end Hash

/-- The identifier of an account, a refiner or a transaction. -/
@[ext] structure ObjectId where
  /-- The hash it wraps. -/
  hash : Hash
deriving DecidableEq

namespace ObjectId

/-- The all-zero identifier, a sentinel. -/
def zero : ObjectId := ⟨Hash.zero⟩

/-- The identifier as 64 lowercase hexadecimal digits. -/
def toHex (id : ObjectId) : String := id.hash.toHex

/-- The wrapped bytes. -/
def asBytes (id : ObjectId) : List UInt8 := id.hash.bytes

theorem hash_injective : Function.Injective hash := fun _ _ h => ObjectId.ext h

/-- Identifiers are sorted by their bytes. -/
instance : Ord ObjectId := ⟨fun a b => compare a.hash b.hash⟩

instance : Std.TransOrd ObjectId := inferInstanceAs (Std.TransCmp (compareOn hash))

instance : Std.LawfulEqOrd ObjectId where
  eq_of_compare {_ _} h := hash_injective (Std.LawfulEqOrd.compare_eq_iff_eq.mp h)

instance : Borsh ObjectId := Borsh.ofFields hash hash_injective

end ObjectId

/-! ## Transactions -/

/-- What a transaction does. -/
inductive TransactionAction where
  /-- Move `amount` from the sender to `recipient`. -/
  | transfer (recipient : ObjectId) (amount : FlakeAmount)
  /-- Lock `amount` of the sender as refiner stake. -/
  | refinerBond (amount : FlakeAmount)
  /-- Withdraw `amount` of the sender's stake, oldest entries first. -/
  | refinerUnbond (amount : FlakeAmount)
deriving DecidableEq

namespace TransactionAction

instance : Borsh TransactionAction where
  encode
    | transfer recipient amount => 0 :: Borsh.encode (recipient, amount)
    | refinerBond amount => 1 :: Borsh.encode amount
    | refinerUnbond amount => 2 :: Borsh.encode amount
  fits _ := true
  encode_append_inj {a b s t} _ _ h := by
    cases a <;> cases b <;> obtain ⟨htag, htail⟩ := List.cons.inj h
    case transfer.transfer r x r' x' =>
      obtain ⟨he, hst⟩ := Borsh.encode_append_inj (a := (r, x)) (b := (r', x')) rfl rfl htail
      cases he
      exact ⟨rfl, hst⟩
    case refinerBond.refinerBond x x' =>
      obtain ⟨rfl, hst⟩ := Borsh.encode_append_inj (a := x) (b := x') rfl rfl htail
      exact ⟨rfl, hst⟩
    case refinerUnbond.refinerUnbond x x' =>
      obtain ⟨rfl, hst⟩ := Borsh.encode_append_inj (a := x) (b := x') rfl rfl htail
      exact ⟨rfl, hst⟩
    all_goals exact absurd htag (by decide)

end TransactionAction

/-- A signed transition of the ledger. -/
@[ext] structure Transaction where
  /-- Hash of the transaction's content. -/
  txId : ObjectId
  /-- The account that signs and pays. -/
  sender : ObjectId
  action : TransactionAction
  fee : FlakeAmount
  signature : List UInt8
  /-- 0 is ed25519, the only type in use. -/
  signatureType : UInt8
  nonce : UInt64
  chainId : UInt64
  /-- A memo consensus does not read. -/
  data : List UInt8
  publicKey : List UInt8
deriving DecidableEq

instance : Borsh Transaction :=
  Borsh.ofFields
    (fun t => (t.txId, t.sender, t.action, t.fee, t.signature, t.signatureType, t.nonce,
      t.chainId, t.data, t.publicKey))
    (by rintro ⟨⟩ ⟨⟩ h; simpa using h)

/-! ## Evidence and attestations -/

/-- A claim that a refiner signed two blocks of one height. -/
@[ext] structure DoubleSignEvidence where
  producer : ObjectId
  producerPubkey : List UInt8
  height : BlockHeight
  hashA : Hash
  signatureA : List UInt8
  hashB : Hash
  signatureB : List UInt8
deriving DecidableEq

instance : Borsh DoubleSignEvidence :=
  Borsh.ofFields
    (fun e => (e.producer, e.producerPubkey, e.height, e.hashA, e.signatureA, e.hashB,
      e.signatureB))
    (by rintro ⟨⟩ ⟨⟩ h; simpa using h)

/-- A refiner's signed vote for a block. -/
@[ext] structure BlockAttestation where
  refiner : ObjectId
  refinerPubkey : List UInt8
  height : BlockHeight
  blockHash : Hash
  signature : List UInt8
deriving DecidableEq

instance : Borsh BlockAttestation :=
  Borsh.ofFields (fun a => (a.refiner, a.refinerPubkey, a.height, a.blockHash, a.signature))
    (by rintro ⟨⟩ ⟨⟩ h; simpa using h)

/-- The record of the ceremony that derived the chain's reward, in the genesis block only. -/
@[ext] structure GenesisCeremonyData where
  ceremonyTimestamp : UInt64
  ceremonyMasterHash : FixedBytes 32
  operatorPublicKey : FixedBytes 32
  operatorSignature : FixedBytes 64
  baseRewardFlakes : UInt64
  productionTonnesMilli : UInt64
  priceUsdCents : UInt64
  blocksPerYear : UInt64
deriving DecidableEq

instance : Borsh GenesisCeremonyData :=
  Borsh.ofFields
    (fun g => (g.ceremonyTimestamp, g.ceremonyMasterHash, g.operatorPublicKey,
      g.operatorSignature, g.baseRewardFlakes, g.productionTonnesMilli, g.priceUsdCents,
      g.blocksPerYear))
    (by rintro ⟨⟩ ⟨⟩ h; simpa using h)

/-! ## Blocks -/

/-- The header of a block. -/
@[ext] structure BlockHeader where
  version : UInt32
  height : BlockHeight
  previousHash : Hash
  /-- Root of the application state before this block is executed. -/
  stateRoot : Hash
  transactionRoot : Hash
  evidenceRoot : Hash
  attestationRoot : Hash
  genesisCeremonyHash : Hash
  /-- Unix seconds. -/
  timestamp : UInt64
  /-- Leading zero bits asked of the proof-of-work hash. -/
  difficulty : UInt64
  suggestedFee : FlakeAmount
  extensionRoot : Option Hash
  /-- Who earns the reward. -/
  producer : ObjectId
  /-- The solved nonce of a mined block. -/
  powProof : Option (List UInt8)
  /-- The signature of a refined block. -/
  refinerSignature : Option (List UInt8)
deriving DecidableEq

instance : Borsh BlockHeader :=
  Borsh.ofFields
    (fun h => (h.version, h.height, h.previousHash, h.stateRoot, h.transactionRoot,
      h.evidenceRoot, h.attestationRoot, h.genesisCeremonyHash, h.timestamp, h.difficulty,
      h.suggestedFee, h.extensionRoot, h.producer, h.powProof, h.refinerSignature))
    (by rintro ⟨⟩ ⟨⟩ h; simpa using h)

/-- How a block was produced. -/
inductive BlockProductionKind where
  | genesis
  /-- A miner solved the proof of work. -/
  | mined
  /-- The selected refiner signed. -/
  | refined
deriving DecidableEq

namespace BlockHeader

/-- The production kind the proof fields show, when they show exactly one. -/
def productionKind (h : BlockHeader) : Option BlockProductionKind :=
  match decide (h.height = 0), h.powProof.isSome, h.refinerSignature.isSome with
  | true, false, false => some .genesis
  | true, _, _ => none
  | false, true, false => some .mined
  | false, false, true => some .refined
  | false, _, _ => none

theorem productionKind_mined {h : BlockHeader} (hheight : h.height ≠ 0)
    (hproof : h.powProof.isSome = true) (hsignature : h.refinerSignature.isSome = false) :
    h.productionKind = some .mined := by
  unfold productionKind
  rw [decide_eq_false hheight, hproof, hsignature]

theorem productionKind_refined {h : BlockHeader} (hheight : h.height ≠ 0)
    (hproof : h.powProof.isSome = false) (hsignature : h.refinerSignature.isSome = true) :
    h.productionKind = some .refined := by
  unfold productionKind
  rw [decide_eq_false hheight, hproof, hsignature]

def isMined (h : BlockHeader) : Bool := h.productionKind = some .mined

def isRefined (h : BlockHeader) : Bool := h.productionKind = some .refined

end BlockHeader

/-- A header with its body. -/
@[ext] structure Block where
  header : BlockHeader
  transactions : List Transaction
  slashEvidence : List DoubleSignEvidence
  attestations : List BlockAttestation
  genesisCeremony : Option GenesisCeremonyData
deriving DecidableEq

instance : Borsh Block :=
  Borsh.ofFields
    (fun b => (b.header, b.transactions, b.slashEvidence, b.attestations, b.genesisCeremony))
    (by rintro ⟨⟩ ⟨⟩ h; simpa using h)

/-! ## Accounting beside the chain -/

/-- What one applied block issued, routed and burned. -/
@[ext] structure BlockEconomicReceipt where
  height : BlockHeight
  blockHash : Hash
  productionKind : BlockProductionKind
  producer : ObjectId
  difficulty : UInt64
  veinYieldMilli : UInt64
  grossReward : FlakeAmount
  mineAssayBurned : FlakeAmount
  minerCredit : FlakeAmount
  successfulTransactionCount : UInt64
  ordinaryFees : FlakeAmount
  ordinaryFeesBurned : FlakeAmount
  refinerFeeIncome : FlakeAmount
  bondUnbondAssayBurned : FlakeAmount
  slashedBurned : FlakeAmount
  totalBurned : FlakeAmount
deriving DecidableEq

/-- Totals over all receipts of the chain. -/
@[ext] structure MintLedgerTotals where
  totalGenesisIssued : FlakeAmount := 0
  totalMinedGrossReward : FlakeAmount := 0
  totalMineAssayBurned : FlakeAmount := 0
  totalOrdinaryFeesBurned : FlakeAmount := 0
  totalBondUnbondAssayBurned : FlakeAmount := 0
  totalSlashedStakeBurned : FlakeAmount := 0
  totalRefinerFeeIncome : FlakeAmount := 0
  totalMinedBlocks : UInt64 := 0
  totalRefinedBlocks : UInt64 := 0
  totalSuccessfulTransactions : UInt64 := 0
deriving DecidableEq

namespace MintLedgerTotals

def recordGenesisIssuance (t : MintLedgerTotals) (amount : FlakeAmount) : MintLedgerTotals :=
  { t with totalGenesisIssued := saturatingAdd t.totalGenesisIssued amount }

def recordReceipt (t : MintLedgerTotals) (r : BlockEconomicReceipt) : MintLedgerTotals :=
  let t := match r.productionKind with
    | .genesis => t
    | .mined =>
      { t with
        totalMinedBlocks := saturatingAdd t.totalMinedBlocks 1
        totalMinedGrossReward := saturatingAdd t.totalMinedGrossReward r.grossReward }
    | .refined => { t with totalRefinedBlocks := saturatingAdd t.totalRefinedBlocks 1 }
  { t with
    totalMineAssayBurned := saturatingAdd t.totalMineAssayBurned r.mineAssayBurned
    totalOrdinaryFeesBurned := saturatingAdd t.totalOrdinaryFeesBurned r.ordinaryFeesBurned
    totalBondUnbondAssayBurned :=
      saturatingAdd t.totalBondUnbondAssayBurned r.bondUnbondAssayBurned
    totalSlashedStakeBurned := saturatingAdd t.totalSlashedStakeBurned r.slashedBurned
    totalRefinerFeeIncome := saturatingAdd t.totalRefinerFeeIncome r.refinerFeeIncome
    totalSuccessfulTransactions :=
      saturatingAdd t.totalSuccessfulTransactions r.successfulTransactionCount }

end MintLedgerTotals

/-! ## Errors -/

/-- The errors of the subsystems below the node, which turns them into text. -/
inductive OpolysError where
  | insufficientBalance (need got : UInt64)
  | invalidSignature
  | invalidProofOfWork
  | accountNotFound (id : String)
  | invalidParams (message : String)
  | invalidTransaction (message : String)
  | blockValidationFailed (message : String)
  | mempoolFull
  | serializationError (message : String)
deriving DecidableEq

/-- The text of an error. -/
def OpolysError.toString : OpolysError → String
  | insufficientBalance need got => s!"Insufficient balance: need {need}, have {got}"
  | invalidSignature => "Invalid signature"
  | invalidProofOfWork => "Invalid proof of work"
  | accountNotFound id => s!"Account not found: {id}"
  | invalidParams message => s!"Invalid params: {message}"
  | invalidTransaction message => s!"Invalid transaction: {message}"
  | blockValidationFailed message => s!"Block validation failed: {message}"
  | mempoolFull => "Mempool full"
  | serializationError message => s!"Serialization error: {message}"

/-- What the serializer reports for a vector that is too long for its length field. -/
def vectorTooLong : String := "invalid data"

/-- The Borsh bytes of a value, or the error that names what could not be serialized. -/
def borshToVec {α : Type*} [Borsh α] (what : String) (a : α) : Except OpolysError (List UInt8) :=
  match Borsh.toVec a with
  | some bytes => .ok bytes
  | none => .error (.serializationError s!"{what} serialization failed: {vectorTooLong}")

theorem borshToVec_eq_ok {α : Type*} [Borsh α] {what : String} {a : α} {bytes : List UInt8} :
    borshToVec what a = .ok bytes ↔ Borsh.toVec a = some bytes := by
  unfold borshToVec
  cases Borsh.toVec a <;> simp

/-- A serialization that fails says so. -/
theorem borshToVec_eq_error {α : Type*} [Borsh α] {what : String} {a : α} {e : OpolysError}
    (h : borshToVec what a = .error e) : ∃ message, e = .serializationError message := by
  unfold borshToVec at h
  cases hvec : Borsh.toVec a with
  | some bytes =>
    rw [hvec] at h
    cases h
  | none =>
    rw [hvec] at h
    cases h
    exact ⟨_, rfl⟩

end Opolys
