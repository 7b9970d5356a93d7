import Opolys.Consensus.Account
import Opolys.Consensus.Block

/-!
# Genesis

The first block follows from a configuration: the protocol constants and the data of the
gold ceremony are hashed into its state root, and the configured accounts are credited
before the first block is mined.
-/

namespace Opolys

open Codec (FixedBytes beBytes)
open MachineInt (checkedAdd)

/-- The ceremony data a genesis block is derived from. -/
structure GenesisAttestation where
  ceremonyTimestamp : UInt64
  goldSpotPriceUsdCents : UInt64
  annualProductionTonnes : UInt64
  totalAboveGroundTonnes : UInt64
  lbmaResponseHash : FixedBytes 32
  usgsResponseHash : FixedBytes 32
  wgcResponseHash : FixedBytes 32
  derivationFormula : String

/-- What a chain is started from. -/
structure GenesisConfig where
  initialDifficulty : UInt64
  protocolVersion : String
  attestation : GenesisAttestation
  /-- Accounts with their first balance and their public key. -/
  genesisAccounts : List (ObjectId × FlakeAmount × List UInt8)
  baseReward : FlakeAmount
  ceremonyData : Option GenesisCeremonyData

namespace GenesisConfig

/-- The configuration of a node without a ceremony file. -/
def default : GenesisConfig where
  initialDifficulty := genesisDifficulty
  protocolVersion := networkProtocolVersion
  attestation :=
    { ceremonyTimestamp := 0
      goldSpotPriceUsdCents := 0
      annualProductionTonnes := 3630
      totalAboveGroundTonnes := 219891
      lbmaResponseHash := FixedBytes.fill 32 0
      usgsResponseHash := FixedBytes.fill 32 0
      wgcResponseHash := FixedBytes.fill 32 0
      derivationFormula := "floor(annual_production_tonnes * 32150.7 / 350640)" }
  genesisAccounts := []
  baseReward := Opolys.baseReward
  ceremonyData := none

end GenesisConfig

variable (P : Primitives)

/-- The bytes the state root of the genesis block is computed over. -/
def genesisStatePreimage (config : GenesisConfig) : List UInt8 :=
  domainStateRoot ++ tag "genesis" ++ tag config.protocolVersion ++ tag currencyName ++
    tag currencyTicker ++ tag currencySmallestUnit ++ beBytes 8 flakesPerOpl.toNat ++
    beBytes 8 config.baseReward.toNat ++ beBytes 8 blockTargetTimeMs.toNat ++
    beBytes 8 minDifficulty.toNat ++ beBytes 8 epoch.toNat ++ beBytes 8 minBondStake.toNat ++
    beBytes 8 minFee.toNat ++ beBytes 4 blockVersion.toNat ++
    beBytes 8 config.attestation.ceremonyTimestamp.toNat ++
    beBytes 8 config.attestation.annualProductionTonnes.toNat ++
    beBytes 8 config.attestation.totalAboveGroundTonnes.toNat ++
    config.attestation.lbmaResponseHash.bytes ++ config.attestation.usgsResponseHash.bytes ++
    config.attestation.wgcResponseHash.bytes ++ tag config.attestation.derivationFormula ++
    config.genesisAccounts.flatMap fun entry =>
      entry.1.asBytes ++ beBytes 8 entry.2.1.toNat ++ entry.2.2

/-- The genesis block of a configuration. -/
def buildGenesisBlock (config : GenesisConfig) : Except OpolysError Block := do
  let evidenceRoot ← computeEvidenceRoot P []
  let attestationRoot ← computeAttestationRoot P []
  let genesisCeremonyHash ← computeGenesisCeremonyHash P config.ceremonyData
  return {
    header := {
      version := blockVersion
      height := 0
      previousHash := Hash.zero
      stateRoot := P.blake3 (genesisStatePreimage config)
      transactionRoot := computeTransactionRoot P []
      evidenceRoot
      attestationRoot
      genesisCeremonyHash
      timestamp := config.attestation.ceremonyTimestamp
      difficulty := config.initialDifficulty
      suggestedFee := minFee
      extensionRoot := none
      producer := ObjectId.zero
      powProof := none
      refinerSignature := none }
    transactions := []
    slashEvidence := []
    attestations := []
    genesisCeremony := config.ceremonyData }

/-- The account with the configured key, unless that is empty. -/
def withGenesisKey (pk : List UInt8) (account : Account) : Account :=
  if pk.isEmpty then account else { account with publicKey := some pk }

/-- Credit one configured account, created and given its key where needed. -/
def applyGenesisAccount (state : AccountStore × FlakeAmount)
    (entry : ObjectId × FlakeAmount × List UInt8) :
    Except String (AccountStore × FlakeAmount) := do
  let (accountId, amount, pk) := entry
  let accounts := state.1.withAccount accountId
  let accounts := accounts.update accountId (withGenesisKey pk)
  let accounts ← (AccountStore.credit accounts accountId amount).mapError fun e =>
    s!"Failed to credit genesis account: {e.toString}"
  match checkedAdd state.2 amount with
  | some totalIssued => .ok (accounts, totalIssued)
  | none => .error "Genesis issued supply overflow"

/-- Credit the configured accounts and report what was issued to them. -/
def applyGenesisAccounts (config : GenesisConfig) (accounts : AccountStore) :
    Except String (AccountStore × FlakeAmount) :=
  config.genesisAccounts.foldlM applyGenesisAccount (accounts, 0)

end Opolys
