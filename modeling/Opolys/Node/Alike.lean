import Opolys.Execution.Alike
import Opolys.Node.Run
import Opolys.Node.Slashing

/-!
# What a block's effect depends on

Two nodes that share chain state, accounts, refiners up to the order of the active set, and
stored blocks do the same with every block. Identity, mempool and pending pools have no
part in it. This is proved stage by stage, each in lockstep on both nodes.

The stages after the reward depend on still less: the remembered signatures of producers
and the running totals may differ, and so may the proof fields of the header. For these
stages `Alike` is used without its strict part.
-/

namespace Opolys

open Std (ExtTreeMap ExtTreeSet)
open Effect (Agree Both Lockstep)

variable {P : Primitives}

/-- The chain state with other remembered signatures and other running totals. -/
def ChainState.withRecords (signatures : ExtTreeMap (UInt64 × ObjectId) (Hash × List UInt8))
    (totals : MintLedgerTotals) (chain : ChainState) : ChainState :=
  { chain with producerSignatures := signatures, mintLedger := totals }

/-- The header with other proof fields. -/
def BlockHeader.withProofs (powProof refinerSignature : Option (List UInt8))
    (header : BlockHeader) : BlockHeader :=
  { header with powProof, refinerSignature }

namespace OpolysNode

/-- Two nodes on the same ledger, where `strict` asks for the same chain state and the same
stored blocks. -/
structure Alike (strict : Prop) (a b : OpolysNode) : Prop where
  chain : ∃ signatures totals, b.chain = a.chain.withRecords signatures totals
  accounts_eq : b.accounts = a.accounts
  refiners : a.refiners.Alike b.refiners
  chain_eq : strict → b.chain = a.chain
  blocks_eq : strict → b.store.map BlockchainStore.blocks = a.store.map BlockchainStore.blocks

namespace Alike

variable {strict : Prop} {a b : OpolysNode}

theorem refl (a : OpolysNode) : Alike strict a a :=
  ⟨⟨a.chain.producerSignatures, a.chain.mintLedger, rfl⟩, rfl, RefinerSet.Alike.refl _,
    fun _ => rfl, fun _ => rfl⟩

theorem withAccounts (h : Alike strict a b) (accounts : AccountStore) :
    Alike strict { a with accounts } { b with accounts } :=
  ⟨h.chain, rfl, h.refiners, h.chain_eq, h.blocks_eq⟩

theorem withRefiners (h : Alike strict a b) {refiners refiners' : RefinerSet}
    (hr : refiners.Alike refiners') :
    Alike strict { a with refiners } { b with refiners := refiners' } :=
  ⟨h.chain, h.accounts_eq, hr, h.chain_eq, h.blocks_eq⟩

/-- A change of the chain state that leaves signatures and totals alone, or changes them
by themselves, keeps two nodes alike. -/
theorem mapChain (h : Alike strict a b) {g : ChainState → ChainState}
    (hg : ∀ chain signatures totals, ∃ signatures' totals',
      g (chain.withRecords signatures totals) = (g chain).withRecords signatures' totals') :
    Alike strict { a with chain := g a.chain } { b with chain := g b.chain } := by
  obtain ⟨signatures, totals, hchain⟩ := h.chain
  refine ⟨?_, h.accounts_eq, h.refiners, fun hs => congrArg g (h.chain_eq hs), h.blocks_eq⟩
  dsimp only
  rw [hchain]
  exact hg a.chain signatures totals

/-- What the chain states of two such nodes agree on. -/
theorem read (h : Alike strict a b) {α : Type*} {g : ChainState → α}
    (hg : ∀ chain signatures totals, g (ChainState.withRecords signatures totals chain) = g chain) :
    g b.chain = g a.chain := by
  obtain ⟨signatures, totals, hchain⟩ := h.chain
  rw [hchain, hg]

theorem totalIssued_eq (h : Alike strict a b) : b.chain.totalIssued = a.chain.totalIssued :=
  h.read (g := ChainState.totalIssued) fun _ _ _ => rfl

theorem totalBurned_eq (h : Alike strict a b) : b.chain.totalBurned = a.chain.totalBurned :=
  h.read (g := ChainState.totalBurned) fun _ _ _ => rfl

theorem currentHeight_eq (h : Alike strict a b) :
    b.chain.currentHeight = a.chain.currentHeight :=
  h.read (g := ChainState.currentHeight) fun _ _ _ => rfl

theorem suggestedFee_eq (h : Alike strict a b) : b.chain.suggestedFee = a.chain.suggestedFee :=
  h.read (g := ChainState.suggestedFee) fun _ _ _ => rfl

theorem ledger (h : Alike strict a b) : a.ledger.Alike b.ledger := by
  refine ⟨b.refiners, h.refiners, ?_⟩
  unfold OpolysNode.ledger
  rw [h.accounts_eq]

theorem setLedger (h : Alike strict a b) {ledger ledger' : Ledger} (hl : ledger.Alike ledger') :
    Alike strict (a.setLedger ledger) (b.setLedger ledger') := by
  obtain ⟨refiners, hr, rfl⟩ := hl
  exact ⟨h.chain, rfl, hr, h.chain_eq, h.blocks_eq⟩

end Alike

end OpolysNode

open OpolysNode (Alike)

/-! ## Opening a block -/

section Strict

variable {a b : OpolysNode}

theorem checkBlock_alike (h : Alike True a b) (env : Env) (block : Block) :
    checkBlock P env block b = checkBlock P env block a := by
  unfold checkBlock OpolysNode.expectedDifficulty
  rw [h.chain_eq trivial, h.refiners.totalBondedStake_eq]

theorem loadBlock_alike (h : Alike True a b) (height : UInt64) :
    Option.Rel (fun s s' : BlockchainStore => s'.loadBlock height = s.loadBlock height)
      a.store b.store := by
  have hblocks := h.blocks_eq trivial
  cases ha : a.store <;> cases hb : b.store <;> rw [ha, hb] at hblocks
  · exact Option.Rel.none
  · cases hblocks
  · cases hblocks
  · refine Option.Rel.some ?_
    unfold BlockchainStore.loadBlock
    rw [Option.some.inj hblocks]

theorem verifyBlockAttestation_alike (h : Alike True a b) (attestation : BlockAttestation)
    (canonicalHash : Hash) :
    verifyBlockAttestationAgainstRefiners P attestation canonicalHash b.refiners =
      verifyBlockAttestationAgainstRefiners P attestation canonicalHash a.refiners := by
  unfold verifyBlockAttestationAgainstRefiners
  rw [h.refiners.getRefiner_eq]

theorem processAttestation_alike (h : Alike True a b) (header : BlockHeader)
    (log : AttestationLog) (attestation : BlockAttestation) :
    Lockstep (Alike True) (processAttestation P header log attestation)
      (processAttestation P header log attestation) a b := by
  unfold processAttestation
  refine Agree.ensure_bind Iff.rfl (fun _ => ⟨rfl, h⟩) fun _ => ?_
  refine Agree.ensure_bind Iff.rfl (fun _ => ⟨rfl, h⟩) fun _ => Agree.get_bind ?_
  refine Agree.require_bind (loadBlock_alike h attestation.height) ⟨rfl, h⟩ ?_
  intro store store' hload
  rw [hload]
  refine Agree.require_bind (R := Eq) ?_ ⟨rfl, h⟩ ?_
  · cases store.loadBlock attestation.height <;> constructor
    rfl
  · rintro attested _ rfl
    refine Agree.ensure_bind Iff.rfl (fun _ => ⟨rfl, h⟩) fun _ => Agree.get_bind ?_
    rw [verifyBlockAttestation_alike h]
    refine Agree.ofExcept_bind (Both.refl _) (fun _ => ⟨rfl, h⟩) fun _ _ _ => ?_
    let key := (attestation.height, computeBlockHash P attested.header)
    have h' : Alike True (recordAttester key attestation.refiner a)
        (recordAttester key attestation.refiner b) :=
      h.mapChain (g := fun chain => { chain with
        attestationFinalityRefiners := chain.attestationFinalityRefiners.insert key
          ((chain.attestationFinalityRefiners.getD key ∅).insert attestation.refiner) })
        fun _ signatures totals => ⟨signatures, totals, rfl⟩
    refine Agree.modify_bind (Agree.get_bind ?_)
    refine Agree.ofExcept_bind (h'.refiners.recordCorrectAttestation attestation.refiner)
      (fun _ => ⟨rfl, h'⟩) fun refiners refiners' hr => ?_
    exact Agree.modify_bind (Agree.pure ⟨rfl, h'.withRefiners hr⟩)

theorem advanceFinality_alike (h : Alike True a b) (finalityThreshold : ℕ) (timestamp : UInt64)
    (touched : ExtTreeSet (UInt64 × Hash)) :
    Alike True (advanceFinality finalityThreshold timestamp touched a)
      (advanceFinality finalityThreshold timestamp touched b) := by
  have hweights (attesters : ExtTreeSet ObjectId) :
      indexedAttestationWeightForRefiners attesters b.refiners timestamp =
        indexedAttestationWeightForRefiners attesters a.refiners timestamp := by
    unfold indexedAttestationWeightForRefiners
    rw [funext h.refiners.getRefiner_eq]
  unfold advanceFinality
  simp only [h.chain_eq trivial, hweights]
  exact ⟨⟨_, _, rfl⟩, h.accounts_eq, h.refiners, fun _ => rfl, h.blocks_eq⟩

theorem processAttestations_alike (h : Alike True a b) (block : Block) :
    Lockstep (Alike True) (processAttestations P block) (processAttestations P block) a b := by
  unfold processAttestations activeRefinerWeightMilliThreshold
  refine Agree.get_bind ?_
  rw [h.refiners.allRefiners_eq]
  refine Agree.bind (R := fun log log' t t' => log = log' ∧ Alike True t t') ?_ ?_
  · refine Agree.foldlM ⟨rfl, h⟩ ?_
    rintro log _ t t' attestation _ ⟨rfl, h'⟩
    exact processAttestation_alike h' block.header log attestation
  · rintro log _ t t' ⟨rfl, h'⟩
    exact Agree.modify_bind (Agree.pure ⟨rfl, advanceFinality_alike h' _ _ _⟩)

theorem checkProducer_alike (h : Alike True a b) (kind : BlockProductionKind)
    (header : BlockHeader) : checkProducer P kind header b = checkProducer P kind header a := by
  unfold checkProducer checkRefinedProducer
  rw [h.accounts_eq, h.chain_eq trivial, h.refiners.selectBlockProducer_eq]

theorem foldl_slashStep_alike {refiners refiners' : RefinerSet} (hr : refiners.Alike refiners')
    (evidence : List DoubleSignEvidence) (slashing : Slashing) :
    ∃ active : RefinerSet, (evidence.foldl (slashStep P) { slashing with refiners }).refiners.Alike
        active ∧
      evidence.foldl (slashStep P) { slashing with refiners := refiners' } =
        { evidence.foldl (slashStep P) { slashing with refiners } with refiners := active } := by
  induction evidence generalizing slashing refiners refiners' with
  | nil => exact ⟨refiners', hr, rfl⟩
  | cons e evidence ih =>
    rw [List.foldl_cons, List.foldl_cons, slashStep_eq, slashStep_eq]
    obtain ⟨hset, hamount⟩ := hr.slash e.producer
    dsimp only
    rw [hamount]
    split
    · exact ih hset { slashing with
        totalBurned := MachineInt.saturatingAdd slashing.totalBurned
          (refiners.slashAmount e.producer)
        slashedBurned := MachineInt.saturatingAdd slashing.slashedBurned
          (refiners.slashAmount e.producer)
        processed := (e.producer, e.height) :: slashing.processed }
    · exact ih hr slashing

theorem processSlashEvidence_alike (h : Alike True a b) (evidence : List DoubleSignEvidence) :
    Lockstep (Alike True) (processSlashEvidence P evidence) (processSlashEvidence P evidence)
      a b := by
  unfold processSlashEvidence
  refine Agree.get_bind ?_
  dsimp only
  obtain ⟨active, hactive, hfold⟩ := foldl_slashStep_alike (P := P) h.refiners evidence
    { refiners := a.refiners, totalBurned := a.chain.totalBurned, slashedBurned := 0,
      processed := [] }
  dsimp only at hactive hfold
  rw [h.chain_eq trivial, hfold]
  exact Agree.set_bind (Agree.pure
    ⟨rfl, ⟨⟨_, _, rfl⟩, h.accounts_eq, hactive, fun _ => rfl, h.blocks_eq⟩⟩)

theorem detectDoubleSign_alike (h : Alike True a b) (header : BlockHeader) :
    Lockstep (Alike True) (detectDoubleSign P header) (detectDoubleSign P header) a b := by
  unfold detectDoubleSign
  refine Agree.get_bind ?_
  rw [h.chain_eq trivial, h.accounts_eq]
  split
  · exact Agree.pure ⟨rfl, h⟩
  · split
    · exact Agree.pure ⟨rfl, h⟩
    · dsimp only
      split
      · split
        · exact Agree.pure ⟨rfl, h⟩
        · exact Agree.pure ⟨rfl, h⟩
      · exact Agree.set_bind (Agree.pure
          ⟨rfl, ⟨⟨_, _, rfl⟩, rfl, h.refiners, fun _ => rfl, h.blocks_eq⟩⟩)

theorem beginBlock_alike (h : Alike True a b) (kind : BlockProductionKind)
    (bondedStake : FlakeAmount) (block : Block) :
    Lockstep (Alike True) (beginBlock P kind bondedStake block)
      (beginBlock P kind bondedStake block) a b := by
  unfold beginBlock
  refine Agree.get_bind ?_
  dsimp only
  rw [h.chain_eq trivial, h.refiners.totalActiveRefiners_eq]
  refine Agree.bind (processSlashEvidence_alike h block.slashEvidence) ?_
  rintro slashedBurned _ t t' ⟨rfl, h'⟩
  refine Agree.bind (detectDoubleSign_alike h' block.header) ?_
  rintro newEvidence _ t t' ⟨rfl, h'⟩
  refine Agree.get_bind ?_
  rw [h'.chain_eq trivial]
  generalize blockReward P kind block.header t.chain bondedStake = parts
  obtain ⟨veinYieldMilli, reward⟩ := parts
  refine Agree.get_bind ?_
  rw [h'.accounts_eq]
  refine Agree.ofExcept_bind (Both.refl _) (fun _ => ⟨rfl, h'⟩) ?_
  rintro accounts _ rfl
  exact Agree.modify_bind (Agree.pure ⟨rfl, h'.withAccounts accounts⟩)

theorem openBlock_alike (h : Alike True a b) {env env' : Env} (block : Block)
    (hcheck : checkBlock P env' block a = checkBlock P env block a) :
    Lockstep (Alike True) (openBlock P env block) (openBlock P env' block) a b := by
  unfold openBlock
  refine Agree.get_bind (Agree.get_bind ?_)
  rw [h.refiners.totalBondedStake_eq, checkBlock_alike h, hcheck]
  refine Agree.ofExcept_bind (Both.refl _) (fun _ => ⟨rfl, h⟩) ?_
  rintro kind _ rfl
  refine Agree.bind (processAttestations_alike h block) ?_
  rintro ⟨⟩ ⟨⟩ t t' ⟨-, h'⟩
  refine Agree.get_bind ?_
  rw [checkProducer_alike h']
  refine Agree.ofExcept_bind (Both.refl _) (fun _ => ⟨rfl, h'⟩) fun _ _ _ => ?_
  exact beginBlock_alike h' kind _ block

end Strict

/-! ## Transactions -/

section Ledger

variable {strict : Prop} {a b : OpolysNode}

theorem executeTransaction_alike (h : Alike strict a b) (header : BlockHeader)
    (powProof refinerSignature : Option (List UInt8)) (tally : TxTally) (tx : Transaction) :
    Lockstep (Alike strict) (executeTransaction P header tally tx)
      (executeTransaction P (header.withProofs powProof refinerSignature) tally tx) a b := by
  have hcontext : executionContext (header.withProofs powProof refinerSignature) b.chain =
      executionContext header a.chain := by
    unfold executionContext
    rw [h.totalIssued_eq]
    rfl
  unfold executeTransaction
  refine Agree.get_bind ?_
  rw [hcontext]
  obtain ⟨hresult, hledger⟩ := TransactionDispatcher.applyTransaction_alike h.ledger P tx
    (executionContext header a.chain) mainnetChainId
  generalize TransactionDispatcher.applyTransaction P tx (executionContext header a.chain)
    mainnetChainId a.ledger = out at hresult hledger ⊢
  generalize TransactionDispatcher.applyTransaction P tx (executionContext header a.chain)
    mainnetChainId b.ledger = out' at hresult hledger ⊢
  obtain ⟨result, ledger⟩ := out
  obtain ⟨result', ledger'⟩ := out'
  obtain rfl : result' = result := hresult
  have h' := h.setLedger hledger
  refine Agree.modify_bind (Agree.ofExcept_bind (Both.refl _) (fun _ => ⟨rfl, h'⟩) ?_)
  rintro tally' _ rfl
  exact Agree.modify_bind (Agree.pure
    ⟨rfl, h'.chain, h'.accounts_eq, h'.refiners, h'.chain_eq, h'.blocks_eq⟩)

theorem foldlM_executeTransaction_alike (h : Alike strict a b) (header : BlockHeader)
    (powProof refinerSignature : Option (List UInt8)) (tally : TxTally)
    (txs : List Transaction) :
    Lockstep (Alike strict) (txs.foldlM (executeTransaction P header) tally)
      (txs.foldlM (executeTransaction P (header.withProofs powProof refinerSignature)) tally)
      a b := by
  refine Agree.foldlM ⟨rfl, h⟩ ?_
  rintro tally _ t t' tx _ ⟨rfl, h'⟩
  exact executeTransaction_alike h' header powProof refinerSignature tally tx

/-! ## Closing a block -/

theorem burn_alike (h : Alike strict a b) (amount : FlakeAmount) (message : String) :
    Lockstep (Alike strict) (burn amount message) (burn amount message) a b := by
  unfold burn
  refine Agree.get_bind ?_
  rw [h.totalBurned_eq]
  refine Agree.require_bind (R := Eq) ?_ ⟨rfl, h⟩ ?_
  · cases MachineInt.checkedAdd a.chain.totalBurned amount <;> constructor
    rfl
  · rintro totalBurned _ rfl
    exact Agree.modify_bind
      (Agree.pure ⟨rfl, h.mapChain (g := fun chain => { chain with totalBurned })
      fun _ signatures totals => ⟨signatures, totals, rfl⟩⟩)

theorem evictAtEpochEnd_alike (h : Alike strict a b) (env env' : Env)
    (header header' : BlockHeader) :
    Alike strict (evictAtEpochEnd env header a) (evictAtEpochEnd env' header' b) := by
  unfold evictAtEpochEnd
  split <;> split <;> exact ⟨h.chain, h.accounts_eq, h.refiners, h.chain_eq, h.blocks_eq⟩

/-- Fees are settled alike when the same part is burned and the same part paid. -/
theorem settleFees_alike (h : Alike strict a b) (env env' : Env) {header header' : BlockHeader}
    (hproducer : header'.producer = header.producer) {opening opening' : Opening}
    {routing routing' : FeeRouting} (tally : TxTally)
    (hburned : routing'.ordinaryFeesBurned = routing.ordinaryFeesBurned)
    (hincome : (if opening'.kind = .refined then routing'.refinerFeeIncome else 0) =
      if opening.kind = .refined then routing.refinerFeeIncome else 0) :
    Lockstep (Alike strict) (settleFees env header opening tally routing)
      (settleFees env' header' opening' tally routing') a b := by
  unfold settleFees
  dsimp only
  have h' := evictAtEpochEnd_alike h env env' header header'
  rw [hincome, hproducer, hburned]
  refine Agree.modify_bind (Agree.get_bind ?_)
  rw [h'.accounts_eq]
  refine Agree.ofExcept_bind (Both.refl _) (fun _ => ⟨rfl, h'⟩) ?_
  rintro accounts _ rfl
  refine Agree.modify_bind (Agree.bind (burn_alike (h'.withAccounts accounts) _ _) ?_)
  rintro ⟨⟩ ⟨⟩ t t' ⟨-, h''⟩
  exact burn_alike h'' _ _

theorem updateChain_alike (h : Alike strict a b) (header : BlockHeader)
    (powProof refinerSignature : Option (List UInt8)) {opening opening' : Opening}
    (hreward : opening'.reward = opening.reward) (tally : TxTally) (blockHash : Hash) :
    Lockstep (Alike strict) (updateChain header opening tally blockHash)
      (updateChain (header.withProofs powProof refinerSignature) opening' tally blockHash)
      a b := by
  unfold updateChain
  refine Agree.get_bind ?_
  rw [h.suggestedFee_eq, hreward]
  have h' : Alike strict (issue opening.reward.grossReward a)
      (issue opening.reward.grossReward b) :=
    h.mapChain (g := fun chain => { chain with
      totalIssued := MachineInt.saturatingAdd chain.totalIssued opening.reward.grossReward })
      fun _ signatures totals => ⟨signatures, totals, rfl⟩
  refine Agree.modify_bind (Agree.bind (burn_alike h' _ _) ?_)
  rintro ⟨⟩ ⟨⟩ t t' ⟨-, h''⟩
  refine Agree.modify_bind (Agree.pure ⟨rfl, ?_⟩)
  exact h''.mapChain (g := fun chain => { chain with
    currentHeight := header.height
    currentDifficulty := header.difficulty
    latestBlockHash := blockHash
    blockTimestamps :=
      ChainState.pruneBlockTimestamps (chain.blockTimestamps ++ [header.timestamp])
    suggestedFee := Emission.computeSuggestedFee tally.totalFeeSignal
      tally.successfulTransactionCount a.chain.suggestedFee })
    fun chain signatures totals => ⟨signatures, totals, by simp only [ChainState.withRecords]⟩

theorem payMaturedUnbonds_alike (h : Alike strict a b) :
    Lockstep (Alike strict) payMaturedUnbonds payMaturedUnbonds a b := by
  unfold payMaturedUnbonds
  refine Agree.get_bind (Agree.get_bind ?_)
  dsimp only
  rw [h.currentHeight_eq, h.refiners.maturedUnbonds_eq]
  refine Agree.ofExcept_bind (Both.refl _) (fun _ => ⟨rfl, h⟩) ?_
  rintro planned _ rfl
  refine Agree.get_bind ?_
  rw [h.accounts_eq]
  refine Agree.ofExcept_bind (Both.refl _) (fun _ => ⟨rfl, h⟩) fun _ _ _ => Agree.get_bind ?_
  obtain ⟨hset, hdrained⟩ := h.refiners.processMaturedUnbonds a.chain.currentHeight
  generalize a.refiners.processMaturedUnbonds a.chain.currentHeight = out at hset hdrained ⊢
  generalize b.refiners.processMaturedUnbonds a.chain.currentHeight = out' at hset hdrained ⊢
  obtain ⟨refiners, drained⟩ := out
  obtain ⟨refiners', drained'⟩ := out'
  obtain rfl : drained' = drained := hdrained
  refine Agree.modify_bind (Agree.foldlM ⟨rfl, h.withRefiners hset⟩ ?_)
  rintro ⟨⟩ ⟨⟩ t t' entry _ ⟨-, h'⟩
  refine Agree.get_bind ?_
  rw [h'.accounts_eq]
  refine Agree.ofExcept_bind (Both.refl _) (fun _ => ⟨rfl, h'⟩) ?_
  rintro accounts _ rfl
  exact Agree.modify_bind (Agree.pure ⟨rfl, h'.withAccounts accounts⟩)

theorem rankRefiners_alike (h : Alike strict a b) :
    Alike strict (rankRefiners a) (rankRefiners b) := by
  unfold rankRefiners
  dsimp only
  rw [h.currentHeight_eq, h.totalIssued_eq]
  have hr := h.refiners.activateMaturedRefiners a.chain.currentHeight
  split
  · exact h.withRefiners (hr.rerankRefiners _)
  · exact h.withRefiners hr

theorem computeStateRoot_alike (h : Alike strict a b) :
    computeStateRoot P b = computeStateRoot P a := by
  unfold computeStateRoot
  rw [h.accounts_eq, h.refiners.computeStateRoot_eq, h.totalIssued_eq, h.totalBurned_eq,
    h.currentHeight_eq]

theorem recordBlock_alike (h : Alike strict a b) (stateRoot : Hash)
    (receipt receipt' : BlockEconomicReceipt) (hreceipt : strict → receipt' = receipt) :
    Alike strict (recordBlock stateRoot receipt a) (recordBlock stateRoot receipt' b) := by
  obtain ⟨signatures, totals, hchain⟩ := h.chain
  refine ⟨⟨signatures, totals.recordReceipt receipt', ?_⟩, h.accounts_eq, h.refiners, ?_,
    h.blocks_eq⟩
  · unfold recordBlock
    dsimp only
    rw [hchain]
    rfl
  · intro hs
    unfold recordBlock
    dsimp only
    rw [h.chain_eq hs, hreceipt hs]

/-- On two nodes that are alike a block is stored by both or by neither. -/
theorem persistState_alike (h : Alike True a b) (writeOk : Bool) (block : Block)
    (receipt receipt' : BlockEconomicReceipt) {store store' : BlockchainStore}
    (hblocks : store'.blocks = store.blocks) :
    Both (fun s s' : BlockchainStore => s'.blocks = s.blocks)
      (persistState P writeOk block receipt a store)
      (persistState P writeOk block receipt' b store') := by
  have hfits : Codec.Borsh.fits b.refiners.activeSet = Codec.Borsh.fits a.refiners.activeSet := by
    obtain ⟨active, hperm, hr⟩ := h.refiners
    rw [hr]
    exact Codec.Borsh.fits_eq_of_perm hperm
  have hqueue : b.refiners.unbondingQueue = a.refiners.unbondingQueue := by
    obtain ⟨active, -, hr⟩ := h.refiners
    rw [hr]
  unfold persistState BlockchainStore.saveAppliedBlockAtomic BlockchainStore.serializable
  rw [h.chain_eq trivial, h.accounts_eq, h.refiners.allRefiners_eq, hfits, hqueue]
  refine Both.check_bind fun _ => Both.check_bind fun _ => Both.check_bind fun _ => ?_
  refine Both.check_bind fun _ => Both.check_bind fun _ => Both.check_bind fun _ => ?_
  exact Both.check_bind fun _ => Both.ok (congrArg (·.insert block.header.height block) hblocks)

theorem persist_alike (h : Alike strict a b) {env env' : Env} {block block' : Block}
    (receipt receipt' : BlockEconomicReceipt)
    (hsame : strict → env'.writeOk = env.writeOk ∧ block' = block) :
    Alike strict (persist P env block receipt a) (persist P env' block' receipt' b) := by
  have hstays (env : Env) (block : Block) (receipt : BlockEconomicReceipt) (node : OpolysNode) :
      ∃ store, persist P env block receipt node = { node with store } := by
    unfold persist
    split
    · exact ⟨node.store, rfl⟩
    · split
      · exact ⟨_, rfl⟩
      · exact ⟨node.store, rfl⟩
  have hblocks : strict → (persist P env' block' receipt' b).store.map BlockchainStore.blocks =
      (persist P env block receipt a).store.map BlockchainStore.blocks := by
    intro hs
    obtain ⟨hwrite, rfl⟩ := hsame hs
    have hsame := h.blocks_eq hs
    have htrue : Alike True a b :=
      ⟨h.chain, h.accounts_eq, h.refiners, fun _ => h.chain_eq hs, fun _ => hsame⟩
    unfold persist
    rw [hwrite]
    cases ha : a.store <;> cases hb : b.store <;> rw [ha, hb] at hsame
    · simp only [ha, hb]
    · cases hsame
    · cases hsame
    · rename_i store store'
      have hboth := persistState_alike (P := P) htrue env.writeOk block' receipt receipt'
        (Option.some.inj hsame)
      dsimp only
      generalize persistState P env.writeOk block' receipt a store = saved at hboth ⊢
      generalize persistState P env.writeOk block' receipt' b store' = saved' at hboth ⊢
      cases hboth with
      | ok hs => exact congrArg some hs
      | error message => simp only [ha, hb, hsame]
  obtain ⟨store, hstore⟩ := hstays env block receipt a
  obtain ⟨store', hstore'⟩ := hstays env' block' receipt' b
  rw [hstore, hstore'] at hblocks ⊢
  exact ⟨h.chain, h.accounts_eq, h.refiners, h.chain_eq, hblocks⟩

/-- Blocks are closed alike when their headers differ in the proofs only, they earn the
same reward, and the same part of the fees is burned and paid. -/
theorem closeBlock_alike (h : Alike strict a b) {env env' : Env} {block block' : Block}
    (powProof refinerSignature : Option (List UInt8))
    (hheader : block'.header = block.header.withProofs powProof refinerSignature)
    {opening opening' : Opening} (hreward : opening'.reward = opening.reward) (tally : TxTally)
    (hburned : (routeFees opening' tally.totalTransactionFees).ordinaryFeesBurned =
      (routeFees opening tally.totalTransactionFees).ordinaryFeesBurned)
    (hincome : (if opening'.kind = .refined then
        (routeFees opening' tally.totalTransactionFees).refinerFeeIncome else 0) =
      if opening.kind = .refined then
        (routeFees opening tally.totalTransactionFees).refinerFeeIncome else 0)
    (hsame : strict → env'.writeOk = env.writeOk ∧ block' = block ∧ opening' = opening) :
    Lockstep (Alike strict) (closeBlock P env block opening tally)
      (closeBlock P env' block' opening' tally) a b := by
  have hhash : computeBlockHash P block'.header = computeBlockHash P block.header := by
    rw [hheader]
    rfl
  unfold closeBlock
  dsimp only
  rw [hhash]
  refine Agree.bind (settleFees_alike h env env' (by rw [hheader]; rfl) tally hburned hincome) ?_
  rintro ⟨⟩ ⟨⟩ t t' ⟨-, h1⟩
  rw [hheader]
  refine Agree.bind (updateChain_alike h1 block.header powProof refinerSignature hreward tally _) ?_
  rintro ⟨⟩ ⟨⟩ t t' ⟨-, h2⟩
  refine Agree.bind (payMaturedUnbonds_alike h2) ?_
  rintro ⟨⟩ ⟨⟩ t t' ⟨-, h3⟩
  have h4 := rankRefiners_alike h3
  refine Agree.modify_bind (Agree.get_bind ?_)
  rw [computeStateRoot_alike h4]
  refine Agree.ofExcept_bind (Both.refl _) (fun _ => ⟨rfl, h4⟩) ?_
  rintro stateRoot _ rfl
  have h5 := recordBlock_alike h4 stateRoot
    (economicReceipt block.header (computeBlockHash P block.header) opening tally
      (routeFees opening tally.totalTransactionFees))
    (economicReceipt (block.header.withProofs powProof refinerSignature)
      (computeBlockHash P block.header) opening' tally
      (routeFees opening' tally.totalTransactionFees)) (by
        intro hs
        obtain ⟨-, -, rfl⟩ := hsame hs
        rfl)
  have h6 := persist_alike (P := P) h5
    (economicReceipt block.header (computeBlockHash P block.header) opening tally
      (routeFees opening tally.totalTransactionFees))
    (economicReceipt (block.header.withProofs powProof refinerSignature)
      (computeBlockHash P block.header) opening' tally
      (routeFees opening' tally.totalTransactionFees))
    (fun hs => ⟨(hsame hs).1, (hsame hs).2.1⟩)
  exact Agree.modify_bind (Agree.modify_bind (Agree.modify_bind (Agree.pure
    ⟨rfl, h6.chain, h6.accounts_eq, h6.refiners, h6.chain_eq, h6.blocks_eq⟩)))

end Ledger

/-! ## Whole blocks -/

/-- Two nodes that are alike do the same with a block, at whatever time each gets it, when both
find the same of its header and both write or both do not. -/
theorem applyBlock_alike {a b : OpolysNode} (h : Alike True a b) {env env' : Env} (block : Block)
    (hcheck : checkBlock P env' block a = checkBlock P env block a)
    (hwrite : env'.writeOk = env.writeOk) :
    Lockstep (Alike True) (applyBlock P env block) (applyBlock P env' block) a b := by
  unfold applyBlock executeTransactions
  refine Agree.bind (openBlock_alike h block hcheck) ?_
  rintro opening _ t t' ⟨rfl, h'⟩
  refine Agree.bind (foldlM_executeTransaction_alike h' block.header block.header.powProof
    block.header.refinerSignature {} block.transactions) ?_
  rintro tally _ t t' ⟨rfl, h''⟩
  exact closeBlock_alike h'' block.header.powProof block.header.refinerSignature rfl rfl tally
    rfl rfl fun _ => ⟨hwrite, rfl, rfl⟩

/-- Two nodes that are alike accept and reject the same blocks and stay alike. -/
theorem OpolysNode.step_alike {a b : OpolysNode} (h : Alike True a b) (call : Call) :
    b.outcome P call = a.outcome P call ∧ Alike True (a.step P call) (b.step P call) := by
  obtain ⟨houtcome, halike⟩ :=
    OpolysNode.step_of_lockstep (applyBlock_alike (P := P) h call.block rfl rfl)
  exact ⟨houtcome.symm, halike⟩

end Opolys
