import Opolys.Consensus.Limits
import Opolys.Node.Applied
import Opolys.Node.Produce

/-!
# Candidates and their validation

A candidate carries what its own node expects of the next block: height, parent, state root,
difficulty, a time that is late enough, and the roots of its body. What is left to validate
are the limits of the body, the proof and the clock.

* `checkBlock_candidate` : when a candidate with a proof passes validation.
-/

namespace Opolys

open Effect (bind_eq_ok check_bind_eq_ok)
open MachineInt (saturatingAdd)

variable {P : Primitives}

/-- A block with other proof fields. -/
def Block.withProofs (powProof refinerSignature : Option (List UInt8)) (block : Block) : Block :=
  { block with header := { block.header with powProof, refinerSignature } }

theorem Block.RootsMatch.withProofs {block : Block} (h : block.RootsMatch P)
    (powProof refinerSignature : Option (List UInt8)) :
    (block.withProofs powProof refinerSignature).RootsMatch P :=
  ⟨h.transactions, h.evidence, h.attestations, h.ceremony⟩

namespace OpolysNode

variable {node : OpolysNode} {nowSecs : UInt64} {body : CandidateBody} {block : Block}

/-- What a node puts into a candidate. -/
theorem candidateBlock_eq_ok (h : node.candidateBlock P nowSecs body = .ok block) :
    block.RootsMatch P ∧ block.header.version = blockVersion ∧
      block.header.height = node.chain.currentHeight + 1 ∧
      block.header.previousHash = node.chain.latestBlockHash ∧
      block.header.stateRoot = node.chain.stateRoot ∧
      block.header.timestamp = node.candidateTimestamp nowSecs ∧
      block.header.difficulty = node.expectedDifficulty ∧
      block.header.producer = node.minerId ∧ block.header.extensionRoot = none ∧
      block.header.refinerSignature = none ∧ block.transactions = body.transactions ∧
      block.slashEvidence = body.slashEvidence ∧ block.attestations = body.attestations ∧
      block.genesisCeremony = none := by
  unfold candidateBlock at h
  obtain ⟨hroots, hblock⟩ := setBodyRoots_eq_ok h
  refine ⟨hroots, ?_⟩
  rw [hblock]
  exact ⟨rfl, rfl, rfl, rfl, rfl, rfl, rfl, rfl, rfl, rfl, rfl, rfl, rfl⟩

/-- At another time a node builds the same candidate with another timestamp. -/
theorem candidateBlock_retimed (h : node.candidateBlock P nowSecs body = .ok block)
    {nowSecs' : UInt64} {block' : Block} (h' : node.candidateBlock P nowSecs' body = .ok block') :
    block'.header = { block.header with timestamp := block'.header.timestamp } := by
  unfold candidateBlock at h h'
  obtain ⟨hroots, hblock⟩ := setBodyRoots_eq_ok h
  obtain ⟨hroots', hblock'⟩ := setBodyRoots_eq_ok h'
  obtain ⟨header, transactions, slashEvidence, attestations, ceremony⟩ := block
  obtain ⟨header', transactions', slashEvidence', attestations', ceremony'⟩ := block'
  cases header
  cases header'
  cases hblock
  cases hblock'
  have htransactions := hroots.transactions.symm.trans hroots'.transactions
  have hevidence := Except.ok.inj (hroots.evidence.symm.trans hroots'.evidence)
  have hattestations := Except.ok.inj (hroots.attestations.symm.trans hroots'.attestations)
  have hceremony := Except.ok.inj (hroots.ceremony.symm.trans hroots'.ceremony)
  dsimp only at htransactions hevidence hattestations hceremony ⊢
  rw [htransactions, hevidence, hattestations, hceremony]

/-- The time of a candidate is late enough for its parent. -/
theorem le_candidateTimestamp (node : OpolysNode) (nowSecs : UInt64) :
    saturatingAdd (node.chain.blockTimestamps.getLast?.getD 0) minimumBlockTimestampDeltaSecs ≤
      node.candidateTimestamp nowSecs := by
  rw [UInt64.le_iff_toNat_le, candidateTimestamp, MachineInt.toNat_max]
  exact Nat.le_max_right _ _

end OpolysNode

/-- A candidate with a proof passes validation by its own node exactly when its body keeps to
the limits, the proof is one of a kind and in order, and the clock has not fallen behind. -/
theorem checkBlock_candidate {node : OpolysNode} {nowSecs : UInt64} {body : CandidateBody}
    {block : Block} (h : node.candidateBlock P nowSecs body = .ok block) (env : Env)
    (powProof refinerSignature : Option (List UInt8)) (kind : BlockProductionKind) :
    checkBlock P env (block.withProofs powProof refinerSignature) node = .ok kind ↔
      (block.withProofs powProof refinerSignature).header.productionKind = some kind ∧
        node.candidateTimestamp nowSecs ≤ saturatingAdd env.nowSecs maxFutureBlockTimeSecs ∧
        (block.withProofs powProof refinerSignature).WithinLimits ∧
        (node.chain.currentHeight + 1 > 0 →
          checkProof P (block.withProofs powProof refinerSignature).header = .ok ()) := by
  obtain ⟨hroots, hversion, hheight, hparent, hroot, htime, hdifficulty, -⟩ :=
    OpolysNode.candidateBlock_eq_ok h
  have hroots := hroots.withProofs powProof refinerSignature
  have hlate := OpolysNode.le_candidateTimestamp node nowSecs
  rw [← htime] at hlate ⊢
  have hheader : checkHeader (block.withProofs powProof refinerSignature).header
      (node.chain.currentHeight + 1) node.chain.latestBlockHash
      (node.chain.blockTimestamps.getLast?.getD 0) node.expectedDifficulty env.nowSecs = .ok () ↔
        block.header.timestamp ≤ saturatingAdd env.nowSecs maxFutureBlockTimeSecs := by
    rw [checkHeader_eq_ok]
    exact ⟨fun hall => hall.2.2.2.2.1,
      fun hclock => ⟨hversion, hheight, hparent, fun _ => hlate, hclock, hdifficulty⟩⟩
  have hroot : (block.withProofs powProof refinerSignature).header.stateRoot =
    node.chain.stateRoot := hroot
  generalize block.withProofs powProof refinerSignature = proved at hroots hheader hroot ⊢
  have hvalid : validateBlock P proved (node.chain.currentHeight + 1) node.chain.latestBlockHash
      (node.chain.blockTimestamps.getLast?.getD 0) node.expectedDifficulty env.nowSecs = .ok () ↔
        block.header.timestamp ≤ saturatingAdd env.nowSecs maxFutureBlockTimeSecs ∧
          proved.WithinLimits ∧
          (node.chain.currentHeight + 1 > 0 → checkProof P proved.header = .ok ()) := by
    rw [validateBlock_eq_ok, hheader]
    constructor
    · intro h
      exact ⟨h.1, h.2.1.1, h.2.2⟩
    · intro h
      exact ⟨h.1, ⟨h.2.1, hroots⟩, h.2.2⟩
  unfold checkBlock
  dsimp only
  rw [bind_eq_ok]
  constructor
  · rintro ⟨⟨⟩, hval, hrest⟩
    rw [mapError_eq_ok, hvalid] at hval
    refine ⟨?_, hval⟩
    cases hkind : proved.header.productionKind with
    | none =>
      rw [hkind] at hrest
      cases hrest
    | some kind' =>
      rw [hkind] at hrest
      rw [check_bind_eq_ok] at hrest
      obtain ⟨-, hrest⟩ := hrest
      cases hrest
      rfl
  · rintro ⟨hkind, hval⟩
    refine ⟨(), mapError_eq_ok.mpr (hvalid.mpr hval), ?_⟩
    rw [hkind]
    dsimp only
    rw [check_bind_eq_ok]
    exact ⟨hroot, rfl⟩

end Opolys
