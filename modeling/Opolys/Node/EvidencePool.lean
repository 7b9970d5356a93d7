import Opolys.Library.FrontQueue
import Opolys.Node.Assembly
import Opolys.Node.Equivocation
import Opolys.Node.Mined

/-!
# The pool of evidence

Evidence waits in a pool until a block carries it. Building a block does not take it out, whether
the block is finished or not, so that it cannot get lost, and what has waited longest goes first.

* `OpolysNode.carriesOffer` : a block that becomes part of the chain carries what the pool offers.
* `evidence_waits` : evidence is in the chain or has moved forward by a block's worth each time.
-/

namespace Opolys

variable {P : Primitives} {node : OpolysNode} {evidence : DoubleSignEvidence}

/-! ## What happens to a node -/

variable (P) in
/-- A node after something has happened to its pools. -/
def OpolysNode.happen (node : OpolysNode) : PoolEvent → OpolysNode
  | .attest attestation => node.hearAttestation P attestation
  | .mine env => (node.mineBlock P env).2
  | .refine env => (node.produceRefinerBlock P env).2
  | .call call => node.step P call

variable (P) in
/-- An event brings evidence into the chain. -/
def OpolysNode.includes (node : OpolysNode) (evidence : DoubleSignEvidence) : PoolEvent → Prop
  | .call call => node.accepts P call = true ∧ evidence ∈ call.block.slashEvidence
  | _ => False

variable (P) in
/-- A block that becomes part of the chain carries all the evidence that the node offers. -/
def OpolysNode.carriesOffer (node : OpolysNode) : PoolEvent → Bool
  | .call call => node.accepts P call &&
      node.pendingSlashEvidenceForBlock.all fun offered => call.block.slashEvidence.contains offered
  | _ => false

variable (P) in
/-- How often a block of a run takes up what the node offers. -/
def OpolysNode.roundsTaken : OpolysNode → List PoolEvent → ℕ
  | _, [] => 0
  | node, event :: events =>
    (if node.carriesOffer P event = true then 1 else 0) + roundsTaken (node.happen P event) events

/-! ## One event -/

theorem pendingSlashEvidence_hearAttestation (attestation : BlockAttestation) :
    (node.hearAttestation P attestation).pendingSlashEvidence = node.pendingSlashEvidence := by
  have hends := OpolysNode.acceptBlockAttestation_ends (P := P) attestation node
  unfold OpolysNode.hearAttestation
  cases hrun : OpolysNode.acceptBlockAttestation P attestation node with
  | ok stored node' =>
    obtain ⟨pendingAttestations, rfl⟩ := hends.ok hrun
    rfl
  | error message node' =>
    have hsame := hends.error hrun
    dsimp only
    rw [hsame]

/-- Building a block leaves the evidence in the pool. -/
theorem pendingSlashEvidence_assembleBody (env : AssemblyEnv) :
    (node.assembleBody env).2.pendingSlashEvidence = node.pendingSlashEvidence := rfl

theorem pendingSlashEvidence_mineBlock (env : AssemblyEnv) :
    (node.mineBlock P env).2.pendingSlashEvidence = node.pendingSlashEvidence := by
  rw [OpolysNode.mineBlock_eq, pendingSlashEvidence_assembleBody]

theorem pendingSlashEvidence_produceRefinerBlock (env : AssemblyEnv) :
    (node.produceRefinerBlock P env).2.pendingSlashEvidence = node.pendingSlashEvidence := by
  rw [OpolysNode.produceRefinerBlock_eq]
  split
  · exact pendingSlashEvidence_assembleBody env
  · rfl

/-- An accepted block takes its own evidence out of the pool, and adds what it has detected. -/
theorem pendingSlashEvidence_of_accepts {call : Call} (h : node.accepts P call = true) :
    ∃ detected, (node.step P call).pendingSlashEvidence =
      removeAcceptedSlashEvidence call.block.slashEvidence node.pendingSlashEvidence ++
        detected := by
  obtain ⟨st, hst⟩ := OpolysNode.accepted_of_accepts h
  have happend (items pending : List DoubleSignEvidence) :
      ∃ added, queueSlashEvidence items pending = pending ++ added := by
    induction items generalizing pending with
    | nil => exact ⟨[], (List.append_nil pending).symm⟩
    | cons item items ih =>
      unfold queueSlashEvidence
      rw [List.foldl_cons]
      by_cases hmem : item ∈ pending
      · rw [if_pos hmem]
        exact ih pending
      · rw [if_neg hmem]
        obtain ⟨added, hadded⟩ := ih (pending ++ [item])
        exact ⟨[item] ++ added, hadded.trans (List.append_assoc _ _ _)⟩
  rw [hst.pendingSlashEvidence_eq]
  exact happend _ _

/-- Evidence that an event does not bring into the chain stays, keeps its place or moves forward,
and moves forward by what a block may hold where the block takes up what the node offers. -/
theorem waits_happen (hmem : evidence ∈ node.pendingSlashEvidence) {event : PoolEvent}
    (hnot : ¬node.includes P evidence event) :
    evidence ∈ (node.happen P event).pendingSlashEvidence ∧
      (node.happen P event).pendingSlashEvidence.idxOf evidence +
          (if node.carriesOffer P event = true then maxSlashEvidencePerBlock else 0) ≤
        node.pendingSlashEvidence.idxOf evidence := by
  have hstays {node' : OpolysNode} (h : node'.pendingSlashEvidence = node.pendingSlashEvidence) :
      evidence ∈ node'.pendingSlashEvidence ∧
        node'.pendingSlashEvidence.idxOf evidence + 0 ≤
          node.pendingSlashEvidence.idxOf evidence := by
    rw [h]
    exact ⟨hmem, le_rfl⟩
  cases event with
  | attest attestation => exact hstays (pendingSlashEvidence_hearAttestation attestation)
  | mine env => exact hstays (pendingSlashEvidence_mineBlock env)
  | refine env => exact hstays (pendingSlashEvidence_produceRefinerBlock env)
  | call call =>
    have hboth : node.carriesOffer P (.call call) = true → node.accepts P call = true ∧
        (node.pendingSlashEvidenceForBlock.all fun offered =>
          call.block.slashEvidence.contains offered) = true :=
      (Bool.and_eq_true _ _).mp
    by_cases haccepts : node.accepts P call = true
    · have hother : evidence ∉ call.block.slashEvidence := fun h => hnot ⟨haccepts, h⟩
      have hkept : evidence ∈ removeAcceptedSlashEvidence call.block.slashEvidence
          node.pendingSlashEvidence := mem_removeAcceptedSlashEvidence.mpr ⟨hmem, hother⟩
      obtain ⟨detected, hpool⟩ := pendingSlashEvidence_of_accepts haccepts
      have hafter : (node.happen P (.call call)).pendingSlashEvidence =
          removeAcceptedSlashEvidence call.block.slashEvidence node.pendingSlashEvidence ++
            detected := hpool
      rw [hafter, List.idxOf_append_of_mem hkept]
      refine ⟨List.mem_append_left _ hkept, ?_⟩
      by_cases hcarries : node.carriesOffer P (.call call) = true
      · rw [if_pos hcarries]
        apply FrontQueue.idxOf_filter_add_le _ hkept
        intro offered hoffered
        have hcarried := List.all_eq_true.mp (hboth hcarries).2 offered hoffered
        rw [List.contains_eq_mem, decide_eq_true_eq] at hcarried
        simp [hcarried]
      · rw [if_neg hcarries]
        exact FrontQueue.idxOf_filter_le hkept
    · rw [if_neg fun hcarries => haccepts (hboth hcarries).1]
      exact hstays (pendingSlashEvidence_of_rejects (Bool.eq_false_of_not_eq_true haccepts))

/-! ## Runs -/

/-- Pooled evidence comes into the chain or waits. While it waits it is never overtaken, and every
block that takes up what the node offers brings it forward by as much evidence as a block holds. -/
theorem evidence_waits (P : Primitives) (node : OpolysNode) (events : List PoolEvent) :
    ∀ evidence ∈ node.pendingSlashEvidence,
      Transition.SomeStep (OpolysNode.happen P) (fun node event => node.includes P evidence event)
          node events ∨
        evidence ∈ (Transition.run (OpolysNode.happen P) node events).pendingSlashEvidence ∧
          (Transition.run (OpolysNode.happen P) node events).pendingSlashEvidence.idxOf evidence +
              maxSlashEvidencePerBlock * OpolysNode.roundsTaken P node events ≤
            node.pendingSlashEvidence.idxOf evidence := by
  induction events generalizing node with
  | nil => exact fun evidence hmem => Or.inr ⟨hmem, le_rfl⟩
  | cons event events ih =>
    intro evidence hmem
    by_cases hincluded : node.includes P evidence event
    · exact Or.inl (Or.inl hincluded)
    · obtain ⟨hstays, hplace⟩ := waits_happen hmem hincluded
      rcases ih (node.happen P event) evidence hstays with hlater | ⟨hend, hlast⟩
      · exact Or.inl (Or.inr hlater)
      · refine Or.inr ⟨hend, ?_⟩
        rw [OpolysNode.roundsTaken, Nat.mul_add]
        rw [Transition.run_cons]
        split at hplace
        · rename_i htaken
          rw [if_pos htaken]
          omega
        · rename_i htaken
          rw [if_neg htaken]
          omega

namespace Reference

/-- Evidence that waits in a pool. -/
def waiting : DoubleSignEvidence where
  producer := ObjectId.zero
  producerPubkey := []
  height := 1
  hashA := Hash.zero
  signatureA := []
  hashB := Hash.zero
  signatureB := []

end Reference

open Reference

theorem evidence_waits_of_reference :
    waiting ∈ (Transition.run (OpolysNode.happen zeroPrimitives)
      { libraryMiner with pendingSlashEvidence := [waiting] }
        [.mine miningEnv, .refine miningEnv]).pendingSlashEvidence := by
  have hpooled : waiting ∈ OpolysNode.pendingSlashEvidence
      { libraryMiner with pendingSlashEvidence := [waiting] } := List.mem_singleton_self waiting
  rcases evidence_waits zeroPrimitives { libraryMiner with pendingSlashEvidence := [waiting] }
    [.mine miningEnv, .refine miningEnv] waiting hpooled with hincluded | hwaits
  · rcases hincluded with hmined | hrefined | hend
    · exact hmined.elim
    · exact hrefined.elim
    · exact hend.elim
  · exact hwaits.1

end Opolys
