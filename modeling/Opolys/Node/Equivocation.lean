import Opolys.Node.Refining
import Opolys.Node.Slashing

/-!
# Two blocks of one producer

A refiner that signs two blocks of one height gives evidence against itself, if somebody sees
both. A node looks for such pairs while it applies a block, after its checks. But the first of
two blocks that is accepted moves the tip past their height, and from then on the second fails
the filters of the network and the height check.

* `receive` : what a block does that comes over the network.
* `onlyFirst` : of two blocks of one height, only the one that is accepted does anything.
* `not_detected_of_unsuspecting` : a node that has noted nothing of a producer above its tip, and
  that nobody gives evidence, never detects one.
* `detected_iff` : where evidence against a producer comes from, when two of his blocks arrive.
-/

namespace Opolys

open Effect
open Codec (FixedBytes)

variable (P : Primitives)

/-! ## Receiving blocks -/

/-- How a block comes to a node. -/
inductive Channel
  /-- A peer gossips it. -/
  | gossip
  /-- A peer sends it in answer to a request for blocks. -/
  | sync
  /-- The node has produced it, or has been handed it by a miner. -/
  | submitted
deriving DecidableEq

/-- A block that reaches a node. A peer that is not verified or sends too much is not heard. -/
structure Delivery where
  channel : Channel
  call : Call

/-- How far above the tip the height of a gossiped block may be. -/
def maxHeightLookahead : UInt64 := 10

/-- Look at the proof of work of a gossiped block. A target of 0 is left to `applyBlock`. -/
def powPrecheck (header : BlockHeader) : Bool :=
  match header.powProof with
  | none => true
  | some _ =>
    let target := Emission.difficultyToTarget header.difficulty
    if target > 0 then
      match computePowHashValue P header with
      | some hashValue => hashValue ≤ target
      | none => false
    else true

/-- Whether a block passes the filters of its channel. -/
def OpolysNode.admits (node : OpolysNode) (delivery : Delivery) : Bool :=
  let block := delivery.call.block
  match delivery.channel with
  | .gossip =>
    blockSize block ≤ maxBlockSizeBytes && node.chain.currentHeight < block.header.height &&
      block.header.height ≤ node.chain.currentHeight + maxHeightLookahead &&
      powPrecheck P block.header
  | .sync =>
    blockSize block ≤ maxBlockSizeBytes && block.header.height = node.chain.currentHeight + 1
  | .submitted => true

/-- The node after a block has reached it. -/
def receive (node : OpolysNode) (delivery : Delivery) : OpolysNode :=
  if node.admits P delivery then node.step P delivery.call else node

/-- Whether a block that reaches a node becomes part of its chain. -/
def OpolysNode.takes (node : OpolysNode) (delivery : Delivery) : Bool :=
  node.admits P delivery && node.accepts P delivery.call

/-! ## Evidence on record -/

/-- Genuine evidence against a producer. -/
def Implicates (producer : ObjectId) (evidence : DoubleSignEvidence) : Prop :=
  evidence.producer = producer ∧ verifySlashEvidence P evidence = true

/-- The evidence that a block brings onto the chain. -/
def broughtBy (node : OpolysNode) (delivery : Delivery) : List DoubleSignEvidence :=
  if node.takes P delivery then delivery.call.block.slashEvidence else []

/-- The evidence in the accepted blocks of a run. -/
def includedEvidence (node : OpolysNode) (deliveries : List Delivery) : List DoubleSignEvidence :=
  (Transition.trace (receive P) (broughtBy P) node deliveries).flatten

/-- In the end the evidence is in the pool or on the chain. -/
def OnRecord (node : OpolysNode) (deliveries : List Delivery) (evidence : DoubleSignEvidence) :
    Prop :=
  evidence ∈ (Transition.run (receive P) node deliveries).pendingSlashEvidence ∨
    evidence ∈ includedEvidence P node deliveries

/-- In the end there is evidence against the producer. -/
def Detected (producer : ObjectId) (node : OpolysNode) (deliveries : List Delivery) : Prop :=
  ∃ evidence, Implicates P producer evidence ∧ OnRecord P node deliveries evidence

/-- A block becomes part of the chain that carries evidence against the producer. -/
def Tells (producer : ObjectId) (node : OpolysNode) (delivery : Delivery) : Prop :=
  node.takes P delivery = true ∧
    ∃ evidence ∈ delivery.call.block.slashEvidence, Implicates P producer evidence

/-- A block of the producer becomes part of the chain although the node has noted his signature of
another block of its height, and both signatures verify under the key that he has registered. -/
def Caught (producer : ObjectId) (node : OpolysNode) (delivery : Delivery) : Prop :=
  let header := delivery.call.block.header
  node.takes P delivery = true ∧ header.producer = producer ∧
    ∃ (hash : Hash) (sig sig' : List UInt8) (publicKey : FixedBytes 32),
      node.chain.producerSignatures[(header.height, producer)]? = some (hash, sig) ∧
        header.refinerSignature = some sig' ∧ hash ≠ computeBlockHash P header ∧
        node.accounts.keyOf producer = some publicKey.bytes ∧
        ed25519PublicKeyToObjectId P publicKey = producer ∧
        verifyEd25519 P publicKey.bytes (refinerBlockSigningPayload hash) sig = true ∧
        verifyEd25519 P publicKey.bytes
          (refinerBlockSigningPayload (computeBlockHash P header)) sig' = true

/-- Two different refined blocks of one height and producer, both of which the selected
producer has signed and both of which extend the chain, reach the node. -/
structure Equivocation (node : OpolysNode) (deliveries : List Delivery) (b1 b2 : Block) : Prop where
  different : b1 ≠ b2
  height : b1.header.height = b2.header.height
  producer : b1.header.producer = b2.header.producer
  refined : b1.header.isRefined = true ∧ b2.header.isRefined = true
  selected : ∃ r, node.refiners.selectBlockProducer (selectionSeed node.chain.latestBlockHash) =
    some r ∧ r.objectId = b1.header.producer
  signed : verifyRefinerSignature P node.accounts b1.header = .ok () ∧
    verifyRefinerSignature P node.accounts b2.header = .ok ()
  extends1 : b1.header.height = node.chain.currentHeight + 1 ∧
    b1.header.previousHash = node.chain.latestBlockHash
  extends2 : b2.header.height = node.chain.currentHeight + 1 ∧
    b2.header.previousHash = node.chain.latestBlockHash
  received1 : ∃ delivery ∈ deliveries, delivery.call.block = b1
  received2 : ∃ delivery ∈ deliveries, delivery.call.block = b2

/-- From when one of two blocks has become part of the chain, neither of them changes anything. -/
def OnlyFirst (node : OpolysNode) (deliveries : List Delivery) (b1 b2 : Block) : Prop :=
  ∀ before first between second after,
    deliveries = before ++ first :: (between ++ second :: after) →
    first.call.block ∈ [b1, b2] → second.call.block ∈ [b1, b2] →
    (Transition.run (receive P) node before).takes P first = true →
    let node' := Transition.run (receive P) node (before ++ first :: between)
    receive P node' second = node'

/-- A node that has noted nothing of a producer above its tip, that has no evidence against him and
is given none. Its books are closed, the supply has room for the rewards on the way, and neither the
heights nor the lengths of its records run out. -/
structure Unsuspecting (producer : ObjectId) (node : OpolysNode) (deliveries : List Delivery) :
    Prop where
  unnoted : ∀ height, node.chain.currentHeight < height →
    node.chain.producerSignatures[(height, producer)]? = none
  pooled : ∀ evidence ∈ node.pendingSlashEvidence, ¬Implicates P producer evidence
  carried : ∀ delivery ∈ deliveries, ∀ evidence ∈ delivery.call.block.slashEvidence,
    ¬Implicates P producer evidence
  books : node.Conserved
  supply : Transition.EveryStep (receive P)
    (fun node delivery => SupplyRoom P node delivery.call) node deliveries
  heights : node.chain.currentHeight.toNat + deliveries.length < 2 ^ 64
  records : ∃ n, node.ledger.EncodableUpTo n ∧
    n + (deliveries.map fun delivery => delivery.call.block.transactions.length).sum < 2 ^ 32

variable {P}

theorem mem_queueSlashEvidence {items pending : List DoubleSignEvidence}
    {evidence : DoubleSignEvidence} :
    evidence ∈ queueSlashEvidence items pending ↔ evidence ∈ items ∨ evidence ∈ pending := by
  unfold queueSlashEvidence
  induction items generalizing pending with
  | nil => simp
  | cons item items ih =>
    rw [List.foldl_cons, ih, List.mem_cons]
    split
    · rename_i hmem
      refine ⟨fun h => h.imp_left Or.inr, ?_⟩
      rintro ((rfl | h) | h)
      · exact Or.inr hmem
      · exact Or.inl h
      · exact Or.inr h
    · rw [List.mem_append, List.mem_singleton, or_comm (a := evidence ∈ pending), ← or_assoc,
        or_comm (a := evidence ∈ items)]

theorem mem_removeAcceptedSlashEvidence {accepted pending : List DoubleSignEvidence}
    {evidence : DoubleSignEvidence} :
    evidence ∈ removeAcceptedSlashEvidence accepted pending ↔
      evidence ∈ pending ∧ evidence ∉ accepted := by
  unfold removeAcceptedSlashEvidence
  rw [List.mem_filter, decide_eq_true_iff]

/-- A rejected block leaves the pool of evidence. -/
theorem pendingSlashEvidence_of_rejects {node : OpolysNode} {call : Call}
    (h : node.accepts P call = false) :
    (node.step P call).pendingSlashEvidence = node.pendingSlashEvidence := by
  obtain ⟨message, hrun⟩ := OpolysNode.rejects_eq h
  rcases (applyBlock_rejects call.env call.block node).error hrun with
    hsame | ⟨kind, -, ⟨message, hattest⟩ | ⟨finalized, hattest, hstopped | ⟨-, hfunds | hmoved⟩⟩⟩
  · rw [hsame]
  · rw [(processAttestations_votes call.block node).error hattest]
  · rw [hstopped, (processAttestations_votes call.block node).ok hattest]
  · rw [hfunds, (processAttestations_votes call.block node).ok hattest]
    rfl
  · rw [hmoved, (processAttestations_votes call.block node).ok hattest]
    rfl

variable {node : OpolysNode} {delivery : Delivery} {evidence : DoubleSignEvidence}

/-- A block becomes part of the chain when it passes the filters and is accepted. -/
theorem accepted_of_takes (h : node.takes P delivery = true) :
    ∃ st, Accepted P delivery.call.env delivery.call.block node (receive P node delivery) st := by
  unfold OpolysNode.takes at h
  rw [Bool.and_eq_true] at h
  unfold receive
  rw [if_pos h.1]
  exact OpolysNode.accepted_of_accepts h.2

/-- Otherwise it does not get to the node, or is rejected there. -/
theorem receive_of_not_takes (h : node.takes P delivery = false) :
    receive P node delivery = node ∨
      node.accepts P delivery.call = false ∧
        receive P node delivery = node.step P delivery.call := by
  unfold OpolysNode.takes at h
  unfold receive
  cases hadmits : node.admits P delivery with
  | false => exact Or.inl rfl
  | true =>
    rw [hadmits, Bool.true_and] at h
    exact Or.inr ⟨h, rfl⟩

/-- The pool after a block that does not become part of the chain. -/
theorem pendingSlashEvidence_of_not_takes (h : node.takes P delivery = false) :
    (receive P node delivery).pendingSlashEvidence = node.pendingSlashEvidence := by
  rcases receive_of_not_takes h with hsame | ⟨hrejects, hstep⟩
  · rw [hsame]
  · rw [hstep, pendingSlashEvidence_of_rejects hrejects]

/-- The pool after a block that becomes part of the chain. -/
theorem mem_pendingSlashEvidence_of_takes (h : node.takes P delivery = true) :
    evidence ∈ (receive P node delivery).pendingSlashEvidence ↔
      evidence ∈ doubleSigned P node.accounts node.chain.producerSignatures
          delivery.call.block.header ∨
        evidence ∈ node.pendingSlashEvidence ∧
          evidence ∉ delivery.call.block.slashEvidence := by
  obtain ⟨st, hst⟩ := accepted_of_takes h
  rw [hst.pendingSlashEvidence_eq, mem_queueSlashEvidence, mem_removeAcceptedSlashEvidence]

/-- Evidence comes onto the record with a block, and stays. -/
theorem onRecord_iff {deliveries : List Delivery} :
    OnRecord P node deliveries evidence ↔ evidence ∈ node.pendingSlashEvidence ∨
      Transition.SomeStep (receive P) (fun node delivery => node.takes P delivery = true ∧
        (evidence ∈ delivery.call.block.slashEvidence ∨
          evidence ∈ doubleSigned P node.accounts node.chain.producerSignatures
            delivery.call.block.header)) node deliveries := by
  induction deliveries generalizing node with
  | nil => exact or_congr_right ⟨nofun, False.elim⟩
  | cons delivery deliveries ih =>
    have hcons : OnRecord P node (delivery :: deliveries) evidence ↔
        evidence ∈ broughtBy P node delivery ∨
          OnRecord P (receive P node delivery) deliveries evidence := by
      unfold OnRecord includedEvidence
      rw [Transition.trace, List.flatten_cons, List.mem_append, Transition.run_cons]
      exact or_left_comm
    rw [hcons, ih, Transition.SomeStep]
    unfold broughtBy
    cases htakes : node.takes P delivery with
    | false =>
      rw [pendingSlashEvidence_of_not_takes htakes]
      simp
    | true =>
      rw [mem_pendingSlashEvidence_of_takes htakes, if_pos rfl]
      by_cases hbrought : evidence ∈ delivery.call.block.slashEvidence
      · simp [hbrought]
      · simp only [hbrought, not_false_eq_true, and_true, false_or, true_and]
        exact or_assoc.trans or_left_comm

/-- A signed block is a refined one. -/
theorem BlockHeader.kind_of_signed {header : BlockHeader} {kind : BlockProductionKind}
    {sig : List UInt8} (h : header.productionKind = some kind)
    (hsig : header.refinerSignature = some sig) : kind = .refined := by
  unfold BlockHeader.productionKind at h
  rw [hsig] at h
  cases hzero : decide (header.height = 0) <;> cases hpow : header.powProof.isSome <;>
    rw [hzero, hpow] at h <;> cases h
  rfl

/-- A block that becomes part of the chain is the next one, and the tip moves to it. -/
theorem height_of_takes (h : node.takes P delivery = true) :
    (receive P node delivery).chain.currentHeight = delivery.call.block.header.height ∧
      delivery.call.block.header.height = node.chain.currentHeight + 1 := by
  obtain ⟨st, hst⟩ := accepted_of_takes h
  exact ⟨congrArg Tip.height hst.tip_eq, (checkBlock_header hst.check).1⟩

/-- A block is caught when the detection builds genuine evidence from it. -/
theorem caught_iff {producer : ObjectId} : Caught P producer node delivery ↔
    node.takes P delivery = true ∧ ∃ evidence ∈ doubleSigned P node.accounts
      node.chain.producerSignatures delivery.call.block.header, Implicates P producer evidence := by
  unfold Caught Implicates
  dsimp only
  refine and_congr_right fun htakes => ?_
  obtain ⟨st, hst⟩ := accepted_of_takes htakes
  constructor
  · rintro ⟨rfl, hash, sig, sig', publicKey, hnote, hsig, hne, hkey, hid, hA, hB⟩
    obtain ⟨hkind, hnonzero, -⟩ := checkBlock_eq_ok hst.check
    have hrefined := BlockHeader.kind_of_signed hkind hsig
    refine ⟨_, mem_doubleSigned.mpr ⟨hnonzero (by rw [hrefined]; nofun), hash, sig, sig', hnote,
      hsig, hne, rfl⟩, rfl, verifySlashEvidence_eq_true.mpr ⟨hne, publicKey, ?_, hid, hA, hB⟩⟩
    change (node.accounts.keyOf delivery.call.block.header.producer).getD [] = publicKey.bytes
    rw [hkey, Option.getD_some]
  · rintro ⟨evidence, hmem, hproducer, hgenuine⟩
    obtain ⟨-, hash, sig, sig', hnote, hsig, hne, rfl⟩ := mem_doubleSigned.mp hmem
    obtain ⟨-, publicKey, hkey, hid, hA, hB⟩ := verifySlashEvidence_eq_true.mp hgenuine
    dsimp only at hproducer hkey hid hA hB
    rw [hproducer] at hnote hkey hid
    refine ⟨hproducer, hash, sig, sig', publicKey, hnote, hsig, hne, ?_, hid, hA, hB⟩
    change (node.accounts.keyOf producer).getD [] = publicKey.bytes at hkey
    cases hregistered : node.accounts.keyOf producer with
    | none =>
      rw [hregistered, Option.getD_none] at hkey
      have hlength := publicKey.length_bytes
      rw [← hkey] at hlength
      cases hlength
    | some key =>
      rw [hregistered, Option.getD_some] at hkey
      rw [hkey]

/-- In the end there is evidence against a producer if and only if there was some in the pool, a
block has brought some, or a block of his has been compared with a note. -/
theorem detected_iff_of_run (P : Primitives) (producer : ObjectId) (node : OpolysNode)
    (deliveries : List Delivery) :
    Detected P producer node deliveries ↔
      (∃ evidence ∈ node.pendingSlashEvidence, Implicates P producer evidence) ∨
        Transition.SomeStep (receive P) (Tells P producer) node deliveries ∨
        Transition.SomeStep (receive P) (Caught P producer) node deliveries := by
  have hshown (node : OpolysNode) (delivery : Delivery) :
      (∃ evidence, Implicates P producer evidence ∧ node.takes P delivery = true ∧
        (evidence ∈ delivery.call.block.slashEvidence ∨
          evidence ∈ doubleSigned P node.accounts node.chain.producerSignatures
            delivery.call.block.header)) ↔
        Tells P producer node delivery ∨ Caught P producer node delivery := by
    rw [caught_iff]
    unfold Tells
    constructor
    · rintro ⟨evidence, himplicates, htakes, hbrought | hshown⟩
      · exact Or.inl ⟨htakes, evidence, hbrought, himplicates⟩
      · exact Or.inr ⟨htakes, evidence, hshown, himplicates⟩
    · rintro (⟨htakes, evidence, hbrought, himplicates⟩ | ⟨htakes, evidence, hshown, himplicates⟩)
      · exact ⟨evidence, himplicates, htakes, Or.inl hbrought⟩
      · exact ⟨evidence, himplicates, htakes, Or.inr hshown⟩
  rw [← Transition.someStep_or, ← Transition.someStep_congr hshown, Transition.someStep_exists]
  unfold Detected
  rw [← exists_or]
  refine exists_congr fun evidence => ?_
  rw [Transition.someStep_and_left, onRecord_iff, and_or_left, and_comm]

/-! ## The second block -/

/-- A block that is not the next one changes nothing. -/
theorem receive_of_height_ne
    (h : delivery.call.block.header.height ≠ node.chain.currentHeight + 1) :
    receive P node delivery = node := by
  unfold receive
  split
  · cases haccepts : node.accepts P delivery.call with
    | true =>
      obtain ⟨st, hst⟩ := OpolysNode.accepted_of_accepts haccepts
      exact absurd (checkBlock_header hst.check).1 h
    | false =>
      obtain ⟨message, hrun⟩ := OpolysNode.rejects_eq haccepts
      rcases (applyBlock_rejects delivery.call.env delivery.call.block node).error hrun with
        hsame | ⟨kind, hcheck, -⟩
      · exact hsame
      · exact absurd (checkBlock_header hcheck).1 h
  · rfl

/-- The tip moves up by one height or not at all, while there are heights left. -/
theorem currentHeight_receive (node : OpolysNode) (delivery : Delivery)
    (h : node.chain.currentHeight.toNat + 1 < 2 ^ 64) :
    node.chain.currentHeight.toNat ≤ (receive P node delivery).chain.currentHeight.toNat ∧
      (receive P node delivery).chain.currentHeight.toNat ≤
        node.chain.currentHeight.toNat + 1 := by
  have hone : (1 : UInt64).toNat = 1 := rfl
  unfold receive
  split
  · rcases OpolysNode.tip_step (P := P) node delivery.call with hsame | ⟨hheight, hmoved⟩
    · have hkept : (node.step P delivery.call).chain.currentHeight = node.chain.currentHeight :=
        congrArg Tip.height hsame
      rw [hkept]
      exact ⟨le_rfl, Nat.le_succ _⟩
    · have hnext : (node.step P delivery.call).chain.currentHeight =
          node.chain.currentHeight + 1 := (congrArg Tip.height hmoved).trans hheight
      rw [hnext, MachineInt.toNat_add_of_lt (by omega), hone]
      exact ⟨Nat.le_succ _, le_rfl⟩
  · exact ⟨le_rfl, Nat.le_succ _⟩

theorem currentHeight_run (node : OpolysNode) (deliveries : List Delivery)
    (h : node.chain.currentHeight.toNat + deliveries.length < 2 ^ 64) :
    let node' := Transition.run (receive P) node deliveries
    node.chain.currentHeight.toNat ≤ node'.chain.currentHeight.toNat ∧
      node'.chain.currentHeight.toNat ≤ node.chain.currentHeight.toNat + deliveries.length := by
  induction deliveries generalizing node with
  | nil => exact ⟨le_rfl, le_rfl⟩
  | cons delivery deliveries ih =>
    rw [List.length_cons] at h ⊢
    have hone := currentHeight_receive (P := P) node delivery (by omega)
    have hrest := ih (receive P node delivery) (by omega)
    dsimp only at hrest ⊢
    rw [Transition.run_cons]
    omega

/-- Of two blocks of one height, only the one that is accepted does anything. -/
theorem onlyFirst {deliveries : List Delivery} {b1 b2 : Block}
    (hsame : b1.header.height = b2.header.height)
    (hroom : node.chain.currentHeight.toNat + deliveries.length < 2 ^ 64) :
    OnlyFirst P node deliveries b1 b2 := by
  rintro before first between second after rfl hfirst hsecond htakes node'
  refine receive_of_height_ne ?_
  have hone : (1 : UInt64).toNat = 1 := rfl
  have hheights : second.call.block.header.height = first.call.block.header.height := by
    simp only [List.mem_cons, List.not_mem_nil, or_false] at hfirst hsecond
    rcases hfirst with hfirst | hfirst <;> rcases hsecond with hsecond | hsecond <;>
      rw [hfirst, hsecond]
    · exact hsame.symm
    · exact hsame
  simp only [List.length_append, List.length_cons] at hroom
  have hbefore := currentHeight_run (P := P) node before (by omega)
  have hnode' : node' = Transition.run (receive P)
      (receive P (Transition.run (receive P) node before) first) between := by
    unfold node'
    rw [Transition.run_append, Transition.run_cons]
  dsimp only at hbefore
  generalize Transition.run (receive P) node before = node1 at htakes hbefore hnode'
  obtain ⟨htip, hnext⟩ := height_of_takes htakes
  have hreached : (receive P node1 first).chain.currentHeight.toNat =
      node1.chain.currentHeight.toNat + 1 := by
    rw [htip, hnext, MachineInt.toNat_add_of_lt (by omega), hone]
  have hbetween := currentHeight_run (P := P) (receive P node1 first) between (by omega)
  dsimp only at hbetween
  rw [← hnode'] at hbetween
  rw [hheights, ← htip]
  intro hagain
  have hnat := congrArg UInt64.toNat hagain
  rw [MachineInt.toNat_add_of_lt (by omega), hone] at hnat
  omega

/-! ## Nobody notices -/

/-- A signed block pays no reward. -/
theorem grossReward_of_signed {header : BlockHeader} {kind : BlockProductionKind}
    {sig : List UInt8} (hkind : header.productionKind = some kind)
    (hsig : header.refinerSignature = some sig) :
    (node.rewardOf P kind header).grossReward.toNat = 0 := by
  obtain rfl := BlockHeader.kind_of_signed hkind hsig
  rfl

/-- With closed books, a block that is rejected has not been noted. -/
theorem producerSignatures_of_rejects {call : Call} {n : ℕ} (hcons : node.Conserved)
    (hrecords : node.ledger.EncodableUpTo n) (hroom : n + call.block.transactions.length < 2 ^ 32)
    (h : node.accepts P call = false) :
    (node.step P call).chain.producerSignatures = node.chain.producerSignatures := by
  cases hsig : call.block.header.refinerSignature with
  | none =>
    obtain ⟨message, hrun⟩ := OpolysNode.rejects_eq h
    rcases (applyBlock_rejects call.env call.block node).error hrun with
      hsame | ⟨kind, -, ⟨message, hattest⟩ | ⟨finalized, hattest, hstopped | ⟨-, hmore⟩⟩⟩
    · rw [hsame]
    · rw [(processAttestations_votes call.block node).error hattest]
    · rw [hstopped, (processAttestations_votes call.block node).ok hattest]
    · have hnoted : (finalized.note P call.block.header).chain.producerSignatures =
          finalized.chain.producerSignatures := noted_of_unsigned _ hsig
      rcases hmore with hfunds | hmoved
      · rw [hfunds, hnoted, (processAttestations_votes call.block node).ok hattest]
      · rw [hmoved, hnoted, (processAttestations_votes call.block node).ok hattest]
  | some sig =>
    have hspacious : node.Spacious P call := by
      refine ⟨fun kind hcheck => ?_, n, hrecords, hroom⟩
      rw [grossReward_of_signed (checkBlock_eq_ok hcheck).1 hsig]
      exact node.chain.totalIssued.toNat_lt
    rw [votesOnly_of_rejects hcons hspacious h]

/-- A signed block pays no reward, so the supply has room for it. -/
theorem supplyRoom_of_signed {call : Call} {sig : List UInt8}
    (hsig : call.block.header.refinerSignature = some sig) : SupplyRoom P node call := by
  intro opening node' hopen
  obtain ⟨hreward, hissued⟩ := openBlock_reward hopen
  rw [hreward, grossReward_of_signed (checkBlock_eq_ok (openBlock_check hopen)).1 hsig]
  exact node'.chain.totalIssued.toNat_lt

namespace Unsuspecting

variable {producer : ObjectId} {deliveries : List Delivery}

/-- A note that a block leaves is an old one or one of the new tip. -/
theorem mem_producerSignatures (h : Unsuspecting P producer node (delivery :: deliveries))
    {key : UInt64 × ObjectId} (hkey : key ∈ (receive P node delivery).chain.producerSignatures) :
    key ∈ node.chain.producerSignatures ∨
      key.1 = (receive P node delivery).chain.currentHeight := by
  obtain ⟨n, hrecords, hroom⟩ := h.records
  rw [List.map_cons, List.sum_cons] at hroom
  cases htakes : node.takes P delivery with
  | true =>
    obtain ⟨st, hst⟩ := accepted_of_takes htakes
    rw [(height_of_takes htakes).1]
    rw [hst.detected.2] at hkey
    exact mem_noted hkey
  | false =>
    refine Or.inl ?_
    rcases receive_of_not_takes htakes with hsame | ⟨hrejects, hstep⟩
    · rwa [hsame] at hkey
    · rwa [hstep, producerSignatures_of_rejects h.books hrecords (by omega) hrejects] at hkey

theorem not_tells (h : Unsuspecting P producer node (delivery :: deliveries)) :
    ¬Tells P producer node delivery := by
  rintro ⟨-, evidence, hbrought, himplicates⟩
  exact h.carried delivery List.mem_cons_self evidence hbrought himplicates

/-- The next block is above the tip, where nothing has been noted. -/
theorem not_caught (h : Unsuspecting P producer node (delivery :: deliveries)) :
    ¬Caught P producer node delivery := by
  rintro ⟨htakes, -, hash, sig, sig', publicKey, hnote, -⟩
  have hheights := h.heights
  have hone : (1 : UInt64).toNat = 1 := rfl
  rw [List.length_cons] at hheights
  rw [(height_of_takes htakes).2, h.unnoted] at hnote
  · cases hnote
  · rw [UInt64.lt_iff_toNat_lt, MachineInt.toNat_add_of_lt (by omega), hone]
    omega

/-- A node that suspects nothing still does after the next block. -/
theorem after (h : Unsuspecting P producer node (delivery :: deliveries)) :
    Unsuspecting P producer (receive P node delivery) deliveries where
  unnoted height hheight := by
    have hheights := h.heights
    rw [List.length_cons] at hheights
    have hrises := (currentHeight_receive (P := P) node delivery (by omega)).1
    rw [UInt64.lt_iff_toNat_lt] at hheight
    by_contra hnoted
    have hmem := Std.ExtTreeMap.mem_iff_isSome_getElem?.mpr (Option.isSome_iff_ne_none.mpr hnoted)
    rcases h.mem_producerSignatures hmem with hold | hnew
    · have hnone := h.unnoted height (UInt64.lt_iff_toNat_lt.mpr (by omega))
      rw [Std.ExtTreeMap.mem_iff_isSome_getElem?, hnone] at hold
      cases hold
    · dsimp only at hnew
      rw [hnew] at hheight
      exact lt_irrefl _ hheight
  pooled evidence hevidence himplicates := by
    cases htakes : node.takes P delivery with
    | true =>
      rcases (mem_pendingSlashEvidence_of_takes htakes).mp hevidence with hshown | ⟨hold, -⟩
      · exact h.not_caught (caught_iff.mpr ⟨htakes, evidence, hshown, himplicates⟩)
      · exact h.pooled evidence hold himplicates
    | false =>
      rw [pendingSlashEvidence_of_not_takes htakes] at hevidence
      exact h.pooled evidence hevidence himplicates
  carried delivery' hdelivery' := h.carried delivery' (List.mem_cons_of_mem _ hdelivery')
  books := by
    unfold receive
    split
    · exact conserved_step h.books h.supply.1
    · exact h.books
  supply := h.supply.2
  heights := by
    have hheights := h.heights
    rw [List.length_cons] at hheights
    have hrises := (currentHeight_receive (P := P) node delivery (by omega)).2
    omega
  records := by
    obtain ⟨n, hrecords, hroom⟩ := h.records
    rw [List.map_cons, List.sum_cons, ← Nat.add_assoc] at hroom
    refine ⟨n + delivery.call.block.transactions.length, ?_, hroom⟩
    unfold receive
    split
    · exact encodable_step hrecords delivery.call
    · exact hrecords.mono (Nat.le_add_right _ _)

/-- Nobody tells such a node, and it catches nobody. -/
theorem unrevealed (h : Unsuspecting P producer node deliveries) :
    ¬(Transition.SomeStep (receive P) (Tells P producer) node deliveries ∨
      Transition.SomeStep (receive P) (Caught P producer) node deliveries) := by
  induction deliveries generalizing node with
  | nil => exact not_or.mpr ⟨id, id⟩
  | cons delivery deliveries ih =>
    rintro ((htells | htells) | (hcaught | hcaught))
    · exact h.not_tells htells
    · exact ih h.after (Or.inl htells)
    · exact h.not_caught hcaught
    · exact ih h.after (Or.inr hcaught)

end Unsuspecting

/-- A node that has noted nothing of a producer above its tip, and that nobody gives evidence,
never detects one. -/
theorem not_detected_of_unsuspecting {producer : ObjectId} {deliveries : List Delivery}
    (h : Unsuspecting P producer node deliveries) : ¬Detected P producer node deliveries := by
  rw [detected_iff_of_run]
  rintro (⟨evidence, hpool, himplicates⟩ | hrevealed)
  · exact h.pooled evidence hpool himplicates
  · exact h.unrevealed hrevealed

/-- Two blocks of one height and producer reach a node. In the end there is evidence against the
producer if and only if there was some in the pool, a block has brought some, or a block of his has
been compared with an older note. Of the two blocks, only the one that becomes part of the chain
does anything, and a node without notes of the producer above its tip, which nobody gives evidence,
never has any against him. -/
theorem detected_iff {deliveries : List Delivery} {b1 b2 : Block}
    (h : Equivocation P node deliveries b1 b2) :
    (Detected P b1.header.producer node deliveries ↔
        (∃ evidence ∈ node.pendingSlashEvidence, Implicates P b1.header.producer evidence) ∨
          Transition.SomeStep (receive P) (Tells P b1.header.producer) node deliveries ∨
          Transition.SomeStep (receive P) (Caught P b1.header.producer) node deliveries) ∧
      (node.chain.currentHeight.toNat + deliveries.length < 2 ^ 64 →
        OnlyFirst P node deliveries b1 b2) ∧
      (Unsuspecting P b1.header.producer node deliveries →
        ¬Detected P b1.header.producer node deliveries) :=
  ⟨detected_iff_of_run P _ node deliveries, onlyFirst h.height, not_detected_of_unsuspecting⟩

namespace Reference

theorem blockHashPreimage_retimed (header : BlockHeader) : ∃ before after, ∀ timestamp : UInt64,
    blockHashPreimage { header with timestamp } =
      before ++ (Codec.beBytes 8 timestamp.toNat ++ after) := by
  refine ⟨Codec.beBytes 4 header.version.toNat ++ Codec.beBytes 8 header.height.toNat ++
    header.previousHash.bytes ++ header.producer.asBytes ++ header.stateRoot.bytes ++
    header.transactionRoot.bytes ++ header.evidenceRoot.bytes ++ header.attestationRoot.bytes ++
    header.genesisCeremonyHash.bytes, Codec.beBytes 8 header.difficulty.toNat ++
      (Codec.beBytes 8 header.suggestedFee.toNat ++
        header.extensionRoot.elim [] fun extRoot => extRoot.bytes), fun timestamp => ?_⟩
  unfold blockHashPreimage
  rewrite [List.append_assoc, List.append_assoc, List.append_assoc]
  dsimp only
  cases header.extensionRoot with
  | none => rfl
  | some extRoot => rfl

/-- The refiner signs another block a second later. -/
theorem refine_different {node : OpolysNode} (h : Refining node) :
    computeBlockHash primitives (refine 45 node).block.header ≠
      computeBlockHash primitives (refine 46 node).block.header := by
  have hlate : 45 ≤ 45 ∧ 45 < 2 ^ 16 := ⟨by omega, by omega⟩
  have hlater : 45 ≤ 46 ∧ 46 < 2 ^ 16 := ⟨by omega, by omega⟩
  have hfirst := (checkBlock_refine h hlate).2.timestamp
  have hsecond := (checkBlock_refine h hlater).2.timestamp
  rw [h.height] at hfirst hsecond
  unfold refine at hfirst hsecond ⊢
  dsimp only at hfirst hsecond ⊢
  generalize node.chain.blockTimestamps.getLast?.getD 0 + UInt64.ofNat 45 = now at hfirst ⊢
  generalize node.chain.blockTimestamps.getLast?.getD 0 + UInt64.ofNat 46 = now' at hsecond ⊢
  obtain ⟨block, hblock⟩ := small_nil.body.candidate node now
  obtain ⟨block', hblock'⟩ := small_nil.body.candidate node now'
  have hheader := OpolysNode.candidateBlock_retimed hblock hblock'
  change node.candidateBlock primitives now {} = .ok block at hblock
  change node.candidateBlock primitives now' {} = .ok block' at hblock'
  rw [hblock, Except.toOption, Option.getD_some] at hfirst ⊢
  rw [hblock', Except.toOption, Option.getD_some] at hsecond ⊢
  rw [computeBlockHash_withRefinerSignature, computeBlockHash_withRefinerSignature]
  change block.header.timestamp.toNat = 1920 * 90 + 45 at hfirst
  change block'.header.timestamp.toNat = 1920 * 90 + 46 at hsecond
  generalize block'.header.timestamp = late at hheader hsecond
  rw [hheader]
  obtain ⟨before, after, hpreimage⟩ := blockHashPreimage_retimed block.header
  have hown : blockHashPreimage block.header =
      before ++ (Codec.beBytes 8 block.header.timestamp.toNat ++ after) :=
    hpreimage block.header.timestamp
  have hbytes : Codec.beBytes 8 (1920 * 90 + 45) = [0, 0, 0, 0, 0, 2, 163] ++ [45] := by decide
  have hbytes' : Codec.beBytes 8 (1920 * 90 + 46) = [0, 0, 0, 0, 0, 2, 163] ++ [46] := by decide
  unfold computeBlockHash hashWithDomain
  rw [hown, hpreimage late, hfirst, hsecond, hbytes, hbytes']
  have hassoc (b : UInt8) : domainBlockHash ++
      (before ++ ([0, 0, 0, 0, 0, 2, 163] ++ [b] ++ after)) =
        (domainBlockHash ++ (before ++ [0, 0, 0, 0, 0, 2, 163])) ++ b :: after := by
    simp only [List.append_assoc, List.cons_append, List.nil_append]
  rw [hassoc, hassoc]
  exact hash_ne _ after (by decide)

variable {node : OpolysNode}

/-- The node has noted nothing of the refiner, and nobody gives it evidence. -/
theorem unsuspecting_refine {late late' : ℕ} (h : Refining node)
    (hlate : 45 ≤ late ∧ late < 2 ^ 16) (hlate' : 45 ≤ late' ∧ late' < 2 ^ 16)
    (channel channel' : Channel) (producer : ObjectId) :
    Unsuspecting primitives producer node
      [⟨channel, refine late node⟩, ⟨channel', refine late' node⟩] := by
  have hblock := (checkBlock_refine h hlate).2
  have hblock' := (checkBlock_refine h hlate').2
  have hheight := h.height
  refine ⟨fun height _ => ?_, fun evidence hevidence => ?_, fun delivery hdelivery => ?_,
    h.toReady.conserved, ⟨supplyRoom_of_signed hblock.signature,
      supplyRoom_of_signed hblock'.signature, trivial⟩, ?_, 8, h.toReady.encodable, ?_⟩
  · rw [h.signatures]
    rfl
  · rw [h.toQuiet.evidence] at hevidence
    cases hevidence
  · simp only [List.mem_cons, List.not_mem_nil, or_false] at hdelivery
    rcases hdelivery with rfl | rfl
    · rw [hblock.evidence]
      nofun
    · rw [hblock'.evidence]
      nofun
  · rw [hheight]
    change 1920 + 2 < 2 ^ 64
    omega
  · rw [List.map_cons, List.map_cons, hblock.transactions, hblock'.transactions]
    decide

/-- Both blocks are genuine, whichever channels they come through. -/
theorem equivocation_refine (h : Refining node) (deliveries : List Delivery)
    (hfirst : ∃ delivery ∈ deliveries, delivery.call = refine 45 node)
    (hsecond : ∃ delivery ∈ deliveries, delivery.call = refine 46 node) :
    Equivocation primitives node deliveries (refine 45 node).block (refine 46 node).block := by
  have hdifferent : (refine 45 node).block ≠ (refine 46 node).block := fun heq =>
    refine_different h (by rw [heq])
  have hlate : 45 ≤ 45 ∧ 45 < 2 ^ 16 := ⟨by omega, by omega⟩
  have hlater : 45 ≤ 46 ∧ 46 < 2 ^ 16 := ⟨by omega, by omega⟩
  obtain ⟨hcheck, hblock⟩ := checkBlock_refine h hlate
  obtain ⟨hcheck', hblock'⟩ := checkBlock_refine h hlater
  obtain ⟨delivery, hmem, hcall⟩ := hfirst
  obtain ⟨delivery', hmem', hcall'⟩ := hsecond
  generalize refine 45 node = call at *
  generalize refine 46 node = call' at *
  refine ⟨hdifferent, hblock.height.trans hblock'.height.symm,
    hblock.producer.trans hblock'.producer.symm,
    ⟨decide_eq_true (checkBlock_eq_ok hcheck).1, decide_eq_true (checkBlock_eq_ok hcheck').1⟩,
    ⟨refiner .active 961 0, ?_, ?_⟩, ⟨?_, ?_⟩, ⟨hblock.height, hblock.previousHash⟩,
    ⟨hblock'.height, hblock'.previousHash⟩, ⟨delivery, hmem, ?_⟩, ⟨delivery', hmem', ?_⟩⟩
  · rw [h.refiners]
    exact selectBlockProducer_sole rfl (totalStake_refiner _ _ _) _
  · rw [hblock.producer, h.minerId]
    rfl
  · exact verifyRefinerSignature_refine h hblock
  · exact verifyRefinerSignature_refine h hblock'
  · rw [hcall]
  · rw [hcall']

/-- A signature of the refiner verifies under its key. -/
theorem verifyEd25519_refiner (message : List UInt8) : verifyEd25519 primitives (publicKey 1).bytes
    message (primitives.sign (seed 1) message).bytes = true :=
  verifyEd25519_eq_true.mpr ⟨publicKey 1, primitives.sign (seed 1) message, rfl, rfl, rfl,
    verify_sign _ _⟩

/-- A node that has been left with a note of the second block catches the first. -/
theorem caught_refine (h : Refining node) :
    Caught primitives (refine 45 node).block.header.producer
      (node.note primitives (refine 46 node).block.header) ⟨.submitted, refine 45 node⟩ := by
  have hlate : 45 ≤ 45 ∧ 45 < 2 ^ 16 := ⟨by omega, by omega⟩
  have hlater : 45 ≤ 46 ∧ 46 < 2 ^ 16 := ⟨by omega, by omega⟩
  obtain ⟨hheight, hnext, hunpaid⟩ := h.paced hlate.2
  have hsigning : Signing (node.note primitives (refine 46 node).block.header) :=
    { h.signing with }
  have haccepts : (node.note primitives (refine 46 node).block.header).accepts primitives
      (refine 45 node) = true := accepts_signed hsigning hheight hlate hnext hunpaid
  have hdifferent := refine_different h
  have hblock := (checkBlock_refine h hlate).2
  have hblock' := (checkBlock_refine h hlater).2
  have hkey : node.accounts.keyOf (account 1) = some (publicKey 1).bytes := by
    rw [h.accounts, keyOf_bonded]
  have hsignatures : node.chain.producerSignatures = ∅ := h.signatures
  generalize refine 45 node = call at *
  generalize refine 46 node = call' at *
  have hproducer : call.block.header.producer = account 1 := hblock.producer.trans h.minerId
  have hproducer' : call'.block.header.producer = account 1 := hblock'.producer.trans h.minerId
  have hsame : call.block.header.height = call'.block.header.height :=
    hblock.height.trans hblock'.height.symm
  have hnoted : (noted primitives node.chain.producerSignatures call'.block.header)[
      (call'.block.header.height, call'.block.header.producer)]? =
        some (computeBlockHash primitives call'.block.header, (primitives.sign (seed 1)
          (refinerBlockSigningPayload
            (computeBlockHash primitives call'.block.header))).bytes) := by
    have hnonzero : call'.block.header.producer.hash.isZero = false := by
      rw [hproducer']
      exact nonzero_account
    unfold noted
    rw [hblock'.signature, hnonzero, hsignatures]
    exact Std.ExtTreeMap.getElem?_insert_self
  refine ⟨haccepts, rfl, computeBlockHash primitives call'.block.header, _, _, publicKey 1, ?_,
    hblock.signature, hdifferent.symm, ?_, ?_, verifyEd25519_refiner _, verifyEd25519_refiner _⟩
  · rw [hproducer, hsame, ← hproducer']
    exact hnoted
  · rw [hproducer]
    exact hkey
  · rw [hproducer]
    rfl

end Reference

open Reference

/-- On a chain that a fresh node has reached, the selected refiner signs two blocks for the next
height. Whatever the order and the channels, nothing is detected. -/
theorem equivocation_unseen : ∃ node first second,
    (∃ calls, Transition.EveryStep (OpolysNode.step primitives)
        (fun node call => node.accepts primitives call = true) founder calls ∧
      Transition.run (OpolysNode.step primitives) founder calls = node) ∧
    OpolysNode.new primitives bondConfig (some (seed 1).bytes) BlockchainStore.empty =
      .ok founder ∧
    (node.accepts primitives first = true ∧ node.accepts primitives second = true) ∧
    computeBlockHash primitives first.block.header ≠
      computeBlockHash primitives second.block.header ∧
    ∀ (channel channel' : Channel) (deliveries : List Delivery),
      deliveries = [⟨channel, first⟩, ⟨channel', second⟩] ∨
          deliveries = [⟨channel', second⟩, ⟨channel, first⟩] →
        Equivocation primitives node deliveries first.block second.block ∧
          ¬Detected primitives first.block.header.producer node deliveries := by
  obtain ⟨node, ⟨calls, -, hall, hrun⟩, h⟩ := reaches_refining
  have hlate : 45 ≤ 45 ∧ 45 < 2 ^ 16 := ⟨by omega, by omega⟩
  have hlate' : 45 ≤ 46 ∧ 46 < 2 ^ 16 := ⟨by omega, by omega⟩
  refine ⟨node, refine 45 node, refine 46 node, ⟨calls, hall, hrun⟩, new_founder,
    ⟨accepts_refine h hlate, accepts_refine h hlate'⟩, refine_different h,
    fun channel channel' deliveries horder => ?_⟩
  have hfirst := unsuspecting_refine h hlate hlate' channel channel'
  have hsecond := unsuspecting_refine h hlate' hlate channel' channel
  rcases horder with rfl | rfl
  · exact ⟨equivocation_refine h _ ⟨_, List.mem_cons_self, rfl⟩
      ⟨_, List.mem_cons_of_mem _ List.mem_cons_self, rfl⟩,
      not_detected_of_unsuspecting (hfirst _)⟩
  · exact ⟨equivocation_refine h _ ⟨_, List.mem_cons_of_mem _ List.mem_cons_self, rfl⟩
      ⟨_, List.mem_cons_self, rfl⟩, not_detected_of_unsuspecting (hsecond _)⟩

/-- A node that suspects nothing detects neither block, and one that has been left with a note of
the second block detects the first. -/
theorem detected_iff_of_reference : ∃ (node : OpolysNode) (first second : Call),
    OnlyFirst primitives node [⟨.gossip, first⟩, ⟨.sync, second⟩] first.block second.block ∧
      ¬Detected primitives first.block.header.producer node
        [⟨.gossip, first⟩, ⟨.sync, second⟩] ∧
      Detected primitives first.block.header.producer
        (node.note primitives second.block.header) [⟨.submitted, first⟩, ⟨.sync, second⟩] := by
  obtain ⟨node, -, h⟩ := reaches_refining
  have hlate : 45 ≤ 45 ∧ 45 < 2 ^ 16 := ⟨by omega, by omega⟩
  have hlate' : 45 ≤ 46 ∧ 46 < 2 ^ 16 := ⟨by omega, by omega⟩
  have hpair (channel channel' : Channel) := equivocation_refine h
    [⟨channel, refine 45 node⟩, ⟨channel', refine 46 node⟩] ⟨_, List.mem_cons_self, rfl⟩
    ⟨_, List.mem_cons_of_mem _ List.mem_cons_self, rfl⟩
  have hunsuspecting := unsuspecting_refine h hlate hlate' .gossip .sync
    (refine 45 node).block.header.producer
  refine ⟨node, refine 45 node, refine 46 node,
    (detected_iff (hpair _ _)).2.1 hunsuspecting.heights,
    (detected_iff (hpair _ _)).2.2 hunsuspecting, ?_⟩
  have hnoted : Equivocation primitives (node.note primitives (refine 46 node).block.header)
      [⟨.submitted, refine 45 node⟩, ⟨.sync, refine 46 node⟩] (refine 45 node).block
      (refine 46 node).block := { hpair .submitted .sync with }
  exact (detected_iff hnoted).1.mpr (Or.inr (Or.inr (Or.inl (caught_refine h))))

end Opolys
