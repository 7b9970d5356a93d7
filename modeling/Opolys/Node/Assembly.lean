import Opolys.Node.Attesting
import Opolys.Node.Pools

/-!
# Building a block from the pools

A node that builds a block takes transactions, evidence and attestations from its pools. The
transactions and the evidence stay where they are until an accepted block has them. The
attestations are taken out at once, before there is a nonce for the block and before anyone has
accepted it.

* `mineBlock`, `produceRefinerBlock` : the two ways to build a block.
* `attestations_kept_iff` : the runs in which no attestation is lost.
* `attestation_lost` : a search for a nonce that finds none loses one.
-/

namespace Opolys

open Std (ExtTreeMap)
open MachineInt (saturatingSub)

/-! ## Taking attestations out -/

/-- An order in which a map gives out the keys of attestations. -/
structure KeyOrder where
  order : List (UInt64 × ObjectId) → List (UInt64 × ObjectId)
  perm : ∀ keys, (order keys).Perm keys

/-- What a node reads from outside while it builds a block. -/
structure AssemblyEnv where
  /-- The wall clock in Unix seconds. -/
  nowSecs : UInt64
  /-- The order of the mempool's map. -/
  order : IterOrder
  /-- The order of the pool of attestations. -/
  keys : KeyOrder
  /-- The nonce that the search finds for a header, if it finds one. -/
  search : BlockHeader → Option UInt64

namespace OpolysNode

/-- The attestations that can go into a block of a height. -/
def includablePending (nextHeight : UInt64) (node : OpolysNode) :
    ExtTreeMap (UInt64 × ObjectId) BlockAttestation :=
  node.pendingAttestations.filter fun key _ =>
    saturatingSub nextHeight epoch ≤ key.1 && key.1 < nextHeight

/-- The keys of the attestations that go into a block of a height. -/
def drainedKeys (keys : KeyOrder) (nextHeight : UInt64) (node : OpolysNode) :
    List (UInt64 × ObjectId) :=
  (keys.order (node.includablePending nextHeight).keys).take maxAttestationsPerBlock

/-- Take an attestation out of a pool. -/
def takePending (taken : List BlockAttestation × ExtTreeMap (UInt64 × ObjectId) BlockAttestation)
    (key : UInt64 × ObjectId) :
    List BlockAttestation × ExtTreeMap (UInt64 × ObjectId) BlockAttestation :=
  match taken.2[key]? with
  | some attestation => (taken.1 ++ [attestation], taken.2.erase key)
  | none => taken

/-- Take attestations out of the pool for a block of a height, and drop those that are too old. -/
def drainPendingAttestationsForBlock (keys : KeyOrder) (nextHeight : UInt64) (node : OpolysNode) :
    List BlockAttestation × OpolysNode :=
  let taken := (node.drainedKeys keys nextHeight).foldl takePending
    ([], node.includablePending nextHeight)
  (taken.1, { node with pendingAttestations := taken.2 })

def pendingSlashEvidenceForBlock (node : OpolysNode) : List DoubleSignEvidence :=
  node.pendingSlashEvidence.take maxSlashEvidencePerBlock

/-! ## Building a block -/

/-- What the next block holds. -/
def assembleBody (env : AssemblyEnv) (node : OpolysNode) : CandidateBody × OpolysNode :=
  let transactions :=
    (node.mempool.getOrderedTransactions env.order).take maxTransactionsPerBlock
  let slashEvidence := node.pendingSlashEvidenceForBlock
  let (attestations, node) :=
    node.drainPendingAttestationsForBlock env.keys (node.chain.currentHeight + 1)
  ({ transactions, slashEvidence, attestations }, node)

variable (P : Primitives)

/-- Build the next block and search a nonce for it. -/
def mineBlock (env : AssemblyEnv) (node : OpolysNode) : Option Block × OpolysNode :=
  let (body, node) := node.assembleBody env
  match node.candidateBlock P env.nowSecs body with
  | .error _ => (none, node)
  | .ok candidate =>
    ((env.search candidate.header).map fun nonce => withNonce nonce candidate, node)

/-- Build the next block and sign it, if it is the node's turn. -/
def produceRefinerBlock (env : AssemblyEnv) (node : OpolysNode) : Option Block × OpolysNode :=
  match node.signingKey with
  | none => (none, node)
  | some seed =>
    match node.refiners.selectBlockProducer (selectionSeed node.chain.latestBlockHash) with
    | none => (none, node)
    | some producer =>
      if producer.objectId ≠ node.minerId then (none, node)
      else
        let (body, node) := node.assembleBody env
        match node.candidateBlock P env.nowSecs body with
        | .error _ => (none, node)
        | .ok candidate => (some (withRefinerSignature P seed candidate), node)

/-- Whether the node's own refiner is selected for the next block. -/
def isSelected (node : OpolysNode) : Bool :=
  node.signingKey.isSome &&
    match node.refiners.selectBlockProducer (selectionSeed node.chain.latestBlockHash) with
    | none => false
    | some producer => producer.objectId = node.minerId

variable {P}

/-! ## What is left in the pool -/

section Drain

variable {keys : KeyOrder} {nextHeight : UInt64} {node : OpolysNode} {key : UInt64 × ObjectId}

theorem getElem?_includablePending : (node.includablePending nextHeight)[key]? =
    if saturatingSub nextHeight epoch ≤ key.1 ∧ key.1 < nextHeight then
      node.pendingAttestations[key]? else none := by
  unfold includablePending
  rw [ExtTreeMap.getElem?_filter']
  cases node.pendingAttestations[key]? with
  | none => simp
  | some attestation => simp only [Option.filter_some, Bool.and_eq_true, decide_eq_true_eq]

theorem getElem?_foldl_takePending (list : List (UInt64 × ObjectId))
    (taken : List BlockAttestation × ExtTreeMap (UInt64 × ObjectId) BlockAttestation) :
    (list.foldl takePending taken).2[key]? = if key ∈ list then none else taken.2[key]? := by
  induction list generalizing taken with
  | nil => simp
  | cons first list ih =>
    rw [List.foldl_cons, ih]
    have hfirst : (takePending taken first).2[key]? =
        if first = key then none else taken.2[key]? := by
      unfold takePending
      cases hget : taken.2[first]? with
      | none =>
        by_cases heq : first = key
        · subst heq
          simp [hget]
        · simp [heq]
      | some attestation => exact FiniteMap.getElem?_erase' taken.2 first key
    rw [hfirst]
    by_cases heq : first = key
    · simp [heq]
    · simp [heq, Ne.symm heq]

/-- The attestations that are neither taken nor too old stay. -/
theorem getElem?_drain :
    (node.drainPendingAttestationsForBlock keys nextHeight).2.pendingAttestations[key]? =
      if key ∈ node.drainedKeys keys nextHeight then none
      else (node.includablePending nextHeight)[key]? :=
  getElem?_foldl_takePending _ _

end Drain

/-! ## What moves the pool -/

theorem assembleBody_eq (env : AssemblyEnv) (node : OpolysNode) : (node.assembleBody env).2 =
    (node.drainPendingAttestationsForBlock env.keys (node.chain.currentHeight + 1)).2 := rfl

theorem mineBlock_eq (env : AssemblyEnv) (node : OpolysNode) :
    (node.mineBlock P env).2 = (node.assembleBody env).2 := by
  unfold mineBlock
  dsimp only
  cases (node.assembleBody env).2.candidateBlock P env.nowSecs (node.assembleBody env).1 <;> rfl

/-- What a refiner produces is a candidate that it has signed. -/
theorem produceRefinerBlock_eq_some {env : AssemblyEnv} {node : OpolysNode} {block : Block}
    (h : (node.produceRefinerBlock P env).1 = some block) : ∃ seed candidate,
      (node.assembleBody env).2.candidateBlock P env.nowSecs (node.assembleBody env).1 =
        .ok candidate ∧ block = withRefinerSignature P seed candidate := by
  unfold produceRefinerBlock at h
  dsimp only at h
  split at h
  · cases h
  · rename_i seed _
    split at h
    · cases h
    · split at h
      · cases h
      · split at h
        · cases h
        · rename_i candidate hcandidate
          cases h
          exact ⟨seed, candidate, hcandidate, rfl⟩

/-- A node whose turn it is not leaves its pools alone. -/
theorem produceRefinerBlock_eq (env : AssemblyEnv) (node : OpolysNode) :
    (node.produceRefinerBlock P env).2 =
      if node.isSelected = true then (node.assembleBody env).2 else node := by
  unfold produceRefinerBlock isSelected
  cases node.signingKey with
  | none => rfl
  | some seed =>
    cases node.refiners.selectBlockProducer (selectionSeed node.chain.latestBlockHash) with
    | none => rfl
    | some producer =>
      dsimp only
      by_cases hself : producer.objectId = node.minerId
      · rw [if_neg (not_not_intro hself)]
        simp only [hself, Option.isSome_some, decide_true, Bool.and_self, if_true]
        cases (node.assembleBody env).2.candidateBlock P env.nowSecs (node.assembleBody env).1
          <;> rfl
      · simp [hself]

/-- Blocks leave the pool of attestations alone. -/
theorem pendingAttestations_step (node : OpolysNode) (call : Call) :
    (node.step P call).pendingAttestations = node.pendingAttestations := by
  cases haccepts : node.accepts P call with
  | true =>
    obtain ⟨st, hst⟩ := accepted_of_accepts haccepts
    rw [hst.node_eq, persist_frame, rankRefiners_eq, hst.paid_eq, hst.settled_eq, hst.executed_eq,
      hst.opened_eq, hst.finalized_frame]
    rfl
  | false =>
    obtain ⟨message, hrun⟩ := rejects_eq haccepts
    rcases (applyBlock_rejects call.env call.block node).error hrun with
      hsame | ⟨kind, -, ⟨message, hattest⟩ | ⟨finalized, hattest, hstopped | ⟨-, hfunds | hmoved⟩⟩⟩
    · rw [hsame]
    · rw [(processAttestations_votes call.block node).error hattest]
    · rw [hstopped, (processAttestations_votes call.block node).ok hattest]
    · rw [hfunds, (processAttestations_votes call.block node).ok hattest]
      rfl
    · rw [hmoved, (processAttestations_votes call.block node).ok hattest]
      rfl

end OpolysNode

/-! ## What becomes of an attestation -/

/-- What happens to the pool of a node. -/
inductive PoolEvent where
  | attest (attestation : BlockAttestation)
  | mine (env : AssemblyEnv)
  | refine (env : AssemblyEnv)
  | call (call : Call)

/-- A node with the attestations that have come into its pool, those of the blocks it has accepted
and the highest tip it has had. -/
structure PoolHistory where
  node : OpolysNode
  pooled : List BlockAttestation
  included : List BlockAttestation
  top : Nat

namespace PoolHistory

def start (node : OpolysNode) : PoolHistory :=
  { node, pooled := [], included := [], top := node.chain.currentHeight.toNat }

/-- Go on with a node. -/
def moveTo (history : PoolHistory) (node : OpolysNode) : PoolHistory :=
  { history with node, top := max history.top node.chain.currentHeight.toNat }

def step (P : Primitives) (history : PoolHistory) : PoolEvent → PoolHistory
  | .attest attestation =>
    match OpolysNode.acceptBlockAttestation P attestation history.node with
    | .ok true node => { history.moveTo node with pooled := attestation :: history.pooled }
    | .ok false node => history.moveTo node
    | .error _ node => history.moveTo node
  | .mine env => history.moveTo (history.node.mineBlock P env).2
  | .refine env => history.moveTo (history.node.produceRefinerBlock P env).2
  | .call call =>
    { history.moveTo (history.node.step P call) with
      included :=
        if history.node.accepts P call then call.block.attestations ++ history.included
        else history.included }

/-- An attestation that no block needs any more. -/
def Done (history : PoolHistory) (attestation : BlockAttestation) : Prop :=
  attestation ∈ history.included ∨ attestation.height.toNat + epoch.toNat < history.top

/-- Whether an attestation is in the pool. -/
def Pending (history : PoolHistory) (attestation : BlockAttestation) : Prop :=
  history.node.pendingAttestations[attestation.target]? = some attestation

/-- No attestation has been lost. -/
def Kept (history : PoolHistory) : Prop :=
  ∀ attestation ∈ history.pooled, history.Pending attestation ∨ history.Done attestation

/-- Building a block leaves an attestation in the pool. -/
def Stays (history : PoolHistory) (env : AssemblyEnv) (attestation : BlockAttestation) : Prop :=
  let nextHeight := history.node.chain.currentHeight + 1
  attestation.target ∉ history.node.drainedKeys env.keys nextHeight ∧
    saturatingSub nextHeight epoch ≤ attestation.height ∧ attestation.height < nextHeight

/-- Building a block takes only attestations that no block needs any more. -/
def Idle (history : PoolHistory) (env : AssemblyEnv) : Prop :=
  ∀ attestation ∈ history.pooled, history.Pending attestation →
    history.Stays env attestation ∨ history.Done attestation

/-- No block is built while the pool has something for it. -/
def Spares (history : PoolHistory) : PoolEvent → Prop
  | .mine env => history.Idle env
  | .refine env => history.node.isSelected = true → history.Idle env
  | _ => True

/-- What every run keeps as long as it loses nothing. -/
structure Sound (history : PoolHistory) : Prop where
  kept : history.Kept
  height_le_top : history.node.chain.currentHeight.toNat ≤ history.top

variable {P : Primitives} {history : PoolHistory}

theorem sound_start (node : OpolysNode) : (start node).Sound where
  kept attestation hmem := by
    have hnone : attestation ∉ (start node).pooled := List.not_mem_nil
    exact (hnone hmem).elim
  height_le_top := le_rfl

/-! ### The steps -/

section Steps

variable {node : OpolysNode} {attestation : BlockAttestation}

/-- Time makes attestations only older. -/
theorem Done.moveTo (h : history.Done attestation) (node : OpolysNode) :
    (history.moveTo node).Done attestation := by
  rcases h with hincluded | hold
  · exact Or.inl hincluded
  · exact Or.inr (lt_max_of_lt_left hold)

theorem step_mine (env : AssemblyEnv) :
    history.step P (.mine env) = history.moveTo (history.node.assembleBody env).2 :=
  congrArg history.moveTo (OpolysNode.mineBlock_eq env history.node)

theorem step_refine (env : AssemblyEnv) : history.step P (.refine env) =
    history.moveTo
      (if history.node.isSelected = true then (history.node.assembleBody env).2
        else history.node) :=
  congrArg history.moveTo (OpolysNode.produceRefinerBlock_eq env history.node)

theorem moveTo_self (h : history.Sound) : history.moveTo history.node = history := by
  have htop := Nat.max_eq_left h.height_le_top
  cases history
  simp only [moveTo] at htop ⊢
  rw [htop]

/-- The tip is known in every state. -/
theorem height_le_top_step (event : PoolEvent) :
    (history.step P event).node.chain.currentHeight.toNat ≤ (history.step P event).top := by
  have hmoved (node : OpolysNode) :
      (history.moveTo node).node.chain.currentHeight.toNat ≤ (history.moveTo node).top :=
    le_max_right _ _
  cases event with
  | attest attestation =>
    simp only [step]
    cases OpolysNode.acceptBlockAttestation P attestation history.node with
    | error message node => exact hmoved node
    | ok new node => cases new <;> exact hmoved node
  | mine env => exact hmoved _
  | refine env => exact hmoved _
  | call call => exact hmoved _

/-- The attestations that a built block leaves in the pool. -/
theorem pending_drained {env : AssemblyEnv} :
    (history.moveTo (history.node.assembleBody env).2).Pending attestation ↔
      history.Pending attestation ∧ history.Stays env attestation := by
  show (history.node.assembleBody env).2.pendingAttestations[attestation.target]? =
    some attestation ↔ _
  rw [OpolysNode.assembleBody_eq, OpolysNode.getElem?_drain, OpolysNode.getElem?_includablePending]
  unfold Pending Stays
  constructor
  · intro h
    split at h
    · cases h
    · rename_i hnot
      split at h
      · rename_i hrange
        exact ⟨h, hnot, hrange⟩
      · cases h
  · rintro ⟨hpending, hnot, hrange⟩
    rw [if_neg hnot]
    exact (if_pos hrange).trans hpending

/-- Building a block does not move the tip. -/
theorem done_drained (h : history.Sound) {env : AssemblyEnv} :
    (history.moveTo (history.node.assembleBody env).2).Done attestation ↔
      history.Done attestation := by
  have htop : (history.moveTo (history.node.assembleBody env).2).top = history.top :=
    Nat.max_eq_left h.height_le_top
  unfold Done
  rw [htop]
  rfl

/-- Building a block loses nothing exactly when it is idle. -/
theorem kept_assembled (h : history.Sound) (env : AssemblyEnv) :
    (history.moveTo (history.node.assembleBody env).2).Kept ↔ history.Idle env := by
  constructor
  · intro hkept attestation hmem hpending
    rcases hkept attestation hmem with hstays | hdone
    · exact Or.inl (pending_drained.mp hstays).2
    · exact Or.inr ((done_drained h).mp hdone)
  · intro hidle attestation hmem
    rcases h.kept attestation hmem with hpending | hdone
    · rcases hidle attestation hmem hpending with hstays | hdone
      · exact Or.inl (pending_drained.mpr ⟨hpending, hstays⟩)
      · exact Or.inr (hdone.moveTo _)
    · exact Or.inr (hdone.moveTo _)

/-- Room is made only at the cost of attestations that are too old. -/
theorem pending_retained (h : history.Sound) (hmem : attestation ∈ history.pooled) :
    (history.node.retainPending (saturatingSub history.node.chain.currentHeight
        epoch)).pendingAttestations[attestation.target]? = some attestation ∨
      history.Done attestation := by
  rcases h.kept attestation hmem with hpending | hdone
  · by_cases hold : saturatingSub history.node.chain.currentHeight epoch ≤ attestation.height
    · left
      unfold OpolysNode.retainPending
      dsimp only
      rw [ExtTreeMap.getElem?_filter', hpending]
      simp [BlockAttestation.target, hold]
    · right
      right
      have htop := h.height_le_top
      rw [UInt64.le_iff_toNat_le, MachineInt.toNat_saturatingSub] at hold
      omega
  · exact Or.inr hdone

/-- An attestation that arrives is in the pool, and what it drives out is too old. -/
theorem kept_attest (h : history.Sound) (attestation : BlockAttestation) :
    (history.step P (.attest attestation)).Kept := by
  simp only [step]
  cases hrun : OpolysNode.acceptBlockAttestation P attestation history.node with
  | error message node =>
    have hsame := (OpolysNode.acceptBlockAttestation_ends attestation history.node).error hrun
    rw [hsame]
    show (history.moveTo history.node).Kept
    rw [moveTo_self h]
    exact h.kept
  | ok new node =>
    unfold OpolysNode.acceptBlockAttestation at hrun
    rw [Effect.run_get_bind, Effect.run_ofExcept_bind_eq_ok] at hrun
    obtain ⟨-, -, hrun⟩ := hrun
    rw [Effect.run_modify_bind, Effect.run_get_bind] at hrun
    by_cases hknown : (attestation.height, attestation.refiner) ∈
        (history.node.retainPending (saturatingSub history.node.chain.currentHeight
          epoch)).pendingAttestations
    · rw [if_pos hknown, Effect.run_pure_eq_ok] at hrun
      obtain ⟨rfl, rfl⟩ := hrun
      intro other hmem
      rcases pending_retained h hmem with hpending | hdone
      · exact Or.inl hpending
      · exact Or.inr (hdone.moveTo _)
    · rw [if_neg hknown, Effect.run_modify_bind, Effect.run_pure_eq_ok] at hrun
      obtain ⟨rfl, rfl⟩ := hrun
      intro other hmem
      rcases List.mem_cons.mp hmem with rfl | hmem
      · exact Or.inl (FiniteMap.getElem?_insert_self _ _ _)
      · rcases pending_retained h hmem with hpending | hdone
        · left
          have hne : (attestation.height, attestation.refiner) ≠ other.target := by
            intro heq
            rw [heq] at hknown
            exact hknown (ExtTreeMap.isSome_getElem?_iff_mem.mp (by rw [hpending]; rfl))
          exact (FiniteMap.getElem?_insert_of_ne _ _ hne).trans hpending
        · exact Or.inr (hdone.moveTo _)

/-- A block loses nothing, whether it is accepted or not. -/
theorem kept_call (h : history.Sound) (call : Call) : (history.step P (.call call)).Kept := by
  have hpool := OpolysNode.pendingAttestations_step (P := P) history.node call
  intro attestation hmem
  rcases h.kept attestation hmem with hpending | hincluded | hold
  · left
    show (history.node.step P call).pendingAttestations[attestation.target]? = some attestation
    rw [hpool]
    exact hpending
  · right
    left
    show attestation ∈ (if history.node.accepts P call then
      call.block.attestations ++ history.included else history.included)
    split
    · exact List.mem_append_right _ hincluded
    · exact hincluded
  · exact Or.inr (Or.inr (lt_max_of_lt_left hold))

/-- What happens next loses nothing exactly when it spares the pool. -/
theorem kept_step (h : history.Sound) (event : PoolEvent) :
    (history.step P event).Kept ↔ history.Spares event := by
  cases event with
  | attest attestation => exact iff_of_true (kept_attest h attestation) trivial
  | mine env =>
    rw [step_mine]
    exact kept_assembled h env
  | refine env =>
    rw [step_refine]
    show _ ↔ (history.node.isSelected = true → history.Idle env)
    by_cases hselected : history.node.isSelected = true
    · rw [if_pos hselected, kept_assembled h env]
      simp [hselected]
    · rw [if_neg hselected, moveTo_self h]
      exact iff_of_true h.kept fun hself => (hselected hself).elim
  | call call => exact iff_of_true (kept_call h call) trivial

end Steps

end PoolHistory

open PoolHistory in
/-- From any node on, an attestation that has come into the pool stays there until it has been
included or is more than an epoch old, exactly as long as no block is built while the pool has
something for it. -/
theorem attestations_kept_iff (node : OpolysNode) (events : List PoolEvent) :
    Transition.EveryState (PoolHistory.step P) Kept (PoolHistory.start node) events ↔
      Transition.EveryStep (PoolHistory.step P) Spares (PoolHistory.start node) events := by
  have hstep (history : PoolHistory) (event : PoolEvent) (h : history.Sound) :
      ((history.step P event).Kept → history.Spares event) ∧
        (history.Spares event → (history.step P event).Sound) := by
    constructor
    · exact (kept_step h event).mp
    · intro hspares
      exact ⟨(kept_step h event).mpr hspares, height_le_top_step event⟩
  exact Transition.everyState_iff_everyStep (fun _ h => h.kept)
    (fun history event _ => hstep history event) (sound_start node)

namespace Reference

open Effect

section Lost

variable {block : Block} {node : OpolysNode}

/-- A refined block is signed and has no proof of work. -/
theorem Holding.signed (h : Holding block 0 node) :
    block.header.refinerSignature.isSome = true ∧ block.header.powProof.isNone = true := by
  have hkind := of_decide_eq_true h.refined
  unfold BlockHeader.productionKind at hkind
  split at hkind
  · cases hkind
  · cases hkind
  · cases hkind
  · rename_i hpow hsigned
    exact ⟨hsigned, Option.isSome_eq_false_iff.mp hpow⟩
  · cases hkind

/-- The vote passes the checks of the pool. -/
theorem Holding.checkPendingAttestation (h : Holding block 0 node) :
    OpolysNode.checkPendingAttestation primitives (vote block) node = .ok () := by
  obtain ⟨store, hstore, hload⟩ := h.stored
  have hrefined := h.signed
  have hkey : Codec.FixedBytes.ofList? 32 (vote block).refinerPubkey = some (publicKey 1) :=
    Codec.FixedBytes.ofList?_bytes _
  have hlength : (vote block).signature.length = 64 := Codec.FixedBytes.length_bytes _
  have hget : node.refiners.getRefiner (vote block).refiner = some (refiner .active 961 0) := by
    rw [h.refiners]
    exact getRefiner_sole _
  have hsigned : verifyEd25519 primitives (vote block).refinerPubkey
      (blockAttestationSigningPayload (vote block).height (vote block).blockHash)
      (vote block).signature = true :=
    verifyEd25519_eq_true.mpr ⟨publicKey 1, _, rfl, rfl, rfl, verify_sign _ _⟩
  unfold OpolysNode.checkPendingAttestation
  rw [hkey]
  dsimp only
  rw [check_bind_eq_ok, check_bind_eq_ok, hget]
  refine ⟨hlength, rfl, ?_⟩
  dsimp only
  rw [check_bind_eq_ok, hstore]
  refine ⟨rfl, ?_⟩
  have hload' : store.loadBlock (vote block).height = some block := hload
  dsimp only
  rw [hload']
  dsimp only
  rw [check_bind_eq_ok, check_bind_eq_ok, check_eq_ok, hrefined.1, hrefined.2]
  exact ⟨rfl, rfl, hsigned⟩

/-- The vote comes into an empty pool. -/
theorem acceptBlockAttestation_vote (h : Holding block 0 node)
    (hempty : node.pendingAttestations = ∅) :
    ∃ node', OpolysNode.acceptBlockAttestation primitives (vote block) node = .ok true node' ∧
      node'.chain = node.chain ∧
      node'.pendingAttestations =
        (∅ : ExtTreeMap (UInt64 × ObjectId) BlockAttestation).insert (vote block).target
          (vote block) := by
  have hretained : (node.retainPending (saturatingSub node.chain.currentHeight
      epoch)).pendingAttestations = ∅ := by
    show ExtTreeMap.filter _ node.pendingAttestations = ∅
    rw [hempty]
    rfl
  have hrun : OpolysNode.acceptBlockAttestation primitives (vote block) node =
      .ok true { node with
        pendingAttestations := (node.retainPending (saturatingSub node.chain.currentHeight
          epoch)).pendingAttestations.insert (vote block).target (vote block) } := by
    unfold OpolysNode.acceptBlockAttestation
    rw [Effect.run_get_bind, Effect.run_ofExcept_bind_eq_ok]
    refine ⟨(), h.checkPendingAttestation, ?_⟩
    rw [Effect.run_modify_bind, Effect.run_get_bind, hretained, if_neg ExtTreeMap.not_mem_empty,
      Effect.run_modify_bind, Effect.run_pure_eq_ok, hretained]
    exact ⟨rfl, rfl⟩
  rw [hretained] at hrun
  exact ⟨_, hrun, rfl, rfl⟩

/-- A pool that holds the vote alone gives it to the next block that may carry it. -/
theorem mem_drainedKeys_vote
    (hpool : node.pendingAttestations =
      (∅ : ExtTreeMap (UInt64 × ObjectId) BlockAttestation).insert (vote block).target (vote block))
    {nextHeight : UInt64} (hrange : saturatingSub nextHeight epoch ≤ (vote block).target.1 ∧
      (vote block).target.1 < nextHeight) (keys : KeyOrder) :
    (vote block).target ∈ node.drainedKeys keys nextHeight := by
  have hpending : node.pendingAttestations[(vote block).target]? = some (vote block) := by
    rw [hpool]
    exact FiniteMap.getElem?_insert_self _ _ _
  have hkey : (vote block).target ∈ (node.includablePending nextHeight).keys := by
    apply ExtTreeMap.mem_keys.mpr
    apply ExtTreeMap.isSome_getElem?_iff_mem.mp
    rw [OpolysNode.getElem?_includablePending]
    refine (congrArg Option.isSome (if_pos hrange)).trans ?_
    rw [hpending]
    rfl
  have hfew : (node.includablePending nextHeight).keys.length ≤ 1 := by
    rw [ExtTreeMap.length_keys]
    refine le_trans ExtTreeMap.size_filter_le_size ?_
    rw [hpool]
    exact ExtTreeMap.size_insert_le
  unfold OpolysNode.drainedKeys
  rw [List.take_of_length_le]
  · exact (keys.perm _).mem_iff.mpr hkey
  · rw [(keys.perm _).length_eq]
    exact hfew.trans (by decide)

/-- Building the next block takes the vote out, whether a nonce is found or not. -/
theorem vote_lost (h : Holding block 0 node) (hheight : node.chain.currentHeight.toNat = 1921)
    (hempty : node.pendingAttestations = ∅) (env : AssemblyEnv) :
    ¬(Transition.run (PoolHistory.step primitives) (PoolHistory.start node)
      [.attest (vote block), .mine env]).Kept := by
  obtain ⟨node', hrun, hchain, hpool⟩ := acceptBlockAttestation_vote h hempty
  let history : PoolHistory :=
    { (PoolHistory.start node).moveTo node' with pooled := [vote block] }
  have hattest : (PoolHistory.start node).step primitives (.attest (vote block)) = history := by
    simp only [PoolHistory.step, PoolHistory.start, hrun]
    rfl
  have htop : history.top = 1921 := by
    show max node.chain.currentHeight.toNat node'.chain.currentHeight.toNat = 1921
    rw [hchain, hheight]
    rfl
  have htip : history.node.chain.currentHeight.toNat = 1921 := by
    show node'.chain.currentHeight.toNat = 1921
    rw [hchain, hheight]
  have hpending : node'.pendingAttestations[(vote block).target]? = some (vote block) := by
    rw [hpool]
    exact FiniteMap.getElem?_insert_self _ _ _
  have hblock : (vote block).height.toNat = 1921 := h.height
  have hundone : ¬history.Done (vote block) := by
    rintro (hincluded | hold)
    · exact List.not_mem_nil hincluded
    · omega
  have hmem : vote block ∈ history.pooled := List.mem_singleton_self _
  have hsound : history.Sound := by
    constructor
    · intro attestation hattestation
      rw [List.mem_singleton.mp hattestation]
      exact Or.inl hpending
    · omega
  show ¬(((PoolHistory.start node).step primitives (.attest (vote block))).step primitives
    (.mine env)).Kept
  rw [hattest, PoolHistory.step_mine, PoolHistory.kept_assembled hsound env]
  intro hidle
  rcases hidle _ hmem hpending with ⟨hnot, hrange⟩ | hdone
  · exact hnot (mem_drainedKeys_vote hpool hrange env.keys)
  · exact hundone hdone

end Lost

end Reference

open Reference

/-- A search that finds no nonce loses the vote that the block would have had. -/
theorem attestation_lost : ∃ calls attestation env,
    Transition.EveryStep (OpolysNode.step primitives)
      (fun node call => node.accepts primitives call = true) founder calls ∧
    (∀ header, env.search header = none) ∧
    ¬Transition.EveryState (PoolHistory.step primitives) PoolHistory.Kept
      (PoolHistory.start (Transition.run (OpolysNode.step primitives) founder calls))
      [.attest attestation, .mine env] := by
  obtain ⟨node, ⟨calls, -, hall, hrun⟩, hrefining⟩ := reaches_refining
  have hlate : 45 ≤ 90 ∧ 90 < 2 ^ 16 := ⟨by omega, by omega⟩
  have hrefine := accepts_refine hrefining hlate
  obtain ⟨hholding, hheight⟩ := holding_refine hrefining
  generalize refine 90 node = call at hrefine hholding hheight
  have hsame : Transition.run (OpolysNode.step primitives) founder (calls ++ [call]) =
      node.step primitives call := by
    rw [Transition.run_append, hrun]
    rfl
  have hempty : (node.step primitives call).pendingAttestations = ∅ := by
    rw [← hsame]
    obtain ⟨accounts, -, -, -, -, -, hnone⟩ := OpolysNode.new_fresh new_founder
    have hkeeps (node : OpolysNode) (call : Call) (h : node.pendingAttestations = ∅) :
        (node.step primitives call).pendingAttestations = ∅ :=
      (OpolysNode.pendingAttestations_step node call).trans h
    exact Transition.run_invariant hkeeps _ hnone
  let env : AssemblyEnv :=
    { nowSecs := 0, order := IterOrder.byId, keys := ⟨id, fun _ => .rfl⟩
      search := fun _ => none }
  refine ⟨calls ++ [call], vote call.block, env, ?_, fun _ => rfl, ?_⟩
  · refine Transition.everyStep_append.mpr ⟨hall, ?_⟩
    rw [hrun]
    exact ⟨hrefine, trivial⟩
  · rw [hsame]
    intro hkept
    exact vote_lost hholding hheight hempty env
      (Transition.everyState_iff.mp hkept _ [] (List.append_nil _).symm)

end Opolys
