import Opolys.Consensus.Retarget
import Opolys.Node.Applied

/-!
# The tip of the chain

Height, difficulty and timestamps change only when a block moves the tip, and a restart
brings back what was stored of them. A property of the tip that these two steps keep holds
in every run. One is that the window of timestamps is full once an epoch is over, so that
from then on every retarget is computed over a whole epoch.
-/

namespace Opolys

open Effect

variable {P : Primitives}

/-- What of the chain state only a block at the tip changes. -/
structure Tip where
  height : UInt64
  difficulty : UInt64
  timestamps : List UInt64
  baseReward : FlakeAmount
  genesisHash : Hash

def ChainState.tip (c : ChainState) : Tip where
  height := c.currentHeight
  difficulty := c.currentDifficulty
  timestamps := c.blockTimestamps
  baseReward := c.baseReward
  genesisHash := c.genesisHash

namespace Tip

/-- The tip after a block. -/
def advance (tip : Tip) (header : BlockHeader) : Tip :=
  { tip with
    height := header.height
    difficulty := header.difficulty
    timestamps := ChainState.pruneBlockTimestamps (tip.timestamps ++ [header.timestamp]) }

/-- The tip after a restart. -/
def restored (tip : Tip) : Tip :=
  { tip with
    timestamps := ChainState.pruneBlockTimestamps
      (ChainState.pruneBlockTimestamps tip.timestamps)
    baseReward := if tip.baseReward > 0 then tip.baseReward else Opolys.baseReward }

end Tip

theorem ChainState.tip_fromPersisted (c : ChainState) :
    (ChainState.fromPersisted c.toPersisted).tip = c.tip.restored := by
  dsimp only [ChainState.fromPersisted, ChainState.toPersisted, ChainState.tip, Tip.restored]

theorem ChainState.length_pruneBlockTimestamps (timestamps : List UInt64) :
    (pruneBlockTimestamps timestamps).length = min timestamps.length 961 := by
  unfold pruneBlockTimestamps
  rw [List.length_drop, blockTimestampWindowLen_eq]
  omega

theorem ChainState.pruneBlockTimestamps_of_le {timestamps : List UInt64}
    (h : timestamps.length ≤ 961) : pruneBlockTimestamps timestamps = timestamps := by
  unfold pruneBlockTimestamps
  rw [blockTimestampWindowLen_eq, Nat.sub_eq_zero_of_le h, List.drop_zero]

/-! ## Calls -/

theorem Accepted.tip_eq {env : Env} {block : Block} {node node' : OpolysNode} {st : Stages}
    (h : Accepted P env block node node' st) :
    node'.chain.tip = node.chain.tip.advance block.header := by
  rw [h.chain_eq]
  dsimp only [ChainState.tip, Tip.advance]

/-- A call that is rejected leaves the tip, or it has moved it to a block of the next
height before the error was found. -/
theorem OpolysNode.tip_of_rejects {node : OpolysNode} {call : Call}
    (h : node.accepts P call = false) :
    (node.step P call).chain.tip = node.chain.tip ∨
      call.block.header.height = node.chain.currentHeight + 1 ∧
        (node.step P call).chain.tip = node.chain.tip.advance call.block.header := by
  obtain ⟨message, hrun⟩ := rejects_eq h
  rcases (applyBlock_rejects call.env call.block node).error hrun with
    hsame | ⟨kind, hcheck, ⟨message, hattest⟩ |
      ⟨finalized, hattest, hstopped | ⟨-, hfunds | hmoved⟩⟩⟩
  · rw [hsame]
    exact Or.inl rfl
  · have hvotes := (processAttestations_votes call.block node).error hattest
    rw [hvotes]
    exact Or.inl rfl
  · have hvotes := (processAttestations_votes call.block node).ok hattest
    rw [hstopped, hvotes]
    exact Or.inl rfl
  · have hvotes := (processAttestations_votes call.block node).ok hattest
    rw [hfunds, hvotes]
    exact Or.inl rfl
  · have hvotes := (processAttestations_votes call.block node).ok hattest
    refine Or.inr ⟨(checkBlock_header hcheck).1, ?_⟩
    rw [hmoved, hvotes]
    dsimp only [ChainState.tip, Tip.advance, OpolysNode.note]

/-- A call leaves the tip or moves it to a block of the next height. -/
theorem OpolysNode.tip_step (node : OpolysNode) (call : Call) :
    (node.step P call).chain.tip = node.chain.tip ∨
      call.block.header.height = node.chain.currentHeight + 1 ∧
        (node.step P call).chain.tip = node.chain.tip.advance call.block.header := by
  cases haccept : node.accepts P call with
  | true =>
    obtain ⟨st, hst⟩ := accepted_of_accepts haccept
    exact Or.inr ⟨(checkBlock_header hst.check).1, hst.tip_eq⟩
  | false => exact tip_of_rejects haccept

/-- A node keeps its identity through every call. -/
theorem OpolysNode.identity_step (node : OpolysNode) (call : Call) :
    (node.step P call).minerId = node.minerId ∧
      (node.step P call).signingKey = node.signingKey := by
  cases haccept : node.accepts P call with
  | true =>
    obtain ⟨st, hst⟩ := accepted_of_accepts haccept
    rw [hst.node_eq, persist_frame, rankRefiners_eq, hst.paid_eq, hst.settled_eq, hst.executed_eq,
      hst.opened_eq, hst.finalized_frame]
    exact ⟨rfl, rfl⟩
  | false =>
    obtain ⟨message, hrun⟩ := rejects_eq haccept
    rcases (applyBlock_rejects call.env call.block node).error hrun with
      hsame | ⟨kind, hcheck, ⟨message, hattest⟩ |
        ⟨finalized, hattest, hstopped | ⟨-, hfunds | hmoved⟩⟩⟩
    · rw [hsame]
      exact ⟨rfl, rfl⟩
    · have hvotes := (processAttestations_votes call.block node).error hattest
      rw [hvotes]
      exact ⟨rfl, rfl⟩
    · have hvotes := (processAttestations_votes call.block node).ok hattest
      rw [hstopped, hvotes]
      exact ⟨rfl, rfl⟩
    · have hvotes := (processAttestations_votes call.block node).ok hattest
      rw [hfunds, hvotes]
      exact ⟨rfl, rfl⟩
    · have hvotes := (processAttestations_votes call.block node).ok hattest
      rw [hmoved, hvotes]
      exact ⟨rfl, rfl⟩

/-! ## Runs -/

/-- A property of the tip that holds at genesis and that every step keeps. -/
structure TipInvariant (P : Primitives) (config : GenesisConfig) (I : Tip → Prop) : Prop where
  genesis : ∀ {chain accounts refiners},
    OpolysNode.genesisState P config = .ok (chain, accounts, refiners) → I chain.tip
  advance : ∀ {tip} (header : BlockHeader), I tip → header.height = tip.height + 1 →
    I (tip.advance header)
  restored : ∀ {tip}, I tip → I tip.restored

namespace TipInvariant

variable {config : GenesisConfig} {I : Tip → Prop}

theorem step (hI : TipInvariant P config I) {node : OpolysNode} (h : I node.chain.tip)
    (call : Call) : I (node.step P call).chain.tip := by
  rcases OpolysNode.tip_step (P := P) node call with hsame | ⟨hheight, hmoved⟩
  · rw [hsame]
    exact h
  · rw [hmoved]
    exact hI.advance call.block.header h hheight

/-- The property holds of the tip and of what the database holds of it. -/
def Holds (I : Tip → Prop) (node : OpolysNode) : Prop :=
  I node.chain.tip ∧ ∀ store state, node.store = some store → store.chainState = some state →
    I (ChainState.fromPersisted state).tip

theorem holds_step (hI : TipInvariant P config I) {node : OpolysNode} (h : Holds I node)
    (call : Call) : Holds I (node.step P call) := by
  refine ⟨hI.step h.1 call, fun store state hstore hstate => ?_⟩
  cases haccept : node.accepts P call with
  | true =>
    obtain ⟨st, hst⟩ := OpolysNode.accepted_of_accepts haccept
    cases hold : node.store with
    | none =>
      rw [hst.store_eq_none hold] at hstore
      cases hstore
    | some old =>
      rcases hst.store_cases hold with hsame | ⟨-, store', hstore', hsaved⟩
      · obtain rfl := Option.some.inj (hstore.symm.trans hsame)
        exact h.2 store state hold hstate
      · obtain rfl := Option.some.inj (hstore.symm.trans hstore')
        obtain rfl := Option.some.inj (hstate.symm.trans hsaved.chainState_eq)
        rw [ChainState.tip_fromPersisted]
        exact hI.restored (hI.step h.1 call)
  | false =>
    obtain ⟨message, hrun⟩ := OpolysNode.rejects_eq haccept
    obtain ⟨hsame, -⟩ := tip_of_rejected ((applyBlock_rejects call.env call.block node).error hrun)
    exact h.2 store state (hsame ▸ hstore) hstate

theorem holds_new (hI : TipInvariant P config I) {keyFile : Option (List UInt8)}
    {store : BlockchainStore} {node : OpolysNode}
    (hnew : OpolysNode.new P config keyFile store = .ok node)
    (h : ∀ state, store.chainState = some state → I (ChainState.fromPersisted state).tip) :
    Holds I node := by
  obtain ⟨hstore, accounts, -, hloaded⟩ := OpolysNode.new_eq_ok hnew
  refine ⟨?_, fun store' state hstore' hstate => ?_⟩
  · rcases hloaded with ⟨hgenesis, -⟩ | ⟨-, -, state, hstate, hchain⟩
    · exact hI.genesis hgenesis
    · rw [hchain]
      exact h state hstate
  · obtain rfl := Option.some.inj (hstore.symm.trans hstore')
    exact h state hstate

theorem holds_next (hI : TipInvariant P config I) {node : OpolysNode} (h : Holds I node)
    (event : OpolysNode.Event) : Holds I (node.next P config event) := by
  fun_cases OpolysNode.next P config node event with
  | case1 call => exact hI.holds_step h call
  | case2 keyFile hnone => exact h
  | case3 keyFile store hstore =>
    cases hnew : OpolysNode.new P config keyFile store with
    | error message => exact h
    | ok node' => exact hI.holds_new hnew fun state hstate => h.2 store state hstore hstate

/-- The property holds in every run from genesis, with calls that are accepted or rejected
and with restarts. -/
theorem run (hI : TipInvariant P config I) {keyFile : Option (List UInt8)} {start : OpolysNode}
    (hnew : OpolysNode.new P config keyFile BlockchainStore.empty = .ok start)
    (events : List OpolysNode.Event) :
    I (Transition.run (OpolysNode.next P config) start events).chain.tip := by
  have hstart : Holds I start := hI.holds_new hnew nofun
  clear hnew
  induction events generalizing start with
  | nil => exact hstart.1
  | cons event events ih => exact ih (hI.holds_next hstart event)

end TipInvariant

/-! ## The window and the next difficulty -/

/-- The window is full, or it reaches back to genesis. -/
def Tip.Windowed (tip : Tip) : Prop :=
  tip.timestamps.length = 961 ∨
    tip.timestamps.length = tip.height.toNat + 1 ∧ tip.height.toNat < 960

theorem windowed_invariant (P : Primitives) (config : GenesisConfig) :
    TipInvariant P config Tip.Windowed where
  genesis hgenesis := by
    obtain ⟨-, hheight, -, -, -, hlength, -⟩ := OpolysNode.genesisState_chain hgenesis
    refine Or.inr ?_
    dsimp only [ChainState.tip]
    rw [hlength, hheight]
    exact ⟨rfl, by decide⟩
  advance {tip} header h hheight := by
    unfold Tip.Windowed at h ⊢
    dsimp only [Tip.advance]
    rw [ChainState.length_pruneBlockTimestamps, List.length_append, List.length_singleton, hheight]
    rcases h with hfull | ⟨hlength, hlt⟩
    · omega
    · have hone : (1 : UInt64).toNat = 1 := rfl
      rw [MachineInt.toNat_add_of_lt (by omega), hone]
      omega
  restored {tip} h := by
    unfold Tip.Windowed at h ⊢
    dsimp only [Tip.restored]
    rw [ChainState.length_pruneBlockTimestamps, ChainState.length_pruneBlockTimestamps]
    omega

namespace OpolysNode

/-- The difficulty computed for the next block and its parts. -/
def nextDifficulty (node : OpolysNode) : DifficultyTarget :=
  computeNextDifficulty node.chain.currentDifficulty node.chain.currentHeight
    node.chain.blockTimestamps node.chain.totalIssued node.refiners.totalBondedStake

theorem expectedDifficulty_eq (node : OpolysNode) :
    node.expectedDifficulty = node.nextDifficulty.effectiveDifficulty := rfl

theorem toNat_expectedDifficulty (node : OpolysNode) :
    node.expectedDifficulty.toNat =
      max (max node.nextDifficulty.retarget.toNat node.nextDifficulty.consensusFloor.toNat) 1 := by
  rw [expectedDifficulty_eq, DifficultyTarget.effectiveDifficulty, MachineInt.toNat_max,
    MachineInt.toNat_max, toNat_minDifficulty]

/-- The milliseconds the node's window spans. -/
def elapsedMs (node : OpolysNode) : UInt64 :=
  windowMs node.chain.currentHeight node.chain.blockTimestamps

/-- Before the first epoch is over the difficulty is held, and from then on it is adjusted. -/
theorem retarget_eq {node : OpolysNode} (h : node.chain.tip.Windowed) :
    node.nextDifficulty.retarget =
      if node.chain.currentHeight < epoch then max node.chain.currentDifficulty minDifficulty
      else adjustedDifficulty node.chain.currentDifficulty node.elapsedMs := by
  unfold nextDifficulty computeNextDifficulty
  dsimp only
  split
  · rename_i hlt
    exact computeRetarget_of_lt hlt _ _
  · rename_i hge
    have hfull : node.chain.blockTimestamps.length = 961 :=
      h.resolve_right fun hshort => hge (UInt64.lt_iff_toNat_lt.mpr hshort.2)
    exact computeRetarget_of_full hge hfull _

end OpolysNode

end Opolys
