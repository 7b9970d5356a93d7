import Opolys.Node.Assembly
import Mathlib.Data.List.Chain

/-!
# The time between blocks

Every block has to come at least half a target interval after its parent. Refiners are meant
to produce only on a stalled chain, but that a refiner waits a whole interval before it signs is
a matter of its own loop: a block it signs earlier is accepted.

* `spaced_run` : the distance that every run keeps.
* `stalls_filled_iff` : a run has its refined blocks in stalls only if and only if no refined
  block is handed in within a whole interval of the tip.
-/

namespace Opolys

open MachineInt (saturatingAdd)

variable {P : Primitives}

/-- A header on top of another one, at least half a target interval later. -/
structure BlockHeader.Follows (P : Primitives) (parent header : BlockHeader) : Prop where
  previousHash : header.previousHash = computeBlockHash P parent
  timestamp : header.productionKind ≠ some .genesis →
    saturatingAdd parent.timestamp minimumBlockTimestampDeltaSecs ≤ header.timestamp

/-- A refined header that comes at least a whole target interval after its parent. -/
def BlockHeader.FillsStall (parent header : BlockHeader) : Prop :=
  header.isRefined = true →
    parent.timestamp.toNat + blockTargetTimeSecs.toNat ≤ header.timestamp.toNat

/-- The timestamp of the tip. -/
def OpolysNode.tipTimestamp (node : OpolysNode) : UInt64 :=
  node.chain.blockTimestamps.getLast?.getD 0

/-- A refined block that is handed in less than a whole target interval after the tip, but late
enough for the minimum that is asked of every block. -/
def Hasty (node : OpolysNode) (call : Call) : Prop :=
  call.block.header.isRefined = true ∧
    saturatingAdd node.tipTimestamp minimumBlockTimestampDeltaSecs ≤
      call.block.header.timestamp ∧
    call.block.header.timestamp.toNat < node.tipTimestamp.toNat + blockTargetTimeSecs.toNat

/-- The header is the tip of the node. -/
structure OpolysNode.AtTip (P : Primitives) (header : BlockHeader) (node : OpolysNode) :
    Prop where
  hash : node.chain.latestBlockHash = computeBlockHash P header
  timestamp : node.chain.blockTimestamps.getLast? = some header.timestamp

/-- The headers of the blocks of a list of calls. -/
def headersOf (calls : List Call) : List BlockHeader := calls.map fun call => call.block.header

theorem checkBlock_timestamp {env : Env} {block : Block} {node : OpolysNode}
    {kind : BlockProductionKind} (h : checkBlock P env block node = .ok kind) :
    block.header.productionKind = some kind ∧ (node.chain.currentHeight + 1 > 0 →
      saturatingAdd (node.chain.blockTimestamps.getLast?.getD 0) minimumBlockTimestampDeltaSecs ≤
        block.header.timestamp) := by
  obtain ⟨hval, hkind, -⟩ := checkBlock_validated h
  obtain ⟨-, -, -, htimestamp, -⟩ := checkHeader_eq_ok.mp (validateBlock_eq_ok.mp hval).1
  exact ⟨hkind, htimestamp⟩

/-- An accepted block follows the tip and is the tip from then on. -/
theorem OpolysNode.AtTip.step {parent : BlockHeader} {node : OpolysNode} (h : node.AtTip P parent)
    {call : Call} (haccepts : node.accepts P call = true) :
    parent.Follows P call.block.header ∧ (node.step P call).AtTip P call.block.header := by
  obtain ⟨st, hst⟩ := accepted_of_accepts haccepts
  obtain ⟨hheight, hprevious, -⟩ := checkBlock_header hst.check
  obtain ⟨hkind, htimestamp⟩ := checkBlock_timestamp hst.check
  refine ⟨⟨hprevious.trans h.hash, fun hnot => ?_⟩, ?_, ?_⟩
  · have hpos := height_pos_of_kind hkind fun hgenesis => hnot (hgenesis ▸ hkind)
    rw [hheight] at hpos
    have hle := htimestamp hpos
    rwa [h.timestamp] at hle
  · rw [hst.chain_eq]
  · rw [hst.chain_eq]
    dsimp only
    unfold ChainState.pruneBlockTimestamps
    rw [List.getLast?_drop, if_neg, List.getLast?_concat]
    rw [List.length_append, List.length_singleton, blockTimestampWindowLen_eq]
    omega

/-- Along a run of accepted blocks every header follows the one before. -/
theorem OpolysNode.AtTip.run {parent : BlockHeader} {node : OpolysNode} (h : node.AtTip P parent)
    {calls : List Call} (hall : Transition.EveryStep (OpolysNode.step P)
      (fun node call => node.accepts P call = true) node calls) :
    List.IsChain (BlockHeader.Follows P) (parent :: headersOf calls) ∧
      ∃ header, (parent :: headersOf calls).getLast? = some header ∧
        (Transition.run (OpolysNode.step P) node calls).AtTip P header := by
  induction calls generalizing parent node with
  | nil => exact ⟨List.isChain_singleton _, parent, rfl, h⟩
  | cons call calls ih =>
    obtain ⟨hfollows, htip⟩ := h.step hall.1
    obtain ⟨hchain, header, hlast, hrun⟩ := ih htip hall.2
    exact ⟨List.isChain_cons_cons.mpr ⟨hfollows, hchain⟩, header, hlast, hrun⟩

/-- A fresh node stands at the genesis block. -/
theorem OpolysNode.atTip_new {config : GenesisConfig} {keyFile : Option (List UInt8)}
    {start : OpolysNode}
    (hnew : OpolysNode.new P config keyFile BlockchainStore.empty = .ok start) :
    ∃ genesis, buildGenesisBlock P config = .ok genesis ∧ start.AtTip P genesis.header := by
  obtain ⟨accounts, hgenesis, -⟩ := OpolysNode.new_fresh hnew
  unfold OpolysNode.genesisState at hgenesis
  obtain ⟨chain, hchain, hgenesis⟩ := Effect.bind_eq_ok.mp hgenesis
  obtain ⟨⟨accounts', issued⟩, -, hgenesis⟩ := Effect.bind_eq_ok.mp hgenesis
  obtain ⟨hstart, -⟩ := Prod.mk.inj (Except.ok.inj hgenesis)
  unfold ChainState.new at hchain
  cases hbuild : buildGenesisBlock P config with
  | error e =>
    rw [hbuild] at hchain
    cases hchain
  | ok genesis =>
    rw [hbuild] at hchain
    cases hchain
    refine ⟨genesis, rfl, ?_, ?_⟩ <;> rw [← hstart]
    rfl

/-- In every run of accepted blocks from genesis, every block is at least half a target
interval later than its parent. -/
theorem spaced_run {config : GenesisConfig} {keyFile : Option (List UInt8)} {start : OpolysNode}
    (hnew : OpolysNode.new P config keyFile BlockchainStore.empty = .ok start)
    (calls : List Call) (hall : Transition.EveryStep (OpolysNode.step P)
      (fun node call => node.accepts P call = true) start calls) :
    ∃ genesis, buildGenesisBlock P config = .ok genesis ∧
      List.IsChain (BlockHeader.Follows P) (genesis.header :: headersOf calls) := by
  obtain ⟨genesis, hbuild, htip⟩ := OpolysNode.atTip_new hnew
  exact ⟨genesis, hbuild, (htip.run hall).1⟩

/-! ## Stalls -/

/-- An accepted block fills a stall exactly when it is not hasty. -/
theorem OpolysNode.AtTip.fillsStall_iff {parent : BlockHeader} {node : OpolysNode}
    (h : node.AtTip P parent) {call : Call} (haccepts : node.accepts P call = true) :
    parent.FillsStall call.block.header ↔ ¬Hasty node call := by
  have htip : node.tipTimestamp = parent.timestamp := by
    unfold tipTimestamp
    rw [h.timestamp, Option.getD_some]
  have hfollows := (h.step haccepts).1
  unfold BlockHeader.FillsStall Hasty
  rw [htip]
  constructor
  · rintro hfills ⟨hrefined, -, hearly⟩
    exact absurd (hfills hrefined) (by omega)
  · intro hpatient hrefined
    by_contra hearly
    have hkind : call.block.header.productionKind = some .refined := of_decide_eq_true hrefined
    refine hpatient ⟨hrefined, hfollows.timestamp ?_, by omega⟩
    rw [hkind]
    nofun

theorem OpolysNode.AtTip.fillStalls_iff {parent : BlockHeader} {node : OpolysNode}
    (h : node.AtTip P parent) {calls : List Call}
    (hall : Transition.EveryStep (OpolysNode.step P)
      (fun node call => node.accepts P call = true) node calls) :
    List.IsChain BlockHeader.FillsStall (parent :: headersOf calls) ↔
      Transition.EveryStep (OpolysNode.step P) (fun node call => ¬Hasty node call) node calls := by
  induction calls generalizing parent node with
  | nil => exact iff_of_true (List.isChain_singleton _) trivial
  | cons call calls ih =>
    have hchain : parent :: headersOf (call :: calls) =
        parent :: call.block.header :: headersOf calls := rfl
    rw [hchain, List.isChain_cons_cons, h.fillsStall_iff hall.1, ih (h.step hall.1).2 hall.2]
    exact Iff.rfl

/-- The block of a refiner comes a whole target interval after its parent exactly when the clock of
the refiner has come as far. -/
theorem produceRefinerBlock_timestamp {env : AssemblyEnv} {node : OpolysNode} {block : Block}
    (h : (node.produceRefinerBlock P env).1 = some block) :
    node.tipTimestamp.toNat + blockTargetTimeSecs.toNat ≤ block.header.timestamp.toNat ↔
      node.tipTimestamp.toNat + blockTargetTimeSecs.toNat ≤ env.nowSecs.toNat := by
  obtain ⟨seed, candidate, hcandidate, rfl⟩ := OpolysNode.produceRefinerBlock_eq_some h
  obtain ⟨-, -, -, -, -, htime, -⟩ := OpolysNode.candidateBlock_eq_ok hcandidate
  have hsigned : (withRefinerSignature P seed candidate).header.timestamp =
      (node.assembleBody env).2.candidateTimestamp env.nowSecs := htime
  have hparent : (node.assembleBody env).2.candidateTimestamp env.nowSecs =
      max env.nowSecs (saturatingAdd node.tipTimestamp minimumBlockTimestampDeltaSecs) := rfl
  have hfortyfive : minimumBlockTimestampDeltaSecs.toNat = 45 := rfl
  have hninety : blockTargetTimeSecs.toNat = 90 := rfl
  have hlt := env.nowSecs.toNat_lt
  rw [hsigned, hparent, MachineInt.toNat_max, MachineInt.toNat_saturatingAdd, hfortyfive, hninety]
  omega

/-- In a run of accepted blocks from genesis every refined block comes at least a whole target
interval after its parent if and only if none is handed in earlier. The block that a refiner
produces meets this exactly when its clock has come a whole interval further than the tip. -/
theorem stalls_filled_iff {config : GenesisConfig} {keyFile : Option (List UInt8)}
    {start : OpolysNode}
    (hnew : OpolysNode.new P config keyFile BlockchainStore.empty = .ok start)
    (calls : List Call) (hall : Transition.EveryStep (OpolysNode.step P)
      (fun node call => node.accepts P call = true) start calls) :
    (∃ genesis, buildGenesisBlock P config = .ok genesis ∧
        (List.IsChain BlockHeader.FillsStall (genesis.header :: headersOf calls) ↔
          Transition.EveryStep (OpolysNode.step P) (fun node call => ¬Hasty node call)
            start calls)) ∧
      ∀ (node : OpolysNode) (env : AssemblyEnv) (block : Block),
        (node.produceRefinerBlock P env).1 = some block →
          (node.tipTimestamp.toNat + blockTargetTimeSecs.toNat ≤ block.header.timestamp.toNat ↔
            node.tipTimestamp.toNat + blockTargetTimeSecs.toNat ≤ env.nowSecs.toNat) := by
  obtain ⟨genesis, hbuild, htip⟩ := OpolysNode.atTip_new hnew
  exact ⟨⟨genesis, hbuild, htip.fillStalls_iff hall⟩,
    fun _ _ _ => produceRefinerBlock_timestamp⟩

/-- A run in which the refiner signs the last block, 90 seconds after its parent. -/
theorem stalls_filled_of_reference : ∃ node calls genesis,
    Reference.Refining node ∧
      buildGenesisBlock Reference.primitives Reference.bondConfig = .ok genesis ∧
      List.IsChain BlockHeader.FillsStall
        (genesis.header :: headersOf (calls ++ [Reference.refine 90 node])) := by
  obtain ⟨node, ⟨calls, hplain, hall, hnode⟩, hrefining⟩ := Reference.reaches_refining
  have hlate : 45 ≤ 90 ∧ 90 < 2 ^ 16 := by decide
  have haccepts : node.accepts Reference.primitives (Reference.refine 90 node) = true :=
    Reference.accepts_refine hrefining hlate
  have hrun : Transition.EveryStep (OpolysNode.step Reference.primitives)
      (fun node call => node.accepts Reference.primitives call = true) Reference.founder
      (calls ++ [Reference.refine 90 node]) := by
    refine Transition.everyStep_append.mpr ⟨hall, ?_⟩
    rw [hnode]
    exact ⟨haccepts, trivial⟩
  obtain ⟨⟨genesis, hbuild, hiff⟩, -⟩ := stalls_filled_iff Reference.new_founder _ hrun
  refine ⟨node, calls, genesis, hrefining, hbuild,
    hiff.mpr (Transition.everyStep_append.mpr ⟨?_, ?_⟩)⟩
  · refine Transition.everyStep_iff.mpr fun before call after hcalls hhasty => ?_
    have hsignature := (hplain call (by rw [hcalls]; simp)).signature
    have hkind : call.block.header.productionKind = some .refined :=
      of_decide_eq_true hhasty.1
    unfold BlockHeader.productionKind at hkind
    rw [hsignature] at hkind
    cases hzero : decide (call.block.header.height = 0) <;>
      cases hpow : call.block.header.powProof.isSome <;> rw [hzero, hpow] at hkind <;> cases hkind
  · rw [hnode]
    refine ⟨fun hhasty => ?_, trivial⟩
    have hearly := hhasty.2.2
    have hninety : blockTargetTimeSecs.toNat = 90 := rfl
    have hblock := (Reference.checkBlock_refine hrefining hlate).2
    have hheight := hrefining.height
    have htip : node.tipTimestamp.toNat = node.chain.currentHeight.toNat * 90 := by
      have hlast : node.chain.blockTimestamps.getLast? =
        some (UInt64.ofNat (node.chain.currentHeight.toNat * 90)) := hrefining.ticking.getLast?
      unfold OpolysNode.tipTimestamp
      rw [hlast, Option.getD_some, MachineInt.toNat_ofNat_of_lt (by omega)]
    rw [hblock.timestamp, htip, hninety] at hearly
    omega

/-- A run in which the last block is signed 45 seconds after its parent. -/
theorem refined_early :
    OpolysNode.new Reference.primitives Reference.bondConfig (some (Reference.seed 1).bytes)
        BlockchainStore.empty = .ok Reference.founder ∧
      ∃ calls genesis, buildGenesisBlock Reference.primitives Reference.bondConfig = .ok genesis ∧
        Transition.EveryStep (OpolysNode.step Reference.primitives)
          (fun node call => node.accepts Reference.primitives call = true) Reference.founder calls ∧
        ¬List.IsChain BlockHeader.FillsStall (genesis.header :: headersOf calls) := by
  refine ⟨Reference.new_founder, ?_⟩
  obtain ⟨genesis, hbuild, htip⟩ := OpolysNode.atTip_new Reference.new_founder
  obtain ⟨node, ⟨calls, -, hall, hnode⟩, hrefining⟩ := Reference.reaches_refining
  obtain ⟨-, parent, hlast, hparent⟩ := htip.run hall
  rw [hnode] at hparent
  have hlate : 45 ≤ 45 ∧ 45 < 2 ^ 16 := by decide
  have haccepts := Reference.accepts_refine hrefining hlate
  obtain ⟨hcheck, hblock⟩ := Reference.checkBlock_refine hrefining hlate
  have hrefined := (checkBlock_timestamp hcheck).1
  generalize Reference.refine 45 node = call at haccepts hblock hrefined
  have htime : parent.timestamp.toNat = node.chain.currentHeight.toNat * 90 := by
    have hticking := hrefining.ticking.getLast?
    have hsome := hparent.timestamp.symm.trans hticking
    have hheight := hrefining.height
    rw [Option.some.inj hsome]
    exact MachineInt.toNat_ofNat_of_lt (by change node.chain.currentHeight.toNat * 90 < _; omega)
  refine ⟨calls ++ [call], genesis, hbuild, Transition.everyStep_append.mpr ⟨hall, ?_⟩,
    fun hchain => ?_⟩
  · rw [hnode]
    exact ⟨haccepts, trivial⟩
  · have hheaders : genesis.header :: headersOf (calls ++ [call]) =
        (genesis.header :: headersOf calls) ++ [call.block.header] := by
      unfold headersOf
      rw [List.map_append]
      rfl
    rw [hheaders, List.isChain_append] at hchain
    have hstall := hchain.2.2 parent hlast call.block.header rfl (decide_eq_true hrefined)
    have hninety : blockTargetTimeSecs.toNat = 90 := rfl
    rw [hblock.timestamp, htime, hninety] at hstall
    omega

end Opolys
