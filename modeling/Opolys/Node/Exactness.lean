import Opolys.Node.Spacing

/-!
# When the retarget is exact

The blocks of a window are at least half a target interval apart, so that a retarget can at
most double the difficulty. It is computed again after every block, though, and refined
blocks need no work: when they keep coming early, the difficulty doubles with each of them
until the quotient does not fit into a word any more.

* `retargetsExactly_iff` : the runs in which every retarget is exact.
* `doubled_beyond_word` : a run in which one is not.
-/

namespace Opolys

variable {P : Primitives}

/-! ## Windows of blocks that are apart -/

/-- The block comes at least half a target interval after the tip. -/
def Apart (node : OpolysNode) (call : Call) : Prop :=
  (node.chain.blockTimestamps.getLast?.getD 0).toNat + minimumBlockTimestampDeltaSecs.toNat ≤
    call.block.header.timestamp.toNat

/-- A window of timestamps that are half a target interval apart. -/
structure Tip.Spaced (tip : Tip) : Prop where
  windowed : tip.Windowed
  apart : tip.timestamps.IsChain fun parent timestamp => parent.toNat + 45 ≤ timestamp.toNat
  grown : 45 * tip.height.toNat ≤ (tip.timestamps.getLast?.getD 0).toNat
  worked : tip.height = 0 ∨ 1 ≤ tip.difficulty.toNat

theorem Tip.getLast?_advance (tip : Tip) (header : BlockHeader) :
    (tip.advance header).timestamps.getLast? = some header.timestamp := by
  dsimp only [Tip.advance]
  unfold ChainState.pruneBlockTimestamps
  rw [List.getLast?_drop, if_neg, List.getLast?_concat]
  rw [List.length_append, List.length_singleton, blockTimestampWindowLen_eq]
  omega

namespace Tip.Spaced

theorem advance {tip : Tip} (h : tip.Spaced) {header : BlockHeader}
    (hheight : header.height = tip.height + 1) (hdifficulty : 1 ≤ header.difficulty.toNat)
    (hlater : (tip.timestamps.getLast?.getD 0).toNat + 45 ≤ header.timestamp.toNat) :
    (tip.advance header).Spaced := by
  have hone : (1 : UInt64).toNat = 1 := rfl
  have hgrown := h.grown
  have hlt := header.timestamp.toNat_lt
  have hnext : header.height.toNat = tip.height.toNat + 1 := by
    rw [hheight, MachineInt.toNat_add_of_lt (by omega), hone]
  refine ⟨?_, ?_, ?_, Or.inr hdifficulty⟩
  · -- the window slides
    have hwindowed := h.windowed
    unfold Tip.Windowed at hwindowed ⊢
    dsimp only [Tip.advance]
    rw [ChainState.length_pruneBlockTimestamps, List.length_append, List.length_singleton, hnext]
    omega
  · dsimp only [Tip.advance]
    unfold ChainState.pruneBlockTimestamps
    refine List.IsChain.drop ?_ _
    refine List.isChain_append.mpr ⟨h.apart, List.isChain_singleton _, fun last hlast t ht => ?_⟩
    obtain rfl : header.timestamp = t := Option.some.inj ht
    have hlast' : tip.timestamps.getLast? = some last := hlast
    rw [hlast', Option.getD_some] at hlater
    exact hlater
  · rw [getLast?_advance, Option.getD_some]
    change 45 * header.height.toNat ≤ _
    omega

/-- Over any part of the window the distances add up. -/
theorem distance {tip : Tip} (h : tip.Spaced) {i : ℕ} (hi : i < tip.timestamps.length) :
    (tip.timestamps.getD 0 0).toNat + 45 * i ≤ (tip.timestamps.getD i 0).toNat := by
  have hget (j : ℕ) (hj : j < tip.timestamps.length) :
      tip.timestamps.getD j 0 = tip.timestamps[j] := by
    rw [List.getD_eq_getElem?_getD, List.getElem?_eq_getElem hj, Option.getD_some]
  induction i with
  | zero => exact le_rfl
  | succ i ih =>
    have hgap := List.isChain_iff_getElem.mp h.apart i hi
    have hbefore := ih (Nat.lt_of_succ_lt hi)
    rw [hget i (Nat.lt_of_succ_lt hi)] at hbefore
    rw [hget (i + 1) hi]
    omega

end Tip.Spaced

namespace OpolysNode

/-- The milliseconds that the window spans, as they are. -/
def spanMs (node : OpolysNode) : ℕ :=
  ((node.chain.blockTimestamps.getD 960 0).toNat - (node.chain.blockTimestamps.getD 0 0).toNat) *
    1000

/-- Until the first epoch is over the difficulty is held, and from then on it is the exact
retarget, which is at most twice what it was. -/
structure RetargetsExactly (node : OpolysNode) : Prop where
  held : node.chain.currentHeight < epoch →
    node.nextDifficulty.retarget = max node.chain.currentDifficulty minDifficulty
  exact : ¬node.chain.currentHeight < epoch →
    (node.nextDifficulty.retarget.toNat : ℤ) =
      exactRetarget node.chain.currentDifficulty.toNat node.spanMs
  bounded : ¬node.chain.currentHeight < epoch →
    node.nextDifficulty.retarget.toNat ≤ 2 * node.chain.currentDifficulty.toNat

/-- The span of the window fits into a word. -/
def SpanFits (node : OpolysNode) : Prop := node.spanMs < 2 ^ 64

/-- The rounded quotient of a full window fits into a word. -/
def QuotientFits (node : OpolysNode) : Prop :=
  ¬node.chain.currentHeight < epoch →
    node.chain.currentDifficulty.toNat * epochTimeMs + node.spanMs / 2 < 2 ^ 64 * node.spanMs

/-- A full window spans at least half the time of an epoch, to the millisecond while it fits
into a word. -/
theorem elapsedMs_of_spaced {node : OpolysNode} (h : node.chain.tip.Spaced)
    (hfull : ¬node.chain.currentHeight < epoch) :
    epochTimeMs ≤ 2 * node.spanMs ∧ (node.SpanFits → node.elapsedMs.toNat = node.spanMs) := by
  have hthousand : (1000 : UInt64).toNat = 1000 := rfl
  have hlength : node.chain.blockTimestamps.length = 961 :=
    h.windowed.resolve_right fun hshort => hfull (UInt64.lt_iff_toNat_lt.mpr hshort.2)
  have hlt : 960 < node.chain.blockTimestamps.length := by
    rw [hlength]
    omega
  have hdistance := h.distance hlt
  change (node.chain.blockTimestamps.getD 0 0).toNat + 45 * 960 ≤
    (node.chain.blockTimestamps.getD 960 0).toNat at hdistance
  have hgrown := h.grown
  have hlast := (node.chain.tip.timestamps.getLast?.getD 0).toNat_lt
  have hheight : node.chain.currentHeight.toNat + 1 < 2 ^ 64 := by
    change 45 * node.chain.currentHeight.toNat ≤ _ at hgrown
    omega
  refine ⟨?_, fun hfits => ?_⟩
  · unfold spanMs
    rw [epochTimeMs_eq]
    omega
  · unfold SpanFits spanMs at hfits
    unfold elapsedMs windowMs spanMs
    rw [if_pos hheight, MachineInt.toNat_saturatingMul, MachineInt.toNat_saturatingSub, hthousand]
    omega

/-- Where the span fits into a word, the retarget is exact if and only if the quotient
does, too. -/
theorem retargetsExactly_iff_quotientFits {node : OpolysNode} (h : node.chain.tip.Spaced)
    (hspan : node.SpanFits) : node.RetargetsExactly ↔ node.QuotientFits := by
  have hretarget := retarget_eq h.windowed
  by_cases hheight : node.chain.currentHeight < epoch
  · rw [if_pos hheight] at hretarget
    exact iff_of_true ⟨fun _ => hretarget, fun hnot => absurd hheight hnot,
      fun hnot => absurd hheight hnot⟩ fun hnot => absurd hheight hnot
  · rw [if_neg hheight] at hretarget
    obtain ⟨hhalf, helapsed⟩ := elapsedMs_of_spaced h hheight
    have hpos : 1 ≤ node.chain.currentDifficulty.toNat := by
      refine h.worked.resolve_left fun hzero => hheight ?_
      change node.chain.currentHeight = 0 at hzero
      rw [hzero]
      decide
    have hhalf' : epochTimeMs ≤ 2 * node.elapsedMs.toNat := by
      rw [helapsed hspan]
      exact hhalf
    have hiff := adjustedDifficulty_exact_iff hpos hhalf'
    rw [helapsed hspan, ← hretarget] at hiff
    constructor
    · intro hexact _
      exact hiff.mp ⟨hexact.exact hheight, hexact.bounded hheight⟩
    · intro hfits
      obtain ⟨hexact, hbounded⟩ := hiff.mpr (hfits hheight)
      exact ⟨fun hlt => absurd hlt hheight, fun _ => hexact, fun _ => hbounded⟩

theorem spaced_step {node : OpolysNode} (h : node.chain.tip.Spaced) {call : Call}
    (haccepts : node.accepts P call = true) (hapart : Apart node call) :
    (node.step P call).chain.tip.Spaced := by
  obtain ⟨st, hst⟩ := accepted_of_accepts haccepts
  obtain ⟨hheight, -, hdifficulty, -⟩ := checkBlock_header hst.check
  rw [hst.tip_eq]
  refine h.advance hheight ?_ hapart
  rw [hdifficulty, toNat_expectedDifficulty]
  exact Nat.le_max_right _ _

theorem spaced_new {config : GenesisConfig} {keyFile : Option (List UInt8)} {start : OpolysNode}
    (hnew : OpolysNode.new P config keyFile BlockchainStore.empty = .ok start) :
    start.chain.tip.Spaced := by
  obtain ⟨accounts, hgenesis, -⟩ := new_fresh hnew
  obtain ⟨-, hheight, -, -, -, hlength, -⟩ := genesisState_chain hgenesis
  refine ⟨(windowed_invariant P config).genesis hgenesis, ?_, ?_, Or.inl hheight⟩
  · obtain ⟨timestamp, htimestamp⟩ := List.length_eq_one_iff.mp hlength
    change start.chain.blockTimestamps.IsChain _
    rw [htimestamp]
    exact List.isChain_singleton _
  · change 45 * start.chain.currentHeight.toNat ≤ _
    rw [hheight]
    exact Nat.zero_le _

end OpolysNode

/-- In every run of accepted blocks from genesis that are half a target interval apart, every
retarget is exact and at most doubles the difficulty where every window spans a word of
milliseconds at most and every quotient fits into a word. Of such windows only those are
rounded as they should be. -/
theorem retargetsExactly_iff {config : GenesisConfig} {keyFile : Option (List UInt8)}
    {start : OpolysNode}
    (hnew : OpolysNode.new P config keyFile BlockchainStore.empty = .ok start)
    (calls : List Call)
    (hall : Transition.EveryStep (OpolysNode.step P)
      (fun node call => node.accepts P call = true ∧ Apart node call) start calls) :
    (Transition.EveryState (OpolysNode.step P)
        (fun node => node.SpanFits ∧ node.QuotientFits) start calls →
      Transition.EveryState (OpolysNode.step P) OpolysNode.RetargetsExactly start calls) ∧
    (Transition.EveryState (OpolysNode.step P) OpolysNode.SpanFits start calls →
      Transition.EveryState (OpolysNode.step P) OpolysNode.RetargetsExactly start calls →
        Transition.EveryState (OpolysNode.step P) OpolysNode.QuotientFits start calls) := by
  have hstep : ∀ (node : OpolysNode) (call : Call), node.chain.tip.Spaced →
      node.accepts P call = true ∧ Apart node call → (node.step P call).chain.tip.Spaced :=
    fun _ _ h hcall => OpolysNode.spaced_step h hcall.1 hcall.2
  have hspaced : ∀ before after, calls = before ++ after →
      (Transition.run (OpolysNode.step P) start before).chain.tip.Spaced := by
    rintro before after rfl
    exact Transition.invariant_run hstep (OpolysNode.spaced_new hnew)
      (Transition.everyStep_append.mp hall).1
  simp only [Transition.everyState_iff]
  refine ⟨fun hfits before after hcalls => ?_, fun hspan hexact before after hcalls => ?_⟩
  · obtain ⟨hspan, hquotient⟩ := hfits before after hcalls
    exact (OpolysNode.retargetsExactly_iff_quotientFits (hspaced before after hcalls) hspan).mpr
      hquotient
  · exact (OpolysNode.retargetsExactly_iff_quotientFits (hspaced before after hcalls)
      (hspan before after hcalls)).mp (hexact before after hcalls)

/-- Accepted blocks are apart, unless the height wraps around or the clock is at its end. -/
theorem apart_of_accepts {node : OpolysNode} {calls : List Call}
    (hall : Transition.EveryStep (OpolysNode.step P)
      (fun node call => node.accepts P call = true) node calls)
    (hheight : (Transition.run (OpolysNode.step P) node calls).chain.currentHeight.toNat =
      node.chain.currentHeight.toNat + calls.length)
    (hclock : ((Transition.run (OpolysNode.step P) node calls).chain.blockTimestamps.getLast?.getD
      0).toNat + 45 < 2 ^ 64) :
    Transition.EveryStep (OpolysNode.step P)
        (fun node call => node.accepts P call = true ∧ Apart node call) node calls ∧
      (node.chain.blockTimestamps.getLast?.getD 0).toNat ≤
        ((Transition.run (OpolysNode.step P) node calls).chain.blockTimestamps.getLast?.getD
          0).toNat := by
  induction calls generalizing node with
  | nil => exact ⟨trivial, le_rfl⟩
  | cons call calls ih =>
    obtain ⟨haccepts, hrest⟩ := hall
    obtain ⟨st, hst⟩ := OpolysNode.accepted_of_accepts haccepts
    have hone : (1 : UInt64).toNat = 1 := rfl
    have hfinal := (Transition.run (OpolysNode.step P) node
      (call :: calls)).chain.currentHeight.toNat_lt
    rw [List.length_cons] at hheight
    have hnext : (node.chain.currentHeight + 1).toNat = node.chain.currentHeight.toNat + 1 := by
      rw [MachineInt.toNat_add_of_lt (by omega), hone]
    have hmoved : (node.step P call).chain.currentHeight = node.chain.currentHeight + 1 :=
      (congrArg Tip.height hst.tip_eq).trans (checkBlock_header hst.check).1
    have hlast : (node.step P call).chain.blockTimestamps.getLast?.getD 0 =
        call.block.header.timestamp := by
      have hnewest := Tip.getLast?_advance node.chain.tip call.block.header
      rw [← hst.tip_eq] at hnewest
      change (node.step P call).chain.blockTimestamps.getLast? = _ at hnewest
      rw [hnewest, Option.getD_some]
    rw [Transition.run_cons] at hheight hclock ⊢
    obtain ⟨hapart, hle⟩ := ih hrest (by rw [hheight, hmoved, hnext]; omega) hclock
    rw [hlast] at hle
    have hlater := (checkBlock_timestamp hst.check).2
      (UInt64.lt_iff_toNat_lt.mpr (by rw [hnext]; exact Nat.succ_pos _))
    have hfortyfive : minimumBlockTimestampDeltaSecs.toNat = 45 := rfl
    rw [UInt64.le_iff_toNat_le, MachineInt.toNat_saturatingAdd, hfortyfive] at hlater
    refine ⟨⟨⟨haccepts, ?_⟩, hapart⟩, ?_⟩
    · unfold Apart
      rw [hfortyfive]
      omega
    · omega

/-- A chain with a mined block. -/
theorem retargetsExactly_of_reference :
    let start := Reference.start (Reference.config [(1, 1000000000)]) (some 1)
    let first := Reference.call (Reference.mine start 0 {})
    Transition.EveryState (OpolysNode.step Reference.primitives) OpolysNode.RetargetsExactly start
      [first] := by
  intro start first
  have hnew := Reference.new_start (Reference.config [(1, 1000000000)]) (some 1) (by decide +kernel)
  have hapart : start.accepts Reference.primitives first = true ∧ Apart start first := by
    unfold Apart
    decide +kernel
  refine (retargetsExactly_iff hnew [first] ⟨hapart, trivial⟩).1 ?_
  refine ⟨⟨?_, fun hnot => absurd ?_ hnot⟩, ⟨?_, fun hnot => absurd ?_ hnot⟩⟩
  · unfold OpolysNode.SpanFits
    decide +kernel
  · decide +kernel
  · unfold OpolysNode.SpanFits
    decide +kernel
  · decide +kernel

/-! ## Blocks that keep coming early -/

/-- The window of a chain whose last `n` blocks have come 45 seconds after their parents, and
the others 90 seconds. -/
structure Tip.Hastened (n : ℕ) (tip : Tip) : Prop where
  full : tip.timestamps.length = 961
  paced : ∃ first, first + 86400 ≤ 90 * tip.height.toNat ∧ ∀ i < 961,
    (tip.timestamps.getD i 0).toNat = first + 90 * i - 45 * (i - (960 - n))

namespace Tip.Hastened

theorem of_ticking {tip : Tip} (h : tip.Ticking 90) (hheight : 960 ≤ tip.height.toNat)
    (hlt : tip.height.toNat < 2 ^ 32) : tip.Hastened 0 := by
  refine ⟨?_, (tip.height.toNat - 960) * 90, by omega, fun i hi => ?_⟩
  · have hticking := h
    unfold Ticking at hticking
    rw [hticking, List.length_map, List.length_range']
    omega
  · rw [h.getD hheight hi, MachineInt.toNat_ofNat_of_lt (by omega)]
    omega

theorem getLast? {n : ℕ} {tip : Tip} (h : tip.Hastened n) :
    tip.timestamps.getLast?.getD 0 = tip.timestamps.getD 960 0 := by
  rw [List.getLast?_eq_getElem?, h.full, List.getD_eq_getElem?_getD]

theorem advance {n : ℕ} {tip : Tip} (h : tip.Hastened n) {header : BlockHeader}
    (hheight : header.height.toNat = tip.height.toNat + 1)
    (htimestamp : header.timestamp.toNat = (tip.timestamps.getD 960 0).toNat + 45) :
    (tip.advance header).Hastened (n + 1) := by
  obtain ⟨hfull, first, hfirst, hpaced⟩ := h
  have hwindow : (tip.advance header).timestamps =
      (tip.timestamps ++ [header.timestamp]).drop 1 := by
    dsimp only [Tip.advance]
    unfold ChainState.pruneBlockTimestamps
    rw [List.length_append, List.length_singleton, hfull, blockTimestampWindowLen_eq]
  have hget {i : ℕ} (hi : i < 960) :
      (tip.advance header).timestamps.getD i 0 = tip.timestamps.getD (i + 1) 0 := by
    rw [hwindow, List.getD_eq_getElem?_getD, List.getElem?_drop, Nat.add_comm 1 i,
      List.getElem?_append_left (by omega), ← List.getD_eq_getElem?_getD]
  have hnew : (tip.advance header).timestamps.getD 960 0 = header.timestamp := by
    rw [hwindow, List.getD_eq_getElem?_getD, List.getElem?_drop,
      List.getElem?_append_right (by omega), hfull]
    rfl
  have hsecond := hpaced 1 (by omega)
  have hlast := hpaced 960 (by omega)
  refine ⟨?_, (tip.timestamps.getD 1 0).toNat, ?_, fun i hi => ?_⟩
  · rw [hwindow, List.length_drop, List.length_append, List.length_singleton, hfull]
  · change _ ≤ 90 * header.height.toNat
    omega
  · rcases Nat.lt_succ_iff_lt_or_eq.mp hi with hbefore | rfl
    · have hshifted := hpaced (i + 1) (by omega)
      rw [hget hbefore, hshifted, hsecond]
      omega
    · rw [hnew, htimestamp, hlast, hsecond]
      omega

end Tip.Hastened

namespace Reference

/-- A chain with its refiner active that has signed the last `n` blocks, each 45 seconds after
its parent. -/
structure Hastening (n : ℕ) (node : OpolysNode) : Prop extends Signing node where
  height : node.chain.currentHeight.toNat = 1920 + n
  window : node.chain.tip.Hastened n
  difficulty : 7 * 2 ^ (n - 960) ≤ node.chain.currentDifficulty.toNat

theorem Refining.hastening {node : OpolysNode} (h : Refining node) : Hastening 0 node :=
  { h.signing with
    height := h.height
    window := by
      have hheight := h.height
      exact .of_ticking h.ticking (by change 960 ≤ node.chain.currentHeight.toNat; omega)
        (by change node.chain.currentHeight.toNat < _; omega)
    difficulty := by
      rw [h.difficulty]
      decide }

variable {n : ℕ} {node : OpolysNode}

theorem Hastening.spanMs_eq (h : Hastening n node) :
    node.spanMs = 86400000 - 45000 * min n 960 := by
  obtain ⟨first, -, hpaced⟩ := h.window.paced
  have hfirst := hpaced 0 (by omega)
  have hlast := hpaced 960 (by omega)
  change (node.chain.blockTimestamps.getD 0 0).toNat = _ at hfirst
  change (node.chain.blockTimestamps.getD 960 0).toNat = _ at hlast
  unfold OpolysNode.spanMs
  rw [hfirst, hlast]
  omega

theorem le_roundedQuotient (difficulty : ℕ) {expected elapsed : ℕ} (hpos : 0 < elapsed)
    (hle : elapsed ≤ expected) :
    difficulty ≤ (difficulty * expected + elapsed / 2) / elapsed := by
  refine (Nat.le_div_iff_mul_le hpos).mpr ?_
  exact (Nat.mul_le_mul_left difficulty hle).trans (Nat.le_add_right _ _)

/-- An exact retarget does not lower the difficulty, and doubles it once all the blocks of the
window have come early. -/
theorem Hastening.le_expectedDifficulty (h : Hastening n node) (hexact : node.RetargetsExactly) :
    7 * 2 ^ (n + 1 - 960) ≤ node.expectedDifficulty.toNat := by
  have hdifficulty := h.difficulty
  have hspan := h.spanMs_eq
  have hheight : ¬node.chain.currentHeight < epoch := by
    rw [UInt64.lt_iff_toNat_lt, toNat_epoch, h.height]
    omega
  have hretarget := hexact.exact hheight
  rw [exactRetarget_eq _ (by omega), Nat.cast_inj, epochTimeMs_eq] at hretarget
  have hexpected := node.toNat_expectedDifficulty
  generalize node.chain.currentDifficulty.toNat = difficulty at hdifficulty hretarget
  generalize node.nextDifficulty.retarget.toNat = retarget at hretarget hexpected
  generalize node.spanMs = span at hspan hretarget
  rcases Nat.lt_or_ge n 960 with hlt | hge
  · have hkept : difficulty ≤ (difficulty * 86400000 + span / 2) / span :=
      le_roundedQuotient difficulty (by omega) (by omega)
    obtain ⟨hpower, hpower'⟩ : n - 960 = 0 ∧ n + 1 - 960 = 0 := by omega
    rw [hpower] at hdifficulty
    rw [hpower']
    clear hpower hpower'
    omega
  · obtain rfl : span = 43200000 := by omega
    have hdoubled : 2 * difficulty ≤ (difficulty * 86400000 + 43200000 / 2) / 43200000 := by
      omega
    have hpower : n + 1 - 960 = n - 960 + 1 := by omega
    rw [hpower, Nat.pow_succ]
    omega

/-- The refiner signs the next block. -/
theorem Hastening.step (h : Hastening n node) (hn : n < 2 ^ 16) (hexact : node.RetargetsExactly) :
    node.accepts primitives (refine 45 node) = true ∧ Apart node (refine 45 node) ∧
      Hastening (n + 1) (node.step primitives (refine 45 node)) := by
  have hlate : 45 ≤ 45 ∧ 45 < 2 ^ 16 := by decide
  have hone : (1 : UInt64).toNat = 1 := rfl
  have hexpected := h.le_expectedDifficulty hexact
  have hpower : 0 < 2 ^ (n + 1 - 960) := Nat.two_pow_pos _
  obtain ⟨first, hfirst, hpaced⟩ := h.window.paced
  have hlast := hpaced 960 (by omega)
  have hheight := h.height
  change first + 86400 ≤ 90 * node.chain.currentHeight.toNat at hfirst
  have htip : node.chain.blockTimestamps.getLast?.getD 0 = node.chain.blockTimestamps.getD 960 0 :=
    h.window.getLast?
  change (node.chain.blockTimestamps.getD 960 0).toNat = _ at hlast
  have hnext : (node.chain.blockTimestamps.getLast?.getD 0).toNat + 45 < 2 ^ 64 := by
    rw [htip]
    omega
  have haccepts := accepts_signed h.toSigning (by omega) hlate hnext (by omega)
  obtain ⟨hcheck, hblock⟩ := checkBlock_signed h.minerId (by omega) hlate hnext
  refine ⟨haccepts, hblock.timestamp.symm.le, ?_⟩
  obtain ⟨st, hst⟩ := OpolysNode.accepted_of_accepts haccepts
  have hidentity := OpolysNode.identity_step (P := primitives) node (refine 45 node)
  generalize refine 45 node = call at haccepts hcheck hblock hst hidentity ⊢
  have hattested := hst.attested_of_none hblock.attestations
  have hreward : st.opening.reward = ⟨0, 0, 0, 0⟩ := by
    rw [hst.reward_eq]
    refine blockReward_of_lt ?_
    rw [hblock.difficulty, hst.finalized_frame]
    dsimp only
    rw [h.baseReward]
    exact lt_of_lt_of_le (by omega) hexpected
  obtain ⟨hprepared, hidled⟩ := unpaid_step h.toPrepared hst
    (Block.barren_of_empty hblock.transactions) hblock.evidence hreward
    (by rw [hattested, h.refiners]; rfl)
  rw [hattested] at hidled
  have hblockHeight : call.block.header.height.toNat = node.chain.currentHeight.toNat + 1 := by
    rw [hblock.height, MachineInt.toNat_add_of_lt (by omega), hone]
  exact { hprepared with
    minerId := hidentity.1.trans h.minerId
    baseReward := hidled.baseReward.trans h.baseReward
    issued := hidled.issued.trans h.issued
    accounts := hidled.accounts.trans h.accounts
    refiners := by rw [hidled.refiners, h.refiners, ranked_active]
    height := by
      rw [hidled.height, MachineInt.toNat_add_of_lt (by omega), hone, hheight]
      omega
    window := by
      rw [hst.tip_eq]
      refine h.window.advance hblockHeight ?_
      rw [hblock.timestamp, htip]
      rfl
    difficulty := by
      rw [hidled.difficulty]
      exact hexpected }

/-- While every retarget is exact, the refiner goes on. -/
theorem hastens (hexact : ∀ calls, Transition.EveryStep (OpolysNode.step primitives)
      (fun node call => node.accepts primitives call = true ∧ Apart node call) founder calls →
        Transition.EveryState (OpolysNode.step primitives) OpolysNode.RetargetsExactly founder
          calls) (hn : n < 2 ^ 16) :
    ∃ calls, Transition.EveryStep (OpolysNode.step primitives)
        (fun node call => node.accepts primitives call = true ∧ Apart node call) founder calls ∧
      Hastening n (Transition.run (OpolysNode.step primitives) founder calls) := by
  induction n with
  | zero =>
    obtain ⟨node, ⟨calls, -, hall, rfl, hheight⟩, hrefining⟩ := climbs_refining
    have hlast := hrefining.ticking.getLast?
    have hreached := hrefining.height
    change (Transition.run (OpolysNode.step primitives) founder
      calls).chain.blockTimestamps.getLast? = some (UInt64.ofNat ((Transition.run
        (OpolysNode.step primitives) founder calls).chain.currentHeight.toNat * 90)) at hlast
    obtain ⟨hapart, -⟩ := apart_of_accepts hall hheight (by
      rw [hlast, Option.getD_some, MachineInt.toNat_ofNat_of_lt (by omega)]
      omega)
    exact ⟨calls, hapart, hrefining.hastening⟩
  | succ n ih =>
    obtain ⟨calls, hall, hhastening⟩ := ih (by omega)
    have hlast := Transition.everyState_iff.mp (hexact calls hall) calls [] (List.append_nil _).symm
    obtain ⟨haccepts, hapart, hnext⟩ := hhastening.step (by omega) hlast
    refine ⟨calls ++ [refine 45 (Transition.run (OpolysNode.step primitives) founder calls)],
      Transition.everyStep_append.mpr ⟨hall, ⟨haccepts, hapart⟩, trivial⟩, ?_⟩
    rw [Transition.run_append]
    exact hnext

end Reference

/-- A run of accepted blocks that are half a target interval apart, after which a retarget is
not exact. -/
theorem doubled_beyond_word :
    OpolysNode.new Reference.primitives Reference.bondConfig (some (Reference.seed 1).bytes)
        BlockchainStore.empty = .ok Reference.founder ∧
      ∃ calls, Transition.EveryStep (OpolysNode.step Reference.primitives)
          (fun node call => node.accepts Reference.primitives call = true ∧ Apart node call)
          Reference.founder calls ∧
        ¬Transition.EveryState (OpolysNode.step Reference.primitives)
          OpolysNode.RetargetsExactly Reference.founder calls := by
  refine ⟨Reference.new_founder, ?_⟩
  by_contra hnone
  have hexact := fun calls hall => not_not.mp fun hnot => hnone ⟨calls, hall, hnot⟩
  obtain ⟨calls, -, hhastening⟩ := Reference.hastens (n := 1022) hexact (by omega)
  have hdifficulty := hhastening.difficulty
  have hlt := (Transition.run (OpolysNode.step Reference.primitives) Reference.founder
    calls).chain.currentDifficulty.toNat_lt
  omega

end Opolys
