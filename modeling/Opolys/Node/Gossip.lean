import Opolys.Node.Alike
import Opolys.Node.Verification

/-!
# Relaying a valid chain

A peer that relays the blocks of a valid chain has done nothing wrong, in whatever order its
blocks arrive. The filter of the handler drops blocks that are too old or far too new without a
word. A block in between is applied, and it counts against the peer when that fails.

* `unharmed_iff` : when a peer that relays a valid chain is left alone.
-/

namespace Opolys

open Std (ExtTreeMap ExtTreeSet)
open OpolysNode (Alike)
open EventLoop (gossipLimit)

variable (P : Primitives)

/-- Blocks that a node accepts one after the other, each above its tip, whatever it reads. -/
def Extends (reads : Env → Prop) : OpolysNode → List Block → Prop
  | _, [] => True
  | node, block :: blocks => ∀ env, reads env → node.accepts P ⟨env, block⟩ = true ∧
      node.chain.currentHeight < block.header.height ∧
      Extends reads (node.step P ⟨env, block⟩) blocks

/-- A loop after a peer has gossiped a block. -/
def relay (source : PeerId) (loop : EventLoop) (input : EventEnv × Block) : EventLoop :=
  handleNetworkEvent P input.1 loop (.gossipBlock (.encoded input.2) source)

/-- The peer has got no strike and no ban. -/
def Unharmed (source : PeerId) (before after : EventLoop) : Prop :=
  after.peerStrikes[source]? = before.peerStrikes[source]? ∧
    after.bannedPeers[source]? = before.bannedPeers[source]?

/-- A gossiped block is ignored: the peer sends too much, the block is too long, it is not above
the tip or more than ten above it, or it has no hash to look at. -/
def Ignored (source : PeerId) (loop : EventLoop) (input : EventEnv × Block) : Prop :=
  let height := input.2.header.height
  let currentHeight := loop.node.chain.currentHeight
  ((loop.rateLimit input.1 source).countBlock).blockCount >
      gossipLimit (loop.isRefinerPeer source) maxBlocksPerPeerPerSecond ∨
    (Payload.encoded input.2).length > maxBlockSizeBytes ∨ height ≤ currentHeight ∨
    height > currentHeight + maxHeightLookahead ∨ gossipedWork P input.2.header = .malformed

/-- A gossiped block is ignored, or it is the next one and the hash of its work looks right. -/
def Timely (source : PeerId) (loop : EventLoop) (input : EventEnv × Block) : Prop :=
  Ignored P source loop input ∨
    input.2.header.height = loop.node.chain.currentHeight + 1 ∧
      gossipedWork P input.2.header = .passed

variable {P}

/-! ## What the handler does with a block -/

section Handler

open EventLoop

variable {loop : EventLoop} {env : EventEnv} {block : Block} {source : PeerId}

/-- A loop that has counted a block of a peer. -/
def counted (source : PeerId) (env : EventEnv) (loop : EventLoop) : EventLoop :=
  loop.setRateLimit source (loop.rateLimit env source).countBlock

theorem relay_of_ignored (hverified : source ∈ loop.verifiedPeers)
    (h : Ignored P source loop (env, block)) :
    relay P source loop (env, block) = counted source env loop := by
  change loop.handleGossipBlock P env (.encoded block) source = _
  unfold handleGossipBlock receiveGossipBlock
  dsimp only
  rw [if_neg (not_not_intro hverified)]
  split
  · rfl
  rename_i hcount
  split
  · rfl
  rename_i hlength
  split
  · rfl
  rename_i hheight
  split
  · rfl
  rename_i hahead
  obtain h | h | h | h | h := h
  · exact absurd h hcount
  · exact absurd h hlength
  · exact absurd h hheight
  · exact absurd h hahead
  · rw [h]
    rfl

theorem relay_of_not_ignored (hverified : source ∈ loop.verifiedPeers)
    (h : ¬Ignored P source loop (env, block)) :
    relay P source loop (env, block) =
      if gossipedWork P block.header = .fake then
        (((counted source env loop).banPeer env source "fake_pow" true).clearRecord
          source).unverify source
      else (counted source env loop).applyGossipBlock P env block source
        (loop.isRefinerPeer source) := by
  obtain ⟨hcount, hrest⟩ := not_or.mp h
  obtain ⟨hlength, hrest⟩ := not_or.mp hrest
  obtain ⟨hheight, hrest⟩ := not_or.mp hrest
  obtain ⟨hahead, hwork⟩ := not_or.mp hrest
  change loop.handleGossipBlock P env (.encoded block) source = _
  unfold handleGossipBlock receiveGossipBlock
  dsimp only at hcount hlength hheight hahead hwork ⊢
  rw [if_neg (not_not_intro hverified), if_neg hcount, if_neg hlength]
  change (if block.header.height ≤ loop.node.chain.currentHeight then _ else _) = _
  rw [if_neg hheight]
  change (if block.header.height > loop.node.chain.currentHeight + maxHeightLookahead then _
    else _) = _
  rw [if_neg hahead]
  cases hgossiped : gossipedWork P block.header with
  | fake => rfl
  | malformed => exact absurd hgossiped hwork
  | passed => rfl

/-- A block that is accepted is applied, and the node may attest it. -/
theorem applyGossipBlock_of_accepts {isRefiner : Bool}
    (h : loop.node.accepts P ⟨env.calls 0, block⟩ = true) :
    ∃ node, Alike True (loop.node.step P ⟨env.calls 0, block⟩) node ∧
      loop.applyGossipBlock P env block source isRefiner = { loop with node } := by
  obtain ⟨hash, hrun⟩ := OpolysNode.applyBlock_of_accepts h
  unfold applyGossipBlock
  dsimp only at hrun
  rw [hrun]
  dsimp only
  split
  · exact ⟨_, Alike.refl _, rfl⟩
  · rename_i attestation _
    obtain ⟨pendingAttestations, hsame⟩ :=
      OpolysNode.hearAttestation_eq (P := P) (loop.node.step P ⟨env.calls 0, block⟩) attestation
    rw [hsame]
    have hsame : Alike True _ _ := Alike.refl (loop.node.step P ⟨env.calls 0, block⟩)
    exact ⟨{ loop.node.step P ⟨env.calls 0, block⟩ with pendingAttestations },
      ⟨hsame.chain, rfl, hsame.refiners, fun _ => rfl, fun _ => rfl⟩, rfl⟩

/-- A block that is rejected counts against its sender. -/
theorem applyGossipBlock_of_rejects {isRefiner : Bool}
    (h : loop.node.accepts P ⟨env.calls 0, block⟩ = false) :
    ∃ node, loop.applyGossipBlock P env block source isRefiner =
      { loop with node }.strike env source isRefiner := by
  obtain ⟨message, hrun⟩ := OpolysNode.rejects_eq h
  unfold applyGossipBlock
  dsimp only at hrun
  rw [hrun]
  exact ⟨_, rfl⟩

end Handler

/-! ## Valid chains -/

section Chain

variable {reads : Env → Prop}

theorem Extends.mono {reads' : Env → Prop} {node : OpolysNode} {blocks : List Block}
    (h : Extends P reads node blocks) (hreads : ∀ env, reads' env → reads env) :
    Extends P reads' node blocks := by
  induction blocks generalizing node with
  | nil => trivial
  | cons block blocks ih =>
    intro env henv
    obtain ⟨haccepts, habove, hrest⟩ := h env (hreads env henv)
    exact ⟨haccepts, habove, ih hrest⟩

theorem extends_of_alike {a b : OpolysNode} {blocks : List Block} (h : Alike True a b)
    (hextends : Extends P reads a blocks) : Extends P reads b blocks := by
  induction blocks generalizing a b with
  | nil => trivial
  | cons block blocks ih =>
    intro env hreads
    obtain ⟨haccepts, habove, hrest⟩ := hextends env hreads
    obtain ⟨houtcome, halike⟩ := OpolysNode.step_alike (P := P) h ⟨env, block⟩
    refine ⟨?_, ?_, ih halike hrest⟩
    · unfold OpolysNode.accepts at haccepts ⊢
      rw [houtcome]
      exact haccepts
    · rw [h.currentHeight_eq]
      exact habove

/-- The first block is the next one. -/
theorem extends_head {node : OpolysNode} {block : Block} {blocks : List Block} {env : Env}
    (hreads : reads env) (h : Extends P reads node (block :: blocks)) :
    block.header.height = node.chain.currentHeight + 1 ∧
      (node.step P ⟨env, block⟩).chain.currentHeight = block.header.height := by
  obtain ⟨haccepts, -, -⟩ := h env hreads
  obtain ⟨st, hst⟩ := OpolysNode.accepted_of_accepts haccepts
  refine ⟨(checkBlock_header hst.check).1, ?_⟩
  rw [hst.chain_eq]

/-- Every block is above the tip. -/
theorem extends_above {node : OpolysNode} {blocks : List Block} {env : Env} (hreads : reads env)
    (h : Extends P reads node blocks) {block : Block} (hmem : block ∈ blocks) :
    node.chain.currentHeight < block.header.height := by
  induction blocks generalizing node with
  | nil => cases hmem
  | cons first blocks ih =>
    obtain ⟨-, habove, hrest⟩ := h env hreads
    rcases List.mem_cons.mp hmem with rfl | hmem
    · exact habove
    · have hnext := ih hrest hmem
      rw [(extends_head hreads h).2] at hnext
      exact UInt64.lt_trans habove hnext

/-- A loop whose node has taken up a beginning of a chain, and has heard its peer. -/
structure Follows (P : Primitives) (reads : Env → Prop) (chain : List Block) (source : PeerId)
    (start loop : EventLoop) : Prop where
  unharmed : Unharmed source start loop
  verified : source ∈ loop.verifiedPeers
  rest : ∃ past blocks, chain = past ++ blocks ∧ Extends P reads loop.node blocks ∧
    ∀ block ∈ past, block.header.height ≤ loop.node.chain.currentHeight

variable {chain : List Block} {source : PeerId} {start loop : EventLoop} {env : EventEnv}
  {block : Block}

/-- The next block of the chain is accepted and leaves the loop as it should be. -/
theorem Follows.applyGossipBlock (h : Follows P reads chain source start loop)
    (hreads : reads (env.calls 0)) (hmem : block ∈ chain)
    (hnext : block.header.height = loop.node.chain.currentHeight + 1)
    (habove : loop.node.chain.currentHeight < block.header.height) (isRefiner : Bool) :
    Follows P reads chain source start
      ((counted source env loop).applyGossipBlock P env block source isRefiner) := by
  obtain ⟨past, blocks, hchain, hextends, hpast⟩ := h.rest
  rw [hchain, List.mem_append] at hmem
  rcases hmem with hmem | hmem
  · exact absurd (hpast block hmem) (UInt64.not_le.mpr habove)
  cases blocks with
  | nil => cases hmem
  | cons first blocks =>
    obtain ⟨hheight, htip⟩ := extends_head hreads hextends
    obtain ⟨haccepts, -, hrest⟩ := hextends (env.calls 0) hreads
    rcases List.mem_cons.mp hmem with rfl | hmem
    · have hcounted : (counted source env loop).node.accepts P ⟨env.calls 0, block⟩ = true :=
        haccepts
      obtain ⟨node, halike, happly⟩ : ∃ node,
          Alike True (loop.node.step P ⟨env.calls 0, block⟩) node ∧
            (counted source env loop).applyGossipBlock P env block source isRefiner =
              { counted source env loop with node } := applyGossipBlock_of_accepts hcounted
      rw [happly]
      refine ⟨h.unharmed, h.verified, past ++ [block], blocks, ?_, extends_of_alike halike hrest,
        ?_⟩
      · rw [hchain, List.append_assoc]
        rfl
      · intro earlier hearlier
        change earlier.header.height ≤ node.chain.currentHeight
        have htip' : node.chain.currentHeight = block.header.height :=
          halike.currentHeight_eq.trans htip
        rw [htip']
        rcases List.mem_append.mp hearlier with hearlier | hearlier
        · exact UInt64.le_trans (hpast earlier hearlier) (UInt64.le_of_lt habove)
        · rw [List.mem_singleton.mp hearlier]
          exact UInt64.le_refl _
    · have hlater := extends_above hreads hrest hmem
      rw [htip, hheight, hnext] at hlater
      exact absurd hlater (UInt64.lt_irrefl _)

/-! ## When a relay is harmed -/

/-- A ban leaves a mark. -/
theorem getElem?_banPeer_ne (bannedPeers : BanList) (peer : PeerId) (reason : String)
    (permanent : Bool) (now : UInt64) :
    (bannedPeers.banPeer peer reason permanent now)[peer]? ≠ bannedPeers[peer]? := by
  unfold BanList.banPeer BanList.nextBanCount
  dsimp only
  rw [FiniteMap.getElem?_insert_self]
  intro h
  cases hget : bannedPeers[peer]? with
  | none =>
    rw [hget] at h
    cases h
  | some record =>
    rw [hget] at h
    have hcount := congrArg (fun r => r.map BanRecord.banCount) h
    simp at hcount

theorem not_unharmed_strike (loop : EventLoop) (env : EventEnv) (source : PeerId)
    (isRefiner : Bool) : ¬Unharmed source loop (loop.strike env source isRefiner) := by
  rintro ⟨hstrikes, hbans⟩
  obtain hsame | ⟨strikes, hsame⟩ := EventLoop.strike_cases loop env source isRefiner
  · rw [hsame] at hstrikes
    dsimp only at hstrikes
    rw [FiniteMap.getElem?_insert_self, ExtTreeMap.getD_eq_getD_getElem?] at hstrikes
    cases hget : loop.peerStrikes[source]? with
    | none =>
      rw [hget] at hstrikes
      cases hstrikes
    | some strikes =>
      rw [hget] at hstrikes
      simp at hstrikes
  · rw [hsame] at hbans
    exact getElem?_banPeer_ne _ _ _ _ _ hbans

/-- A block of the chain leaves its peer alone exactly when it is timely. -/
theorem Follows.relay (h : Follows P reads chain source start loop)
    (hreads : reads (env.calls 0)) (hmem : block ∈ chain) :
    (Unharmed source start (relay P source loop (env, block)) →
        Timely P source loop (env, block)) ∧
      (Timely P source loop (env, block) →
        Follows P reads chain source start (Opolys.relay P source loop (env, block))) := by
  by_cases hignored : Ignored P source loop (env, block)
  · refine ⟨fun _ => Or.inl hignored, fun _ => ?_⟩
    rw [relay_of_ignored h.verified hignored]
    exact ⟨h.unharmed, h.verified, h.rest⟩
  have hrelay := relay_of_not_ignored h.verified hignored
  have habove : loop.node.chain.currentHeight < block.header.height := by
    refine UInt64.not_le.mp fun hle => hignored ?_
    exact Or.inr (Or.inr (Or.inl hle))
  constructor
  · intro hunharmed
    rw [hrelay] at hunharmed
    by_cases hfake : gossipedWork P block.header = .fake
    · rw [if_pos hfake] at hunharmed
      have hbans := hunharmed.2.trans h.unharmed.2.symm
      exact absurd hbans (getElem?_banPeer_ne _ _ _ _ _)
    · rw [if_neg hfake] at hunharmed
      have hpassed : gossipedWork P block.header = .passed := by
        cases hwork : gossipedWork P block.header with
        | fake => exact absurd hwork hfake
        | malformed => exact absurd (Or.inr (Or.inr (Or.inr (Or.inr hwork)))) hignored
        | passed => rfl
      refine Or.inr ⟨?_, hpassed⟩
      cases haccepts : loop.node.accepts P ⟨env.calls 0, block⟩ with
      | true =>
        obtain ⟨st, hst⟩ := OpolysNode.accepted_of_accepts haccepts
        exact (checkBlock_header hst.check).1
      | false =>
        have hcounted : (counted source env loop).node.accepts P ⟨env.calls 0, block⟩ = false :=
          haccepts
        obtain ⟨node, hstrike⟩ : ∃ node,
            (counted source env loop).applyGossipBlock P env block source
              (loop.isRefinerPeer source) =
                { counted source env loop with node }.strike env source
                  (loop.isRefinerPeer source) := applyGossipBlock_of_rejects hcounted
        rw [hstrike] at hunharmed
        have hsame : Unharmed source { counted source env loop with node }
            ({ counted source env loop with node }.strike env source
              (loop.isRefinerPeer source)) :=
          ⟨hunharmed.1.trans h.unharmed.1.symm, hunharmed.2.trans h.unharmed.2.symm⟩
        exact absurd hsame (not_unharmed_strike _ _ _ _)
  · rintro (hdropped | ⟨hnext, hpassed⟩)
    · exact absurd hdropped hignored
    · dsimp only at hnext hpassed
      rw [hrelay, hpassed, if_neg nofun]
      exact h.applyGossipBlock hreads hmem hnext habove _

end Chain

/-! ## Runs -/

/-- A peer that relays the blocks of a valid chain gets no strike and no ban, at any point, if
and only if each of its blocks is timely when it arrives. -/
theorem unharmed_iff (P : Primitives) {loop : EventLoop} {source : PeerId} {chain : List Block}
    {inputs : List (EventEnv × Block)} (hverified : source ∈ loop.verifiedPeers)
    (hextends : Extends P (fun env => ∃ input ∈ inputs, input.1.calls 0 = env) loop.node chain)
    (hmem : ∀ input ∈ inputs, input.2 ∈ chain) :
    (∀ before after, inputs = before ++ after →
        Unharmed source loop (Transition.run (relay P source) loop before)) ↔
      Transition.EveryStep (relay P source) (Timely P source) loop inputs := by
  rw [← Transition.everyState_iff]
  have hstart : Follows P (fun env => ∃ input ∈ inputs, input.1.calls 0 = env) chain source loop
      loop := ⟨⟨rfl, rfl⟩, hverified, [], chain, rfl, hextends, nofun⟩
  exact Transition.everyState_iff_everyStep (fun _ h => h.unharmed)
    (fun loop input hinput h => h.relay ⟨input, hinput, rfl⟩ (hmem input hinput)) hstart

namespace Reference

/-- What a loop reads some days into its life. -/
def laterEnv : EventEnv :=
  { quietEnv with
    nowSecs := 1000000
    calls := fun _ => { nowSecs := 1000000, writeOk := true } }

/-- A miner that has heard of a peer. -/
def listener : EventLoop :=
  { EventLoop.new (start (config [(1, 1000000000)]) (some 1)) ∅ with verifiedPeers := {"peer"} }

/-- The first block the miner can mine. -/
def firstBlock : Block := mine listener.node 0 {}

/-- The block after it. -/
def secondBlock : Block :=
  mine (listener.node.step primitives ⟨laterEnv.calls 0, firstBlock⟩) 0 {}

/-- The two blocks are a valid chain. -/
theorem extends_listener :
    Extends primitives (fun env => env = laterEnv.calls 0) listener.node
      [firstBlock, secondBlock] := by
  rintro env rfl
  refine ⟨by decide +kernel, by decide +kernel, ?_⟩
  rintro env rfl
  exact ⟨by decide +kernel, by decide +kernel, trivial⟩

theorem mem_pair {input : EventEnv × Block} {block : Block}
    (h : input ∈ [(laterEnv, block), (laterEnv, block)]) : input = (laterEnv, block) := by
  rcases List.mem_cons.mp h with h | h
  · exact h
  · exact List.mem_singleton.mp h

end Reference

open Reference

/-- A peer that relays the first block, and relays it again. -/
theorem unharmed_of_reference :
    Transition.EveryState (relay primitives "peer") (Unharmed "peer" listener) listener
      [(laterEnv, firstBlock), (laterEnv, firstBlock)] := by
  have hverified : "peer" ∈ listener.verifiedPeers := by decide +kernel
  have hextends : Extends primitives
      (fun env => ∃ input ∈ [(laterEnv, firstBlock), (laterEnv, firstBlock)],
        input.1.calls 0 = env) listener.node [firstBlock, secondBlock] := by
    refine extends_listener.mono fun env h => ?_
    obtain ⟨input, hinput, henv⟩ := h
    rw [← henv, mem_pair hinput]
  have hmem : ∀ input ∈ [(laterEnv, firstBlock), (laterEnv, firstBlock)],
      input.2 ∈ [firstBlock, secondBlock] := by
    intro input hinput
    rw [mem_pair hinput]
    exact List.mem_cons_self
  refine Transition.everyState_iff.mpr
    ((unharmed_iff primitives hverified hextends hmem).mpr ⟨?_, ?_, trivial⟩)
  · refine Or.inr ⟨?_, ?_⟩
    · decide +kernel
    · decide +kernel
  · refine Or.inl (Or.inr (Or.inr (Or.inl ?_)))
    decide +kernel

/-- A peer that relays the second block of a valid chain before the first one gets a strike,
and it is banned when it relays the block again. -/
theorem early_relay_banned :
    ∃ (loop : EventLoop) (source : PeerId) (chain : List Block) (inputs : List (EventEnv × Block)),
      source ∈ loop.verifiedPeers ∧
      Extends primitives (fun env => ∃ input ∈ inputs, input.1.calls 0 = env) loop.node chain ∧
      (∀ input ∈ inputs, input.2 ∈ chain) ∧
      (Transition.run (relay primitives source) loop inputs).bannedPeers.isPeerBanned source
        1000000 = true := by
  refine ⟨listener, "peer", [firstBlock, secondBlock],
    [(laterEnv, secondBlock), (laterEnv, secondBlock)], ?_, ?_, ?_, ?_⟩
  · decide +kernel
  · refine extends_listener.mono fun env h => ?_
    obtain ⟨input, hinput, henv⟩ := h
    rw [← henv, mem_pair hinput]
  · intro input hinput
    rw [mem_pair hinput]
    exact List.mem_cons_of_mem _ List.mem_cons_self
  · decide +kernel

end Opolys
