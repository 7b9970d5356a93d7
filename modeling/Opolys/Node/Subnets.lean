import Opolys.Node.Network

/-!
# The slots of a subnet

A node dials at most three peers of a subnet. It counts them in one map and remembers the subnet
of each in another. A connection takes a slot and the end of a connection frees the slot of the
peer, so that the two maps agree as long as a peer that holds a slot does not take another.

* `noLeak_iff` : the slots are right at every point of a run if and only if no peer takes two.
-/

namespace Opolys

open Std (ExtTreeMap ExtTreeSet)

/-- The maps that follow the connections. -/
@[ext] structure Connections where
  subnetCounts : ExtTreeMap Subnet ℕ
  peerSubnets : ExtTreeMap PeerId Subnet
  outboundPeers : ExtTreeSet PeerId
  inboundPeers : ExtTreeSet PeerId

namespace EventLoop

variable {P : Primitives}

def connections (loop : EventLoop) : Connections where
  subnetCounts := loop.subnetCounts
  peerSubnets := loop.peerSubnets
  outboundPeers := loop.outboundPeers
  inboundPeers := loop.inboundPeers

/-! ## What leaves the connections -/

section Frame

variable (loop : EventLoop) (env : EventEnv) (peer : PeerId)

@[simp] theorem connections_strike (isRefiner : Bool) :
    (loop.strike env peer isRefiner).connections = loop.connections := by
  obtain h | ⟨strikes, h⟩ := strike_cases loop env peer isRefiner <;> rw [h] <;> rfl

@[simp] theorem connections_handleGossipBlock (data : Payload Block) :
    (loop.handleGossipBlock P env data peer).connections = loop.connections := by
  obtain ⟨-, h⟩ | ⟨-, h | ⟨block, -, h⟩⟩ := handleGossipBlock_cases (P := P) loop env peer data
  · rw [h]
  · rw [h]
    rfl
  rw [h]
  obtain h | h | ⟨node, h | h⟩ := receiveGossipBlock_cases (P := P)
    (loop.setRateLimit peer (loop.rateLimit env peer).countBlock) env peer block
    (loop.isRefinerPeer peer)
  · rw [h]
    rfl
  · rw [h]
    rfl
  · rw [h]
    rfl
  · rw [h, connections_strike]
    rfl

@[simp] theorem connections_handleGossipTransaction (data : Payload Transaction) :
    (loop.handleGossipTransaction P env data peer).connections = loop.connections := by
  obtain ⟨-, h⟩ | ⟨-, h | ⟨tx, -, h⟩⟩ :=
    handleGossipTransaction_cases (P := P) loop env peer data
  · rw [h]
  · rw [h]
    rfl
  rw [h]
  obtain ⟨mempool, h⟩ | ⟨reason, permanent, h⟩ := receiveGossipTransaction_cases (P := P)
    (loop.setRateLimit peer (loop.rateLimit env peer).countTx) env peer tx <;> rw [h] <;> rfl

@[simp] theorem connections_handleGossipAttestation (data : Payload BlockAttestation) :
    (loop.handleGossipAttestation P data peer).connections = loop.connections := by
  unfold handleGossipAttestation
  split
  · rfl
  split <;> rfl

@[simp] theorem connections_handlePeerIdentified (protocolVersion agentVersion : String) :
    (loop.handlePeerIdentified peer protocolVersion agentVersion).connections =
      loop.connections := by
  obtain ⟨-, h⟩ | ⟨-, refinerPeers, h⟩ :=
    handlePeerIdentified_cases loop peer protocolVersion agentVersion <;> rw [h] <;> rfl

@[simp] theorem connections_handleChallengeResponse (hashVal : UInt64) :
    (loop.handleChallengeResponse env peer hashVal).connections = loop.connections := by
  obtain ⟨-, h⟩ | ⟨_, _, -, ⟨-, h⟩ | ⟨-, h⟩⟩ :=
    handleChallengeResponse_cases loop env peer hashVal <;> rw [h] <;> rfl

@[simp] theorem connections_handleSyncResponse (blocks : List (Payload Block)) :
    (loop.handleSyncResponse P env peer blocks).connections = loop.connections := by
  unfold handleSyncResponse
  split <;> rfl

@[simp] theorem connections_challengeCheck :
    (challengeCheck env loop).connections = loop.connections := by
  unfold challengeCheck
  dsimp only
  generalize ((loop.pendingChallenges.toList.filter fun entry =>
    challengeTimeoutSecs * 1000000000 ≤ env.instant - entry.2.2).map Prod.fst) = expired
  induction expired generalizing loop with
  | nil => rfl
  | cons peer expired ih => exact ih _

end Frame

end EventLoop

/-! ## What should hold -/

/-- The number of peers in a subnet. -/
def peersIn (peerSubnets : ExtTreeMap PeerId Subnet) (subnet : Subnet) : ℕ :=
  peerSubnets.toList.countP fun entry => entry.2 = subnet

/-- The counts are those of the peers, and none is zero or too large. -/
structure Connections.SlotsRight (c : Connections) : Prop where
  count_eq : ∀ subnet, c.subnetCounts.getD subnet 0 = peersIn c.peerSubnets subnet
  pos : ∀ (subnet : Subnet) (n : ℕ), c.subnetCounts[subnet]? = some n → 0 < n
  le : ∀ (subnet : Subnet) (n : ℕ), c.subnetCounts[subnet]? = some n → n ≤ maxPeersPerSubnet

def Connections.empty : Connections where
  subnetCounts := ∅
  peerSubnets := ∅
  outboundPeers := ∅
  inboundPeers := ∅

/-- The number of open connections of a peer after an input, from the number before. -/
def countConnection (peer : PeerId) (n : ℕ) (input : EventEnv × LoopInput) : ℕ :=
  match input.2 with
  | .event (.peerConnected p _) => if p = peer then n + 1 else n
  | .event (.peerDisconnected p) => if p = peer then n - 1 else n
  | _ => n

/-- The number of connections of a peer that are open after a sequence of inputs. -/
def openConnections (inputs : List (EventEnv × LoopInput)) (peer : PeerId) : ℕ :=
  inputs.foldl (countConnection peer) 0

/-- At every point of a run the counts are right, and nothing is left when no connection is. -/
structure NoLeak (P : Primitives) (loop : EventLoop) (inputs : List (EventEnv × LoopInput)) :
    Prop where
  slots : ∀ before after, inputs = before ++ after →
    (Transition.run (EventLoop.round P) loop before).connections.SlotsRight
  closed : ∀ before after, inputs = before ++ after →
    (∀ peer, openConnections before peer = 0) →
      (Transition.run (EventLoop.round P) loop before).connections = Connections.empty

/-- A peer that the node takes up in a subnet holds no slot yet. -/
def OneSlot (loop : EventLoop) (input : EventEnv × LoopInput) : Prop :=
  ∀ peer addr, input.2 = .event (.peerConnected peer (some addr)) →
    (extractSubnet24 addr).isSome = true → (loop.takeUp input.1 peer (some addr)).isSome = true →
      loop.peerSubnets[peer]? = none

/-! ## Slots -/

section Slots

variable {m : ExtTreeMap PeerId Subnet} {peer : PeerId} {subnet : Subnet}

theorem peersIn_eq_total (m : ExtTreeMap PeerId Subnet) (subnet : Subnet) :
    peersIn m subnet = FiniteMap.total (fun s => if s = subnet then 1 else 0) m :=
  FiniteMap.countP_eq_total (fun s : Subnet => s = subnet) m

theorem peersIn_insert (h : m[peer]? = none) (s : Subnet) :
    peersIn (m.insert peer subnet) s = (if subnet = s then 1 else 0) + peersIn m s := by
  rw [peersIn_eq_total, peersIn_eq_total, FiniteMap.total_insert_new _ h]

theorem peersIn_insert_of_some {held : Subnet} (h : m[peer]? = some held) :
    peersIn (m.insert peer subnet) held + 1 = peersIn m held + if subnet = held then 1 else 0 := by
  have hmoved := FiniteMap.total_insert_of_some (fun s => if s = held then 1 else 0) h subnet
  rw [peersIn_eq_total, peersIn_eq_total, ← hmoved, if_pos rfl]

theorem peersIn_erase (h : m[peer]? = some subnet) (s : Subnet) :
    peersIn m s = (if subnet = s then 1 else 0) + peersIn (m.erase peer) s := by
  rw [peersIn_eq_total, peersIn_eq_total]
  exact FiniteMap.total_eq_add_erase _ h

variable {counts : ExtTreeMap Subnet ℕ}

theorem getD_insert (counts : ExtTreeMap Subnet ℕ) (subnet s : Subnet) (n : ℕ) :
    (counts.insert subnet n).getD s 0 = if subnet = s then n else counts.getD s 0 := by
  rw [ExtTreeMap.getD_eq_getD_getElem?, FiniteMap.getElem?_insert',
    ExtTreeMap.getD_eq_getD_getElem?]
  split <;> rfl

theorem getD_erase (counts : ExtTreeMap Subnet ℕ) (subnet s : Subnet) :
    (counts.erase subnet).getD s 0 = if subnet = s then 0 else counts.getD s 0 := by
  rw [ExtTreeMap.getD_eq_getD_getElem?, FiniteMap.getElem?_erase',
    ExtTreeMap.getD_eq_getD_getElem?]
  split <;> rfl

end Slots

/-! ## One round -/

section Round

variable {P : Primitives} {loop : EventLoop} {env : EventEnv} {peer : PeerId}

open EventLoop

/-- Only connections and their ends move the maps. -/
theorem connections_round {event : OpolysNetworkEvent}
    (hconnected : ∀ peer addr, event ≠ .peerConnected peer addr)
    (hdisconnected : ∀ peer, event ≠ .peerDisconnected peer) :
    (handleNetworkEvent P env loop event).connections = loop.connections := by
  unfold handleNetworkEvent
  cases event with
  | peerConnected peer addr => exact absurd rfl (hconnected peer addr)
  | peerDisconnected peer => exact absurd rfl (hdisconnected peer)
  | gossipTransaction data source => exact connections_handleGossipTransaction _ _ _ _
  | gossipBlock data source => exact connections_handleGossipBlock _ _ _ _
  | gossipAttestation data source => exact connections_handleGossipAttestation _ _ _
  | peerIdentified peer version agent => exact connections_handlePeerIdentified _ _ _ _
  | syncResponseReceived peer blocks => exact connections_handleSyncResponse _ _ _ _
  | challengeResponseReceived peer hashVal => exact connections_handleChallengeResponse _ _ _ _
  | syncRequestReceived peer startHeight count => rfl
  | challengeRequestReceived peer height nonce parentHash => rfl

theorem Connections.SlotsRight.congr {c c' : Connections} (h : c.SlotsRight)
    (hcounts : c'.subnetCounts = c.subnetCounts) (hsubnets : c'.peerSubnets = c.peerSubnets) :
    c'.SlotsRight := by
  obtain ⟨heq, hpos, hle⟩ := h
  rw [← hcounts] at heq hpos hle
  rw [← hsubnets] at heq
  exact ⟨heq, hpos, hle⟩

theorem slotsRight_recordSubnet {subnet : Subnet} (h : loop.connections.SlotsRight)
    (hnone : loop.peerSubnets[peer]? = none)
    (hcount : loop.subnetCounts.getD subnet 0 < maxPeersPerSubnet) :
    (loop.recordSubnet peer subnet).connections.SlotsRight := by
  refine ⟨fun s => ?_, fun s n hn => ?_, fun s n hn => ?_⟩
  · have hold := h.count_eq s
    change loop.subnetCounts.getD s 0 = peersIn loop.peerSubnets s at hold
    change (loop.subnetCounts.insert subnet _).getD s 0 =
      peersIn (loop.peerSubnets.insert peer subnet) s
    rw [getD_insert, peersIn_insert hnone, ← hold]
    split
    · rename_i hs
      rw [hs, Nat.add_comm]
    · exact (Nat.zero_add _).symm
  · change (loop.subnetCounts.insert subnet _)[s]? = some n at hn
    rw [FiniteMap.getElem?_insert'] at hn
    split at hn
    · cases hn
      exact Nat.succ_pos _
    · exact h.pos s n hn
  · change (loop.subnetCounts.insert subnet _)[s]? = some n at hn
    rw [FiniteMap.getElem?_insert'] at hn
    split at hn
    · cases hn
      exact hcount
    · exact h.le s n hn

/-- A count is the number of peers, and where there are none there is no count. -/
theorem Connections.SlotsRight.getElem?_eq {c : Connections} (h : c.SlotsRight) {subnet : Subnet}
    {n : ℕ} (hn : peersIn c.peerSubnets subnet = n + 1) :
    c.subnetCounts[subnet]? = some (n + 1) := by
  have hcount := h.count_eq subnet
  rw [ExtTreeMap.getD_eq_getD_getElem?, hn] at hcount
  cases hget : c.subnetCounts[subnet]? with
  | none =>
    rw [hget] at hcount
    cases hcount
  | some m =>
    rw [hget] at hcount
    rw [← hcount]
    rfl

theorem slotsRight_releaseSubnet (h : loop.connections.SlotsRight) (peer : PeerId) :
    (loop.releaseSubnet peer).connections.SlotsRight := by
  cases hget : loop.peerSubnets[peer]? with
  | none =>
    unfold releaseSubnet
    rw [hget]
    exact h
  | some subnet =>
    have herase := peersIn_erase hget
    have hsome := h.getElem?_eq ((herase subnet).trans (by rw [if_pos rfl, Nat.add_comm]))
    change loop.subnetCounts[subnet]? = _ at hsome
    have hconnections : (loop.releaseSubnet peer).connections = { loop.connections with
        peerSubnets := loop.peerSubnets.erase peer
        subnetCounts := if peersIn (loop.peerSubnets.erase peer) subnet = 0 then
            loop.subnetCounts.erase subnet
          else loop.subnetCounts.insert subnet
            (peersIn (loop.peerSubnets.erase peer) subnet) } := by
      unfold releaseSubnet
      rw [hget]
      dsimp only
      rw [hsome]
      dsimp only
      rw [Nat.add_sub_cancel]
      split <;> rfl
    rw [hconnections]
    refine ⟨fun s => ?_, fun s n hn => ?_, fun s n hn => ?_⟩
    · have hold := h.count_eq s
      change loop.subnetCounts.getD s 0 = peersIn loop.peerSubnets s at hold
      dsimp only
      split
      · rename_i hzero
        rw [getD_erase]
        split
        · rename_i hs
          rw [← hs, hzero]
        · rename_i hs
          rw [hold, herase s, if_neg hs, Nat.zero_add]
      · rw [getD_insert]
        split
        · rename_i hs
          rw [hs]
        · rename_i hs
          rw [hold, herase s, if_neg hs, Nat.zero_add]
    · dsimp only at hn
      split at hn
      · rw [FiniteMap.getElem?_erase'] at hn
        split at hn
        · cases hn
        · exact h.pos s n hn
      · rename_i hzero
        rw [FiniteMap.getElem?_insert'] at hn
        split at hn
        · cases hn
          exact Nat.pos_of_ne_zero hzero
        · exact h.pos s n hn
    · dsimp only at hn
      split at hn
      · rw [FiniteMap.getElem?_erase'] at hn
        split at hn
        · cases hn
        · exact h.le s n hn
      · rw [FiniteMap.getElem?_insert'] at hn
        split at hn
        · cases hn
          exact (Nat.le_succ _).trans (h.le subnet _ hsome)
        · exact h.le s n hn

/-- A round keeps the slots right when no peer takes a second one. -/
theorem slotsRight_round (h : loop.connections.SlotsRight) {input : EventEnv × LoopInput}
    (hone : OneSlot loop input) : (loop.round P input).connections.SlotsRight := by
  obtain ⟨env, input⟩ := input
  unfold EventLoop.round
  dsimp only
  cases input with
  | challengeCheck =>
    rw [connections_challengeCheck]
    exact h
  | mempoolEvict => exact h
  | event event =>
    dsimp only
    cases event with
    | peerConnected peer addr =>
      unfold handleNetworkEvent handlePeerConnected
      dsimp only
      split
      · exact h
      · rename_i admitted htake
        obtain ⟨rfl, rfl⟩ | ⟨text, rfl, ⟨-, rfl⟩ | ⟨subnet, hsubnet, hcount, rfl⟩⟩ :=
          admitPeer_cases (admitPeer_of_takeUp htake)
        · exact h.congr rfl rfl
        · exact h.congr rfl rfl
        · have hnone := hone peer text rfl (by rw [hsubnet]; rfl) (by rw [htake]; rfl)
          exact (slotsRight_recordSubnet h hnone hcount).congr rfl rfl
    | peerDisconnected peer =>
      unfold handleNetworkEvent handlePeerDisconnected
      apply slotsRight_releaseSubnet
      exact h.congr rfl rfl
    | _ =>
      rw [connections_round (by nofun) (by nofun)]
      exact h

/-- The subnet that a freed slot was in. -/
theorem connections_releaseSubnet (loop : EventLoop) (peer : PeerId) :
    (loop.releaseSubnet peer).connections.peerSubnets = loop.peerSubnets.erase peer ∧
      (loop.releaseSubnet peer).connections.outboundPeers = loop.outboundPeers ∧
      (loop.releaseSubnet peer).connections.inboundPeers = loop.inboundPeers := by
  unfold releaseSubnet
  split
  · rename_i hnone
    exact ⟨(FiniteMap.erase_eq_self hnone).symm, rfl, rfl⟩
  · dsimp only
    split
    · exact ⟨rfl, rfl, rfl⟩
    split <;> exact ⟨rfl, rfl, rfl⟩

/-- A peer that is noted in one of the maps. -/
def Connections.Notes (c : Connections) (peer : PeerId) : Prop :=
  peer ∈ c.peerSubnets ∨ peer ∈ c.outboundPeers ∨ peer ∈ c.inboundPeers

theorem Connections.notes_erase (c : Connections) {p peer : PeerId} :
    Connections.Notes ⟨c.subnetCounts, c.peerSubnets.erase p, c.outboundPeers.erase p,
      c.inboundPeers.erase p⟩ peer ↔ p ≠ peer ∧ c.Notes peer := by
  unfold Connections.Notes
  dsimp only
  rw [ExtTreeMap.mem_erase, ExtTreeSet.mem_erase, ExtTreeSet.mem_erase, ← and_or_left,
    ← and_or_left]
  exact and_congr_left' (not_congr Std.LawfulEqOrd.compare_eq_iff_eq)

/-- Only the peer that has connected is noted. -/
theorem notes_handlePeerConnected {addr : Option String} {p : PeerId}
    (h : (loop.handlePeerConnected env p addr).connections.Notes peer) :
    p = peer ∨ loop.connections.Notes peer := by
  unfold handlePeerConnected at h
  split at h
  · exact Or.inr h
  rename_i admitted htake
  obtain ⟨rfl, rfl⟩ | ⟨text, rfl, ⟨-, rfl⟩ | ⟨subnet, -, -, rfl⟩⟩ :=
    admitPeer_cases (admitPeer_of_takeUp htake)
  · rcases h with h | h | h
    · exact Or.inr (Or.inl h)
    · exact Or.inr (Or.inr (Or.inl h))
    · rcases ExtTreeSet.mem_insert.mp h with heq | h
      · exact Or.inl (Std.LawfulEqOrd.compare_eq_iff_eq.mp heq)
      · exact Or.inr (Or.inr (Or.inr h))
  · rcases h with h | h | h
    · exact Or.inr (Or.inl h)
    · rcases ExtTreeSet.mem_insert.mp h with heq | h
      · exact Or.inl (Std.LawfulEqOrd.compare_eq_iff_eq.mp heq)
      · exact Or.inr (Or.inr (Or.inl h))
    · exact Or.inr (Or.inr (Or.inr h))
  · rcases h with h | h | h
    · rcases ExtTreeMap.mem_insert.mp h with heq | h
      · exact Or.inl (Std.LawfulEqOrd.compare_eq_iff_eq.mp heq)
      · exact Or.inr (Or.inl h)
    · rcases ExtTreeSet.mem_insert.mp h with heq | h
      · exact Or.inl (Std.LawfulEqOrd.compare_eq_iff_eq.mp heq)
      · exact Or.inr (Or.inr (Or.inl h))
    · exact Or.inr (Or.inr (Or.inr h))

/-- Only the peer that has disconnected is forgotten. -/
theorem notes_handlePeerDisconnected {p : PeerId}
    (h : (loop.handlePeerDisconnected p).connections.Notes peer) :
    p ≠ peer ∧ loop.connections.Notes peer := by
  have hmaps : (loop.handlePeerDisconnected p).connections.peerSubnets =
        loop.peerSubnets.erase p ∧
      (loop.handlePeerDisconnected p).connections.outboundPeers = loop.outboundPeers.erase p ∧
      (loop.handlePeerDisconnected p).connections.inboundPeers = loop.inboundPeers.erase p :=
    connections_releaseSubnet _ p
  rw [← Connections.notes_erase]
  unfold Connections.Notes at h
  rw [hmaps.1, hmaps.2.1, hmaps.2.2] at h
  exact h

/-- A round notes a peer only as it connects, and forgets it when it disconnects. -/
theorem notes_round {input : EventEnv × LoopInput} {peer : PeerId} {n : ℕ}
    (h : loop.connections.Notes peer → 0 < n) :
    (loop.round P input).connections.Notes peer → 0 < countConnection peer n input := by
  obtain ⟨env, input⟩ := input
  unfold EventLoop.round
  dsimp only
  cases input with
  | challengeCheck =>
    rw [connections_challengeCheck]
    exact h
  | mempoolEvict => exact h
  | event event =>
    dsimp only
    cases event with
    | peerConnected p addr =>
      intro hnotes
      change 0 < if p = peer then n + 1 else n
      split
      · exact Nat.succ_pos n
      · rename_i hne
        exact h ((notes_handlePeerConnected hnotes).resolve_left hne)
    | peerDisconnected p =>
      intro hnotes
      obtain ⟨hne, hnotes⟩ := notes_handlePeerDisconnected hnotes
      change 0 < if p = peer then n - 1 else n
      rw [if_neg hne]
      exact h hnotes
    | _ =>
      rw [connections_round (by nofun) (by nofun)]
      exact h

/-- After a peer has taken a second slot the slots are wrong. -/
theorem not_slotsRight_of_second (h : loop.connections.SlotsRight) {input : EventEnv × LoopInput}
    (hsecond : ¬OneSlot loop input) : ¬(loop.round P input).connections.SlotsRight := by
  intro h'
  refine hsecond fun peer addr hevent hsubnet htake => ?_
  obtain ⟨env, input⟩ := input
  cases hevent
  obtain ⟨admitted, htake⟩ := Option.isSome_iff_exists.mp htake
  cases hheld : loop.peerSubnets[peer]? with
  | none => rfl
  | some held =>
    exfalso
    have hround : (loop.round P (env, .event (.peerConnected peer (some addr)))).connections =
        admitted.connections := by
      unfold EventLoop.round handleNetworkEvent handlePeerConnected
      dsimp only
      rw [htake]
      rfl
    obtain ⟨hnone, -⟩ | ⟨text, htext, ⟨hnone, -⟩ | ⟨subnet, -, -, hadmitted⟩⟩ :=
      admitPeer_cases (admitPeer_of_takeUp htake)
    · cases hnone
    · cases htext
      rw [hnone] at hsubnet
      cases hsubnet
    · rw [hround, hadmitted] at h'
      have hbefore := h.count_eq held
      have hafter := h'.count_eq held
      change loop.subnetCounts.getD held 0 = peersIn loop.peerSubnets held at hbefore
      change (loop.subnetCounts.insert subnet _).getD held 0 =
        peersIn (loop.peerSubnets.insert peer subnet) held at hafter
      have hmoved : peersIn (loop.peerSubnets.insert peer subnet) held + 1 =
          peersIn loop.peerSubnets held + if subnet = held then 1 else 0 :=
        peersIn_insert_of_some hheld
      rw [getD_insert] at hafter
      by_cases hsame : subnet = held
      · rw [if_pos hsame, hsame] at hafter
        rw [if_pos hsame] at hmoved
        rw [hsame] at hmoved
        omega
      · rw [if_neg hsame] at hafter hmoved
        omega

end Round

/-! ## Runs -/

section Runs

variable {P : Primitives} {loop : EventLoop}

theorem slotsRight_empty : Connections.empty.SlotsRight where
  count_eq subnet := by
    unfold Connections.empty
    rw [peersIn_eq_total]
    simp
  pos subnet n h := by simp [Connections.empty] at h
  le subnet n h := by simp [Connections.empty] at h

/-- A peer that is noted has an open connection. -/
theorem notes_run (hstart : loop.connections = Connections.empty)
    (inputs : List (EventEnv × LoopInput)) (peer : PeerId) :
    (Transition.run (EventLoop.round P) loop inputs).connections.Notes peer →
      0 < openConnections inputs peer := by
  induction inputs using List.reverseRecOn with
  | nil =>
    rw [Transition.run_nil, hstart]
    unfold Connections.Notes Connections.empty
    simp
  | append_singleton inputs input ih =>
    unfold openConnections
    rw [Transition.run_append, List.foldl_append]
    exact notes_round ih

theorem Connections.SlotsRight.eq_empty {c : Connections} (h : c.SlotsRight)
    (hnotes : ∀ peer, ¬c.Notes peer) : c = Connections.empty := by
  have hsubnets : c.peerSubnets = ∅ :=
    ExtTreeMap.eq_empty_iff_forall_not_mem.mpr fun peer hmem => hnotes peer (Or.inl hmem)
  refine Connections.ext ?_ hsubnets ?_ ?_
  · refine ExtTreeMap.ext_getElem? fun subnet => ?_
    cases hget : c.subnetCounts[subnet]? with
    | none => rfl
    | some n =>
      have hcount := h.count_eq subnet
      rw [ExtTreeMap.getD_eq_getD_getElem?, hget, hsubnets, peersIn_eq_total] at hcount
      have hpos := h.pos subnet n hget
      simp at hcount
      omega
  · exact ExtTreeSet.eq_empty_iff_forall_not_mem.mpr fun peer hmem =>
      hnotes peer (Or.inr (Or.inl hmem))
  · exact ExtTreeSet.eq_empty_iff_forall_not_mem.mpr fun peer hmem =>
      hnotes peer (Or.inr (Or.inr hmem))

/-- From a loop without connections, nothing leaks in a run if and only if no peer that holds a
slot is taken up in a subnet again. -/
theorem noLeak_iff (hstart : loop.connections = Connections.empty)
    (inputs : List (EventEnv × LoopInput)) :
    NoLeak P loop inputs ↔ Transition.EveryStep (EventLoop.round P) OneSlot loop inputs := by
  have hfirst : loop.connections.SlotsRight := by
    rw [hstart]
    exact slotsRight_empty
  have hstep : ∀ (loop : EventLoop) (input : EventEnv × LoopInput), loop.connections.SlotsRight →
      ((loop.round P input).connections.SlotsRight ↔ OneSlot loop input) := fun _ _ h =>
    ⟨fun h' => by_contra fun hsecond => not_slotsRight_of_second h hsecond h',
      fun hone => slotsRight_round h hone⟩
  rw [← Transition.everyState_iff_everyStep' hstep hfirst, Transition.everyState_iff]
  refine ⟨NoLeak.slots, fun hslots => ⟨hslots, fun before after h hclosed => ?_⟩⟩
  refine (hslots before after h).eq_empty fun peer hnotes => ?_
  have hopen := notes_run hstart before peer hnotes
  rw [hclosed peer] at hopen
  cases hopen

namespace Reference

/-- What a loop reads at the beginning of time. -/
def quietEnv : EventEnv where
  nowSecs := 0
  instant := 0
  challengeHash := 0
  order := .byId
  calls _ := { nowSecs := 0, writeOk := true }

/-- A peer that the node dials. -/
def dialed (peer : PeerId) : EventEnv × LoopInput :=
  (quietEnv, .event (.peerConnected peer (some "/ip4/203.0.113.7/tcp/4170")))

/-- A peer that disconnects. -/
def closed (peer : PeerId) : EventEnv × LoopInput :=
  (quietEnv, .event (.peerDisconnected peer))

end Reference

open Reference

/-- A peer that connects and disconnects. -/
theorem noLeak_of_reference :
    NoLeak primitives (EventLoop.new emptyNode ∅) [dialed "peer", closed "peer"] := by
  refine (noLeak_iff rfl _).mpr ⟨fun peer addr _ _ _ => ?_, fun peer addr hevent => ?_, trivial⟩
  · exact ExtTreeMap.getElem?_empty
  · cases hevent

/-- Two connections of a peer that the node has dialed twice leave a slot behind when both are
closed. -/
theorem slot_leaked :
    ¬∀ (node : OpolysNode) (inputs : List (EventEnv × LoopInput)),
      NoLeak primitives (EventLoop.new node ∅) inputs := by
  intro h
  have hclosed := (h emptyNode [dialed "peer", dialed "peer", closed "peer", closed "peer"]).closed
    _ [] (List.append_nil _).symm fun peer => by
      unfold openConnections
      by_cases hpeer : "peer" = peer <;> simp [countConnection, dialed, closed, hpeer]
  have hleft := congrArg (fun c => c.subnetCounts.getD ⟨[203, 0, 113], rfl⟩ 0) hclosed
  revert hleft
  decide +kernel

end Runs

end Opolys
