import Opolys.Node.Subnets

/-!
# Room for peers

The loop takes up a connection only while there is room for one of its kind, and for one of its
subnet. Whatever it goes through, it never has more connections than that.

* `Connections.WithinLimits` : what the loop checks before it takes up a connection.
* `connections_within_limits` : it holds in every run.
-/

namespace Opolys

open Std (ExtTreeMap ExtTreeSet)
open EventLoop

variable {P : Primitives} {loop : EventLoop} {env : EventEnv} {peer : PeerId}

/-- No more connections of a kind, and no more peers of a subnet, than there may be. -/
structure Connections.WithinLimits (c : Connections) : Prop where
  outbound : c.outboundPeers.size ≤ maxOutboundConnections
  inbound : c.inboundPeers.size ≤ maxInboundConnections
  subnets : ∀ subnet, c.subnetCounts.getD subnet 0 ≤ maxPeersPerSubnet

theorem Connections.withinLimits_empty : Connections.empty.WithinLimits where
  outbound := Nat.zero_le _
  inbound := Nat.zero_le _
  subnets subnet := by simp [Connections.empty]

/-! ## Connections that come -/

/-- A connection is noted only where there is room for one of its kind. -/
theorem size_lt_of_admitPeer {addr : Option String} {admitted : EventLoop}
    (h : loop.admitPeer peer addr = some admitted) :
    (addr = none → loop.inboundPeers.size < maxInboundConnections) ∧
      ∀ text, addr = some text → loop.outboundPeers.size < maxOutboundConnections := by
  unfold admitPeer at h
  cases addr with
  | none =>
    dsimp only at h
    split at h
    · cases h
    · rename_i hroom
      refine ⟨fun _ => Nat.not_le.mp hroom, ?_⟩
      intro text htext
      cases htext
  | some text =>
    dsimp only at h
    split at h
    · cases h
    · rename_i hroom
      refine ⟨?_, fun _ _ => Nat.not_le.mp hroom⟩
      intro hnone
      cases hnone

theorem withinLimits_admitPeer (h : loop.connections.WithinLimits) {addr : Option String}
    {admitted : EventLoop} (hadmitted : loop.admitPeer peer addr = some admitted) :
    admitted.connections.WithinLimits := by
  obtain ⟨hinbound, houtbound⟩ := size_lt_of_admitPeer hadmitted
  have hgrown {set : ExtTreeSet PeerId} {limit : ℕ} (hroom : set.size < limit) :
      (set.insert peer).size ≤ limit := ExtTreeSet.size_insert_le.trans hroom
  rcases admitPeer_cases hadmitted with
    ⟨haddr, rfl⟩ | ⟨text, haddr, ⟨-, rfl⟩ | ⟨subnet, -, hcount, rfl⟩⟩
  · exact ⟨h.outbound, hgrown (hinbound haddr), h.subnets⟩
  · exact ⟨hgrown (houtbound text haddr), h.inbound, h.subnets⟩
  · refine ⟨hgrown (houtbound text haddr), h.inbound, ?_⟩
    intro other
    show (loop.subnetCounts.insert subnet _).getD other 0 ≤ maxPeersPerSubnet
    rw [getD_insert]
    by_cases hsubnet : subnet = other
    · rw [if_pos hsubnet]
      exact hcount
    · rw [if_neg hsubnet]
      exact h.subnets other

theorem withinLimits_handlePeerConnected (h : loop.connections.WithinLimits)
    (addr : Option String) : (loop.handlePeerConnected env peer addr).connections.WithinLimits := by
  unfold handlePeerConnected
  cases htaken : loop.takeUp env peer addr with
  | none => exact h
  | some admitted =>
    have hadmitted : admitted.connections.WithinLimits :=
      withinLimits_admitPeer h (admitPeer_of_takeUp htaken)
    exact hadmitted

/-! ## Connections that go -/

/-- No count grows when a slot is freed. -/
theorem subnetCounts_releaseSubnet_le (loop : EventLoop) (peer : PeerId) (other : Subnet) :
    (loop.releaseSubnet peer).subnetCounts.getD other 0 ≤ loop.subnetCounts.getD other 0 := by
  unfold releaseSubnet
  cases loop.peerSubnets[peer]? with
  | none => exact le_rfl
  | some subnet =>
    dsimp only
    cases hcount : loop.subnetCounts[subnet]? with
    | none => exact le_rfl
    | some count =>
      have hheld : loop.subnetCounts.getD subnet 0 = count := by
        rw [ExtTreeMap.getD_eq_getD_getElem?, hcount]
        rfl
      dsimp only
      by_cases hlast : count - 1 = 0
      · rw [if_pos hlast]
        dsimp only
        rw [getD_erase]
        by_cases hsubnet : subnet = other
        · simp [hsubnet]
        · simp [hsubnet]
      · rw [if_neg hlast]
        dsimp only
        rw [getD_insert]
        by_cases hsubnet : subnet = other
        · rw [if_pos hsubnet, ← hsubnet, hheld]
          exact Nat.sub_le count 1
        · rw [if_neg hsubnet]

theorem withinLimits_handlePeerDisconnected (h : loop.connections.WithinLimits) :
    (loop.handlePeerDisconnected peer).connections.WithinLimits := by
  obtain ⟨-, houtbound, hinbound⟩ := connections_releaseSubnet
    { (loop.clearRecord peer).unverify peer with
      refinerPeers := loop.refinerPeers.erase peer
      outboundPeers := loop.outboundPeers.erase peer
      inboundPeers := loop.inboundPeers.erase peer } peer
  constructor
  · exact (congrArg ExtTreeSet.size houtbound).le.trans (ExtTreeSet.size_erase_le.trans h.outbound)
  · exact (congrArg ExtTreeSet.size hinbound).le.trans (ExtTreeSet.size_erase_le.trans h.inbound)
  · intro subnet
    exact (subnetCounts_releaseSubnet_le _ peer subnet).trans (h.subnets subnet)

/-! ## Runs -/

theorem withinLimits_round (h : loop.connections.WithinLimits) (input : EventEnv × LoopInput) :
    (loop.round P input).connections.WithinLimits := by
  obtain ⟨env, input⟩ := input
  unfold EventLoop.round
  dsimp only
  cases input with
  | challengeCheck =>
    rw [connections_challengeCheck]
    exact h
  | mempoolEvict => exact h
  | event event =>
    dsimp only
    cases event with
    | peerConnected peer addr => exact withinLimits_handlePeerConnected h addr
    | peerDisconnected peer => exact withinLimits_handlePeerDisconnected h
    | _ =>
      rw [connections_round (by nofun) (by nofun)]
      exact h

/-- Whatever happens on the network, a node never has more connections of a kind and never dials
more peers of a subnet than it may. The limit for both kinds together is never reached. -/
theorem connections_within_limits (P : Primitives) (node : OpolysNode) (bannedPeers : BanList)
    (inputs : List (EventEnv × LoopInput)) :
    let loop := Transition.run (EventLoop.round P) (EventLoop.new node bannedPeers) inputs
    loop.connections.WithinLimits ∧
      loop.inboundPeers.size + loop.outboundPeers.size < maxPeerCount := by
  intro loop
  have hstep (loop : EventLoop) (input : EventEnv × LoopInput) (h : loop.connections.WithinLimits) :
      (loop.round P input).connections.WithinLimits := withinLimits_round h input
  have hstart : (EventLoop.new node bannedPeers).connections.WithinLimits :=
    Connections.withinLimits_empty
  have hrun : loop.connections.WithinLimits := Transition.run_invariant hstep inputs hstart
  have hinbound : loop.inboundPeers.size ≤ 50 := hrun.inbound
  have houtbound : loop.outboundPeers.size ≤ 50 := hrun.outbound
  have htotal : maxPeerCount = 200 := rfl
  exact ⟨hrun, by omega⟩

end Opolys
