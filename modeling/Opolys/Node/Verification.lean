import Opolys.Node.Subnets

/-!
# Which peers are heard

A node reads what a peer sends when the peer is verified. A peer should have shown two things
since it has connected: that it speaks the protocol, and the answer to the challenge that it was
given. `Watch` follows a loop with what one peer has shown.

* `handleNetworkEvent_of_unverified` : messages of other peers change nothing.
* `heardQualified_iff` : when only peers are heard that have shown both.
-/

namespace Opolys

open Std (ExtTreeMap ExtTreeSet)

variable {P : Primitives}

/-! ## Messages -/

/-- The peer whose message an event is. -/
def OpolysNetworkEvent.speaker : OpolysNetworkEvent → Option PeerId
  | .gossipTransaction _ source => some source
  | .gossipBlock _ source => some source
  | .gossipAttestation _ source => some source
  | .syncResponseReceived peer _ => some peer
  | _ => none

/-- A message of a peer that is not verified is not processed. -/
theorem handleNetworkEvent_of_unverified {env : EventEnv} {loop : EventLoop}
    {event : OpolysNetworkEvent} {peer : PeerId} (hspeaker : event.speaker = some peer)
    (hunverified : peer ∉ loop.verifiedPeers) : handleNetworkEvent P env loop event = loop := by
  cases event <;> cases hspeaker <;> exact if_pos hunverified

/-! ## What a peer has shown -/

/-- Whether a peer has said since its last connection that it speaks the protocol. -/
def noteIdentified (peer : PeerId) (identified : Bool) (event : LoopInput) : Bool :=
  match event with
  | .event (.peerConnected p _) => if p = peer then false else identified
  | .event (.peerIdentified p protocolVersion _) =>
    if p = peer ∧ isCompatibleOpolysProtocol protocolVersion = true then true else identified
  | _ => identified

/-- Whether a peer has given since its last connection the answer that was expected. -/
def noteAnswered (peer : PeerId) (loop : EventLoop) (answered : Bool) (event : LoopInput) : Bool :=
  match event with
  | .event (.peerConnected p _) => if p = peer then false else answered
  | .event (.challengeResponseReceived p hashVal) =>
    if p = peer ∧ (loop.pendingChallenges[peer]?).map Prod.fst = some hashVal then true
    else answered
  | _ => answered

/-- A loop, and what one peer has shown since it has connected. -/
structure Watch where
  loop : EventLoop
  identified : Bool
  answered : Bool

namespace Watch

/-- Before anything has happened. -/
def start (loop : EventLoop) : Watch := { loop, identified := false, answered := false }

variable (P) in
def round (peer : PeerId) (watch : Watch) (input : EventEnv × LoopInput) : Watch where
  loop := watch.loop.round P input
  identified := noteIdentified peer watch.identified input.2
  answered := noteAnswered peer watch.loop watch.answered input.2

/-- If the peer is heard, it has shown both. -/
def HeardQualified (peer : PeerId) (watch : Watch) : Prop :=
  peer ∈ watch.loop.verifiedPeers → watch.identified = true ∧ watch.answered = true

/-- The peer answers its challenge after it has identified itself, and does not connect again
while it is verified. -/
def Orderly (peer : PeerId) (watch : Watch) (input : EventEnv × LoopInput) : Prop :=
  (∀ hashVal, input.2 = .event (.challengeResponseReceived peer hashVal) →
      (watch.loop.pendingChallenges[peer]?).map Prod.fst = some hashVal →
        watch.identified = true) ∧
    ∀ addr, input.2 = .event (.peerConnected peer addr) → peer ∉ watch.loop.verifiedPeers

end Watch

/-! ## Who becomes verified -/

section Verified

variable {loop : EventLoop} {env : EventEnv} {p peer : PeerId}

open EventLoop

theorem mem_verifiedPeers_unverify (h : peer ∈ (loop.unverify p).verifiedPeers) :
    peer ∈ loop.verifiedPeers := (ExtTreeSet.mem_erase.mp h).2

theorem mem_verifiedPeers_handleGossipBlock {data : Payload Block}
    (h : peer ∈ (loop.handleGossipBlock P env data p).verifiedPeers) :
    peer ∈ loop.verifiedPeers := by
  obtain ⟨-, hsame⟩ | ⟨-, hsame | ⟨block, -, hsame⟩⟩ :=
    handleGossipBlock_cases (P := P) loop env p data
  · rwa [hsame] at h
  · rwa [hsame] at h
  rw [hsame] at h
  obtain hsame | hsame | ⟨node, hsame | hsame⟩ := receiveGossipBlock_cases (P := P)
    (loop.setRateLimit p (loop.rateLimit env p).countBlock) env p block (loop.isRefinerPeer p)
  · rwa [hsame] at h
  · rw [hsame] at h
    exact mem_verifiedPeers_unverify h
  · rwa [hsame] at h
  · rw [hsame] at h
    obtain hsame | ⟨strikes, hsame⟩ := strike_cases
      { loop.setRateLimit p (loop.rateLimit env p).countBlock with node } env p
      (loop.isRefinerPeer p)
    · rwa [hsame] at h
    · rw [hsame] at h
      exact mem_verifiedPeers_unverify h

theorem mem_verifiedPeers_handleGossipTransaction {data : Payload Transaction}
    (h : peer ∈ (loop.handleGossipTransaction P env data p).verifiedPeers) :
    peer ∈ loop.verifiedPeers := by
  obtain ⟨-, hsame⟩ | ⟨-, hsame | ⟨tx, -, hsame⟩⟩ :=
    handleGossipTransaction_cases (P := P) loop env p data
  · rwa [hsame] at h
  · rwa [hsame] at h
  rw [hsame] at h
  obtain ⟨mempool, hsame⟩ | ⟨reason, permanent, hsame⟩ := receiveGossipTransaction_cases (P := P)
    (loop.setRateLimit p (loop.rateLimit env p).countTx) env p tx
  · rwa [hsame] at h
  · rw [hsame] at h
    exact mem_verifiedPeers_unverify h

theorem verifiedPeers_handlePeerConnected (addr : Option String) :
    (loop.handlePeerConnected env p addr).verifiedPeers = loop.verifiedPeers := by
  unfold handlePeerConnected
  split
  · rfl
  · rename_i admitted htake
    obtain ⟨-, rfl⟩ | ⟨_, -, ⟨-, rfl⟩ | ⟨_, -, -, rfl⟩⟩ :=
      admitPeer_cases (admitPeer_of_takeUp htake) <;> rfl

theorem verifiedPeers_releaseSubnet (loop : EventLoop) (p : PeerId) :
    (loop.releaseSubnet p).verifiedPeers = loop.verifiedPeers := by
  unfold releaseSubnet
  split
  · rfl
  dsimp only
  split
  · rfl
  split <;> rfl

theorem verifiedPeers_challengeCheck :
    (challengeCheck env loop).verifiedPeers = loop.verifiedPeers := by
  unfold challengeCheck
  dsimp only
  generalize ((loop.pendingChallenges.toList.filter fun entry =>
    challengeTimeoutSecs * 1000000000 ≤ env.instant - entry.2.2).map Prod.fst) = expired
  induction expired generalizing loop with
  | nil => rfl
  | cons peer expired ih => exact ih

/-- Only an answer to its challenge makes a peer verified. -/
theorem mem_verifiedPeers_round {input : EventEnv × LoopInput}
    (h : peer ∈ (loop.round P input).verifiedPeers) :
    peer ∈ loop.verifiedPeers ∨
      ∃ hashVal, input.2 = .event (.challengeResponseReceived peer hashVal) ∧
        (loop.pendingChallenges[peer]?).map Prod.fst = some hashVal := by
  obtain ⟨env, input⟩ := input
  unfold EventLoop.round at h
  dsimp only at h
  cases input with
  | challengeCheck =>
    rw [verifiedPeers_challengeCheck] at h
    exact Or.inl h
  | mempoolEvict => exact Or.inl h
  | event event =>
    dsimp only at h
    unfold handleNetworkEvent at h
    cases event with
    | gossipTransaction data source => exact Or.inl (mem_verifiedPeers_handleGossipTransaction h)
    | gossipBlock data source => exact Or.inl (mem_verifiedPeers_handleGossipBlock h)
    | gossipAttestation data source =>
      dsimp only at h
      unfold handleGossipAttestation at h
      left
      split at h
      · exact h
      split at h <;> exact h
    | peerConnected p addr =>
      dsimp only at h
      rw [verifiedPeers_handlePeerConnected] at h
      exact Or.inl h
    | peerIdentified p version agent =>
      dsimp only at h
      obtain ⟨-, hsame⟩ | ⟨-, refinerPeers, hsame⟩ :=
        handlePeerIdentified_cases loop p version agent
      · rw [hsame] at h
        exact Or.inl h
      · rw [hsame] at h
        exact Or.inl h
    | peerDisconnected p =>
      dsimp only at h
      unfold handlePeerDisconnected at h
      dsimp only at h
      rw [verifiedPeers_releaseSubnet] at h
      exact Or.inl (mem_verifiedPeers_unverify h)
    | syncResponseReceived p blocks =>
      dsimp only at h
      unfold handleSyncResponse at h
      left
      split at h <;> exact h
    | syncRequestReceived p startHeight count => exact Or.inl h
    | challengeRequestReceived p height nonce parentHash => exact Or.inl h
    | challengeResponseReceived p hashVal =>
      dsimp only at h
      obtain ⟨-, hsame⟩ | ⟨expectedHash, since, hget, ⟨rfl, hsame⟩ | ⟨-, hsame⟩⟩ :=
        handleChallengeResponse_cases loop env p hashVal
      · rw [hsame] at h
        exact Or.inl h
      · rw [hsame] at h
        rcases ExtTreeSet.mem_insert.mp h with heq | h
        · obtain rfl := Std.LawfulEqOrd.compare_eq_iff_eq.mp heq
          exact Or.inr ⟨hashVal, rfl, by rw [hget]; rfl⟩
        · exact Or.inl h
      · rw [hsame] at h
        exact Or.inl h

/-- The answer to its challenge does make a peer verified. -/
theorem verifiedPeers_of_answer {hashVal : UInt64}
    (hget : (loop.pendingChallenges[peer]?).map Prod.fst = some hashVal) :
    peer ∈ (loop.handleChallengeResponse env peer hashVal).verifiedPeers := by
  obtain ⟨⟨expectedHash, since⟩, hpending, rfl⟩ := Option.map_eq_some_iff.mp hget
  unfold handleChallengeResponse
  rw [hpending]
  dsimp only
  rw [if_pos rfl]
  exact ExtTreeSet.mem_insert_self

end Verified

/-! ## Runs -/

section Runs

variable {loop : EventLoop} {peer : PeerId}

/-- Only a new connection takes back what a peer has shown. -/
theorem noteIdentified_true {event : LoopInput}
    (h : ∀ addr, event ≠ .event (.peerConnected peer addr)) :
    noteIdentified peer true event = true := by
  unfold noteIdentified
  split
  · rename_i p addr
    rw [if_neg fun hp => h addr (by rw [hp])]
  · split <;> rfl
  · rfl

theorem noteAnswered_true {event : LoopInput}
    (h : ∀ addr, event ≠ .event (.peerConnected peer addr)) :
    noteAnswered peer loop true event = true := by
  unfold noteAnswered
  split
  · rename_i p addr
    rw [if_neg fun hp => h addr (by rw [hp])]
  · split <;> rfl
  · rfl

namespace Watch

/-- A step keeps to the rule exactly when it is in order. -/
theorem heardQualified_round {watch : Watch} (h : watch.HeardQualified peer)
    (input : EventEnv × LoopInput) :
    (watch.round P peer input).HeardQualified peer ↔ watch.Orderly peer input := by
  obtain ⟨env, event⟩ := input
  constructor
  · intro h'
    refine ⟨fun hashVal hevent hget => ?_, fun addr hevent hverified => ?_⟩
    · cases hevent
      exact (h' (verifiedPeers_of_answer hget)).1
    · cases hevent
      have hstill : peer ∈
        (watch.round P peer (env, .event (.peerConnected peer addr))).loop.verifiedPeers := by
        change peer ∈ (watch.loop.handlePeerConnected env peer addr).verifiedPeers
        rw [verifiedPeers_handlePeerConnected]
        exact hverified
      have hidentified := (h' hstill).1
      change (if peer = peer then false else watch.identified) = true at hidentified
      rw [if_pos rfl] at hidentified
      cases hidentified
  · rintro ⟨hanswer, hconnect⟩ hverified
    change peer ∈ (watch.loop.round P (env, event)).verifiedPeers at hverified
    rcases mem_verifiedPeers_round hverified with hold | ⟨hashVal, hevent, hget⟩
    · obtain ⟨hidentified, hanswered⟩ := h hold
      have hsame (addr : Option String) : event ≠ .event (.peerConnected peer addr) :=
        fun hevent => hconnect addr hevent hold
      constructor
      · change noteIdentified peer watch.identified event = true
        rw [hidentified]
        exact noteIdentified_true hsame
      · change noteAnswered peer watch.loop watch.answered event = true
        rw [hanswered]
        exact noteAnswered_true hsame
    · have hidentified := hanswer hashVal hevent hget
      cases hevent
      exact ⟨hidentified, if_pos ⟨rfl, hget⟩⟩

end Watch

/-- At any point of a run the messages of a peer change nothing, unless it is verified. And whoever
is verified has identified itself and answered its challenge since it has connected, if and only if
every peer answers only after it has identified itself and connects again only when it is not
verified. -/
theorem heardQualified_iff (P : Primitives) {loop : EventLoop} (hstart : loop.verifiedPeers = ∅)
    (inputs : List (EventEnv × LoopInput)) :
    (∀ peer before after, inputs = before ++ after →
      let loop' := (Transition.run (Watch.round P peer) (Watch.start loop) before).loop
      peer ∉ loop'.verifiedPeers → ∀ env event, event.speaker = some peer →
        handleNetworkEvent P env loop' event = loop') ∧
    ((∀ peer before after, inputs = before ++ after →
        (Transition.run (Watch.round P peer) (Watch.start loop) before).HeardQualified peer) ↔
      ∀ peer, Transition.EveryStep (Watch.round P peer) (Watch.Orderly peer) (Watch.start loop)
        inputs) := by
  refine ⟨fun peer before after _ hunverified env event hspeaker =>
    handleNetworkEvent_of_unverified hspeaker hunverified, forall_congr' fun peer => ?_⟩
  have hfirst : (Watch.start loop).HeardQualified peer := by
    intro hverified
    change peer ∈ loop.verifiedPeers at hverified
    rw [hstart] at hverified
    exact absurd hverified ExtTreeSet.not_mem_empty
  have hstep : ∀ (watch : Watch) (input : EventEnv × LoopInput), watch.HeardQualified peer →
      ((watch.round P peer input).HeardQualified peer ↔ watch.Orderly peer input) :=
    fun watch input h => Watch.heardQualified_round h input
  rw [← Transition.everyState_iff_everyStep' hstep hfirst, Transition.everyState_iff]

namespace Reference

/-- A peer that dials the node. -/
def accepted (peer : PeerId) : EventEnv × LoopInput :=
  (quietEnv, .event (.peerConnected peer none))

/-- A peer that says which version it speaks. -/
def identified (peer : PeerId) (protocolVersion : String) : EventEnv × LoopInput :=
  (quietEnv, .event (.peerIdentified peer protocolVersion "opolys-node/1.0"))

/-- A peer that gives the answer that is expected. -/
def answered (peer : PeerId) : EventEnv × LoopInput :=
  (quietEnv, .event (.challengeResponseReceived peer 0))

end Reference

open Reference

/-- A peer that identifies itself, answers and disconnects. -/
theorem heardQualified_of_reference :
    Transition.EveryState (Watch.round primitives "peer") (Watch.HeardQualified "peer")
      (Watch.start (EventLoop.new emptyNode ∅))
      [accepted "peer", identified "peer" "1.0.0", answered "peer", closed "peer"] := by
  have horderly (peer : PeerId) :
      Transition.EveryStep (Watch.round primitives peer) (Watch.Orderly peer)
        (Watch.start (EventLoop.new emptyNode ∅))
        [accepted "peer", identified "peer" "1.0.0", answered "peer", closed "peer"] := by
    refine ⟨⟨nofun, fun addr hevent => ?_⟩, ⟨nofun, nofun⟩, ⟨fun hashVal hevent _ => ?_, nofun⟩,
      ⟨nofun, nofun⟩, trivial⟩
    · exact ExtTreeSet.not_mem_empty
    · cases hevent
      rfl
  exact Transition.everyState_iff.mpr
    ((heardQualified_iff primitives rfl _).2.mpr horderly "peer")

/-- A peer that has answered its challenge is still heard after it has said that it speaks
another version, which is all that it has ever said of itself. -/
theorem incompatible_heard :
    ¬∀ (node : OpolysNode) (inputs : List (EventEnv × LoopInput)) (peer : PeerId),
      (Transition.run (Watch.round primitives peer) (Watch.start (EventLoop.new node ∅))
        inputs).HeardQualified peer := by
  intro h
  have hqualified := h emptyNode [accepted "peer", answered "peer", identified "peer" "0.9.0"]
    "peer"
  have hheard : "peer" ∈ (Transition.run (Watch.round primitives "peer")
      (Watch.start (EventLoop.new emptyNode ∅))
      [accepted "peer", answered "peer", identified "peer" "0.9.0"]).loop.verifiedPeers := by
    decide +kernel
  have hidentified := (hqualified hheard).1
  revert hidentified
  decide +kernel

end Runs

end Opolys
