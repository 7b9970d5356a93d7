import Opolys.Node.Bans
import Opolys.Node.Equivocation
import Opolys.Node.Pools

/-!
# The event loop of the network

A node hears from its peers as a sequence of events. The event loop keeps what it knows of each
peer: whether it is verified, how often it has offended, how much it sends, which way it is
connected and from which subnet. A peer is challenged when it connects, and it is verified when
it answers. What it sends is read only then.

What the loop sends out in answer is left out here, and so are the addresses it remembers.

* `handleNetworkEvent` : what an event does.
-/

namespace Opolys

open Std (ExtTreeMap ExtTreeSet)
open Codec (Borsh FixedBytes)

/-! ## Limits -/

def maxBlocksPerPeerPerSecond : UInt32 := 10

def maxTxsPerPeerPerSecond : UInt32 := 50

/-- Peers that may share a subnet of 256 addresses. -/
def maxPeersPerSubnet : ℕ := 3

def maxInboundConnections : ℕ := 50

def maxOutboundConnections : ℕ := 50

def maxPeerCount : ℕ := 200

def challengeTimeoutSecs : ℕ := 15

/-! ## What is known of a peer -/

/-- The first three bytes of an IPv4 address. -/
abbrev Subnet := FixedBytes 3

/-- What a peer has sent in the present second. -/
structure PeerRateLimit where
  blockCount : UInt32
  txCount : UInt32
  /-- The monotonic clock in nanoseconds. -/
  windowStart : ℕ

namespace PeerRateLimit

def new (instant : ℕ) : PeerRateLimit := { blockCount := 0, txCount := 0, windowStart := instant }

/-- Start counting again after a second. -/
def maybeReset (limit : PeerRateLimit) (instant : ℕ) : PeerRateLimit :=
  if 1000000000 ≤ instant - limit.windowStart then new instant else limit

def countBlock (limit : PeerRateLimit) : PeerRateLimit :=
  { limit with blockCount := limit.blockCount + 1 }

def countTx (limit : PeerRateLimit) : PeerRateLimit :=
  { limit with txCount := limit.txCount + 1 }

end PeerRateLimit

/-- A node with its peers. -/
structure EventLoop where
  node : OpolysNode
  bannedPeers : BanList
  /-- Peers that have announced themselves as a refiner. -/
  refinerPeers : ExtTreeMap PeerId ObjectId
  /-- Peers that the node has dialed. -/
  outboundPeers : ExtTreeSet PeerId
  inboundPeers : ExtTreeSet PeerId
  peerStrikes : ExtTreeMap PeerId UInt32
  peerRateLimits : ExtTreeMap PeerId PeerRateLimit
  verifiedPeers : ExtTreeSet PeerId
  /-- The answer expected of a peer, and when it was asked. -/
  pendingChallenges : ExtTreeMap PeerId (UInt64 × ℕ)
  subnetCounts : ExtTreeMap Subnet ℕ
  peerSubnets : ExtTreeMap PeerId Subnet

/-- The loop as it starts, with the ban list of earlier runs. -/
def EventLoop.new (node : OpolysNode) (bannedPeers : BanList) : EventLoop where
  node := node
  bannedPeers := bannedPeers
  refinerPeers := ∅
  outboundPeers := ∅
  inboundPeers := ∅
  peerStrikes := ∅
  peerRateLimits := ∅
  verifiedPeers := ∅
  pendingChallenges := ∅
  subnetCounts := ∅
  peerSubnets := ∅

/-- What the loop reads from outside while it handles an event. -/
structure EventEnv where
  /-- The wall clock in Unix seconds. -/
  nowSecs : UInt64
  /-- The monotonic clock in nanoseconds. -/
  instant : ℕ
  /-- The answer to the challenge that a new peer is given. -/
  challengeHash : UInt64
  /-- The order of the mempool's map. -/
  order : IterOrder
  /-- What the calls of `applyBlock` read, one after the other. -/
  calls : ℕ → Env

/-- The bytes of a message: a serialized value, or something else. -/
inductive Payload (α : Type) where
  | encoded (a : α)
  | malformed (length : ℕ)

/-- The length of a message. -/
def Payload.length {α : Type} [Borsh α] : Payload α → ℕ
  | .encoded a => (Borsh.encode a).length
  | .malformed length => length

/-- What the network reports. -/
inductive OpolysNetworkEvent where
  | gossipTransaction (data : Payload Transaction) (source : PeerId)
  | gossipBlock (data : Payload Block) (source : PeerId)
  | gossipAttestation (data : Payload BlockAttestation) (source : PeerId)
  /-- With the address, if the node has dialed the peer. -/
  | peerConnected (peer : PeerId) (addr : Option String)
  | peerIdentified (peer : PeerId) (protocolVersion agentVersion : String)
  | peerDisconnected (peer : PeerId)
  | syncResponseReceived (peer : PeerId) (blocks : List (Payload Block))
  | syncRequestReceived (peer : PeerId) (startHeight count : UInt64)
  | challengeRequestReceived (peer : PeerId) (height nonce : UInt64) (parentHash : Hash)
  | challengeResponseReceived (peer : PeerId) (hashVal : UInt64)

/-! ## Reading texts -/

/-- Read a byte in decimal. A plus sign may stand before the digits. -/
def parseU8 (text : List Char) : Option UInt8 :=
  let digits := match text with
    | '+' :: rest => rest
    | _ => text
  if digits.isEmpty || !digits.all Char.isDigit then none
  else
    let value := digits.foldl (fun value c => 10 * value + (c.toNat - '0'.toNat)) 0
    if value < 256 then some (UInt8.ofNat value) else none

/-- The subnet of the first IPv4 address in an address. -/
def extractSubnet24 (addr : String) : Option Subnet :=
  go (addr.toList.splitOn '/')
where
  go : List (List Char) → Option Subnet
    | part :: ip :: rest =>
      if part = ['i', 'p', '4'] then
        match (ip.splitOn '.').filterMap parseU8 with
        | [a, b, c, _] => some ⟨[a, b, c], rfl⟩
        | _ => go (ip :: rest)
      else go (ip :: rest)
    | _ => none

def isCompatibleOpolysProtocol (protocolVersion : String) : Bool :=
  protocolVersion = networkProtocolVersion

/-- Whether a text contains another. -/
def containsText (text pattern : String) : Bool := pattern.toList <:+: text.toList

/-- A white space of Unicode. -/
def isUnicodeWhitespace (c : Char) : Bool :=
  let n := c.toNat
  (9 ≤ n && n ≤ 13) || n = 0x20 || n = 0x85 || n = 0xA0 || n = 0x1680 ||
    (0x2000 ≤ n && n ≤ 0x200A) || n = 0x2028 || n = 0x2029 || n = 0x202F || n = 0x205F || n = 0x3000

/-- What stands between the first and the second occurrence of a pattern, or after the only
one. -/
def afterPattern (pattern : List Char) : List Char → Option (List Char)
  | [] => none
  | c :: rest =>
    if pattern <+: c :: rest then some (upTo ((c :: rest).drop pattern.length))
    else afterPattern pattern rest
where
  upTo : List Char → List Char
    | [] => []
    | c :: rest => if pattern <+: c :: rest then [] else c :: upTo rest

/-- The value of a hexadecimal digit. -/
def hexDigit (c : Char) : Option ℕ :=
  let n := c.toNat
  if 48 ≤ n ∧ n ≤ 57 then some (n - 48)
  else if 97 ≤ n ∧ n ≤ 102 then some (n - 87)
  else if 65 ≤ n ∧ n ≤ 70 then some (n - 55)
  else none

/-- The bytes that hexadecimal digits spell. -/
def hexDecode : List Char → Option (List UInt8)
  | [] => some []
  | [_] => none
  | hi :: lo :: rest => do
    let hi ← hexDigit hi
    let lo ← hexDigit lo
    let bytes ← hexDecode rest
    return UInt8.ofNat (16 * hi + lo) :: bytes

/-- The refiner that an agent string announces. -/
def announcedRefiner (agentVersion : String) : Option ObjectId := do
  let rest ← afterPattern "refiner:".toList agentVersion.toList
  let hex := (rest.dropWhile isUnicodeWhitespace).takeWhile fun c => !isUnicodeWhitespace c
  let bytes ← hexDecode hex
  let hash ← FixedBytes.ofList? 32 bytes
  return ⟨hash⟩

/-! ## Handlers -/

/-- How the proof of work of a gossiped block looks before the block is applied. -/
inductive GossipedWork where
  /-- The hash is above the target. -/
  | fake
  /-- There is no hash. -/
  | malformed
  /-- There is nothing to see. -/
  | passed
deriving DecidableEq

variable (P : Primitives)

/-- Look at the proof of work of a gossiped block. A target of 0 is left to `applyBlock`. -/
def gossipedWork (header : BlockHeader) : GossipedWork :=
  match header.powProof with
  | none => .passed
  | some _ =>
    let target := Emission.difficultyToTarget header.difficulty
    if target > 0 then
      match computePowHashValue P header with
      | some hashValue => if hashValue > target then .fake else .passed
      | none => .malformed
    else .passed

/-- Apply the blocks of a sync response, as long as each is the next one. -/
def applySyncBlocks (calls : ℕ → Env) : ℕ → List (Payload Block) → OpolysNode → OpolysNode
  | _, [], node => node
  | n, data :: blocks, node =>
    if data.length > maxBlockSizeBytes then node
    else
      match data with
      | .malformed _ => node
      | .encoded block =>
        if block.header.height ≠ node.chain.currentHeight + 1 then node
        else
          match applyBlock P (calls n) block node with
          | .ok _ node' => applySyncBlocks calls (n + 1) blocks node'
          | .error _ node' => node'

namespace EventLoop

/-- Whether a peer has announced itself as a refiner that is active. -/
def isRefinerPeer (loop : EventLoop) (peer : PeerId) : Bool :=
  match loop.refinerPeers[peer]? with
  | none => false
  | some objectId =>
    match loop.node.refiners.getRefiner objectId with
    | none => false
    | some refiner => refiner.status = .active

def banPeer (loop : EventLoop) (env : EventEnv) (peer : PeerId) (reason : String)
    (permanent : Bool) : EventLoop :=
  { loop with bannedPeers := loop.bannedPeers.banPeer peer reason permanent env.nowSecs }

/-- Forget that a peer is verified or is to be. -/
def unverify (loop : EventLoop) (peer : PeerId) : EventLoop :=
  { loop with
    verifiedPeers := loop.verifiedPeers.erase peer
    pendingChallenges := loop.pendingChallenges.erase peer }

/-- Forget what a peer has done. -/
def clearRecord (loop : EventLoop) (peer : PeerId) : EventLoop :=
  { loop with
    peerStrikes := loop.peerStrikes.erase peer
    peerRateLimits := loop.peerRateLimits.erase peer }

/-- What a peer has sent in the present second. -/
def rateLimit (loop : EventLoop) (env : EventEnv) (source : PeerId) : PeerRateLimit :=
  (loop.peerRateLimits.getD source (.new env.instant)).maybeReset env.instant

def setRateLimit (loop : EventLoop) (source : PeerId) (limit : PeerRateLimit) : EventLoop :=
  { loop with peerRateLimits := loop.peerRateLimits.insert source limit }

/-- Refiners may send twice as much. -/
def gossipLimit (isRefiner : Bool) (limit : UInt32) : UInt32 :=
  if isRefiner then limit * 2 else limit

/-! ### Blocks -/

/-- How many failed blocks have a peer banned. -/
def maxStrikes (isRefiner : Bool) : UInt32 := if isRefiner then 3 else 2

/-- Count a failed block against the peer that has sent it. -/
def strike (loop : EventLoop) (env : EventEnv) (source : PeerId) (isRefiner : Bool) : EventLoop :=
  let strikes := loop.peerStrikes.getD source 0 + 1
  let loop := { loop with peerStrikes := loop.peerStrikes.insert source strikes }
  if strikes ≥ maxStrikes isRefiner then
    ((loop.banPeer env source "invalid_block" false).clearRecord source).unverify source
  else loop

/-- Apply a gossiped block. The node attests a block that it has accepted. -/
def applyGossipBlock (loop : EventLoop) (env : EventEnv) (block : Block) (source : PeerId)
    (isRefiner : Bool) : EventLoop :=
  match applyBlock P (env.calls 0) block loop.node with
  | .ok hash node =>
    match node.createBlockAttestation P block.header.height hash with
    | none => { loop with node }
    | some attestation => { loop with node := node.hearAttestation P attestation }
  | .error _ node => { loop with node }.strike env source isRefiner

/-- Look at height and work of a gossiped block, then apply it. -/
def receiveGossipBlock (loop : EventLoop) (env : EventEnv) (block : Block) (source : PeerId)
    (isRefiner : Bool) : EventLoop :=
  let currentHeight := loop.node.chain.currentHeight
  if block.header.height ≤ currentHeight then loop
  else if block.header.height > currentHeight + maxHeightLookahead then loop
  else
    match gossipedWork P block.header with
    | .fake => ((loop.banPeer env source "fake_pow" true).clearRecord source).unverify source
    | .malformed => loop
    | .passed => loop.applyGossipBlock P env block source isRefiner

def handleGossipBlock (loop : EventLoop) (env : EventEnv) (data : Payload Block)
    (source : PeerId) : EventLoop :=
  if source ∉ loop.verifiedPeers then loop
  else
    let isRefiner := loop.isRefinerPeer source
    let blockLimit := gossipLimit isRefiner maxBlocksPerPeerPerSecond
    let limit := (loop.rateLimit env source).countBlock
    let loop := loop.setRateLimit source limit
    if limit.blockCount > blockLimit then loop
    else if data.length > maxBlockSizeBytes then loop
    else
      match data with
      | .malformed _ => loop
      | .encoded block => loop.receiveGossipBlock P env block source isRefiner

/-! ### Transactions and attestations -/

/-- The nonce of an account, 0 if there is none. -/
def accountNonce (loop : EventLoop) (sender : ObjectId) : UInt64 :=
  match loop.node.accounts.getAccount sender with
  | none => 0
  | some account => account.nonce

/-- Verify a gossiped transaction and add it to the mempool. -/
def receiveGossipTransaction (loop : EventLoop) (env : EventEnv) (tx : Transaction)
    (source : PeerId) : EventLoop :=
  match verifyTransaction P tx mainnetChainId with
  | .error e =>
    if e = .invalidSignature then
      (loop.banPeer env source "invalid_signature" true).unverify source
    else if containsText e.toString "chain_id" then
      (loop.banPeer env source "wrong_chain_id" false).unverify source
    else loop
  | .ok () =>
    match Mempool.addTransaction P env.order tx tx.fee env.nowSecs (loop.accountNonce tx.sender)
      loop.node.chain.suggestedFee mainnetChainId loop.node.mempool with
    | .ok _ mempool => { loop with node := { loop.node with mempool } }
    | .error _ mempool => { loop with node := { loop.node with mempool } }

def handleGossipTransaction (loop : EventLoop) (env : EventEnv) (data : Payload Transaction)
    (source : PeerId) : EventLoop :=
  if source ∉ loop.verifiedPeers then loop
  else
    let txLimit := gossipLimit (loop.isRefinerPeer source) maxTxsPerPeerPerSecond
    let limit := (loop.rateLimit env source).countTx
    let loop := loop.setRateLimit source limit
    if limit.txCount > txLimit then loop
    else if data.length > txMaxSizeBytes then loop
    else
      match data with
      | .malformed _ => loop
      | .encoded tx => loop.receiveGossipTransaction P env tx source

def handleGossipAttestation (loop : EventLoop) (data : Payload BlockAttestation)
    (source : PeerId) : EventLoop :=
  if source ∉ loop.verifiedPeers then loop
  else
    match data with
    | .malformed _ => loop
    | .encoded attestation => { loop with node := loop.node.hearAttestation P attestation }

/-! ### Connections -/

/-- Remember the subnet of a peer that the node has dialed. -/
def recordSubnet (loop : EventLoop) (peer : PeerId) (subnet : Subnet) : EventLoop :=
  { loop with
    subnetCounts := loop.subnetCounts.insert subnet (loop.subnetCounts.getD subnet 0 + 1)
    peerSubnets := loop.peerSubnets.insert peer subnet }

/-- Note a connection, unless there are too many of its kind. -/
def admitPeer (loop : EventLoop) (peer : PeerId) (addr : Option String) : Option EventLoop :=
  match addr with
  | some addr =>
    if loop.outboundPeers.size ≥ maxOutboundConnections then none
    else
      match extractSubnet24 addr with
      | none => some { loop with outboundPeers := loop.outboundPeers.insert peer }
      | some subnet =>
        if loop.subnetCounts.getD subnet 0 ≥ maxPeersPerSubnet then none
        else
          let loop := loop.recordSubnet peer subnet
          some { loop with outboundPeers := loop.outboundPeers.insert peer }
  | none =>
    if loop.inboundPeers.size ≥ maxInboundConnections then none
    else some { loop with inboundPeers := loop.inboundPeers.insert peer }

/-- Take up a connection, unless its peer is banned or there are too many. -/
def takeUp (loop : EventLoop) (env : EventEnv) (peer : PeerId) (addr : Option String) :
    Option EventLoop :=
  if loop.bannedPeers.isPeerBanned peer env.nowSecs then none
  else if loop.inboundPeers.size + loop.outboundPeers.size ≥ maxPeerCount then none
  else loop.admitPeer peer addr

/-- Challenge a peer that has connected. -/
def handlePeerConnected (loop : EventLoop) (env : EventEnv) (peer : PeerId)
    (addr : Option String) : EventLoop :=
  match loop.takeUp env peer addr with
  | none => loop
  | some loop => { loop with
      pendingChallenges := loop.pendingChallenges.insert peer (env.challengeHash, env.instant) }

/-- Note who a peer says it is. A peer of another version loses its challenge. -/
def handlePeerIdentified (loop : EventLoop) (peer : PeerId)
    (protocolVersion agentVersion : String) : EventLoop :=
  if !isCompatibleOpolysProtocol protocolVersion then
    { loop with pendingChallenges := loop.pendingChallenges.erase peer }
  else
    match announcedRefiner agentVersion with
    | none => loop
    | some objectId =>
      match loop.node.refiners.getRefiner objectId with
      | none => loop
      | some refiner =>
        if refiner.status = .active then
          { loop with refinerPeers := loop.refinerPeers.insert peer objectId }
        else loop

/-- Free the slot that a peer has in its subnet. -/
def releaseSubnet (loop : EventLoop) (peer : PeerId) : EventLoop :=
  match loop.peerSubnets[peer]? with
  | none => loop
  | some subnet =>
    let loop := { loop with peerSubnets := loop.peerSubnets.erase peer }
    match loop.subnetCounts[subnet]? with
    | none => loop
    | some count =>
      if count - 1 = 0 then { loop with subnetCounts := loop.subnetCounts.erase subnet }
      else { loop with subnetCounts := loop.subnetCounts.insert subnet (count - 1) }

/-- Forget a peer that has disconnected. -/
def handlePeerDisconnected (loop : EventLoop) (peer : PeerId) : EventLoop :=
  let loop := (loop.clearRecord peer).unverify peer
  { loop with
    refinerPeers := loop.refinerPeers.erase peer
    outboundPeers := loop.outboundPeers.erase peer
    inboundPeers := loop.inboundPeers.erase peer }.releaseSubnet peer

/-- Verify a peer that has answered its challenge, or ban it. -/
def handleChallengeResponse (loop : EventLoop) (env : EventEnv) (peer : PeerId)
    (hashVal : UInt64) : EventLoop :=
  match loop.pendingChallenges[peer]? with
  | none => loop
  | some (expectedHash, _) =>
    let loop := { loop with pendingChallenges := loop.pendingChallenges.erase peer }
    if hashVal = expectedHash then
      { loop with verifiedPeers := loop.verifiedPeers.insert peer }
    else (loop.banPeer env peer "failed_memory_challenge" true).clearRecord peer

def handleSyncResponse (loop : EventLoop) (env : EventEnv) (peer : PeerId)
    (blocks : List (Payload Block)) : EventLoop :=
  if peer ∉ loop.verifiedPeers then loop
  else { loop with node := applySyncBlocks P env.calls 0 blocks loop.node }

/-! ### What the handlers do -/

section Cases

variable {P} (loop : EventLoop) (env : EventEnv) (source : PeerId)

/-- A gossiped block is ignored, counted, or counted and looked at. -/
theorem handleGossipBlock_cases (data : Payload Block) :
    (source ∉ loop.verifiedPeers ∧ loop.handleGossipBlock P env data source = loop) ∨
      source ∈ loop.verifiedPeers ∧
        let counted := loop.setRateLimit source (loop.rateLimit env source).countBlock
        loop.handleGossipBlock P env data source = counted ∨
          ∃ block, data = .encoded block ∧ loop.handleGossipBlock P env data source =
            counted.receiveGossipBlock P env block source (loop.isRefinerPeer source) := by
  unfold handleGossipBlock
  by_cases hverified : source ∈ loop.verifiedPeers
  · rw [if_neg (not_not_intro hverified)]
    refine Or.inr ⟨hverified, ?_⟩
    dsimp only
    split
    · exact Or.inl rfl
    split
    · exact Or.inl rfl
    split
    · exact Or.inl rfl
    · exact Or.inr ⟨_, rfl, rfl⟩
  · rw [if_pos hverified]
    exact Or.inl ⟨hverified, rfl⟩

/-- A gossiped block that is looked at is dropped, or its sender is banned for it, or it becomes
part of the chain, or it counts against its sender. -/
theorem receiveGossipBlock_cases (block : Block) (isRefiner : Bool) :
    loop.receiveGossipBlock P env block source isRefiner = loop ∨
      loop.receiveGossipBlock P env block source isRefiner =
        ((loop.banPeer env source "fake_pow" true).clearRecord source).unverify source ∨
      ∃ node, loop.receiveGossipBlock P env block source isRefiner = { loop with node } ∨
        loop.receiveGossipBlock P env block source isRefiner =
          { loop with node }.strike env source isRefiner := by
  unfold receiveGossipBlock
  dsimp only
  split
  · exact Or.inl rfl
  split
  · exact Or.inl rfl
  split
  · exact Or.inr (Or.inl rfl)
  · exact Or.inl rfl
  · unfold applyGossipBlock
    split
    · split
      · exact Or.inr (Or.inr ⟨_, Or.inl rfl⟩)
      · exact Or.inr (Or.inr ⟨_, Or.inl rfl⟩)
    · exact Or.inr (Or.inr ⟨_, Or.inr rfl⟩)

/-- A strike is noted, or its peer is banned. -/
theorem strike_cases (isRefiner : Bool) :
    loop.strike env source isRefiner =
        { loop with
          peerStrikes := loop.peerStrikes.insert source (loop.peerStrikes.getD source 0 + 1) } ∨
      ∃ peerStrikes, loop.strike env source isRefiner =
        (({ loop with peerStrikes }.banPeer env source "invalid_block" false).clearRecord
          source).unverify source := by
  unfold strike
  dsimp only
  split
  · exact Or.inr ⟨_, rfl⟩
  · exact Or.inl rfl

/-- A gossiped transaction is ignored, counted, or counted and looked at. -/
theorem handleGossipTransaction_cases (data : Payload Transaction) :
    (source ∉ loop.verifiedPeers ∧ loop.handleGossipTransaction P env data source = loop) ∨
      source ∈ loop.verifiedPeers ∧
        let counted := loop.setRateLimit source (loop.rateLimit env source).countTx
        loop.handleGossipTransaction P env data source = counted ∨
          ∃ tx, data = .encoded tx ∧ loop.handleGossipTransaction P env data source =
            counted.receiveGossipTransaction P env tx source := by
  unfold handleGossipTransaction
  by_cases hverified : source ∈ loop.verifiedPeers
  · rw [if_neg (not_not_intro hverified)]
    refine Or.inr ⟨hverified, ?_⟩
    dsimp only
    split
    · exact Or.inl rfl
    split
    · exact Or.inl rfl
    split
    · exact Or.inl rfl
    · exact Or.inr ⟨_, rfl, rfl⟩
  · rw [if_pos hverified]
    exact Or.inl ⟨hverified, rfl⟩

/-- A gossiped transaction leaves a pool, or its sender is banned for it. -/
theorem receiveGossipTransaction_cases (tx : Transaction) :
    (∃ mempool, loop.receiveGossipTransaction P env tx source =
        { loop with node := { loop.node with mempool } }) ∨
      ∃ reason permanent, loop.receiveGossipTransaction P env tx source =
        (loop.banPeer env source reason permanent).unverify source := by
  unfold receiveGossipTransaction
  split
  · split
    · exact Or.inr ⟨_, _, rfl⟩
    split
    · exact Or.inr ⟨_, _, rfl⟩
    · exact Or.inl ⟨loop.node.mempool, rfl⟩
  · split <;> exact Or.inl ⟨_, rfl⟩

/-- An identification disturbs a challenge or names a refiner. -/
theorem handlePeerIdentified_cases (protocolVersion agentVersion : String) :
    (isCompatibleOpolysProtocol protocolVersion = false ∧
        loop.handlePeerIdentified source protocolVersion agentVersion =
          { loop with pendingChallenges := loop.pendingChallenges.erase source }) ∨
      isCompatibleOpolysProtocol protocolVersion = true ∧ ∃ refinerPeers,
        loop.handlePeerIdentified source protocolVersion agentVersion =
          { loop with refinerPeers } := by
  unfold handlePeerIdentified
  cases hcompatible : isCompatibleOpolysProtocol protocolVersion with
  | false => exact Or.inl ⟨rfl, rfl⟩
  | true =>
    refine Or.inr ⟨rfl, ?_⟩
    rw [Bool.not_true, if_neg Bool.false_ne_true]
    split
    · exact ⟨loop.refinerPeers, rfl⟩
    split
    · exact ⟨loop.refinerPeers, rfl⟩
    split
    · exact ⟨_, rfl⟩
    · exact ⟨loop.refinerPeers, rfl⟩

/-- What is noted of a connection. -/
theorem admitPeer_cases {loop : EventLoop} {peer : PeerId} {addr : Option String}
    {admitted : EventLoop}
    (h : loop.admitPeer peer addr = some admitted) :
    (addr = none ∧ admitted = { loop with inboundPeers := loop.inboundPeers.insert peer }) ∨
      ∃ text, addr = some text ∧
        (extractSubnet24 text = none ∧
            admitted = { loop with outboundPeers := loop.outboundPeers.insert peer } ∨
          ∃ subnet, extractSubnet24 text = some subnet ∧
            loop.subnetCounts.getD subnet 0 < maxPeersPerSubnet ∧
            admitted = { loop.recordSubnet peer subnet with
              outboundPeers := loop.outboundPeers.insert peer }) := by
  unfold admitPeer at h
  split at h
  · rename_i text
    refine Or.inr ⟨text, rfl, ?_⟩
    split at h
    · cases h
    split at h
    · rename_i hsubnet
      exact Or.inl ⟨hsubnet, (Option.some.inj h).symm⟩
    · rename_i subnet hsubnet
      split at h
      · cases h
      · rename_i hcount
        exact Or.inr ⟨subnet, hsubnet, Nat.lt_of_not_le hcount, (Option.some.inj h).symm⟩
  · split at h
    · cases h
    · exact Or.inl ⟨rfl, (Option.some.inj h).symm⟩

theorem admitPeer_of_takeUp {loop : EventLoop} {env : EventEnv} {peer : PeerId}
    {addr : Option String} {admitted : EventLoop}
    (h : loop.takeUp env peer addr = some admitted) : loop.admitPeer peer addr = some admitted := by
  unfold takeUp at h
  split at h
  · cases h
  split at h
  · cases h
  · exact h

/-- An answer that nobody waits for is ignored. The expected one verifies its peer, and any
other has it banned. -/
theorem handleChallengeResponse_cases (hashVal : UInt64) :
    (loop.pendingChallenges[source]? = none ∧
        loop.handleChallengeResponse env source hashVal = loop) ∨
      ∃ expectedHash since, loop.pendingChallenges[source]? = some (expectedHash, since) ∧
        (hashVal = expectedHash ∧ loop.handleChallengeResponse env source hashVal =
            { loop with
              pendingChallenges := loop.pendingChallenges.erase source
              verifiedPeers := loop.verifiedPeers.insert source } ∨
          hashVal ≠ expectedHash ∧ loop.handleChallengeResponse env source hashVal =
            ({ loop with pendingChallenges := loop.pendingChallenges.erase source }.banPeer env
              source "failed_memory_challenge" true).clearRecord source) := by
  unfold handleChallengeResponse
  cases hget : loop.pendingChallenges[source]? with
  | none => exact Or.inl ⟨rfl, rfl⟩
  | some expected =>
    refine Or.inr ⟨expected.1, expected.2, rfl, ?_⟩
    dsimp only
    split
    · exact Or.inl ⟨‹_›, rfl⟩
    · exact Or.inr ⟨‹_›, rfl⟩

end Cases

end EventLoop

/-- What an event does. Requests are answered from what is there. -/
def handleNetworkEvent (env : EventEnv) (loop : EventLoop) : OpolysNetworkEvent → EventLoop
  | .gossipTransaction data source => loop.handleGossipTransaction P env data source
  | .gossipBlock data source => loop.handleGossipBlock P env data source
  | .gossipAttestation data source => loop.handleGossipAttestation P data source
  | .peerConnected peer addr => loop.handlePeerConnected env peer addr
  | .peerIdentified peer protocolVersion agentVersion =>
    loop.handlePeerIdentified peer protocolVersion agentVersion
  | .peerDisconnected peer => loop.handlePeerDisconnected peer
  | .syncResponseReceived peer blocks => loop.handleSyncResponse P env peer blocks
  | .syncRequestReceived _ _ _ => loop
  | .challengeRequestReceived _ _ _ _ => loop
  | .challengeResponseReceived peer hashVal => loop.handleChallengeResponse env peer hashVal

/-! ## The loop -/

/-- Ban every peer that has not answered in time. -/
def challengeCheck (env : EventEnv) (loop : EventLoop) : EventLoop :=
  let expired := (loop.pendingChallenges.toList.filter fun entry =>
    challengeTimeoutSecs * 1000000000 ≤ env.instant - entry.2.2).map Prod.fst
  expired.foldl (fun loop peer =>
    { loop with pendingChallenges := loop.pendingChallenges.erase peer }.banPeer env peer
      "challenge_timeout" false) loop

/-- What the loop waits for. -/
inductive LoopInput where
  | event (event : OpolysNetworkEvent)
  /-- The timer of the challenges. -/
  | challengeCheck
  /-- The timer of the mempool. -/
  | mempoolEvict

/-- A round of the loop. -/
def EventLoop.round (loop : EventLoop) (input : EventEnv × LoopInput) : EventLoop :=
  match input.2 with
  | .event event => handleNetworkEvent P input.1 loop event
  | .challengeCheck => Opolys.challengeCheck input.1 loop
  | .mempoolEvict => { loop with node := { loop.node with
      mempool := loop.node.mempool.evictExpired input.1.nowSecs } }

end Opolys
