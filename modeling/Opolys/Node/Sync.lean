import Opolys.Node.Alike
import Opolys.Node.Durability
import Opolys.Node.Network
import Opolys.Node.Refining
import Opolys.Node.Retarget
import Mathlib.Algebra.Order.BigOperators.Group.List
import Mathlib.Tactic.Ring

/-!
# Catching up

A node that is behind asks a peer for the blocks from some height on. The peer puts its answer
together from the database, by number of blocks, and the answer is sent when its bytes are within
the limit. A request that is answered takes the node who asked as far as the answer reaches.
A request that is not answered is the same the next time.

* `EventLoop.handleSyncRequest` : the answer to a request.
* `respondSyncRequest` : what is sent of it.
* `sync_progress_iff` : the requests that are answered.
-/

namespace Opolys

open Codec (Borsh leBytes)
open Effect (check_eq_ok check_bind_eq_ok)
open MachineInt (saturatingAdd saturatingSub)

/-! ## Requests and answers -/

/-- Blocks that a request may ask for. -/
def maxSyncBlocks : UInt64 := 500

/-- Bytes of blocks that an answer may carry. -/
def maxSyncResponseBytes : ℕ := 10 * 1024 * 1024

/-- A request for blocks. -/
structure SyncRequest where
  startHeight : BlockHeight
  count : UInt64

/-- An answer, with the height of its first block. -/
structure SyncResponse where
  blocks : List (Payload Block)
  fromHeight : BlockHeight

namespace SyncResponse

/-- The bytes of the blocks of an answer. -/
def payloadSizeBytes (response : SyncResponse) : ℕ := (response.blocks.map Payload.length).sum

def isWithinSizeLimit (response : SyncResponse) : Bool :=
  response.payloadSizeBytes ≤ maxSyncResponseBytes

end SyncResponse

/-- The heights of a request that a node with this tip can answer: the first and how many. -/
def clampSyncRequestRange (startHeight count currentHeight : UInt64) : UInt64 × UInt64 :=
  let start := min startHeight currentHeight
  let available := saturatingAdd (saturatingSub currentHeight start) 1
  (start, min (min count maxSyncBlocks) available)

/-- The heights from one on. -/
def heightsFrom (fromHeight count : UInt64) : List UInt64 :=
  (List.range' fromHeight.toNat
    ((saturatingAdd fromHeight count).toNat - fromHeight.toNat)).map UInt64.ofNat

/-- The stored blocks of some heights, up to the first that is missing. -/
def BlockchainStore.loadBlocks (store : BlockchainStore) : List UInt64 → List Block
  | [] => []
  | height :: heights =>
    match store.loadBlock height with
    | some block => block :: store.loadBlocks heights
    | none => []

/-- Answer a request. A peer that is not verified gets no blocks. -/
def EventLoop.handleSyncRequest (loop : EventLoop) (peer : PeerId) (request : SyncRequest) :
    SyncResponse :=
  let currentHeight := loop.node.chain.currentHeight
  if peer ∉ loop.verifiedPeers then { blocks := [], fromHeight := currentHeight }
  else
    let (fromHeight, count) :=
      clampSyncRequestRange request.startHeight request.count currentHeight
    let blocks :=
      match loop.node.store with
      | some store => (store.loadBlocks (heightsFrom fromHeight count)).map Payload.encoded
      | none => []
    { blocks, fromHeight }

/-- What is sent of an answer. -/
def respondSyncRequest (response : SyncResponse) : Option SyncResponse :=
  if response.isWithinSizeLimit then some response else none

variable {P : Primitives}

/-! ## What an accepted block takes up -/

theorem fits_of_blockSize_le {block : Block} (h : blockSize block ≤ maxBlockSizeBytes) :
    Borsh.fits block = true ∧ (Borsh.encode block).length = blockSize block := by
  unfold blockSize at h ⊢
  cases hencoded : Borsh.toVec block with
  | none =>
    rw [hencoded] at h
    unfold maxBlockSizeBytes at h
    dsimp only at h
    omega
  | some bytes =>
    obtain ⟨hfits, rfl⟩ := Borsh.toVec_eq_some.mp hencoded
    exact ⟨hfits, rfl⟩

theorem checkBlock_size {env : Env} {block : Block} {node : OpolysNode}
    {kind : BlockProductionKind} (h : checkBlock P env block node = .ok kind) :
    blockSize block ≤ maxBlockSizeBytes :=
  (validateBlock_eq_ok.mp (checkBlock_validated h).1).2.1.1.size

/-- The time at which a block comes matters for its timestamp only. -/
theorem checkBlock_later {env env' : Env} {block : Block} {node : OpolysNode}
    {kind : BlockProductionKind} (h : checkBlock P env block node = .ok kind)
    (hclock : block.header.timestamp ≤ saturatingAdd env'.nowSecs maxFutureBlockTimeSecs) :
    checkBlock P env' block node = .ok kind := by
  obtain ⟨hvalid, hkind, hroot⟩ := checkBlock_validated h
  obtain ⟨hheader, hrest⟩ := validateBlock_eq_ok.mp hvalid
  obtain ⟨hversion, hheight, hprevious, hcompressed, -, hdifficulty⟩ := checkHeader_eq_ok.mp hheader
  have hvalid' := validateBlock_eq_ok.mpr ⟨checkHeader_eq_ok.mpr
    ⟨hversion, hheight, hprevious, hcompressed, hclock, hdifficulty⟩, hrest⟩
  unfold checkBlock
  dsimp only
  rw [hvalid', hkind]
  exact check_bind_eq_ok.mpr ⟨hroot, rfl⟩

/-! ## The node who answers -/

/-- A node that has a chain in its database, and nothing above it. -/
structure Stored (blocks : List Block) (node : OpolysNode) (store : BlockchainStore) : Prop where
  store_eq : node.store = some store
  height : node.chain.currentHeight.toNat = blocks.length
  last : store.latestBlockHeight.getD 0 = node.chain.currentHeight
  load : ∀ (i : ℕ) (block : Block), blocks[i]? = some block →
    store.loadBlock (UInt64.ofNat (i + 1)) = some block

theorem stored_new {config : GenesisConfig} {keyFile : Option (List UInt8)} {node : OpolysNode}
    (h : OpolysNode.new P config keyFile BlockchainStore.empty = .ok node) :
    Stored [] node BlockchainStore.empty := by
  obtain ⟨accounts, hgenesis, -, -, hstore, -, -⟩ := OpolysNode.new_fresh h
  obtain ⟨-, hheight, -⟩ := OpolysNode.genesisState_chain hgenesis
  refine ⟨hstore, ?_, ?_, ?_⟩
  · rw [hheight]
    rfl
  · rw [hheight]
    rfl
  · intro i block hget
    cases hget

/-- A call whose block is accepted and is then the last one in the database. -/
def OpolysNode.takesUp (P : Primitives) (node : OpolysNode) (call : Call) : Prop :=
  node.accepts P call = true ∧ (node.step P call).tipIsStored = true

instance (node : OpolysNode) (call : Call) : Decidable (node.takesUp P call) :=
  inferInstanceAs (Decidable (_ ∧ _))

/-- It writes its block. -/
theorem Stored.step {blocks : List Block} {node : OpolysNode} {store : BlockchainStore}
    (h : Stored blocks node store) {call : Call} (hcall : node.takesUp P call)
    (hwrap : blocks.length + 1 < 2 ^ 64) :
    call.env.writeOk = true ∧
      ∃ store', Stored (blocks ++ [call.block]) (node.step P call) store' := by
  obtain ⟨haccepts, htip⟩ := hcall
  obtain ⟨st, hst⟩ := OpolysNode.accepted_of_accepts haccepts
  have hone : (1 : UInt64).toNat = 1 := rfl
  have hheight : call.block.header.height.toNat = blocks.length + 1 := by
    rw [(checkBlock_header hst.check).1, MachineInt.toNat_add_of_lt (by rw [h.height]; omega),
      h.height, hone]
  have hmoved : (node.step P call).chain.currentHeight = call.block.header.height := by
    rw [hst.chain_eq]
  rcases hst.store_cases h.store_eq with hkept | ⟨hwrite, store', hstore', hsaved⟩
  · unfold OpolysNode.tipIsStored at htip
    rw [hkept] at htip
    have hsame := of_decide_eq_true htip
    rw [h.last, hmoved, ← UInt64.toNat_inj, h.height] at hsame
    omega
  · refine ⟨hwrite, store', hstore', ?_, ?_, ?_⟩
    · rw [hmoved, hheight, List.length_append, List.length_singleton]
    · rw [hsaved.latestBlockHeight_eq, hmoved, Option.getD_some]
    · intro i block hget
      unfold BlockchainStore.loadBlock
      rw [hsaved.blocks_eq, FiniteMap.getElem?_insert']
      by_cases hi : i < blocks.length
      · have hkey : call.block.header.height ≠ UInt64.ofNat (i + 1) := by
          intro heq
          rw [heq, MachineInt.toNat_ofNat_of_lt (by omega)] at hheight
          omega
        rw [List.getElem?_append_left hi] at hget
        rw [if_neg hkey]
        exact h.load i block hget
      · have hlt := (List.getElem?_eq_some_iff.mp hget).1
        rw [List.length_append, List.length_singleton] at hlt
        obtain rfl : i = blocks.length := by omega
        have hkey : call.block.header.height = UInt64.ofNat (blocks.length + 1) := by
          rw [← UInt64.toNat_inj, hheight, MachineInt.toNat_ofNat_of_lt hwrap]
        rw [if_pos hkey]
        simpa using hget

/-- A run of such calls writes all its blocks. -/
theorem Stored.run {blocks : List Block} {node : OpolysNode} {store : BlockchainStore}
    (h : Stored blocks node store) {calls : List Call}
    (hcalls : Transition.EveryStep (OpolysNode.step P) (OpolysNode.takesUp P) node calls)
    (hwrap : blocks.length + calls.length < 2 ^ 64) :
    (∀ call ∈ calls, call.env.writeOk = true) ∧
      ∃ store', Stored (blocks ++ calls.map Call.block)
        (Transition.run (OpolysNode.step P) node calls) store' := by
  induction calls generalizing blocks node store with
  | nil => exact ⟨nofun, store, by simpa using h⟩
  | cons call calls ih =>
    rw [List.length_cons] at hwrap
    obtain ⟨hwrite, store', hstep⟩ := h.step hcalls.1 (by omega)
    obtain ⟨hwrites, store'', hrun⟩ := ih hstep hcalls.2 (by simp; omega)
    refine ⟨?_, store'', by simpa using hrun⟩
    rw [List.forall_mem_cons]
    exact ⟨hwrite, hwrites⟩

/-- The blocks that a chain has from a height on. -/
def blocksFrom (blocks : List Block) (startHeight count : ℕ) : List Block :=
  (blocks.drop (startHeight - 1)).take count

theorem Stored.loadBlocks {blocks : List Block} {node : OpolysNode} {store : BlockchainStore}
    (h : Stored blocks node store) {start count : ℕ} (hpos : 1 ≤ start)
    (hle : start + count ≤ blocks.length + 1) :
    store.loadBlocks ((List.range' start count).map UInt64.ofNat) =
      blocksFrom blocks start count := by
  induction count generalizing start with
  | zero =>
    unfold blocksFrom
    rw [List.take_zero]
    rfl
  | succ count ih =>
    have hlt : start - 1 < blocks.length := by omega
    have hload := h.load (start - 1) blocks[start - 1] (List.getElem?_eq_getElem hlt)
    rw [Nat.sub_add_cancel hpos] at hload
    rw [List.range'_succ, List.map_cons]
    unfold BlockchainStore.loadBlocks
    rw [hload]
    dsimp only
    rw [ih (by omega) (by omega)]
    unfold blocksFrom
    rw [List.drop_eq_getElem_cons hlt, List.take_succ_cons, Nat.add_sub_cancel,
      Nat.sub_add_cancel hpos]

/-- How many blocks a node with a chain of this length answers a request with. -/
def answeredCount (length : ℕ) (request : SyncRequest) : ℕ :=
  min (min request.count.toNat 500) (length - request.startHeight.toNat + 1)

/-- The answer has the blocks from the height that is asked for on. -/
theorem Stored.handleSyncRequest {blocks : List Block} {node : OpolysNode}
    {store : BlockchainStore} (h : Stored blocks node store) {loop : EventLoop}
    (hstore : loop.node.store = node.store)
    (hheight : loop.node.chain.currentHeight = node.chain.currentHeight) {peer : PeerId}
    (hpeer : peer ∈ loop.verifiedPeers) {request : SyncRequest}
    (hstart : 1 ≤ request.startHeight.toNat) (hle : request.startHeight.toNat ≤ blocks.length)
    (hwrap : blocks.length + 1 < 2 ^ 64) :
    loop.handleSyncRequest peer request =
      { blocks := (blocksFrom blocks request.startHeight.toNat
          (answeredCount blocks.length request)).map Payload.encoded
        fromHeight := request.startHeight } := by
  have hmin : min request.startHeight node.chain.currentHeight = request.startHeight := by
    rw [← UInt64.toNat_inj, MachineInt.toNat_min, h.height]
    omega
  have hone : (1 : UInt64).toNat = 1 := rfl
  have hblocks : maxSyncBlocks.toNat = 500 := rfl
  have hcount : (min (min request.count maxSyncBlocks)
      (saturatingAdd (saturatingSub node.chain.currentHeight request.startHeight) 1)).toNat =
        answeredCount blocks.length request := by
    unfold answeredCount
    rw [MachineInt.toNat_min, MachineInt.toNat_min, MachineInt.toNat_saturatingAdd,
      MachineInt.toNat_saturatingSub, h.height, hone, hblocks]
    omega
  have hanswered : request.startHeight.toNat + answeredCount blocks.length request ≤
      blocks.length + 1 := by
    unfold answeredCount
    omega
  unfold EventLoop.handleSyncRequest clampSyncRequestRange heightsFrom
  dsimp only
  rw [if_neg (not_not_intro hpeer), hheight, hstore, h.store_eq, hmin]
  dsimp only
  rw [MachineInt.toNat_saturatingAdd_of_lt (by rw [hcount]; omega), hcount,
    Nat.add_sub_cancel_left, h.loadBlocks hstart hanswered]

/-! ## The node who asks -/

/-- The clock and the database of the node who asks are in order for the blocks of some calls: no
block is too far in its future, and its writes go through. -/
def ReceivesInTime (envs : ℕ → Env) (calls : List Call) : Prop :=
  ∀ (i : ℕ) (call : Call), calls[i]? = some call →
    call.block.header.timestamp ≤ saturatingAdd (envs i).nowSecs maxFutureBlockTimeSecs ∧
      (envs i).writeOk = true

/-- A block that one node has accepted and stored takes another one on the same ledger as far,
whenever it comes. -/
theorem accepted_elsewhere {a b : OpolysNode} (h : OpolysNode.Alike True a b) {call : Call}
    (haccepts : a.accepts P call = true) (hwrite : call.env.writeOk = true) {env : Env}
    (hclock : call.block.header.timestamp ≤ saturatingAdd env.nowSecs maxFutureBlockTimeSecs)
    (hwrite' : env.writeOk = true) :
    ∃ hash node', applyBlock P env call.block b = .ok hash node' ∧
      OpolysNode.Alike True (a.step P call) node' := by
  obtain ⟨st, hst⟩ := OpolysNode.accepted_of_accepts haccepts
  have hcheck : checkBlock P env call.block a = checkBlock P call.env call.block a :=
    (checkBlock_later hst.check hclock).trans hst.check.symm
  have hlock := applyBlock_alike (P := P) h call.block hcheck (hwrite'.trans hwrite.symm)
  have hcalls : Effect.Lockstep (OpolysNode.Alike True)
      (applyBlock P (Call.mk call.env call.block).env (Call.mk call.env call.block).block)
      (applyBlock P (Call.mk env call.block).env (Call.mk env call.block).block) a b := hlock
  obtain ⟨houtcome, halike⟩ := OpolysNode.step_of_lockstep hcalls
  have haccepts' : b.accepts P (Call.mk env call.block) = true := by
    unfold OpolysNode.accepts at haccepts ⊢
    rw [← houtcome]
    exact haccepts
  obtain ⟨hash, hrun⟩ := OpolysNode.applyBlock_of_accepts haccepts'
  exact ⟨hash, _, hrun, halike⟩

/-- The blocks that one node has taken up take another one on the same ledger as far. -/
theorem applySyncBlocks_alike {a b : OpolysNode} (h : OpolysNode.Alike True a b)
    {calls : List Call}
    (hcalls : Transition.EveryStep (OpolysNode.step P)
      (fun node call => node.accepts P call = true) a calls)
    (hwrites : ∀ call ∈ calls, call.env.writeOk = true) {envs : ℕ → Env} {n : ℕ}
    (henvs : ReceivesInTime (fun i => envs (n + i)) calls) :
    OpolysNode.Alike True (Transition.run (OpolysNode.step P) a calls)
      (applySyncBlocks P envs n (calls.map fun call => .encoded call.block) b) := by
  induction calls generalizing a b n with
  | nil => exact h
  | cons call calls ih =>
    rw [List.forall_mem_cons] at hwrites
    obtain ⟨st, hst⟩ := OpolysNode.accepted_of_accepts hcalls.1
    obtain ⟨hclock, hwrite⟩ := henvs 0 call rfl
    dsimp only at hclock hwrite
    rw [Nat.add_zero] at hclock hwrite
    obtain ⟨hash, node', hrun, halike⟩ :=
      accepted_elsewhere h hcalls.1 hwrites.1 hclock hwrite
    have hsize : ¬(Payload.encoded call.block).length > maxBlockSizeBytes := by
      change ¬(Borsh.encode call.block).length > maxBlockSizeBytes
      have hle := checkBlock_size hst.check
      rw [(fits_of_blockSize_le hle).2]
      omega
    have hheight : ¬call.block.header.height ≠ b.chain.currentHeight + 1 := by
      rw [h.currentHeight_eq]
      exact not_not_intro (checkBlock_header hst.check).1
    rw [List.map_cons, Transition.run_cons]
    unfold applySyncBlocks
    rw [if_neg hsize]
    dsimp only
    rw [if_neg hheight, hrun]
    dsimp only
    refine ih halike hcalls.2 hwrites.2 ?_
    intro i other hget
    have hnext := henvs (i + 1) other hget
    dsimp only at hnext ⊢
    rwa [← Nat.add_assoc, Nat.add_right_comm] at hnext

/-! ## Progress -/

theorem payloadSizeBytes_of_accepted {blocks : List Block} {fromHeight : BlockHeight}
    (h : ∀ block ∈ blocks, blockSize block ≤ maxBlockSizeBytes) :
    SyncResponse.payloadSizeBytes { blocks := blocks.map Payload.encoded, fromHeight } =
      (blocks.map blockSize).sum := by
  unfold SyncResponse.payloadSizeBytes
  rw [List.map_map]
  refine congrArg List.sum (List.map_congr_left ?_)
  intro block hmem
  exact (fits_of_blockSize_le (h block hmem)).2

theorem blockSize_le_of_accepted {node : OpolysNode} {calls : List Call}
    (hcalls : Transition.EveryStep (OpolysNode.step P)
      (fun node call => node.accepts P call = true) node calls) :
    ∀ block ∈ calls.map Call.block, blockSize block ≤ maxBlockSizeBytes := by
  induction calls generalizing node with
  | nil => nofun
  | cons call calls ih =>
    obtain ⟨st, hst⟩ := OpolysNode.accepted_of_accepts hcalls.1
    rw [List.map_cons, List.forall_mem_cons]
    exact ⟨checkBlock_size hst.check, ih hcalls.2⟩

/-- What a request comes to: the answer that is sent, if any, takes the node who asks to the
height of its last block, on the ledger that the node who answers had there. -/
def Progresses (P : Primitives) (ahead : OpolysNode) (calls : List Call) (response : SyncResponse)
    (receiver : EventLoop) (sender : PeerId) (env : EventEnv) (startHeight count : ℕ) : Prop :=
  ∃ sent, respondSyncRequest response = some sent ∧
    let receiver' := receiver.handleSyncResponse P env sender sent.blocks
    receiver'.node.chain.currentHeight.toNat = startHeight - 1 + count ∧
      OpolysNode.Alike True
        (Transition.run (OpolysNode.step P) ahead (calls.take (startHeight - 1 + count)))
        receiver'.node

/-- The first calls of a run, and some of those that follow. -/
theorem everyStep_window {C : OpolysNode → Call → Prop} {node : OpolysNode} {calls : List Call}
    (h : Transition.EveryStep (OpolysNode.step P) C node calls) (start count : ℕ) :
    Transition.EveryStep (OpolysNode.step P) C node (calls.take (start + count)) ∧
      Transition.EveryStep (OpolysNode.step P) C
        (Transition.run (OpolysNode.step P) node (calls.take start))
        ((calls.drop start).take count) := by
  have hfirst : Transition.EveryStep (OpolysNode.step P) C node (calls.take (start + count)) := by
    rw [← List.take_append_drop (start + count) calls, Transition.everyStep_append] at h
    exact h.1
  refine ⟨hfirst, ?_⟩
  rw [List.take_add, Transition.everyStep_append] at hfirst
  exact hfirst.2

/-- The blocks of an answer are applied one after the other. -/
theorem node_handleSyncResponse {receiver : EventLoop} {sender : PeerId}
    (hsender : sender ∈ receiver.verifiedPeers) (env : EventEnv) (calls : List Call) :
    (receiver.handleSyncResponse P env sender ((calls.map Call.block).map Payload.encoded)).node =
      applySyncBlocks P env.calls 0 (calls.map fun call => .encoded call.block) receiver.node := by
  unfold EventLoop.handleSyncResponse
  rw [if_neg (not_not_intro hsender), List.map_map]
  rfl

/-- An answer is sent when it is within the limit. -/
theorem respondSyncRequest_eq_some {response sent : SyncResponse} :
    respondSyncRequest response = some sent ↔
      response.payloadSizeBytes ≤ maxSyncResponseBytes ∧ response = sent := by
  unfold respondSyncRequest SyncResponse.isWithinSizeLimit
  simp

/-- A node who is at a height takes up the blocks that follow there, and is then where the node who
has sent them was after the last one. -/
theorem alike_handleSyncResponse {ahead : OpolysNode} {calls : List Call}
    (hcalls : Transition.EveryStep (OpolysNode.step P)
      (fun node call => node.accepts P call = true) ahead calls)
    (hwrites : ∀ call ∈ calls, call.env.writeOk = true) {receiver : EventLoop} {sender : PeerId}
    (hsender : sender ∈ receiver.verifiedPeers) {env : EventEnv} {start count : ℕ}
    (hbehind : OpolysNode.Alike True
      (Transition.run (OpolysNode.step P) ahead (calls.take start)) receiver.node)
    (hinTime : ReceivesInTime env.calls ((calls.drop start).take count)) :
    OpolysNode.Alike True
      (Transition.run (OpolysNode.step P) ahead (calls.take (start + count)))
      (receiver.handleSyncResponse P env sender
        ((((calls.drop start).take count).map Call.block).map Payload.encoded)).node := by
  have henvs : ReceivesInTime (fun i => env.calls (0 + i)) ((calls.drop start).take count) := by
    intro i call hget
    dsimp only
    rw [Nat.zero_add]
    exact hinTime i call hget
  have hwritesWindow : ∀ call ∈ (calls.drop start).take count, call.env.writeOk = true :=
    fun call hmem => hwrites call (List.mem_of_mem_drop (List.mem_of_mem_take hmem))
  rw [node_handleSyncResponse hsender, List.take_add, Transition.run_append]
  exact applySyncBlocks_alike hbehind (everyStep_window hcalls start count).2 hwritesWindow henvs

/-- In every chain that a node has taken up and stored, whatever it is asked for has the block of
the height asked for and those after it. It is sent, and takes a node who is there to the last of
them, exactly when these blocks together are within the limit. -/
theorem sync_progress_iff {config : GenesisConfig} {keyFile : Option (List UInt8)}
    {ahead : OpolysNode}
    (hnew : OpolysNode.new P config keyFile BlockchainStore.empty = .ok ahead)
    {calls : List Call}
    (hcalls : Transition.EveryStep (OpolysNode.step P) (OpolysNode.takesUp P) ahead calls)
    (hwrap : calls.length + 1 < 2 ^ 64) {loop : EventLoop}
    (hstore : loop.node.store = (Transition.run (OpolysNode.step P) ahead calls).store)
    (hheight : loop.node.chain.currentHeight =
      (Transition.run (OpolysNode.step P) ahead calls).chain.currentHeight)
    {peer : PeerId} (hpeer : peer ∈ loop.verifiedPeers) {request : SyncRequest}
    (hstart : 1 ≤ request.startHeight) (hle : request.startHeight ≤ loop.node.chain.currentHeight)
    (hcount : 1 ≤ request.count) {receiver : EventLoop} {sender : PeerId}
    (hsender : sender ∈ receiver.verifiedPeers) {env : EventEnv}
    (hbehind : OpolysNode.Alike True (Transition.run (OpolysNode.step P) ahead
      (calls.take (request.startHeight.toNat - 1))) receiver.node)
    (hinTime : ReceivesInTime env.calls ((calls.drop (request.startHeight.toNat - 1)).take
      (answeredCount calls.length request))) :
    let response := loop.handleSyncRequest peer request
    let count := answeredCount calls.length request
    let answered := blocksFrom (calls.map Call.block) request.startHeight.toNat count
    (answered.length = count ∧ 1 ≤ count ∧ response.fromHeight = request.startHeight ∧
        response.blocks = answered.map Payload.encoded) ∧
      (Progresses P ahead calls response receiver sender env request.startHeight.toNat count ↔
        (answered.map blockSize).sum ≤ maxSyncResponseBytes) := by
  intro response count answered
  obtain ⟨hwrites, store, hstored⟩ := (stored_new hnew).run hcalls (by simp; omega)
  rw [List.nil_append] at hstored
  have haccepted : Transition.EveryStep (OpolysNode.step P)
      (fun node call => node.accepts P call = true) ahead calls := hcalls.mono fun _ _ h => h.1
  have hlength : (calls.map Call.block).length = calls.length := List.length_map ..
  have hlength' := hstored.height
  rw [hlength] at hlength'
  have hone : (1 : UInt64).toNat = 1 := rfl
  rw [UInt64.le_iff_toNat_le, hone] at hstart hcount
  rw [UInt64.le_iff_toNat_le, hheight, hlength'] at hle
  have hcountPos : 1 ≤ count := by
    simp only [count, answeredCount]
    omega
  have hcountLe : request.startHeight.toNat - 1 + count ≤ calls.length := by
    simp only [count, answeredCount]
    omega
  have hresponse : response =
      { blocks := answered.map Payload.encoded, fromHeight := request.startHeight } := by
    have hanswer := hstored.handleSyncRequest hstore hheight hpeer hstart
      (by rw [hlength]; exact hle) (by rw [hlength]; exact hwrap)
    rw [hlength] at hanswer
    exact hanswer
  have hanswered : answered = ((calls.drop (request.startHeight.toNat - 1)).take count).map
      Call.block := by
    simp only [answered, blocksFrom, List.map_take, List.map_drop]
  have hsize : response.payloadSizeBytes = (answered.map blockSize).sum := by
    rw [hresponse]
    refine payloadSizeBytes_of_accepted fun block hmem => ?_
    refine blockSize_le_of_accepted haccepted block ?_
    rw [hanswered] at hmem
    exact List.map_subset _ (fun _ h => List.mem_of_mem_drop (List.mem_of_mem_take h)) hmem
  refine ⟨⟨?_, hcountPos, by rw [hresponse], by rw [hresponse]⟩, ?_⟩
  · rw [hanswered, List.length_map, List.length_take, List.length_drop]
    omega
  rw [← hsize]
  unfold Progresses
  constructor
  · rintro ⟨sent, hsent, -⟩
    exact (respondSyncRequest_eq_some.mp hsent).1
  · intro hwithin
    refine ⟨response, respondSyncRequest_eq_some.mpr ⟨hwithin, rfl⟩, ?_⟩
    have halike := alike_handleSyncResponse haccepted hwrites hsender hbehind hinTime
    rw [hresponse, hanswered]
    refine ⟨?_, halike⟩
    obtain ⟨-, store', hreached⟩ := (stored_new hnew).run
      (everyStep_window hcalls (request.startHeight.toNat - 1) count).1 (by simp; omega)
    rw [halike.currentHeight_eq, hreached.height]
    simp only [List.nil_append, List.length_map, List.length_take]
    omega

namespace Reference

/-- A loop on a node, with one peer that is verified. -/
def paired (node : OpolysNode) (peer : PeerId) : EventLoop :=
  { EventLoop.new node ∅ with verifiedPeers := {peer} }

theorem mem_paired (node : OpolysNode) (peer : PeerId) :
    peer ∈ (paired node peer).verifiedPeers := by
  simp [paired]

/-- A chain of two blocks. -/
def pairOfBlocks : List Call :=
  mineAll (start (config [(1, 1000000000)]) (some 1)) [(0, {}), (0, {})]

end Reference

open Reference in
/-- A node at genesis asks for ten blocks of a chain that has two, and gets them. -/
theorem sync_progress_of_reference :
    let ahead := start (config [(1, 1000000000)]) (some 1)
    let loop := paired (Transition.run (OpolysNode.step primitives) ahead pairOfBlocks) "b"
    let env : EventEnv :=
      { nowSecs := 0, instant := 0, challengeHash := 0, order := IterOrder.byId
        calls := fun _ => { nowSecs := 1000, writeOk := true } }
    Progresses primitives ahead pairOfBlocks
      (loop.handleSyncRequest "b" { startHeight := 1, count := 10 }) (paired ahead "a") "a" env 1
      2 := by
  intro ahead loop env
  have hnew := new_start (config [(1, 1000000000)]) (some 1) (by decide +kernel)
  have hcalls : Transition.EveryStep (OpolysNode.step primitives)
      (OpolysNode.takesUp primitives) ahead pairOfBlocks := by decide +kernel
  have hlength : pairOfBlocks.length = 2 := rfl
  have hheight : loop.node.chain.currentHeight = 2 := by decide +kernel
  have hstamps : ∀ call ∈ pairOfBlocks, call.block.header.timestamp ≤ 1300 := by decide +kernel
  have hinTime : ReceivesInTime env.calls pairOfBlocks := by
    intro i call hget
    exact ⟨hstamps call (List.mem_of_getElem? hget), rfl⟩
  have hstore : loop.node.store =
      (Transition.run (OpolysNode.step primitives) ahead pairOfBlocks).store := rfl
  have hstart : 1 ≤ (SyncRequest.mk 1 10).startHeight := by decide
  have hle : (SyncRequest.mk 1 10).startHeight ≤ loop.node.chain.currentHeight := by
    rw [hheight]
    decide
  have hbehind : OpolysNode.Alike True (Transition.run (OpolysNode.step primitives) ahead
      (pairOfBlocks.take ((SyncRequest.mk 1 10).startHeight.toNat - 1))) (paired ahead "a").node :=
    OpolysNode.Alike.refl ahead
  have hprogress := (sync_progress_iff hnew hcalls (by rw [hlength]; omega) hstore rfl
    (mem_paired _ "b") hstart hle (by decide) (mem_paired ahead "a") hbehind hinTime).2
  exact hprogress.mpr (by decide +kernel)

namespace Reference

/-! ### A chain that cannot be asked for -/

/-- A transaction of another chain, with a public key of any length. -/
def filler (length : ℕ) : Transaction where
  txId := ObjectId.zero
  sender := ObjectId.zero
  action := .transfer ObjectId.zero 0
  fee := minFee
  signature := []
  signatureType := 0
  nonce := 0
  chainId := 0
  data := []
  publicKey := List.replicate length 0

theorem length_encode_filler (length : ℕ) :
    (Borsh.encode [filler length]).length = 146 + length := by
  have hlist : Borsh.encode [filler length] =
      leBytes 4 1 ++ (Borsh.encode (filler length) ++ []) := rfl
  have haction : (Borsh.encode (filler length).action).length = 41 := rfl
  rw [hlist, List.append_nil, List.length_append, Codec.length_leBytes, length_encode_transaction,
    haction]
  simp only [filler, List.length_nil, List.length_replicate]
  omega

theorem foreign_filler (length : ℕ) : ∀ tx ∈ [filler length], tx.chainId ≠ mainnetChainId := by
  intro tx hmem
  obtain rfl := List.mem_singleton.mp hmem
  have hforeign : (0 : UInt64) ≠ mainnetChainId := by decide
  exact hforeign

theorem small_filler {length : ℕ} (h : length ≤ 999000) : Small [filler length] := by
  refine ⟨?_, ?_, ?_, List.nodup_singleton _, ?_, ?_⟩
  · refine Borsh.fits_list.mpr ⟨by simp, fun tx hmem => ?_⟩
    obtain rfl := List.mem_singleton.mp hmem
    refine fits_transaction (by simp [filler]) (by simp [filler]) ?_
    simp only [filler, List.length_replicate]
    omega
  · rw [length_encode_filler]
    omega
  · simp
  · intro tx hmem
    obtain rfl := List.mem_singleton.mp hmem
    simp [filler]
  · intro tx hmem
    obtain rfl := List.mem_singleton.mp hmem
    exact UInt64.le_refl _

/-- A miner whose chain holds nothing but transactions that failed. -/
structure Filling (node : OpolysNode) : Prop extends Idling 45 960 node, node.Quiet where
  accounts : node.accounts = miner.accounts
  refiners : node.refiners = RefinerSet.new

theorem filling_miner : Filling miner :=
  { idling_miner, OpolysNode.Quiet.new new_miner with
    accounts := rfl
    refiners := refiners_miner }

theorem length_encode_transactions_le (block : Block) :
    (Borsh.encode block.transactions).length ≤ (Borsh.encode block).length := by
  change _ ≤ (Borsh.encode (block.header, block.transactions, block.slashEvidence,
    block.attestations, block.genesisCeremony)).length
  simp only [length_encode_pair]
  omega

/-- What such a miner has taken up can be written. -/
theorem Filling.writable {node : OpolysNode} (h : Filling node) {block : Block}
    (hfits : Borsh.fits block = true) : BlockchainStore.Writable block node := by
  refine ⟨hfits, fits_toPersisted ?_ ?_ ?_, ?_, ?_, ?_, ?_⟩
  · rw [h.signatures]
    decide
  · intro key hash sig hnoted
    rw [h.signatures] at hnoted
    cases hnoted
  · exact h.attesters
  · rw [h.accounts]
    decide +kernel
  · rw [h.refiners]
    rfl
  · rw [h.refiners]
    rfl
  · rw [h.refiners]
    rfl

/-- The database is at the height of an accepted block when that can be written. -/
theorem tipIsStored_of_accepted {P : Primitives} {env : Env} {block : Block}
    {node node' : OpolysNode} {st : Stages} (hst : Accepted P env block node node' st)
    (hstore : ∃ store, node.store = some store) (hwrite : env.writeOk = true)
    (hwritable : BlockchainStore.Writable block node') : node'.tipIsStored = true := by
  obtain ⟨store, hstore⟩ := hstore
  obtain ⟨store', hstore', hsaved⟩ := hst.saved hstore hwrite hwritable
  unfold OpolysNode.tipIsStored
  rw [hstore']
  dsimp only
  rw [hsaved.latestBlockHeight_eq, Option.getD_some, hst.chain_eq]
  exact decide_eq_true rfl

variable {transactions : List Transaction} {node : OpolysNode}

/-- Its next block of such transactions is accepted and stored. -/
theorem Filling.tick (h : Filling node) (hsmall : Small transactions)
    (hforeign : ∀ tx ∈ transactions, tx.chainId ≠ mainnetChainId)
    (hlt : node.chain.currentHeight.toNat < 960) :
    node.takesUp primitives (tick 45 transactions node) ∧
      (tick 45 transactions node).block.transactions = transactions ∧
      Filling (node.step primitives (tick 45 transactions node)) ∧
      (node.step primitives (tick 45 transactions node)).chain.currentHeight.toNat =
        node.chain.currentHeight.toNat + 1 := by
  obtain ⟨hall, hidling, hheight, -, -, -, haccounts, hrefiners⟩ :=
    barren_run 1 h.toIdling hsmall hforeign ⟨by omega, by omega⟩ (by omega) (by omega)
      (Or.inl le_rfl)
  have haccepts : node.accepts primitives (Reference.tick 45 transactions node) = true := hall.1
  change Idling 45 960 (node.step primitives (Reference.tick 45 transactions node)) at hidling
  change (node.step primitives (Reference.tick 45 transactions node)).chain.currentHeight.toNat = _
    at hheight
  change (node.step primitives (Reference.tick 45 transactions node)).accounts = _ at haccounts
  change (node.step primitives (Reference.tick 45 transactions node)).refiners = _ at hrefiners
  have hunpaid : Unpaid node := by
    have hexpected : node.expectedDifficulty = node.chain.currentDifficulty :=
      expectedDifficulty_held h.toReady (by omega) (by omega) (by have := h.unpaid; omega)
        h.solvable h.floor
    refine ⟨?_, ?_⟩
    · rw [hexpected]
      exact h.unpaid
    · rw [hexpected]
      exact h.solvable
  have hplain := plain_tick 45 transactions node
  have hwrite : (Reference.tick 45 transactions node).env.writeOk = true := rfl
  have htransactions :=
    (accepted_tick h.toReady hunpaid hsmall ⟨by omega, by omega⟩ (by omega)).1.transactions
  dsimp only at htransactions
  generalize Reference.tick 45 transactions node = call at *
  have hquiet := h.toQuiet.step hplain haccepts
  have hfilling : Filling (node.step primitives call) :=
    { hidling, hquiet with
      accounts := haccounts.trans h.accounts
      refiners := hrefiners.trans h.refiners }
  refine ⟨⟨haccepts, ?_⟩, htransactions, hfilling, hheight⟩
  obtain ⟨st, hst⟩ := OpolysNode.accepted_of_accepts haccepts
  have hfits := (fits_of_blockSize_le (checkBlock_size hst.check)).1
  exact tipIsStored_of_accepted hst h.store hwrite (hfilling.writable hfits)

/-- And so is every chain of them in the first epoch. -/
theorem Filling.run (h : Filling node) (hsmall : Small transactions)
    (hforeign : ∀ tx ∈ transactions, tx.chainId ≠ mainnetChainId) {n : ℕ}
    (hle : node.chain.currentHeight.toNat + n ≤ 960) :
    Transition.EveryStep (OpolysNode.step primitives) (OpolysNode.takesUp primitives) node
        (tickAll 45 transactions n node) ∧
      (tickAll 45 transactions n node).length = n ∧
      ∀ call ∈ tickAll 45 transactions n node, call.block.transactions = transactions := by
  induction n generalizing node with
  | zero => exact ⟨trivial, rfl, nofun⟩
  | succ n ih =>
    obtain ⟨htakes, htransactions, hnext, hheight⟩ := h.tick hsmall hforeign (by omega)
    obtain ⟨hall, hlength, hsame⟩ := ih hnext (by omega)
    refine ⟨⟨htakes, hall⟩, ?_, ?_⟩
    · unfold tickAll
      rw [List.length_cons, hlength]
    · unfold tickAll
      rw [List.forall_mem_cons]
      exact ⟨htransactions, hsame⟩

end Reference

open Reference in
/-- Eleven blocks of almost a million bytes are accepted and stored. A request for the whole chain
is answered with nothing. -/
theorem whole_chain_unanswered :
    let calls := tickAll 45 [filler 999000] 11 miner
    let loop := paired (Transition.run (OpolysNode.step primitives) miner calls) "b"
    OpolysNode.new primitives unpaidConfig (some (seed 1).bytes) BlockchainStore.empty = .ok miner ∧
      Transition.EveryStep (OpolysNode.step primitives) (OpolysNode.takesUp primitives) miner
        calls ∧
      1 ≤ loop.node.chain.currentHeight ∧
      respondSyncRequest
        (loop.handleSyncRequest "b" { startHeight := 1, count := 500 }) = none := by
  have hzero : miner.chain.currentHeight.toNat = 0 := by decide +kernel
  obtain ⟨hall, hlength, hsame⟩ := filling_miner.run (small_filler (Nat.le_refl 999000))
    (foreign_filler 999000) (by rw [hzero]; omega : miner.chain.currentHeight.toNat + 11 ≤ 960)
  generalize tickAll 45 [filler 999000] 11 miner = calls at hall hlength hsame ⊢
  intro calls loop
  refine ⟨new_miner, hall, ?_⟩
  obtain ⟨-, store, hstored⟩ := (stored_new new_miner).run hall (by simp [hlength])
  rw [List.nil_append] at hstored
  have hblocks : (calls.map Call.block).length = 11 := by rw [List.length_map, hlength]
  have hheight : loop.node.chain.currentHeight.toNat = 11 := hstored.height.trans hblocks
  have hone : (1 : UInt64).toNat = 1 := rfl
  refine ⟨by rw [UInt64.le_iff_toNat_le, hheight, hone]; omega, ?_⟩
  have hstart : 1 ≤ (SyncRequest.mk 1 500).startHeight.toNat := Nat.le_refl 1
  have hle : (SyncRequest.mk 1 500).startHeight.toNat ≤ (calls.map Call.block).length := by
    rw [hblocks]
    exact Nat.le_of_ble_eq_true rfl
  have hcount : answeredCount 11 (SyncRequest.mk 1 500) = 11 := rfl
  have hresponse := hstored.handleSyncRequest rfl rfl (mem_paired _ "b") hstart hle
    (by rw [hblocks]; omega)
  rw [hblocks, hcount] at hresponse
  change loop.handleSyncRequest "b" (SyncRequest.mk 1 500) = _ at hresponse
  change respondSyncRequest (loop.handleSyncRequest "b" (SyncRequest.mk 1 500)) = none
  have haccepted : Transition.EveryStep (OpolysNode.step primitives)
      (fun node call => node.accepts primitives call = true) miner calls :=
    hall.mono fun _ _ h => h.1
  have hallBlocks : blocksFrom (calls.map Call.block) (SyncRequest.mk 1 500).startHeight.toNat 11 =
      calls.map Call.block := List.take_of_length_le (by
      rw [List.length_drop, hblocks]
      omega)
  have hlarge : ∀ size ∈ (calls.map Call.block).map blockSize, 999000 ≤ size := by
    intro size hmem
    obtain ⟨block, hblock, rfl⟩ := List.mem_map.mp hmem
    obtain ⟨call, hcall, rfl⟩ := List.mem_map.mp hblock
    have hle := length_encode_transactions_le call.block
    rw [hsame call hcall, length_encode_filler] at hle
    rw [← (fits_of_blockSize_le (blockSize_le_of_accepted haccepted _ hblock)).2]
    omega
  have hsum : (calls.map Call.block).length * 999000 ≤
      ((calls.map Call.block).map blockSize).sum := by
    simpa using List.card_nsmul_le_sum _ _ hlarge
  rw [hblocks] at hsum
  unfold respondSyncRequest SyncResponse.isWithinSizeLimit
  rw [hresponse, hallBlocks, payloadSizeBytes_of_accepted (blockSize_le_of_accepted haccepted)]
  have hover : ¬((calls.map Call.block).map blockSize).sum ≤ maxSyncResponseBytes := by
    unfold maxSyncResponseBytes
    omega
  rw [decide_eq_false hover, if_neg Bool.false_ne_true]

end Opolys
