import Opolys.Consensus.Admission
import Opolys.Node.Refining
import Opolys.Rpc.Server

/-!
# Transactions that come back

A block takes its transactions out of the pool. Whether they can come back is up to the gates of
the pool, which look at the nonce from above only.

* `noReturn_iff` : when nothing that has been executed comes back in a run.
-/

namespace Opolys

open Std (ExtTreeMap)
open Effect
open Mempool (Consistent Shrinks Gates Enters)

/-! ## Admissions -/

section Admissions

variable (P : Primitives)

/-- What reaches a node while it runs. -/
inductive Traffic where
  | block (call : Call)
  | gossip (env : EventEnv) (data : Payload Transaction) (source : PeerId)
  | rpc (env : RpcEnv) (data : Payload Transaction)

/-- The node with its peers after a block or an admission. -/
def serve (loop : EventLoop) : Traffic → EventLoop
  | .block call => { loop with node := loop.node.step P call }
  | .gossip env data source => handleNetworkEvent P env loop (.gossipTransaction data source)
  | .rpc env data => { loop with node := loop.node.sendTransaction P env data }

/-- A transaction that is handed to the mempool, and what is said of it there. -/
structure Submission where
  order : IterOrder
  tx : Transaction
  priorityScore : UInt64
  submittedAt : UInt64
  suggestedFee : FlakeAmount

/-- The transaction of a message that the handler of gossip hands on. -/
def gossipedSubmission (loop : EventLoop) (env : EventEnv) (data : Payload Transaction)
    (source : PeerId) : Option Submission :=
  let txLimit := EventLoop.gossipLimit (loop.isRefinerPeer source) maxTxsPerPeerPerSecond
  match data with
  | .malformed _ => none
  | .encoded tx =>
    if source ∈ loop.verifiedPeers ∧ ¬((loop.rateLimit env source).countTx).txCount > txLimit ∧
        ¬data.length > txMaxSizeBytes ∧ verifyTransaction P tx mainnetChainId = .ok () then
      some ⟨env.order, tx, tx.fee, env.nowSecs, loop.node.chain.suggestedFee⟩
    else none

/-- The transaction of a request that the handler of the server hands on. -/
def sentSubmission (env : RpcEnv) (data : Payload Transaction) : Option Submission :=
  match decodeVerifiedRpcTransaction P data with
  | .error _ => none
  | .ok (tx, txSize) =>
    some ⟨env.order, tx, rpcPriority tx.fee txSize, env.nowSecs, env.suggestedFee⟩

/-- The transaction that is handed to the mempool, if there is one. -/
def submission (loop : EventLoop) : Traffic → Option Submission
  | .block _ => none
  | .gossip env data source => gossipedSubmission P loop env data source
  | .rpc env data => sentSubmission P env data

/-- Hand a transaction to the mempool of a node. -/
def submit (node : OpolysNode) (s : Submission) : EStateM OpolysError Mempool Unit :=
  Mempool.addTransaction P s.order s.tx s.priorityScore s.submittedAt
    (node.accountNonce s.tx.sender) s.suggestedFee mainnetChainId

/-- A transaction that would be admitted carries a nonce its sender has not used. -/
def Unspent (loop : EventLoop) (traffic : Traffic) : Prop :=
  ∀ s ∈ submission P loop traffic,
    Gates P s.order s.tx (loop.node.accountNonce s.tx.sender) s.suggestedFee mainnetChainId
      loop.node.mempool →
    loop.node.accountNonce s.tx.sender ≤ s.tx.nonce

/-- Whatever has come into the pool carries a nonce its sender had not used. -/
def NoReturn (before after : EventLoop) : Prop :=
  ∀ (id : ObjectId) (entry : MempoolEntry), after.node.mempool.entries[id]? = some entry →
    before.node.mempool.entries[id]? = some entry ∨
      before.node.accountNonce entry.transaction.sender ≤ entry.transaction.nonce

end Admissions

variable {P : Primitives}

/-! ## Blocks -/

section Blocks

/-- What is left of a pool when transactions are removed. -/
structure Emptied (pool pool' : Mempool) : Prop where
  consistent : pool.Consistent → pool'.Consistent
  shrinks : Shrinks pool' pool

theorem Emptied.refl (pool : Mempool) : Emptied pool pool := ⟨id, Shrinks.refl pool⟩

theorem Emptied.trans {a b c : Mempool} (h : Emptied a b) (h' : Emptied b c) : Emptied a c :=
  ⟨fun ha => h'.consistent (h.consistent ha), h'.shrinks.trans h.shrinks⟩

theorem emptied_removeTransaction (pool : Mempool) (txId : ObjectId) :
    Emptied pool (pool.removeTransaction txId) :=
  ⟨fun h => h.removeTransaction txId, Mempool.shrinks_removeTransaction pool txId⟩

theorem emptied_foldl_removeTransaction (ids : List ObjectId) (pool : Mempool) :
    Emptied pool (ids.foldl Mempool.removeTransaction pool) := by
  induction ids generalizing pool with
  | nil => exact Emptied.refl pool
  | cons id ids ih => exact (emptied_removeTransaction pool id).trans (ih _)

theorem emptied_evictAtEpochEnd (env : Env) (header : BlockHeader) (node : OpolysNode) :
    Emptied node.mempool (evictAtEpochEnd env header node).mempool := by
  unfold evictAtEpochEnd
  split
  · exact emptied_foldl_removeTransaction _ _
  · exact Emptied.refl _

variable {I : Mempool → Prop} {node : OpolysNode}

theorem burn_pool (amount : FlakeAmount) (message : String) (h : I node.mempool) :
    Ends (burn amount message) node (fun _ node' => I node'.mempool)
      (fun _ node' => I node'.mempool) := by
  unfold burn
  exact Ends.get_bind (Ends.require_bind (fun _ => h) fun _ _ => Ends.modify_bind (Ends.pure h))

theorem beginBlock_pool (kind : BlockProductionKind) (bondedStake : FlakeAmount) (block : Block)
    (h : I node.mempool) :
    Ends (beginBlock P kind bondedStake block) node (fun _ node' => I node'.mempool)
      (fun _ node' => I node'.mempool) := by
  unfold beginBlock processSlashEvidence
  refine Ends.get_bind (Ends.bind (R := fun _ node' => I node'.mempool) ?_ fun _ node1 h1 => ?_)
  · exact Ends.get_bind (Ends.set_bind (Ends.pure h))
  refine Ends.bind ((detectDoubleSign_frame block.header node1).mono (fun _ _ h => h)
    fun _ _ h => h.elim) fun newEvidence node2 h2 => ?_
  have h2' : I node2.mempool := by
    rw [h2]
    exact h1
  refine Ends.get_bind ?_
  generalize blockReward P kind block.header node2.chain bondedStake = parts
  obtain ⟨veinYieldMilli, reward⟩ := parts
  refine Ends.get_bind (Ends.ofExcept_bind (fun _ _ => h2') fun accounts _ => ?_)
  exact Ends.modify_bind (Ends.pure h2')

theorem updateChain_pool (header : BlockHeader) (opening : Opening) (tally : TxTally)
    (blockHash : Hash) (h : I node.mempool) :
    Ends (updateChain header opening tally blockHash) node (fun _ node' => I node'.mempool)
      (fun _ node' => I node'.mempool) := by
  unfold updateChain
  have hissued : I (issue opening.reward.grossReward node).mempool := h
  exact Ends.get_bind (Ends.modify_bind (Ends.bind (burn_pool _ _ hissued) fun _ node1 h1 =>
    Ends.modify_bind (Ends.pure h1)))

theorem payMaturedUnbonds_pool (h : I node.mempool) :
    Ends payMaturedUnbonds node (fun _ node' => I node'.mempool)
      (fun _ node' => I node'.mempool) := by
  unfold payMaturedUnbonds
  refine Ends.get_bind (Ends.get_bind (Ends.ofExcept_bind (fun _ _ => h) fun planned _ => ?_))
  refine Ends.get_bind (Ends.ofExcept_bind (fun _ _ => h) fun _ _ => ?_)
  have hfold (refiners : RefinerSet) : I { node with refiners }.mempool := h
  refine Ends.get_bind
    (Ends.modify_bind (Ends.foldlM (I := fun _ (node' : OpolysNode) => I node'.mempool)
    (hfold _) ?_))
  intro _ node' entry _ h'
  exact Ends.get_bind (Ends.ofExcept_bind (fun _ _ => h') fun accounts _ =>
    Ends.modify_bind (Ends.pure h'))

variable {pool : Mempool}

theorem executeTransactions_emptied (block : Block) (h : Emptied pool node.mempool) :
    Ends (executeTransactions P block) node (fun _ node' => Emptied pool node'.mempool)
      (fun _ node' => Emptied pool node'.mempool) := by
  unfold executeTransactions
  refine Ends.foldlM (I := fun _ (node' : OpolysNode) => Emptied pool node'.mempool) h
    fun tally node' tx _ h' => ?_
  unfold executeTransaction
  refine Ends.get_bind (Ends.modify_bind (Ends.ofExcept_bind (fun _ _ => h') fun _ _ => ?_))
  exact Ends.modify_bind (Ends.pure (h'.trans (emptied_removeTransaction _ _)))

theorem settleFees_emptied (env : Env) (header : BlockHeader) (opening : Opening)
    (tally : TxTally) (routing : FeeRouting) (h : Emptied pool node.mempool) :
    Ends (settleFees env header opening tally routing) node
      (fun _ node' => Emptied pool node'.mempool) (fun _ node' => Emptied pool node'.mempool) := by
  unfold settleFees
  dsimp only
  have hevicted := h.trans (emptied_evictAtEpochEnd env header node)
  refine Ends.modify_bind (Ends.get_bind (Ends.ofExcept_bind (fun _ _ => hevicted) ?_))
  intro accounts _
  have hpaid : Emptied pool { evictAtEpochEnd env header node with accounts }.mempool := hevicted
  refine Ends.modify_bind (Ends.bind (burn_pool _ _ hpaid) fun _ node1 h1 => ?_)
  exact burn_pool _ _ h1

/-- A block only takes transactions out of the pool, whether it is accepted or not. -/
theorem applyBlock_emptied (env : Env) (block : Block) (node : OpolysNode) :
    Ends (applyBlock P env block) node (fun _ node' => Emptied node.mempool node'.mempool)
      (fun _ node' => Emptied node.mempool node'.mempool) := by
  unfold applyBlock openBlock closeBlock
  dsimp only
  refine Ends.bind (R := fun _ node' => Emptied node.mempool node'.mempool) ?_
    fun opening node1 h1 => ?_
  · have hself := Emptied.refl node.mempool
    refine Ends.get_bind (Ends.get_bind (Ends.ofExcept_bind (fun _ _ => hself) fun kind _ => ?_))
    have hvotes {node' : OpolysNode} (h : node.VotesOnly node') :
        Emptied node.mempool node'.mempool := by
      rw [h]
      exact hself
    refine Ends.bind ((processAttestations_votes block node).mono (fun _ _ h => hvotes h)
      fun _ _ h => hvotes h) fun _ node1 h1 => ?_
    refine Ends.get_bind (Ends.ofExcept_bind (fun _ _ => h1) fun _ _ => ?_)
    exact beginBlock_pool kind _ block h1
  refine Ends.bind (executeTransactions_emptied block h1) fun tally node2 h2 => ?_
  refine Ends.bind (settleFees_emptied env block.header opening tally _ h2) fun _ node3 h3 => ?_
  refine Ends.bind (updateChain_pool block.header opening tally _ h3) fun _ node4 h4 => ?_
  refine Ends.bind (payMaturedUnbonds_pool h4) fun _ node5 h5 => ?_
  have hranked : Emptied node.mempool (rankRefiners node5).mempool := by
    rw [rankRefiners_eq]
    exact h5
  refine Ends.modify_bind (Ends.get_bind (Ends.ofExcept_bind (fun _ _ => hranked) fun _ _ => ?_))
  refine Ends.modify_bind (Ends.modify_bind (Ends.modify_bind (Ends.pure ?_)))
  rw [persist_frame]
  exact hranked

theorem step_emptied (node : OpolysNode) (call : Call) :
    Emptied node.mempool (node.step P call).mempool :=
  OpolysNode.step_of_ends (fun node' => Emptied node.mempool node'.mempool)
    (applyBlock_emptied call.env call.block node)

end Blocks

/-! ## What is handed to the pool -/

section Submissions

variable {loop : EventLoop}

theorem mempool_receiveGossipTransaction (loop : EventLoop) (env : EventEnv) (source : PeerId)
    {tx : Transaction} (h : verifyTransaction P tx mainnetChainId = .ok ()) :
    (loop.receiveGossipTransaction P env tx source).node.mempool =
      leaves (submit P loop.node
        ⟨env.order, tx, tx.fee, env.nowSecs, loop.node.chain.suggestedFee⟩) loop.node.mempool := by
  have hnonce : loop.accountNonce tx.sender = loop.node.accountNonce tx.sender := rfl
  unfold EventLoop.receiveGossipTransaction submit leaves
  rw [h, hnonce]
  dsimp only
  generalize Mempool.addTransaction P env.order tx tx.fee env.nowSecs _ _ _ _ = result
  cases result <;> rfl

theorem serve_gossip (loop : EventLoop) (env : EventEnv) (data : Payload Transaction)
    (source : PeerId) :
    (serve P loop (.gossip env data source)).node.mempool =
      match gossipedSubmission P loop env data source with
      | none => loop.node.mempool
      | some s => leaves (submit P loop.node s) loop.node.mempool := by
  change (loop.handleGossipTransaction P env data source).node.mempool = _
  unfold EventLoop.handleGossipTransaction gossipedSubmission
  dsimp only
  cases data with
  | malformed length =>
    split
    · rfl
    split
    · rfl
    split <;> rfl
  | encoded tx =>
    dsimp only
    split
    · rename_i hunverified
      rw [if_neg fun h => hunverified h.1]
    rename_i hverified
    split
    · rename_i hcount
      rw [if_neg fun h => h.2.1 hcount]
      rfl
    rename_i hcount
    split
    · rename_i hlength
      rw [if_neg fun h => h.2.2.1 hlength]
      rfl
    rename_i hlength
    unfold EventLoop.receiveGossipTransaction
    cases hverify : verifyTransaction P tx mainnetChainId with
    | error e =>
      rw [if_neg fun h => nomatch h.2.2.2]
      dsimp only
      split
      · rfl
      split <;> rfl
    | ok u =>
      rw [if_pos ⟨not_not.mp hverified, hcount, hlength, rfl⟩]
      have hreceive := mempool_receiveGossipTransaction
        (loop.setRateLimit source (loop.rateLimit env source).countTx) env source hverify
      unfold EventLoop.receiveGossipTransaction at hreceive
      rw [hverify] at hreceive
      exact hreceive

theorem serve_rpc (loop : EventLoop) (env : RpcEnv) (data : Payload Transaction) :
    (serve P loop (.rpc env data)).node.mempool =
      match sentSubmission P env data with
      | none => loop.node.mempool
      | some s => leaves (submit P loop.node s) loop.node.mempool := by
  change (loop.node.sendTransaction P env data).mempool = _
  unfold OpolysNode.sendTransaction OpolysNode.handleSendTransaction sentSubmission
  cases hdecode : decodeVerifiedRpcTransaction P data with
  | error e => rfl
  | ok decoded =>
    rw [leaves_ofExcept_bind _ _ rfl, leaves_get_bind, leaves_within_bind]
    rfl

/-- A step only takes transactions out of the pool, or it hands one to it. -/
theorem serve_cases (loop : EventLoop) (traffic : Traffic) :
    (submission P loop traffic = none ∧
        Emptied loop.node.mempool (serve P loop traffic).node.mempool) ∨
      ∃ s, submission P loop traffic = some s ∧
        (serve P loop traffic).node.mempool = leaves (submit P loop.node s) loop.node.mempool := by
  cases traffic with
  | block call => exact Or.inl ⟨rfl, step_emptied loop.node call⟩
  | gossip env data source =>
    have hserve := serve_gossip (P := P) loop env data source
    cases hsubmission : gossipedSubmission P loop env data source with
    | none =>
      rw [hsubmission] at hserve
      refine Or.inl ⟨hsubmission, ?_⟩
      rw [hserve]
      exact Emptied.refl _
    | some s =>
      rw [hsubmission] at hserve
      exact Or.inr ⟨s, hsubmission, hserve⟩
  | rpc env data =>
    have hserve := serve_rpc (P := P) loop env data
    cases hsubmission : sentSubmission P env data with
    | none =>
      rw [hsubmission] at hserve
      refine Or.inl ⟨hsubmission, ?_⟩
      rw [hserve]
      exact Emptied.refl _
    | some s =>
      rw [hsubmission] at hserve
      exact Or.inr ⟨s, hsubmission, hserve⟩

/-- What a transaction that is handed to a consistent pool does there. -/
theorem leaves_submit (s : Submission) (h : loop.node.mempool.Consistent) :
    (leaves (submit P loop.node s) loop.node.mempool).Consistent ∧
      ((leaves (submit P loop.node s) loop.node.mempool = loop.node.mempool ∧
          ¬Gates P s.order s.tx (loop.node.accountNonce s.tx.sender) s.suggestedFee mainnetChainId
            loop.node.mempool) ∨
        (Gates P s.order s.tx (loop.node.accountNonce s.tx.sender) s.suggestedFee mainnetChainId
            loop.node.mempool ∧
          Enters ⟨s.tx, s.priorityScore, Mempool.serializedSize s.tx, s.submittedAt⟩
            loop.node.mempool (leaves (submit P loop.node s) loop.node.mempool))) := by
  have hends := Mempool.addTransaction_ends P s.order s.tx s.priorityScore s.submittedAt
    (loop.node.accountNonce s.tx.sender) s.suggestedFee mainnetChainId h
  cases hrun : submit P loop.node s loop.node.mempool with
  | ok u pool =>
    have hleaves : leaves (submit P loop.node s) loop.node.mempool = pool := by
      unfold leaves
      rw [hrun]
    obtain ⟨hconsistent, hgates, henters⟩ := hends.ok hrun
    rw [hleaves]
    exact ⟨hconsistent, Or.inr ⟨hgates, henters⟩⟩
  | error e pool =>
    have hleaves : leaves (submit P loop.node s) loop.node.mempool = pool := by
      unfold leaves
      rw [hrun]
    obtain ⟨⟨hsame, -⟩, hgates⟩ := hends.error hrun
    rw [hleaves, hsame]
    exact ⟨h, Or.inl ⟨rfl, hgates⟩⟩

theorem consistent_serve (h : loop.node.mempool.Consistent) (traffic : Traffic) :
    (serve P loop traffic).node.mempool.Consistent := by
  rcases serve_cases (P := P) loop traffic with ⟨-, hemptied⟩ | ⟨s, -, hserve⟩
  · exact hemptied.consistent h
  · rw [hserve]
    exact (leaves_submit s h).1

/-- Nothing comes back in a step exactly when what it hands to the pool is unspent or is refused
for another reason. -/
theorem noReturn_serve (h : loop.node.mempool.Consistent) (traffic : Traffic) :
    NoReturn loop (serve P loop traffic) ↔ Unspent P loop traffic := by
  unfold NoReturn Unspent
  rcases serve_cases (P := P) loop traffic with ⟨hnone, hemptied⟩ | ⟨s, hsome, hserve⟩
  · rw [hnone]
    refine iff_of_true (fun id entry hentry => Or.inl (hemptied.shrinks.entries hentry)) ?_
    rintro s ⟨⟩
  rw [hsome, hserve]
  rcases (leaves_submit (P := P) s h).2 with ⟨hsame, hgates⟩ | ⟨hgates, henters⟩
  · rw [hsame]
    refine iff_of_true (fun id entry hentry => Or.inl hentry) ?_
    rintro _ ⟨⟩ hpasses
    exact absurd hpasses hgates
  constructor
  · rintro hreturn _ ⟨⟩ -
    rcases hreturn _ _ henters.entered with hold | hnonce
    · exact absurd (ExtTreeMap.mem_iff_isSome_getElem?.mpr (by rw [hold]; rfl)) hgates.fresh
    · exact hnonce
  · intro hunspent id entry hentry
    rcases henters.old hentry with ⟨-, rfl⟩ | hold
    · exact Or.inr (hunspent s rfl hgates)
    · exact Or.inl hold

end Submissions

/-! ## Runs -/

/-- In a run of blocks and admissions, no transaction is admitted with a nonce below the
confirmed one of its sender if and only if every transaction that arrives carries an unspent
nonce or misses a gate. -/
theorem noReturn_iff (P : Primitives) {loop : EventLoop} (h : loop.node.mempool.Consistent)
    (run : List Traffic) :
    (∀ before traffic after, run = before ++ traffic :: after →
        NoReturn (Transition.run (serve P) loop before)
          (serve P (Transition.run (serve P) loop before) traffic)) ↔
      Transition.EveryStep (serve P) (Unspent P) loop run := by
  rw [Transition.everyStep_iff]
  have hstep (loop : EventLoop) (traffic : Traffic) (h : loop.node.mempool.Consistent) :
      (serve P loop traffic).node.mempool.Consistent := consistent_serve h traffic
  have hkeeps (before : List Traffic) :
      (Transition.run (serve P) loop before).node.mempool.Consistent :=
    Transition.run_invariant hstep before h
  refine forall_congr' fun before => forall_congr' fun traffic => forall_congr' fun after =>
    imp_congr_right fun _ => ?_
  exact noReturn_serve (hkeeps before) traffic

namespace Reference

/-- What a request reads a minute after the first block. -/
def rpcEnv : RpcEnv := { nowSecs := 150, order := .byId, suggestedFee := 1 }

/-- The bond of the first block, as it is sent to a node. -/
def bondData : Payload Transaction :=
  match signed 1 (.refinerBond (2 ^ 29)) 100000 0 with
  | [] => .malformed 0
  | tx :: _ => .encoded tx

/-- The node with its peers after the first block. -/
def settled : EventLoop := serve primitives (EventLoop.new founder ∅) (.block bondCall)

/-- The node when the bond has been sent once more. -/
def resent : EventLoop := serve primitives settled (.rpc rpcEnv bondData)

end Reference

open Reference

/-- A bond that is sent to a node and executed. -/
theorem noReturn_of_reference :
    Transition.EveryStep (serve primitives)
      (fun loop traffic => NoReturn loop (serve primitives loop traffic))
      (EventLoop.new founder ∅) [.rpc rpcEnv bondData, .block bondCall] := by
  have hconsistent : (EventLoop.new founder ∅).node.mempool.Consistent := by
    obtain ⟨_, _, _, hnew, _⟩ := OpolysNode.new_fresh new_founder
    change founder.mempool.Consistent
    rw [hnew]
    exact Mempool.consistent_new
  refine Transition.everyStep_iff.mpr
    ((noReturn_iff primitives hconsistent _).mpr ⟨?_, nofun, trivial⟩)
  intro s hs _
  have hunspent : (submission primitives (EventLoop.new founder ∅)
      (.rpc rpcEnv bondData)).all fun s => founder.accountNonce s.tx.sender ≤ s.tx.nonce := by
    decide +kernel
  exact of_decide_eq_true ((Option.all_eq_true _ _).mp hunspent s hs)

/-- A bond that has been executed is admitted again when it is sent once more. -/
theorem bond_readmitted :
    OpolysNode.new primitives bondConfig (some (seed 1).bytes) BlockchainStore.empty =
        .ok founder ∧
      founder.accepts primitives bondCall = true ∧
      ¬∀ before traffic after,
        [.block bondCall, .rpc rpcEnv bondData] = before ++ traffic :: after →
          NoReturn (Transition.run (serve primitives) (EventLoop.new founder ∅) before)
            (serve primitives (Transition.run (serve primitives) (EventLoop.new founder ∅) before)
              traffic) := by
  refine ⟨new_founder, by decide +kernel, fun h => ?_⟩
  have hreturn : NoReturn settled resent := h [.block bondCall] (.rpc rpcEnv bondData) [] rfl
  have hspent : resent.node.mempool.entries.toList.any (fun p =>
      p.2.transaction.nonce < settled.node.accountNonce p.2.transaction.sender) = true := by
    decide +kernel
  have hempty : settled.node.mempool.entries.toList.isEmpty = true := by decide +kernel
  obtain ⟨⟨id, entry⟩, hmem, hlt⟩ := List.any_eq_true.mp hspent
  rcases hreturn id entry (FiniteMap.mem_toList.mp hmem) with hold | hnonce
  · have hmem := FiniteMap.mem_toList.mpr hold
    rw [List.isEmpty_iff.mp hempty] at hmem
    exact absurd hmem List.not_mem_nil
  · exact absurd (of_decide_eq_true hlt) (UInt64.not_lt.mpr hnonce)

end Opolys
