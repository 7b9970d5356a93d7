import Opolys.Execution.Verified
import Opolys.Node.Supply

/-!
# Transactions are executed once

The nonce of an account counts the transactions it has sent. Opening and closing a block
move no nonce, whatever they credit and whoever they slash or pay out, and a transaction is
executed only with the nonce its sender has reached. So along a run of accepted blocks the
transactions of a sender carry the nonces 0, 1, 2, .. in the order of their execution, and
none is executed twice.
-/

namespace Opolys

open Effect (Ends bind_eq_ok check_bind_eq_ok)
open Codec (Borsh FixedBytes)

variable {P : Primitives}

/-! ## What is executed -/

/-- The transactions that succeed in a call. -/
def executedIn (P : Primitives) (node : OpolysNode) (call : Call) : List Transaction :=
  match openBlock P call.env call.block node with
  | .ok _ node' => (executedFrom P (executionContext call.block.header node'.chain)
      call.block.transactions node'.ledger).1
  | .error _ _ => []

/-- The transactions that succeed along a run, in the order of their execution. -/
def executedAlong (P : Primitives) : OpolysNode → List Call → List Transaction
  | _, [] => []
  | node, call :: calls => executedIn P node call ++ executedAlong P (node.step P call) calls

theorem executeTransaction_ledger (header : BlockHeader) (tally : TxTally) (tx : Transaction)
    (node : OpolysNode) :
    Ends (executeTransaction P header tally tx) node
      (fun _ node' => node'.chain = node.chain ∧ node'.ledger =
        (TransactionDispatcher.applyTransaction P tx (executionContext header node.chain)
          mainnetChainId node.ledger).2)
      (fun _ _ => True) := by
  unfold executeTransaction
  refine Ends.get_bind (Ends.modify_bind (Ends.ofExcept_bind (fun _ _ => trivial) fun _ _ => ?_))
  exact Ends.modify_bind (Ends.pure ⟨rfl, rfl⟩)

/-- The loop over the transactions of a block leaves the ledger that executing them does. -/
theorem executeTransactions_ledger (header : BlockHeader) (txs : List Transaction)
    (tally : TxTally) (node : OpolysNode) :
    Ends (txs.foldlM (executeTransaction P header) tally) node
      (fun _ node' => node'.chain = node.chain ∧ node'.ledger =
        (executedFrom P (executionContext header node.chain) txs node.ledger).2)
      (fun _ _ => True) := by
  induction txs generalizing tally node with
  | nil => exact Ends.pure ⟨rfl, rfl⟩
  | cons tx txs ih =>
    rw [List.foldlM_cons]
    refine Ends.bind (executeTransaction_ledger header tally tx node) ?_
    rintro tally' node' ⟨hchain, hledger⟩
    refine (ih tally' node').mono ?_ fun _ _ h => h
    rintro _ node'' ⟨hchain', hledger'⟩
    rw [hchain, hledger] at hledger'
    exact ⟨hchain'.trans hchain, hledger'⟩

/-! ## Stages that move no nonce -/

/-- Every account has the nonce it had. -/
def SameNonces (node node' : OpolysNode) : Prop :=
  ∀ k, node'.accounts.nonceOf k = node.accounts.nonceOf k

theorem SameNonces.of_accounts {node node' : OpolysNode} (h : node'.accounts = node.accounts) :
    SameNonces node node' := fun k => by rw [h]

theorem SameNonces.trans {a b c : OpolysNode} (h : SameNonces a b) (h' : SameNonces b c) :
    SameNonces a c := fun k => (h' k).trans (h k)

theorem beginBlock_nonces (kind : BlockProductionKind) (bondedStake : FlakeAmount)
    (block : Block) (node : OpolysNode) :
    Ends (beginBlock P kind bondedStake block) node (fun _ node' => SameNonces node node')
      (fun _ _ => True) := by
  unfold beginBlock
  refine Ends.get_bind ?_
  unfold processSlashEvidence
  refine Ends.bind (R := fun _ node' => SameNonces node node') (Ends.get_bind
    (Ends.set_bind (Ends.pure (SameNonces.of_accounts rfl)))) fun _ node' h' => ?_
  refine Ends.bind ((detectDoubleSign_ends _ node').mono
    (fun _ _ hd => h'.trans (SameNonces.of_accounts hd.accounts_eq)) fun _ _ hd => hd.elim)
    fun _ node'' h'' => ?_
  refine Ends.get_bind ?_
  generalize blockReward P kind block.header node''.chain bondedStake = parts
  obtain ⟨veinYieldMilli, reward⟩ := parts
  refine Ends.get_bind (Ends.ofExcept_bind (fun _ _ => trivial) fun accounts hcredit => ?_)
  exact Ends.modify_bind (Ends.pure fun k =>
    ((creditProducer_eq_ok hcredit).2 k).trans (h'' k))

theorem openBlock_nonces (env : Env) (block : Block) (node : OpolysNode) :
    Ends (openBlock P env block) node (fun _ node' => SameNonces node node')
      (fun _ _ => True) := by
  unfold openBlock
  refine Ends.get_bind (Ends.get_bind (Ends.ofExcept_bind (fun _ _ => trivial) fun kind _ => ?_))
  refine Ends.bind ((processAttestations_ends block node).mono
    (fun _ _ h => SameNonces.of_accounts h.accounts_eq) fun _ _ _ => trivial) fun _ node' h' => ?_
  refine Ends.get_bind (Ends.ofExcept_bind (fun _ _ => trivial) fun _ _ => ?_)
  exact (beginBlock_nonces kind _ block node').mono (fun _ _ h => h'.trans h) fun _ _ h => h

theorem burn_nonces (amount : FlakeAmount) (message : String) (node : OpolysNode) :
    Ends (burn amount message) node (fun _ node' => SameNonces node node') (fun _ _ => True) := by
  unfold burn
  exact Ends.get_bind (Ends.require_bind (fun _ => trivial) fun _ _ =>
    Ends.modify_bind (Ends.pure (SameNonces.of_accounts rfl)))

theorem settleFees_nonces (env : Env) (header : BlockHeader) (opening : Opening)
    (tally : TxTally) (routing : FeeRouting) (node : OpolysNode) :
    Ends (settleFees env header opening tally routing) node
      (fun _ node' => SameNonces node node') (fun _ _ => True) := by
  unfold settleFees
  dsimp only
  have hevict := SameNonces.of_accounts (sameBooks_evictAtEpochEnd env header node).accounts_eq
  refine Ends.modify_bind (Ends.get_bind ?_)
  refine Ends.ofExcept_bind (fun _ _ => trivial) fun accounts hcredit => Ends.modify_bind ?_
  have hpaid : SameNonces node { evictAtEpochEnd env header node with accounts } := fun k =>
    ((creditProducer_eq_ok hcredit).2 k).trans (hevict k)
  refine Ends.bind (burn_nonces _ _ _) fun _ node' h' => ?_
  exact (burn_nonces _ _ node').mono (fun _ _ h => hpaid.trans (h'.trans h)) fun _ _ h => h

theorem updateChain_nonces (header : BlockHeader) (opening : Opening) (tally : TxTally)
    (blockHash : Hash) (node : OpolysNode) :
    Ends (updateChain header opening tally blockHash) node
      (fun _ node' => SameNonces node node') (fun _ _ => True) := by
  unfold updateChain
  refine Ends.get_bind (Ends.modify_bind (Ends.bind (burn_nonces _ _ _) fun _ node' h' => ?_))
  exact Ends.modify_bind (Ends.pure h')

theorem payMaturedUnbonds_nonces (node : OpolysNode) :
    Ends payMaturedUnbonds node (fun _ node' => SameNonces node node') (fun _ _ => True) := by
  unfold payMaturedUnbonds
  refine Ends.get_bind (Ends.get_bind (Ends.ofExcept_bind (fun _ _ => trivial) fun _ _ => ?_))
  refine Ends.get_bind (Ends.ofExcept_bind (fun _ _ => trivial) fun _ _ => ?_)
  refine Ends.get_bind (Ends.modify_bind ?_)
  refine Ends.foldlM (I := fun _ node' => SameNonces node node') (SameNonces.of_accounts rfl) ?_
  intro _ node' entry _ h'
  refine Ends.get_bind (Ends.ofExcept_bind (fun _ _ => trivial) fun accounts hcredit => ?_)
  exact Ends.modify_bind (Ends.pure fun k =>
    ((creditOrCreateAccount_eq_ok hcredit).2 k).trans (h' k))

theorem closeBlock_nonces (env : Env) (block : Block) (opening : Opening) (tally : TxTally)
    (node : OpolysNode) :
    Ends (closeBlock P env block opening tally) node (fun _ node' => SameNonces node node')
      (fun _ _ => True) := by
  unfold closeBlock
  dsimp only
  refine Ends.bind (settleFees_nonces _ _ _ _ _ _) fun _ node1 h1 => ?_
  refine Ends.bind (updateChain_nonces _ _ _ _ _) fun _ node2 h2 => ?_
  refine Ends.bind (payMaturedUnbonds_nonces _) fun _ node3 h3 => ?_
  have h4 := SameNonces.of_accounts (sameBooks_rankRefiners node3).accounts_eq
  refine Ends.modify_bind (Ends.get_bind (Ends.ofExcept_bind (fun _ _ => trivial) fun root _ => ?_))
  refine Ends.modify_bind (Ends.modify_bind (Ends.modify_bind (Ends.pure ?_)))
  have h5 (receipt : BlockEconomicReceipt) :
      SameNonces node3 (recordBlock root receipt (rankRefiners node3)) := h4
  have h6 := SameNonces.of_accounts (sameBooks_persist (P := P) env block
    (economicReceipt block.header (computeBlockHash P block.header) opening tally
      (routeFees opening tally.totalTransactionFees))
    (recordBlock root (economicReceipt block.header (computeBlockHash P block.header) opening
      tally (routeFees opening tally.totalTransactionFees)) (rankRefiners node3))).accounts_eq
  exact h1.trans (h2.trans (h3.trans ((h5 _).trans h6)))

/-! ## Nonces in order -/

/-- The nonces of one sender's transactions, in order. -/
def noncesOf (txs : List Transaction) (sender : ObjectId) : List ℕ :=
  (txs.filter fun tx => tx.sender = sender).map fun tx => tx.nonce.toNat

/-- The transactions of every sender carry the nonces up to the one its account has reached. -/
def InOrder (done : List Transaction) (accounts : AccountStore) : Prop :=
  ∀ sender, noncesOf done sender = List.range (accounts.nonceOf sender)

theorem inOrder_executed {tx : Transaction} {ledger ledger' : Ledger}
    {charged : FlakeAmount × FlakeAmount} {done : List Transaction}
    (h : InOrder done ledger.accounts)
    (hexec : TransactionDispatcher.Executed P tx mainnetChainId ledger charged ledger') :
    InOrder (done ++ [tx]) ledger'.accounts := by
  intro sender
  have hsender := h sender
  unfold noncesOf at hsender ⊢
  rw [hexec.nonce_eq, List.filter_append, List.map_append, hsender]
  by_cases hs : tx.sender = sender
  · rw [if_pos hs, List.range_succ, ← hs, hexec.nonce_tx, List.filter_cons_of_pos (by simp)]
    rfl
  · rw [if_neg hs, List.filter_cons_of_neg (by simpa using hs)]
    exact List.append_nil _

/-- Executing transactions keeps the nonces in order, and only verified transactions are
executed. -/
theorem inOrder_executedFrom (context : ExecutionContext) (txs : List Transaction)
    {ledger : Ledger} {done : List Transaction} (h : InOrder done ledger.accounts) :
    InOrder (done ++ (executedFrom P context txs ledger).1)
        (executedFrom P context txs ledger).2.accounts ∧
      ∀ tx ∈ (executedFrom P context txs ledger).1,
        verifyTransaction P tx mainnetChainId = .ok () := by
  induction txs generalizing ledger done with
  | nil => exact ⟨by rwa [executedFrom, List.append_nil], fun _ h => by cases h⟩
  | cons tx txs ih =>
    rw [executedFrom]
    dsimp only
    rcases TransactionDispatcher.applyTransaction_cases P tx context mainnetChainId ledger with
      ⟨hsuccess, hexec⟩ | ⟨hfail, hledger⟩
    · obtain ⟨horder, hverified⟩ := ih (inOrder_executed h hexec)
      rw [if_pos hsuccess]
      rw [List.append_assoc] at horder
      refine ⟨horder, fun tx' hmem => ?_⟩
      rcases List.mem_cons.mp hmem with rfl | hmem
      · exact hexec.verified
      · exact hverified tx' hmem
    · rw [if_neg (by rw [hfail]; decide), hledger]
      exact ih h

/-- An accepted block keeps the nonces in order. -/
theorem inOrder_step {node : OpolysNode} {call : Call} {done : List Transaction}
    (h : InOrder done node.accounts) (haccept : node.accepts P call = true) :
    InOrder (done ++ executedIn P node call) (node.step P call).accounts ∧
      ∀ tx ∈ executedIn P node call, verifyTransaction P tx mainnetChainId = .ok () := by
  have hends : Ends (applyBlock P call.env call.block) node
      (fun _ node' => InOrder (done ++ executedIn P node call) node'.accounts ∧
        ∀ tx ∈ executedIn P node call, verifyTransaction P tx mainnetChainId = .ok ())
      (fun _ _ => True) := by
    unfold applyBlock executedIn
    have hopen := openBlock_nonces (P := P) call.env call.block node
    unfold Ends at hopen
    refine Ends.bind (R := fun opening node' =>
      openBlock P call.env call.block node = .ok opening node' ∧ SameNonces node node') ?_ ?_
    · unfold Ends
      cases hrun : openBlock P call.env call.block node with
      | ok opening node' =>
        rw [hrun] at hopen
        exact ⟨rfl, hopen⟩
      | error message node' => trivial
    · rintro opening node' ⟨hrun, hsame⟩
      rw [hrun]
      dsimp only
      have horder : InOrder done node'.ledger.accounts := fun sender => by
        rw [h sender]
        exact congrArg List.range (hsame sender).symm
      obtain ⟨horder', hverified⟩ := inOrder_executedFrom (P := P)
        (executionContext call.block.header node'.chain) call.block.transactions horder
      unfold executeTransactions
      refine Ends.bind (executeTransactions_ledger _ _ _ node') ?_
      rintro tally node'' ⟨-, hledger⟩
      refine (closeBlock_nonces _ _ _ _ node'').mono (fun _ node3 hclose => ?_) fun _ _ h => h
      refine ⟨fun sender => ?_, hverified⟩
      rw [horder' sender, ← hledger]
      exact congrArg List.range (hclose sender).symm
  unfold OpolysNode.accepts at haccept
  cases hout : node.outcome P call with
  | error message =>
    rw [hout] at haccept
    cases haccept
  | ok hash => exact hends.ok (OpolysNode.outcome_eq_ok.mp hout)

/-- Along a run of accepted blocks the nonces stay in order. -/
theorem inOrder_run {node : OpolysNode} {calls : List Call} {done : List Transaction}
    (h : InOrder done node.accounts)
    (haccept : Transition.EveryStep (OpolysNode.step P)
      (fun node call => node.accepts P call = true) node calls) :
    InOrder (done ++ executedAlong P node calls)
        (Transition.run (OpolysNode.step P) node calls).accounts ∧
      ∀ tx ∈ executedAlong P node calls, verifyTransaction P tx mainnetChainId = .ok () := by
  induction calls generalizing node done with
  | nil => exact ⟨by rwa [executedAlong, List.append_nil], fun _ h => by cases h⟩
  | cons call calls ih =>
    obtain ⟨hstep, hverified⟩ := inOrder_step h haccept.1
    obtain ⟨hrun, hverified'⟩ := ih hstep haccept.2
    rw [executedAlong]
    rw [List.append_assoc] at hrun
    refine ⟨hrun, fun tx hmem => ?_⟩
    rcases List.mem_append.mp hmem with hmem | hmem
    · exact hverified tx hmem
    · exact hverified' tx hmem

/-! ## Identifiers -/

/-- In order, the pairs of sender and nonce are all different. -/
theorem nodup_sender_nonce {txs : List Transaction} (h : ∀ sender, (noncesOf txs sender).Nodup) :
    (txs.map fun tx => (tx.sender, tx.nonce)).Nodup := by
  induction txs with
  | nil => exact List.nodup_nil
  | cons tx txs ih =>
    rw [List.map_cons, List.nodup_cons]
    constructor
    · intro hmem
      obtain ⟨tx', hmem', he⟩ := List.mem_map.mp hmem
      obtain ⟨hsender, hnonce⟩ := Prod.mk.inj he
      have hnd := h tx.sender
      unfold noncesOf at hnd
      rw [List.filter_cons_of_pos (by simp), List.map_cons, List.nodup_cons] at hnd
      refine hnd.1 (List.mem_map.mpr ⟨tx', List.mem_filter.mpr ⟨hmem', by simpa using hsender⟩, ?_⟩)
      rw [hnonce]
    · refine ih fun sender => ?_
      have hnd := h sender
      unfold noncesOf at hnd ⊢
      by_cases hs : tx.sender = sender
      · rw [List.filter_cons_of_pos (by simpa using hs), List.map_cons, List.nodup_cons] at hnd
        exact hnd.2
      · rwa [List.filter_cons_of_neg (by simpa using hs)] at hnd

/-- Registering the node's own account moves no nonce. -/
theorem ensureLocalProducerAccount_nonces {accounts accounts' : AccountStore} {minerId : ObjectId}
    {signingKey : Option (FixedBytes 32)}
    (h : ensureLocalProducerAccount P accounts minerId signingKey = .ok accounts') (k : ObjectId) :
    accounts'.nonceOf k = accounts.nonceOf k := by
  unfold ensureLocalProducerAccount at h
  split at h
  · cases h
    rfl
  · rename_i seed
    split at h
    · cases h
      rfl
    · dsimp only at h
      split at h
      · cases h
      · rename_i account haccount
        split at h
        · split at h <;> cases h
          exact AccountStore.nonceOf_withAccount _ _ _
        · cases h
          have hid : account.objectId = minerId := Registry.name_of_get? haccount
          let keyed : Account := { account with publicKey := some (P.verifyingKey seed).bytes }
          exact (AccountStore.nonceOf_put_of_eq (b := keyed) haccount hid rfl k).trans
            (AccountStore.nonceOf_withAccount _ _ _)

/-- In every run of accepted blocks from genesis, the transactions of every sender were
executed with the nonces 0, 1, 2, .. in order, and no identifier was executed twice, unless
two executed transactions collide under Blake3. -/
theorem executed_once {config : GenesisConfig} {keyFile : Option (List UInt8)}
    {node : OpolysNode} {calls : List Call}
    (hnew : OpolysNode.new P config keyFile BlockchainStore.empty = .ok node)
    (haccept : Transition.EveryStep (OpolysNode.step P)
      (fun node call => node.accepts P call = true) node calls) :
    let executed := executedAlong P node calls
    (∀ sender, noncesOf executed sender = List.range (noncesOf executed sender).length) ∧
      (CollisionFree P.blake3 {msg | ∃ tx ∈ executed, txIdMessage tx = msg} →
        (executed.map Transaction.txId).Nodup) := by
  intro executed
  have h0 : InOrder [] node.accounts := by
    obtain ⟨accounts, hgenesis, hkey, -⟩ := OpolysNode.new_fresh hnew
    obtain ⟨-, -, hzero, -⟩ := genesisState_eq_ok hgenesis
    intro sender
    rw [ensureLocalProducerAccount_nonces hkey, hzero]
    rfl
  obtain ⟨horder, hverified⟩ := inOrder_run h0 haccept
  rw [List.nil_append] at horder
  constructor
  · intro sender
    rw [horder sender, List.length_range]
  · intro hfree
    have hnd := nodup_sender_nonce fun sender => by
      rw [horder sender]
      exact List.nodup_range
    refine List.pairwise_map.mpr ((List.pairwise_map.mp hnd).imp_of_mem ?_)
    intro tx tx' hmem hmem' hne he
    have hmsg := hfree _ ⟨tx, hmem, rfl⟩ _ ⟨tx', hmem', rfl⟩ (by
      rw [← txId_of_verified (hverified tx hmem), ← txId_of_verified (hverified tx' hmem'), he])
    have hcontent := Borsh.encode_inj rfl rfl (List.append_cancel_left hmsg)
    simp only [transactionContent, Prod.mk.injEq] at hcontent
    exact hne (Prod.ext hcontent.1 hcontent.2.2.2.1)

/-- A chain whose second block includes the transactions of its first block again. -/
theorem executed_once_of_reference :
    let node := Reference.start (Reference.config [(1, 1000000000)]) (some 1)
    let transactions := Reference.signed 1 (.transfer (Reference.account 2) 5000) 10 0 ++
      Reference.signed 1 (.refinerBond 32000000) 10 1
    let calls := Reference.mineAll node [(0, { transactions }), (0, { transactions })]
    let executed := executedAlong Reference.primitives node calls
    (∀ sender, noncesOf executed sender = List.range (noncesOf executed sender).length) ∧
      (CollisionFree Reference.primitives.blake3
          {msg | ∃ tx ∈ executed, txIdMessage tx = msg} →
        (executed.map Transaction.txId).Nodup) := by
  intro node transactions calls executed
  have hnew := Reference.new_start (Reference.config [(1, 1000000000)]) (some 1)
    (by decide +kernel)
  exact executed_once hnew (by decide +kernel)

end Opolys
