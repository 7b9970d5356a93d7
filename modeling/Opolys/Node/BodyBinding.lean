import Opolys.Consensus.Limits
import Opolys.Node.Alike
import Opolys.Node.BlockIdentity
import Opolys.Node.Replay

/-!
# What the body roots of a header bind

The evidence root and the attestation root hash all of what they stand for. The transaction
root hashes identifier, fee and nonce of each transaction. An identifier names the content of
a transaction only once verification has computed it again, and a transaction that does not
verify fails without failing its block. So a body can be exchanged for one that has the same
roots and whose transactions have lost their signatures.

* `body_bound_iff` : when two bodies under one header have the same effect.
-/

namespace Opolys

open Codec (Borsh FixedBytes)
open Effect

variable {P : Primitives}

/-! ## What the roots hash -/

/-- What of a transaction is committed to in a header. -/
def Transaction.committed (tx : Transaction) : ObjectId × FlakeAmount × UInt64 :=
  (tx.txId, tx.fee, tx.nonce)

theorem length_transactionCommitment (tx : Transaction) :
    (transactionCommitment tx).length = 48 := by
  unfold transactionCommitment
  rw [List.length_append, List.length_append, Codec.length_beBytes, Codec.length_beBytes]
  change tx.txId.hash.bytes.length + 8 + 8 = 48
  rw [FixedBytes.length_bytes]

theorem transactionCommitment_inj {tx tx' : Transaction}
    (h : transactionCommitment tx = transactionCommitment tx') : tx.committed = tx'.committed := by
  unfold transactionCommitment at h
  rw [List.append_assoc, List.append_assoc] at h
  have hlength : tx.txId.hash.bytes.length = tx'.txId.hash.bytes.length := by
    rw [FixedBytes.length_bytes, FixedBytes.length_bytes]
  obtain ⟨hid, h⟩ := List.append_inj h hlength
  obtain ⟨hfee, hnonce⟩ := List.append_inj h (by simp)
  unfold Transaction.committed
  rw [ObjectId.ext (FixedBytes.bytes_injective hid), Codec.beBytes_uint64_inj hfee,
    Codec.beBytes_uint64_inj hnonce]

/-- The commitments all have one length, so that the stream of them can be taken apart. -/
theorem committed_of_flatMap {txs txs' : List Transaction}
    (h : txs.flatMap transactionCommitment = txs'.flatMap transactionCommitment) :
    txs.map Transaction.committed = txs'.map Transaction.committed := by
  induction txs generalizing txs' with
  | nil =>
    cases txs' with
    | nil => rfl
    | cons tx' txs' =>
      have hlength := congrArg List.length h
      rw [List.flatMap_nil, List.flatMap_cons, List.length_append,
        length_transactionCommitment, List.length_nil] at hlength
      omega
  | cons tx txs ih =>
    cases txs' with
    | nil =>
      have hlength := congrArg List.length h
      rw [List.flatMap_nil, List.flatMap_cons, List.length_append,
        length_transactionCommitment, List.length_nil] at hlength
      omega
    | cons tx' txs' =>
      rw [List.flatMap_cons, List.flatMap_cons] at h
      obtain ⟨hhead, htail⟩ := List.append_inj h (by
        rw [length_transactionCommitment, length_transactionCommitment])
      rw [List.map_cons, List.map_cons, transactionCommitment_inj hhead, ih htail]

/-- The messages hashed for a body: for its roots, and for the identifiers and the senders of
its transactions. -/
def Block.messages (block : Block) : Set (List UInt8) :=
  {domainTxRoot ++ block.transactions.flatMap transactionCommitment,
    domainEvidenceRoot ++ Borsh.encode block.slashEvidence,
    domainAttestationRoot ++ Borsh.encode block.attestations} ∪
  {msg | ∃ tx ∈ block.transactions, msg = txIdMessage tx ∨ msg = keyMessage tx.publicKey}

/-- The messages of a body as a list. -/
def Block.messageList (block : Block) : List (List UInt8) :=
  [domainTxRoot ++ block.transactions.flatMap transactionCommitment,
    domainEvidenceRoot ++ Borsh.encode block.slashEvidence,
    domainAttestationRoot ++ Borsh.encode block.attestations] ++
  block.transactions.flatMap fun tx => [txIdMessage tx, keyMessage tx.publicKey]

theorem Block.messages_subset (block : Block) : block.messages ⊆ {m | m ∈ block.messageList} := by
  rintro m (hm | ⟨tx, htx, hm⟩)
  · refine List.mem_append_left _ ?_
    rcases hm with rfl | rfl | rfl <;> simp
  · refine List.mem_append_right _ (List.mem_flatMap.mpr ⟨tx, htx, ?_⟩)
    rcases hm with rfl | rfl <;> simp

/-- A memo is no part of any message. -/
theorem Block.messages_noted (block : Block) (memo : List UInt8) :
    Block.messages { block with
      transactions := block.transactions.map (fun tx => { tx with data := memo }) } =
        block.messages := by
  unfold Block.messages
  simp only [List.flatMap_map, List.mem_map]
  congr 1
  ext m
  constructor
  · rintro ⟨_, ⟨tx, htx, rfl⟩, hm⟩
    exact ⟨tx, htx, hm⟩
  · rintro ⟨tx, htx, hm⟩
    exact ⟨_, ⟨tx, htx, rfl⟩, hm⟩

/-- A root over an encoded list binds the list. -/
theorem eq_of_root_eq {α : Type} [Borsh α] {what : String} {domain : List UInt8} {xs ys : List α}
    {root : Hash} {msgs : Set (List UInt8)} (hfree : CollisionFree P.blake3 msgs)
    (hxs : domain ++ Borsh.encode xs ∈ msgs) (hys : domain ++ Borsh.encode ys ∈ msgs)
    (h : (do let bytes ← borshToVec what xs; return hashWithDomain P domain bytes :
      Except OpolysError Hash) = .ok root)
    (h' : (do let bytes ← borshToVec what ys; return hashWithDomain P domain bytes :
      Except OpolysError Hash) = .ok root) : xs = ys := by
  obtain ⟨bytes, hbytes, h⟩ := bind_eq_ok.mp h
  obtain ⟨bytes', hbytes', h'⟩ := bind_eq_ok.mp h'
  have hsome := borshToVec_eq_ok.mp hbytes
  have hsome' := borshToVec_eq_ok.mp hbytes'
  obtain ⟨-, rfl⟩ := Borsh.toVec_eq_some.mp hsome
  obtain ⟨-, rfl⟩ := Borsh.toVec_eq_some.mp hsome'
  have hroot : P.blake3 (domain ++ Borsh.encode xs) = P.blake3 (domain ++ Borsh.encode ys) :=
    (Except.ok.inj h).trans (Except.ok.inj h').symm
  have hencode := List.append_cancel_left (hfree _ hxs _ hys hroot)
  rw [hencode] at hsome
  exact Borsh.toVec_inj hsome hsome'

/-- Two bodies under the roots of one header. -/
structure Block.SameRoots (b b' : Block) : Prop where
  header : b.header = b'.header
  evidence : b.slashEvidence = b'.slashEvidence
  attestations : b.attestations = b'.attestations
  committed : b.transactions.map Transaction.committed = b'.transactions.map Transaction.committed

theorem Block.RootsMatch.sameRoots {b b' : Block} (h : b.RootsMatch P) (h' : b'.RootsMatch P)
    (hheader : b.header = b'.header)
    (hfree : CollisionFree P.blake3 (b.messages ∪ b'.messages)) : b.SameRoots b' := by
  have htransactions := h.transactions
  have hevidence := h.evidence
  have hattestations := h.attestations
  rw [hheader] at htransactions hevidence hattestations
  refine ⟨hheader, ?_, ?_, ?_⟩
  · exact eq_of_root_eq hfree (Or.inl (Or.inl (Or.inr (Or.inl rfl))))
      (Or.inr (Or.inl (Or.inr (Or.inl rfl)))) hevidence h'.evidence
  · exact eq_of_root_eq hfree (Or.inl (Or.inl (Or.inr (Or.inr rfl))))
      (Or.inr (Or.inl (Or.inr (Or.inr rfl)))) hattestations h'.attestations
  · have hroot : P.blake3 (domainTxRoot ++ b.transactions.flatMap transactionCommitment) =
        P.blake3 (domainTxRoot ++ b'.transactions.flatMap transactionCommitment) :=
      htransactions.trans h'.transactions.symm
    have hmessage := hfree _ (Or.inl (Or.inl (Or.inl rfl))) _ (Or.inr (Or.inl (Or.inl rfl))) hroot
    exact committed_of_flatMap (List.append_cancel_left hmessage)

/-! ## Verified transactions -/

/-- What of a transaction decides its effect. -/
def Transaction.content (tx : Transaction) :
    ObjectId × TransactionAction × FlakeAmount × UInt64 × List UInt8 :=
  (tx.sender, tx.action, tx.fee, tx.nonce, tx.publicKey)

/-- Whether a transaction passes verification. -/
def Verified (P : Primitives) (tx : Transaction) : Prop :=
  verifyTransaction P tx mainnetChainId = .ok ()

/-- Two verified transactions of one identifier have the same content. -/
theorem Verified.content_eq {tx tx' : Transaction} (h : Verified P tx) (h' : Verified P tx')
    (hid : tx.txId = tx'.txId) {msgs : Set (List UInt8)} (hfree : CollisionFree P.blake3 msgs)
    (hmem : txIdMessage tx ∈ msgs ∧ keyMessage tx.publicKey ∈ msgs)
    (hmem' : txIdMessage tx' ∈ msgs ∧ keyMessage tx'.publicKey ∈ msgs) :
    tx.content = tx'.content := by
  have hmsg := hfree _ hmem.1 _ hmem'.1 (by
    rw [← txId_of_verified h, ← txId_of_verified h', hid])
  have hcontent := Borsh.encode_inj rfl rfl (List.append_cancel_left hmsg)
  simp only [transactionContent, Prod.mk.injEq] at hcontent
  obtain ⟨hsender, haction, hfee, hnonce, -⟩ := hcontent
  obtain ⟨key, hkey, hname⟩ := TransactionDispatcher.verifyTransaction_key h
  obtain ⟨key', hkey', hname'⟩ := TransactionDispatcher.verifyTransaction_key h'
  have hhash : P.blake3 (keyMessage tx.publicKey) = P.blake3 (keyMessage tx'.publicKey) := by
    rw [← hkey, ← hkey']
    exact congrArg ObjectId.hash (hname.trans (hsender.trans hname'.symm))
  have hpk := List.append_cancel_left (hfree _ hmem.2 _ hmem'.2 hhash)
  unfold Transaction.content
  rw [hsender, haction, hfee, hnonce, hpk]

open TransactionDispatcher in
/-- Verified transactions of one content have the same effect. -/
theorem applyTransaction_eq_of_verified {tx tx' : Transaction} (h : Verified P tx)
    (h' : Verified P tx') (hcontent : tx.content = tx'.content) (context : ExecutionContext)
    (ledger : Ledger) : applyTransaction P tx context mainnetChainId ledger =
      applyTransaction P tx' context mainnetChainId ledger := by
  have hdispatch : dispatch P tx context mainnetChainId ledger =
      dispatch P tx' context mainnetChainId ledger := by
    unfold Verified at h h'
    unfold dispatch
    rw [h, h']
    obtain ⟨txId, sender, action, fee, signature, signatureType, nonce, chainId, data, pk⟩ := tx
    obtain ⟨txId', sender', action', fee', signature', signatureType', nonce', chainId', data',
      pk'⟩ := tx'
    simp only [Transaction.content, Prod.mk.injEq] at hcontent
    obtain ⟨rfl, rfl, rfl, rfl, rfl⟩ := hcontent
    rfl
  unfold applyTransaction
  rw [hdispatch]

theorem verified_of_success {tx : Transaction} {context : ExecutionContext} {ledger : Ledger}
    (h : (TransactionDispatcher.applyTransaction P tx context mainnetChainId ledger).1.success =
      true) : Verified P tx := by
  unfold TransactionDispatcher.applyTransaction at h
  split at h
  · rename_i charged ledger' hrun
    exact (TransactionDispatcher.dispatch_eq_ok hrun).1
  · cases h

/-! ## Executing two bodies -/

/-- Whether a transaction succeeds on a ledger. -/
def Succeeds (P : Primitives) (context : ExecutionContext) (ledger : Ledger) (tx : Transaction) :
    Prop :=
  (TransactionDispatcher.applyTransaction P tx context mainnetChainId ledger).1.success = true

instance (context : ExecutionContext) (ledger : Ledger) (tx : Transaction) :
    Decidable (Succeeds P context ledger tx) :=
  inferInstanceAs (Decidable (_ = true))

/-- What becomes of transactions one after the other: the content of those that succeed. -/
def resultsFrom (P : Primitives) (context : ExecutionContext) : List Transaction → Ledger →
    List (Option (ObjectId × TransactionAction × FlakeAmount × UInt64 × List UInt8))
  | [], _ => []
  | tx :: txs, ledger =>
    (if Succeeds P context ledger tx then some tx.content else none) ::
      resultsFrom P context txs
        (TransactionDispatcher.applyTransaction P tx context mainnetChainId ledger).2

/-- No transaction is split between two bodies: whenever the turn of one comes, both versions
pass verification, or neither does, or neither would succeed anyway. -/
def Unsplit (P : Primitives) (context : ExecutionContext) :
    List Transaction → List Transaction → Ledger → Prop
  | tx :: txs, tx' :: txs', ledger =>
    ((Verified P tx ↔ Verified P tx') ∨
        ¬Succeeds P context ledger tx ∧ ¬Succeeds P context ledger tx') ∧
      Unsplit P context txs txs'
        (TransactionDispatcher.applyTransaction P tx context mainnetChainId ledger).2
  | _, _, _ => True

/-- A change that leaves verification as it was splits no transaction. -/
theorem Unsplit.map {context : ExecutionContext} {change : Transaction → Transaction}
    {txs : List Transaction} {ledger : Ledger}
    (h : ∀ tx ∈ txs, Verified P tx ↔ Verified P (change tx)) :
    Unsplit P context txs (txs.map change) ledger := by
  induction txs generalizing ledger with
  | nil => trivial
  | cons tx txs ih =>
    exact ⟨Or.inl (h tx List.mem_cons_self),
      ih fun t ht => h t (List.mem_cons_of_mem _ ht)⟩

theorem ledger_of_not_succeeds {context : ExecutionContext} {ledger : Ledger} {tx : Transaction}
    (h : ¬Succeeds P context ledger tx) :
    (TransactionDispatcher.applyTransaction P tx context mainnetChainId ledger).2 = ledger := by
  rcases TransactionDispatcher.applyTransaction_cases P tx context mainnetChainId ledger with
    ⟨hsuccess, -⟩ | ⟨-, hsame⟩
  · exact absurd hsuccess h
  · exact hsame

/-- At one position: both versions do the same, or neither does anything. -/
def SameTurn (P : Primitives) (context : ExecutionContext) (ledger : Ledger)
    (tx tx' : Transaction) : Prop :=
  tx.content = tx'.content ∧ TransactionDispatcher.applyTransaction P tx context mainnetChainId
      ledger = TransactionDispatcher.applyTransaction P tx' context mainnetChainId ledger ∨
    ¬Succeeds P context ledger tx ∧ ¬Succeeds P context ledger tx'

/-- Every transaction of two lists has its messages among `msgs`. -/
def MessagesIn (msgs : Set (List UInt8)) (txs : List Transaction) : Prop :=
  ∀ tx ∈ txs, txIdMessage tx ∈ msgs ∧ keyMessage tx.publicKey ∈ msgs

section Lists

variable {context : ExecutionContext} {msgs : Set (List UInt8)}

theorem sameTurn_iff {tx tx' : Transaction} (hfree : CollisionFree P.blake3 msgs)
    (hmem : txIdMessage tx ∈ msgs ∧ keyMessage tx.publicKey ∈ msgs)
    (hmem' : txIdMessage tx' ∈ msgs ∧ keyMessage tx'.publicKey ∈ msgs)
    (hid : tx.txId = tx'.txId) (ledger : Ledger) :
    ((Verified P tx ↔ Verified P tx') ∨
        ¬Succeeds P context ledger tx ∧ ¬Succeeds P context ledger tx') ↔
      SameTurn P context ledger tx tx' := by
  have hfails {tx : Transaction} (h : ¬Verified P tx) : ¬Succeeds P context ledger tx :=
    fun hsuccess => h (verified_of_success hsuccess)
  constructor
  · rintro (hverified | hneither)
    · by_cases h : Verified P tx
      · have h' := hverified.mp h
        have hcontent := h.content_eq h' hid hfree hmem hmem'
        exact Or.inl ⟨hcontent, applyTransaction_eq_of_verified h h' hcontent context ledger⟩
      · exact Or.inr ⟨hfails h, hfails (mt hverified.mpr h)⟩
    · exact Or.inr hneither
  · rintro (⟨-, hsame⟩ | hneither)
    · by_cases h : Succeeds P context ledger tx
      · have h' : Succeeds P context ledger tx' := by
          unfold Succeeds
          rw [← hsame]
          exact h
        exact Or.inl (iff_of_true (verified_of_success h) (verified_of_success h'))
      · refine Or.inr ⟨h, ?_⟩
        unfold Succeeds
        rw [← hsame]
        exact h
    · exact Or.inr hneither

theorem SameTurn.ledger_eq {ledger : Ledger} {tx tx' : Transaction}
    (h : SameTurn P context ledger tx tx') :
    (TransactionDispatcher.applyTransaction P tx' context mainnetChainId ledger).2 =
      (TransactionDispatcher.applyTransaction P tx context mainnetChainId ledger).2 := by
  rcases h with ⟨-, hsame⟩ | ⟨h, h'⟩
  · rw [hsame]
  · rw [ledger_of_not_succeeds h, ledger_of_not_succeeds h']

/-- Two versions have the same result exactly when they do the same. -/
theorem result_eq_iff {tx tx' : Transaction} {ledger : Ledger} :
    (if Succeeds P context ledger tx then some tx.content else none) =
        (if Succeeds P context ledger tx' then some tx'.content else none) ↔
      SameTurn P context ledger tx tx' := by
  constructor
  · intro h
    by_cases hs : Succeeds P context ledger tx
    · by_cases hs' : Succeeds P context ledger tx'
      · rw [if_pos hs, if_pos hs'] at h
        have hcontent := Option.some.inj h
        exact Or.inl ⟨hcontent, applyTransaction_eq_of_verified (verified_of_success hs)
          (verified_of_success hs') hcontent context ledger⟩
      · rw [if_pos hs, if_neg hs'] at h
        cases h
    · by_cases hs' : Succeeds P context ledger tx'
      · rw [if_neg hs, if_pos hs'] at h
        cases h
      · exact Or.inr ⟨hs, hs'⟩
  · rintro (⟨hcontent, hsame⟩ | ⟨hs, hs'⟩)
    · have hboth : Succeeds P context ledger tx ↔ Succeeds P context ledger tx' := by
        unfold Succeeds
        rw [hsame]
      rw [hcontent]
      exact if_congr hboth rfl rfl
    · rw [if_neg hs, if_neg hs']

/-- Two bodies have the same results exactly when no transaction is split between them. -/
theorem resultsFrom_eq_iff (hfree : CollisionFree P.blake3 msgs) {txs txs' : List Transaction}
    (hin : MessagesIn msgs txs) (hin' : MessagesIn msgs txs')
    (hcommitted : txs.map Transaction.committed = txs'.map Transaction.committed)
    (ledger : Ledger) :
    resultsFrom P context txs ledger = resultsFrom P context txs' ledger ↔
      Unsplit P context txs txs' ledger := by
  induction txs generalizing txs' ledger with
  | nil =>
    cases txs' with
    | nil => exact iff_of_true rfl trivial
    | cons tx' txs' => cases hcommitted
  | cons tx txs ih =>
    cases txs' with
    | nil => cases hcommitted
    | cons tx' txs' =>
      obtain ⟨hhead, htail⟩ := List.cons.inj hcommitted
      have hid : tx.txId = tx'.txId := congrArg Prod.fst hhead
      unfold resultsFrom Unsplit
      rw [List.cons.injEq, result_eq_iff, sameTurn_iff hfree (hin tx List.mem_cons_self)
        (hin' tx' List.mem_cons_self) hid ledger]
      refine and_congr_right fun hturn => ?_
      rw [hturn.ledger_eq]
      exact ih (fun t ht => hin t (List.mem_cons_of_mem _ ht))
        (fun t ht => hin' t (List.mem_cons_of_mem _ ht)) htail _

/-- A transaction that fails leaves the mempool and nothing else. -/
theorem executeTransaction_of_not_succeeds {header : BlockHeader} {tally : TxTally}
    {tx : Transaction} {node : OpolysNode}
    (h : ¬Succeeds P (executionContext header node.chain) node.ledger tx) :
    executeTransaction P header tally tx node =
      .ok tally { node with mempool := node.mempool.removeTransaction tx.txId } := by
  have hledger := ledger_of_not_succeeds h
  unfold Succeeds at h
  unfold executeTransaction
  rw [run_get_bind]
  generalize TransactionDispatcher.applyTransaction P tx (executionContext header node.chain)
    mainnetChainId node.ledger = out at h hledger ⊢
  obtain ⟨result, ledger⟩ := out
  dsimp only at h hledger ⊢
  obtain rfl := hledger
  unfold TxTally.count
  rw [if_neg h]
  rfl

theorem SameTurn.executeTransaction_eq {header : BlockHeader} {tx tx' : Transaction}
    {node : OpolysNode} (h : SameTurn P (executionContext header node.chain) node.ledger tx tx')
    (hid : tx.txId = tx'.txId) (hfee : tx.fee = tx'.fee) (tally : TxTally) :
    executeTransaction P header tally tx node = executeTransaction P header tally tx' node := by
  rcases h with ⟨-, hsame⟩ | ⟨hs, hs'⟩
  · unfold executeTransaction
    rw [run_get_bind, run_get_bind, hsame, hid, hfee]
  · rw [executeTransaction_of_not_succeeds hs, executeTransaction_of_not_succeeds hs', hid]

/-- Where no transaction is split, both bodies are executed alike. -/
theorem foldlM_executeTransaction_of_unsplit (hfree : CollisionFree P.blake3 msgs)
    {header : BlockHeader} {txs txs' : List Transaction} (hin : MessagesIn msgs txs)
    (hin' : MessagesIn msgs txs')
    (hcommitted : txs.map Transaction.committed = txs'.map Transaction.committed)
    (tally : TxTally) (node : OpolysNode)
    (h : Unsplit P (executionContext header node.chain) txs txs' node.ledger) :
    txs.foldlM (executeTransaction P header) tally node =
      txs'.foldlM (executeTransaction P header) tally node := by
  induction txs generalizing txs' tally node with
  | nil =>
    cases txs' with
    | nil => rfl
    | cons tx' txs' => cases hcommitted
  | cons tx txs ih =>
    cases txs' with
    | nil => cases hcommitted
    | cons tx' txs' =>
      obtain ⟨hhead, htail⟩ := List.cons.inj hcommitted
      obtain ⟨hid, hfee, -⟩ : tx.txId = tx'.txId ∧ tx.fee = tx'.fee ∧ tx.nonce = tx'.nonce := by
        simpa only [Transaction.committed, Prod.mk.injEq] using hhead
      unfold Unsplit at h
      obtain ⟨hturn, hrest⟩ := h
      have hturn := (sameTurn_iff hfree (hin tx List.mem_cons_self)
        (hin' tx' List.mem_cons_self) hid _).mp hturn
      have hone := hturn.executeTransaction_eq hid hfee tally
      rw [List.foldlM_cons, List.foldlM_cons]
      change EStateM.bind _ _ node = EStateM.bind _ _ node
      unfold EStateM.bind
      rw [← hone]
      cases hrun : executeTransaction P header tally tx node with
      | error message node1 => rfl
      | ok tally1 node1 =>
        obtain ⟨-, rfl⟩ := executeTransaction_eq_ok hrun
        exact ih (fun t ht => hin t (List.mem_cons_of_mem _ ht))
          (fun t ht => hin' t (List.mem_cons_of_mem _ ht)) htail tally1 _ hrest

end Lists

/-! ## Applying two bodies -/

/-- The results of the transactions of a call. -/
def resultsIn (P : Primitives) (node : OpolysNode) (call : Call) :
    List (Option (ObjectId × TransactionAction × FlakeAmount × UInt64 × List UInt8)) :=
  match openBlock P call.env call.block node with
  | .ok _ node' => resultsFrom P (executionContext call.block.header node'.chain)
      call.block.transactions node'.ledger
  | .error _ _ => []

/-- Two calls return the same, execute the same transactions and leave the same state. -/
structure SameEffect (P : Primitives) (node : OpolysNode) (call call' : Call) : Prop where
  outcome : node.outcome P call = node.outcome P call'
  results : resultsIn P node call = resultsIn P node call'
  state : (node.step P call).SameState (node.step P call')

/-- When execution is reached, no transaction is split between two bodies. -/
def BodyUnsplit (P : Primitives) (env : Env) (node : OpolysNode) (block block' : Block) : Prop :=
  ∀ opening opened, openBlock P env block node = .ok opening opened →
    Unsplit P (executionContext block.header opened.chain) block.transactions block'.transactions
      opened.ledger

/-- Before the transactions two valid bodies under the roots of one header are opened alike. -/
theorem Block.SameRoots.openBlock_eq {b b' : Block} (h : b.SameRoots b')
    (hbody : checkBody P b = .ok ()) (hbody' : checkBody P b' = .ok ()) (env : Env)
    (node : OpolysNode) : openBlock P env b node = openBlock P env b' node := by
  have hcheck : checkBlock P env b node = checkBlock P env b' node := by
    unfold checkBlock validateBlock
    rw [hbody, hbody', h.header]
  have hattest : processAttestations P b = processAttestations P b' := by
    unfold processAttestations
    rw [h.header, h.attestations]
  have hbegin (kind : BlockProductionKind) (bondedStake : FlakeAmount) :
      beginBlock P kind bondedStake b = beginBlock P kind bondedStake b' := by
    unfold beginBlock
    rw [h.header, h.evidence]
  unfold openBlock
  rw [run_get_bind, run_get_bind, run_get_bind, run_get_bind, hcheck, hattest, h.header]
  simp only [hbegin]

/-- Every transaction of a block has its messages among those of the block. -/
theorem messagesIn_messages {block : Block} {msgs : Set (List UInt8)} (h : block.messages ⊆ msgs) :
    MessagesIn msgs block.transactions := fun tx htx =>
  ⟨h (Or.inr ⟨tx, htx, Or.inl rfl⟩), h (Or.inr ⟨tx, htx, Or.inr rfl⟩)⟩

/-- Two valid bodies under one header have the same effect exactly when no transaction is split
between them: unless Blake3 collides, everything else is bound by the roots. -/
theorem body_bound_iff {env : Env} {node : OpolysNode} {block block' : Block}
    {height : BlockHeight} {parentHash : Hash} {parentTimestamp difficulty nowSecs : UInt64}
    (hheader : block.header = block'.header)
    (hvalid : validateBlock P block height parentHash parentTimestamp difficulty nowSecs =
      .ok ())
    (hvalid' : validateBlock P block' height parentHash parentTimestamp difficulty nowSecs =
      .ok ())
    (hfree : CollisionFree P.blake3 (block.messages ∪ block'.messages)) :
    SameEffect P node ⟨env, block⟩ ⟨env, block'⟩ ↔ BodyUnsplit P env node block block' := by
  have hbody := checkBody_eq_ok.mpr (validateBlock_eq_ok.mp hvalid).2.1
  have hbody' := checkBody_eq_ok.mpr (validateBlock_eq_ok.mp hvalid').2.1
  have hroots := (checkBody_eq_ok.mp hbody).2.sameRoots (checkBody_eq_ok.mp hbody').2 hheader hfree
  have hopen := hroots.openBlock_eq hbody hbody' env node
  have hin : MessagesIn (block.messages ∪ block'.messages) block.transactions :=
    messagesIn_messages Set.subset_union_left
  have hin' : MessagesIn (block.messages ∪ block'.messages) block'.transactions :=
    messagesIn_messages Set.subset_union_right
  constructor
  · intro heffect opening opened hrun
    have hresults := heffect.results
    have hrun' := hopen.symm.trans hrun
    unfold resultsIn at hresults
    dsimp only at hresults
    rw [hrun, hrun', ← hheader] at hresults
    exact (resultsFrom_eq_iff hfree hin hin' hroots.committed _).mp hresults
  · intro hunsplit
    have hlock : Lockstep (OpolysNode.Alike False) (applyBlock P env block)
        (applyBlock P env block') node node := by
      unfold applyBlock executeTransactions
      refine Agree.bind_same hopen (fun _ t _ => ⟨rfl, OpolysNode.Alike.refl t⟩) ?_
      intro opening opened hrun
      rw [← hheader]
      refine Agree.bind_same (foldlM_executeTransaction_of_unsplit hfree hin hin'
        hroots.committed {} opened (hunsplit opening opened hrun))
        (fun _ t _ => ⟨rfl, OpolysNode.Alike.refl t⟩) fun tally executed _ => ?_
      exact closeBlock_alike (OpolysNode.Alike.refl executed) block.header.powProof
        block.header.refinerSignature hheader.symm rfl tally rfl rfl nofun
    have hcalls : Lockstep (OpolysNode.Alike False)
        (applyBlock P (Call.mk env block).env (Call.mk env block).block)
        (applyBlock P (Call.mk env block').env (Call.mk env block').block) node node := hlock
    obtain ⟨houtcome, halike⟩ := OpolysNode.step_of_lockstep hcalls
    refine ⟨houtcome, ?_, halike.sameState⟩
    unfold resultsIn
    dsimp only
    rw [← hopen, ← hheader]
    cases hrun : openBlock P env block node with
    | error message node1 => rfl
    | ok opening opened =>
      exact (resultsFrom_eq_iff hfree hin hin' hroots.committed _).mpr
        (hunsplit opening opened hrun)

namespace Reference

/-- The first block of a chain, which carries a payment. -/
def payment : Block :=
  mine (start (config [(1, 1000000000)]) (some 1)) 0
    { transactions := signed 1 (.transfer (account 2) 5000) 10 0 }

/-- The block with other transactions under its header. -/
def payment.relayed (change : Transaction → Transaction) : Block :=
  { payment with transactions := payment.transactions.map change }

theorem payment.header_relayed (change : Transaction → Transaction) :
    (payment.relayed change).header = payment.header := by
  unfold payment.relayed
  rfl

end Reference

/-- A block to whose payment somebody has added a memo. It has the same effect. -/
theorem body_bound_of_reference :
    let start := Reference.start (Reference.config [(1, 1000000000)]) (some 1)
    let env := (Reference.call Reference.payment).env
    SameEffect Reference.primitives start ⟨env, Reference.payment⟩
      ⟨env, Reference.payment.relayed fun tx => { tx with data := [1, 2, 3] }⟩ := by
  intro start env
  let noted := Reference.payment.relayed fun tx => { tx with data := [1, 2, 3] }
  have hvalid : validateBlock Reference.primitives Reference.payment
      (start.chain.currentHeight + 1) start.chain.latestBlockHash
      (start.chain.blockTimestamps.getLast?.getD 0) start.expectedDifficulty env.nowSecs =
      .ok () := Effect.eq_ok_getD (a := ()) (by decide +kernel)
  have hvalid' : validateBlock Reference.primitives noted
      (start.chain.currentHeight + 1) start.chain.latestBlockHash
      (start.chain.blockTimestamps.getLast?.getD 0) start.expectedDifficulty env.nowSecs =
      .ok () := Effect.eq_ok_getD (a := ()) (by decide +kernel)
  have hmsgs : Reference.payment.messages ∪ noted.messages ⊆
      {m | m ∈ Reference.payment.messageList} :=
    Set.union_subset Reference.payment.messages_subset
      ((Reference.payment.messages_noted [1, 2, 3]).subset.trans Reference.payment.messages_subset)
  have hfree : CollisionFree Reference.primitives.blake3 {m | m ∈ Reference.payment.messageList} :=
    collisionFree_of_nodup (by decide +kernel)
  have hheader : Reference.payment.header = noted.header :=
    (Reference.payment.header_relayed _).symm
  refine (body_bound_iff hheader hvalid hvalid' (hfree.mono hmsgs)).mpr ?_
  · intro opening opened _
    have hall : ∀ t ∈ Reference.payment.transactions,
        (verifyTransaction Reference.primitives t mainnetChainId).toOption.isSome = true := by
      decide +kernel
    exact Unsplit.map fun t ht => iff_of_true (Effect.eq_ok_getD (a := ()) (hall t ht))
      (Effect.eq_ok_getD (a := ()) (hall t ht))

/-- A block whose payment has lost its signature on the way. It is still valid, and accepted,
but pays nothing. -/
theorem signature_not_bound :
    let start := Reference.start (Reference.config [(1, 1000000000)]) (some 1)
    let env := (Reference.call Reference.payment).env
    let stripped := Reference.payment.relayed fun tx => { tx with signature := [] }
    stripped.header = Reference.payment.header ∧
      checkBlock Reference.primitives env Reference.payment start = .ok .mined ∧
      checkBlock Reference.primitives env stripped start = .ok .mined ∧
      start.accepts Reference.primitives ⟨env, Reference.payment⟩ = true ∧
      start.accepts Reference.primitives ⟨env, stripped⟩ = true ∧
      (start.step Reference.primitives ⟨env, Reference.payment⟩).accounts.balanceOf
          (Reference.account 2) = 5000 ∧
      (start.step Reference.primitives ⟨env, stripped⟩).accounts.balanceOf
          (Reference.account 2) = 0 ∧
      ¬SameEffect Reference.primitives start ⟨env, Reference.payment⟩ ⟨env, stripped⟩ := by
  intro start env stripped
  have hpaid : (start.step Reference.primitives ⟨env, Reference.payment⟩).accounts.balanceOf
      (Reference.account 2) = 5000 := by decide +kernel
  have hunpaid : (start.step Reference.primitives ⟨env, stripped⟩).accounts.balanceOf
      (Reference.account 2) = 0 := by decide +kernel
  refine ⟨rfl, by decide +kernel, by decide +kernel, by decide +kernel, by decide +kernel, hpaid,
    hunpaid, fun heffect => ?_⟩
  rw [heffect.state.accounts, hunpaid] at hpaid
  cases hpaid

end Opolys
