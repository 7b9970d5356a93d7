import Opolys.Node.LedgerInvariant
import Opolys.Node.StateRoot
import Opolys.Node.Supply

/-!
# When a block goes through

Once a block has passed validation, its attestations and the checks of its producer, nothing
of it can be refused any more: transactions that fail do not fail the block, and with closed
books no credit, no burn and no payment overflows. What remains is that every record must
still have an encoding when the state root is computed.
-/

namespace Opolys

open Codec (Borsh)
open Effect
open OpolysNode (Balanced Conserved)

variable {P : Primitives}

/-! ## Payments -/

/-- Planning credits adds them up, and no sum overflows while all of them together fit. -/
theorem exists_plannedCredits (entries : List (ObjectId × FlakeAmount)) (planned : PlannedCredits)
    (total : ℕ) (hplanned : ∀ k, (planned.getD k 0).toNat ≤ total)
    (hroom : total + (entries.map fun entry => entry.2.toNat).sum < 2 ^ 64) :
    ∃ planned', entries.foldlM (fun planned entry => addPlannedCredit planned entry.1 entry.2)
        planned = .ok planned' ∧
      ∀ k, (planned'.getD k 0).toNat ≤ total + (entries.map fun entry => entry.2.toNat).sum := by
  induction entries generalizing planned total with
  | nil => exact ⟨planned, rfl, hplanned⟩
  | cons entry entries ih =>
    obtain ⟨id, amount⟩ := entry
    rw [List.map_cons, List.sum_cons] at hroom ⊢
    dsimp only at hroom ⊢
    have hone : ∃ planned1, addPlannedCredit planned id amount = .ok planned1 ∧
        ∀ k, (planned1.getD k 0).toNat ≤ total + amount.toNat := by
      unfold addPlannedCredit
      split
      · exact ⟨planned, rfl, fun k => (hplanned k).trans (Nat.le_add_right _ _)⟩
      · have hle := hplanned id
        have hlt : (planned.getD id 0).toNat + amount.toNat < 2 ^ 64 := by omega
        rw [MachineInt.checkedAdd_of_lt hlt]
        refine ⟨_, rfl, fun k => ?_⟩
        rw [Std.ExtTreeMap.getD_insert]
        split
        · rw [MachineInt.toNat_add_of_lt hlt]
          omega
        · exact (hplanned k).trans (Nat.le_add_right _ _)
    obtain ⟨planned1, hadd, hbound⟩ := hone
    obtain ⟨planned', hrest, hbound'⟩ := ih planned1 (total + amount.toNat) hbound (by omega)
    refine ⟨planned', ?_, fun k => (hbound' k).trans (by omega)⟩
    rw [List.foldlM_cons, hadd]
    exact hrest

theorem ensurePlannedCreditsCreditable_eq_ok {accounts : AccountStore} {planned : PlannedCredits}
    (h : ∀ k, accounts.balances + (planned.getD k 0).toNat < 2 ^ 64) :
    ensurePlannedCreditsCreditable accounts planned = .ok () := by
  unfold ensurePlannedCreditsCreditable
  have hentries : ∀ entry ∈ planned.toList, accounts.balances + entry.2.toNat < 2 ^ 64 := by
    rintro ⟨id, amount⟩ hentry
    have hget := FiniteMap.mem_toList.mp hentry
    have hid := h id
    rwa [Std.ExtTreeMap.getD_eq_getD_getElem?, hget, Option.getD_some] at hid
  generalize planned.toList = entries at hentries
  rw [List.forM_eq_forM]
  induction entries with
  | nil => rfl
  | cons entry entries ih =>
    rw [List.forM_cons, canCredit_eq_ok (hentries entry List.mem_cons_self)]
    exact ih fun e he => hentries e (List.mem_cons_of_mem _ he)

/-- With closed books every matured withdrawal is paid. -/
theorem payMaturedUnbonds_succeeds {node : OpolysNode} (h : node.Conserved) :
    Ends payMaturedUnbonds node (fun _ node' => node'.Conserved) (fun _ _ => False) := by
  have hlt := node.chain.totalIssued.toNat_lt
  have hbooks := h
  unfold Conserved OpolysNode.Balanced OpolysNode.held at hbooks
  have hcustody := RefinerSet.custody_processMaturedUnbonds node.refiners
    node.chain.currentHeight (by omega)
  have hmatured : (node.refiners.processMaturedUnbonds node.chain.currentHeight).2 =
      node.refiners.maturedUnbonds node.chain.currentHeight := rfl
  rw [hmatured] at hcustody
  obtain ⟨planned, hplanned, hbound⟩ := exists_plannedCredits
    (node.refiners.maturedUnbonds node.chain.currentHeight) ∅ 0
    (fun k => by rw [Std.ExtTreeMap.getD_empty]; exact le_rfl) (by omega)
  unfold payMaturedUnbonds
  refine Ends.get_bind (Ends.get_bind (Ends.ofExcept_ok hplanned (Ends.get_bind ?_)))
  refine Ends.ofExcept_ok (ensurePlannedCreditsCreditable_eq_ok fun k => ?_) (Ends.get_bind ?_)
  · have hk := hbound k
    omega
  · generalize hout : node.refiners.processMaturedUnbonds node.chain.currentHeight = out
    rw [hout] at hcustody hmatured
    obtain ⟨refiners, drained⟩ := out
    dsimp only at hcustody hmatured
    subst hmatured
    refine Ends.modify_bind ((foldlM_creditOrCreateAccount_ends _ ?_).mono (fun _ _ h => h)
      fun _ _ h => h)
    unfold OpolysNode.Balanced OpolysNode.held
    dsimp only
    omega

/-! ## Encodings -/

/-- Every record has an encoding, and no refiner has more than `n` bonds. -/
structure Ledger.EncodableUpTo (n : ℕ) (ledger : Ledger) : Prop where
  keys : ∀ id pk, ledger.accounts.keyOf id = some pk → pk.length < 2 ^ 32
  bonds : ∀ id r, ledger.refiners.getRefiner id = some r → r.entries.length ≤ n

theorem mapM_borshToVec_of_fits {α : Type} [Borsh α] (what : String) (xs : List α)
    (h : ∀ x ∈ xs, Borsh.fits x = true) :
    ∃ encoded, xs.mapM (fun x => borshToVec what x) = .ok encoded := by
  induction xs with
  | nil => exact ⟨[], rfl⟩
  | cons x xs ih =>
    obtain ⟨encoded, hencoded⟩ := ih fun y hy => h y (List.mem_cons_of_mem _ hy)
    refine ⟨Borsh.encode x :: encoded, ?_⟩
    have hx : borshToVec what x = .ok (Borsh.encode x) :=
      borshToVec_eq_ok.mpr (Borsh.toVec_eq_some.mpr ⟨h x List.mem_cons_self, rfl⟩)
    rw [List.mapM_cons, hx, hencoded]
    rfl

namespace Ledger.EncodableUpTo

variable {n : ℕ}

theorem mono {ledger : Ledger} (h : ledger.EncodableUpTo n) {m : ℕ} (hle : n ≤ m) :
    ledger.EncodableUpTo m :=
  ⟨h.keys, fun id r hr => (h.bonds id r hr).trans hle⟩

/-- Only transactions bring longer keys or more bonds. -/
theorem kept (n : ℕ) : KeptByNode (EncodableUpTo n) where
  credit ledger _ _ _ h hcredit :=
    ⟨fun id pk hpk => h.keys id pk (by rw [← keyOf_creditOrCreateAccount hcredit]; exact hpk),
      h.bonds⟩
  perform operation h hinternal := by
    refine ⟨h.keys, fun id r' hr' => ?_⟩
    obtain ⟨r, hr, hbonds⟩ := RefinerSet.derives_perform _ hinternal id r' hr'
    have hlength := congrArg List.length hbonds
    rw [List.length_map, List.length_map] at hlength
    rw [hlength]
    exact h.bonds id r hr

theorem computeStateRoot {node : OpolysNode} (h : node.ledger.EncodableUpTo n)
    (hn : n < 2 ^ 32) : ∃ root, Opolys.computeStateRoot P node = .ok root := by
  have haccounts : ∀ a ∈ node.accounts.values, Borsh.fits a = true := by
    intro a ha
    have hkey := h.keys a.objectId
    unfold OpolysNode.ledger at hkey
    rw [AccountStore.keyOf_of_get? (Registry.mem_values.mp ha)] at hkey
    change (true && (true && (true && Borsh.fits a.publicKey))) = true
    rw [Bool.true_and, Bool.true_and, Bool.true_and]
    cases hpk : a.publicKey with
    | none => rfl
    | some pk => exact Borsh.fits_list.mpr ⟨hkey pk hpk, fun _ _ => rfl⟩
  have hrefiners : ∀ r ∈ node.refiners.cachedRefiners.values, Borsh.fits r = true := by
    intro r hr
    have hbonds : r.entries.length ≤ n := h.bonds r.objectId r (Registry.mem_values.mp hr)
    have hentries : Borsh.fits r.entries = true :=
      Borsh.fits_list.mpr ⟨lt_of_le_of_lt hbonds hn, fun _ _ => rfl⟩
    change (true && (Borsh.fits r.entries && true)) = true
    rw [hentries]
    rfl
  obtain ⟨accounts, haccounts⟩ := mapM_borshToVec_of_fits "Account" _ haccounts
  obtain ⟨refiners, hrefiners⟩ := mapM_borshToVec_of_fits "Refiner" _ hrefiners
  obtain ⟨queue, hqueue⟩ := mapM_borshToVec_of_fits "Unbonding entry"
    node.refiners.unbondingQueue fun _ _ => rfl
  unfold Opolys.computeStateRoot AccountStore.computeStateRoot RefinerSet.computeStateRoot
  rw [haccounts, hrefiners, hqueue]
  exact ⟨_, rfl⟩

/-- An executed transaction shows a key of 32 bytes and brings at most one bond. -/
theorem dispatch {ledger ledger' : Ledger} (h : ledger.EncodableUpTo n) {tx : Transaction}
    {context : ExecutionContext} {charged : FlakeAmount × FlakeAmount}
    (hrun : TransactionDispatcher.dispatch P tx context mainnetChainId ledger =
      .ok charged ledger') : ledger'.EncodableUpTo (n + 1) := by
  have hmoves := TransactionDispatcher.movesStake_of_dispatch hrun
  refine ⟨fun k pk hk => ?_, fun k r' hr' => ?_⟩
  · obtain ⟨key, hkey, -⟩ := TransactionDispatcher.verifyTransaction_key
      (TransactionDispatcher.dispatch_eq_ok hrun).1
    rw [TransactionDispatcher.keyOf_dispatch hrun] at hk
    split at hk
    · cases hk
      rw [← hkey, key.length_bytes]
      decide
    · exact h.keys k pk hk
  · unfold TransactionDispatcher.MovesStake at hmoves
    split at hmoves
    · rw [hmoves] at hr'
      exact (h.bonds k r' hr').trans (Nat.le_succ n)
    · obtain ⟨hothers, bonded, hbonded, hlength⟩ := RefinerSet.getRefiner_bond hmoves
      by_cases hk : k = tx.sender
      · rw [hk, hbonded] at hr'
        cases hr'
        cases hold : ledger.refiners.getRefiner tx.sender with
        | none =>
          rw [hold] at hlength
          exact hlength.trans (Nat.succ_le_succ (Nat.zero_le n))
        | some r =>
          rw [hold] at hlength
          exact hlength.trans (Nat.succ_le_succ (h.bonds tx.sender r hold))
      · rw [hothers k hk] at hr'
        exact (h.bonds k r' hr').trans (Nat.le_succ n)
    · obtain ⟨r, hr, hlength⟩ := RefinerSet.derives_unbondAmount hmoves k r' hr'
      exact (hlength.trans (h.bonds k r hr)).trans (Nat.le_succ n)

end Ledger.EncodableUpTo

theorem executeTransactions_encodable {n : ℕ} {header : BlockHeader} {txs : List Transaction}
    {tally : TxTally} {node : OpolysNode} (h : node.ledger.EncodableUpTo n) :
    Ends (txs.foldlM (executeTransaction P header) tally) node
      (fun _ node' => node'.ledger.EncodableUpTo (n + txs.length))
      (fun _ node' => node'.ledger.EncodableUpTo (n + txs.length)) := by
  induction txs generalizing n tally node with
  | nil => exact Ends.pure h
  | cons tx txs ih =>
    have hledger : Ledger.EncodableUpTo (n + 1) (TransactionDispatcher.applyTransaction P tx
        (executionContext header node.chain) mainnetChainId node.ledger).2 := by
      unfold TransactionDispatcher.applyTransaction
      split
      · rename_i charged ledger' hrun
        exact h.dispatch hrun
      · rename_i message ledger' hrun
        obtain rfl := (TransactionDispatcher.dispatch_ends P tx _ _ node.ledger).error hrun
        exact h.mono (Nat.le_succ n)
    rw [List.foldlM_cons]
    rw [List.length_cons, Nat.add_comm txs.length 1, ← Nat.add_assoc]
    refine Ends.bind (R := fun _ node' => node'.ledger.EncodableUpTo (n + 1)) ?_ ?_
    · unfold executeTransaction
      refine Ends.get_bind (Ends.modify_bind (Ends.ofExcept_bind ?_ ?_))
      · exact fun _ _ => hledger.mono (Nat.le_add_right _ _)
      · exact fun _ _ => Ends.modify_bind (Ends.pure hledger)
    · exact fun tally1 node1 h1 => ih h1

/-- However a call ends, a refiner has at most one bond more for every transaction. -/
theorem encodable_step {n : ℕ} {node : OpolysNode} (h : node.ledger.EncodableUpTo n)
    (call : Call) :
    (node.step P call).ledger.EncodableUpTo (n + call.block.transactions.length) := by
  have hends := (Ledger.EncodableUpTo.kept n).applyBlock (P := P)
    (Ledger.EncodableUpTo.kept (n + call.block.transactions.length))
    (fun _ h => h.mono (Nat.le_add_right _ _)) call.env executeTransactions_encodable h
  exact OpolysNode.step_of_ends
    (fun node => node.ledger.EncodableUpTo (n + call.block.transactions.length)) hends

/-! ## The whole block -/

/-- The reward of a block of a kind. -/
def OpolysNode.rewardOf (P : Primitives) (node : OpolysNode) (kind : BlockProductionKind)
    (header : BlockHeader) : RewardDistribution :=
  (blockReward P kind header node.chain node.refiners.totalBondedStake).2

theorem beginBlock_succeeds {kind : BlockProductionKind} {bondedStake : FlakeAmount}
    {block : Block} {node : OpolysNode} (hcons : node.Conserved)
    (hp : kind ≠ .genesis → block.header.producer.hash.isZero = false)
    (hd : kind = .mined → block.header.difficulty.toNat ≤ 256)
    (hroom : node.chain.totalIssued.toNat +
      (blockReward P kind block.header node.chain bondedStake).2.grossReward.toNat < 2 ^ 64) :
    Ends (beginBlock P kind bondedStake block) node
      (fun opening node' => Opened block.header opening node' ∧
        opening.reward = (blockReward P kind block.header node.chain bondedStake).2 ∧
        node'.chain.totalIssued = node.chain.totalIssued) (fun _ _ => False) := by
  have hreturns : Ends (beginBlock P kind bondedStake block) node (fun _ _ => True)
      (fun _ _ => False) := by
    unfold beginBlock
    refine Ends.get_bind (Ends.bind_run ?_ fun slashedBurned node1 hslash => ?_)
    · exact fun _ _ hfail => ((processSlashEvidence_ends block.slashEvidence hcons).error hfail)
    obtain ⟨hcons1, haccounts1, hissued1⟩ :=
      (processSlashEvidence_ends block.slashEvidence hcons).ok hslash
    have hbase1 : node1.chain.baseReward = node.chain.baseReward := by
      unfold processSlashEvidence at hslash
      cases hslash
      rfl
    refine Ends.bind_run ?_ fun newEvidence node2 hdetect => ?_
    · exact fun _ _ hfail => ((detectDoubleSign_ends block.header node1).error hfail)
    have hframe := (detectDoubleSign_frame block.header node1).ok hdetect
    have hcons2 := ((detectDoubleSign_ends block.header node1).ok hdetect).balanced hcons1
    have hreward : blockReward P kind block.header node2.chain bondedStake =
        blockReward P kind block.header node.chain bondedStake := by
      unfold blockReward
      rw [hframe]
      dsimp only
      rw [hbase1, hissued1]
    have hissued2 : node2.chain.totalIssued = node.chain.totalIssued := by
      rw [hframe]
      exact hissued1
    refine Ends.get_bind ?_
    rw [hreward]
    obtain ⟨hadds, -⟩ := blockReward_adds_up (P := P) node.chain bondedStake hd
    generalize blockReward P kind block.header node.chain bondedStake = parts at hadds hroom ⊢
    obtain ⟨veinYieldMilli, reward⟩ := parts
    dsimp only at hadds hroom ⊢
    unfold Conserved OpolysNode.Balanced OpolysNode.held at hcons2
    rw [hissued2] at hcons2
    obtain ⟨accounts, hcredit⟩ := exists_creditProducer node2.accounts block.header.producer
      reward.minerShare (by omega)
    exact Ends.get_bind (Ends.ofExcept_ok hcredit (Ends.modify_bind (Ends.pure trivial)))
  obtain ⟨opening, node', hrun, -⟩ := hreturns.exists_ok
  obtain ⟨-, -, -, hreward, -, hframe⟩ := beginBlock_eq_ok hrun
  have hopened := (beginBlock_ends hcons hp hd).ok hrun
  refine Ends.of_ok hrun ⟨hopened, hreward, ?_⟩
  rw [hframe]

/-- What is left of a block after its transactions cannot fail while the supply has room and
the records have encodings. -/
theorem closeBlock_succeeds {env : Env} {block : Block} {opening : Opening} {tally : TxTally}
    {chain : ChainState} {node : OpolysNode} {n : ℕ}
    (hroom : chain.totalIssued.toNat + opening.reward.grossReward.toNat < 2 ^ 64)
    (hadds : opening.reward.minerShare.toNat + opening.reward.mineAssay.toNat =
      opening.reward.grossReward.toNat)
    (hp : opening.kind = .refined → block.header.producer.hash.isZero = false)
    (hbooks : Executing chain opening.reward.minerShare.toNat tally node)
    (hencodable : node.ledger.EncodableUpTo n) (hn : n < 2 ^ 32) :
    Ends (closeBlock P env block opening tally) node (fun _ _ => True) (fun _ _ => False) := by
  obtain ⟨rfl, hbalanced, -, -⟩ := hbooks
  have hkept := Ledger.EncodableUpTo.kept n
  unfold closeBlock
  dsimp only
  refine Ends.bind (((settleFees_ends (by omega) hp hbalanced).and
    (hkept.toKeptByStages.settleFees env block.header opening tally _ hencodable)).mono
    (fun _ _ h => h)
      fun _ _ h => h.1) fun _ node1 h1 => ?_
  refine Ends.bind (((updateChain_ends (h1.1.2.symm ▸ hroom) hadds h1.1.1).and
    (KeptByStages.updateChain_ledger _ h1.2)).mono (fun _ _ h => h) fun _ _ h => h.1)
      fun _ node2 h2 => ?_
  refine Ends.bind (((payMaturedUnbonds_succeeds h2.1).and
    (hkept.toKeptByStages.payMaturedUnbonds h2.2)).mono (fun _ _ h => h) fun _ _ h => h.1)
    fun _ node3 h3 => ?_
  obtain ⟨root, hroot⟩ := (hkept.rankRefiners h3.2).computeStateRoot (P := P) hn
  refine Ends.modify_bind (Ends.get_bind (Ends.ofExcept_ok hroot ?_))
  exact Ends.modify_bind (Ends.modify_bind (Ends.modify_bind (Ends.pure trivial)))

/-- A block that passes validation, whose attestations and producer are in order, is
accepted while the supply has room and the records have encodings. -/
theorem applyBlock_succeeds {env : Env} {block : Block} {node finalized : OpolysNode}
    {kind : BlockProductionKind} {n : ℕ} (hcons : node.Conserved)
    (hcheck : checkBlock P env block node = .ok kind)
    (hattest : processAttestations P block node = .ok () finalized)
    (hproducer : checkProducer P kind block.header finalized = .ok ())
    (hroom : node.chain.totalIssued.toNat +
      (node.rewardOf P kind block.header).grossReward.toNat < 2 ^ 64)
    (hencodable : node.ledger.EncodableUpTo n)
    (hbonds : n + block.transactions.length < 2 ^ 32) :
    ∃ hash node', applyBlock P env block node = .ok hash node' := by
  obtain ⟨-, hp, hproof⟩ := checkBlock_eq_ok hcheck
  have hkept := Ledger.EncodableUpTo.kept n
  have hfinalized := (processAttestations_ends block node).ok hattest
  have hledger := (hkept.toKeptByStages.processAttestations block hencodable).ok hattest
  have hreward : blockReward P kind block.header finalized.chain node.refiners.totalBondedStake =
      blockReward P kind block.header node.chain node.refiners.totalBondedStake := by
    obtain ⟨log, attested, hloop, rfl⟩ := processAttestations_eq_ok hattest
    rw [attested_frame hloop]
    rfl
  have hopens : Ends (openBlock P env block) node (fun opening node' =>
      Opened block.header opening node' ∧ node'.ledger.EncodableUpTo n ∧
        node'.chain.totalIssued.toNat + opening.reward.grossReward.toNat < 2 ^ 64)
      (fun _ _ => False) := by
    unfold openBlock
    refine Ends.get_bind (Ends.get_bind (Ends.ofExcept_ok hcheck ?_))
    refine Ends.bind (Ends.of_ok (Q := fun _ node' => finalized = node') hattest rfl) ?_
    rintro _ _ rfl
    refine Ends.get_bind (Ends.ofExcept_ok hproducer ?_)
    have hroom' : finalized.chain.totalIssued.toNat + (blockReward P kind block.header
        finalized.chain node.refiners.totalBondedStake).2.grossReward.toNat < 2 ^ 64 := by
      rw [hreward, hfinalized.issued_eq]
      exact hroom
    have hbegins := beginBlock_succeeds (hfinalized.balanced hcons) hp
      (fun hk => difficulty_le_of_verifyPowLight (hproof hk)) hroom'
    refine (hbegins.and (hkept.toKeptByStages.beginBlock kind node.refiners.totalBondedStake block
      hledger)).mono ?_ fun _ _ h => h.1
    rintro opening node' ⟨⟨hopened, hopening, hissued⟩, hopenedLedger⟩
    refine ⟨hopened, hopenedLedger, ?_⟩
    rw [hopening, hissued, hfinalized.issued_eq, hreward]
    exact hroom
  have hends : Ends (applyBlock P env block) node (fun _ _ => True) (fun _ _ => False) := by
    unfold applyBlock
    refine Ends.bind hopens fun opening node1 ⟨hopened, hledger1, hroom1⟩ => ?_
    have hadds := hopened.adds_up
    have hexecutes : Ends (executeTransactions P block) node1
        (Executing node1.chain opening.reward.minerShare.toNat) (fun _ _ => False) :=
      executeTransactions_ends (by omega) hopened.balanced
    refine Ends.bind ((hexecutes.and (executeTransactions_encodable hledger1)).mono
      (fun _ _ h => h) fun _ _ h => h.1) fun tally node2 ⟨hbooks, hledger2⟩ => ?_
    exact closeBlock_succeeds hroom1 hadds hopened.producer_ne_zero hbooks hledger2 hbonds
  obtain ⟨hash, node', hrun, -⟩ := hends.exists_ok
  exact ⟨hash, node', hrun⟩

/-! ## What is refused -/

/-- There is room for a call, whether its block is accepted or not: in the supply for the reward,
and in the records for the bonds of its transactions. -/
structure OpolysNode.Spacious (P : Primitives) (node : OpolysNode) (call : Call) : Prop where
  supply : ∀ kind, checkBlock P call.env call.block node = .ok kind →
    node.chain.totalIssued.toNat + (node.rewardOf P kind call.block.header).grossReward.toNat <
      2 ^ 64
  records : ∃ n, node.ledger.EncodableUpTo n ∧ n + call.block.transactions.length < 2 ^ 32

/-- With closed books a block is refused by a check, when nothing but votes has been counted. -/
theorem votesOnly_of_rejects {node : OpolysNode} {call : Call} (hcons : node.Conserved)
    (hroom : node.Spacious P call) (h : node.accepts P call = false) :
    node.VotesOnly (node.step P call) := by
  obtain ⟨message, hrun⟩ := OpolysNode.rejects_eq h
  rcases (applyBlock_rejects call.env call.block node).error hrun with
    hsame | ⟨kind, hcheck, ⟨message, hattest⟩ | ⟨finalized, hattest, hstopped | ⟨hproducer, -⟩⟩⟩
  · rw [hsame]
    exact OpolysNode.VotesOnly.refl node
  · exact (processAttestations_votes call.block node).error hattest
  · rw [hstopped]
    exact (processAttestations_votes call.block node).ok hattest
  · obtain ⟨n, hencodable, hbonds⟩ := hroom.records
    obtain ⟨hash, node', haccepted⟩ := applyBlock_succeeds hcons hcheck hattest hproducer
      (hroom.supply kind hcheck) hencodable hbonds
    rw [haccepted] at hrun
    cases hrun

/-- What a block is paid when it is opened. -/
theorem openBlock_reward {env : Env} {block : Block} {node node' : OpolysNode} {opening : Opening}
    (h : openBlock P env block node = .ok opening node') :
    opening.reward = node.rewardOf P opening.kind block.header ∧
      node'.chain.totalIssued = node.chain.totalIssued := by
  unfold openBlock at h
  rw [run_get_bind, run_get_bind, run_ofExcept_bind_eq_ok] at h
  obtain ⟨kind, -, h⟩ := h
  rw [run_bind_eq_ok] at h
  obtain ⟨⟨⟩, finalized, hattest, h⟩ := h
  rw [run_get_bind, run_ofExcept_bind_eq_ok] at h
  obtain ⟨⟨⟩, -, h⟩ := h
  obtain ⟨rfl, -, -, hreward, -, hframe⟩ := beginBlock_eq_ok h
  obtain ⟨log, attested, hloop, rfl⟩ := processAttestations_eq_ok hattest
  rw [hreward, hframe, attested_frame hloop]
  exact ⟨rfl, rfl⟩

theorem OpolysNode.Spacious.supplyRoom {node : OpolysNode} {call : Call}
    (h : node.Spacious P call) : SupplyRoom P node call := by
  intro opening node' hopen
  obtain ⟨hreward, hissued⟩ := openBlock_reward hopen
  rw [hreward, hissued]
  exact h.supply opening.kind (openBlock_check hopen)

end Opolys
