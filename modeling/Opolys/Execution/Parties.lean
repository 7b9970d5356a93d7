import Opolys.Execution.Executed

/-!
# The parties of a transaction

A transaction that fails writes nothing. One that succeeds moves exactly what its action
says: its sender pays amount, fee and assay and advances its nonce, the recipient of a
transfer is credited, stake is bonded or queued, and nobody else is touched. A sender who
pays itself is both.

* `applyTransaction_atomic` : the two cases.
-/

namespace Opolys

open Effect

/-- The recipient of a transfer. -/
def Transaction.recipient (tx : Transaction) : Option ObjectId :=
  match tx.action with
  | .transfer recipient _ => some recipient
  | .refinerBond _ => none
  | .refinerUnbond _ => none

/-- The stake a refiner has bonded, 0 where there is none. -/
def RefinerSet.bondedBy (set : RefinerSet) (id : ObjectId) : ℕ :=
  ((set.getRefiner id).map RefinerInfo.stake).getD 0

theorem RefinerSet.bondedBy_of_getRefiner {set : RefinerSet} {id : ObjectId} {r : RefinerInfo}
    (h : set.getRefiner id = some r) : set.bondedBy id = r.stake := by
  rw [bondedBy, h]
  rfl

theorem RefinerSet.bondedBy_of_none {set : RefinerSet} {id : ObjectId}
    (h : set.getRefiner id = none) : set.bondedBy id = 0 := by
  rw [bondedBy, h]
  rfl

namespace TransactionDispatcher

/-! ## What is moved -/

/-- The assay of a transaction. -/
def assayOf (tx : Transaction) (context : ExecutionContext) (set : RefinerSet) : FlakeAmount :=
  match tx.action with
  | .transfer _ _ => 0
  | .refinerBond stake => bondAssay stake set context.totalIssuedFlakes
  | .refinerUnbond amount => unbondAssay amount set context.totalIssuedFlakes

/-- What leaves the balance of the sender. -/
def paid (tx : Transaction) (assay : FlakeAmount) : ℕ :=
  match tx.action with
  | .transfer _ amount => amount.toNat + tx.fee.toNat
  | .refinerBond stake => stake.toNat + tx.fee.toNat + assay.toNat
  | .refinerUnbond _ => tx.fee.toNat + assay.toNat

/-- What an account receives. -/
def received (tx : Transaction) (k : ObjectId) : ℕ :=
  match tx.action with
  | .transfer recipient amount => if recipient = k then amount.toNat else 0
  | .refinerBond _ => 0
  | .refinerUnbond _ => 0

/-- The balances after a transaction, and who has an account. -/
structure BalancesMoved (tx : Transaction) (assay : FlakeAmount)
    (accounts accounts' : AccountStore) : Prop where
  balance_eq : ∀ k, (accounts'.balanceOf k).toNat + (if tx.sender = k then paid tx assay else 0) =
    (accounts.balanceOf k).toNat + received tx k
  exists_iff : ∀ k, accounts'.contains k = true ↔
    accounts.contains k = true ∨ tx.recipient = some k
  others : ∀ k, tx.sender ≠ k → tx.recipient ≠ some k →
    accounts'.getAccount k = accounts.getAccount k

/-- The refiners after a transaction: stake is bonded, or goes from the stake of the sender to
the end of the queue. -/
structure StakeMoved (tx : Transaction) (context : ExecutionContext) (set set' : RefinerSet) :
    Prop where
  transfer : ∀ recipient amount, tx.action = .transfer recipient amount → set' = set
  bond : ∀ stake, tx.action = .refinerBond stake →
    set'.bondedBy tx.sender = set.bondedBy tx.sender + stake.toNat ∧
      set'.unbondingQueue = set.unbondingQueue
  unbond : ∀ amount, tx.action = .refinerUnbond amount →
    set'.bondedBy tx.sender + amount.toNat = set.bondedBy tx.sender ∧
      set'.unbondingQueue = set.unbondingQueue ++
        [⟨tx.sender, amount, MachineInt.saturatingAdd context.blockHeight epoch⟩]
  others : ∀ k, tx.sender ≠ k → set'.getRefiner k = set.getRefiner k ∧
    (k ∈ set'.activeSet ↔ k ∈ set.activeSet)

/-- Everything a successful transaction does. -/
structure Settled (tx : Transaction) (context : ExecutionContext) (ledger : Ledger)
    (result : ApplyResult) (ledger' : Ledger) : Prop where
  fee_eq : result.feeCharged = tx.fee
  assay_eq : result.assayBurned = assayOf tx context ledger.refiners
  sender : ledger.accounts.contains tx.sender = true
  balances : BalancesMoved tx result.assayBurned ledger.accounts ledger'.accounts
  nonce_eq : ∀ k, ledger'.accounts.nonceOf k =
    ledger.accounts.nonceOf k + if tx.sender = k then 1 else 0
  key_eq : ∀ k, ledger'.accounts.keyOf k =
    if tx.sender = k then some tx.publicKey else ledger.accounts.keyOf k
  stake : StakeMoved tx context ledger.refiners ledger'.refiners

/-! ## Accounts -/

theorem contains_put (store : AccountStore) (b : Account) (k : ObjectId) :
    Registry.contains (store.put b) k = true ↔ store.contains k = true ∨ b.objectId = k := by
  unfold Registry.contains
  rw [Registry.get?_put]
  split
  · rename_i h
    exact iff_of_true rfl (Or.inr h)
  · rename_i h
    rw [or_iff_left h]

theorem toNat_balanceOf_put (store : AccountStore) (b : Account) (k : ObjectId) :
    (AccountStore.balanceOf (store.put b) k).toNat =
      if b.objectId = k then b.balance.toNat else (store.balanceOf k).toNat := by
  unfold AccountStore.balanceOf
  rw [AccountStore.getAccount_eq, AccountStore.getAccount_eq, Registry.get?_put]
  by_cases h : b.objectId = k
  · rw [if_pos h, if_pos h]
  · rw [if_neg h, if_neg h]

/-- The sender of a bond or a withdrawal pays, and that is all. -/
theorem balancesMoved_put {tx : Transaction} {assay cost : FlakeAmount} {accounts : AccountStore}
    {a b : Account} (ha : accounts.get? tx.sender = some a) (hid : b.objectId = a.objectId)
    (hbalance : b.balance = a.balance - cost) (hcover : cost.toNat ≤ a.balance.toNat)
    (hcost : cost.toNat = paid tx assay) (hreceived : ∀ k, received tx k = 0)
    (hrecipient : tx.recipient = none) : BalancesMoved tx assay accounts (accounts.put b) := by
  have hname : a.objectId = tx.sender := Registry.name_of_get? ha
  have hb : b.objectId = tx.sender := hid.trans hname
  have hsub := MachineInt.toNat_sub_of_le hcover
  refine ⟨fun k => ?_, fun k => ?_, fun k hk _ => ?_⟩
  · rw [toNat_balanceOf_put, hreceived, hb]
    split
    · rename_i hk
      rw [← hk, AccountStore.balanceOf_of_get? ha, hbalance, hsub, ← hcost]
      omega
    · rfl
  · rw [contains_put, hb, hrecipient]
    constructor
    · rintro (h | rfl)
      · exact Or.inl h
      · exact Or.inl (by rw [Registry.contains, ha]; rfl)
    · rintro (h | h)
      · exact Or.inl h
      · cases h
  · rw [AccountStore.getAccount_eq, AccountStore.getAccount_eq, Registry.get?_put, hb, if_neg hk]

/-- A transfer takes from its sender, then credits its recipient. -/
theorem balancesMoved_transfer {tx : Transaction} {recipient : ObjectId} {amount : FlakeAmount}
    {accounts accounts' : AccountStore} (htx : tx.action = .transfer recipient amount)
    (h : AccountStore.Transferred accounts tx.sender recipient amount tx.fee accounts') :
    BalancesMoved tx 0 accounts accounts' := by
  obtain ⟨a, b, c, ha, hcover, -, rfl, hc, hroom, rfl⟩ := h
  have hname : a.objectId = tx.sender := Registry.name_of_get? ha
  have hcost : (amount + tx.fee).toNat = amount.toNat + tx.fee.toNat :=
    MachineInt.toNat_add_of_lt (by have := a.balance.toNat_lt; omega)
  have hsub := MachineInt.toNat_sub_of_le (a := a.balance) (b := amount + tx.fee) (by omega)
  have hadd := MachineInt.toNat_add_of_lt hroom
  set spent : Account := { a with balance := a.balance - (amount + tx.fee), nonce := a.nonce + 1 }
    with hspent
  have hspentName : spent.objectId = tx.sender := hname
  have hspentBalance : spent.balance.toNat = a.balance.toNat - (amount.toNat + tx.fee.toNat) := by
    rw [← hcost]
    exact hsub
  -- the recipient's balance after the sender has paid
  have hcname : c.objectId = recipient := by
    rw [hc]
    cases hr : (accounts.put spent).get? recipient with
    | none => rfl
    | some r => exact Registry.name_of_get? hr
  have hcbalance : c.balance.toNat = if tx.sender = recipient then spent.balance.toNat
      else (accounts.balanceOf recipient).toNat := by
    rw [hc, Registry.get?_put, hspentName]
    split
    · rfl
    · cases hr : accounts.get? recipient with
      | none =>
        rw [AccountStore.balanceOf_of_none hr]
        rfl
      | some r =>
        rw [AccountStore.balanceOf_of_get? hr]
        rfl
  have hbalance := AccountStore.balanceOf_of_get? ha
  have hpaid : paid tx 0 = amount.toNat + tx.fee.toNat := by rw [paid, htx]
  have hreceived (k : ObjectId) : received tx k = if recipient = k then amount.toNat else 0 := by
    rw [received, htx]
  have hto : tx.recipient = some recipient := by rw [Transaction.recipient, htx]
  refine ⟨fun k => ?_, fun k => ?_, fun k hk hne => ?_⟩
  · rw [toNat_balanceOf_put, toNat_balanceOf_put, hpaid, hreceived]
    dsimp only
    rw [hcname, hspentName, hadd, hcbalance]
    by_cases hrk : recipient = k <;> by_cases hsk : tx.sender = k
    · subst hrk
      rw [if_pos rfl, if_pos hsk, if_pos hsk, if_pos rfl, ← hsk, hbalance]
      omega
    · subst hrk
      rw [if_pos rfl, if_neg hsk, if_neg hsk, if_pos rfl, Nat.add_zero]
    · rw [if_neg hrk, if_pos hsk, if_pos hsk, if_neg hrk, ← hsk, hbalance]
      omega
    · rw [if_neg hrk, if_neg hsk, if_neg hsk, if_neg hrk]
  · rw [contains_put, contains_put, hto]
    dsimp only
    rw [hcname, hspentName, Option.some.injEq]
    constructor
    · rintro ((h | rfl) | h)
      · exact Or.inl h
      · exact Or.inl (by rw [Registry.contains, ha]; rfl)
      · exact Or.inr h
    · rintro (h | h)
      · exact Or.inl (Or.inl h)
      · exact Or.inr h
  · rw [hto, ne_eq, Option.some.injEq] at hne
    rw [AccountStore.getAccount_eq, AccountStore.getAccount_eq, Registry.get?_put]
    dsimp only
    rw [hcname, if_neg hne, Registry.get?_put, hspentName, if_neg hk]

/-- Storing a key moves no balance. -/
theorem BalancesMoved.rememberKey {tx : Transaction} {assay : FlakeAmount} {ledger : Ledger}
    {accounts : AccountStore} (h : BalancesMoved tx assay accounts ledger.accounts) :
    BalancesMoved tx assay accounts (TransactionDispatcher.rememberKey tx ledger).accounts := by
  unfold TransactionDispatcher.rememberKey
  split
  · exact h
  · dsimp only
    cases ha : ledger.accounts.get? tx.sender with
    | none =>
      rw [Registry.update_of_none ha]
      exact h
    | some a =>
      have hid : a.objectId = tx.sender := Registry.name_of_get? ha
      rw [Registry.update_of_some ha]
      refine ⟨fun k => ?_, fun k => ?_, fun k hk hne => ?_⟩
      · rw [← h.balance_eq k, toNat_balanceOf_put]
        dsimp only
        split
        · rename_i hk
          rw [← hk, hid, AccountStore.balanceOf_of_get? ha]
        · rfl
      · rw [contains_put, ← h.exists_iff k]
        refine or_iff_left_of_imp fun hk => ?_
        rw [← hk, Registry.contains, hid, ha]
        rfl
      · rw [← h.others k hk hne, AccountStore.getAccount_eq, AccountStore.getAccount_eq,
          Registry.get?_put]
        dsimp only
        rw [hid, if_neg hk]

theorem balancesMoved_of_action {tx : Transaction} {context : ExecutionContext}
    {ledger ledger' : Ledger} {charged : FlakeAmount × FlakeAmount} {a : Account}
    (ha : ledger.accounts.get? tx.sender = some a)
    (h : applyAction tx context ledger = .ok charged ledger') :
    charged.2 = assayOf tx context ledger.refiners ∧
      BalancesMoved tx charged.2 ledger.accounts ledger'.accounts := by
  unfold applyAction at h
  cases htx : tx.action with
  | transfer recipient amount =>
    rw [htx] at h
    obtain ⟨rfl, accounts, rfl, hmoved⟩ := applyTransfer_eq_ok h
    exact ⟨by rw [assayOf, htx], balancesMoved_transfer htx hmoved⟩
  | refinerBond stake =>
    rw [htx] at h
    obtain ⟨rfl, -, a, cost, ha, hcost, hcover, haccounts⟩ := applyBond_eq_ok h
    refine ⟨by rw [assayOf, htx], ?_⟩
    rw [haccounts]
    refine balancesMoved_put ha rfl rfl hcover ?_ (fun k => ?_) ?_
    · rw [hcost, paid, htx]
    · rw [received, htx]
    · rw [Transaction.recipient, htx]
  | refinerUnbond amount =>
    rw [htx] at h
    obtain ⟨rfl, -, cost, hcost, hcover, haccounts⟩ := applyUnbond_eq_ok ha h
    refine ⟨by rw [assayOf, htx], ?_⟩
    rw [haccounts]
    refine balancesMoved_put ha rfl rfl hcover ?_ (fun k => ?_) ?_
    · rw [hcost, paid, htx]
    · rw [received, htx]
    · rw [Transaction.recipient, htx]

/-! ## Refiners -/

theorem MovesStake.stakeMoved {tx : Transaction} {context : ExecutionContext}
    {set set' : RefinerSet} (h : MovesStake tx context set set') :
    StakeMoved tx context set set' := by
  unfold MovesStake at h
  cases htx : tx.action with
  | transfer recipient amount =>
    rw [htx] at h
    obtain rfl := h
    refine ⟨fun _ _ _ => rfl, fun _ he => ?_, fun _ he => ?_, fun k _ => ⟨rfl, Iff.rfl⟩⟩ <;>
      rw [htx] at he <;> cases he
  | refinerBond stake =>
    rw [htx] at h
    obtain ⟨r, hid, rfl, hsome, hnone⟩ := RefinerSet.bond_eq_ok h
    have hget (k : ObjectId) : RefinerSet.getRefiner
        { set with cachedRefiners := set.cachedRefiners.put r } k =
          if r.objectId = k then some r else set.getRefiner k := Registry.get?_put _ _ _
    refine ⟨fun _ _ he => ?_, fun stake' he => ⟨?_, rfl⟩, fun _ he => ?_, fun k hk => ⟨?_, Iff.rfl⟩⟩
    · rw [htx] at he
      cases he
    · rw [htx] at he
      cases he
      rw [RefinerSet.bondedBy_of_getRefiner (r := r) (by rw [hget, if_pos hid])]
      cases hr : set.getRefiner tx.sender with
      | none => rw [(hnone hr).1, RefinerSet.bondedBy_of_none hr, Nat.zero_add]
      | some r' => rw [(hsome r' hr).1, RefinerSet.bondedBy_of_getRefiner hr]
    · rw [htx] at he
      cases he
    · rw [hget, hid, if_neg hk]
  | refinerUnbond amount =>
    rw [htx] at h
    obtain ⟨-, r, r', hr, hid, hstake, hrecords, hqueue, hactive⟩ :=
      RefinerSet.unbondAmount_eq_ok h
    have hget (k : ObjectId) : set'.getRefiner k =
        if r'.objectId = k then some r' else set.getRefiner k := by
      unfold RefinerSet.getRefiner
      rw [hrecords, Registry.get?_put]
    refine ⟨fun _ _ he => ?_, fun _ he => ?_, fun amount' he => ⟨?_, ?_⟩, fun k hk => ⟨?_, ?_⟩⟩
    · rw [htx] at he
      cases he
    · rw [htx] at he
      cases he
    · rw [htx] at he
      cases he
      rw [RefinerSet.bondedBy_of_getRefiner (r := r') (by rw [hget, if_pos hid]),
        RefinerSet.bondedBy_of_getRefiner hr, hstake]
    · rw [htx] at he
      cases he
      exact hqueue
    · rw [hget, hid, if_neg hk]
    · rcases hactive with ⟨-, hsame⟩ | ⟨-, hfilter⟩
      · rw [hsame]
      · rw [hfilter, List.mem_filter, and_iff_left]
        exact decide_eq_true (Ne.symm hk)

/-! ## The whole transaction -/

/-- A transaction that fails leaves accounts and refiners as they were, one that succeeds does
exactly what its action says, to its parties only. -/
theorem applyTransaction_atomic (P : Primitives) (tx : Transaction) (context : ExecutionContext)
    (expectedChainId : UInt64) (ledger : Ledger) :
    let out := applyTransaction P tx context expectedChainId ledger
    (out.1.success = false ∧ out.2 = ledger) ∨
      (out.1.success = true ∧ Settled tx context ledger out.1 out.2) := by
  intro out
  have hout : applyTransaction P tx context expectedChainId ledger = out := rfl
  unfold applyTransaction at hout
  cases hrun : dispatch P tx context expectedChainId ledger with
  | error message ledger' =>
    rw [hrun] at hout
    have hsame := (dispatch_ends P tx context expectedChainId ledger).error hrun
    rw [← hout]
    exact Or.inl ⟨rfl, hsame⟩
  | ok charged ledger' =>
    rw [hrun] at hout
    rw [← hout]
    refine Or.inr ⟨rfl, ?_⟩
    have hexecuted := (dispatch_ends P tx context expectedChainId ledger).ok hrun
    have hkeys := keyOf_dispatch hrun
    have hstake := (movesStake_of_dispatch hrun).stakeMoved
    obtain ⟨-, ⟨a, ha⟩, ledger1, haction, rfl⟩ := dispatch_eq_ok hrun
    obtain ⟨hassay, hmoved⟩ := balancesMoved_of_action ha haction
    have hsender : ledger.accounts.contains tx.sender = true := by
      rw [Registry.contains, ha]
      rfl
    exact ⟨hexecuted.fee_eq, hassay, hsender, hmoved.rememberKey, hexecuted.nonce_eq, hkeys, hstake⟩

end TransactionDispatcher

end Opolys
