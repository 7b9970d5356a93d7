import Opolys.Consensus.Balances
import Opolys.Consensus.Custody
import Opolys.Consensus.Keys
import Opolys.Execution.Dispatcher

/-!
# What a transaction does to the ledger

A transaction that fails writes nothing. One that succeeds was verified, carried the nonce
of its sender, takes its fee and its assay out of what the ledger holds, and advances the
nonce of its sender and of nobody else. The three handlers have this in common whatever
else they do, and it is all that the supply and the replay protection depend on.
-/

namespace Opolys

open Effect

/-- Everything the ledger holds: balances, stakes and withdrawals. -/
def Ledger.held (ledger : Ledger) : ℕ := ledger.accounts.balances + ledger.refiners.custody

namespace TransactionDispatcher

/-- What a handler has done when it succeeds: `charged` is the fee and the assay. -/
structure Charged (tx : Transaction) (ledger : Ledger) (charged : FlakeAmount × FlakeAmount)
    (ledger' : Ledger) : Prop where
  fee_eq : charged.1 = tx.fee
  held_eq : ledger'.held + charged.1.toNat + charged.2.toNat = ledger.held
  nonce_eq : ∀ k, ledger'.accounts.nonceOf k =
    ledger.accounts.nonceOf k + if tx.sender = k then 1 else 0

/-- A transaction that was verified, carried the right nonce and has been executed. -/
structure Executed (P : Primitives) (tx : Transaction) (expectedChainId : UInt64)
    (ledger : Ledger) (charged : FlakeAmount × FlakeAmount) (ledger' : Ledger) : Prop
    extends Charged tx ledger charged ledger' where
  verified : verifyTransaction P tx expectedChainId = .ok ()
  minFee_le : minFee.toNat ≤ tx.fee.toNat
  nonce_tx : ledger.accounts.nonceOf tx.sender = tx.nonce.toNat

/-! ## Handlers -/

theorem checkedAddAmounts_eq_ok {context : String} {a b c : FlakeAmount} :
    checkedAddAmounts context a b = .ok c ↔ c.toNat = a.toNat + b.toNat := by
  unfold checkedAddAmounts
  rw [← MachineInt.checkedAdd_eq_some]
  cases MachineInt.checkedAdd a b <;> simp

theorem checkedTotalCost_eq_ok {context : String} {amount fee assay cost : FlakeAmount}
    (h : checkedTotalCost context amount fee assay = .ok cost) :
    cost.toNat = amount.toNat + fee.toNat + assay.toNat := by
  unfold checkedTotalCost at h
  obtain ⟨sum, hsum, hcost⟩ := bind_eq_ok.mp h
  rw [checkedAddAmounts_eq_ok] at hsum hcost
  omega

theorem applyTransfer_ends (tx : Transaction) (recipient : ObjectId) (amount : FlakeAmount)
    (ledger : Ledger) :
    Ends (applyTransfer tx tx.sender recipient amount) ledger (Charged tx ledger)
      (fun _ ledger' => ledger' = ledger) := by
  unfold applyTransfer
  refine Ends.bind (R := fun _ ledger' => Charged tx ledger (tx.fee, 0) ledger')
    (Ends.within ?_) fun _ _ h => Ends.pure h
  refine (AccountStore.transfer_ends _ _ _ _ _).mono ?_ ?_
  · rintro _ accounts h
    obtain ⟨hbal, hnonce⟩ := h.balances_nonces
    exact ⟨rfl, by simp only [Ledger.held, UInt64.toNat_zero]; omega, hnonce⟩
  · rintro _ accounts rfl
    rfl

/-- Advancing the nonce of an account below the limit adds one to it. -/
theorem accounts_advanceNonce (ledger : Ledger) {sender : ObjectId} {a : Account}
    (h : ledger.accounts.get? sender = some a) (hlt : a.nonce.toNat + 1 < 2 ^ 64) :
    (advanceNonce sender ledger).accounts.balances = ledger.accounts.balances ∧
      ∀ k, (advanceNonce sender ledger).accounts.nonceOf k =
        ledger.accounts.nonceOf k + if sender = k then 1 else 0 := by
  have hid : a.objectId = sender := Registry.name_of_get? h
  let b : Account := { a with nonce := a.nonce + 1 }
  have hb : b.objectId = sender := hid
  have haccounts : (advanceNonce sender ledger).accounts = ledger.accounts.put b :=
    Registry.update_of_some h _
  rw [haccounts]
  constructor
  · have hput := AccountStore.balances_put h hb
    exact Nat.add_right_cancel hput
  · intro k
    rw [AccountStore.nonceOf_put, hb]
    split
    · rename_i hk
      rw [← hk, AccountStore.nonceOf_of_get? h]
      exact MachineInt.toNat_add_of_lt hlt
    · rfl

/-- A bond that is refused is paid back, and the refund cannot fail. -/
theorem settleBond_ends {sender : ObjectId} {cost : FlakeAmount} {ledger : Ledger}
    {debited : AccountStore} (hdebit : ledger.accounts.debit sender cost = .ok debited)
    (bonded : Except String RefinerSet) :
    Ends (settleBond sender cost bonded) { ledger with accounts := debited }
      (fun _ ledger' => ∃ refiners, bonded = .ok refiners ∧
        ledger' = { accounts := debited, refiners })
      (fun _ ledger' => ledger' = ledger) := by
  cases bonded with
  | ok refiners => exact Ends.modify_bind (Ends.pure ⟨refiners, rfl, rfl⟩)
  | error message =>
    refine Ends.get_bind ?_
    rw [AccountStore.credit_debit hdebit]
    exact Ends.modify_bind (Ends.throw rfl)

theorem applyBond_ends (tx : Transaction) (stake : FlakeAmount) (context : ExecutionContext)
    {ledger : Ledger} {a : Account} (ha : ledger.accounts.get? tx.sender = some a)
    (hlt : a.nonce.toNat + 1 < 2 ^ 64) :
    Ends (applyBond tx tx.sender stake context) ledger (Charged tx ledger)
      (fun _ ledger' => ledger' = ledger) := by
  unfold applyBond
  refine Ends.ensure_bind (fun _ => rfl) fun _ => ?_
  refine Ends.get_bind (Ends.ofExcept_bind (fun _ _ => rfl) fun cost hcost => ?_)
  refine Ends.get_bind (Ends.get_bind (Ends.ensure_bind (fun _ => rfl) fun _ => ?_))
  refine Ends.get_bind (Ends.ofExcept_bind (fun _ _ => rfl) fun debited hdebit => ?_)
  refine Ends.modify_bind (Ends.get_bind (Ends.bind (settleBond_ends hdebit _) ?_))
  rintro ⟨⟩ ledger' ⟨refiners, hbond, rfl⟩
  refine Ends.modify_bind (Ends.pure ?_)
  obtain ⟨a', ha', -, rfl⟩ := AccountStore.debit_eq_ok.mp hdebit
  obtain rfl : a = a' := Option.some.inj (ha.symm.trans ha')
  have hnonce := AccountStore.nonceOf_debit hdebit
  have hcustody : refiners.custody = ledger.refiners.custody + stake.toNat :=
    RefinerSet.custody_bond hbond
  have hcost := checkedTotalCost_eq_ok hcost
  have hid : a.objectId = tx.sender := Registry.name_of_get? ha
  let paid : Account := { a with balance := a.balance - cost }
  have hbal : AccountStore.balances (ledger.accounts.put paid) + cost.toNat =
      ledger.accounts.balances := AccountStore.balances_debit hdebit
  have hpaid : (ledger.accounts.put paid).get? tx.sender = some paid := by
    rw [Registry.get?_put, if_pos hid]
  obtain ⟨hbal', hnonce'⟩ := accounts_advanceNonce
    { accounts := ledger.accounts.put paid, refiners } hpaid hlt
  refine ⟨rfl, ?_, fun k => ?_⟩
  · unfold Ledger.held
    rw [hbal']
    change AccountStore.balances (ledger.accounts.put paid) + refiners.custody + _ + _ = _
    dsimp only
    omega
  · rw [hnonce', ← hnonce]

theorem applyUnbond_ends (tx : Transaction) (amount : FlakeAmount) (context : ExecutionContext)
    {ledger : Ledger} {a : Account} (ha : ledger.accounts.get? tx.sender = some a)
    (hlt : a.nonce.toNat + 1 < 2 ^ 64) :
    Ends (applyUnbond tx tx.sender amount context) ledger (Charged tx ledger)
      (fun _ ledger' => ledger' = ledger) := by
  unfold applyUnbond
  refine Ends.get_bind (Ends.ensure_bind (fun _ => rfl) fun _ => ?_)
  refine Ends.ensure_bind (fun _ => rfl) fun hamount => ?_
  refine Ends.get_bind (Ends.ofExcept_bind (fun _ _ => rfl) fun cost hcost => ?_)
  refine Ends.get_bind (Ends.get_bind (Ends.ensure_bind (fun _ => rfl) fun hpay => ?_))
  refine Ends.get_bind (Ends.ofExcept_bind (fun _ _ => rfl) fun out hout => ?_)
  obtain ⟨refiners, unbonded⟩ := out
  dsimp only
  refine Ends.modify_bind (Ends.ensure_bind (fun hzero => ?_) fun _ => ?_)
  · exact absurd (not_not.mp hzero) ((RefinerSet.unbondAmount_eq_ok hout).1 ▸ hamount)
  · refine Ends.modify_bind (Ends.modify_bind (Ends.pure ?_))
    have hcustody := RefinerSet.custody_unbondAmount hout
    rw [checkedAddAmounts_eq_ok] at hcost
    have hcover : cost.toNat ≤ a.balance.toNat := by
      unfold canPay at hpay
      rw [AccountStore.getAccount_eq, ha] at hpay
      exact UInt64.le_iff_toNat_le.mp (of_decide_eq_true hpay)
    have hid : a.objectId = tx.sender := Registry.name_of_get? ha
    let paid : Account := { a with balance := a.balance - cost }
    have hpaid : (ledger.accounts.put paid).get? tx.sender = some paid := by
      rw [Registry.get?_put, if_pos hid]
    have hbal := AccountStore.balances_put (b := paid) ha hid
    have hnonce := AccountStore.nonceOf_put_of_eq (b := paid) ha hid rfl
    have hsub := MachineInt.toNat_sub_of_le hcover
    obtain ⟨hbal', hnonce'⟩ := accounts_advanceNonce
      { accounts := ledger.accounts.put paid, refiners } hpaid hlt
    rw [Registry.update_of_some ha]
    refine ⟨rfl, ?_, fun k => ?_⟩
    · unfold Ledger.held
      rw [hbal']
      change AccountStore.balances (ledger.accounts.put paid) + refiners.custody + _ + _ = _
      rw [show paid.balance = a.balance - cost from rfl] at hbal
      dsimp only
      omega
    · rw [hnonce', hnonce]

theorem applyAction_ends (tx : Transaction) (context : ExecutionContext) {ledger : Ledger}
    {a : Account} (ha : ledger.accounts.get? tx.sender = some a)
    (hlt : a.nonce.toNat + 1 < 2 ^ 64) :
    Ends (applyAction tx context) ledger (Charged tx ledger)
      (fun _ ledger' => ledger' = ledger) := by
  unfold applyAction
  split
  · exact applyTransfer_ends tx _ _ ledger
  · exact applyBond_ends tx _ context ha hlt
  · exact applyUnbond_ends tx _ context ha hlt

/-! ## The dispatcher -/

/-- Storing a key moves no number. -/
theorem rememberKey_numbers (tx : Transaction) (ledger : Ledger) :
    (rememberKey tx ledger).held = ledger.held ∧
      ∀ k, (rememberKey tx ledger).accounts.nonceOf k = ledger.accounts.nonceOf k := by
  unfold rememberKey
  split
  · exact ⟨rfl, fun _ => rfl⟩
  · cases h : ledger.accounts.get? tx.sender with
    | none =>
      rw [Registry.update_of_none h]
      exact ⟨rfl, fun _ => rfl⟩
    | some a =>
      have hid : a.objectId = tx.sender := Registry.name_of_get? h
      let b : Account := { a with publicKey := some tx.publicKey }
      have hbal := AccountStore.balances_put (b := b) h hid
      rw [Registry.update_of_some h]
      refine ⟨?_, AccountStore.nonceOf_put_of_eq (b := b) h hid rfl⟩
      exact congrArg (· + ledger.refiners.custody) (Nat.add_right_cancel hbal)

/-- A transaction is executed in full or writes nothing. -/
theorem dispatch_ends (P : Primitives) (tx : Transaction) (context : ExecutionContext)
    (expectedChainId : UInt64) (ledger : Ledger) :
    Ends (dispatch P tx context expectedChainId) ledger
      (fun charged ledger' => Executed P tx expectedChainId ledger charged ledger')
      (fun _ ledger' => ledger' = ledger) := by
  unfold dispatch
  refine Ends.ofExcept_bind (fun _ _ => rfl) fun _ hver => ?_
  refine Ends.ensure_bind (fun _ => rfl) fun hfee => ?_
  refine Ends.get_bind (Ends.require_bind (fun _ => rfl) fun a ha => ?_)
  refine Ends.ensure_bind (fun _ => rfl) fun hnonce => ?_
  refine Ends.ensure_bind (fun _ => rfl) fun hroom => ?_
  rw [AccountStore.getAccount_eq] at ha
  obtain ⟨next, hnext⟩ := Option.isSome_iff_exists.mp hroom
  have hlt : a.nonce.toNat + 1 < 2 ^ 64 := (MachineInt.of_checkedAdd hnext).1
  refine Ends.bind (applyAction_ends tx context ha hlt) fun charged ledger' hch => ?_
  · obtain ⟨hheld, hnonces⟩ := rememberKey_numbers tx ledger'
    exact Ends.modify_bind (Ends.pure
      { fee_eq := hch.fee_eq
        held_eq := by rw [hheld, hch.held_eq]
        nonce_eq := fun k => by rw [hnonces, hch.nonce_eq]
        verified := hver
        minFee_le := UInt64.le_iff_toNat_le.mp hfee
        nonce_tx := by rw [AccountStore.nonceOf_of_get? ha, hnonce] })

/-- A transaction that succeeds was executed, one that fails leaves the ledger as it was. -/
theorem applyTransaction_cases (P : Primitives) (tx : Transaction) (context : ExecutionContext)
    (expectedChainId : UInt64) (ledger : Ledger) :
    let out := applyTransaction P tx context expectedChainId ledger
    (out.1.success = true ∧
      Executed P tx expectedChainId ledger (out.1.feeCharged, out.1.assayBurned) out.2) ∨
        (out.1.success = false ∧ out.2 = ledger) := by
  intro out
  have hends := dispatch_ends P tx context expectedChainId ledger
  simp only [out, applyTransaction]
  cases hd : dispatch P tx context expectedChainId ledger with
  | ok charged ledger' => exact Or.inl ⟨rfl, hends.ok hd⟩
  | error message ledger' => exact Or.inr ⟨rfl, hends.error hd⟩

/-! ## What a transaction does to the refiners -/

theorem dispatch_eq_ok {P : Primitives} {tx : Transaction} {context : ExecutionContext}
    {expectedChainId : UInt64} {ledger ledger' : Ledger} {charged : FlakeAmount × FlakeAmount}
    (h : dispatch P tx context expectedChainId ledger = .ok charged ledger') :
    verifyTransaction P tx expectedChainId = .ok () ∧
      (∃ a, ledger.accounts.get? tx.sender = some a) ∧
      ∃ ledger1, applyAction tx context ledger = .ok charged ledger1 ∧
        ledger' = rememberKey tx ledger1 := by
  unfold dispatch at h
  rw [run_ofExcept_bind_eq_ok] at h
  obtain ⟨⟨⟩, hverify, h⟩ := h
  rw [run_ensure_bind_eq_ok] at h
  obtain ⟨-, h⟩ := h
  rw [run_get_bind, run_require_bind_eq_ok] at h
  obtain ⟨account, haccount, h⟩ := h
  rw [run_ensure_bind_eq_ok] at h
  obtain ⟨-, h⟩ := h
  rw [run_ensure_bind_eq_ok] at h
  obtain ⟨-, h⟩ := h
  rw [run_bind_eq_ok] at h
  obtain ⟨charged', ledger1, haction, h⟩ := h
  rw [run_modify_bind, run_pure_eq_ok] at h
  obtain ⟨rfl, rfl⟩ := h
  exact ⟨hverify, ⟨account, haccount⟩, ledger1, haction, rfl⟩

/-- What an executed transaction does to the refiners: a bond adds the stake of its sender,
an unbond queues its withdrawal, a transfer does nothing. -/
def MovesStake (tx : Transaction) (context : ExecutionContext) (set set' : RefinerSet) : Prop :=
  match tx.action with
  | .transfer _ _ => set' = set
  | .refinerBond stake => set.bond tx.sender stake context.blockHeight context.blockTimestamp
      context.totalIssuedFlakes = .ok set'
  | .refinerUnbond amount =>
      set.unbondAmount tx.sender amount context.blockHeight = .ok (set', amount)

/-- A transfer that succeeds has moved its amount and charged no assay. -/
theorem applyTransfer_eq_ok {tx : Transaction} {recipient : ObjectId} {amount : FlakeAmount}
    {ledger ledger' : Ledger} {charged : FlakeAmount × FlakeAmount}
    (h : applyTransfer tx tx.sender recipient amount ledger = .ok charged ledger') :
    charged = (tx.fee, 0) ∧ ∃ accounts, ledger' = { ledger with accounts } ∧
      AccountStore.Transferred ledger.accounts tx.sender recipient amount tx.fee accounts := by
  unfold applyTransfer at h
  rw [run_within_bind_eq_ok] at h
  obtain ⟨result, accounts, htransfer, h⟩ := h
  obtain ⟨rfl, rfl⟩ := run_pure_eq_ok.mp h
  exact ⟨rfl, accounts, rfl, (AccountStore.transfer_ends _ _ _ _ _).ok htransfer⟩

/-- A bond that succeeds has taken stake, fee and assay from its sender. -/
theorem applyBond_eq_ok {tx : Transaction} {stake : FlakeAmount} {context : ExecutionContext}
    {ledger ledger' : Ledger} {charged : FlakeAmount × FlakeAmount}
    (h : applyBond tx tx.sender stake context ledger = .ok charged ledger') :
    charged = (tx.fee, bondAssay stake ledger.refiners context.totalIssuedFlakes) ∧
      ledger.refiners.bond tx.sender stake context.blockHeight context.blockTimestamp
        context.totalIssuedFlakes = .ok ledger'.refiners ∧
      ∃ a cost, ledger.accounts.get? tx.sender = some a ∧
        cost.toNat = stake.toNat + tx.fee.toNat + charged.2.toNat ∧
        cost.toNat ≤ a.balance.toNat ∧
        ledger'.accounts = ledger.accounts.put
          { a with balance := a.balance - cost, nonce := a.nonce + 1 } := by
  unfold applyBond at h
  rw [run_ensure_bind_eq_ok] at h
  obtain ⟨-, h⟩ := h
  rw [run_get_bind, run_ofExcept_bind_eq_ok] at h
  obtain ⟨cost, hcost, h⟩ := h
  rw [run_get_bind, run_get_bind, run_ensure_bind_eq_ok] at h
  obtain ⟨-, h⟩ := h
  rw [run_get_bind, run_ofExcept_bind_eq_ok] at h
  obtain ⟨debited, hdebit, h⟩ := h
  rw [run_modify_bind, run_get_bind, run_bind_eq_ok] at h
  obtain ⟨⟨⟩, ledger1, hsettle, h⟩ := h
  rw [run_modify_bind, run_pure_eq_ok] at h
  obtain ⟨rfl, rfl⟩ := h
  obtain ⟨refiners, hbond, rfl⟩ := (settleBond_ends hdebit _).ok hsettle
  obtain ⟨a, ha, hcover, rfl⟩ := AccountStore.debit_eq_ok.mp hdebit
  have hid : a.objectId = tx.sender := Registry.name_of_get? ha
  let paid : Account := { a with balance := a.balance - cost }
  have hpaid : (ledger.accounts.put paid).get? tx.sender = some paid := by
    rw [Registry.get?_put, if_pos hid]
  refine ⟨rfl, hbond, a, cost, ha, checkedTotalCost_eq_ok hcost, hcover, ?_⟩
  unfold advanceNonce
  dsimp only
  rw [Registry.update_of_some hpaid]
  exact Registry.put_put _ rfl

/-- A withdrawal that succeeds has taken fee and assay from its sender. -/
theorem applyUnbond_eq_ok {tx : Transaction} {amount : FlakeAmount}
    {context : ExecutionContext} {ledger ledger' : Ledger} {charged : FlakeAmount × FlakeAmount}
    {a : Account} (ha : ledger.accounts.get? tx.sender = some a)
    (h : applyUnbond tx tx.sender amount context ledger = .ok charged ledger') :
    charged = (tx.fee, unbondAssay amount ledger.refiners context.totalIssuedFlakes) ∧
      ledger.refiners.unbondAmount tx.sender amount context.blockHeight =
        .ok (ledger'.refiners, amount) ∧
      ∃ cost, cost.toNat = tx.fee.toNat + charged.2.toNat ∧ cost.toNat ≤ a.balance.toNat ∧
        ledger'.accounts = ledger.accounts.put
          { a with balance := a.balance - cost, nonce := a.nonce + 1 } := by
  unfold applyUnbond at h
  rw [run_get_bind, run_ensure_bind_eq_ok] at h
  obtain ⟨-, h⟩ := h
  rw [run_ensure_bind_eq_ok] at h
  obtain ⟨-, h⟩ := h
  rw [run_get_bind, run_ofExcept_bind_eq_ok] at h
  obtain ⟨cost, hcost, h⟩ := h
  rw [run_get_bind, run_get_bind, run_ensure_bind_eq_ok] at h
  obtain ⟨hpay, h⟩ := h
  rw [run_get_bind, run_ofExcept_bind_eq_ok] at h
  obtain ⟨⟨refiners, unbonded⟩, hunbond, h⟩ := h
  dsimp only at h
  rw [run_modify_bind, run_ensure_bind_eq_ok] at h
  obtain ⟨-, h⟩ := h
  rw [run_modify_bind, run_modify_bind, run_pure_eq_ok] at h
  obtain ⟨rfl, rfl⟩ := h
  obtain rfl := (RefinerSet.unbondAmount_eq_ok hunbond).1
  rw [checkedAddAmounts_eq_ok] at hcost
  have hcover : cost.toNat ≤ a.balance.toNat := by
    unfold canPay at hpay
    rw [AccountStore.getAccount_eq, ha] at hpay
    exact UInt64.le_iff_toNat_le.mp (of_decide_eq_true hpay)
  have hid : a.objectId = tx.sender := Registry.name_of_get? ha
  let paid : Account := { a with balance := a.balance - cost }
  have hpaid : (ledger.accounts.put paid).get? tx.sender = some paid := by
    rw [Registry.get?_put, if_pos hid]
  refine ⟨rfl, hunbond, cost, hcost, hcover, ?_⟩
  unfold advanceNonce
  dsimp only
  rw [Registry.update_of_some ha, Registry.update_of_some hpaid]
  exact Registry.put_put _ rfl

theorem rememberKey_refiners (tx : Transaction) (ledger : Ledger) :
    (rememberKey tx ledger).refiners = ledger.refiners := by
  unfold rememberKey
  split <;> rfl

/-- A transaction that is executed moves the stake its action names. -/
theorem movesStake_of_dispatch {P : Primitives} {tx : Transaction} {context : ExecutionContext}
    {expectedChainId : UInt64} {ledger ledger' : Ledger} {charged : FlakeAmount × FlakeAmount}
    (h : dispatch P tx context expectedChainId ledger = .ok charged ledger') :
    MovesStake tx context ledger.refiners ledger'.refiners := by
  obtain ⟨-, ⟨a, ha⟩, ledger1, haction, rfl⟩ := dispatch_eq_ok h
  rw [rememberKey_refiners]
  unfold applyAction at haction
  unfold MovesStake
  cases htx : tx.action with
  | transfer recipient amount =>
    rw [htx] at haction
    obtain ⟨-, accounts, rfl, -⟩ := applyTransfer_eq_ok haction
    rfl
  | refinerBond stake =>
    rw [htx] at haction
    exact (applyBond_eq_ok haction).2.1
  | refinerUnbond amount =>
    rw [htx] at haction
    exact (applyUnbond_eq_ok ha haction).2.1

/-- A transaction that succeeds moves the stake its action names. -/
theorem movesStake_of_success {P : Primitives} {tx : Transaction} {context : ExecutionContext}
    {expectedChainId : UInt64} {ledger : Ledger}
    (h : (applyTransaction P tx context expectedChainId ledger).1.success = true) :
    MovesStake tx context ledger.refiners
      (applyTransaction P tx context expectedChainId ledger).2.refiners := by
  unfold applyTransaction at h ⊢
  cases hd : dispatch P tx context expectedChainId ledger with
  | error message ledger' =>
    rw [hd] at h
    cases h
  | ok charged ledger' => exact movesStake_of_dispatch hd

/-- The key of a verified transaction belongs to its sender. -/
theorem verifyTransaction_key {P : Primitives} {tx : Transaction} {expectedChainId : UInt64}
    (h : verifyTransaction P tx expectedChainId = .ok ()) :
    ∃ key : Codec.FixedBytes 32, key.bytes = tx.publicKey ∧
      ed25519PublicKeyToObjectId P key = tx.sender := by
  unfold verifyTransaction at h
  rw [check_bind_eq_ok] at h
  obtain ⟨txId, -, h⟩ := bind_eq_ok.mp h.2
  rw [check_bind_eq_ok, check_bind_eq_ok] at h
  obtain ⟨-, -, h⟩ := h
  split at h
  · cases h
  · rename_i key hkey
    dsimp only at h
    rw [check_bind_eq_ok] at h
    exact ⟨key, Codec.FixedBytes.bytes_of_ofList? hkey, h.1.symm⟩

/-! ## What a transaction does to the keys -/

/-- The handlers show no key. -/
theorem applyAction_keys (tx : Transaction) (context : ExecutionContext) (ledger : Ledger) :
    Ends (applyAction tx context) ledger
      (fun _ ledger' => ∀ k, ledger'.accounts.keyOf k = ledger.accounts.keyOf k)
      (fun _ _ => True) := by
  have hadvance (ledger : Ledger) (k : ObjectId) :
      (advanceNonce tx.sender ledger).accounts.keyOf k = ledger.accounts.keyOf k :=
    AccountStore.keyOf_update (f := fun account => { account with nonce := account.nonce + 1 })
      ledger.accounts tx.sender (fun _ => ⟨rfl, rfl⟩) k
  unfold applyAction
  split
  · unfold applyTransfer
    refine Ends.bind (R := fun _ ledger' => ∀ k,
      ledger'.accounts.keyOf k = ledger.accounts.keyOf k) (Ends.within ?_) fun _ _ h => Ends.pure h
    refine (AccountStore.transfer_ends _ _ _ _ ledger.accounts).mono ?_ fun _ _ _ => trivial
    exact fun _ accounts h k => h.keyOf k
  · rename_i stake
    unfold applyBond
    refine Ends.ensure_bind (fun _ => trivial) fun _ => Ends.get_bind ?_
    refine Ends.ofExcept_bind (fun _ _ => trivial) fun cost _ => Ends.get_bind (Ends.get_bind ?_)
    refine Ends.ensure_bind (fun _ => trivial) fun _ => Ends.get_bind ?_
    refine Ends.ofExcept_bind (fun _ _ => trivial) fun debited hdebit => ?_
    refine Ends.modify_bind (Ends.get_bind (Ends.bind (settleBond_ends hdebit _ |>.mono
      (fun _ _ h => h) fun _ _ _ => trivial) ?_))
    rintro ⟨⟩ ledger' ⟨refiners, -, rfl⟩
    refine Ends.modify_bind (Ends.pure fun k => ?_)
    rw [hadvance]
    exact AccountStore.keyOf_debit hdebit k
  · rename_i amount
    unfold applyUnbond
    refine Ends.get_bind (Ends.ensure_bind (fun _ => trivial) fun _ => ?_)
    refine Ends.ensure_bind (fun _ => trivial) fun _ => Ends.get_bind ?_
    refine Ends.ofExcept_bind (fun _ _ => trivial) fun cost _ => Ends.get_bind (Ends.get_bind ?_)
    refine Ends.ensure_bind (fun _ => trivial) fun _ => Ends.get_bind ?_
    refine Ends.ofExcept_bind (fun _ _ => trivial) fun out _ => ?_
    obtain ⟨refiners, unbonded⟩ := out
    dsimp only
    refine Ends.modify_bind (Ends.ensure_bind (fun _ => trivial) fun _ => ?_)
    refine Ends.modify_bind (Ends.modify_bind (Ends.pure fun k => ?_))
    rw [hadvance]
    refine AccountStore.keyOf_update ledger.accounts tx.sender ?_ k
    exact fun _ => ⟨rfl, rfl⟩

/-- An executed transaction registers the key of its sender and no other. -/
theorem keyOf_dispatch {P : Primitives} {tx : Transaction} {context : ExecutionContext}
    {expectedChainId : UInt64} {ledger ledger' : Ledger} {charged : FlakeAmount × FlakeAmount}
    (h : dispatch P tx context expectedChainId ledger = .ok charged ledger') (k : ObjectId) :
    ledger'.accounts.keyOf k =
      if tx.sender = k then some tx.publicKey else ledger.accounts.keyOf k := by
  have hexecuted := (dispatch_ends P tx context expectedChainId ledger).ok h
  obtain ⟨hverify, -, ledger1, haction, rfl⟩ := dispatch_eq_ok h
  have hkeys := (applyAction_keys tx context ledger).ok haction
  obtain ⟨key, hkey, -⟩ := verifyTransaction_key hverify
  have hnonempty : tx.publicKey.isEmpty = false := by
    have hlength := key.length_bytes
    rw [hkey] at hlength
    rw [List.isEmpty_eq_false_iff, ← List.length_pos_iff]
    omega
  -- the sender is there, since its nonce has advanced
  have hnonce := hexecuted.nonce_eq tx.sender
  rw [if_pos rfl, (rememberKey_numbers tx ledger1).2] at hnonce
  cases ha : ledger1.accounts.get? tx.sender with
  | none =>
    unfold AccountStore.nonceOf at hnonce
    rw [ha, Option.map_none, Option.getD_none] at hnonce
    omega
  | some a =>
    have hid : a.objectId = tx.sender := Registry.name_of_get? ha
    unfold rememberKey
    rw [if_neg (by rw [hnonempty]; nofun)]
    dsimp only
    rw [Registry.update_of_some ha, AccountStore.keyOf_put, hkeys]
    dsimp only
    rw [hid]

end TransactionDispatcher

/-- The transactions that succeed when they are executed one after the other, and the
ledger after them. -/
def executedFrom (P : Primitives) (context : ExecutionContext) :
    List Transaction → Ledger → List Transaction × Ledger
  | [], ledger => ([], ledger)
  | tx :: txs, ledger =>
    let out := TransactionDispatcher.applyTransaction P tx context mainnetChainId ledger
    let rest := executedFrom P context txs out.2
    (if out.1.success then tx :: rest.1 else rest.1, rest.2)

end Opolys
