import Opolys.Consensus.Account

/-!
# Balances and nonces of the account store

Two numbers describe what the account operations do: the exact sum of all balances, and
the nonce of every account, which is 0 where there is none. A credit adds to the sum, a
debit takes from it, and a transfer takes the fee. Only a transfer moves a nonce, and only
the sender's.
-/

namespace Opolys.AccountStore

/-- The exact sum of all balances. -/
def balances (store : AccountStore) : ℕ := Registry.total (fun a => a.balance.toNat) store

/-- The nonce under an id, 0 where there is no account. -/
def nonceOf (store : AccountStore) (id : ObjectId) : ℕ :=
  ((store.get? id).map fun a => a.nonce.toNat).getD 0

@[simp] theorem balances_new : new.balances = 0 := Registry.total_empty _

@[simp] theorem nonceOf_new (id : ObjectId) : new.nonceOf id = 0 := by
  rw [nonceOf, new, Registry.get?_empty]
  rfl

theorem nonceOf_of_get? {store : AccountStore} {id : ObjectId} {a : Account}
    (h : store.get? id = some a) : store.nonceOf id = a.nonce.toNat := by
  rw [nonceOf, h]
  rfl

theorem balance_le_balances {store : AccountStore} {id : ObjectId} {a : Account}
    (h : store.get? id = some a) : a.balance.toNat ≤ store.balances :=
  Registry.le_total (fun a : Account => a.balance.toNat) h

/-! ## Writing one account -/

theorem balances_put {store : AccountStore} {id : ObjectId} {a b : Account}
    (h : store.get? id = some a) (hid : b.objectId = id) :
    balances (store.put b) + a.balance.toNat = store.balances + b.balance.toNat :=
  Registry.total_put (fun a : Account => a.balance.toNat) (by rw [hid]; exact h)

theorem nonceOf_put (store : AccountStore) (b : Account) (k : ObjectId) :
    nonceOf (store.put b) k = if b.objectId = k then b.nonce.toNat else store.nonceOf k := by
  unfold nonceOf
  rw [Registry.get?_put]
  split <;> rfl

/-- Writing an account with the nonce it had keeps all nonces. -/
theorem nonceOf_put_of_eq {store : AccountStore} {id : ObjectId} {a b : Account}
    (h : store.get? id = some a) (hid : b.objectId = id) (hnonce : b.nonce = a.nonce)
    (k : ObjectId) : nonceOf (store.put b) k = store.nonceOf k := by
  rw [nonceOf_put, hid, hnonce]
  split
  · rename_i hk
    rw [← hk, nonceOf_of_get? h]
  · rfl

/-! ## The operations -/

@[simp] theorem balances_withAccount (store : AccountStore) (id : ObjectId) :
    (store.withAccount id).balances = store.balances := by
  cases h : store.get? id with
  | some a => rw [withAccount_of_some h]
  | none =>
    rw [withAccount_of_none h]
    exact (Registry.total_put_new _ (v := Account.new id) h).trans (Nat.zero_add _)

@[simp] theorem nonceOf_withAccount (store : AccountStore) (id k : ObjectId) :
    (store.withAccount id).nonceOf k = store.nonceOf k := by
  cases h : store.get? id with
  | some a => rw [withAccount_of_some h]
  | none =>
    rw [withAccount_of_none h, nonceOf_put, Account.objectId_new]
    split
    · rename_i hk
      rw [← hk, nonceOf, h]
      rfl
    · rfl

theorem balances_credit {store store' : AccountStore} {id : ObjectId} {amount : FlakeAmount}
    (h : store.credit id amount = .ok store') :
    store'.balances = store.balances + amount.toNat := by
  obtain ⟨a, ha, hlt, rfl⟩ := credit_eq_ok.mp h
  have hid : a.objectId = id := Registry.name_of_get? ha
  have hput := balances_put (b := { a with balance := a.balance + amount }) ha hid
  have hadd := MachineInt.toNat_add_of_lt hlt
  dsimp only at hput
  omega

theorem nonceOf_credit {store store' : AccountStore} {id : ObjectId} {amount : FlakeAmount}
    (h : store.credit id amount = .ok store') (k : ObjectId) :
    store'.nonceOf k = store.nonceOf k := by
  obtain ⟨a, ha, -, rfl⟩ := credit_eq_ok.mp h
  have hid : a.objectId = id := Registry.name_of_get? ha
  exact nonceOf_put_of_eq (b := { a with balance := a.balance + amount }) ha hid rfl k

theorem balances_debit {store store' : AccountStore} {id : ObjectId} {amount : FlakeAmount}
    (h : store.debit id amount = .ok store') :
    store'.balances + amount.toNat = store.balances := by
  obtain ⟨a, ha, hle, rfl⟩ := debit_eq_ok.mp h
  have hid : a.objectId = id := Registry.name_of_get? ha
  have hput := balances_put (b := { a with balance := a.balance - amount }) ha hid
  have hsub := MachineInt.toNat_sub_of_le hle
  dsimp only at hput
  omega

theorem nonceOf_debit {store store' : AccountStore} {id : ObjectId} {amount : FlakeAmount}
    (h : store.debit id amount = .ok store') (k : ObjectId) :
    store'.nonceOf k = store.nonceOf k := by
  obtain ⟨a, ha, -, rfl⟩ := debit_eq_ok.mp h
  have hid : a.objectId = id := Registry.name_of_get? ha
  exact nonceOf_put_of_eq (b := { a with balance := a.balance - amount }) ha hid rfl k

/-- Paying back a debit restores the store. -/
theorem credit_debit {store debited : AccountStore} {id : ObjectId} {amount : FlakeAmount}
    (h : store.debit id amount = .ok debited) : debited.credit id amount = .ok store := by
  obtain ⟨a, ha, hle, rfl⟩ := debit_eq_ok.mp h
  have hid : a.objectId = id := Registry.name_of_get? ha
  have hsub := MachineInt.toNat_sub_of_le hle
  have hlt := a.balance.toNat_lt
  refine credit_eq_ok.mpr ⟨{ a with balance := a.balance - amount }, ?_, ?_, ?_⟩
  · rw [Registry.get?_put, if_pos hid]
  · dsimp only
    omega
  · have hback : a.balance - amount + amount = a.balance := by
      rw [← UInt64.toNat_inj, MachineInt.toNat_add_of_lt (by omega)]
      omega
    dsimp only
    rw [hback, Registry.put_put]
    · exact (Registry.put_of_get? ha).symm
    · rfl

/-- A credit fails only for a missing account or an overflow. -/
theorem exists_credit {store : AccountStore} {id : ObjectId} {a : Account}
    (h : store.get? id = some a) {amount : FlakeAmount}
    (hlt : a.balance.toNat + amount.toNat < 2 ^ 64) :
    ∃ store', store.credit id amount = .ok store' :=
  ⟨_, credit_eq_ok.mpr ⟨a, h, hlt, rfl⟩⟩

/-- A transfer takes its fee from the balances and advances the sender's nonce. -/
theorem Transferred.balances_nonces {store store' : AccountStore} {src dst : ObjectId}
    {amount fee : FlakeAmount} (h : Transferred store src dst amount fee store') :
    store'.balances + fee.toNat = store.balances ∧
      ∀ k, store'.nonceOf k = store.nonceOf k + if src = k then 1 else 0 := by
  obtain ⟨a, paid, b, ha, hcover, hnlt, rfl, hb, hblt, rfl⟩ := h
  have hid : a.objectId = src := Registry.name_of_get? ha
  have hcost : (amount + fee).toNat = amount.toNat + fee.toNat :=
    MachineInt.toNat_add_of_lt (by have := a.balance.toNat_lt; omega)
  have hsub := MachineInt.toNat_sub_of_le (a := a.balance) (b := amount + fee) (by omega)
  let paid : Account :=
    { a with balance := a.balance - (amount + fee), nonce := a.nonce + 1 }
  have hpaid := balances_put (b := paid) ha hid
  rw [show paid.balance = a.balance - (amount + fee) from rfl] at hpaid
  have hnonces (k : ObjectId) : nonceOf (store.put paid) k =
      store.nonceOf k + if src = k then 1 else 0 := by
    rw [nonceOf_put, show paid.objectId = src from hid]
    split
    · rename_i hk
      rw [← hk, nonceOf_of_get? ha]
      exact MachineInt.toNat_add_of_lt hnlt
    · rfl
  -- the recipient is in the store the sender has paid from, or it is new
  have hrec : (withAccount (store.put paid) dst).get? dst = some b := by
    rw [get?_withAccount, if_pos rfl, hb]
  have hbid : b.objectId = dst := Registry.name_of_get? hrec
  have hstore : (store.put paid).put { b with balance := b.balance + amount } =
      (withAccount (store.put paid) dst).put { b with balance := b.balance + amount } := by
    cases hd : (store.put paid).get? dst with
    | some _ => rw [withAccount_of_some hd]
    | none =>
      rw [withAccount_of_none hd]
      exact (Registry.put_put _ (v := Account.new dst) hbid.symm).symm
  have hput := balances_put (b := { b with balance := b.balance + amount }) hrec hbid
  have hnput := nonceOf_put_of_eq (b := { b with balance := b.balance + amount }) hrec hbid rfl
  have hadd := MachineInt.toNat_add_of_lt hblt
  rw [balances_withAccount] at hput
  constructor
  · change balances ((store.put paid).put { b with balance := b.balance + amount }) + _ = _
    rw [hstore]
    dsimp only at hput
    omega
  · intro k
    change nonceOf ((store.put paid).put { b with balance := b.balance + amount }) k = _
    rw [hstore, hnput, nonceOf_withAccount, hnonces]

end Opolys.AccountStore
