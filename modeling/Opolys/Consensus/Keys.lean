import Opolys.Consensus.Account

/-!
# Keys of the account store

An account is created without a key and shows one later. Credits, debits and transfers
leave the key under every id as it is, so that keys enter an account store only where a
key is written on purpose.
-/

namespace Opolys.AccountStore

/-- The key registered under an id. -/
def keyOf (store : AccountStore) (id : ObjectId) : Option (List UInt8) :=
  (store.get? id).bind Account.publicKey

@[simp] theorem keyOf_new (id : ObjectId) : new.keyOf id = none := by
  rw [keyOf, new, Registry.get?_empty]
  rfl

theorem keyOf_of_get? {store : AccountStore} {id : ObjectId} {a : Account}
    (h : store.get? id = some a) : store.keyOf id = a.publicKey := by
  rw [keyOf, h]
  rfl

theorem keyOf_eq_some {store : AccountStore} {id : ObjectId} {pk : List UInt8} :
    store.keyOf id = some pk ↔ ∃ a, store.getAccount id = some a ∧ a.publicKey = some pk :=
  Option.bind_eq_some_iff

theorem keyOf_put (store : AccountStore) (b : Account) (k : ObjectId) :
    keyOf (store.put b) k = if b.objectId = k then b.publicKey else store.keyOf k := by
  unfold keyOf
  rw [Registry.get?_put]
  split <;> rfl

/-- Writing an account with the key it had keeps all keys. -/
theorem keyOf_put_of_eq {store : AccountStore} {id : ObjectId} {a b : Account}
    (h : store.get? id = some a) (hid : b.objectId = id) (hkey : b.publicKey = a.publicKey)
    (k : ObjectId) : keyOf (store.put b) k = store.keyOf k := by
  rw [keyOf_put, hid, hkey]
  split
  · rename_i hk
    rw [← hk, keyOf_of_get? h]
  · rfl

/-- Rewriting an account without touching its key keeps all keys. -/
theorem keyOf_update (store : AccountStore) (id : ObjectId) {f : Account → Account}
    (hf : ∀ a, (f a).objectId = a.objectId ∧ (f a).publicKey = a.publicKey) (k : ObjectId) :
    keyOf (store.update id f) k = store.keyOf k := by
  cases h : store.get? id with
  | none => rw [Registry.update_of_none h]
  | some a =>
    rw [Registry.update_of_some h]
    have hid : a.objectId = id := Registry.name_of_get? h
    exact keyOf_put_of_eq h ((hf a).1.trans hid) (hf a).2 k

@[simp] theorem keyOf_withAccount (store : AccountStore) (id k : ObjectId) :
    (store.withAccount id).keyOf k = store.keyOf k := by
  cases h : store.get? id with
  | some a => rw [withAccount_of_some h]
  | none =>
    rw [withAccount_of_none h, keyOf_put, Account.objectId_new]
    split
    · rename_i hk
      rw [← hk, keyOf, h]
      rfl
    · rfl

theorem keyOf_credit {store store' : AccountStore} {id : ObjectId} {amount : FlakeAmount}
    (h : store.credit id amount = .ok store') (k : ObjectId) :
    store'.keyOf k = store.keyOf k := by
  obtain ⟨a, ha, -, rfl⟩ := credit_eq_ok.mp h
  have hid : a.objectId = id := Registry.name_of_get? ha
  exact keyOf_put_of_eq (b := { a with balance := a.balance + amount }) ha hid rfl k

theorem keyOf_debit {store store' : AccountStore} {id : ObjectId} {amount : FlakeAmount}
    (h : store.debit id amount = .ok store') (k : ObjectId) :
    store'.keyOf k = store.keyOf k := by
  obtain ⟨a, ha, -, rfl⟩ := debit_eq_ok.mp h
  have hid : a.objectId = id := Registry.name_of_get? ha
  exact keyOf_put_of_eq (b := { a with balance := a.balance - amount }) ha hid rfl k

/-- A transfer shows no key. -/
theorem Transferred.keyOf {store store' : AccountStore} {src dst : ObjectId}
    {amount fee : FlakeAmount} (h : Transferred store src dst amount fee store') (k : ObjectId) :
    store'.keyOf k = store.keyOf k := by
  obtain ⟨a, paid, b, ha, -, -, rfl, hb, -, rfl⟩ := h
  have hid : a.objectId = src := Registry.name_of_get? ha
  let paid : Account :=
    { a with balance := a.balance - (amount + fee), nonce := a.nonce + 1 }
  have hpaid : AccountStore.keyOf (store.put paid) k = store.keyOf k :=
    keyOf_put_of_eq (b := paid) ha hid rfl k
  -- the recipient has the key it had, or it is new and has none
  have hrec : (withAccount (store.put paid) dst).get? dst = some b := by
    rw [get?_withAccount, if_pos rfl, hb]
  have hbid : b.objectId = dst := Registry.name_of_get? hrec
  have hkey : b.publicKey = AccountStore.keyOf (store.put paid) dst := by
    rw [← keyOf_of_get? hrec, keyOf_withAccount]
  change AccountStore.keyOf ((store.put paid).put { b with balance := b.balance + amount }) k = _
  rw [keyOf_put]
  dsimp only
  split
  · rename_i hk
    rw [hkey, ← hbid, hk, hpaid]
  · exact hpaid

end Opolys.AccountStore
