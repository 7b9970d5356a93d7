import Opolys.Crypto.Hash
import Opolys.Library.Registry
import Opolys.Library.Effect

/-!
# Accounts

The account store: balances in Flakes, nonces against replay, and the public key an
account has shown. Credits and debits are checked, and a transfer moves an amount from
one account to another while it takes a fee from the sender.

* `AccountStore.transfer_ends` : a transfer either moves the amount or writes nothing.
* `AccountStore.computeStateRoot` : the hash of all accounts in the order of their ids.
-/

namespace Opolys

open Codec (Borsh)
open MachineInt (checkedAdd)
open Effect (require ensure Ends)

/-- An account of the ledger. -/
@[ext] structure Account where
  objectId : ObjectId
  balance : FlakeAmount
  /-- The nonce the account's next transaction must carry. -/
  nonce : UInt64
  /-- The ed25519 key, once known. -/
  publicKey : Option (List UInt8)
deriving DecidableEq

namespace Account

instance : Borsh Account :=
  Borsh.ofFields (fun a => (a.objectId, a.balance, a.nonce, a.publicKey))
    (by rintro ⟨⟩ ⟨⟩ h; simpa using h)

/-- An account without funds, transactions or key. -/
def new (objectId : ObjectId) : Account :=
  { objectId, balance := 0, nonce := 0, publicKey := none }

@[simp] theorem objectId_new (id : ObjectId) : (new id).objectId = id := rfl

@[simp] theorem balance_new (id : ObjectId) : (new id).balance = 0 := rfl

@[simp] theorem nonce_new (id : ObjectId) : (new id).nonce = 0 := rfl

end Account

/-- All accounts by their ids. -/
abbrev AccountStore := Registry Account.objectId

/-- The outcome of a transfer. -/
structure TransferResult where
  amount : FlakeAmount
  feeBurned : FlakeAmount
  newNonce : UInt64
deriving DecidableEq

namespace AccountStore

/-- The store without accounts. -/
def new : AccountStore := Registry.empty

def allAccounts (store : AccountStore) : List Account := store.values

def loadFromAccounts (accounts : List Account) : AccountStore := Registry.ofList accounts

def getAccount (store : AccountStore) (objectId : ObjectId) : Option Account :=
  store.get? objectId

/-- The balance under an id, 0 where there is no account. -/
def balanceOf (store : AccountStore) (objectId : ObjectId) : FlakeAmount :=
  match store.getAccount objectId with
  | some account => account.balance
  | none => 0

/-- The store with an account under `objectId`, created where there is none. -/
def withAccount (store : AccountStore) (objectId : ObjectId) : AccountStore :=
  if store.contains objectId then store else store.put (Account.new objectId)

/-- Register a new account. -/
def createAccount (store : AccountStore) (objectId : ObjectId) :
    Except OpolysError AccountStore :=
  if store.contains objectId then
    .error (.invalidParams s!"Account already exists: {objectId.toHex}")
  else
    .ok (store.put (Account.new objectId))

/-- Add to a balance, unless the sum overflows. -/
def credit (store : AccountStore) (objectId : ObjectId) (amount : FlakeAmount) :
    Except OpolysError AccountStore :=
  match store.getAccount objectId with
  | none => .error (.accountNotFound objectId.toHex)
  | some account =>
    match checkedAdd account.balance amount with
    | none => .error (.invalidParams
        s!"Balance overflow when crediting {amount} flakes to {objectId.toHex}")
    | some balance => .ok (store.put { account with balance })

/-- Whether `amount` can be credited. An account that does not exist would be created. -/
def canCredit (store : AccountStore) (objectId : ObjectId) (amount : FlakeAmount) :
    Except OpolysError Unit :=
  match store.getAccount objectId with
  | none => .ok ()
  | some account =>
    match checkedAdd account.balance amount with
    | none => .error (.invalidParams
        s!"Balance overflow when crediting {amount} flakes to {objectId.toHex}")
    | some _ => .ok ()

/-- Take from a balance that covers the amount. -/
def debit (store : AccountStore) (objectId : ObjectId) (amount : FlakeAmount) :
    Except OpolysError AccountStore :=
  match store.getAccount objectId with
  | none => .error (.accountNotFound objectId.toHex)
  | some account =>
    if account.balance < amount then
      .error (.insufficientBalance amount account.balance)
    else
      .ok (store.put { account with balance := account.balance - amount })

/-- Move `amount` from `src` to `dst` and take `fee` from `src`. The recipient is created
when it does not exist. -/
def transfer (src dst : ObjectId) (amount fee : FlakeAmount) :
    EStateM OpolysError AccountStore TransferResult := do
  let totalNeeded ← require (checkedAdd amount fee)
    (.invalidParams s!"Transfer cost overflow: amount {amount} + fee {fee}")
  let srcAccount ← require ((← get).getAccount src) (.accountNotFound src.toHex)
  ensure (totalNeeded ≤ srcAccount.balance)
    (.insufficientBalance totalNeeded srcAccount.balance)
  let newNonce ← require (checkedAdd srcAccount.nonce 1) (.invalidParams "Nonce overflow")
  modify fun store => store.withAccount dst
  ensure (src = dst ∨ (checkedAdd ((← get).balanceOf dst) amount).isSome)
    (.invalidParams s!"Recipient balance overflow when crediting {amount} flakes to {dst.toHex}")
  modify fun store => store.update src fun account =>
    { account with balance := account.balance - totalNeeded, nonce := newNonce }
  let balance ← require (checkedAdd ((← get).balanceOf dst) amount)
    (.invalidParams s!"Recipient balance overflow when crediting {amount} flakes to {dst.toHex}")
  modify fun store => store.update dst fun account => { account with balance }
  return { amount, feeBurned := fee, newNonce }

/-- The hash of all accounts in the order of their ids. -/
def computeStateRoot (P : Primitives) (store : AccountStore) : Except OpolysError Hash := do
  let accounts ← store.values.mapM fun account => borshToVec "Account" account
  return P.blake3 (domainStateRoot ++ tag "accounts" ++ accounts.flatten)

/-! ## Lookups -/

theorem getAccount_eq (store : AccountStore) (id : ObjectId) :
    store.getAccount id = store.get? id := rfl

theorem balanceOf_of_get? {store : AccountStore} {id : ObjectId} {a : Account}
    (h : store.get? id = some a) : store.balanceOf id = a.balance := by
  rw [balanceOf, getAccount_eq, h]

theorem balanceOf_of_none {store : AccountStore} {id : ObjectId} (h : store.get? id = none) :
    store.balanceOf id = 0 := by
  rw [balanceOf, getAccount_eq, h]

theorem withAccount_of_some {store : AccountStore} {id : ObjectId} {a : Account}
    (h : store.get? id = some a) : store.withAccount id = store := by
  rw [withAccount, Registry.contains, h]
  rfl

theorem withAccount_of_none {store : AccountStore} {id : ObjectId} (h : store.get? id = none) :
    store.withAccount id = store.put (Account.new id) := by
  rw [withAccount, Registry.contains, h]
  rfl

theorem get?_withAccount (store : AccountStore) (id k : ObjectId) :
    (store.withAccount id).get? k =
      if id = k then some ((store.get? id).getD (Account.new id)) else store.get? k := by
  cases h : store.get? id with
  | some a =>
    rw [withAccount_of_some h]
    split
    · rename_i hk
      rw [← hk, h]
      rfl
    · rfl
  | none =>
    rw [withAccount_of_none h, Registry.get?_put, Account.objectId_new]
    rfl

/-! ## What the operations do -/

theorem credit_eq_ok {store store' : AccountStore} {id : ObjectId} {amount : FlakeAmount} :
    store.credit id amount = .ok store' ↔ ∃ a, store.get? id = some a ∧
      a.balance.toNat + amount.toNat < 2 ^ 64 ∧
      store' = store.put { a with balance := a.balance + amount } := by
  unfold credit
  rw [getAccount_eq]
  constructor
  · intro h
    split at h
    · cases h
    · rename_i a ha
      split at h
      · cases h
      · rename_i balance hbal
        obtain ⟨hlt, rfl⟩ := MachineInt.of_checkedAdd hbal
        cases h
        exact ⟨a, ha, hlt, rfl⟩
  · rintro ⟨a, ha, hlt, rfl⟩
    rw [ha]
    dsimp only
    rw [MachineInt.checkedAdd_of_lt hlt]

theorem debit_eq_ok {store store' : AccountStore} {id : ObjectId} {amount : FlakeAmount} :
    store.debit id amount = .ok store' ↔ ∃ a, store.get? id = some a ∧
      amount.toNat ≤ a.balance.toNat ∧
      store' = store.put { a with balance := a.balance - amount } := by
  unfold debit
  rw [getAccount_eq]
  cases store.get? id with
  | none => simp
  | some a =>
    by_cases h : a.balance < amount
    · have hn : ¬amount.toNat ≤ a.balance.toNat := not_le.mpr (UInt64.lt_iff_toNat_lt.mp h)
      simp [h, hn]
    · have hn : amount.toNat ≤ a.balance.toNat := not_lt.mp (mt UInt64.lt_iff_toNat_lt.mpr h)
      simp [h, hn, eq_comm]

/-- What a successful transfer leaves: the sender has paid and its nonce has advanced, and
the recipient, who may be the sender or new, has received the amount. -/
def Transferred (store : AccountStore) (src dst : ObjectId) (amount fee : FlakeAmount)
    (store' : AccountStore) : Prop :=
  ∃ a paid b : Account, store.get? src = some a ∧
    amount.toNat + fee.toNat ≤ a.balance.toNat ∧ a.nonce.toNat + 1 < 2 ^ 64 ∧
    paid = { a with balance := a.balance - (amount + fee), nonce := a.nonce + 1 } ∧
    b = ((store.put paid).get? dst).getD (Account.new dst) ∧
    b.balance.toNat + amount.toNat < 2 ^ 64 ∧
    store' = (store.put paid).put { b with balance := b.balance + amount }

/-- Once the sender has paid, the recipient is there with the balance it had before. -/
theorem get?_recipient (store : AccountStore) {src : ObjectId} (dst : ObjectId) (paid : Account)
    (hpaid : paid.objectId = src) :
    ((store.withAccount dst).put paid).get? dst =
      some (((store.put paid).get? dst).getD (Account.new dst)) := by
  rw [Registry.get?_put, Registry.get?_put, hpaid]
  split
  · rfl
  · rw [get?_withAccount, if_pos rfl]

/-- Creating the recipient first makes no difference once it has been written. -/
theorem put_withAccount {store : AccountStore} {src dst : ObjectId} {a paid b : Account}
    (hpaid : paid.objectId = src) (ha : store.get? src = some a) (hb : b.objectId = dst) :
    ((store.withAccount dst).put paid).put b = (store.put paid).put b := by
  cases h : store.get? dst with
  | some _ => rw [withAccount_of_some h]
  | none =>
    have hne : (Account.new dst).objectId ≠ paid.objectId := by
      intro he
      rw [← hpaid, ← he, Account.objectId_new, h] at ha
      cases ha
    rw [withAccount_of_none h, Registry.put_comm _ hne, Registry.put_put _ hb.symm]

/-- A transfer either pays the recipient or writes nothing: a recipient that was just
created has no balance that could overflow, and a sender who pays itself ends below the
balance it had. -/
theorem transfer_ends (src dst : ObjectId) (amount fee : FlakeAmount) (store : AccountStore) :
    Ends (transfer src dst amount fee) store
      (fun _ store' => Transferred store src dst amount fee store')
      (fun _ store' => store' = store) := by
  unfold transfer
  refine Ends.require_bind (fun _ => rfl) fun totalNeeded hneed => ?_
  refine Ends.get_bind (Ends.require_bind (fun _ => rfl) fun a ha => ?_)
  refine Ends.ensure_bind (fun _ => rfl) fun hle => ?_
  refine Ends.require_bind (fun _ => rfl) fun newNonce hnonce => ?_
  obtain ⟨hsum, rfl⟩ := MachineInt.of_checkedAdd hneed
  obtain ⟨hnlt, rfl⟩ := MachineInt.of_checkedAdd hnonce
  rw [getAccount_eq] at ha
  have hcover : amount.toNat + fee.toNat ≤ a.balance.toNat := by
    rw [← MachineInt.toNat_add_of_lt hsum]
    exact UInt64.le_iff_toNat_le.mp hle
  have hsrc : (store.withAccount dst).get? src = some a := by
    rw [get?_withAccount]
    split
    · rename_i h
      rw [h, ha]
      rfl
    · exact ha
  let paid : Account :=
    { a with balance := a.balance - (amount + fee), nonce := a.nonce + 1 }
  have hid : a.objectId = src := Registry.name_of_get? ha
  have hpaid : paid.objectId = src := hid
  have hrec := get?_recipient store dst paid hpaid
  refine Ends.modify_bind (Ends.get_bind (Ends.ensure_bind ?_ fun hroom => ?_))
  · intro hroom
    cases h : store.get? dst with
    | some b => exact withAccount_of_some h
    | none =>
      have hb : (store.withAccount dst).get? dst = some (Account.new dst) := by
        rw [get?_withAccount, if_pos rfl, h]
        rfl
      refine absurd (Or.inr ?_) hroom
      rw [balanceOf_of_get? hb, MachineInt.checkedAdd_of_lt]
      · rfl
      · simpa using amount.toNat_lt
  · refine Ends.modify_bind (Ends.get_bind ?_)
    rw [Registry.update_of_some hsrc]
    change Ends (require (checkedAdd (balanceOf ((store.withAccount dst).put paid) dst) amount) _
      >>= _) ((store.withAccount dst).put paid) _ _
    rw [balanceOf_of_get? hrec]
    refine Ends.require_bind (fun hnone => ?_) fun balance hbal => ?_
    · exfalso
      by_cases hsd : src = dst
      · rw [MachineInt.checkedAdd_eq_none, Registry.get?_put, if_pos (hpaid.trans hsd),
          Option.getD_some, MachineInt.toNat_sub_of_le (UInt64.le_iff_toNat_le.mp hle),
          MachineInt.toNat_add_of_lt hsum] at hnone
        have := a.balance.toNat_lt
        omega
      · have hb := hroom.resolve_left hsd
        rw [balanceOf_of_get? (by rw [get?_withAccount, if_pos rfl])] at hb
        rw [Registry.get?_put, if_neg (hpaid ▸ hsd)] at hnone
        rw [hnone] at hb
        cases hb
    · obtain ⟨hlt, rfl⟩ := MachineInt.of_checkedAdd hbal
      refine Ends.modify_bind (Ends.pure ⟨a, paid, _, ha, hcover, hnlt, rfl, rfl, hlt, ?_⟩)
      rw [Registry.update_of_some hrec]
      have hb := Registry.name_of_get? hrec
      exact put_withAccount hpaid ha hb

end AccountStore

end Opolys
