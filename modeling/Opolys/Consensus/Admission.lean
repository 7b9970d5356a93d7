import Opolys.Consensus.Mempool
import Opolys.Execution.Verified
import Opolys.Library.Transition

/-!
# The books of the mempool

The pool keeps three structures: its entries by id, how many of them each sender has, and the
sum of their sizes. `Mempool.Consistent` says that the two others follow from the entries and
that the entries keep the limits. Every operation only removes entries (`Mempool.Shrinks`) or
enters one that admission has checked, so the pool is consistent after every sequence of
operations.

* `Mempool.consistent_run` : the pool is consistent after every run from the empty pool.
* `Mempool.addTransaction_refused` : a refused transaction leaves no trace in the pool.
-/

namespace Opolys.Mempool

open Std (ExtTreeMap)
open Effect
open Reference (primitives bidding)

/-- The number of entries of a sender. -/
def countOf (pool : Mempool) (sender : ObjectId) : ℕ :=
  pool.entries.toList.countP fun p => p.2.transaction.sender = sender

/-- The books agree with the entries, and the entries keep the limits of the pool. -/
structure Consistent (pool : Mempool) : Prop where
  key_eq : ∀ {id : ObjectId} {e : MempoolEntry}, pool.entries[id]? = some e →
    id = e.transaction.txId
  totalSize_eq : pool.totalSize = FiniteMap.total MempoolEntry.txSize pool.entries
  totalSize_le : pool.totalSize ≤ mempoolMaxSizeBytes
  count_eq : ∀ sender, pool.accountTxCounts[sender]? =
    if pool.countOf sender = 0 then none else some (pool.countOf sender)
  count_le : ∀ sender, pool.countOf sender ≤ mempoolMaxTxsPerAccount
  nonce_unique : ∀ {id id' : ObjectId} {e e' : MempoolEntry}, pool.entries[id]? = some e →
    pool.entries[id']? = some e' →
    e.transaction.sender = e'.transaction.sender → e.transaction.nonce = e'.transaction.nonce →
      id = id'

theorem consistent_new : new.Consistent where
  key_eq h := by simp [new] at h
  totalSize_eq := rfl
  totalSize_le := Nat.zero_le _
  count_eq sender := by
    have hzero : new.countOf sender = 0 := rfl
    rw [hzero, if_pos rfl]
    simp [new]
  count_le sender := Nat.zero_le _
  nonce_unique h := by simp [new] at h

/-! ## Counting -/

/-- One if an entry belongs to a sender. -/
def belongs (sender : ObjectId) (e : MempoolEntry) : ℕ :=
  if e.transaction.sender = sender then 1 else 0

theorem countOf_eq_total (pool : Mempool) (sender : ObjectId) :
    pool.countOf sender = FiniteMap.total (belongs sender) pool.entries :=
  FiniteMap.countP_eq_total (fun e : MempoolEntry => e.transaction.sender = sender) pool.entries

/-! ## Removing -/

/-- A pool whose entries are all entries of another, with no more of any sender. -/
structure Shrinks (pool' pool : Mempool) : Prop where
  entries : ∀ {id : ObjectId} {e : MempoolEntry}, pool'.entries[id]? = some e →
    pool.entries[id]? = some e
  count : ∀ sender, pool'.countOf sender ≤ pool.countOf sender

theorem Shrinks.refl (pool : Mempool) : Shrinks pool pool := ⟨id, fun _ => Nat.le_refl _⟩

theorem Shrinks.trans {a b c : Mempool} (h : Shrinks a b) (h' : Shrinks b c) : Shrinks a c :=
  ⟨fun he => h'.entries (h.entries he), fun s => (h.count s).trans (h'.count s)⟩

/-- What is left out of a smaller pool stays out. -/
theorem Shrinks.none {pool' pool : Mempool} (h : Shrinks pool' pool) {id : ObjectId}
    (hnone : pool.entries[id]? = none) : pool'.entries[id]? = none := by
  cases he : pool'.entries[id]? with
  | none => rfl
  | some e =>
    rw [h.entries he] at hnone
    cases hnone

theorem countOf_removeTransaction {pool : Mempool} {txId : ObjectId} {e : MempoolEntry}
    (h : pool.entries[txId]? = some e) (sender : ObjectId) :
    pool.countOf sender =
      (if e.transaction.sender = sender then 1 else 0) +
        (pool.removeTransaction txId).countOf sender := by
  have hentries : (pool.removeTransaction txId).entries = pool.entries.erase txId := by
    unfold removeTransaction
    rw [h]
  rw [countOf_eq_total, countOf_eq_total, hentries]
  exact FiniteMap.total_eq_add_erase (belongs sender) h

theorem shrinks_removeTransaction (pool : Mempool) (txId : ObjectId) :
    Shrinks (pool.removeTransaction txId) pool := by
  cases h : pool.entries[txId]? with
  | none =>
    have hsame : pool.removeTransaction txId = pool := by
      unfold removeTransaction
      rw [h]
    rw [hsame]
    exact Shrinks.refl pool
  | some e =>
    refine ⟨fun {id e'} he => ?_, fun sender => ?_⟩
    · unfold removeTransaction at he
      rw [h] at he
      dsimp only at he
      rw [FiniteMap.getElem?_erase'] at he
      split at he
      · cases he
      · exact he
    · rw [countOf_removeTransaction h sender]
      exact Nat.le_add_left _ _

theorem Consistent.removeTransaction {pool : Mempool} (h : pool.Consistent) (txId : ObjectId) :
    (pool.removeTransaction txId).Consistent := by
  have hshrinks := shrinks_removeTransaction pool txId
  cases he : pool.entries[txId]? with
  | none =>
    unfold Mempool.removeTransaction
    rw [he]
    exact h
  | some e =>
    have hcount := countOf_removeTransaction he
    have hsize := FiniteMap.total_eq_add_erase MempoolEntry.txSize he
    have htotal := h.totalSize_eq
    have hle := h.totalSize_le
    refine ⟨fun hx => h.key_eq (hshrinks.entries hx), ?_, ?_, fun sender => ?_,
      fun sender => (hshrinks.count sender).trans (h.count_le sender),
      fun hx hx' => h.nonce_unique (hshrinks.entries hx) (hshrinks.entries hx')⟩
    · unfold Mempool.removeTransaction
      rw [he]
      dsimp only
      omega
    · unfold Mempool.removeTransaction
      rw [he]
      dsimp only
      omega
    · have hold := h.count_eq e.transaction.sender
      have hother := h.count_eq sender
      have hone := hcount e.transaction.sender
      rw [if_pos rfl] at hone
      have hnot : pool.countOf e.transaction.sender ≠ 0 := by omega
      rw [if_neg hnot] at hold
      have hcounts : (pool.removeTransaction txId).accountTxCounts =
          if pool.countOf e.transaction.sender - 1 = 0 then
            pool.accountTxCounts.erase e.transaction.sender
          else pool.accountTxCounts.insert e.transaction.sender
            (pool.countOf e.transaction.sender - 1) := by
        unfold Mempool.removeTransaction
        rw [he]
        dsimp only
        rw [hold]
      have hpred : pool.countOf e.transaction.sender - 1 =
          (pool.removeTransaction txId).countOf e.transaction.sender := by omega
      rw [hcounts, hpred]
      by_cases hs : e.transaction.sender = sender
      · subst hs
        split
        · rw [FiniteMap.getElem?_erase', if_pos rfl]
        · rw [FiniteMap.getElem?_insert_self]
      · have hsame := hcount sender
        rw [if_neg hs, Nat.zero_add] at hsame
        rw [← hsame, ← hother]
        split
        · rw [FiniteMap.getElem?_erase', if_neg hs]
        · rw [FiniteMap.getElem?_insert_of_ne _ _ hs]

/-- Removing many. -/
theorem Consistent.foldl_removeTransaction {pool : Mempool} (h : pool.Consistent)
    (ids : List ObjectId) : (ids.foldl Mempool.removeTransaction pool).Consistent := by
  induction ids generalizing pool with
  | nil => exact h
  | cons id ids ih => exact ih (h.removeTransaction id)

theorem shrinks_foldl_removeTransaction (ids : List ObjectId) (pool : Mempool) :
    Shrinks (ids.foldl Mempool.removeTransaction pool) pool := by
  induction ids generalizing pool with
  | nil => exact Shrinks.refl pool
  | cons id ids ih =>
    exact (ih (pool.removeTransaction id)).trans (shrinks_removeTransaction pool id)

theorem shrinks_evictExpired (pool : Mempool) (now : UInt64) :
    Shrinks (pool.evictExpired now) pool := shrinks_foldl_removeTransaction _ pool

theorem Consistent.evictExpired {pool : Mempool} (h : pool.Consistent) (now : UInt64) :
    (pool.evictExpired now).Consistent :=
  h.foldl_removeTransaction _

theorem evictUntil_keeps (neededSpace : ℕ) (entries : List (ObjectId × MempoolEntry)) (freed : ℕ)
    {pool : Mempool} (h : pool.Consistent) :
    (evictUntil neededSpace entries freed pool).Consistent ∧
      Shrinks (evictUntil neededSpace entries freed pool) pool := by
  induction entries generalizing freed pool with
  | nil => exact ⟨h, Shrinks.refl pool⟩
  | cons p entries ih =>
    unfold evictUntil
    split
    · exact ⟨h, Shrinks.refl pool⟩
    · obtain ⟨hkeeps, hshrinks⟩ := ih (freed + p.2.txSize) (h.removeTransaction p.1)
      exact ⟨hkeeps, hshrinks.trans (shrinks_removeTransaction pool p.1)⟩

/-- A list of the entries of a pool, each once. -/
structure Lists (entries : List (ObjectId × MempoolEntry)) (pool : Mempool) : Prop where
  nodup : (entries.map Prod.fst).Nodup
  mem_iff : ∀ {id : ObjectId} {e : MempoolEntry}, (id, e) ∈ entries ↔ pool.entries[id]? = some e

theorem Consistent.totalSize_of_lists_nil {pool : Mempool} (h : pool.Consistent)
    (hlists : Lists [] pool) : pool.totalSize = 0 := by
  have hempty : pool.entries.toList = [] := by
    refine List.eq_nil_iff_forall_not_mem.mpr fun p hp => ?_
    exact List.not_mem_nil (hlists.mem_iff.mpr (FiniteMap.mem_toList.mp hp))
  rw [h.totalSize_eq]
  unfold FiniteMap.total
  rw [hempty]
  rfl

theorem Consistent.totalSize_removeTransaction {pool : Mempool} (h : pool.Consistent)
    {id : ObjectId} {e : MempoolEntry} (he : pool.entries[id]? = some e) :
    (pool.removeTransaction id).totalSize + e.txSize = pool.totalSize := by
  have hle := FiniteMap.le_total MempoolEntry.txSize he
  rw [← h.totalSize_eq] at hle
  unfold Mempool.removeTransaction
  rw [he]
  exact Nat.sub_add_cancel hle

theorem Lists.tail {p : ObjectId × MempoolEntry} {entries : List (ObjectId × MempoolEntry)}
    {pool : Mempool} (h : Lists (p :: entries) pool) :
    Lists entries (pool.removeTransaction p.1) := by
  obtain ⟨hnot, hnodup⟩ := List.nodup_cons.mp h.nodup
  have hfirst : pool.entries[p.1]? = some p.2 := h.mem_iff.mp List.mem_cons_self
  refine ⟨hnodup, fun {id e} => ?_⟩
  unfold removeTransaction
  rw [hfirst]
  dsimp only
  rw [FiniteMap.getElem?_erase']
  by_cases hid : p.1 = id
  · rw [if_pos hid]
    refine ⟨fun hmem => absurd (List.mem_map.mpr ⟨(id, e), hmem, hid.symm⟩) hnot, nofun⟩
  · rw [if_neg hid, ← h.mem_iff, List.mem_cons]
    refine ⟨Or.inr, fun hmem => hmem.resolve_left fun heq => hid ?_⟩
    rw [← heq]

/-- An eviction frees the space that is still needed, or everything. -/
theorem totalSize_evictUntil (neededSpace : ℕ) {entries : List (ObjectId × MempoolEntry)}
    (freed : ℕ) {pool : Mempool} (h : pool.Consistent) (hlists : Lists entries pool) :
    (evictUntil neededSpace entries freed pool).totalSize + (neededSpace - freed) ≤
        pool.totalSize ∨
      (evictUntil neededSpace entries freed pool).totalSize = 0 := by
  induction entries generalizing freed pool with
  | nil => exact Or.inr (h.totalSize_of_lists_nil hlists)
  | cons p entries ih =>
    unfold evictUntil
    split
    · left
      omega
    · have hsize := h.totalSize_removeTransaction (hlists.mem_iff.mp List.mem_cons_self)
      have hrest := ih (freed + p.2.txSize) (h.removeTransaction p.1) hlists.tail
      omega

theorem lists_iter (pool : Mempool) (order : IterOrder) : Lists (pool.iter order) pool := by
  refine ⟨?_, fun {id e} => ?_⟩
  · unfold iter
    refine ((order.perm _).map Prod.fst).nodup_iff.mpr ?_
    rw [List.nodup_iff_pairwise_ne, List.pairwise_map]
    refine pool.entries.distinct_keys_toList.imp fun {a b} hne heq => hne ?_
    rw [heq]
    exact Std.ReflCmp.compare_self
  · unfold iter
    rw [(order.perm _).mem_iff]
    exact FiniteMap.mem_toList

theorem Lists.perm {entries entries' : List (ObjectId × MempoolEntry)} {pool : Mempool}
    (h : Lists entries pool) (hperm : entries'.Perm entries) : Lists entries' pool :=
  ⟨(hperm.map Prod.fst).nodup_iff.mpr h.nodup, hperm.mem_iff.trans h.mem_iff⟩

/-- Whatever fits into an empty pool fits into one that has made room for it. -/
theorem totalSize_makeRoom (order : IterOrder) {txSize : ℕ} {pool : Mempool}
    (h : pool.Consistent) (hsize : txSize ≤ mempoolMaxSizeBytes) :
    (makeRoom order txSize pool).totalSize + txSize ≤ mempoolMaxSizeBytes := by
  have hlists := (lists_iter pool order).perm
    (List.perm_insertionSort (fun a b => evictsBefore a b) (pool.iter order))
  have hfreed := totalSize_evictUntil txSize 0 h hlists
  have hle := h.totalSize_le
  unfold makeRoom evictLowestPriority
  dsimp only
  split <;> omega

theorem makeRoom_keeps (order : IterOrder) (txSize : ℕ) {pool : Mempool} (h : pool.Consistent) :
    (makeRoom order txSize pool).Consistent ∧ Shrinks (makeRoom order txSize pool) pool := by
  unfold makeRoom evictLowestPriority
  split
  · exact evictUntil_keeps _ _ _ h
  · exact ⟨h, Shrinks.refl pool⟩

/-! ## Replacing -/

theorem mem_iter {pool : Mempool} {order : IterOrder} {p : ObjectId × MempoolEntry} :
    p ∈ pool.iter order ↔ pool.entries[p.1]? = some p.2 := by
  unfold iter
  rw [(order.perm _).mem_iff]
  exact FiniteMap.mem_toList

/-- An entry of the sender and the nonce of `tx`. -/
def Rivals (tx : Transaction) (e : MempoolEntry) : Prop :=
  e.transaction.sender = tx.sender ∧ e.transaction.nonce = tx.nonce

instance (tx : Transaction) (e : MempoolEntry) : Decidable (Rivals tx e) :=
  inferInstanceAs (Decidable (_ ∧ _))

theorem findReplaced_eq_none {pool : Mempool} {order : IterOrder} {tx : Transaction}
    (h : pool.findReplaced order tx = none) {id : ObjectId} {e : MempoolEntry}
    (he : pool.entries[id]? = some e) : ¬Rivals tx e := by
  have hnot := List.find?_eq_none.mp h e (List.mem_map.mpr ⟨(id, e), mem_iter.mpr he, rfl⟩)
  exact fun hrivals => hnot (decide_eq_true hrivals)

theorem findReplaced_eq_some {pool : Mempool} {order : IterOrder} {tx : Transaction}
    {old : MempoolEntry} (h : pool.findReplaced order tx = some old) :
    Rivals tx old ∧ ∃ id : ObjectId, pool.entries[id]? = some old := by
  have hmem := List.mem_of_find?_eq_some h
  obtain ⟨⟨id, e⟩, hp, rfl⟩ := List.mem_map.mp hmem
  have hrivals := List.find?_some (p := fun e => decide (Rivals tx e)) h
  exact ⟨of_decide_eq_true hrivals, id, mem_iter.mp hp⟩

/-- A transaction pays enough to take the place of an entry. -/
def Outbids (old : Option MempoolEntry) (tx : Transaction) : Prop :=
  ∀ entry ∈ old, minReplacementFee entry.transaction.fee ≤ tx.fee

/-- After a replacement no entry is left with the sender and the nonce. A refused one leaves the
pool as it was. -/
theorem replace_ends {pool : Mempool} (h : pool.Consistent) (order : IterOrder)
    (tx : Transaction) :
    Ends (replace (pool.findReplaced order tx) tx) pool
      (fun _ pool' => Outbids (pool.findReplaced order tx) tx ∧ pool'.Consistent ∧
        Shrinks pool' pool ∧
        ∀ (id : ObjectId) (e : MempoolEntry), pool'.entries[id]? = some e → ¬Rivals tx e)
      (fun e pool' => ¬Outbids (pool.findReplaced order tx) tx ∧ pool' = pool ∧
        e ≠ .mempoolFull) := by
  cases hfound : pool.findReplaced order tx with
  | none =>
    exact Ends.pure ⟨nofun, h, Shrinks.refl pool, fun _ _ he => findReplaced_eq_none hfound he⟩
  | some old =>
    refine Ends.ensure_bind
      (fun hlow => ⟨fun hout => hlow (hout old rfl), rfl, nofun⟩) fun hpays => ?_
    obtain ⟨hrivals, oldId, hold⟩ := findReplaced_eq_some hfound
    have hshrinks := shrinks_removeTransaction pool old.transaction.txId
    have houtbids : Outbids (some old) tx := by
      rintro entry ⟨⟩
      exact hpays
    refine Ends.modify_bind (f := fun _ => pure ()) (Ends.pure
      ⟨houtbids, h.removeTransaction _, hshrinks, fun id e he hrivals' => ?_⟩)
    have hsame := h.nonce_unique (hshrinks.entries he) hold (hrivals'.1.trans hrivals.1.symm)
      (hrivals'.2.trans hrivals.2.symm)
    -- the only rival was stored under its own id, which has been removed
    have hid : id = old.transaction.txId := hsame.trans (h.key_eq hold)
    rw [hid] at he
    unfold Mempool.removeTransaction at he
    rw [← h.key_eq hold, hold] at he
    dsimp only at he
    rw [FiniteMap.getElem?_erase', if_pos rfl] at he
    cases he

/-! ## Entering -/

theorem countOf_insert {pool : Mempool} {entry : MempoolEntry}
    (hfresh : pool.entries[entry.transaction.txId]? = none) (sender : ObjectId) :
    (pool.insert entry).countOf sender =
      (if entry.transaction.sender = sender then 1 else 0) + pool.countOf sender := by
  rw [countOf_eq_total, countOf_eq_total]
  exact FiniteMap.total_insert_new (belongs sender) hfresh entry

/-- An entry that is new, has room, and shares its nonce with none of its sender. -/
structure Admitted (pool : Mempool) (entry : MempoolEntry) : Prop where
  fresh : pool.entries[entry.transaction.txId]? = none
  room : pool.totalSize + entry.txSize ≤ mempoolMaxSizeBytes
  count : pool.countOf entry.transaction.sender < mempoolMaxTxsPerAccount
  rivals : ∀ (id : ObjectId) (e : MempoolEntry), pool.entries[id]? = some e →
    ¬Rivals entry.transaction e

theorem getElem?_insert_cases {pool : Mempool} {entry : MempoolEntry} {id : ObjectId}
    {e : MempoolEntry} (h : (pool.insert entry).entries[id]? = some e) :
    id = entry.transaction.txId ∧ e = entry ∨ pool.entries[id]? = some e := by
  unfold insert at h
  dsimp only at h
  rw [FiniteMap.getElem?_insert'] at h
  split at h
  · rename_i hid
    exact Or.inl ⟨hid.symm, (Option.some.inj h).symm⟩
  · exact Or.inr h

theorem Consistent.insert {pool : Mempool} (h : pool.Consistent) {entry : MempoolEntry}
    (hentry : pool.Admitted entry) : (pool.insert entry).Consistent := by
  have hcount := countOf_insert hentry.fresh
  refine ⟨fun hx => ?_, ?_, hentry.room, fun sender => ?_, fun sender => ?_,
    fun hx hx' hsender hnonce => ?_⟩
  · rcases getElem?_insert_cases hx with ⟨rfl, rfl⟩ | hold
    · rfl
    · exact h.key_eq hold
  · have hsize := FiniteMap.total_insert_new MempoolEntry.txSize hentry.fresh entry
    change pool.totalSize + entry.txSize = FiniteMap.total MempoolEntry.txSize
      (pool.entries.insert entry.transaction.txId entry)
    rw [hsize, h.totalSize_eq, Nat.add_comm]
  · have hold := h.count_eq entry.transaction.sender
    rw [hcount]
    change (pool.accountTxCounts.insert entry.transaction.sender _)[sender]? = _
    by_cases hs : entry.transaction.sender = sender
    · subst hs
      have hpos : 1 + pool.countOf entry.transaction.sender ≠ 0 := by omega
      rw [FiniteMap.getElem?_insert_self, if_pos rfl, if_neg hpos, hold]
      by_cases hzero : pool.countOf entry.transaction.sender = 0
      · rw [hzero]
        rfl
      · rw [if_neg hzero, Nat.add_comm]
    · rw [FiniteMap.getElem?_insert_of_ne _ _ hs, if_neg hs, Nat.zero_add]
      exact h.count_eq sender
  · rw [hcount]
    split
    · rename_i hs
      have hlt := hentry.count
      rw [hs] at hlt
      omega
    · rw [Nat.zero_add]
      exact h.count_le sender
  · rcases getElem?_insert_cases hx with ⟨rfl, rfl⟩ | hold <;>
      rcases getElem?_insert_cases hx' with ⟨rfl, rfl⟩ | hold'
    · rfl
    · exact absurd ⟨hsender.symm, hnonce.symm⟩ (hentry.rivals _ _ hold')
    · exact absurd ⟨hsender, hnonce⟩ (hentry.rivals _ _ hold)
    · exact h.nonce_unique hold hold' hsender hnonce

/-! ## Admission -/

/-- A transaction that fails to verify is not refused for want of space. -/
theorem verifyTransactionForMempool_ne_mempoolFull {P : Primitives} {tx : Transaction}
    {expectedChainId : UInt64} {e : OpolysError}
    (h : verifyTransactionForMempool P tx expectedChainId = .error e) : e ≠ .mempoolFull := by
  rintro rfl
  unfold verifyTransactionForMempool computeMempoolTxId transactionSigningPayload at h
  rw [bind_eq_error, check_eq_error] at h
  obtain ⟨-, he⟩ | ⟨-, -, h⟩ := h
  · cases he
  obtain h | ⟨id, -, h⟩ := bind_eq_error.mp h
  · obtain h | ⟨_, -, h⟩ := bind_eq_error.mp h
    · obtain ⟨_, he⟩ := borshToVec_eq_error h
      cases he
    · cases h
  rw [bind_eq_error, check_eq_error] at h
  obtain ⟨-, he⟩ | ⟨-, -, h⟩ := h
  · cases he
  rw [bind_eq_error, check_eq_error] at h
  obtain ⟨-, he⟩ | ⟨-, -, h⟩ := h
  · cases he
  split at h
  · cases h
  rw [bind_eq_error, check_eq_error] at h
  obtain ⟨-, he⟩ | ⟨-, -, h⟩ := h
  · cases he
  obtain h | ⟨payload, -, h⟩ := bind_eq_error.mp h
  · obtain h | ⟨_, -, h⟩ := bind_eq_error.mp h
    · obtain ⟨_, he⟩ := borshToVec_eq_error h
      cases he
    · cases h
  · cases (check_eq_error.mp h).2

/-- What a transaction must pass to be added to a pool. -/
structure Gates (P : Primitives) (order : IterOrder) (tx : Transaction)
    (accountNonce suggestedFee expectedChainId : UInt64) (pool : Mempool) : Prop where
  verified : verifyTransactionForMempool P tx expectedChainId = .ok ()
  minFee_le : minFee ≤ tx.fee
  effectiveMinFee_le : pool.effectiveMinFee suggestedFee ≤ tx.fee
  size_le : serializedSize tx ≤ txMaxSizeBytes
  count_lt : pool.accountTxCounts.getD tx.sender 0 < mempoolMaxTxsPerAccount
  nonce_le : tx.nonce ≤ accountNonce + maxNonceGap
  fresh : tx.txId ∉ pool.entries
  outbids : Outbids (pool.findReplaced order tx) tx

/-- An entry is new in a pool, whose other entries have been there before. -/
structure Enters (entry : MempoolEntry) (pool pool' : Mempool) : Prop where
  entered : pool'.entries[entry.transaction.txId]? = some entry
  old : ∀ {id : ObjectId} {e : MempoolEntry}, pool'.entries[id]? = some e →
    id = entry.transaction.txId ∧ e = entry ∨ pool.entries[id]? = some e

/-- An addition enters a transaction that passes every gate into a consistent pool, and it leaves
the pool as it was when a gate is missed. It never fails for want of space: what is replaced or
evicted for a transaction makes enough room for it. -/
theorem addTransaction_ends (P : Primitives) (order : IterOrder) (tx : Transaction)
    (priorityScore submittedAt accountNonce suggestedFee expectedChainId : UInt64)
    {pool : Mempool} (h : pool.Consistent) :
    Ends (addTransaction P order tx priorityScore submittedAt accountNonce suggestedFee
        expectedChainId) pool
      (fun _ pool' => pool'.Consistent ∧
        Gates P order tx accountNonce suggestedFee expectedChainId pool ∧
        Enters ⟨tx, priorityScore, serializedSize tx, submittedAt⟩ pool pool')
      (fun e pool' => (pool' = pool ∧ e ≠ .mempoolFull) ∧
        ¬Gates P order tx accountNonce suggestedFee expectedChainId pool) := by
  unfold addTransaction
  refine Ends.ofExcept_bind (fun _ he => ⟨⟨rfl, verifyTransactionForMempool_ne_mempoolFull he⟩,
    fun hgates => ?_⟩) fun ⟨⟩ hverified => ?_
  · rw [hgates.verified] at he
    cases he
  refine Ends.ensure_bind (fun hno => ⟨⟨rfl, nofun⟩, fun hgates => hno hgates.minFee_le⟩)
    fun hminFee => ?_
  refine Ends.get_bind (Ends.ensure_bind (fun hno => ⟨⟨rfl, nofun⟩, fun hgates =>
    hno hgates.effectiveMinFee_le⟩) fun heffMin => ?_)
  refine Ends.ensure_bind (fun hno => ⟨⟨rfl, nofun⟩, fun hgates => hno hgates.size_le⟩)
    fun hsize => ?_
  refine Ends.get_bind (Ends.ensure_bind (fun hno => ⟨⟨rfl, nofun⟩, fun hgates =>
    hno hgates.count_lt⟩) fun hsender => ?_)
  refine Ends.ensure_bind (fun hno => ⟨⟨rfl, nofun⟩, fun hgates => hno hgates.nonce_le⟩)
    fun hnonce => ?_
  refine Ends.get_bind (Ends.ensure_bind (fun hno => ⟨⟨rfl, nofun⟩, fun hgates =>
    hno hgates.fresh⟩) fun hfresh => ?_)
  have hcount : pool.countOf tx.sender < mempoolMaxTxsPerAccount := by
    rw [ExtTreeMap.getD_eq_getD_getElem?, h.count_eq tx.sender] at hsender
    split at hsender
    · rename_i hzero
      rwa [hzero]
    · exact hsender
  have hnone : pool.entries[tx.txId]? = none := getElem?_neg _ _ hfresh
  refine Ends.get_bind (Ends.bind ((replace_ends h order tx).mono (fun _ _ hreplaced => hreplaced)
    fun _ _ hrefused => ⟨hrefused.2, fun hgates => hrefused.1 hgates.outbids⟩) ?_)
  rintro ⟨⟩ pool1 ⟨houtbids, h1, hshrinks1, hrivals⟩
  obtain ⟨h2, hshrinks2⟩ := makeRoom_keeps order (serializedSize tx) h1
  have hshrinks := hshrinks2.trans hshrinks1
  have hfits : serializedSize tx ≤ mempoolMaxSizeBytes := hsize.trans (by decide)
  have hroom := totalSize_makeRoom order h1 hfits
  refine Ends.modify_bind
    (Ends.get_bind (Ends.ensure_bind (fun hfull => absurd hroom hfull) fun _ => ?_))
  refine Ends.modify_bind (f := fun _ => pure ()) (Ends.pure ⟨h2.insert ?_, ?_, ?_⟩)
  · exact ⟨hshrinks.none hnone, hroom, (hshrinks.count tx.sender).trans_lt hcount,
      fun id e he => hrivals id e (hshrinks2.entries he)⟩
  · exact ⟨hverified, hminFee, heffMin, hsize, hsender, hnonce, hfresh, houtbids⟩
  · exact ⟨FiniteMap.getElem?_insert_self _ _ _, fun he =>
      (getElem?_insert_cases he).imp_right hshrinks.entries⟩

/-- A refused transaction leaves the pool as it was, and the pool is never the reason. -/
theorem addTransaction_refused (P : Primitives) (order : IterOrder) (tx : Transaction)
    (priorityScore submittedAt accountNonce suggestedFee expectedChainId : UInt64)
    {pool pool' : Mempool} (h : pool.Consistent) {e : OpolysError}
    (hrun : addTransaction P order tx priorityScore submittedAt accountNonce suggestedFee
      expectedChainId pool = .error e pool') :
    pool' = pool ∧ e ≠ .mempoolFull :=
  ((addTransaction_ends P order tx priorityScore submittedAt accountNonce suggestedFee
    expectedChainId h).error hrun).1

/-- A replacement that pays too little, in a pool with the transaction that it would replace. -/
theorem addTransaction_refused_of_reference : ∃ pool pool' message,
    addTransaction primitives .byId (bidding 0 100) 100 0 0 1 mainnetChainId new = .ok () pool ∧
      addTransaction primitives .byId (bidding 0 105) 105 0 0 1 mainnetChainId pool =
        .error (.invalidTransaction message) pool' ∧
      message = "Replacement fee 105 must be at least 10% higher than existing fee 100" ∧
      (bidding 0 100).txId ∈ pool'.entries ∧ pool' = pool := by
  have hcomputed : (match addTransaction primitives .byId (bidding 0 100) 100 0 0 1 mainnetChainId
      new with
    | .ok _ pool => decide ((bidding 0 100).txId ∈ pool.entries) &&
      match addTransaction primitives .byId (bidding 0 105) 105 0 0 1 mainnetChainId pool with
      | .error e _ => decide (e = .invalidTransaction
          "Replacement fee 105 must be at least 10% higher than existing fee 100")
      | .ok _ _ => false
    | .error _ _ => false) = true := by decide +kernel
  cases hfirst : addTransaction primitives .byId (bidding 0 100) 100 0 0 1 mainnetChainId new with
  | error e pool =>
    rw [hfirst] at hcomputed
    cases hcomputed
  | ok _ pool =>
    rw [hfirst] at hcomputed
    obtain ⟨hmem, hrefused⟩ := Bool.and_eq_true_iff.mp hcomputed
    have hconsistent := ((addTransaction_ends primitives .byId (bidding 0 100) 100 0 0 1
      mainnetChainId consistent_new).ok hfirst).1
    cases hsecond : addTransaction primitives .byId (bidding 0 105) 105 0 0 1 mainnetChainId
      pool with
    | ok _ pool' =>
      rw [hsecond] at hrefused
      cases hrefused
    | error e pool' =>
      rw [hsecond] at hrefused
      obtain rfl := of_decide_eq_true hrefused
      obtain ⟨hsame, -⟩ := addTransaction_refused primitives .byId (bidding 0 105) 105 0 0 1
        mainnetChainId hconsistent hsecond
      exact ⟨pool, pool', _, rfl, hsecond, rfl, hsame ▸ of_decide_eq_true hmem, hsame⟩

/-! ## Runs -/

/-- An operation on the pool, with what the hash map and the clock contribute. -/
inductive Operation where
  | addTransaction (order : IterOrder) (tx : Transaction)
      (priorityScore submittedAt accountNonce suggestedFee expectedChainId : UInt64)
  | removeTransaction (txId : ObjectId)
  | evictExpired (currentTime : UInt64)

/-- The pool after an operation, whether it succeeded or not. -/
def perform (P : Primitives) (pool : Mempool) : Operation → Mempool
  | .addTransaction order tx priorityScore submittedAt accountNonce suggestedFee
      expectedChainId =>
    match Mempool.addTransaction P order tx priorityScore submittedAt accountNonce suggestedFee
      expectedChainId pool with
    | .ok _ pool' => pool'
    | .error _ pool' => pool'
  | .removeTransaction txId => pool.removeTransaction txId
  | .evictExpired currentTime => pool.evictExpired currentTime

theorem consistent_perform (P : Primitives) {pool : Mempool} (h : pool.Consistent)
    (operation : Operation) : (perform P pool operation).Consistent := by
  cases operation with
  | addTransaction order tx priorityScore submittedAt accountNonce suggestedFee expectedChainId =>
    have hends := addTransaction_ends P order tx priorityScore submittedAt accountNonce
      suggestedFee expectedChainId h
    unfold perform
    dsimp only
    split <;> rename_i hrun
    · exact (hends.ok hrun).1
    · rw [(hends.error hrun).1.1]
      exact h
  | removeTransaction txId => exact h.removeTransaction txId
  | evictExpired currentTime => exact h.evictExpired currentTime

/-- The books are right after every sequence of operations on a new pool. -/
theorem consistent_run (P : Primitives) (operations : List Operation) :
    (Transition.run (perform P) new operations).Consistent := by
  have hstep (pool : Mempool) (operation : Operation) (h : pool.Consistent) :
      (perform P pool operation).Consistent := consistent_perform P h operation
  exact Transition.run_invariant hstep operations consistent_new

end Opolys.Mempool
