import Opolys.Consensus.Admission
import Opolys.Consensus.Limits
import Opolys.Execution.Verified
import Opolys.Library.Clearing

/-!
# What an addition evicts

A full pool makes room for a transaction by evicting entries of the least priority until the
bytes of the newcomer are free. It does not look at the priority of the newcomer, so it goes on
to more valuable entries where the others are not enough.

* `addTransaction_eq_ok` : the pool that an accepted transaction leaves.
* `evictsFairly_iff` : when no addition evicts an entry of higher priority than the newcomer.
-/

namespace Opolys.Mempool

open Std (ExtTreeMap)
open Effect
open Clearing (cleared cleared_within_iff)

variable {pool : Mempool} {order : IterOrder} {tx : Transaction}

/-! ## Orders -/

theorem evictsBefore_iff {a b : ObjectId × MempoolEntry} : evictsBefore a b = true ↔
    a.2.priorityScore.toNat < b.2.priorityScore.toNat ∨
      a.2.priorityScore = b.2.priorityScore ∧
        a.2.submittedAt.toNat ≤ b.2.submittedAt.toNat := by
  unfold evictsBefore
  rw [decide_eq_true_iff, ← MachineInt.compare_toNat, ← MachineInt.compare_toNat]
  rcases Nat.lt_trichotomy a.2.priorityScore.toNat b.2.priorityScore.toNat with hlt | heq | hgt
  · simp [Nat.compare_eq_lt.mpr hlt, hlt]
  · have hsame := UInt64.toNat_inj.mp heq
    simp [hsame, Nat.compare_ne_gt]
  · have hne : a.2.priorityScore ≠ b.2.priorityScore := by
      rintro heq
      rw [heq] at hgt
      omega
    simp [Nat.compare_eq_gt.mpr hgt, hne]
    omega

instance : Std.Total fun a b : ObjectId × MempoolEntry => evictsBefore a b = true where
  total a b := by
    rw [evictsBefore_iff, evictsBefore_iff, ← UInt64.toNat_inj, ← UInt64.toNat_inj]
    omega

instance : IsTrans (ObjectId × MempoolEntry) fun a b => evictsBefore a b = true where
  trans a b c := by
    rw [evictsBefore_iff, evictsBefore_iff, evictsBefore_iff, ← UInt64.toNat_inj,
      ← UInt64.toNat_inj, ← UInt64.toNat_inj]
    omega

/-! ## Removing -/

@[simp] theorem getElem?_removeTransaction (pool : Mempool) (txId id : ObjectId) :
    (pool.removeTransaction txId).entries[id]? =
      if txId = id then none else pool.entries[id]? := by
  unfold removeTransaction
  split
  · rename_i hnone
    split
    · rename_i hid
      rw [← hid, hnone]
    · rfl
  · rw [FiniteMap.getElem?_erase']

theorem getElem?_foldl_removeTransaction (ids : List ObjectId) (pool : Mempool) (id : ObjectId) :
    (ids.foldl removeTransaction pool).entries[id]? =
      if id ∈ ids then none else pool.entries[id]? := by
  induction ids generalizing pool with
  | nil => simp
  | cons txId ids ih =>
    rw [List.foldl_cons, ih, getElem?_removeTransaction]
    by_cases hid : txId = id
    · simp [hid]
    · by_cases hmem : id ∈ ids <;> simp [hid, hmem, Ne.symm hid]

theorem evictUntil_eq (neededSpace : ℕ) (entries : List (ObjectId × MempoolEntry)) (freed : ℕ)
    (pool : Mempool) :
    evictUntil neededSpace entries freed pool =
      ((cleared (fun p => p.2.txSize) neededSpace entries freed).map Prod.fst).foldl
        removeTransaction pool := by
  induction entries generalizing freed pool with
  | nil => rfl
  | cons p entries ih =>
    unfold evictUntil cleared
    split
    · rfl
    · exact ih _ _

/-! ## Adding -/

/-- The pool without the entry that a transaction replaces. -/
def withoutReplaced (pool : Mempool) (order : IterOrder) (tx : Transaction) : Mempool :=
  match pool.findReplaced order tx with
  | none => pool
  | some old => pool.removeTransaction old.transaction.txId

theorem getElem?_withoutReplaced (h : pool.Consistent) {id : ObjectId} {e : MempoolEntry} :
    (pool.withoutReplaced order tx).entries[id]? = some e ↔
      pool.entries[id]? = some e ∧ ¬Rivals tx e := by
  unfold withoutReplaced
  split
  · rename_i hnone
    exact ⟨fun he => ⟨he, findReplaced_eq_none hnone he⟩, And.left⟩
  · rename_i old hsome
    obtain ⟨hrivals, oldId, hold⟩ := findReplaced_eq_some hsome
    have hkey := h.key_eq hold
    rw [getElem?_removeTransaction, ← hkey]
    by_cases hid : oldId = id
    · rw [if_pos hid, ← hid, hold]
      refine ⟨by simp, ?_⟩
      rintro ⟨⟨⟩, hnot⟩
      exact absurd hrivals hnot
    · rw [if_neg hid]
      refine ⟨fun he => ⟨he, fun hrivals' => hid ?_⟩, And.left⟩
      exact h.nonce_unique hold he (hrivals.1.trans hrivals'.1.symm)
        (hrivals.2.trans hrivals'.2.symm)

theorem Consistent.withoutReplaced (h : pool.Consistent) (order : IterOrder) (tx : Transaction) :
    (pool.withoutReplaced order tx).Consistent := by
  unfold Mempool.withoutReplaced
  split
  · exact h
  · exact h.removeTransaction _

theorem replace_eq_ok {pool' : Mempool}
    (h : replace (pool.findReplaced order tx) tx pool = .ok ⟨⟩ pool') :
    pool' = pool.withoutReplaced order tx := by
  unfold withoutReplaced
  cases hfound : pool.findReplaced order tx with
  | none =>
    rw [hfound] at h
    cases h
    rfl
  | some old =>
    rw [hfound] at h
    obtain ⟨-, hrun⟩ := run_ensure_bind_eq_ok.mp h
    cases hrun
    rfl

section Addition

variable {P : Primitives} {priorityScore submittedAt accountNonce suggestedFee : UInt64}
  {expectedChainId : UInt64} {pool' : Mempool}

/-- An accepted transaction leaves the pool without the one it replaces and with room for it. -/
theorem addTransaction_eq_ok
    (h : addTransaction P order tx priorityScore submittedAt accountNonce suggestedFee
      expectedChainId pool = .ok ⟨⟩ pool') :
    pool' = insert ⟨tx, priorityScore, serializedSize tx, submittedAt⟩
      (makeRoom order (serializedSize tx) (pool.withoutReplaced order tx)) := by
  unfold addTransaction at h
  obtain ⟨⟨⟩, -, h⟩ := run_ofExcept_bind_eq_ok.mp h
  obtain ⟨-, h⟩ := run_ensure_bind_eq_ok.mp h
  rw [run_get_bind] at h
  obtain ⟨-, h⟩ := run_ensure_bind_eq_ok.mp h
  obtain ⟨-, h⟩ := run_ensure_bind_eq_ok.mp h
  rw [run_get_bind] at h
  obtain ⟨-, h⟩ := run_ensure_bind_eq_ok.mp h
  obtain ⟨-, h⟩ := run_ensure_bind_eq_ok.mp h
  rw [run_get_bind] at h
  obtain ⟨-, h⟩ := run_ensure_bind_eq_ok.mp h
  rw [run_get_bind] at h
  obtain ⟨⟨⟩, replaced, hreplace, h⟩ := run_bind_eq_ok.mp h
  rw [run_modify_bind, run_get_bind] at h
  obtain ⟨-, h⟩ := run_ensure_bind_eq_ok.mp h
  cases h
  rw [replace_eq_ok hreplace]

/-- A transaction is accepted exactly when it passes every gate. -/
theorem exists_addTransaction_iff (h : pool.Consistent) :
    (∃ pool', addTransaction P order tx priorityScore submittedAt accountNonce suggestedFee
        expectedChainId pool = .ok ⟨⟩ pool') ↔
      Gates P order tx accountNonce suggestedFee expectedChainId pool := by
  have hends := addTransaction_ends P order tx priorityScore submittedAt accountNonce
    suggestedFee expectedChainId h
  constructor
  · rintro ⟨pool', hrun⟩
    exact (hends.ok hrun).2.1
  · intro hgates
    cases hrun : addTransaction P order tx priorityScore submittedAt accountNonce suggestedFee
        expectedChainId pool with
    | ok u pool' => exact ⟨pool', rfl⟩
    | error e pool' => exact absurd hgates (hends.error hrun).2

end Addition

/-! ## Making room -/

theorem total_withoutReplaced (h : pool.Consistent) (order : IterOrder) (tx : Transaction)
    (g : MempoolEntry → ℕ) :
    FiniteMap.total g (pool.withoutReplaced order tx).entries =
      FiniteMap.total (fun e => if Rivals tx e then 0 else g e) pool.entries := by
  unfold withoutReplaced
  split
  · rename_i hnone
    refine FiniteMap.total_congr _ fun id e he => ?_
    rw [if_neg (findReplaced_eq_none hnone he)]
  · rename_i old hsome
    obtain ⟨hrivals, oldId, hold⟩ := findReplaced_eq_some hsome
    have hkey := h.key_eq hold
    have hentries : (pool.removeTransaction old.transaction.txId).entries =
        pool.entries.erase oldId := by
      unfold removeTransaction
      rw [← hkey, hold]
    rw [hentries, FiniteMap.total_eq_add_erase _ hold, if_pos hrivals, Nat.zero_add]
    refine FiniteMap.total_congr _ fun id e he => ?_
    rw [FiniteMap.getElem?_erase'] at he
    split at he
    · cases he
    · rename_i hid
      refine (if_neg fun hrivals' => hid ?_).symm
      exact h.nonce_unique hold he (hrivals.1.trans hrivals'.1.symm)
        (hrivals.2.trans hrivals'.2.symm)

/-- The entries that make room are the first of the eviction order. -/
theorem getElem?_makeRoom_eq_none {size : ℕ}
    (hfull : pool.totalSize + size > mempoolMaxSizeBytes) {id : ObjectId} {e : MempoolEntry}
    (he : pool.entries[id]? = some e) :
    (makeRoom order size pool).entries[id]? = none ↔
      (id, e) ∈ cleared (fun p => p.2.txSize) size
        ((pool.iter order).insertionSort fun a b => evictsBefore a b) 0 := by
  have hlists := (lists_iter pool order).perm
    (List.perm_insertionSort (fun a b => evictsBefore a b) (pool.iter order))
  unfold makeRoom evictLowestPriority
  rw [if_pos hfull]
  dsimp only
  rw [evictUntil_eq, getElem?_foldl_removeTransaction]
  constructor
  · intro hnone
    split at hnone
    · rename_i hmem
      obtain ⟨⟨id', e'⟩, hcleared, rfl⟩ := List.mem_map.mp hmem
      have he' := hlists.mem_iff.mp (Clearing.cleared_subset _ _ hcleared)
      cases Option.some.inj (he.symm.trans he')
      exact hcleared
    · rw [he] at hnone
      cases hnone
  · intro hcleared
    rw [if_pos (List.mem_map.mpr ⟨(id, e), hcleared, rfl⟩)]

theorem sum_sizes (pool : Mempool) (order : IterOrder) (low : MempoolEntry → Prop)
    [DecidablePred low] :
    ((((pool.iter order).insertionSort fun a b => evictsBefore a b).filter
        fun p => low p.2).map fun p => p.2.txSize).sum =
      FiniteMap.total (fun e => if low e then e.txSize else 0) pool.entries := by
  have hperm : ((pool.iter order).insertionSort fun a b => evictsBefore a b).Perm
      pool.entries.toList :=
    (List.perm_insertionSort _ _).trans (order.perm _)
  rw [((hperm.filter fun p => decide (low p.2)).map fun p => p.2.txSize).sum_eq]
  unfold FiniteMap.total
  generalize pool.entries.toList = entries
  induction entries with
  | nil => rfl
  | cons p entries ih =>
    by_cases hlow : low p.2
    · simp [hlow, ih]
    · simp [hlow, ih]

/-- Only entries up to a priority leave exactly when no entry has to, when those free enough,
or when there are no others. -/
theorem makeRoom_within_iff (pool : Mempool) (order : IterOrder) (size : ℕ)
    (priority : UInt64) :
    (∀ (id : ObjectId) (e : MempoolEntry), pool.entries[id]? = some e →
        (makeRoom order size pool).entries[id]? = none → e.priorityScore ≤ priority) ↔
      pool.totalSize + size ≤ mempoolMaxSizeBytes ∨
        size ≤ FiniteMap.total (fun e => if e.priorityScore ≤ priority then e.txSize else 0)
          pool.entries ∨
        ∀ (id : ObjectId) (e : MempoolEntry), pool.entries[id]? = some e →
          e.priorityScore ≤ priority := by
  by_cases hfull : pool.totalSize + size > mempoolMaxSizeBytes
  · have hlists := (lists_iter pool order).perm
      (List.perm_insertionSort (fun a b => evictsBefore a b) (pool.iter order))
    have hsorted : ((pool.iter order).insertionSort fun a b => evictsBefore a b).Pairwise
        fun a b => b.2.priorityScore ≤ priority → a.2.priorityScore ≤ priority := by
      refine (List.pairwise_insertionSort _ _).imp fun {a b} hab hb => ?_
      rw [evictsBefore_iff, ← UInt64.toNat_inj] at hab
      rw [UInt64.le_iff_toNat_le] at hb ⊢
      omega
    have hwithin := cleared_within_iff (fun p => p.2.txSize) size hsorted 0
    rw [sum_sizes pool order fun e => e.priorityScore ≤ priority, Nat.zero_add] at hwithin
    constructor
    · intro hall
      refine Or.inr ((hwithin.mp fun p hp => ?_).imp_right fun hmem id e he =>
        hmem (id, e) (hlists.mem_iff.mpr he))
      have he := hlists.mem_iff.mp (Clearing.cleared_subset _ _ hp)
      exact hall p.1 p.2 he ((getElem?_makeRoom_eq_none hfull he).mpr hp)
    · rintro (hroom | henough) id e he hnone
      · omega
      · refine hwithin.mpr (henough.imp_right fun hall p hp => hall p.1 p.2 ?_) (id, e)
          ((getElem?_makeRoom_eq_none hfull he).mp hnone)
        exact hlists.mem_iff.mp hp
  · refine iff_of_true (fun id e he hnone => ?_) (Or.inl (by omega))
    unfold makeRoom at hnone
    rw [if_neg hfull, he] at hnone
    cases hnone

/-! ## The priority of the newcomer -/

/-- The bytes of the entries of a kind, without the one that a transaction replaces. -/
def bytesBeside (pool : Mempool) (tx : Transaction) (kind : MempoolEntry → Prop)
    [DecidablePred kind] : ℕ :=
  FiniteMap.total (fun e => if Rivals tx e then 0 else if kind e then e.txSize else 0) pool.entries

/-- A transaction has to push out entries of higher priority to fit. -/
def FitsOnlyOverWorthier (tx : Transaction) (priorityScore : UInt64) (pool : Mempool) : Prop :=
  mempoolMaxSizeBytes <
    pool.bytesBeside tx (fun e => priorityScore < e.priorityScore) + serializedSize tx

/-- An addition evicts no entry of higher priority, and a transaction that would have to is
refused and leaves the pool as it was. -/
structure EvictsFairly (P : Primitives) (order : IterOrder) (tx : Transaction)
    (priorityScore submittedAt accountNonce suggestedFee expectedChainId : UInt64)
    (pool : Mempool) : Prop where
  evicted : ∀ pool', addTransaction P order tx priorityScore submittedAt accountNonce suggestedFee
    expectedChainId pool = .ok ⟨⟩ pool' →
    ∀ (id : ObjectId) (e : MempoolEntry), pool.entries[id]? = some e → ¬Rivals tx e →
      pool'.entries[id]? = none → e.priorityScore ≤ priorityScore
  refused : FitsOnlyOverWorthier tx priorityScore pool →
    ∃ e, addTransaction P order tx priorityScore submittedAt accountNonce suggestedFee
      expectedChainId pool = .error e pool

/-- There is room for a transaction, or entries up to its priority take as many bytes as it
does, or there are no others. -/
def HasWay (tx : Transaction) (priorityScore : UInt64) (pool : Mempool) : Prop :=
  pool.bytesBeside tx (fun _ => True) + serializedSize tx ≤ mempoolMaxSizeBytes ∨
    serializedSize tx ≤ pool.bytesBeside tx (fun e => e.priorityScore ≤ priorityScore) ∨
    ∀ (id : ObjectId) (e : MempoolEntry), pool.entries[id]? = some e → ¬Rivals tx e →
      e.priorityScore ≤ priorityScore

theorem bytesBeside_split (pool : Mempool) (tx : Transaction) (priorityScore : UInt64) :
    pool.bytesBeside tx (fun e => e.priorityScore ≤ priorityScore) +
        pool.bytesBeside tx (fun e => priorityScore < e.priorityScore) =
      pool.bytesBeside tx fun _ => True := by
  unfold bytesBeside FiniteMap.total
  generalize pool.entries.toList = entries
  induction entries with
  | nil => rfl
  | cons p entries ih =>
    simp only [List.map_cons, List.sum_cons]
    rw [← ih]
    by_cases hrivals : Rivals tx p.2
    · simp [hrivals]
    · by_cases hle : p.2.priorityScore ≤ priorityScore
      · have hnot : ¬priorityScore < p.2.priorityScore := UInt64.not_lt.mpr hle
        simp only [hrivals, hle, hnot, if_true, if_false]
        omega
      · have hlt : priorityScore < p.2.priorityScore := UInt64.not_le.mp hle
        simp only [hrivals, hle, hlt, if_true, if_false]
        omega

theorem totalSize_withoutReplaced (h : pool.Consistent) (order : IterOrder) (tx : Transaction) :
    (pool.withoutReplaced order tx).totalSize = pool.bytesBeside tx fun _ => True := by
  rw [(h.withoutReplaced order tx).totalSize_eq, total_withoutReplaced h]
  simp [bytesBeside]

theorem totalSize_withoutReplaced_le (h : pool.Consistent) (order : IterOrder) (tx : Transaction) :
    (pool.withoutReplaced order tx).totalSize ≤ mempoolMaxSizeBytes :=
  (h.withoutReplaced order tx).totalSize_le

section Addition

variable {P : Primitives} {priorityScore submittedAt accountNonce suggestedFee : UInt64}
  {expectedChainId : UInt64}

/-- What leaves the pool besides the replaced entry makes room for the newcomer. -/
theorem evicted_iff {pool' : Mempool} (h : pool.Consistent)
    (hrun : addTransaction P order tx priorityScore submittedAt accountNonce suggestedFee
      expectedChainId pool = .ok ⟨⟩ pool') {id : ObjectId} {e : MempoolEntry}
    (he : (pool.withoutReplaced order tx).entries[id]? = some e) :
    pool'.entries[id]? = none ↔ (makeRoom order (serializedSize tx)
      (pool.withoutReplaced order tx)).entries[id]? = none := by
  have hgates := (exists_addTransaction_iff h).mp ⟨pool', hrun⟩
  have hfresh : ¬tx.txId = id := by
    rintro rfl
    have hold := ((getElem?_withoutReplaced h).mp he).1
    rw [getElem?_neg _ _ hgates.fresh] at hold
    cases hold
  rw [addTransaction_eq_ok hrun]
  unfold insert
  dsimp only
  rw [FiniteMap.getElem?_insert', if_neg hfresh]

/-- One addition is fair exactly when the transaction misses a gate or has a way in that no
worthier entry stands in. -/
theorem evictsFairly_addition (h : pool.Consistent) :
    EvictsFairly P order tx priorityScore submittedAt accountNonce suggestedFee expectedChainId
        pool ↔
      (Gates P order tx accountNonce suggestedFee expectedChainId pool →
        HasWay tx priorityScore pool) := by
  have hway := makeRoom_within_iff (pool.withoutReplaced order tx) order
    (serializedSize tx) priorityScore
  have hlow : FiniteMap.total (fun e => if e.priorityScore ≤ priorityScore then e.txSize else 0)
      (pool.withoutReplaced order tx).entries =
        pool.bytesBeside tx fun e => e.priorityScore ≤ priorityScore :=
    total_withoutReplaced h order tx _
  rw [totalSize_withoutReplaced h, hlow] at hway
  constructor
  · intro hfair hgates
    obtain ⟨pool', hrun⟩ := (exists_addTransaction_iff h).mpr hgates
    refine (hway.mp fun id e he hnone => ?_).imp_right (Or.imp_right fun hall id e he hnot =>
      hall id e ((getElem?_withoutReplaced h).mpr ⟨he, hnot⟩))
    obtain ⟨hold, hnot⟩ := (getElem?_withoutReplaced h).mp he
    exact hfair.evicted pool' hrun id e hold hnot ((evicted_iff h hrun he).mpr hnone)
  · intro hcondition
    constructor
    · intro pool' hrun id e he hnot hnone
      have hgates := (exists_addTransaction_iff h).mp ⟨pool', hrun⟩
      have hin : (pool.withoutReplaced order tx).entries[id]? = some e :=
        (getElem?_withoutReplaced h).mpr ⟨he, hnot⟩
      refine hway.mpr ((hcondition hgates).imp_right (Or.imp_right fun hall id e he => ?_)) id e hin
        ((evicted_iff h hrun hin).mp hnone)
      obtain ⟨hold, hnot⟩ := (getElem?_withoutReplaced h).mp he
      exact hall id e hold hnot
    · intro hworthier
      have hends := addTransaction_ends P order tx priorityScore submittedAt accountNonce
        suggestedFee expectedChainId h
      cases hrun : addTransaction P order tx priorityScore submittedAt accountNonce suggestedFee
          expectedChainId pool with
      | error e pool' => exact ⟨e, by rw [(hends.error hrun).1.1]⟩
      | ok u pool' =>
        -- a newcomer with a way in leaves every worthier entry where it is
        obtain ⟨-, hgates, -⟩ := hends.ok hrun
        have hsplit := bytesBeside_split pool tx priorityScore
        have hfits := totalSize_withoutReplaced_le h order tx
        have hsize : serializedSize tx ≤ mempoolMaxSizeBytes := hgates.size_le.trans (by decide)
        rw [totalSize_withoutReplaced h] at hfits
        unfold FitsOnlyOverWorthier at hworthier
        rcases hcondition hgates with hroom | henough | hnone
        · omega
        · omega
        · have hzero : pool.bytesBeside tx (fun e => priorityScore < e.priorityScore) = 0 := by
            unfold bytesBeside
            rw [FiniteMap.total_congr (g := fun _ => 0)]
            · simp [FiniteMap.total]
            · intro id e he
              split
              · rfl
              · rename_i hnot
                exact if_neg (UInt64.not_lt.mpr (hnone id e he hnot))
          omega

end Addition

/-! ## Runs -/

/-- The law for an operation on the pool. -/
def Operation.EvictsFairly (P : Primitives) (pool : Mempool) : Operation → Prop
  | .addTransaction order tx priorityScore submittedAt accountNonce suggestedFee
      expectedChainId =>
    Mempool.EvictsFairly P order tx priorityScore submittedAt accountNonce suggestedFee
      expectedChainId pool
  | .removeTransaction _ => True
  | .evictExpired _ => True

/-- The condition on an operation: a transaction that passes the gates has a way in. -/
def Operation.HasWay (P : Primitives) (pool : Mempool) : Operation → Prop
  | .addTransaction order tx priorityScore _ accountNonce suggestedFee expectedChainId =>
    Gates P order tx accountNonce suggestedFee expectedChainId pool →
      Mempool.HasWay tx priorityScore pool
  | .removeTransaction _ => True
  | .evictExpired _ => True

/-- In a run of operations on a new pool, no addition evicts an entry of higher priority if and
only if every transaction that passes the gates finds room, or enough bytes of entries up to its
priority, or no others. -/
theorem evictsFairly_iff (P : Primitives) (operations : List Operation) :
    Transition.EveryStep (perform P) (fun pool operation => operation.EvictsFairly P pool) new
        operations ↔
      Transition.EveryStep (perform P) (fun pool operation => operation.HasWay P pool) new
        operations := by
  have hstep (pool : Mempool) (operation : Operation) (h : pool.Consistent) :
      (perform P pool operation).Consistent := consistent_perform P h operation
  refine Transition.everyStep_congr hstep (fun pool operation h => ?_) consistent_new
  cases operation with
  | addTransaction order tx priorityScore submittedAt accountNonce suggestedFee expectedChainId =>
    exact evictsFairly_addition h
  | removeTransaction txId => exact Iff.rfl
  | evictExpired currentTime => exact Iff.rfl

end Opolys.Mempool

/-! ## A full pool -/

namespace Opolys.Reference

open Std (ExtTreeMap)
open Codec (Borsh FixedBytes leBytes)
open Mempool

/-- The last 32 bytes of a message. -/
def tailHash (msg : List UInt8) : Hash where
  bytes := (List.replicate 32 0 ++ msg).drop msg.length
  length_bytes := by
    rw [List.length_drop, List.length_append, List.length_replicate, Nat.add_sub_cancel]

theorem tailHash_append (start last : List UInt8) (h : last.length = 32) :
    (tailHash (start ++ last)).bytes = last := by
  unfold tailHash
  dsimp only
  rw [← List.append_assoc, List.drop_left']
  rw [List.length_append, List.length_append, List.length_replicate, h, Nat.add_comm]

/-- Primitives with that hash, whose public keys are the seeds. -/
def tailPrimitives : Primitives :=
  { primitives with blake3 := tailHash, verifyingKey := id, sign := signature }

def bulkyKey (n : ℕ) : FixedBytes 32 := ⟨leBytes 32 n, Codec.length_leBytes _ _⟩

def bulkySender (n : ℕ) : ObjectId := ed25519PublicKeyToObjectId tailPrimitives (bulkyKey n)

/-- A bond of one OPL with so much data that it takes 100000 bytes. -/
def bulky (fee : FlakeAmount) (n : ℕ) : Transaction :=
  let content := Borsh.encode
    (transactionContent (bulkySender n) (.refinerBond 1000000) fee 0 mainnetChainId)
  { txId := hashToObjectIdWithDomain tailPrimitives domainTxId content
    sender := bulkySender n
    action := .refinerBond 1000000
    fee
    signature := (signature (bulkyKey n) (domainTxSignature ++ content)).bytes
    signatureType := signatureTypeEd25519
    nonce := 0
    chainId := mainnetChainId
    data := List.replicate 99794 0
    publicKey := (bulkyKey n).bytes }

theorem verifies_bulky (fee : FlakeAmount) (n : ℕ) :
    (bulky fee n).Verifies tailPrimitives mainnetChainId where
  chainId_eq := rfl
  txId_eq := rfl
  signatureType_eq := rfl
  key := ⟨bulkyKey n, rfl, rfl⟩
  signature := verifyEd25519_eq_true.mpr ⟨bulkyKey n, _, rfl, rfl, rfl, decide_eq_true rfl⟩

theorem bulkySender_inj {n m : ℕ} (hn : n < 2 ^ 16) (hm : m < 2 ^ 16)
    (h : bulkySender n = bulkySender m) : n = m := by
  have hbytes (n : ℕ) : (bulkySender n).hash.bytes = leBytes 32 n :=
    tailHash_append domainObjectId (leBytes 32 n) (Codec.length_leBytes _ _)
  have hle : (2 ^ 16 : ℕ) < 256 ^ 32 := by decide
  refine Codec.leBytes_inj (hn.trans hle) (hm.trans hle) ?_
  rw [← hbytes, ← hbytes, h]

theorem encode_bond (sender : ObjectId) (amount fee : FlakeAmount) (nonce chainId : UInt64) :
    Borsh.encode (transactionContent sender (.refinerBond amount) fee nonce chainId) =
      (Borsh.encode sender ++ [1]) ++ Borsh.encode (amount, fee, nonce, chainId) := by
  rw [List.append_assoc]
  rfl

/-- The identifier ends with the fee. -/
theorem fee_of_txId {fee fee' : FlakeAmount} {n m : ℕ}
    (h : (bulky fee n).txId = (bulky fee' m).txId) : fee = fee' := by
  have hbytes (fee : FlakeAmount) (n : ℕ) : (bulky fee n).txId.hash.bytes =
      Borsh.encode ((1000000 : UInt64), fee, (0 : UInt64), mainnetChainId) := by
    unfold bulky hashToObjectIdWithDomain hashWithDomain
    dsimp only
    rw [encode_bond, ← List.append_assoc]
    refine tailHash_append _ _ ?_
    simp only [length_encode_pair, length_encode_uint64]
  rw [← ObjectId.hash_injective.eq_iff, ← FixedBytes.bytes_injective.eq_iff, hbytes, hbytes] at h
  have hfields := Borsh.encode_inj rfl rfl h
  simp only [Prod.mk.injEq] at hfields
  exact hfields.2.1

theorem serializedSize_of_lengths {tx : Transaction} {action signature data key : ℕ}
    (haction : (Borsh.encode tx.action).length = action)
    (hsignature : tx.signature.length = signature)
    (hdata : tx.data.length = data) (hkey : tx.publicKey.length = key) (hfit : signature < 2 ^ 32 ∧
      data < 2 ^ 32 ∧ key < 2 ^ 32) :
    serializedSize tx = 101 + action + signature + data + key := by
  have hfits : Borsh.fits tx = true := fits_transaction (by omega) (by omega) (by omega)
  unfold serializedSize Borsh.toVec
  rw [if_pos hfits]
  dsimp only
  rw [length_encode_transaction, haction, hsignature, hdata, hkey]

theorem serializedSize_bulky (fee : FlakeAmount) (n : ℕ) :
    serializedSize (bulky fee n) = 100000 := by
  have haction : (Borsh.encode (bulky fee n).action).length = 9 := rfl
  have hdata : (bulky fee n).data.length = 99794 := List.length_replicate
  exact serializedSize_of_lengths haction (FixedBytes.length_bytes _) hdata
    (FixedBytes.length_bytes _) (by decide)

/-! ### Filling it -/

/-- The entry of a transaction that comes by gossip: its priority is its fee. -/
def bulkyEntry (fee : FlakeAmount) (n : ℕ) : MempoolEntry := ⟨bulky fee n, fee, 100000, 0⟩

/-- The fee of a place in the queue, at least 1000. -/
def bulkyFee (n : ℕ) : FlakeAmount := UInt64.ofNat (1000 + n)

theorem toNat_bulkyFee {n : ℕ} (h : n < 2 ^ 16) : (bulkyFee n).toNat = 1000 + n :=
  MachineInt.toNat_ofNat_of_lt (by omega)

/-- The arrival of a transaction. -/
def arrival (fee : FlakeAmount) (n : ℕ) : Operation :=
  .addTransaction .byId (bulky fee n) fee 0 0 1 mainnetChainId

/-- The pool holds the transactions below a place, and only those. -/
structure Filled (n : ℕ) (pool : Mempool) : Prop where
  consistent : pool.Consistent
  totalSize : pool.totalSize = n * 100000
  entries : ∀ {id : ObjectId} {e : MempoolEntry}, pool.entries[id]? = some e →
    ∃ m < n, e = bulkyEntry (bulkyFee m) m

theorem Filled.not_rivals {n : ℕ} {pool : Mempool} (h : Filled n pool) (hn : n < 2 ^ 16)
    (fee : FlakeAmount) {id : ObjectId} {e : MempoolEntry} (he : pool.entries[id]? = some e) :
    e.transaction.sender ≠ (bulky fee n).sender := by
  obtain ⟨m, hm, rfl⟩ := h.entries he
  intro hsender
  have := bulkySender_inj (hm.trans hn) hn hsender
  omega

/-- A transaction of a new sender and a new fee passes the gates. -/
theorem Filled.gates {n : ℕ} {pool : Mempool} (h : Filled n pool) (hn : n < 2 ^ 16)
    {fee : FlakeAmount} (hfee : 10 ≤ fee.toNat) (hnew : ∀ m < n, fee ≠ bulkyFee m) :
    Gates tailPrimitives .byId (bulky fee n) 0 1 mainnetChainId pool := by
  have hnone {id : ObjectId} {e : MempoolEntry} (he : pool.entries[id]? = some e) :
      e.transaction.sender ≠ (bulky fee n).sender := h.not_rivals hn fee he
  have hcount : pool.countOf (bulky fee n).sender = 0 := by
    unfold countOf
    rw [List.countP_eq_zero]
    intro p hp hsender
    exact hnone (FiniteMap.mem_toList.mp hp) (of_decide_eq_true hsender)
  refine ⟨verifyTransactionForMempool_eq_ok.mpr (verifies_bulky fee n), ?_, ?_, ?_, ?_,
    UInt64.le_iff_toNat_le.mpr (Nat.zero_le _), fun hmem => ?_, fun entry hentry => ?_⟩
  · rw [UInt64.le_iff_toNat_le, toNat_minFee]
    exact (by omega : 1 ≤ 10).trans hfee
  · refine UInt64.le_iff_toNat_le.mpr (le_trans ?_ hfee)
    unfold effectiveMinFee
    dsimp only
    have hratio : capacityRatio.toNat = 10 := by decide
    have hone : (1 : UInt64).toNat = 1 := rfl
    rw [MachineInt.toNat_max, MachineInt.toNat_saturatingMul, toNat_minFee, hratio, hone,
      MachineInt.toNat_ofNat_of_lt (by omega)]
    omega
  · rw [serializedSize_bulky]
    decide
  · rw [ExtTreeMap.getD_eq_getD_getElem?, h.consistent.count_eq, hcount, if_pos rfl]
    decide
  · obtain ⟨e, he⟩ := Option.isSome_iff_exists.mp (ExtTreeMap.isSome_getElem?_iff_mem.mpr hmem)
    obtain ⟨m, hm, rfl⟩ := h.entries he
    exact hnew m hm (fee_of_txId (h.consistent.key_eq he))
  · obtain ⟨hrivals, id, he⟩ := findReplaced_eq_some hentry
    exact absurd hrivals.1 (hnone he)

theorem Filled.withoutReplaced {n : ℕ} {pool : Mempool} (h : Filled n pool) (hn : n < 2 ^ 16)
    (fee : FlakeAmount) : pool.withoutReplaced .byId (bulky fee n) = pool := by
  unfold Mempool.withoutReplaced
  split
  · rfl
  · rename_i old hsome
    obtain ⟨hrivals, id, he⟩ := findReplaced_eq_some hsome
    exact absurd hrivals.1 (h.not_rivals hn fee he)

/-- As long as there is room, the next transaction is added. -/
theorem Filled.next {n : ℕ} {pool : Mempool} (h : Filled n pool) (hn : n < 1000) :
    Filled (n + 1) (perform tailPrimitives pool (arrival (bulkyFee n) n)) := by
  have hword : n < 2 ^ 16 := by omega
  have hfee := toNat_bulkyFee hword
  have hgates : Gates tailPrimitives .byId (bulky (bulkyFee n) n) 0 1 mainnetChainId pool := by
    refine h.gates hword (by omega) fun m hm heq => ?_
    rw [← UInt64.toNat_inj, hfee, toNat_bulkyFee (by omega)] at heq
    omega
  have hadded : ∃ pool', addTransaction tailPrimitives .byId (bulky (bulkyFee n) n) (bulkyFee n) 0 0
      1 mainnetChainId pool = .ok ⟨⟩ pool' := (exists_addTransaction_iff h.consistent).mpr hgates
  obtain ⟨pool', hrun⟩ := hadded
  have hpool := addTransaction_eq_ok hrun
  rw [serializedSize_bulky, h.withoutReplaced hword, makeRoom,
    if_neg (by rw [h.totalSize]; unfold mempoolMaxSizeBytes; omega)] at hpool
  have hperform : perform tailPrimitives pool (arrival (bulkyFee n) n) = pool' := by
    unfold perform arrival
    dsimp only
    rw [hrun]
  refine ⟨consistent_perform _ h.consistent _, ?_, fun {id e} he => ?_⟩
  · rw [hperform, hpool]
    change pool.totalSize + 100000 = _
    rw [h.totalSize]
    omega
  · rw [hperform, hpool] at he
    rcases getElem?_insert_cases he with ⟨-, rfl⟩ | hold
    · exact ⟨n, Nat.lt_succ_self n, rfl⟩
    · obtain ⟨m, hm, rfl⟩ := h.entries hold
      exact ⟨m, Nat.lt_succ_of_lt hm, rfl⟩

/-- The arrivals that fill a pool to the last byte. -/
def filling (n : ℕ) : List Operation := (List.range n).map fun m => arrival (bulkyFee m) m

theorem filled {n : ℕ} (hn : n ≤ 1000) :
    Filled n (Transition.run (perform tailPrimitives) Mempool.new (filling n)) := by
  induction n with
  | zero => exact ⟨consistent_new, rfl, fun he => by simp [filling, Mempool.new] at he⟩
  | succ n ih =>
    unfold filling
    rw [List.range_succ, List.map_append, Transition.run_append]
    exact (ih (by omega)).next hn

/-- A cheap transaction has no way into a full pool. -/
theorem Filled.not_hasWay {n : ℕ} {pool : Mempool} (h : Filled n pool) (hn : n = 1000)
    {fee : FlakeAmount} (hfee : fee.toNat < 1000) : ¬HasWay (bulky fee n) fee pool := by
  have hword : n < 2 ^ 16 := by omega
  have hworth {id : ObjectId} {e : MempoolEntry} (he : pool.entries[id]? = some e) :
      ¬e.priorityScore ≤ fee := by
    obtain ⟨m, hm, rfl⟩ := h.entries he
    rw [UInt64.le_iff_toNat_le]
    change ¬(bulkyFee m).toNat ≤ fee.toNat
    rw [toNat_bulkyFee (by omega)]
    omega
  have htotal := totalSize_withoutReplaced h.consistent .byId (bulky fee n)
  rw [h.withoutReplaced hword, h.totalSize] at htotal
  rintro (hroom | henough | hnone)
  · have hmax : mempoolMaxSizeBytes = 100000000 := rfl
    rw [← htotal, serializedSize_bulky] at hroom
    omega
  · rw [serializedSize_bulky, bytesBeside, FiniteMap.total_congr (g := fun _ => 0)] at henough
    · simp [FiniteMap.total] at henough
    · intro id e he
      rw [if_neg (hworth he), ite_self]
  · -- a pool without any entry would take no bytes
    have hempty : FiniteMap.total MempoolEntry.txSize pool.entries = 0 := by
      rw [FiniteMap.total_congr (g := fun _ => 0)]
      · simp [FiniteMap.total]
      · intro id e he
        exact absurd (hnone id e he fun hrivals => h.not_rivals hword fee he hrivals.1) (hworth he)
    rw [← h.consistent.totalSize_eq, h.totalSize] at hempty
    omega

theorem not_evictsFairly_filling {n : ℕ} (hn : n = 1000) :
    ¬Transition.EveryStep (perform tailPrimitives)
      (fun pool operation => operation.EvictsFairly tailPrimitives pool) Mempool.new
      (filling n ++ [arrival 10 n]) := by
  rw [Transition.everyStep_append]
  rintro ⟨-, hfair, -⟩
  have h := filled hn.le
  have hten : (10 : FlakeAmount).toNat = 10 := rfl
  refine h.not_hasWay hn (by omega) ((evictsFairly_addition h.consistent).mp hfair
    (h.gates (by omega) (by omega) fun m hm heq => ?_))
  rw [← UInt64.toNat_inj, toNat_bulkyFee (by omega), hten] at heq
  omega

/-- Into a full pool of entries of a priority of at least 1000 comes a transaction of priority
10, and the least of them makes room for it. -/
theorem worthier_evicted : ¬Transition.EveryStep (perform tailPrimitives)
    (fun pool operation => operation.EvictsFairly tailPrimitives pool) Mempool.new
    (filling 1000 ++ [arrival 10 1000]) :=
  not_evictsFairly_filling rfl

end Opolys.Reference
