import Opolys.Consensus.Eviction

/-!
# What a replacement pays

A transaction takes the place of another of its sender and nonce for a fee that is ten percent
higher. The source multiplies the old fee by 11 before it divides by 10, and the product stops
at the greatest word, so that a fee from a tenth of that on replaces every higher one.

* `replacementsPay_iff` : when all replacements of a run pay, and the fees of a slot increase.
-/

namespace Opolys.Mempool

open Effect
open MachineInt (saturatingMul)

variable {P : Primitives} {pool : Mempool} {order : IterOrder} {tx : Transaction}

/-! ## The threshold -/

theorem toNat_minReplacementFee (oldFee : FlakeAmount) :
    (minReplacementFee oldFee).toNat = (min (oldFee.toNat * 11) (2 ^ 64 - 1) + 9) / 10 := by
  have heleven : (11 : UInt64).toNat = 11 := rfl
  unfold minReplacementFee
  rw [MachineInt.toNat_saturatingMul, heleven]
  apply MachineInt.toNat_ofNat_of_lt
  omega

/-- The fee pays ten percent more than another. -/
def Outpays (oldFee newFee : FlakeAmount) : Prop := 11 * oldFee.toNat ≤ 10 * newFee.toNat

instance (oldFee newFee : FlakeAmount) : Decidable (Outpays oldFee newFee) :=
  inferInstanceAs (Decidable (_ ≤ _))

/-- The fees for which the threshold is too low: eleven times the old one does not fit in a word,
and the new one is from a tenth of the greatest word on. -/
def Undercuts (oldFee newFee : FlakeAmount) : Prop :=
  2 ^ 64 ≤ 11 * oldFee.toNat ∧ 1844674407370955162 ≤ newFee.toNat ∧
    10 * newFee.toNat < 11 * oldFee.toNat

/-- The threshold is right except for these fees. -/
theorem outpays_iff {oldFee newFee : FlakeAmount} (h : minReplacementFee oldFee ≤ newFee) :
    Outpays oldFee newFee ↔ ¬Undercuts oldFee newFee := by
  rw [UInt64.le_iff_toNat_le, toNat_minReplacementFee] at h
  have hword := oldFee.toNat_lt
  unfold Outpays Undercuts
  by_cases hfits : 11 * oldFee.toNat < 2 ^ 64
  · have hmin : min (oldFee.toNat * 11) (2 ^ 64 - 1) = oldFee.toNat * 11 :=
      Nat.min_eq_left (by omega)
    rw [hmin] at h
    omega
  · have hmin : min (oldFee.toNat * 11) (2 ^ 64 - 1) = 2 ^ 64 - 1 := Nat.min_eq_right (by omega)
    rw [hmin] at h
    omega

/-! ## Slots -/

/-- An entry of the pool has the sender and the nonce. -/
def Occupies (sender : ObjectId) (nonce : UInt64) (e : MempoolEntry) (pool : Mempool) : Prop :=
  ∃ id : ObjectId, pool.entries[id]? = some e ∧ e.transaction.sender = sender ∧
    e.transaction.nonce = nonce

/-- A slot has one occupant. -/
theorem Occupies.unique (h : pool.Consistent) {sender : ObjectId} {nonce : UInt64}
    {e e' : MempoolEntry} (he : Occupies sender nonce e pool)
    (he' : Occupies sender nonce e' pool) :
    e = e' := by
  obtain ⟨id, hid, hsender, hnonce⟩ := he
  obtain ⟨id', hid', hsender', hnonce'⟩ := he'
  have hsame := h.nonce_unique hid hid' (hsender.trans hsender'.symm) (hnonce.trans hnonce'.symm)
  rw [hsame, hid'] at hid
  exact (Option.some.inj hid).symm

/-- No entry pays less than the minimum. -/
def PaysMinimum (pool : Mempool) : Prop :=
  ∀ (id : ObjectId) (e : MempoolEntry), pool.entries[id]? = some e → minFee ≤ e.transaction.fee

/-! ## Operations -/

/-- What an operation leaves: entries of the pool before it, and at most one that has been added
after it passed the gates. -/
theorem perform_cases (h : pool.Consistent) (operation : Operation) {id : ObjectId}
    {e : MempoolEntry} (he : (perform P pool operation).entries[id]? = some e) :
    pool.entries[id]? = some e ∨
      ∃ order tx priorityScore submittedAt accountNonce suggestedFee expectedChainId,
        operation = .addTransaction order tx priorityScore submittedAt accountNonce suggestedFee
          expectedChainId ∧
        Gates P order tx accountNonce suggestedFee expectedChainId pool ∧ e.transaction = tx := by
  cases operation with
  | addTransaction order tx priorityScore submittedAt accountNonce suggestedFee expectedChainId =>
    have hends := addTransaction_ends P order tx priorityScore submittedAt accountNonce
      suggestedFee expectedChainId h
    unfold perform at he
    dsimp only at he
    split at he <;> rename_i hrun
    · obtain ⟨-, hgates, henters⟩ := hends.ok hrun
      rcases henters.old he with ⟨-, rfl⟩ | hold
      · exact Or.inr ⟨_, _, _, _, _, _, _, rfl, hgates, rfl⟩
      · exact Or.inl hold
    · rw [(hends.error hrun).1.1] at he
      exact Or.inl he
  | removeTransaction txId => exact Or.inl ((shrinks_removeTransaction pool txId).entries he)
  | evictExpired currentTime => exact Or.inl ((shrinks_evictExpired pool currentTime).entries he)

theorem PaysMinimum.perform (h : pool.PaysMinimum) (hpool : pool.Consistent)
    (operation : Operation) : (Mempool.perform P pool operation).PaysMinimum := by
  intro id e he
  rcases perform_cases hpool operation he with hold | ⟨_, _, _, _, _, _, _, -, hgates, rfl⟩
  · exact h id e hold
  · exact hgates.minFee_le

/-- The law for one operation: what an accepted transaction replaces has paid less. -/
def Operation.Outpays (P : Primitives) (pool : Mempool) : Operation → Prop
  | .addTransaction order tx priorityScore submittedAt accountNonce suggestedFee
      expectedChainId =>
    ∀ pool', Mempool.addTransaction P order tx priorityScore submittedAt accountNonce suggestedFee
        expectedChainId pool = .ok ⟨⟩ pool' →
      ∀ e, Occupies tx.sender tx.nonce e pool → Mempool.Outpays e.transaction.fee tx.fee
  | .removeTransaction _ => True
  | .evictExpired _ => True

/-- The condition on an operation: a transaction that passes the gates does not undercut. -/
def Operation.Fits (P : Primitives) (pool : Mempool) : Operation → Prop
  | .addTransaction order tx _ _ accountNonce suggestedFee expectedChainId =>
    Gates P order tx accountNonce suggestedFee expectedChainId pool →
      ∀ e, Occupies tx.sender tx.nonce e pool → ¬Undercuts e.transaction.fee tx.fee
  | .removeTransaction _ => True
  | .evictExpired _ => True

/-- A transaction that passes the gates reaches the threshold of what it replaces. -/
theorem Gates.minReplacementFee_le {accountNonce suggestedFee expectedChainId : UInt64}
    (h : Gates P order tx accountNonce suggestedFee expectedChainId pool) (hpool : pool.Consistent)
    {e : MempoolEntry} (he : Occupies tx.sender tx.nonce e pool) :
    minReplacementFee e.transaction.fee ≤ tx.fee := by
  obtain ⟨id, hid, hrivals⟩ := he
  cases hfound : pool.findReplaced order tx with
  | none => exact absurd hrivals (findReplaced_eq_none hfound hid)
  | some old =>
    obtain ⟨hrivals', oldId, hold⟩ := findReplaced_eq_some hfound
    have hsame : e = old := Occupies.unique hpool ⟨id, hid, hrivals⟩ ⟨oldId, hold, hrivals'⟩
    rw [hsame]
    exact h.outbids old hfound

theorem outpays_operation (h : pool.Consistent) (operation : Operation) :
    operation.Outpays P pool ↔ operation.Fits P pool := by
  cases operation with
  | addTransaction order tx priorityScore submittedAt accountNonce suggestedFee expectedChainId =>
    have hadded : (∃ pool', addTransaction P order tx priorityScore submittedAt accountNonce
        suggestedFee expectedChainId pool = .ok ⟨⟩ pool') ↔
          Gates P order tx accountNonce suggestedFee expectedChainId pool :=
      exists_addTransaction_iff h
    constructor
    · intro houtpays hgates e he
      obtain ⟨pool', hrun⟩ := hadded.mpr hgates
      exact (outpays_iff (hgates.minReplacementFee_le h he)).mp (houtpays pool' hrun e he)
    · intro hfits pool' hrun e he
      have hgates := hadded.mp ⟨pool', hrun⟩
      exact (outpays_iff (hgates.minReplacementFee_le h he)).mpr (hfits hgates e he)
  | removeTransaction txId => exact Iff.rfl
  | evictExpired currentTime => exact Iff.rfl

/-! ## Runs -/

/-- Whoever holds the slot holds it since `e`, or has paid more. -/
def Climbed (sender : ObjectId) (nonce : UInt64) (e : MempoolEntry) (pool : Mempool) : Prop :=
  ∀ e', Occupies sender nonce e' pool → e' = e ∨ e.transaction.fee < e'.transaction.fee

theorem Outpays.lt {oldFee newFee : FlakeAmount} (h : Outpays oldFee newFee)
    (hmin : minFee ≤ oldFee) : oldFee < newFee := by
  rw [UInt64.le_iff_toNat_le, toNat_minFee] at hmin
  rw [UInt64.lt_iff_toNat_lt]
  unfold Outpays at h
  omega

/-- While a slot is taken, its fee does not fall. -/
theorem Climbed.perform {sender : ObjectId} {nonce : UInt64} {e : MempoolEntry}
    (h : Climbed sender nonce e pool) (hpool : pool.Consistent) (hmin : pool.PaysMinimum)
    (htaken : ∃ e', Occupies sender nonce e' pool) {operation : Operation}
    (hpays : operation.Outpays P pool) :
    Climbed sender nonce e (Mempool.perform P pool operation) := by
  obtain ⟨now, hnow⟩ := htaken
  rintro e' ⟨key, hkey, rfl, rfl⟩
  rcases perform_cases hpool operation hkey with hold | ⟨_, _, _, _, _, _, _, rfl, hgates, hnew⟩
  · exact h e' ⟨key, hold, rfl, rfl⟩
  · obtain ⟨pool', hrun⟩ := (exists_addTransaction_iff hpool).mpr hgates
    rw [hnew] at hnow h
    have hup : Mempool.Outpays now.transaction.fee e'.transaction.fee := by
      rw [hnew]
      exact hpays pool' hrun now hnow
    have hlt : now.transaction.fee < e'.transaction.fee := by
      obtain ⟨nowKey, hnowKey, -⟩ := hnow
      exact hup.lt (hmin nowKey now hnowKey)
    right
    rcases h now hnow with rfl | hless
    · exact hlt
    · exact UInt64.lt_trans hless hlt

theorem sound_perform (h : pool.Consistent ∧ pool.PaysMinimum) (operation : Operation) :
    (Mempool.perform P pool operation).Consistent ∧
      (Mempool.perform P pool operation).PaysMinimum :=
  ⟨consistent_perform P h.1 operation, h.2.perform h.1 operation⟩

/-- The same along a run in which the slot stays taken. -/
theorem Climbed.run {sender : ObjectId} {nonce : UInt64} {e : MempoolEntry}
    (h : Climbed sender nonce e pool) (hpool : pool.Consistent ∧ pool.PaysMinimum)
    {operations : List Operation}
    (htaken : Transition.EveryState (Mempool.perform P)
      (fun pool => ∃ e, Occupies sender nonce e pool) pool operations)
    (hpays : Transition.EveryStep (Mempool.perform P)
      (fun pool operation => operation.Outpays P pool) pool operations) :
    Climbed sender nonce e (Transition.run (Mempool.perform P) pool operations) := by
  induction operations generalizing pool with
  | nil => exact h
  | cons operation operations ih =>
    exact ih (h.perform hpool.1 hpool.2 htaken.1 hpays.1) (sound_perform hpool operation)
      htaken.2 hpays.2

/-- Every replacement in a run of operations pays ten percent more than what it replaces, and as
long as a slot stays taken, each of its transactions pays more than the ones before it. -/
structure ReplacementsPay (P : Primitives) (operations : List Operation) : Prop where
  step : ∀ before operation after, operations = before ++ operation :: after →
    operation.Outpays P (Transition.run (Mempool.perform P) new before)
  chain : ∀ before middle after, operations = before ++ (middle ++ after) →
    ∀ sender nonce e e', Occupies sender nonce e (Transition.run (Mempool.perform P) new before) →
      Transition.EveryState (Mempool.perform P) (fun pool => ∃ e, Occupies sender nonce e pool)
        (Transition.run (Mempool.perform P) new before) middle →
      Occupies sender nonce e' (Transition.run (Mempool.perform P) new (before ++ middle)) →
      e' = e ∨ e.transaction.fee < e'.transaction.fee

/-- In a run of operations on a new pool, every replacement pays if and only if none of those
that pass the gates undercuts: no transaction replaces a fee of which eleven times does not fit
in a word with a smaller one from a tenth of the greatest word on. -/
theorem replacementsPay_iff (P : Primitives) (operations : List Operation) :
    ReplacementsPay P operations ↔
      Transition.EveryStep (Mempool.perform P) (fun pool operation => operation.Fits P pool) new
        operations := by
  have hsound (pool : Mempool) (operation : Operation) (h : pool.Consistent ∧ pool.PaysMinimum) :
      (Mempool.perform P pool operation).Consistent ∧
        (Mempool.perform P pool operation).PaysMinimum := sound_perform h operation
  have hnew : new.Consistent ∧ new.PaysMinimum :=
    ⟨consistent_new, fun id e he => by simp [new] at he⟩
  rw [← Transition.everyStep_congr hsound (fun pool operation h => outpays_operation h.1 operation)
    hnew]
  constructor
  · intro h
    exact Transition.everyStep_iff.mpr h.step
  · intro h
    refine ⟨Transition.everyStep_iff.mp h, ?_⟩
    rintro before middle after rfl sender nonce e e' he htaken he'
    have hbefore := Transition.run_invariant hsound before hnew
    have hpays := (Transition.everyStep_append.mp (Transition.everyStep_append.mp h).2).1
    rw [Transition.run_append] at he'
    have hstart : Climbed sender nonce e (Transition.run (Mempool.perform P) new before) :=
      fun e' he' => Or.inl (he'.unique hbefore.1 he)
    exact hstart.run hbefore htaken hpays e' he'

end Opolys.Mempool

namespace Opolys.Reference

open Mempool

/-- The arrival of a signed bond of a fee. -/
def bid (fee : FlakeAmount) : Operation :=
  .addTransaction .byId (bidding 0 fee) fee 0 0 1 mainnetChainId

/-- The greatest fee is replaced by a tenth of it. -/
theorem replaced_for_less :
    ¬ReplacementsPay primitives [bid 18446744073709551615, bid 1844674407370955162] := by
  intro h
  have hpays := h.step [bid 18446744073709551615] (bid 1844674407370955162) [] rfl
  have hconsistent := consistent_run primitives [bid 18446744073709551615]
  have hheld : (Transition.run (perform primitives) Mempool.new
      [bid 18446744073709551615]).entries.toList.any (fun p =>
        p.2.transaction.sender = (bidding 0 1844674407370955162).sender ∧
          p.2.transaction.nonce = (bidding 0 1844674407370955162).nonce ∧
          p.2.transaction.fee = 18446744073709551615) = true := by decide +kernel
  have hbefore :
      (Transition.run (perform primitives) Mempool.new
        [bid 18446744073709551615]).entries[(bidding 0 1844674407370955162).txId]?.isSome =
          false := by
    decide +kernel
  have hafter : (perform primitives (Transition.run (perform primitives) Mempool.new
      [bid 18446744073709551615]) (bid 1844674407370955162)).entries[
        (bidding 0 1844674407370955162).txId]?.isSome = true := by decide +kernel
  generalize Transition.run (perform primitives) Mempool.new [bid 18446744073709551615] = pool
    at hpays hconsistent hheld hbefore hafter
  obtain ⟨e, he⟩ := Option.isSome_iff_exists.mp hafter
  obtain ⟨⟨id, old⟩, hold, hfields⟩ := List.any_eq_true.mp hheld
  obtain ⟨hsender, hnonce, hfee⟩ := of_decide_eq_true hfields
  rcases perform_cases hconsistent _ he with hmem | ⟨_, _, _, _, _, _, _, heq, hgates, -⟩
  · rw [hmem] at hbefore
    cases hbefore
  · cases heq
    obtain ⟨pool', hrun⟩ := (exists_addTransaction_iff hconsistent).mpr hgates
    have hup := hpays pool' hrun old ⟨id, FiniteMap.mem_toList.mp hold, hsender, hnonce⟩
    rw [hfee] at hup
    exact absurd hup (by decide +kernel)

end Opolys.Reference
