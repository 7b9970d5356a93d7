import Opolys.Consensus.RefinerAlike
import Opolys.Library.Transition

/-!
# The lifecycle of refiners

The refiner set keeps three things in step: the status of every record, the list of active
ids, and the queue of withdrawals. `WellFormed` says how they fit together, and every
operation of the set keeps it, whatever its arguments and whether it succeeds or fails.

All writes go through two lemmas. `wellFormed_put` is about one record that is written
together with its place in the active set and its withdrawals, `wellFormed_erase` about one
that is removed.
-/

namespace Opolys

/-! ## Records -/

namespace RefinerInfo

/-- A record whose bonds fit its status. -/
structure WellFormed (r : RefinerInfo) : Prop where
  sorted : r.entries.Pairwise fun a b => a.bondedAtTimestamp < b.bondedAtTimestamp
  stake_pos : r.status ≠ .slashed → ∀ e ∈ r.entries, 0 < e.stake
  stake_zero : r.status = .slashed → ∀ e ∈ r.entries, e.stake = 0
  bonded : r.status = .bonding ∨ r.status = .waiting ∨ r.status = .active → r.entries ≠ []
  unbonding : r.status = .unbonding → r.entries = []
  status_ne_none : r.status ≠ .none

/-- A change of the counters keeps a record well-formed. -/
theorem WellFormed.of_eq {r r' : RefinerInfo} (h : r.WellFormed) (hentries : r'.entries = r.entries)
    (hstatus : r'.status = r.status) : r'.WellFormed := by
  obtain ⟨hsorted, hpos, hzero, hbonded, hunbonding, hne⟩ := h
  rw [← hentries, ← hstatus] at *
  exact ⟨hsorted, hpos, hzero, hbonded, hunbonding, hne⟩

/-- A record with bonds may move between the statuses that have some. -/
theorem WellFormed.withStatus {r : RefinerInfo} (h : r.WellFormed) (hs : r.status ≠ .slashed)
    {status : RefinerStatus} (hnew : status = .bonding ∨ status = .waiting ∨ status = .active)
    (hentries : r.entries ≠ []) : WellFormed { r with status } where
  sorted := h.sorted
  stake_pos _ := h.stake_pos hs
  stake_zero he := by rcases hnew with rfl | rfl | rfl <;> cases he
  bonded _ := hentries
  unbonding he := by rcases hnew with rfl | rfl | rfl <;> cases he
  status_ne_none he := by rcases hnew with rfl | rfl | rfl <;> cases he

theorem mergeStake_timestamps {stake : FlakeAmount} {timestamp : UInt64} {es es' : List BondEntry}
    (h : mergeStake stake timestamp es = .ok es') :
    es'.map BondEntry.bondedAtTimestamp = es.map BondEntry.bondedAtTimestamp ∧
      es'.map BondEntry.bondedAtHeight = es.map BondEntry.bondedAtHeight := by
  induction es generalizing es' with
  | nil =>
    cases h
    exact ⟨rfl, rfl⟩
  | cons e es ih =>
    unfold mergeStake at h
    split at h
    · split at h <;> cases h
      exact ⟨rfl, rfl⟩
    · split at h
      · rename_i es'' hes
        cases h
        obtain ⟨hts, hhs⟩ := ih hes
        exact ⟨congrArg (List.cons _) hts, congrArg (List.cons _) hhs⟩
      · cases h

theorem mergeStake_pos {stake : FlakeAmount} {timestamp : UInt64} {es es' : List BondEntry}
    (h : mergeStake stake timestamp es = .ok es') (hpos : ∀ e ∈ es, 0 < e.stake) :
    ∀ e ∈ es', 0 < e.stake := by
  induction es generalizing es' with
  | nil =>
    cases h
    exact hpos
  | cons e es ih =>
    have htail : ∀ e ∈ es, 0 < e.stake := fun e' he' => hpos e' (List.mem_cons_of_mem _ he')
    unfold mergeStake at h
    split at h
    · split at h <;> cases h
      rename_i sum hsum
      intro e' he'
      rcases List.mem_cons.mp he' with rfl | he'
      · have hp := hpos e List.mem_cons_self
        have hsum := MachineInt.checkedAdd_eq_some.mp hsum
        rw [UInt64.lt_iff_toNat_lt, UInt64.toNat_zero] at hp ⊢
        dsimp only
        omega
      · exact htail e' he'
    · split at h
      · rename_i es'' hes
        cases h
        intro e' he'
        rcases List.mem_cons.mp he' with rfl | he'
        · exact hpos e' List.mem_cons_self
        · exact ih hes htail e' he'
      · cases h

theorem mem_insertEntry {x e : BondEntry} {es : List BondEntry} :
    e ∈ insertEntry x es ↔ e = x ∨ e ∈ es := by
  induction es with
  | nil => simp [insertEntry]
  | cons y es ih =>
    unfold insertEntry
    split
    · exact List.mem_cons
    · rw [List.mem_cons, ih, List.mem_cons]
      tauto

theorem sorted_insertEntry {x : BondEntry} {es : List BondEntry}
    (h : es.Pairwise fun a b => a.bondedAtTimestamp < b.bondedAtTimestamp)
    (hne : ∀ e ∈ es, e.bondedAtTimestamp ≠ x.bondedAtTimestamp) :
    (insertEntry x es).Pairwise fun a b => a.bondedAtTimestamp < b.bondedAtTimestamp := by
  induction es with
  | nil => exact List.pairwise_singleton _ _
  | cons y es ih =>
    obtain ⟨hy, hes⟩ := List.pairwise_cons.mp h
    unfold insertEntry
    split
    · rename_i hgt
      refine List.pairwise_cons.mpr ⟨fun e he => ?_, h⟩
      rcases List.mem_cons.mp he with rfl | he
      · exact hgt
      · exact UInt64.lt_trans hgt (hy e he)
    · rename_i hle
      refine List.pairwise_cons.mpr
        ⟨fun e he => ?_, ih hes fun e he => hne e (List.mem_cons_of_mem _ he)⟩
      rcases mem_insertEntry.mp he with rfl | he
      · exact UInt64.lt_of_le_of_ne (UInt64.not_lt.mp hle) (hne y List.mem_cons_self)
      · exact hy e he

/-- A top-up leaves a well-formed record with at least one bond. -/
theorem WellFormed.addEntry {r r' : RefinerInfo} {stake : FlakeAmount} {height timestamp : UInt64}
    (hr : r.WellFormed) (h : r.addEntry stake height timestamp = .ok r')
    (hs : r.status ≠ .slashed) (hstake : 0 < stake) :
    r'.objectId = r.objectId ∧ r'.status = r.status ∧ r'.entries ≠ [] ∧
      r'.entries.Pairwise (fun a b => a.bondedAtTimestamp < b.bondedAtTimestamp) ∧
      ∀ e ∈ r'.entries, 0 < e.stake := by
  unfold RefinerInfo.addEntry at h
  split at h
  · rename_i hany
    split at h
    · rename_i es hes
      cases h
      have hts := (mergeStake_timestamps hes).1
      refine ⟨rfl, rfl, ?_, ?_, mergeStake_pos hes (hr.stake_pos hs)⟩
      · rintro rfl
        cases hr0 : r.entries with
        | nil =>
          rw [hr0] at hany
          cases hany
        | cons e es =>
          rw [hr0] at hts
          cases hts
      · have hsorted := List.pairwise_map.mpr hr.sorted
        rw [← hts] at hsorted
        exact List.pairwise_map.mp hsorted
    · cases h
  · rename_i hany
    cases h
    have hne : ∀ e ∈ r.entries, e.bondedAtTimestamp ≠ timestamp := by
      intro e he heq
      exact hany (List.any_eq_true.mpr ⟨e, he, decide_eq_true heq⟩)
    refine ⟨rfl, rfl, ?_, sorted_insertEntry hr.sorted hne, ?_⟩
    · exact List.ne_nil_of_mem (mem_insertEntry.mpr (Or.inl rfl))
    · intro e he
      rcases mem_insertEntry.mp he with rfl | he
      · exact hstake
      · exact hr.stake_pos hs e he

/-- Consuming takes entries from the front and leaves a rest of the first one it does not
use up. -/
theorem sublist_consumeEntries {es es' : List BondEntry} {remaining : FlakeAmount}
    (h : consumeEntries es remaining = some es') :
    (es'.map fun e => (e.bondedAtHeight, e.bondedAtTimestamp)).Sublist
      (es.map fun e => (e.bondedAtHeight, e.bondedAtTimestamp)) := by
  induction es generalizing remaining es' with
  | nil =>
    unfold consumeEntries at h
    split at h <;> cases h
    exact List.Sublist.refl _
  | cons e es ih =>
    unfold consumeEntries at h
    split at h
    · cases h
      exact List.Sublist.refl _
    · split at h
      · exact (ih h).cons _
      · cases h
        exact List.Sublist.refl _

theorem consumeEntries_pos {es es' : List BondEntry} {remaining : FlakeAmount}
    (h : consumeEntries es remaining = some es') (hpos : ∀ e ∈ es, 0 < e.stake) :
    ∀ e ∈ es', 0 < e.stake := by
  induction es generalizing remaining es' with
  | nil =>
    unfold consumeEntries at h
    split at h <;> cases h
    exact hpos
  | cons e es ih =>
    have htail : ∀ e ∈ es, 0 < e.stake := fun e' he' => hpos e' (List.mem_cons_of_mem _ he')
    unfold consumeEntries at h
    split at h
    · cases h
      exact hpos
    · split at h
      · exact ih h htail
      · rename_i hgt
        cases h
        intro e' he'
        rcases List.mem_cons.mp he' with rfl | he'
        · have hlt : remaining < e.stake := UInt64.not_le.mp hgt
          have hlt := UInt64.lt_iff_toNat_lt.mp hlt
          rw [UInt64.lt_iff_toNat_lt, UInt64.toNat_zero]
          dsimp only
          rw [MachineInt.toNat_sub_of_le (by omega)]
          omega
        · exact htail e' he'

theorem WellFormed.unbondFifo {r r' : RefinerInfo} {amount unbonded : FlakeAmount}
    (hr : r.WellFormed) (h : r.unbondFifo amount = some (r', unbonded))
    (hs : r.status ≠ .slashed) :
    r'.objectId = r.objectId ∧ r'.status = r.status ∧
      r'.entries.Pairwise (fun a b => a.bondedAtTimestamp < b.bondedAtTimestamp) ∧
      ∀ e ∈ r'.entries, 0 < e.stake := by
  unfold RefinerInfo.unbondFifo at h
  split at h
  · cases h
    exact ⟨rfl, rfl, hr.sorted, hr.stake_pos hs⟩
  · split at h
    · rename_i es hes
      cases h
      have hpos := consumeEntries_pos hes (hr.stake_pos hs)
      have hsub := sublist_consumeEntries hes
      refine ⟨rfl, rfl, ?_, hpos⟩
      have hsorted : (r.entries.map fun e => (e.bondedAtHeight, e.bondedAtTimestamp)).Pairwise
          fun a b => a.2 < b.2 := List.pairwise_map.mpr hr.sorted
      have hsorted' : (es.map fun e => (e.bondedAtHeight, e.bondedAtTimestamp)).Pairwise
          fun a b => a.2 < b.2 := hsorted.sublist hsub
      have htimestamps := List.pairwise_map.mp hsorted'
      exact htimestamps
    · cases h

theorem addEntry_objectId {r r' : RefinerInfo} {stake : FlakeAmount} {height timestamp : UInt64}
    (h : r.addEntry stake height timestamp = .ok r') : r'.objectId = r.objectId := by
  unfold addEntry at h
  split at h
  · split at h <;> cases h
    rfl
  · cases h
    rfl

theorem unbondFifo_objectId {r r' : RefinerInfo} {amount unbonded : FlakeAmount}
    (h : r.unbondFifo amount = some (r', unbonded)) : r'.objectId = r.objectId := by
  unfold unbondFifo at h
  split at h
  · cases h
    rfl
  · split at h <;> cases h
    rfl

theorem totalStake_eq_zero {r : RefinerInfo} (h : ∀ e ∈ r.entries, e.stake = 0) :
    r.totalStake = 0 := by
  unfold totalStake
  generalize r.entries = es at h
  induction es with
  | nil => rfl
  | cons e es ih =>
    rw [List.map_cons, List.sum_cons, h e List.mem_cons_self,
      ih fun e' he' => h e' (List.mem_cons_of_mem _ he')]
    rfl

end RefinerInfo

/-! ## The set -/

namespace RefinerSet

open Effect (check_bind_eq_ok bind_eq_ok)
open Transition (run)

/-- A set whose records, active ids and queue fit together, where the accounts in `draining`
may have been left without withdrawals by a queue that has just been drained. -/
structure WellFormedUpTo (draining : List ObjectId) (set : RefinerSet) : Prop where
  active_nodup : set.activeSet.Nodup
  mem_activeSet : ∀ id, id ∈ set.activeSet ↔
    ∃ r, set.getRefiner id = some r ∧ r.status = .active
  record : ∀ id r, set.getRefiner id = some r → r.WellFormed
  unbonding_queued : ∀ id r, set.getRefiner id = some r → r.status = .unbonding →
    (∃ u ∈ set.unbondingQueue, u.account = id) ∨ id ∈ draining
  queue_known : ∀ u ∈ set.unbondingQueue,
    ∃ r, set.getRefiner u.account = some r ∧ r.status ≠ .slashed

/-- A set whose records, active ids and queue fit together. -/
abbrev WellFormed (set : RefinerSet) : Prop := WellFormedUpTo [] set

theorem wellFormed_new : new.WellFormed where
  active_nodup := List.nodup_nil
  mem_activeSet id := by simp [new, getRefiner]
  record id r h := by simp [new, getRefiner] at h
  unbonding_queued id r h := by simp [new, getRefiner] at h
  queue_known u h := by cases h

theorem getRefiner_put (set : RefinerSet) (r : RefinerInfo) (activeSet : List ObjectId)
    (unbondingQueue : List PendingUnbond) (id : ObjectId) :
    getRefiner { cachedRefiners := set.cachedRefiners.put r, activeSet, unbondingQueue } id =
      if r.objectId = id then some r else set.getRefiner id :=
  Registry.get?_put _ _ _

/-- One record is written, with its place in the active set and its withdrawals. -/
theorem wellFormed_put {draining : List ObjectId} {set : RefinerSet}
    (h : WellFormedUpTo draining set) {r : RefinerInfo} (hr : r.WellFormed)
    {activeSet : List ObjectId} (hnodup : activeSet.Nodup)
    (hactive : r.objectId ∈ activeSet ↔ r.status = .active)
    (hothers : ∀ id, id ≠ r.objectId → (id ∈ activeSet ↔ id ∈ set.activeSet))
    {unbondingQueue : List PendingUnbond}
    (hqueue : ∀ u, u.account ≠ r.objectId → (u ∈ unbondingQueue ↔ u ∈ set.unbondingQueue))
    (hunbonding : r.status = .unbonding → ∃ u ∈ unbondingQueue, u.account = r.objectId)
    (hslashed : r.status = .slashed → ∀ u ∈ unbondingQueue, u.account ≠ r.objectId) :
    WellFormedUpTo draining
      { cachedRefiners := set.cachedRefiners.put r, activeSet, unbondingQueue } where
  active_nodup := hnodup
  mem_activeSet id := by
    rw [getRefiner_put]
    by_cases hid : r.objectId = id
    · rw [if_pos hid, ← hid, hactive]
      simp
    · rw [if_neg hid, hothers id (Ne.symm hid), h.mem_activeSet]
  record id r' h' := by
    rw [getRefiner_put] at h'
    split at h'
    · cases h'
      exact hr
    · exact h.record id r' h'
  unbonding_queued id r' h' hs := by
    rw [getRefiner_put] at h'
    split at h'
    · rename_i hid
      cases h'
      rw [← hid]
      exact Or.inl (hunbonding hs)
    · rename_i hid
      refine (h.unbonding_queued id r' h' hs).imp_left ?_
      rintro ⟨u, hu, rfl⟩
      exact ⟨u, (hqueue u (Ne.symm hid)).mpr hu, rfl⟩
  queue_known u hu := by
    rw [getRefiner_put]
    by_cases hid : r.objectId = u.account
    · rw [if_pos hid]
      exact ⟨r, rfl, fun hs => hslashed hs u hu hid.symm⟩
    · rw [if_neg hid]
      exact h.queue_known u ((hqueue u (Ne.symm hid)).mp hu)

/-- A record is written that keeps its standing: active or not as before, not slashed. -/
theorem wellFormed_put_keep {draining : List ObjectId} {set : RefinerSet}
    (h : WellFormedUpTo draining set) {r : RefinerInfo} (hr : r.WellFormed)
    (hactive : r.objectId ∈ set.activeSet ↔ r.status = .active)
    (hunbonding : r.status = .unbonding → ∃ u ∈ set.unbondingQueue, u.account = r.objectId)
    (hslashed : r.status ≠ .slashed) :
    WellFormedUpTo draining { set with cachedRefiners := set.cachedRefiners.put r } :=
  wellFormed_put h hr h.active_nodup hactive (fun _ _ => Iff.rfl) (fun _ _ => Iff.rfl)
    hunbonding fun hs => absurd hs hslashed

/-- A record without withdrawals is removed. -/
theorem wellFormed_erase {draining : List ObjectId} {set : RefinerSet}
    (h : WellFormedUpTo draining set) {id : ObjectId}
    (hpending : ∀ u ∈ set.unbondingQueue, u.account ≠ id) :
    WellFormedUpTo draining { set with
      cachedRefiners := set.cachedRefiners.erase id
      activeSet := set.activeSet.filter fun k => k ≠ id } := by
  have hget (k : ObjectId) : getRefiner { set with
      cachedRefiners := set.cachedRefiners.erase id
      activeSet := set.activeSet.filter fun k => k ≠ id } k =
        if id = k then none else set.getRefiner k := Registry.get?_erase _ _ _
  refine ⟨h.active_nodup.filter _, fun k => ?_, fun k r hr => ?_, fun k r hr hs => ?_,
    fun u hu => ?_⟩
  · rw [hget]
    by_cases hk : id = k
    · simp [hk]
    · rw [if_neg hk, ← h.mem_activeSet]
      simp [Ne.symm hk]
  · rw [hget] at hr
    split at hr
    · cases hr
    · exact h.record k r hr
  · rw [hget] at hr
    split at hr
    · cases hr
    · exact h.unbonding_queued k r hr hs
  · rw [hget, if_neg (Ne.symm (hpending u hu))]
    exact h.queue_known u hu

/-! ### The operations -/

theorem pos_of_minimumBondStake_le {totalIssued stake : FlakeAmount}
    (h : minimumBondStake totalIssued ≤ stake) : 0 < stake := by
  have hle := UInt64.le_iff_toNat_le.mp h
  unfold minimumBondStake MachineInt.saturatingMul128 MachineInt.max128 at hle
  dsimp only at hle
  rw [MachineInt.toNat_clamp, show flakesPerOpl.toNat = 1000000 from rfl] at hle
  rw [UInt64.lt_iff_toNat_lt, UInt64.toNat_zero]
  omega

theorem WellFormedUpTo.not_active {draining : List ObjectId} {set : RefinerSet}
    (h : WellFormedUpTo draining set) {id : ObjectId} {r : RefinerInfo}
    (hr : set.getRefiner id = some r) : id ∈ set.activeSet ↔ r.status = .active := by
  rw [h.mem_activeSet, hr]
  simp

theorem wellFormed_bond {set set' : RefinerSet} (h : set.WellFormed) {id : ObjectId}
    {stake : FlakeAmount} {height timestamp : UInt64} {totalIssued : FlakeAmount}
    (hbond : set.bond id stake height timestamp totalIssued = .ok set') : set'.WellFormed := by
  unfold bond at hbond
  rw [check_bind_eq_ok] at hbond
  obtain ⟨hmin, hbond⟩ := hbond
  have hstake := pos_of_minimumBondStake_le hmin
  split at hbond
  · rename_i r hr
    rw [check_bind_eq_ok] at hbond
    obtain ⟨hs, hbond⟩ := hbond
    obtain ⟨r', hadd, hbond⟩ := bind_eq_ok.mp hbond
    cases hbond
    have hwf := h.record id r hr
    have hid : r.objectId = id := Registry.name_of_get? (v := r) hr
    obtain ⟨hid', hstatus, hne, hsorted, hpos⟩ := hwf.addEntry hadd hs hstake
    have hnew (hu : r'.status ≠ .unbonding) : r'.WellFormed := by
      refine ⟨hsorted, fun _ => hpos, fun hs' => absurd (hstatus ▸ hs') hs, fun _ => hne,
        fun hu' => absurd hu' hu, ?_⟩
      rw [hstatus]
      exact hwf.status_ne_none
    split
    · rename_i hu
      refine wellFormed_put_keep h
        ⟨hsorted, fun _ => hpos, (by simp), fun _ => hne, (by simp), (by simp)⟩
        ?_ (by simp) (by simp)
      dsimp only
      rw [hid', hid, h.not_active hr, ← hstatus, hu]
      simp
    · rename_i hu
      refine wellFormed_put_keep h (hnew hu) ?_ (fun hu' => absurd hu' hu) ?_
      · dsimp only
        rw [hid', hid, h.not_active hr, ← hstatus]
      · dsimp only
        rw [hstatus]
        exact hs
  · rename_i hr
    cases hbond
    have hbonding : (RefinerInfo.new id stake height timestamp).status = .bonding := rfl
    refine wellFormed_put_keep h ⟨?_, fun _ e he => ?_, by simp [hbonding], fun _ => ?_,
      by simp [hbonding], by simp [hbonding]⟩ ?_ (by simp [hbonding]) (by simp [hbonding])
    · exact List.pairwise_singleton _ _
    · obtain rfl := List.mem_singleton.mp he
      exact hstake
    · exact List.cons_ne_nil _ _
    · rw [h.mem_activeSet]
      change (∃ r, set.getRefiner id = some r ∧ _) ↔ RefinerStatus.bonding = .active
      rw [hr]
      simp

theorem wellFormed_unbondAmount {set set' : RefinerSet} (h : set.WellFormed) {id : ObjectId}
    {amount unbonded : FlakeAmount} {height : BlockHeight}
    (hunbond : set.unbondAmount id amount height = .ok (set', unbonded)) : set'.WellFormed := by
  unfold unbondAmount at hunbond
  split at hunbond
  · cases hunbond
  · rename_i r hr
    dsimp only at hunbond
    rw [check_bind_eq_ok, check_bind_eq_ok, check_bind_eq_ok] at hunbond
    obtain ⟨htotal, -, -, hunbond⟩ := hunbond
    split at hunbond
    · cases hunbond
    · rename_i r' unbonded' hfifo
      have hwf := h.record id r hr
      have hid : r.objectId = id := Registry.name_of_get? (v := r) hr
      -- a slashed record holds nothing that could be withdrawn
      have hs : r.status ≠ .slashed := fun hs =>
        htotal (RefinerInfo.totalStake_eq_zero (hwf.stake_zero hs))
      have hne : r.entries ≠ [] := by
        intro hnil
        refine htotal (RefinerInfo.totalStake_eq_zero ?_)
        rw [hnil]
        simp
      have hu : r.status ≠ .unbonding := fun hu => hne (hwf.unbonding hu)
      obtain ⟨hid', hstatus, hsorted, hpos⟩ := hwf.unbondFifo hfifo hs
      have hmem (queued : PendingUnbond) (hacc : queued.account = id) (u : PendingUnbond)
          (hne : u.account ≠ r'.objectId) :
          u ∈ set.unbondingQueue ++ [queued] ↔ u ∈ set.unbondingQueue := by
        rw [List.mem_append, List.mem_singleton, or_iff_left]
        rintro rfl
        exact hne (hacc.trans (hid.symm.trans hid'.symm))
      split at hunbond
      · rename_i hempty
        cases hunbond
        have hgone : RefinerInfo.WellFormed { r' with status := .unbonding } :=
          ⟨hsorted, fun _ => hpos, (by simp), (by simp), fun _ => List.isEmpty_iff.mp hempty,
            (by simp)⟩
        refine wellFormed_put h hgone (h.active_nodup.filter _) ?_ ?_ (hmem _ rfl) (fun _ => ?_)
          (by simp)
        · rw [List.mem_filter]
          simp [hid', hid]
        · intro k hk
          rw [List.mem_filter]
          simp only [hid', hid] at hk
          simp [hk]
        · exact ⟨_, List.mem_append_right _ (List.mem_singleton_self _), (hid'.trans hid).symm⟩
      · rename_i hempty
        cases hunbond
        have hactive : r'.objectId ∈ set.activeSet ↔ r'.status = .active := by
          rw [hid', hid, h.not_active hr, hstatus]
        rw [← hstatus] at hs hu
        exact wellFormed_put h ⟨hsorted, fun _ => hpos, fun hs' => absurd hs' hs,
          fun _ => fun hnil => hempty (List.isEmpty_iff.mpr hnil), fun hu' => absurd hu' hu,
          hstatus ▸ hwf.status_ne_none⟩ h.active_nodup hactive (fun _ _ => Iff.rfl) (hmem _ rfl)
          (fun hu' => absurd hu' hu) fun hs' => absurd hs' hs

/-- Looking at one drained account, its record is removed when nothing holds it. -/
theorem wellFormed_removeIfGone {draining : List ObjectId} {set : RefinerSet} {id : ObjectId}
    (h : WellFormedUpTo (id :: draining) set) :
    WellFormedUpTo draining (set.removeIfGone id) := by
  unfold removeIfGone
  dsimp only
  split
  · rename_i hnone
    refine ⟨h.active_nodup, h.mem_activeSet, h.record, fun k r hr hs => ?_, h.queue_known⟩
    refine (h.unbonding_queued k r hr hs).imp_right fun hk => ?_
    rcases List.mem_cons.mp hk with rfl | hk
    · rw [hr] at hnone
      cases hnone
    · exact hk
  · rename_i r hr
    split
    · rename_i hgone
      have hpending : ∀ u ∈ set.unbondingQueue, u.account ≠ id := by
        intro u hu hid
        have hany : (set.unbondingQueue.any fun entry => entry.account = id) = true :=
          List.any_eq_true.mpr ⟨u, hu, decide_eq_true hid⟩
        rw [hany] at hgone
        cases hgone.2.2
      have herase := wellFormed_erase h hpending
      refine ⟨herase.active_nodup, herase.mem_activeSet, herase.record, fun k r' hr' hs => ?_,
        herase.queue_known⟩
      refine (herase.unbonding_queued k r' hr' hs).imp_right fun hk => ?_
      rcases List.mem_cons.mp hk with rfl | hk
      · have hnone : (set.cachedRefiners.erase k).get? k = none := by
          rw [Registry.get?_erase, if_pos rfl]
        exact absurd (hnone.symm.trans hr') (by simp)
      · exact hk
    · rename_i hstays
      refine ⟨h.active_nodup, h.mem_activeSet, h.record, fun k r' hr' hs => ?_, h.queue_known⟩
      rcases h.unbonding_queued k r' hr' hs with hq | hk
      · exact Or.inl hq
      · rcases List.mem_cons.mp hk with rfl | hk
        · left
          obtain rfl : r = r' := Option.some.inj (hr.symm.trans hr')
          have hzero : r.totalStake = 0 := RefinerInfo.totalStake_eq_zero (by
            rw [(h.record k r hr).unbonding hs]
            simp)
          by_contra hno
          refine hstays ⟨hs, hzero, ?_⟩
          rw [List.any_eq_false]
          intro u hu hacc
          exact hno ⟨u, hu, of_decide_eq_true hacc⟩
        · exact Or.inr hk

theorem wellFormed_foldl_removeIfGone {drained : List (ObjectId × FlakeAmount)} {set : RefinerSet}
    (h : WellFormedUpTo (drained.map Prod.fst) set) :
    WellFormed (drained.foldl (fun set entry => set.removeIfGone entry.1) set) := by
  induction drained generalizing set with
  | nil => exact h
  | cons entry drained ih => exact ih (wellFormed_removeIfGone h)

theorem wellFormed_processMaturedUnbonds {set : RefinerSet} (h : set.WellFormed)
    (height : BlockHeight) : (set.processMaturedUnbonds height).1.WellFormed := by
  unfold processMaturedUnbonds maturedUnbonds
  refine wellFormed_foldl_removeIfGone
    ⟨h.active_nodup, h.mem_activeSet, h.record, fun id r hr hs => ?_, fun u hu => ?_⟩
  · obtain ⟨u, hu, rfl⟩ := (h.unbonding_queued id r hr hs).resolve_right nofun
    by_cases hmature : u.maturesAt ≤ height
    · refine Or.inr (List.mem_map.mpr ⟨(u.account, u.amount), List.mem_map.mpr ⟨u, ?_, rfl⟩, rfl⟩)
      exact List.mem_filter.mpr ⟨hu, decide_eq_true hmature⟩
    · exact Or.inl ⟨u, List.mem_filter.mpr ⟨hu, decide_eq_true hmature⟩, rfl⟩
  · exact h.queue_known u (List.mem_of_mem_filter hu)

/-- A record with bonds moves between `bonding`, `waiting` and `active`, and its id into or
out of the active set with it. -/
theorem wellFormed_move {set : RefinerSet} (h : set.WellFormed) {id : ObjectId}
    {r : RefinerInfo} (hr : set.getRefiner id = some r)
    (hold : r.status = .bonding ∨ r.status = .waiting ∨ r.status = .active) (r' : RefinerInfo)
    (hid : r'.objectId = r.objectId) (hentries : r'.entries = r.entries)
    (hnew : r'.status = .bonding ∨ r'.status = .waiting ∨ r'.status = .active)
    {activeSet : List ObjectId} (hnodup : activeSet.Nodup)
    (hactive : id ∈ activeSet ↔ r'.status = .active)
    (hothers : ∀ k, k ≠ id → (k ∈ activeSet ↔ k ∈ set.activeSet)) :
    WellFormed { set with cachedRefiners := set.cachedRefiners.put r', activeSet } := by
  have hwf := h.record id r hr
  have hname : r'.objectId = id := hid.trans (Registry.name_of_get? (v := r) hr)
  have hs : r.status ≠ .slashed := by
    intro hs
    rw [hs] at hold
    rcases hold with h | h | h <;> cases h
  have hr' : r'.WellFormed := by
    have hmoved := hwf.withStatus hs hnew (hwf.bonded hold)
    exact hmoved.of_eq hentries rfl
  refine wellFormed_put h hr' hnodup (hname ▸ hactive) (hname ▸ hothers) (fun _ _ => Iff.rfl) ?_ ?_
  · intro hu
    rw [hu] at hnew
    rcases hnew with h | h | h <;> cases h
  · intro hs
    rw [hs] at hnew
    rcases hnew with h | h | h <;> cases h

theorem getRefiner_foldl_update (f : RefinerInfo → RefinerInfo)
    (hf : ∀ r, (f r).objectId = r.objectId) {ids : List ObjectId} (hnd : ids.Nodup)
    (set : RefinerSet) (k : ObjectId) :
    (ids.foldl (fun (set : RefinerSet) id =>
      { set with cachedRefiners := set.cachedRefiners.update id f }) set).getRefiner k =
        if k ∈ ids then (set.getRefiner k).map f else set.getRefiner k := by
  induction ids generalizing set with
  | nil => simp
  | cons id ids ih =>
    obtain ⟨hid, hnd⟩ := List.nodup_cons.mp hnd
    rw [List.foldl_cons, ih hnd]
    have hget : getRefiner { set with cachedRefiners := set.cachedRefiners.update id f } k =
        if id = k then (set.getRefiner k).map f else set.getRefiner k :=
      Registry.get?_update hf _ _ _
    rw [hget]
    by_cases hk : id = k
    · subst hk
      simp [hid]
    · simp [hk, Ne.symm hk]

/-- Activation touches exactly the matured records. -/
theorem getRefiner_activateMaturedRefiners (set : RefinerSet) (height : BlockHeight)
    (k : ObjectId) :
    (set.activateMaturedRefiners height).getRefiner k =
      (set.getRefiner k).map fun r =>
        if isMatured height r then startWaiting height r else r := by
  unfold activateMaturedRefiners
  dsimp only
  rw [getRefiner_foldl_update (startWaiting height) (fun _ => rfl)
    ((set.cachedRefiners.nodup_map_name_values).sublist (List.filter_sublist.map _))]
  cases hr : set.getRefiner k with
  | none => simp
  | some r =>
    have hmem : k ∈ (set.cachedRefiners.values.filter (isMatured height)).map
        RefinerInfo.objectId ↔ isMatured height r = true := by
      rw [List.mem_map]
      constructor
      · rintro ⟨r', hr', rfl⟩
        obtain ⟨hr', hmature⟩ := List.mem_filter.mp hr'
        obtain rfl := Option.some.inj (hr.symm.trans (Registry.mem_values.mp hr'))
        exact hmature
      · intro hmature
        obtain ⟨hr', hid⟩ := Registry.get?_eq_some.mp hr
        exact ⟨r, List.mem_filter.mpr ⟨hr', hmature⟩, hid⟩
    by_cases hmature : isMatured height r = true
    · rw [if_pos (hmem.mpr hmature), Option.map_some, Option.map_some, if_pos hmature]
    · rw [if_neg (mt hmem.mp hmature), Option.map_some, if_neg hmature]

theorem wellFormed_activateMaturedRefiners {set : RefinerSet} (h : set.WellFormed)
    (height : BlockHeight) : (set.activateMaturedRefiners height).WellFormed := by
  unfold activateMaturedRefiners
  dsimp only
  -- every id in the loop is named once and still has the record it was chosen for
  have hloop (rs : List RefinerInfo) (hnd : (rs.map RefinerInfo.objectId).Nodup)
      (hbonding : ∀ r ∈ rs, r.status = .bonding) (set : RefinerSet) (h : set.WellFormed)
      (hget : ∀ r ∈ rs, set.getRefiner r.objectId = some r) :
      WellFormed ((rs.map RefinerInfo.objectId).foldl (fun set id =>
        { set with cachedRefiners :=
            set.cachedRefiners.update id (startWaiting height) }) set) := by
    induction rs generalizing set with
    | nil => exact h
    | cons r rs ih =>
      rw [List.map_cons, List.nodup_cons] at hnd
      have hr := hget r List.mem_cons_self
      have hrb := hbonding r List.mem_cons_self
      have hput : set.cachedRefiners.update r.objectId (startWaiting height) =
          set.cachedRefiners.put (startWaiting height r) := Registry.update_of_some hr _
      rw [List.map_cons, List.foldl_cons, hput]
      have hinactive : r.objectId ∉ set.activeSet := by
        rw [h.not_active hr, hrb]
        nofun
      refine ih hnd.2 (fun r' hr' => hbonding r' (List.mem_cons_of_mem _ hr')) _ ?_ ?_
      · exact wellFormed_move h hr (Or.inl hrb) (startWaiting height r) rfl rfl
          (Or.inr (Or.inl rfl)) h.active_nodup (iff_of_false hinactive nofun) fun _ _ => Iff.rfl
      · intro r' hr'
        have hne : r.objectId ≠ r'.objectId := fun he =>
          hnd.1 (List.mem_map.mpr ⟨r', hr', he.symm⟩)
        have hne' : (startWaiting height r).objectId ≠ r'.objectId := hne
        exact (Registry.get?_put_of_ne _ hne').trans (hget r' (List.mem_cons_of_mem _ hr'))
  refine hloop _ ?_ ?_ set h ?_
  · exact (set.cachedRefiners.nodup_map_name_values).sublist (List.filter_sublist.map _)
  · intro r hr
    have hmature := List.of_mem_filter hr
    unfold isMatured at hmature
    rw [Bool.and_eq_true] at hmature
    exact of_decide_eq_true hmature.1
  · intro r hr
    exact Registry.mem_values.mp (List.mem_of_mem_filter hr)

theorem wellFormed_rankRefiner {set : RefinerSet} (h : set.WellFormed) (activeLimit : ℕ)
    (candidate : (ObjectId × UInt64) × ℕ) :
    (rankRefiner activeLimit set candidate).WellFormed := by
  unfold rankRefiner
  dsimp only
  split
  · exact h
  · rename_i r hr
    split
    · split
      · rename_i hw
        have hinactive : candidate.1.1 ∉ set.activeSet := by
          rw [h.not_active hr, hw]
          simp
        refine wellFormed_move h hr (Or.inr (Or.inl hw)) { r with status := .active } rfl rfl
          (Or.inr (Or.inr rfl)) ?_ ?_ ?_
        · exact List.nodup_append.mpr ⟨h.active_nodup, List.nodup_singleton _,
            fun a ha b hb he => hinactive (List.mem_singleton.mp hb ▸ he ▸ ha)⟩
        · simp
        · intro k hk
          simp [hk]
      · exact h
    · split
      · rename_i ha
        refine wellFormed_move h hr (Or.inr (Or.inr ha)) { r with status := .waiting } rfl rfl
          (Or.inr (Or.inl rfl)) (h.active_nodup.filter _) ?_ ?_
        · simp
        · intro k hk
          simp [hk]
      · exact h

theorem wellFormed_rerankRefiners {set : RefinerSet} (h : set.WellFormed)
    (totalIssued : FlakeAmount) : (set.rerankRefiners totalIssued).WellFormed := by
  unfold rerankRefiners
  dsimp only
  generalize List.zipIdx _ = candidates
  induction candidates generalizing set with
  | nil => exact h
  | cons candidate candidates ih => exact ih (wellFormed_rankRefiner h _ candidate)

theorem wellFormed_afterSlash {set : RefinerSet} (h : set.WellFormed) (id : ObjectId) :
    (set.afterSlash id).WellFormed := by
  have hothers (k : ObjectId) (u : PendingUnbond) (hk : k = id) (hne : u.account ≠ k) :
      u ∈ set.unbondingQueue.filter (fun entry => entry.account ≠ id) ↔
        u ∈ set.unbondingQueue := by
    rw [List.mem_filter]
    simp [← hk, hne]
  unfold afterSlash
  dsimp only
  split
  · rename_i hnone
    refine ⟨h.active_nodup, h.mem_activeSet, h.record, fun k r hr hs => ?_,
      fun u hu => h.queue_known u (List.mem_of_mem_filter hu)⟩
    obtain ⟨u, hu, rfl⟩ := (h.unbonding_queued k r hr hs).resolve_right (by simp)
    refine Or.inl ⟨u, (hothers id u rfl ?_).mpr hu, rfl⟩
    rintro rfl
    exact absurd (hnone.symm.trans hr) (by simp)
  · rename_i r hr
    have hid : r.objectId = id := Registry.name_of_get? (v := r) hr
    split
    · rename_i hs
      refine ⟨h.active_nodup, h.mem_activeSet, h.record, fun k r' hr' hs' => ?_,
        fun u hu => h.queue_known u (List.mem_of_mem_filter hu)⟩
      obtain ⟨u, hu, rfl⟩ := (h.unbonding_queued k r' hr' hs').resolve_right (by simp)
      refine Or.inl ⟨u, (hothers id u rfl ?_).mpr hu, rfl⟩
      rintro rfl
      obtain rfl : r = r' := Option.some.inj (hr.symm.trans hr')
      rw [hs] at hs'
      cases hs'
    · have hwf := h.record id r hr
      have hburned : RefinerInfo.WellFormed { r with
          status := .slashed, entries := r.entries.map fun e => { e with stake := 0 } } := by
        refine ⟨?_, fun hn => absurd rfl hn, fun _ e he => ?_, (by simp), (by simp), (by simp)⟩
        · exact List.pairwise_map.mpr hwf.sorted
        · obtain ⟨e', -, rfl⟩ := List.mem_map.mp he
          rfl
      refine wellFormed_put h hburned (h.active_nodup.filter _) ?_ ?_
        (fun u hu => hothers _ u hid hu)
        (by simp) fun _ u hu => ?_
      · simp [hid]
      · intro k hk
        simp only [hid] at hk
        simp [hk]
      · have hne := List.of_mem_filter hu
        rw [decide_eq_true_iff] at hne
        dsimp only
        rw [hid]
        exact hne

theorem wellFormed_recordCorrectAttestation {set set' : RefinerSet} (h : set.WellFormed)
    {id : ObjectId} (hrec : set.recordCorrectAttestation id = .ok set') : set'.WellFormed := by
  unfold recordCorrectAttestation at hrec
  split at hrec
  · cases hrec
  · rename_i r hr
    rw [check_bind_eq_ok] at hrec
    obtain ⟨ha, hrec⟩ := hrec
    cases hrec
    have hactive := h.not_active hr
    exact wellFormed_move h hr (Or.inr (Or.inr ha)) { r with
      consecutiveCorrectAttestations :=
        MachineInt.saturatingAdd r.consecutiveCorrectAttestations 1 } rfl rfl
      (Or.inr (Or.inr ha)) h.active_nodup hactive fun _ _ => Iff.rfl

/-! ### Reloading -/

/-- Reading records in order of their ids adds the active ones to the active set. -/
theorem foldl_load (rs : List RefinerInfo) (set : RefinerSet) :
    rs.foldl (fun (set : RefinerSet) r =>
      { set with
        activeSet := if r.status = .active then set.activeSet ++ [r.objectId] else set.activeSet
        cachedRefiners := set.cachedRefiners.put r }) set =
      { cachedRefiners := rs.foldl Registry.put set.cachedRefiners
        activeSet := set.activeSet ++
          (rs.filter fun r => r.status = .active).map RefinerInfo.objectId
        unbondingQueue := set.unbondingQueue } := by
  induction rs generalizing set with
  | nil => simp
  | cons r rs ih =>
    rw [List.foldl_cons, ih, List.foldl_cons]
    by_cases hr : r.status = .active
    · simp [hr]
    · simp [hr]

/-- A set that is written out and read back has its records and its queue again, and the
active ids in order. -/
theorem loadFromRefiners_allRefiners (set : RefinerSet) :
    loadFromRefiners set.allRefiners set.unbondingQueue =
      { set with activeSet :=
          (set.allRefiners.filter fun r => r.status = .active).map RefinerInfo.objectId } := by
  unfold loadFromRefiners
  rw [foldl_load, List.nil_append]
  have hrecords : set.allRefiners.foldl Registry.put Registry.empty = set.cachedRefiners :=
    Registry.ofList_values set.cachedRefiners
  rw [hrecords]

/-- Of a well-formed set reading back changes only the order of the active ids. -/
theorem alike_loadFromRefiners {set : RefinerSet} (h : set.WellFormed) :
    set.Alike (loadFromRefiners set.allRefiners set.unbondingQueue) := by
  rw [loadFromRefiners_allRefiners]
  refine ⟨_, (List.perm_ext_iff_of_nodup ?_ h.active_nodup).mpr fun id => ?_, rfl⟩
  · exact (set.cachedRefiners.nodup_map_name_values).sublist (List.filter_sublist.map _)
  · rw [h.mem_activeSet, List.mem_map]
    constructor
    · rintro ⟨r, hr, rfl⟩
      obtain ⟨hmem, ha⟩ := List.mem_filter.mp hr
      exact ⟨r, Registry.mem_values.mp hmem, of_decide_eq_true ha⟩
    · rintro ⟨r, hr, ha⟩
      obtain ⟨hmem, hid⟩ := Registry.get?_eq_some.mp hr
      exact ⟨r, List.mem_filter.mpr ⟨hmem, decide_eq_true ha⟩, hid⟩

theorem WellFormed.of_alike {a b : RefinerSet} (h : a.WellFormed) (hab : a.Alike b) :
    b.WellFormed := by
  obtain ⟨active, hperm, rfl⟩ := hab
  exact ⟨hperm.nodup_iff.mpr h.active_nodup, fun id => (hperm.mem_iff).trans (h.mem_activeSet id),
    h.record, h.unbonding_queued, h.queue_known⟩

/-! ### Runs -/

/-- A call of an operation of the set. -/
inductive Operation where
  | bond (id : ObjectId) (stake : FlakeAmount) (height timestamp : UInt64)
      (totalIssued : FlakeAmount)
  | unbondAmount (id : ObjectId) (amount : FlakeAmount) (height : BlockHeight)
  | processMaturedUnbonds (height : BlockHeight)
  | activateMaturedRefiners (height : BlockHeight)
  | rerankRefiners (totalIssued : FlakeAmount)
  | slashRefiner (id : ObjectId)
  | recordCorrectAttestation (id : ObjectId)
  /-- Write the set out and read it back. -/
  | reload

/-- The set after a call, whether it succeeds or fails. -/
def perform (set : RefinerSet) : Operation → RefinerSet
  | .bond id stake height timestamp totalIssued =>
    match set.bond id stake height timestamp totalIssued with
    | .ok set' => set'
    | .error _ => set
  | .unbondAmount id amount height =>
    match set.unbondAmount id amount height with
    | .ok (set', _) => set'
    | .error _ => set
  | .processMaturedUnbonds height => (set.processMaturedUnbonds height).1
  | .activateMaturedRefiners height => set.activateMaturedRefiners height
  | .rerankRefiners totalIssued => set.rerankRefiners totalIssued
  | .slashRefiner id =>
    match slashRefiner id set with
    | .ok _ set' => set'
    | .error _ set' => set'
  | .recordCorrectAttestation id =>
    match set.recordCorrectAttestation id with
    | .ok set' => set'
    | .error _ => set
  | .reload => loadFromRefiners set.allRefiners set.unbondingQueue

theorem perform_recordCorrectAttestation {set set' : RefinerSet} {id : ObjectId}
    (h : set.recordCorrectAttestation id = .ok set') :
    set.perform (.recordCorrectAttestation id) = set' := by
  change (match set.recordCorrectAttestation id with
    | .ok set' => set'
    | .error _ => set) = set'
  rw [h]

theorem wellFormed_perform {set : RefinerSet} (h : set.WellFormed) (operation : Operation) :
    (set.perform operation).WellFormed := by
  fun_cases perform set operation with
  | case1 id stake height timestamp totalIssued set' hb => exact wellFormed_bond h hb
  | case3 id amount height set' unbonded hu => exact wellFormed_unbondAmount h hu
  | case5 height => exact wellFormed_processMaturedUnbonds h height
  | case6 height => exact wellFormed_activateMaturedRefiners h height
  | case7 totalIssued => exact wellFormed_rerankRefiners h totalIssued
  | case8 id burned set' hs =>
    obtain rfl := ((slashRefiner_ends id set).ok hs).2
    exact wellFormed_afterSlash h id
  | case9 id message set' hs =>
    obtain rfl := ((slashRefiner_ends id set).error hs).2
    exact wellFormed_afterSlash h id
  | case10 id set' hr => exact wellFormed_recordCorrectAttestation h hr
  | case12 => exact h.of_alike (alike_loadFromRefiners h)
  | _ => exact h

/-! ### Records and their bonds -/

/-- Whether the operation is called without a transaction. -/
def Operation.isInternal : Operation → Bool
  | .bond .. => false
  | .unbondAmount .. => false
  | _ => true

/-- Whether the operation counts an attestation. -/
def Operation.attests : Operation → Bool
  | .recordCorrectAttestation _ => true
  | _ => false

/-- Every record of the second set comes from one of the first to which it is related. -/
def Derives (R : RefinerInfo → RefinerInfo → Prop) (set set' : RefinerSet) : Prop :=
  ∀ id r', set'.getRefiner id = some r' → ∃ r, set.getRefiner id = some r ∧ R r r'

/-- The record has the bonds of the other, whatever is left of their stakes. -/
def SameBonds (r r' : RefinerInfo) : Prop :=
  r'.entries.map BondEntry.bondedAtHeight = r.entries.map BondEntry.bondedAtHeight

/-- As many attestations have been counted for the one as for the other. -/
def SameCount (r r' : RefinerInfo) : Prop :=
  r'.consecutiveCorrectAttestations = r.consecutiveCorrectAttestations

/-- A relation between records to which their statuses and what is burned do not matter. -/
structure Unmoved (R : RefinerInfo → RefinerInfo → Prop) : Prop where
  refl : ∀ r, R r r
  trans : ∀ {a b c}, R a b → R b c → R a c
  status : ∀ r status, R r { r with status }
  waiting : ∀ height r, R r (startWaiting height r)
  slashed : ∀ r, R r { r with
    status := .slashed
    entries := r.entries.map fun e => { e with stake := 0 } }

theorem unmoved_sameBonds : Unmoved SameBonds where
  refl _ := rfl
  trans hab hbc := hbc.trans hab
  status _ _ := rfl
  waiting _ _ := rfl
  slashed r := by simp [SameBonds]

theorem unmoved_sameCount : Unmoved SameCount :=
  ⟨fun _ => rfl, fun hab hbc => hbc.trans hab, fun _ _ => rfl, fun _ _ => rfl, fun _ => rfl⟩

variable {R : RefinerInfo → RefinerInfo → Prop}

theorem Derives.refl (hR : Unmoved R) (set : RefinerSet) : Derives R set set :=
  fun _ r hr => ⟨r, hr, hR.refl r⟩

theorem Derives.trans (hR : Unmoved R) {a b c : RefinerSet} (h : Derives R a b)
    (h' : Derives R b c) : Derives R a c := by
  intro id r'' hr''
  obtain ⟨r', hr', hrel'⟩ := h' id r'' hr''
  obtain ⟨r, hr, hrel⟩ := h id r' hr'
  exact ⟨r, hr, hR.trans hrel hrel'⟩

/-- No other refiner is known. -/
theorem Derives.isSome {set set' : RefinerSet} (h : Derives R set set') {id : ObjectId}
    (hid : (set'.getRefiner id).isSome = true) :
    (set.getRefiner id).isSome = true := by
  obtain ⟨r', hr'⟩ := Option.isSome_iff_exists.mp hid
  obtain ⟨r, hr, -⟩ := h id r' hr'
  rw [hr]
  rfl

/-- A record that is there is rewritten. -/
theorem derives_put (hrefl : ∀ r, R r r)
    {set : RefinerSet} {k : ObjectId} {old : RefinerInfo} (hold : set.getRefiner k = some old)
    {r : RefinerInfo} (hid : r.objectId = old.objectId) (hr : R old r)
    (activeSet : List ObjectId) (unbondingQueue : List PendingUnbond) :
    Derives R set { cachedRefiners := set.cachedRefiners.put r, activeSet, unbondingQueue } := by
  intro id r' hr'
  have hk : old.objectId = k := Registry.name_of_get? (v := old) hold
  rw [getRefiner_put] at hr'
  split at hr'
  · rename_i heq
    cases hr'
    rw [← heq, hid, hk]
    exact ⟨old, hold, hr⟩
  · exact ⟨r', hr', hrefl r'⟩

theorem derives_removeIfGone (hR : Unmoved R) (set : RefinerSet) (account : ObjectId) :
    Derives R set (set.removeIfGone account) := by
  intro id r' hr'
  refine ⟨r', ?_, hR.refl r'⟩
  unfold removeIfGone at hr'
  dsimp only at hr'
  split at hr'
  · exact hr'
  · split at hr'
    · have herase : getRefiner { set with
          cachedRefiners := set.cachedRefiners.erase account
          activeSet := set.activeSet.filter fun k => k ≠ account } id =
            if account = id then none else set.getRefiner id := Registry.get?_erase _ _ _
      rw [herase] at hr'
      split at hr'
      · cases hr'
      · exact hr'
    · exact hr'

theorem derives_processMaturedUnbonds (hR : Unmoved R) (set : RefinerSet)
    (height : BlockHeight) : Derives R set (set.processMaturedUnbonds height).1 := by
  unfold processMaturedUnbonds
  dsimp only
  generalize set.maturedUnbonds height = drained
  generalize set.unbondingQueue.filter _ = unbondingQueue
  have hset : Derives R set { set with unbondingQueue } := fun _ r hr => ⟨r, hr, hR.refl r⟩
  generalize ({ set with unbondingQueue } : RefinerSet) = set' at hset ⊢
  induction drained generalizing set' with
  | nil => exact hset
  | cons entry drained ih => exact ih _ (hset.trans hR (derives_removeIfGone hR set' entry.1))

theorem derives_activateMaturedRefiners (hR : Unmoved R) (set : RefinerSet)
    (height : BlockHeight) : Derives R set (set.activateMaturedRefiners height) := by
  intro id r' hr'
  rw [getRefiner_activateMaturedRefiners, Option.map_eq_some_iff] at hr'
  obtain ⟨r, hr, rfl⟩ := hr'
  refine ⟨r, hr, ?_⟩
  split
  · exact hR.waiting height r
  · exact hR.refl r

theorem derives_rankRefiner (hR : Unmoved R) (set : RefinerSet) (activeLimit : ℕ)
    (candidate : (ObjectId × UInt64) × ℕ) :
    Derives R set (rankRefiner activeLimit set candidate) := by
  unfold rankRefiner
  dsimp only
  split
  · exact Derives.refl hR set
  · rename_i r hr
    split
    · split
      · refine derives_put hR.refl hr ?_ (hR.status r .active) _ _
        rfl
      · exact Derives.refl hR set
    · split
      · refine derives_put hR.refl hr ?_ (hR.status r .waiting) _ _
        rfl
      · exact Derives.refl hR set

theorem derives_rerankRefiners (hR : Unmoved R) (set : RefinerSet)
    (totalIssued : FlakeAmount) : Derives R set (set.rerankRefiners totalIssued) := by
  unfold rerankRefiners
  dsimp only
  generalize List.zipIdx _ = candidates
  induction candidates generalizing set with
  | nil => exact Derives.refl hR set
  | cons candidate candidates ih => exact (derives_rankRefiner hR set _ candidate).trans hR (ih _)

theorem derives_afterSlash (hR : Unmoved R) (set : RefinerSet) (id : ObjectId) :
    Derives R set (set.afterSlash id) := by
  unfold afterSlash
  dsimp only
  split
  · exact fun _ r hr => ⟨r, hr, hR.refl r⟩
  · rename_i r hr
    split
    · exact fun _ r hr => ⟨r, hr, hR.refl r⟩
    · refine derives_put hR.refl hr ?_ (hR.slashed r) _ _
      rfl

theorem derives_recordCorrectAttestation {set set' : RefinerSet} {id : ObjectId}
    (h : set.recordCorrectAttestation id = .ok set') : Derives SameBonds set set' := by
  unfold recordCorrectAttestation at h
  split at h
  · cases h
  · rename_i r hr
    rw [check_bind_eq_ok] at h
    cases h.2
    refine derives_put unmoved_sameBonds.refl hr ?_ ?_ _ _ <;> rfl

/-- Without a transaction or an attestation no refiner gets known, and records are rewritten
in their statuses and stakes only. -/
theorem derives_perform_unattested (hR : Unmoved R) (set : RefinerSet) {operation : Operation}
    (h : operation.isInternal = true) (hattests : operation.attests = false) :
    Derives R set (set.perform operation) := by
  fun_cases perform set operation with
  | case1 id stake height timestamp totalIssued set' hb => cases h
  | case3 id amount height set' unbonded hu => cases h
  | case5 height => exact derives_processMaturedUnbonds hR set height
  | case6 height => exact derives_activateMaturedRefiners hR set height
  | case7 totalIssued => exact derives_rerankRefiners hR set totalIssued
  | case8 id burned set' hs =>
    obtain rfl := ((slashRefiner_ends id set).ok hs).2
    exact derives_afterSlash hR set id
  | case9 id message set' hs =>
    obtain rfl := ((slashRefiner_ends id set).error hs).2
    exact derives_afterSlash hR set id
  | case10 id set' hr => cases hattests
  | case12 =>
    rw [loadFromRefiners_allRefiners]
    exact Derives.refl hR set
  | _ => exact Derives.refl hR set

/-- Without a transaction no refiner gets known and no bond comes or goes. -/
theorem derives_perform (set : RefinerSet) {operation : Operation}
    (h : operation.isInternal = true) : Derives SameBonds set (set.perform operation) := by
  cases hattests : operation.attests with
  | false => exact derives_perform_unattested unmoved_sameBonds set h hattests
  | true =>
    cases operation with
    | recordCorrectAttestation id =>
      unfold perform
      dsimp only
      split
      · rename_i set' hr
        exact derives_recordCorrectAttestation hr
      · exact Derives.refl unmoved_sameBonds set
    | _ => cases hattests

/-- A withdrawal rewrites the entries and the status of its own refiner. -/
theorem derives_unbondAmount_of (hrefl : ∀ r, R r r)
    (hfifo : ∀ {r r' amount unbonded}, RefinerInfo.unbondFifo r amount = some (r', unbonded) →
      ∀ status, R r { r' with status })
    {set set' : RefinerSet} {id : ObjectId} {amount unbonded : FlakeAmount} {height : BlockHeight}
    (h : set.unbondAmount id amount height = .ok (set', unbonded)) : Derives R set set' := by
  unfold unbondAmount at h
  split at h
  · cases h
  · rename_i old hold
    dsimp only at h
    rw [check_bind_eq_ok, check_bind_eq_ok, check_bind_eq_ok] at h
    obtain ⟨-, -, -, h⟩ := h
    split at h
    · cases h
    · rename_i r' unbonded' hrun
      have hid := RefinerInfo.unbondFifo_objectId hrun
      split at h <;> cases h
      · refine derives_put hrefl hold ?_ (hfifo hrun .unbonding) _ _
        exact hid
      · exact derives_put hrefl hold hid (hfifo hrun r'.status) _ _

/-- A withdrawal takes bonds away. -/
theorem derives_unbondAmount {set set' : RefinerSet} {id : ObjectId}
    {amount unbonded : FlakeAmount} {height : BlockHeight}
    (h : set.unbondAmount id amount height = .ok (set', unbonded)) :
    Derives (fun r r' => r'.entries.length ≤ r.entries.length) set set' := by
  refine derives_unbondAmount_of (R := fun r r' => r'.entries.length ≤ r.entries.length)
    (fun _ => le_rfl) (fun {r r' amount unbonded} hrun _ => ?_) h
  unfold RefinerInfo.unbondFifo at hrun
  split at hrun
  · cases hrun
    exact le_rfl
  · split at hrun <;> cases hrun
    rename_i es hes
    have hsub := (RefinerInfo.sublist_consumeEntries hes).length_le
    rwa [List.length_map, List.length_map] at hsub

theorem length_addEntry {r r' : RefinerInfo} {stake : FlakeAmount} {height timestamp : UInt64}
    (h : r.addEntry stake height timestamp = .ok r') :
    r'.entries.length ≤ r.entries.length + 1 := by
  unfold RefinerInfo.addEntry at h
  split at h
  · split at h <;> cases h
    rename_i es hes
    have hmerge := congrArg List.length (RefinerInfo.mergeStake_timestamps hes).1
    rw [List.length_map, List.length_map] at hmerge
    dsimp only
    omega
  · cases h
    dsimp only
    generalize r.entries = es
    induction es with
    | nil => exact le_rfl
    | cons e es ih =>
      unfold RefinerInfo.insertEntry
      split
      · exact le_rfl
      · exact Nat.succ_le_succ ih

/-- A bond is one more bond of its own refiner, who may be new. -/
theorem getRefiner_bond {set set' : RefinerSet} {id : ObjectId} {stake : FlakeAmount}
    {height timestamp : UInt64} {totalIssued : FlakeAmount}
    (h : set.bond id stake height timestamp totalIssued = .ok set') :
    (∀ k, k ≠ id → set'.getRefiner k = set.getRefiner k) ∧
      ∃ r', set'.getRefiner id = some r' ∧ r'.entries.length ≤
        ((set.getRefiner id).map fun r => r.entries.length).getD 0 + 1 := by
  unfold bond at h
  rw [check_bind_eq_ok] at h
  obtain ⟨-, h⟩ := h
  split at h
  · rename_i r hr
    have hid : r.objectId = id := Registry.name_of_get? (v := r) hr
    rw [check_bind_eq_ok] at h
    obtain ⟨-, h⟩ := h
    obtain ⟨r', hadd, h⟩ := bind_eq_ok.mp h
    cases h
    have hid' := (RefinerInfo.addEntry_objectId hadd).trans hid
    let bonded : RefinerInfo :=
      { r' with status := if r'.status = .unbonding then .bonding else r'.status }
    have hget (k : ObjectId) :
        getRefiner { set with cachedRefiners := set.cachedRefiners.put bonded } k =
          if id = k then some bonded else set.getRefiner k := by
      rw [getRefiner_put, show bonded.objectId = id from hid']
    refine ⟨fun k hk => (hget k).trans (if_neg hk.symm), bonded, (hget id).trans (if_pos rfl), ?_⟩
    have hlength := length_addEntry hadd
    rw [hr]
    exact hlength
  · cases h
    let bonded := RefinerInfo.new id stake height timestamp
    have hget (k : ObjectId) :
        getRefiner { set with cachedRefiners := set.cachedRefiners.put bonded } k =
          if id = k then some bonded else set.getRefiner k := getRefiner_put _ _ _ _ _
    refine ⟨fun k hk => (hget k).trans (if_neg hk.symm), bonded, (hget id).trans (if_pos rfl), ?_⟩
    exact Nat.succ_le_succ (Nat.zero_le _)

/-! ### Counted attestations -/

/-- How many attestations are counted for a refiner. -/
def attestationCount (set : RefinerSet) (id : ObjectId) : ℕ :=
  ((set.getRefiner id).map fun r => r.consecutiveCorrectAttestations.toNat).getD 0

theorem attestationCount_of_some {set : RefinerSet} {id : ObjectId} {r : RefinerInfo}
    (h : set.getRefiner id = some r) :
    set.attestationCount id = r.consecutiveCorrectAttestations.toNat := by
  unfold attestationCount
  rw [h]
  rfl

/-- Where records keep their count or leave, no count grows. -/
theorem Derives.attestationCount_le {set set' : RefinerSet} (h : Derives SameCount set set')
    (id : ObjectId) : set'.attestationCount id ≤ set.attestationCount id := by
  cases hr' : set'.getRefiner id with
  | none =>
    unfold attestationCount
    rw [hr']
    exact Nat.zero_le _
  | some r' =>
    obtain ⟨r, hr, hcount⟩ := h id r' hr'
    rw [attestationCount_of_some hr', attestationCount_of_some hr, hcount]

theorem derives_unbondAmount_sameCount {set set' : RefinerSet} {id : ObjectId}
    {amount unbonded : FlakeAmount} {height : BlockHeight}
    (h : set.unbondAmount id amount height = .ok (set', unbonded)) :
    Derives SameCount set set' := by
  refine derives_unbondAmount_of unmoved_sameCount.refl (fun {r r' amount unbonded} hrun _ => ?_) h
  unfold RefinerInfo.unbondFifo at hrun
  split at hrun
  · cases hrun
    rfl
  · split at hrun <;> cases hrun
    rfl

/-- A bond counts nothing: a new refiner starts from zero. -/
theorem attestationCount_bond {set set' : RefinerSet} {id : ObjectId} {stake : FlakeAmount}
    {height timestamp : UInt64} {totalIssued : FlakeAmount}
    (h : set.bond id stake height timestamp totalIssued = .ok set') (k : ObjectId) :
    set'.attestationCount k ≤ set.attestationCount k := by
  unfold bond at h
  rw [check_bind_eq_ok] at h
  obtain ⟨-, h⟩ := h
  split at h
  · rename_i r hr
    rw [check_bind_eq_ok] at h
    obtain ⟨-, h⟩ := h
    obtain ⟨r', hadd, h⟩ := bind_eq_ok.mp h
    cases h
    have hid := RefinerInfo.addEntry_objectId hadd
    have hcount : SameCount r r' := by
      rw [(RefinerInfo.addEntry_eq_ok hadd).2]
      rfl
    refine (derives_put (R := SameCount) unmoved_sameCount.refl hr ?_ ?_ _ _).attestationCount_le k
    · exact hid
    · exact hcount
  · cases h
    unfold attestationCount
    rw [getRefiner_put]
    split
    · exact Nat.zero_le _
    · exact le_rfl

/-- An attestation counts once for its refiner, up to the greatest count. -/
theorem attestationCount_recordCorrectAttestation {set set' : RefinerSet} {id : ObjectId}
    (h : set.recordCorrectAttestation id = .ok set') (k : ObjectId) :
    set'.attestationCount k =
      if id = k then min (set.attestationCount id + 1) (2 ^ 64 - 1)
      else set.attestationCount k := by
  unfold recordCorrectAttestation at h
  split at h
  · cases h
  · rename_i r hr
    rw [check_bind_eq_ok] at h
    cases h.2
    have hid : r.objectId = id := Registry.name_of_get? (v := r) hr
    have hone : (1 : UInt64).toNat = 1 := rfl
    unfold attestationCount
    rw [getRefiner_put, hr]
    dsimp only
    rw [hid]
    split
    · rw [Option.map_some, Option.getD_some, MachineInt.toNat_saturatingAdd, hone]
      rfl
    · rfl

/-! ### Slashed for good -/

/-- The refiner is known and slashed. -/
def IsSlashed (set : RefinerSet) (id : ObjectId) : Prop :=
  ∃ r, set.getRefiner id = some r ∧ r.status = .slashed

/-- The record of a refiner that is not slashed is written. -/
theorem IsSlashed.put {set : RefinerSet} {id k : ObjectId} (h : set.IsSlashed id)
    {old : RefinerInfo} (hold : set.getRefiner k = some old) (hs : old.status ≠ .slashed)
    (r : RefinerInfo) (hr : r.objectId = old.objectId) (activeSet : List ObjectId)
    (unbondingQueue : List PendingUnbond) :
    IsSlashed { cachedRefiners := set.cachedRefiners.put r, activeSet, unbondingQueue } id := by
  obtain ⟨slashed, hget, hslashed⟩ := h
  have hk : old.objectId = k := Registry.name_of_get? (v := old) hold
  refine ⟨slashed, ?_, hslashed⟩
  rw [getRefiner_put, if_neg, hget]
  rintro rfl
  rw [hr, hk] at hget
  obtain rfl := Option.some.inj (hold.symm.trans hget)
  exact hs hslashed

theorem IsSlashed.bond {set set' : RefinerSet} {id k : ObjectId} (h : set.IsSlashed id)
    {stake : FlakeAmount} {height timestamp : UInt64} {totalIssued : FlakeAmount}
    (hbond : set.bond k stake height timestamp totalIssued = .ok set') : set'.IsSlashed id := by
  unfold RefinerSet.bond at hbond
  rw [check_bind_eq_ok] at hbond
  replace hbond := hbond.2
  split at hbond
  · rename_i old hold
    rw [check_bind_eq_ok] at hbond
    obtain ⟨hs, hbond⟩ := hbond
    obtain ⟨r', hadd, hbond⟩ := bind_eq_ok.mp hbond
    cases hbond
    have hid := RefinerInfo.addEntry_objectId hadd
    refine h.put hold hs _ ?_ _ _
    exact hid
  · rename_i hnone
    cases hbond
    obtain ⟨slashed, hget, hslashed⟩ := h
    refine ⟨slashed, ?_, hslashed⟩
    rw [getRefiner_put, if_neg, hget]
    rintro rfl
    rw [show (RefinerInfo.new k stake height timestamp).objectId = k from rfl, hnone] at hget
    cases hget

theorem IsSlashed.unbondAmount {set set' : RefinerSet} {id k : ObjectId} (h : set.IsSlashed id)
    (hset : set.WellFormed) {amount unbonded : FlakeAmount} {height : BlockHeight}
    (hunbond : set.unbondAmount k amount height = .ok (set', unbonded)) : set'.IsSlashed id := by
  unfold RefinerSet.unbondAmount at hunbond
  split at hunbond
  · cases hunbond
  · rename_i old hold
    dsimp only at hunbond
    rw [check_bind_eq_ok, check_bind_eq_ok, check_bind_eq_ok] at hunbond
    obtain ⟨htotal, -, -, hunbond⟩ := hunbond
    have hs : old.status ≠ .slashed := fun hs =>
      htotal (RefinerInfo.totalStake_eq_zero ((hset.record k old hold).stake_zero hs))
    split at hunbond
    · cases hunbond
    · rename_i r' unbonded' hfifo
      have hid := RefinerInfo.unbondFifo_objectId hfifo
      split at hunbond <;> cases hunbond
      · refine h.put hold hs _ ?_ _ _
        exact hid
      · exact h.put hold hs r' hid _ _

theorem IsSlashed.removeIfGone {set : RefinerSet} {id k : ObjectId} (h : set.IsSlashed id) :
    (set.removeIfGone k).IsSlashed id := by
  unfold RefinerSet.removeIfGone
  dsimp only
  split
  · exact h
  · rename_i r hr
    split
    · rename_i hgone
      obtain ⟨slashed, hget, hslashed⟩ := h
      refine ⟨slashed, ?_, hslashed⟩
      refine (Registry.get?_erase set.cachedRefiners k id).trans ?_
      rw [if_neg]
      · exact hget
      · rintro rfl
        obtain rfl := Option.some.inj (hr.symm.trans hget)
        rw [hslashed] at hgone
        cases hgone.1
    · exact h

theorem IsSlashed.processMaturedUnbonds {set : RefinerSet} {id : ObjectId} (h : set.IsSlashed id)
    (height : BlockHeight) : (set.processMaturedUnbonds height).1.IsSlashed id := by
  unfold RefinerSet.processMaturedUnbonds
  dsimp only
  generalize set.maturedUnbonds height = drained
  generalize set.unbondingQueue.filter _ = unbondingQueue
  have hset : IsSlashed { set with unbondingQueue } id := h
  generalize ({ set with unbondingQueue } : RefinerSet) = set' at hset ⊢
  induction drained generalizing set' with
  | nil => exact hset
  | cons entry drained ih => exact ih _ hset.removeIfGone

theorem IsSlashed.activateMaturedRefiners {set : RefinerSet} {id : ObjectId}
    (h : set.IsSlashed id) (height : BlockHeight) :
    (set.activateMaturedRefiners height).IsSlashed id := by
  obtain ⟨r, hr, hs⟩ := h
  refine ⟨r, ?_, hs⟩
  rw [getRefiner_activateMaturedRefiners, hr, Option.map_some, if_neg]
  unfold isMatured
  rw [hs]
  nofun

theorem IsSlashed.rankRefiner {set : RefinerSet} {id : ObjectId} (h : set.IsSlashed id)
    (activeLimit : ℕ) (candidate : (ObjectId × UInt64) × ℕ) :
    (rankRefiner activeLimit set candidate).IsSlashed id := by
  unfold RefinerSet.rankRefiner
  dsimp only
  split
  · exact h
  · rename_i r hr
    split
    · split
      · rename_i hw
        exact h.put hr (by simp [hw]) { r with status := .active } rfl _ _
      · exact h
    · split
      · rename_i ha
        exact h.put hr (by simp [ha]) { r with status := .waiting } rfl _ _
      · exact h

theorem IsSlashed.rerankRefiners {set : RefinerSet} {id : ObjectId} (h : set.IsSlashed id)
    (totalIssued : FlakeAmount) : (set.rerankRefiners totalIssued).IsSlashed id := by
  unfold RefinerSet.rerankRefiners
  dsimp only
  generalize List.zipIdx _ = candidates
  induction candidates generalizing set with
  | nil => exact h
  | cons candidate candidates ih => exact ih (h.rankRefiner _ candidate)

theorem IsSlashed.afterSlash {set : RefinerSet} {id : ObjectId} (h : set.IsSlashed id)
    (k : ObjectId) : (set.afterSlash k).IsSlashed id := by
  unfold RefinerSet.afterSlash
  dsimp only
  split
  · exact h
  · rename_i r hr
    split
    · exact h
    · rename_i hs
      refine h.put hr hs _ ?_ _ _
      rfl

theorem IsSlashed.recordCorrectAttestation {set set' : RefinerSet} {id k : ObjectId}
    (h : set.IsSlashed id) (hrec : set.recordCorrectAttestation k = .ok set') :
    set'.IsSlashed id := by
  unfold RefinerSet.recordCorrectAttestation at hrec
  split at hrec
  · cases hrec
  · rename_i r hr
    rw [check_bind_eq_ok] at hrec
    obtain ⟨ha, hrec⟩ := hrec
    cases hrec
    refine h.put hr (by rw [ha]; nofun) _ ?_ _ _
    rfl

/-- No operation changes the status of a slashed refiner. -/
theorem IsSlashed.perform {set : RefinerSet} {id : ObjectId} (h : set.IsSlashed id)
    (hset : set.WellFormed) (operation : Operation) : (set.perform operation).IsSlashed id := by
  fun_cases RefinerSet.perform set operation with
  | case1 k stake height timestamp totalIssued set' hb => exact h.bond hb
  | case3 k amount height set' unbonded hu => exact h.unbondAmount hset hu
  | case5 height => exact h.processMaturedUnbonds height
  | case6 height => exact h.activateMaturedRefiners height
  | case7 totalIssued => exact h.rerankRefiners totalIssued
  | case8 k burned set' hs =>
    obtain rfl := ((slashRefiner_ends k set).ok hs).2
    exact h.afterSlash k
  | case9 k message set' hs =>
    obtain rfl := ((slashRefiner_ends k set).error hs).2
    exact h.afterSlash k
  | case10 k set' hr => exact h.recordCorrectAttestation hr
  | case12 =>
    rw [loadFromRefiners_allRefiners]
    exact h
  | _ => exact h

/-- Every run of operations keeps a set well-formed. -/
theorem wellFormed_run {set : RefinerSet} (h : set.WellFormed) (operations : List Operation) :
    WellFormed (run perform set operations) := by
  induction operations generalizing set with
  | nil => exact h
  | cons operation operations ih => exact ih (wellFormed_perform h operation)

theorem IsSlashed.run {set : RefinerSet} {id : ObjectId} (h : set.IsSlashed id)
    (hset : set.WellFormed) (operations : List Operation) :
    IsSlashed (run RefinerSet.perform set operations) id := by
  induction operations generalizing set with
  | nil => exact h
  | cons operation operations ih =>
    exact ih (h.perform hset operation) (wellFormed_perform hset operation)

/-- Whatever operations are performed from the empty set, with whatever arguments: the
active ids are distinct and are those of the active records, every record has bonds that fit
its status, the accounts in the queue are known, and a slashed refiner holds nothing and
stays slashed under everything that follows. -/
theorem representation_invariant (operations : List Operation) :
    let set := run perform new operations
    set.activeSet.Nodup ∧
      (∀ id, id ∈ set.activeSet ↔ ∃ r, set.getRefiner id = some r ∧ r.status = .active) ∧
      (∀ id r, set.getRefiner id = some r →
        r.entries.Pairwise (fun a b => a.bondedAtTimestamp < b.bondedAtTimestamp) ∧
        (r.status ≠ .slashed → ∀ e ∈ r.entries, 0 < e.stake) ∧
        (r.status = .bonding ∨ r.status = .waiting ∨ r.status = .active → r.entries ≠ []) ∧
        (r.status = .unbonding →
          r.entries = [] ∧ ∃ u ∈ set.unbondingQueue, u.account = id) ∧
        (r.status = .slashed →
          (∀ e ∈ r.entries, e.stake = 0) ∧ (∀ u ∈ set.unbondingQueue, u.account ≠ id) ∧
          ∀ further, ∃ r', (run perform set further).getRefiner id = some r' ∧
            r'.status = .slashed)) ∧
      ∀ u ∈ set.unbondingQueue, ∃ r, set.getRefiner u.account = some r := by
  intro set
  have hset : set.WellFormed := wellFormed_run wellFormed_new operations
  refine ⟨hset.active_nodup, hset.mem_activeSet, fun id r hr => ?_, fun u hu => ?_⟩
  · have hwf := hset.record id r hr
    refine ⟨hwf.sorted, hwf.stake_pos, hwf.bonded, fun hs => ⟨hwf.unbonding hs, ?_⟩,
      fun hs => ⟨hwf.stake_zero hs, fun u hu hid => ?_, fun further => ?_⟩⟩
    · exact (hset.unbonding_queued id r hr hs).resolve_right nofun
    · obtain ⟨r', hr', hs'⟩ := hset.queue_known u hu
      rw [hid, hr] at hr'
      obtain rfl := Option.some.inj hr'
      exact hs' hs
    · exact IsSlashed.run ⟨r, hr, hs⟩ hset further
  · obtain ⟨r, hr, -⟩ := hset.queue_known u hu
    exact ⟨r, hr⟩

end RefinerSet

end Opolys
