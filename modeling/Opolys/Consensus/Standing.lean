import Opolys.Consensus.Lifecycle

/-!
# The standing of refiners

An attestation that is counted changes a counter in the record of its refiner. Weights,
finality and the selection of producers do not look at it: they depend on the bonds and
the status of the records, and on the active set.
-/

namespace Opolys.RefinerSet

open Effect (check_bind_eq_ok)

/-- What decides the weight of a refiner. -/
def standing (set : RefinerSet) (id : ObjectId) : Option (List BondEntry × RefinerStatus) :=
  (set.getRefiner id).map fun r => (r.entries, r.status)

theorem standing_recordCorrectAttestation {set set' : RefinerSet} {id : ObjectId}
    (h : set.recordCorrectAttestation id = .ok set') (k : ObjectId) :
    set'.standing k = set.standing k := by
  unfold recordCorrectAttestation at h
  split at h
  · cases h
  · rename_i r hr
    rw [check_bind_eq_ok] at h
    obtain ⟨-, h⟩ := h
    cases h
    have hid : r.objectId = id := Registry.name_of_get? (v := r) hr
    unfold standing
    rw [getRefiner_put]
    dsimp only
    split
    · rename_i hk
      rw [← hk, hid, hr]
      rfl
    · rfl

/-- Two sets have the same active refiners, with the same bonds and statuses. -/
structure SameStanding (set set' : RefinerSet) : Prop where
  activeSet_eq : set'.activeSet = set.activeSet
  standing_eq : ∀ id, set'.standing id = set.standing id

theorem SameStanding.refl (set : RefinerSet) : set.SameStanding set := ⟨rfl, fun _ => rfl⟩

theorem SameStanding.trans {a b c : RefinerSet} (h : a.SameStanding b) (h' : b.SameStanding c) :
    a.SameStanding c :=
  ⟨h'.activeSet_eq.trans h.activeSet_eq, fun id => (h'.standing_eq id).trans (h.standing_eq id)⟩

theorem sameStanding_recordCorrectAttestation {set set' : RefinerSet} {id : ObjectId}
    (h : set.recordCorrectAttestation id = .ok set') : set.SameStanding set' := by
  refine ⟨?_, standing_recordCorrectAttestation h⟩
  unfold recordCorrectAttestation at h
  split at h
  · cases h
  · rw [check_bind_eq_ok] at h
    cases h.2
    rfl

/-- The record of a refiner in the other set. -/
def counterpart (set' : RefinerSet) (r : RefinerInfo) : RefinerInfo :=
  (set'.getRefiner r.objectId).getD r

/-- A record and its counterpart have the same name, bonds and status. -/
theorem SameStanding.counterpart_eq {set set' : RefinerSet} (h : set.SameStanding set')
    {id : ObjectId} {r : RefinerInfo} (hr : set.getRefiner id = some r) :
    set'.getRefiner id = some (set'.counterpart r) ∧
      (set'.counterpart r).objectId = r.objectId ∧
      (set'.counterpart r).entries = r.entries ∧ (set'.counterpart r).status = r.status := by
  have hid : r.objectId = id := Registry.name_of_get? (v := r) hr
  have hstanding := h.standing_eq id
  unfold standing at hstanding
  rw [hr, Option.map_some, Option.map_eq_some_iff] at hstanding
  obtain ⟨r', hr', heq⟩ := hstanding
  have hcounterpart : set'.counterpart r = r' := by
    unfold counterpart
    rw [hid, hr']
    rfl
  have hid' : r'.objectId = id := Registry.name_of_get? (v := r') hr'
  obtain ⟨hentries, hstatus⟩ := Prod.mk.inj heq
  rw [hcounterpart]
  exact ⟨hr', hid'.trans hid.symm, hentries, hstatus⟩

theorem SameStanding.activeRefiners_eq {set set' : RefinerSet} (h : set.SameStanding set') :
    set'.activeRefiners = set.activeRefiners.map set'.counterpart := by
  unfold activeRefiners
  rw [h.activeSet_eq]
  induction set.activeSet with
  | nil => rfl
  | cons id ids ih =>
    cases hr : set.getRefiner id with
    | none =>
      have hstanding := h.standing_eq id
      unfold standing at hstanding
      rw [hr, Option.map_none, Option.map_eq_none_iff] at hstanding
      rw [List.filterMap_cons_none hstanding, List.filterMap_cons_none hr, ih]
    | some r =>
      rw [List.filterMap_cons_some (h.counterpart_eq hr).1, List.filterMap_cons_some hr, ih,
        List.map_cons]

theorem pickByTicket_map {f : RefinerInfo → RefinerInfo} {rs : List RefinerInfo}
    (hf : ∀ r ∈ rs, (f r).totalStake = r.totalStake) (ticket cumulative : FlakeAmount) :
    pickByTicket ticket (rs.map f) cumulative = (pickByTicket ticket rs cumulative).map f := by
  induction rs generalizing cumulative with
  | nil => rfl
  | cons r rs ih =>
    rw [List.map_cons]
    unfold pickByTicket
    rw [hf r List.mem_cons_self]
    dsimp only
    split
    · rfl
    · exact ih (fun r' hr' => hf r' (List.mem_cons_of_mem _ hr')) _

theorem foldl_stake_map {f : RefinerInfo → RefinerInfo} {rs : List RefinerInfo}
    (hf : ∀ r ∈ rs, (f r).totalStake = r.totalStake) (total : FlakeAmount) :
    (rs.map f).foldl (fun acc r => MachineInt.saturatingAdd acc r.totalStake) total =
      rs.foldl (fun acc r => MachineInt.saturatingAdd acc r.totalStake) total := by
  induction rs generalizing total with
  | nil => rfl
  | cons r rs ih =>
    rw [List.map_cons, List.foldl_cons, List.foldl_cons, hf r List.mem_cons_self]
    exact ih (fun r' hr' => hf r' (List.mem_cons_of_mem _ hr')) _

theorem mem_of_pickByTicket {ticket cumulative : FlakeAmount} {rs : List RefinerInfo}
    {r : RefinerInfo} (h : pickByTicket ticket rs cumulative = some r) : r ∈ rs := by
  induction rs generalizing cumulative with
  | nil => cases h
  | cons r' rs ih =>
    unfold pickByTicket at h
    dsimp only at h
    split at h
    · cases h
      exact List.mem_cons_self
    · exact List.mem_cons_of_mem _ (ih h)

/-- The selected refiner is active. -/
theorem selectBlockProducer_active {set : RefinerSet} (hset : set.WellFormed) {seed : UInt64}
    {r : RefinerInfo} (h : set.selectBlockProducer seed = some r) :
    set.getRefiner r.objectId = some r ∧ r.status = .active := by
  unfold selectBlockProducer at h
  dsimp only at h
  split at h
  · cases h
  · have hmem := (List.mem_insertionSort _).mp (mem_of_pickByTicket h)
    obtain ⟨id, hid, hr⟩ := List.mem_filterMap.mp (List.mem_of_mem_filter hmem)
    have hname : r.objectId = id := Registry.name_of_get? (v := r) hr
    obtain ⟨r', hr', hactive⟩ := (hset.mem_activeSet id).mp hid
    obtain rfl : r = r' := Option.some.inj (hr.symm.trans hr')
    exact ⟨hname ▸ hr, hactive⟩

/-- The same refiner is selected. -/
theorem SameStanding.selectBlockProducer_eq {set set' : RefinerSet} (h : set.SameStanding set')
    (seed : UInt64) :
    set'.selectBlockProducer seed = (set.selectBlockProducer seed).map set'.counterpart := by
  have hmem : ∀ r ∈ set.activeRefiners, (set'.counterpart r).objectId = r.objectId ∧
      (set'.counterpart r).totalStake = r.totalStake := by
    intro r hr
    obtain ⟨id, -, hget⟩ := List.mem_filterMap.mp hr
    obtain ⟨-, hid, hentries, -⟩ := h.counterpart_eq hget
    refine ⟨hid, ?_⟩
    unfold RefinerInfo.totalStake
    rw [hentries]
  unfold selectBlockProducer
  dsimp only
  rw [h.activeRefiners_eq]
  have hfilter : (set.activeRefiners.map set'.counterpart).filter (fun r => r.totalStake > 0) =
      (set.activeRefiners.filter fun r => r.totalStake > 0).map set'.counterpart := by
    rw [List.filter_map]
    refine congrArg _ (List.filter_congr fun r hr => ?_)
    simp [(hmem r hr).2]
  rw [hfilter]
  have hsub : ∀ r ∈ set.activeRefiners.filter fun r => r.totalStake > 0,
      (set'.counterpart r).objectId = r.objectId ∧
        (set'.counterpart r).totalStake = r.totalStake :=
    fun r hr => hmem r (List.mem_of_mem_filter hr)
  generalize (set.activeRefiners.filter fun r => r.totalStake > 0) = active at hsub
  rw [← List.map_insertionSort (fun a b : RefinerInfo => (compare a.objectId b.objectId).isLE)]
  · have hsorted : ∀ r ∈ active.insertionSort fun a b => (compare a.objectId b.objectId).isLE,
        (set'.counterpart r).totalStake = r.totalStake :=
      fun r hr => (hsub r ((List.mem_insertionSort _).mp hr)).2
    rw [foldl_stake_map hsorted]
    split
    · rfl
    · exact pickByTicket_map hsorted _ _
  · intro a ha b hb
    rw [(hsub a ha).1, (hsub b hb).1]

end Opolys.RefinerSet
