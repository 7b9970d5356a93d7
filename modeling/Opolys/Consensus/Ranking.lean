import Opolys.Consensus.Lifecycle
import Opolys.Library.Ranking

/-!
# The ranking of the refiners

At the end of an epoch the refiners that have been bonded for one epoch become eligible,
and all refiners with stake are ranked: the ones within the limit become active. The
refiners that are still bonding are ranked with the others. They are not made active, so
the places they take remain empty: the active refiners are the first of the eligible ones
unless a bonding refiner is within the limit while an eligible one is beyond it.
-/

namespace Opolys

open Ranking (top ahead Separates)

namespace RefinerInfo

/-- More stake, or the same stake and an id that is not greater. -/
def Outranks (a b : RefinerInfo) : Prop :=
  b.stake < a.stake ∨ a.stake = b.stake ∧ (compare a.objectId b.objectId).isLE = true

instance : DecidableRel Outranks := fun _ _ => inferInstanceAs (Decidable (_ ∨ _))

instance : Std.Total Outranks where
  total a b := by
    unfold Outranks
    rcases Nat.lt_trichotomy a.stake b.stake with hlt | heq | hgt
    · exact Or.inr (Or.inl hlt)
    · by_cases hle : (compare a.objectId b.objectId).isLE = true
      · exact Or.inl (Or.inr ⟨heq, hle⟩)
      · exact Or.inr (Or.inr ⟨heq.symm, by simp [Std.OrientedCmp.lt_of_not_isLE hle]⟩)
    · exact Or.inl (Or.inl hgt)

instance : IsTrans RefinerInfo Outranks where
  trans a b c hab hbc := by
    unfold Outranks at *
    rcases hab with hab | ⟨hab, hle⟩ <;> rcases hbc with hbc | ⟨hbc, hle'⟩
    · exact Or.inl (by omega)
    · exact Or.inl (by omega)
    · exact Or.inl (by omega)
    · exact Or.inr ⟨hab.trans hbc, Std.TransOrd.isLE_trans hle hle'⟩

theorem Outranks.objectId_eq {a b : RefinerInfo} (h : Outranks a b) (h' : Outranks b a) :
    a.objectId = b.objectId := by
  unfold Outranks at h h'
  rcases h with h | ⟨heq, hle⟩ <;> rcases h' with h' | ⟨heq', hle'⟩
  · omega
  · omega
  · omega
  · exact Std.LawfulEqOrd.compare_eq_iff_eq.mp (Std.OrientedCmp.isLE_antisymm hle hle')

/-- Whether a refiner has matured: waiting for a place or in one. -/
def isCandidate (r : RefinerInfo) : Bool := r.status = .waiting ∨ r.status = .active

/-- The record of a refiner within the limit. -/
def promoted (r : RefinerInfo) : RefinerInfo :=
  if r.status = .waiting then { r with status := .active } else r

/-- The record of a refiner beyond the limit. -/
def demoted (r : RefinerInfo) : RefinerInfo :=
  if r.status = .active then { r with status := .waiting } else r

theorem promoted_active {r : RefinerInfo} : r.promoted.status = .active ↔ r.isCandidate = true := by
  unfold promoted isCandidate
  split <;> simp_all

theorem demoted_not_active (r : RefinerInfo) : r.demoted.status ≠ .active := by
  unfold demoted
  split <;> simp_all

theorem promoted_of_bonding {r : RefinerInfo} (h : r.status = .bonding) : r.promoted = r := by
  simp [promoted, h]

theorem demoted_of_bonding {r : RefinerInfo} (h : r.status = .bonding) : r.demoted = r := by
  simp [demoted, h]

end RefinerInfo

namespace RefinerSet

open RefinerInfo (Outranks)

/-- The refiners that are ranked. -/
def eligible (set : RefinerSet) : List RefinerInfo :=
  set.cachedRefiners.values.filter fun r => r.status ≠ .slashed ∧ r.totalStake > 0

/-- The refiners that have matured. -/
def candidates (set : RefinerSet) : List RefinerInfo :=
  set.cachedRefiners.values.filter RefinerInfo.isCandidate

/-- A well-formed set in which the stake of each refiner is an amount. -/
structure Sound (set : RefinerSet) : Prop where
  wellFormed : set.WellFormed
  stake_lt : ∀ id r, set.getRefiner id = some r → r.stake < 2 ^ 64

/-- The active refiners are the first of the matured ones, and the bonding ones stay as
they are. -/
structure TopActive (before after : RefinerSet) (limit : ℕ) : Prop where
  active_iff : ∀ id, (∃ r, after.getRefiner id = some r ∧ r.status = .active) ↔
    ∃ r ∈ top Outranks limit before.candidates, r.objectId = id
  bonding_kept : ∀ id r, before.getRefiner id = some r → r.status = .bonding →
    after.getRefiner id = some r

/-- A bonding refiner is ranked within the limit and a matured one beyond it. -/
def Crowded (set : RefinerSet) (limit : ℕ) : Prop :=
  (∃ r ∈ set.eligible, r.status = .bonding ∧ ahead Outranks set.eligible r < limit) ∧
    ∃ r ∈ set.candidates, limit ≤ ahead Outranks set.eligible r

/-! ## The candidates -/

theorem mem_values {set : RefinerSet} {r : RefinerInfo} :
    r ∈ set.cachedRefiners.values ↔ set.getRefiner r.objectId = some r := Registry.mem_values

theorem eq_of_objectId_eq {set : RefinerSet} {a b : RefinerInfo}
    (ha : a ∈ set.cachedRefiners.values) (hb : b ∈ set.cachedRefiners.values)
    (hid : a.objectId = b.objectId) : a = b := by
  rw [mem_values] at ha hb
  rw [hid, hb] at ha
  exact (Option.some.inj ha).symm

theorem separates_values (set : RefinerSet) : Separates Outranks set.cachedRefiners.values :=
  fun _ ha _ hb hab hba => eq_of_objectId_eq ha hb (hab.objectId_eq hba)

theorem Sound.stake_pos {set : RefinerSet} (h : set.Sound) {id : ObjectId} {r : RefinerInfo}
    (hr : set.getRefiner id = some r)
    (hs : r.status = .bonding ∨ r.status = .waiting ∨ r.status = .active) :
    0 < r.stake := by
  have hwf := h.wellFormed.record id r hr
  have hne := hwf.bonded hs
  obtain ⟨e, es, he⟩ := List.exists_cons_of_ne_nil hne
  have hnot : r.status ≠ .slashed := by rcases hs with hs | hs | hs <;> rw [hs] <;> nofun
  have hpos := hwf.stake_pos hnot e (he ▸ List.mem_cons_self)
  rw [UInt64.lt_iff_toNat_lt, UInt64.toNat_zero] at hpos
  unfold RefinerInfo.stake
  rw [he, entriesStake_cons]
  omega

theorem Sound.mem_eligible {set : RefinerSet} (h : set.Sound) {r : RefinerInfo} :
    r ∈ set.eligible ↔ set.getRefiner r.objectId = some r ∧
      (r.status = .bonding ∨ r.status = .waiting ∨ r.status = .active) := by
  unfold eligible
  rw [List.mem_filter, mem_values, decide_eq_true_eq]
  refine and_congr_right fun hr => ?_
  have hlt := h.stake_lt _ r hr
  have hwf := h.wellFormed.record _ r hr
  constructor
  · rintro ⟨hslashed, hpos⟩
    cases hs : r.status with
    | none => exact absurd hs hwf.status_ne_none
    | bonding => exact Or.inl rfl
    | waiting => exact Or.inr (Or.inl rfl)
    | active => exact Or.inr (Or.inr rfl)
    | unbonding =>
      have hzero : r.totalStake = 0 := by
        unfold RefinerInfo.totalStake
        rw [hwf.unbonding hs]
        rfl
      rw [hzero] at hpos
      exact absurd hpos (by decide)
    | slashed => exact absurd hs hslashed
  · intro hs
    refine ⟨by rcases hs with hs | hs | hs <;> rw [hs] <;> nofun, ?_⟩
    rw [gt_iff_lt, UInt64.lt_iff_toNat_lt, RefinerInfo.toNat_totalStake hlt, UInt64.toNat_zero]
    exact h.stake_pos hr hs

theorem eligible_subset (set : RefinerSet) : set.eligible ⊆ set.cachedRefiners.values :=
  fun _ hr => List.mem_of_mem_filter hr

theorem separates_eligible (set : RefinerSet) : Separates Outranks set.eligible :=
  set.separates_values.subset set.eligible_subset

theorem nodup_eligible (set : RefinerSet) : set.eligible.Nodup :=
  set.cachedRefiners.nodup_values.filter _

/-- The matured refiners are among those that are ranked. -/
theorem Sound.candidates_eq {set : RefinerSet} (h : set.Sound) :
    set.candidates = set.eligible.filter RefinerInfo.isCandidate := by
  unfold candidates eligible
  rw [List.filter_filter]
  refine List.filter_congr fun r hr => ?_
  have hmem := h.mem_eligible (r := r)
  unfold eligible at hmem
  rw [List.mem_filter, and_iff_right hr] at hmem
  cases hc : r.isCandidate with
  | false => rfl
  | true =>
    have hs : r.status = .waiting ∨ r.status = .active := of_decide_eq_true hc
    rw [hmem.mpr ⟨mem_values.mp hr, Or.inr hs⟩]
    rfl

/-! ## The rerank -/

/-- What the node sorts by. -/
def rankKey (r : RefinerInfo) : ObjectId × UInt64 := (r.objectId, r.totalStake)

/-- The node compares the sums of words, which are the stakes. -/
theorem ranksBefore_rankKey {a b : RefinerInfo} (ha : a.stake < 2 ^ 64) (hb : b.stake < 2 ^ 64) :
    ranksBefore (rankKey a) (rankKey b) = true ↔ Outranks a b := by
  have hcompare : compare b.totalStake a.totalStake = compare b.stake a.stake := by
    rw [← RefinerInfo.toNat_totalStake ha, ← RefinerInfo.toNat_totalStake hb,
      MachineInt.compare_toNat]
  unfold ranksBefore rankKey Outranks
  dsimp only
  rw [hcompare, decide_eq_true_eq]
  rcases Nat.lt_trichotomy b.stake a.stake with hlt | heq | hgt
  · rw [Nat.compare_eq_lt.mpr hlt]
    simp [hlt]
  · rw [Nat.compare_eq_eq.mpr heq]
    simp [heq, Ordering.isLE_iff_ne_gt]
  · rw [Nat.compare_eq_gt.mpr hgt]
    simp only [Ordering.then]
    constructor
    · intro hne
      exact absurd rfl hne
    · rintro (hlt | ⟨heq, -⟩) <;> omega

/-- The node ranks the refiners with stake by their stakes. -/
theorem Sound.rerankRefiners_eq {set : RefinerSet} (h : set.Sound) (totalIssued : FlakeAmount) :
    set.rerankRefiners totalIssued =
      (((set.eligible.insertionSort Outranks).map rankKey).zipIdx).foldl
        (rankRefiner (activeRefinerLimit totalIssued)) set := by
  have hlt (r : RefinerInfo) (hr : r ∈ set.eligible) : r.stake < 2 ^ 64 :=
    h.stake_lt _ r (mem_values.mp (set.eligible_subset hr))
  have hsort : (set.eligible.insertionSort Outranks).map rankKey =
      (set.eligible.map rankKey).insertionSort fun a b => ranksBefore a b :=
    List.map_insertionSort _ _ rankKey _ fun a ha b hb =>
      (ranksBefore_rankKey (hlt a ha) (hlt b hb)).symm
  rw [hsort]
  rfl

/-- Ranking one refiner writes its record only. -/
theorem getRefiner_rankRefiner (limit : ℕ) (set : RefinerSet) (r : RefinerInfo) (i : ℕ)
    (id : ObjectId) :
    (rankRefiner limit set (rankKey r, i)).getRefiner id =
      if r.objectId = id then
        (set.getRefiner id).map fun r' => if i < limit then r'.promoted else r'.demoted
      else set.getRefiner id := by
  unfold rankRefiner rankKey
  dsimp only
  split
  · rename_i hnone
    split
    · rename_i hid
      rw [← hid, hnone]
      rfl
    · rfl
  · rename_i r' hr'
    have hname : r'.objectId = r.objectId := Registry.name_of_get? (v := r') hr'
    have hput (status : RefinerStatus) (activeSet : List ObjectId) :
        getRefiner { set with
          cachedRefiners := set.cachedRefiners.put { r' with status }, activeSet } id =
            if r.objectId = id then some { r' with status } else set.getRefiner id := by
      rw [getRefiner_put, hname]
    unfold RefinerInfo.promoted RefinerInfo.demoted
    by_cases hid : r.objectId = id
    · rw [if_pos hid, ← hid, hr', Option.map_some]
      split
      · split
        · rw [← hid] at hput
          rw [hput, if_pos rfl]
        · exact hr'
      · split
        · rw [← hid] at hput
          rw [hput, if_pos rfl]
        · exact hr'
    · rw [if_neg hid]
      split
      · split
        · rw [hput, if_neg hid]
        · rfl
      · split
        · rw [hput, if_neg hid]
        · rfl

/-- Ranking a list of refiners promotes the ones within the limit and demotes the others. -/
theorem getRefiner_foldl_rankRefiner (limit : ℕ) {ranked : List RefinerInfo}
    (hnd : (ranked.map RefinerInfo.objectId).Nodup) (set : RefinerSet) (start : ℕ) (id : ObjectId) :
    (((ranked.map rankKey).zipIdx start).foldl (rankRefiner limit) set).getRefiner id =
      (set.getRefiner id).map fun r =>
        if id ∈ (ranked.take (limit - start)).map RefinerInfo.objectId then r.promoted
        else if id ∈ ranked.map RefinerInfo.objectId then r.demoted else r := by
  induction ranked generalizing set start with
  | nil => simp
  | cons x ranked ih =>
    rw [List.map_cons, List.nodup_cons] at hnd
    rw [List.map_cons, List.zipIdx_cons, List.foldl_cons, ih hnd.2, getRefiner_rankRefiner]
    have hnot (n : ℕ) (hid : x.objectId = id) : id ∉ (ranked.take n).map RefinerInfo.objectId := by
      rw [← hid, List.map_take]
      exact fun hmem => hnd.1 (List.mem_of_mem_take hmem)
    by_cases hid : x.objectId = id
    · have hmem : id ∉ ranked.map RefinerInfo.objectId := hid ▸ hnd.1
      rw [if_pos hid, Option.map_map]
      refine congrArg (fun f => (set.getRefiner id).map f) (funext fun r => ?_)
      rw [Function.comp_apply, if_neg (hnot _ hid), if_neg hmem]
      by_cases hlt : start < limit
      · obtain ⟨k, hk⟩ := Nat.exists_eq_succ_of_ne_zero (Nat.sub_ne_zero_of_lt hlt)
        rw [if_pos hlt, hk]
        simp [hid]
      · rw [if_neg hlt, Nat.sub_eq_zero_of_le (Nat.le_of_not_lt hlt)]
        simp [hid]
    · rw [if_neg hid]
      refine congrArg (fun f => (set.getRefiner id).map f) (funext fun r => ?_)
      by_cases hlt : start < limit
      · obtain ⟨k, hk⟩ := Nat.exists_eq_succ_of_ne_zero (Nat.sub_ne_zero_of_lt hlt)
        have hk' : limit - (start + 1) = k := by omega
        rw [hk, hk']
        simp [Ne.symm hid]
      · rw [Nat.sub_eq_zero_of_le (Nat.le_of_not_lt hlt),
          Nat.sub_eq_zero_of_le (Nat.le_succ_of_le (Nat.le_of_not_lt hlt))]
        simp [Ne.symm hid]

theorem top_eligible_subset (set : RefinerSet) (limit : ℕ) :
    top Outranks limit set.eligible ⊆ set.cachedRefiners.values :=
  fun _ hr => set.eligible_subset (Ranking.mem_of_mem_top hr)

/-- What the rerank does to a record: within the limit a waiting refiner becomes active,
beyond it an active one waits. -/
theorem Sound.getRefiner_rerankRefiners {set : RefinerSet} (h : set.Sound)
    (totalIssued : FlakeAmount) (id : ObjectId) :
    (set.rerankRefiners totalIssued).getRefiner id =
      (set.getRefiner id).map fun r =>
        if r ∈ top Outranks (activeRefinerLimit totalIssued) set.eligible then r.promoted
        else r.demoted := by
  have hperm := List.perm_insertionSort Outranks set.eligible
  have hnd : ((set.eligible.insertionSort Outranks).map RefinerInfo.objectId).Nodup := by
    rw [(hperm.map RefinerInfo.objectId).nodup_iff]
    exact set.cachedRefiners.nodup_map_name_values.sublist (List.filter_sublist.map _)
  rw [h.rerankRefiners_eq, getRefiner_foldl_rankRefiner _ hnd]
  cases hr : set.getRefiner id with
  | none => rfl
  | some r =>
    have hid : r.objectId = id := Registry.name_of_get? (v := r) hr
    have hvalue : r ∈ set.cachedRefiners.values := mem_values.mpr (hid ▸ hr)
    have hmem (rs : List RefinerInfo) (hsub : rs ⊆ set.cachedRefiners.values) :
        id ∈ rs.map RefinerInfo.objectId ↔ r ∈ rs := by
      rw [List.mem_map]
      constructor
      · rintro ⟨x, hx, hxid⟩
        rwa [← eq_of_objectId_eq (hsub hx) hvalue (hxid.trans hid.symm)]
      · intro hr
        exact ⟨r, hr, hid⟩
    have hranked : set.eligible.insertionSort Outranks ⊆ set.cachedRefiners.values :=
      fun x hx => set.eligible_subset ((List.mem_insertionSort _).mp hx)
    rw [Option.map_some, Option.map_some]
    refine congrArg some (if_congr (hmem _ fun x hx => hranked (List.mem_of_mem_take hx)) rfl ?_)
    split
    · rfl
    · rename_i hout
      rw [hmem _ hranked, List.mem_insertionSort, h.mem_eligible] at hout
      have hnot : r.status ≠ .active := fun hs => hout ⟨hid ▸ hr, Or.inr (Or.inr hs)⟩
      rw [RefinerInfo.demoted, if_neg hnot]

/-- Active after the rerank are the matured ones among the first of all that are ranked. -/
theorem Sound.active_rerankRefiners {set : RefinerSet} (h : set.Sound)
    (totalIssued : FlakeAmount) (id : ObjectId) :
    (∃ r, (set.rerankRefiners totalIssued).getRefiner id = some r ∧ r.status = .active) ↔
      ∃ r, (r ∈ top Outranks (activeRefinerLimit totalIssued) set.eligible ∧
        r.isCandidate = true) ∧ r.objectId = id := by
  rw [h.getRefiner_rerankRefiners]
  constructor
  · rintro ⟨r', hr', hactive⟩
    obtain ⟨r, hr, rfl⟩ := Option.map_eq_some_iff.mp hr'
    split at hactive
    · rename_i htop
      exact ⟨r, ⟨htop, RefinerInfo.promoted_active.mp hactive⟩,
        Registry.name_of_get? (v := r) hr⟩
    · exact absurd hactive (RefinerInfo.demoted_not_active r)
  · rintro ⟨r, ⟨htop, hcandidate⟩, rfl⟩
    have hr := mem_values.mp (set.top_eligible_subset _ htop)
    refine ⟨r.promoted, ?_, RefinerInfo.promoted_active.mpr hcandidate⟩
    rw [hr, Option.map_some, if_pos htop]

theorem Sound.rerankRefiners_of_bonding {set : RefinerSet} (h : set.Sound)
    (totalIssued : FlakeAmount) {id : ObjectId} {r : RefinerInfo}
    (hr : set.getRefiner id = some r) (hs : r.status = .bonding) :
    (set.rerankRefiners totalIssued).getRefiner id = some r := by
  rw [h.getRefiner_rerankRefiners, hr, Option.map_some, RefinerInfo.promoted_of_bonding hs,
    RefinerInfo.demoted_of_bonding hs, ite_self]

theorem Sound.crowded_iff {set : RefinerSet} (h : set.Sound) (limit : ℕ) :
    set.Crowded limit ↔
      (∃ r ∈ set.eligible, r.isCandidate = false ∧ ahead Outranks set.eligible r < limit) ∧
        ∃ r ∈ set.eligible, r.isCandidate = true ∧ limit ≤ ahead Outranks set.eligible r := by
  have hbonding (r : RefinerInfo) (hr : r ∈ set.eligible) :
      r.status = .bonding ↔ r.isCandidate = false := by
    have hs := (h.mem_eligible.mp hr).2
    rw [RefinerInfo.isCandidate, decide_eq_false_iff_not]
    rcases hs with hs | hs | hs <;> simp [hs]
  unfold Crowded
  rw [h.candidates_eq]
  refine and_congr ?_ ?_
  · refine exists_congr fun r => and_congr_right fun hr => ?_
    rw [hbonding r hr]
  · refine exists_congr fun r => ?_
    rw [List.mem_filter, and_assoc]

/-- The rerank makes the first of the matured refiners active unless it is crowded. -/
theorem Sound.topActive_rerankRefiners_iff {set : RefinerSet} (h : set.Sound)
    (totalIssued : FlakeAmount) :
    TopActive set (set.rerankRefiners totalIssued) (activeRefinerLimit totalIssued) ↔
      ¬set.Crowded (activeRefinerLimit totalIssued) := by
  rw [h.crowded_iff, ← Ranking.top_filter_iff set.separates_eligible set.nodup_eligible,
    ← h.candidates_eq]
  have hcandidate : set.candidates ⊆ set.cachedRefiners.values :=
    fun r hr => List.mem_of_mem_filter hr
  constructor
  · intro htop x
    have hiff := (htop.active_iff x.objectId).symm.trans (h.active_rerankRefiners totalIssued _)
    constructor
    · intro hx
      obtain ⟨r, hr, hid⟩ := hiff.mp ⟨x, hx, rfl⟩
      rwa [← eq_of_objectId_eq (set.top_eligible_subset _ hr.1)
        (hcandidate (Ranking.mem_of_mem_top hx)) hid]
    · intro hx
      obtain ⟨r, hr, hid⟩ := hiff.mpr ⟨x, hx, rfl⟩
      rwa [← eq_of_objectId_eq (hcandidate (Ranking.mem_of_mem_top hr))
        (set.top_eligible_subset _ hx.1) hid]
  · intro hsame
    refine ⟨fun id => ?_, fun id r hr hs => h.rerankRefiners_of_bonding totalIssued hr hs⟩
    rw [h.active_rerankRefiners]
    exact exists_congr fun r => and_congr_left fun _ => (hsame r).symm

/-! ## The end of an epoch -/

theorem Sound.activateMaturedRefiners {set : RefinerSet} (h : set.Sound) (height : BlockHeight) :
    (set.activateMaturedRefiners height).Sound where
  wellFormed := wellFormed_activateMaturedRefiners h.wellFormed height
  stake_lt id r hr := by
    rw [getRefiner_activateMaturedRefiners] at hr
    obtain ⟨r', hr', rfl⟩ := Option.map_eq_some_iff.mp hr
    have hlt := h.stake_lt id r' hr'
    split
    · exact hlt
    · exact hlt

/-! ## A crowd of newcomers -/

/-- The id of refiner `i`. -/
def crowdId (i : ℕ) : ObjectId :=
  ⟨⟨UInt8.ofNat (i / 256) :: UInt8.ofNat (i % 256) :: List.replicate 30 0, rfl⟩⟩

/-- A refiner with the least stake that bonds first. -/
def early : RefinerInfo := RefinerInfo.new (crowdId 0) 1000000 0 0

/-- A refiner with twice that stake that bonds in the next block. -/
def newcomer (i : ℕ) : RefinerInfo := RefinerInfo.new (crowdId (i + 1)) 2000000 1 1

/-- The set after the early refiner and `n` newcomers have bonded. -/
def crowd : ℕ → RefinerSet
  | 0 => { new with cachedRefiners := new.cachedRefiners.put early }
  | n + 1 => { crowd n with cachedRefiners := (crowd n).cachedRefiners.put (newcomer n) }

theorem crowdId_inj {i j : ℕ} (hi : i < 65536) (hj : j < 65536) (h : crowdId i = crowdId j) :
    i = j := by
  have hbytes := congrArg ObjectId.asBytes h
  obtain ⟨hhigh, hrest⟩ := List.cons.inj hbytes
  obtain ⟨hlow, -⟩ := List.cons.inj hrest
  have hhigh := congrArg UInt8.toNat hhigh
  have hlow := congrArg UInt8.toNat hlow
  rw [UInt8.toNat_ofNat', UInt8.toNat_ofNat'] at hhigh hlow
  omega

theorem minimumBondStake_zero_le {stake : FlakeAmount} (h : 1000000 ≤ stake) :
    minimumBondStake 0 ≤ stake := by
  have hone : minimumBondStake 0 = 1000000 := by decide +kernel
  rw [hone]
  exact h

/-- A bond of an unknown refiner adds its record. -/
theorem bond_new {set : RefinerSet} {id : ObjectId} (hnone : set.getRefiner id = none)
    {stake : FlakeAmount} {height timestamp : UInt64} {totalIssued : FlakeAmount}
    (hstake : minimumBondStake totalIssued ≤ stake) :
    set.bond id stake height timestamp totalIssued =
      .ok { set with cachedRefiners :=
        set.cachedRefiners.put (RefinerInfo.new id stake height timestamp) } := by
  unfold RefinerSet.bond
  rw [hnone]
  exact Effect.check_bind_eq_ok.mpr ⟨hstake, rfl⟩

theorem getRefiner_new (id : ObjectId) : new.getRefiner id = none := Registry.get?_empty id

theorem newcomer_unknown {set : RefinerSet} {n : ℕ} (hn : n < 65535)
    (hset : ∀ r ∈ set.cachedRefiners.values, r = early ∨ ∃ i < n, r = newcomer i) :
    set.getRefiner (crowdId (n + 1)) = none := by
  cases hr : set.getRefiner (crowdId (n + 1)) with
  | none => rfl
  | some r =>
    have hid : r.objectId = crowdId (n + 1) := Registry.name_of_get? (v := r) hr
    rcases hset r (mem_values.mpr (hid ▸ hr)) with rfl | ⟨i, hi, rfl⟩
    · have hfirst : crowdId 0 = crowdId (n + 1) := hid
      have := crowdId_inj (by omega) (by omega) hfirst
      omega
    · have hother : crowdId (i + 1) = crowdId (n + 1) := hid
      have := crowdId_inj (by omega) (by omega) hother
      omega

theorem mem_crowd {n : ℕ} (hn : n < 65535) {r : RefinerInfo} :
    r ∈ (crowd n).cachedRefiners.values ↔ r = early ∨ ∃ i < n, r = newcomer i := by
  induction n generalizing r with
  | zero =>
    unfold crowd
    rw [Registry.mem_values_put_new (v := early) (getRefiner_new _), mem_values, getRefiner_new]
    simp
  | succ n ih =>
    have hnone := newcomer_unknown (by omega) fun r hr => (ih (by omega)).mp hr
    unfold crowd
    rw [Registry.mem_values_put_new (v := newcomer n) hnone, ih (by omega)]
    constructor
    · rintro (rfl | rfl | ⟨i, hi, rfl⟩)
      · exact Or.inr ⟨n, by omega, rfl⟩
      · exact Or.inl rfl
      · exact Or.inr ⟨i, by omega, rfl⟩
    · rintro (rfl | ⟨i, hi, rfl⟩)
      · exact Or.inr (Or.inl rfl)
      · rcases Nat.lt_succ_iff_lt_or_eq.mp hi with hlt | rfl
        · exact Or.inr (Or.inr ⟨i, hlt, rfl⟩)
        · exact Or.inl rfl

/-- The next newcomer bonds. -/
theorem bond_crowd {n : ℕ} (hn : n < 65535) :
    (crowd n).bond (crowdId (n + 1)) 2000000 1 1 0 = .ok (crowd (n + 1)) :=
  bond_new (newcomer_unknown hn fun _ hr => (mem_crowd hn).mp hr)
    (minimumBondStake_zero_le (by decide))

theorem sound_crowd {n : ℕ} (hn : n < 65535) : (crowd n).Sound where
  wellFormed := by
    induction n with
    | zero =>
      exact wellFormed_bond wellFormed_new
        (bond_new (getRefiner_new (crowdId 0)) (minimumBondStake_zero_le (by decide)))
    | succ n ih => exact wellFormed_bond (ih (by omega)) (bond_crowd (by omega))
  stake_lt id r hr := by
    have hid : r.objectId = id := Registry.name_of_get? (v := r) hr
    rcases (mem_crowd hn).mp (mem_values.mpr (hid ▸ hr)) with rfl | ⟨i, -, rfl⟩
    · exact (by decide : 1000000 < 2 ^ 64)
    · exact (by decide : 2000000 < 2 ^ 64)

/-- At the end of the first epoch the early refiner has matured and no newcomer has. -/
theorem mem_activated_crowd {n : ℕ} (hn : n < 65535) {r : RefinerInfo} :
    r ∈ ((crowd n).activateMaturedRefiners 960).cachedRefiners.values ↔
      r = startWaiting 960 early ∨ ∃ i < n, r = newcomer i := by
  have hearly : isMatured 960 early = true := by decide
  have hnewcomer (i : ℕ) : isMatured 960 (newcomer i) = false := rfl
  rw [mem_values, getRefiner_activateMaturedRefiners, Option.map_eq_some_iff]
  constructor
  · rintro ⟨r', hr', rfl⟩
    have hid := Registry.name_of_get? (v := r') hr'
    rcases (mem_crowd hn).mp (mem_values.mpr (hid ▸ hr')) with rfl | ⟨i, hi, rfl⟩
    · rw [if_pos hearly]
      exact Or.inl rfl
    · rw [hnewcomer]
      exact Or.inr ⟨i, hi, rfl⟩
  · rintro (rfl | ⟨i, hi, rfl⟩)
    · refine ⟨early, mem_values.mp ((mem_crowd hn).mpr (Or.inl rfl)), ?_⟩
      rw [if_pos hearly]
    · refine ⟨newcomer i, mem_values.mp ((mem_crowd hn).mpr (Or.inr ⟨i, hi, rfl⟩)), ?_⟩
      rw [hnewcomer]
      rfl

theorem newcomer_inj {i j : ℕ} (hi : i < 65535) (hj : j < 65535) (h : newcomer i = newcomer j) :
    i = j := by
  have hid : crowdId (i + 1) = crowdId (j + 1) := congrArg RefinerInfo.objectId h
  have := crowdId_inj (by omega) (by omega) hid
  omega

/-- Newcomers as many as the limit keep the early refiner beyond it. -/
theorem crowded_crowd {n : ℕ} (hpos : 0 < n) (hn : n < 65535) :
    ((crowd n).activateMaturedRefiners 960).Crowded n := by
  have hsound := (sound_crowd hn).activateMaturedRefiners 960
  have hmem {r : RefinerInfo} := mem_activated_crowd hn (r := r)
  generalize (crowd n).activateMaturedRefiners 960 = set at hsound hmem
  have hnewcomer {i : ℕ} (hi : i < n) : newcomer i ∈ set.eligible :=
    hsound.mem_eligible.mpr ⟨mem_values.mp (hmem.mpr (Or.inr ⟨i, hi, rfl⟩)), Or.inl rfl⟩
  constructor
  · -- the first newcomer has at most the other newcomers ahead of it
    refine ⟨newcomer 0, hnewcomer hpos, rfl, ?_⟩
    unfold ahead
    rw [List.countP_eq_length_filter]
    have hsub : set.eligible.filter (fun y => Outranks y (newcomer 0) ∧ y ≠ newcomer 0) ⊆
        (List.range (n - 1)).map fun i => newcomer (i + 1) := by
      intro r hr
      obtain ⟨hr, hcond⟩ := List.mem_filter.mp hr
      obtain ⟨houtranks, hne⟩ := of_decide_eq_true hcond
      rcases hmem.mp (set.eligible_subset hr) with rfl | ⟨i, hi, rfl⟩
      · exact absurd houtranks (by decide)
      · cases i with
        | zero => exact absurd rfl hne
        | succ i => exact List.mem_map.mpr ⟨i, List.mem_range.mpr (by omega), rfl⟩
    have hle := (List.subperm_of_subset (set.nodup_eligible.filter _) hsub).length_le
    rw [List.length_map, List.length_range] at hle
    omega
  · -- every newcomer has more stake than the early refiner
    refine ⟨startWaiting 960 early, ?_, ?_⟩
    · exact List.mem_filter.mpr ⟨hmem.mpr (Or.inl rfl), rfl⟩
    · unfold ahead
      rw [List.countP_eq_length_filter]
      have hnd : ((List.range n).map newcomer).Nodup := by
        refine List.Nodup.map_on ?_ List.nodup_range
        intro i hi j hj h
        rw [List.mem_range] at hi hj
        exact newcomer_inj (by omega) (by omega) h
      have hsub : (List.range n).map newcomer ⊆ set.eligible.filter fun y =>
          Outranks y (startWaiting 960 early) ∧ y ≠ startWaiting 960 early := by
        intro r hr
        obtain ⟨i, hi, rfl⟩ := List.mem_map.mp hr
        refine List.mem_filter.mpr ⟨hnewcomer (List.mem_range.mp hi), decide_eq_true ?_⟩
        refine ⟨Or.inl (by decide : 1000000 < 2000000), fun h => ?_⟩
        have hstatus : RefinerStatus.bonding = RefinerStatus.waiting :=
          congrArg RefinerInfo.status h
        cases hstatus
      have hle := (List.subperm_of_subset hnd hsub).length_le
      rwa [List.length_map, List.length_range] at hle

/-- Fewer newcomers than places crowd nobody out. -/
theorem not_crowded_crowd {n limit : ℕ} (hn : n < 65535) (hlimit : n + 1 < limit) :
    ¬((crowd n).activateMaturedRefiners 960).Crowded limit := by
  have hmem {r : RefinerInfo} := mem_activated_crowd hn (r := r)
  generalize (crowd n).activateMaturedRefiners 960 = set at hmem
  rintro ⟨-, r, -, hle⟩
  have hsub : set.eligible ⊆ startWaiting 960 early :: (List.range n).map newcomer := by
    intro r hr
    rcases hmem.mp (set.eligible_subset hr) with rfl | ⟨i, hi, rfl⟩
    · exact List.mem_cons_self
    · exact List.mem_cons_of_mem _ (List.mem_map.mpr ⟨i, List.mem_range.mpr hi, rfl⟩)
  have hlength := (List.subperm_of_subset set.nodup_eligible hsub).length_le
  rw [List.length_cons, List.length_map, List.length_range] at hlength
  have hahead : ahead Outranks set.eligible r ≤ set.eligible.length := List.countP_le_length
  omega

theorem activeRefinerLimit_zero : activeRefinerLimit 0 = 960 := by decide +kernel

/-! ## The active refiners -/

/-- After the activation and the rerank at the end of an epoch the active refiners are the
first of the matured ones, exactly when no bonding refiner takes the place of a matured
one in the ranking. -/
theorem topActive_iff {set : RefinerSet} (h : set.Sound) (height : BlockHeight)
    (totalIssued : FlakeAmount) :
    TopActive (set.activateMaturedRefiners height)
        ((set.activateMaturedRefiners height).rerankRefiners totalIssued)
        (activeRefinerLimit totalIssued) ↔
      ¬(set.activateMaturedRefiners height).Crowded (activeRefinerLimit totalIssued) :=
  (h.activateMaturedRefiners height).topActive_rerankRefiners_iff totalIssued

theorem topActive_crowd :
    TopActive ((crowd 1).activateMaturedRefiners 960)
      (((crowd 1).activateMaturedRefiners 960).rerankRefiners 0) (activeRefinerLimit 0) := by
  have hn : 1 < 65535 := by decide
  refine (topActive_iff (sound_crowd hn) 960 0).mpr ?_
  rw [activeRefinerLimit_zero]
  exact not_crowded_crowd hn (by decide)

/-- With as many newcomers as there are places, the one matured refiner does not become
active. -/
theorem not_topActive_crowd :
    (crowd 960).Sound ∧
      ¬TopActive ((crowd 960).activateMaturedRefiners 960)
        (((crowd 960).activateMaturedRefiners 960).rerankRefiners 0) (activeRefinerLimit 0) := by
  have hn : 960 < 65535 := by decide
  refine ⟨sound_crowd hn, fun htop => ?_⟩
  have hnot := (((sound_crowd hn).activateMaturedRefiners 960).topActive_rerankRefiners_iff 0).mp
    htop
  rw [activeRefinerLimit_zero] at hnot
  exact hnot (crowded_crowd (by decide) hn)

end RefinerSet

end Opolys
