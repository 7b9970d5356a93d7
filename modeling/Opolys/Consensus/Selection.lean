import Opolys.Consensus.Ranking
import Opolys.Consensus.RefinerAlike
import Opolys.Consensus.Standing
import Opolys.Library.Lottery

/-!
# The selection of a producer

The producer of a refined block is drawn by stake. A seed below the unbiased zone makes its ticket
by a remainder, and the ticket draws an active refiner in the order of the ids. So the draw is a
lottery, and every refiner is drawn by as many seeds below the zone as its stake is worth.

* `selectBlockProducer_proportional` : how many seeds draw a refiner.
-/

namespace Opolys.RefinerSet

open MachineInt (saturatingAdd)

/-- The stake of all active refiners. -/
def activeStake (set : RefinerSet) : ℕ := Lottery.total RefinerInfo.stake set.activeRefiners

/-- The length of the seeds that make every ticket equally often. -/
def unbiasedZone (tickets : ℕ) : ℕ := 2 ^ 64 - 2 ^ 64 % tickets

/-- The number of seeds below the unbiased zone that draw one of a kind of refiners. -/
def winningSeeds (set : RefinerSet) (p : RefinerInfo → Prop) [DecidablePred p] : ℕ :=
  Nat.count (fun seed => ∃ r ∈ set.selectBlockProducer (UInt64.ofNat seed), p r)
    (unbiasedZone set.activeStake)

theorem unbiasedZone_eq (tickets : ℕ) :
    unbiasedZone tickets = tickets * (unbiasedZone tickets / tickets) :=
  (Nat.mul_div_cancel' (Nat.dvd_sub_mod _)).symm

theorem unbiasedZone_le (tickets : ℕ) : unbiasedZone tickets ≤ 2 ^ 64 := Nat.sub_le _ _

/-! ## A draw -/

theorem uniformAmountFromSeed_eq {seed upper : UInt64} (hupper : 0 < upper.toNat)
    (h : seed.toNat < unbiasedZone upper.toNat) :
    uniformAmountFromSeed seed upper = some (UInt64.ofNat (seed.toNat % upper.toNat)) := by
  have hne : upper ≠ 0 := fun hzero => by
    rw [hzero] at hupper
    exact absurd hupper (by decide)
  unfold uniformAmountFromSeed
  dsimp only
  have hfuel : (2 : ℕ) ^ 64 = (2 ^ 64 - 1) + 1 := rfl
  rw [if_neg hne, hfuel, drawTicket]
  exact if_pos h

/-- Where nothing saturates, the scan over the refiners is a draw. -/
theorem pickByTicket_eq {ticket cumulative : UInt64} (rs : List RefinerInfo)
    (hcumulative : cumulative.toNat ≤ ticket.toNat)
    (hlt : cumulative.toNat + Lottery.total RefinerInfo.stake rs < 2 ^ 64) :
    pickByTicket ticket rs cumulative =
      Lottery.draw RefinerInfo.stake rs (ticket.toNat - cumulative.toNat) := by
  induction rs generalizing cumulative with
  | nil => rfl
  | cons r rs ih =>
    rw [Lottery.total_cons] at hlt
    have hstake : r.totalStake.toNat = r.stake := RefinerInfo.toNat_totalStake (by omega)
    have hsum : (saturatingAdd cumulative r.totalStake).toNat = cumulative.toNat + r.stake := by
      rw [MachineInt.toNat_saturatingAdd_of_lt (by omega), hstake]
    unfold pickByTicket Lottery.draw
    dsimp only
    by_cases hpicked : ticket.toNat < cumulative.toNat + r.stake
    · rw [if_pos (UInt64.lt_iff_toNat_lt.mpr (by omega)), if_pos (by omega)]
    · rw [if_neg fun h => hpicked (by rw [UInt64.lt_iff_toNat_lt] at h; omega),
        if_neg (by omega), ih (by omega) (by omega), hsum, Nat.sub_sub]

theorem foldl_totalStake {total : UInt64} (rs : List RefinerInfo)
    (h : total.toNat + Lottery.total RefinerInfo.stake rs < 2 ^ 64) :
    (rs.foldl (fun acc r => saturatingAdd acc r.totalStake) total).toNat =
      total.toNat + Lottery.total RefinerInfo.stake rs := by
  induction rs generalizing total with
  | nil => rfl
  | cons r rs ih =>
    rw [Lottery.total_cons] at h
    have hstake : r.totalStake.toNat = r.stake := RefinerInfo.toNat_totalStake (by omega)
    have hsum : (saturatingAdd total r.totalStake).toNat = total.toNat + r.stake := by
      rw [MachineInt.toNat_saturatingAdd_of_lt (by omega), hstake]
    rw [List.foldl_cons, ih (by omega), hsum, Lottery.total_cons, Nat.add_assoc]

/-- The refiners among whom the producer is drawn, in order. -/
def entrants (set : RefinerSet) : List RefinerInfo :=
  (set.activeRefiners.filter fun r => r.totalStake > 0).insertionSort
    fun a b => (compare a.objectId b.objectId).isLE

theorem stake_le_activeStake {set : RefinerSet} {r : RefinerInfo} (h : r ∈ set.activeRefiners) :
    r.stake ≤ set.activeStake :=
  Lottery.weight_le_total h

/-- A kind of entrants has the stake of the active refiners of the kind. -/
theorem total_entrants {set : RefinerSet} (hlt : set.activeStake < 2 ^ 64)
    (p : RefinerInfo → Prop) [DecidablePred p] :
    Lottery.total RefinerInfo.stake (set.entrants.filter fun r => p r) =
      Lottery.total RefinerInfo.stake (set.activeRefiners.filter fun r => p r) := by
  have hpositive : set.activeRefiners.filter (fun r => r.totalStake > 0) =
      set.activeRefiners.filter fun r => 0 < r.stake := by
    refine List.filter_congr fun r hr => ?_
    have hstake := RefinerInfo.toNat_totalStake ((stake_le_activeStake hr).trans_lt hlt)
    refine decide_eq_decide.mpr ?_
    rw [gt_iff_lt, UInt64.lt_iff_toNat_lt, hstake]
    exact Iff.rfl
  have hperm := (List.perm_insertionSort (fun a b => (compare a.objectId b.objectId).isLE)
    (set.activeRefiners.filter fun r => r.totalStake > 0)).filter fun r => p r
  unfold entrants
  rw [Lottery.total_perm hperm, hpositive, List.filter_comm, Lottery.total_filter_pos]

theorem total_entrants_all {set : RefinerSet} (hlt : set.activeStake < 2 ^ 64) :
    Lottery.total RefinerInfo.stake set.entrants = set.activeStake := by
  have hall := total_entrants hlt fun _ => True
  simpa [activeStake] using hall

/-- A seed below the unbiased zone draws by its remainder. -/
theorem selectBlockProducer_eq_draw {set : RefinerSet} (hpos : 0 < set.activeStake)
    (hlt : set.activeStake < 2 ^ 64) {seed : ℕ} (hseed : seed < unbiasedZone set.activeStake) :
    set.selectBlockProducer (UInt64.ofNat seed) =
      Lottery.draw RefinerInfo.stake set.entrants (seed % set.activeStake) := by
  have htotal := total_entrants_all hlt
  have hzero : (0 : UInt64).toNat = 0 := rfl
  have hfits : (0 : UInt64).toNat + Lottery.total RefinerInfo.stake set.entrants < 2 ^ 64 := by
    rw [hzero, htotal]
    omega
  have hsum := foldl_totalStake set.entrants hfits
  rw [hzero, Nat.zero_add, htotal] at hsum
  have hword : (UInt64.ofNat seed).toNat = seed :=
    MachineInt.toNat_ofNat_of_lt (hseed.trans_le (unbiasedZone_le _))
  have hticket : (UInt64.ofNat (seed % set.activeStake)).toNat = seed % set.activeStake :=
    MachineInt.toNat_ofNat_of_lt ((Nat.mod_lt _ hpos).trans hlt)
  have hdraw : uniformAmountFromSeed (UInt64.ofNat seed)
      (set.entrants.foldl (fun acc r => saturatingAdd acc r.totalStake) 0) =
        some (UInt64.ofNat (seed % set.activeStake)) := by
    rw [uniformAmountFromSeed_eq (by rw [hsum]; exact hpos) (by rw [hsum, hword]; exact hseed),
      hsum, hword]
  have hstart : (0 : UInt64).toNat ≤ (UInt64.ofNat (seed % set.activeStake)).toNat :=
    Nat.zero_le _
  have hpick := pickByTicket_eq set.entrants hstart hfits
  rw [hticket, hzero, Nat.sub_zero] at hpick
  rw [← hpick]
  unfold entrants at hdraw
  unfold selectBlockProducer
  dsimp only
  rw [hdraw]
  rfl

/-- A kind of refiners wins as many seeds as its stake is worth. -/
theorem winningSeeds_eq {set : RefinerSet} (hpos : 0 < set.activeStake)
    (hlt : set.activeStake < 2 ^ 64) (p : RefinerInfo → Prop) [DecidablePred p] :
    set.winningSeeds p = Lottery.total RefinerInfo.stake (set.activeRefiners.filter fun r => p r) *
      (unbiasedZone set.activeStake / set.activeStake) := by
  have htickets : Nat.count
      (fun ticket => ∃ r ∈ Lottery.draw RefinerInfo.stake set.entrants ticket, p r)
      set.activeStake =
        Lottery.total RefinerInfo.stake (set.activeRefiners.filter fun r => p r) := by
    rw [← total_entrants_all hlt, ← total_entrants hlt]
    exact Lottery.count_draw p set.entrants
  have hseeds := Lottery.count_mod
    (fun ticket => ∃ r ∈ Lottery.draw RefinerInfo.stake set.entrants ticket, p r)
    set.activeStake (unbiasedZone set.activeStake / set.activeStake)
  rw [← unbiasedZone_eq, htickets] at hseeds
  rw [Nat.mul_comm, ← hseeds]
  refine Lottery.count_congr fun seed hseed => ?_
  rw [selectBlockProducer_eq_draw hpos hlt hseed]

/-! ## Groups -/

theorem nodup_activeRefiners {set : RefinerSet} (h : set.WellFormed) :
    set.activeRefiners.Nodup := by
  have hids : (set.activeRefiners.map RefinerInfo.objectId).Sublist set.activeSet := by
    unfold activeRefiners
    induction set.activeSet with
    | nil => exact List.Sublist.refl _
    | cons id ids ih =>
      rw [List.filterMap_cons]
      split
      · exact ih.cons _
      · rename_i r hget
        rw [List.map_cons, Registry.name_of_get? (v := r) hget]
        exact ih.cons_cons _
  exact List.Nodup.of_map _ (h.active_nodup.sublist hids)

theorem mem_activeRefiners {set : RefinerSet} (h : set.WellFormed) {id : ObjectId}
    {r : RefinerInfo} (hget : set.getRefiner id = some r) (hactive : r.status = .active) :
    r ∈ set.activeRefiners :=
  List.mem_filterMap.mpr ⟨id, (h.mem_activeSet id).mpr ⟨r, hget, hactive⟩, hget⟩

/-- A group among the active refiners wins by its stake. -/
theorem winningSeeds_group {set : RefinerSet} (hset : set.WellFormed) (hpos : 0 < set.activeStake)
    (hlt : set.activeStake < 2 ^ 64) {group rest : List RefinerInfo}
    (hactive : set.activeRefiners.Perm (group ++ rest)) :
    set.winningSeeds (· ∈ group) = Lottery.total RefinerInfo.stake group *
      (unbiasedZone set.activeStake / set.activeStake) := by
  have hnodup : (group ++ rest).Nodup := hactive.nodup_iff.mp (nodup_activeRefiners hset)
  have hrest : rest.filter (fun r => r ∈ group) = [] := by
    refine List.filter_eq_nil_iff.mpr fun r hr hmem => ?_
    exact (List.disjoint_of_nodup_append hnodup) (of_decide_eq_true hmem) hr
  have hgroup : group.filter (fun r => r ∈ group) = group :=
    List.filter_eq_self.mpr fun r hr => decide_eq_true hr
  rw [winningSeeds_eq hpos hlt, Lottery.total_perm (hactive.filter _), List.filter_append, hrest,
    hgroup, List.append_nil]

/-- Every seed below the unbiased zone draws an active refiner, and every active refiner is drawn
by as many of them as its stake is worth. The order in which refiners have become active is of
no account, and neither is it whether a stake is in one hand or in several. -/
theorem selectBlockProducer_proportional {set : RefinerSet} (hset : set.WellFormed)
    (hpos : 0 < set.activeStake) (hlt : set.activeStake < 2 ^ 64) :
    (∀ seed < unbiasedZone set.activeStake, ∃ r, set.getRefiner r.objectId = some r ∧
      r.status = .active ∧ set.selectBlockProducer (UInt64.ofNat seed) = some r) ∧
    (∀ id r, set.getRefiner id = some r → r.status = .active →
      set.winningSeeds (· = r) = r.stake * (unbiasedZone set.activeStake / set.activeStake)) ∧
    (∀ set', Alike set set' → ∀ seed,
      set'.selectBlockProducer seed = set.selectBlockProducer seed) ∧
    ∀ (set' : RefinerSet) (r : RefinerInfo) (group rest : List RefinerInfo), set'.WellFormed →
      set.activeRefiners.Perm (r :: rest) → set'.activeRefiners.Perm (group ++ rest) →
      Lottery.total RefinerInfo.stake group = r.stake →
      set'.winningSeeds (· ∈ group) = set.winningSeeds (· = r) := by
  have hone {r : RefinerInfo} {rest : List RefinerInfo}
      (hactive : set.activeRefiners.Perm (r :: rest)) : set.winningSeeds (· = r) =
        r.stake * (unbiasedZone set.activeStake / set.activeStake) := by
    have hgroup : set.winningSeeds (· ∈ [r]) = Lottery.total RefinerInfo.stake [r] *
        (unbiasedZone set.activeStake / set.activeStake) :=
      winningSeeds_group hset hpos hlt hactive
    rw [Lottery.total_cons, Lottery.total_nil, Nat.add_zero] at hgroup
    rw [← hgroup]
    unfold winningSeeds
    exact Lottery.count_congr fun seed _ => by simp
  refine ⟨fun seed hseed => ?_, fun id r hget hactive => ?_, fun set' halike seed => ?_,
    fun set' r group rest hset' hactive hactive' hstake => ?_⟩
  · have hticket : seed % set.activeStake < Lottery.total RefinerInfo.stake set.entrants := by
      rw [total_entrants_all hlt]
      exact Nat.mod_lt _ hpos
    obtain ⟨r, -, hdraw⟩ := Lottery.exists_draw hticket
    rw [← selectBlockProducer_eq_draw hpos hlt hseed] at hdraw
    obtain ⟨hget, hactive⟩ := selectBlockProducer_active hset hdraw
    exact ⟨r, hget, hactive, hdraw⟩
  · exact hone (List.perm_cons_erase (mem_activeRefiners hset hget hactive))
  · exact halike.selectBlockProducer_eq seed
  · have hsame : set'.activeStake = set.activeStake := by
      unfold activeStake
      rw [Lottery.total_perm hactive, Lottery.total_perm hactive', Lottery.total_append,
        Lottery.total_cons, hstake]
    rw [hone hactive, winningSeeds_group hset' (hsame ▸ hpos) (hsame ▸ hlt) hactive', hstake, hsame]

/-- Two refiners, the second one with twice the stake of the first. -/
def duo : RefinerSet :=
  Transition.run perform new [.bond (crowdId 0) 1000000 0 0 0, .bond (crowdId 1) 2000000 1 1 0,
    .activateMaturedRefiners 961, .rerankRefiners 0]

/-- The first one wins a third of the seeds. -/
theorem duo_proportional : ∃ r, duo.getRefiner (crowdId 0) = some r ∧
    duo.winningSeeds (· = r) = 1000000 * (unbiasedZone 3000000 / 3000000) := by
  have hstake : duo.activeStake = 3000000 := by decide +kernel
  have hpos : 0 < duo.activeStake := by rw [hstake]; decide
  have hlt : duo.activeStake < 2 ^ 64 := by rw [hstake]; decide
  have hfirst : (duo.getRefiner (crowdId 0)).any
      (fun r => r.status = .active ∧ r.stake = 1000000) = true := by decide +kernel
  obtain ⟨r, hget, hr⟩ := (Option.any_eq_true _ _).mp hfirst
  obtain ⟨hactive, hworth⟩ := of_decide_eq_true hr
  have hset : duo.WellFormed := wellFormed_run wellFormed_new _
  have hwins := (selectBlockProducer_proportional hset hpos hlt).2.1 (crowdId 0) r hget hactive
  rw [hworth, hstake] at hwins
  exact ⟨r, hget, hwins⟩

end Opolys.RefinerSet
