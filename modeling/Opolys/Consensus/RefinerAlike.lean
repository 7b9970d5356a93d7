import Opolys.Consensus.Custody

/-!
# The order of the active set

A refiner set that is written out and read back has the ids of its active refiners in
another order. Nothing the node computes from the set depends on that order: sums do not,
and the producer is drawn from a sorted list. Here that is said once for every operation.
-/

namespace Opolys.RefinerSet

open Effect (Both)

/-- Two sets that differ at most in the order of their active sets. -/
def Alike (a b : RefinerSet) : Prop :=
  ∃ active, active.Perm a.activeSet ∧ b = { a with activeSet := active }

namespace Alike

variable {a b : RefinerSet}

theorem refl (a : RefinerSet) : Alike a a := ⟨a.activeSet, List.Perm.refl _, rfl⟩

/-! ## Reading -/

theorem getRefiner_eq (h : Alike a b) (id : ObjectId) : b.getRefiner id = a.getRefiner id := by
  obtain ⟨active, -, rfl⟩ := h
  rfl

theorem allRefiners_eq (h : Alike a b) : b.allRefiners = a.allRefiners := by
  obtain ⟨active, -, rfl⟩ := h
  rfl

theorem maturedUnbonds_eq (h : Alike a b) (height : BlockHeight) :
    b.maturedUnbonds height = a.maturedUnbonds height := by
  obtain ⟨active, -, rfl⟩ := h
  rfl

theorem computeStateRoot_eq (h : Alike a b) (P : Primitives) :
    b.computeStateRoot P = a.computeStateRoot P := by
  obtain ⟨active, -, rfl⟩ := h
  rfl

theorem activeRefiners_perm (h : Alike a b) : b.activeRefiners.Perm a.activeRefiners := by
  obtain ⟨active, hperm, rfl⟩ := h
  exact hperm.filterMap _

theorem totalActiveRefiners_eq (h : Alike a b) : b.totalActiveRefiners = a.totalActiveRefiners := by
  obtain ⟨active, hperm, rfl⟩ := h
  exact hperm.length_eq

theorem totalBondedStake_eq (h : Alike a b) : b.totalBondedStake = a.totalBondedStake := by
  have hsum := MachineInt.sum_eq_of_perm (h.activeRefiners_perm.map RefinerInfo.totalStake)
  unfold totalBondedStake
  rw [hsum]
  obtain ⟨active, -, rfl⟩ := h
  rfl

theorem getRefiner_of_mem_activeRefiners {set : RefinerSet} {r : RefinerInfo}
    (h : r ∈ set.activeRefiners) : set.getRefiner r.objectId = some r := by
  obtain ⟨id, -, hget⟩ := List.mem_filterMap.mp h
  rw [Registry.name_of_get? (v := r) hget]
  exact hget

/-- The draw starts from a sorted list, and an id names one record. -/
theorem selectBlockProducer_eq (h : Alike a b) (seed : UInt64) :
    b.selectBlockProducer seed = a.selectBlockProducer seed := by
  let le (r s : RefinerInfo) : Prop := (compare r.objectId s.objectId).isLE = true
  have htotal : Std.Total le := ⟨fun r s => by
    by_cases hle : le r s
    · exact Or.inl hle
    · exact Or.inr (by simp [le, Std.OrientedCmp.lt_of_not_isLE hle])⟩
  have htrans : IsTrans RefinerInfo le := ⟨fun r s t hrs hst => Std.TransOrd.isLE_trans hrs hst⟩
  have hperm := h.activeRefiners_perm.filter fun r => r.totalStake > 0
  have hsorted : (b.activeRefiners.filter fun r => r.totalStake > 0).insertionSort le =
      (a.activeRefiners.filter fun r => r.totalStake > 0).insertionSort le := by
    refine List.Perm.eq_of_pairwise ?_ (List.pairwise_insertionSort le _)
      (List.pairwise_insertionSort le _) ?_
    · intro r s hr hs hrs hsr
      have hid : r.objectId = s.objectId :=
        Std.LawfulEqOrd.compare_eq_iff_eq.mp (Std.OrientedCmp.isLE_antisymm hrs hsr)
      have hr := getRefiner_of_mem_activeRefiners
        (List.mem_of_mem_filter ((List.mem_insertionSort le).mp hr))
      have hs := getRefiner_of_mem_activeRefiners
        (List.mem_of_mem_filter ((List.mem_insertionSort le).mp hs))
      rw [h.getRefiner_eq, hid, hs] at hr
      exact (Option.some.inj hr).symm
    · exact (List.perm_insertionSort le _).trans (hperm.trans (List.perm_insertionSort le _).symm)
  unfold selectBlockProducer
  simp only [le] at hsorted
  rw [hsorted]

/-! ## Writing -/

/-- Replacing the records and the queue alike keeps two sets alike. -/
theorem withRecords (h : Alike a b) (cachedRefiners : Registry RefinerInfo.objectId)
    (unbondingQueue : List PendingUnbond) :
    Alike { a with cachedRefiners, unbondingQueue } { b with cachedRefiners, unbondingQueue } := by
  obtain ⟨active, hperm, rfl⟩ := h
  exact ⟨active, hperm, rfl⟩

theorem foldl {ι : Type*} {f : RefinerSet → ι → RefinerSet}
    (hf : ∀ {a b : RefinerSet} x, Alike a b → Alike (f a x) (f b x)) {xs : List ι}
    (h : Alike a b) : Alike (xs.foldl f a) (xs.foldl f b) := by
  induction xs generalizing a b with
  | nil => exact h
  | cons x xs ih => exact ih (hf x h)

theorem bond (h : Alike a b) (id : ObjectId) (stake : FlakeAmount) (height timestamp : UInt64)
    (totalIssued : FlakeAmount) :
    Both Alike (a.bond id stake height timestamp totalIssued)
      (b.bond id stake height timestamp totalIssued) := by
  unfold RefinerSet.bond
  dsimp only
  refine Both.check_bind fun _ => ?_
  rw [h.getRefiner_eq]
  obtain ⟨active, hperm, rfl⟩ := h
  have halike : Alike a { a with activeSet := active } := ⟨active, hperm, rfl⟩
  cases a.getRefiner id with
  | none => exact Both.ok (halike.withRecords _ _)
  | some refiner =>
    refine Both.check_bind fun _ => Both.bind (Both.refl _) ?_
    rintro refiner' _ rfl
    exact Both.ok (halike.withRecords _ _)

theorem unbondAmount (h : Alike a b) (id : ObjectId) (amount : FlakeAmount)
    (height : BlockHeight) :
    Both (fun p q => Alike p.1 q.1 ∧ p.2 = q.2) (a.unbondAmount id amount height)
      (b.unbondAmount id amount height) := by
  unfold RefinerSet.unbondAmount
  dsimp only
  rw [h.getRefiner_eq]
  obtain ⟨active, hperm, rfl⟩ := h
  cases a.getRefiner id with
  | none => exact Both.error _
  | some refiner =>
    refine Both.check_bind fun _ => Both.check_bind fun _ => Both.check_bind fun _ => ?_
    cases refiner.unbondFifo amount with
    | none => exact Both.error _
    | some out =>
      obtain ⟨refiner', unbonded⟩ := out
      dsimp only
      split
      · exact Both.ok ⟨⟨_, hperm.filter _, rfl⟩, rfl⟩
      · exact Both.ok ⟨⟨active, hperm, rfl⟩, rfl⟩

theorem removeIfGone (h : Alike a b) (account : ObjectId) :
    Alike (a.removeIfGone account) (b.removeIfGone account) := by
  unfold RefinerSet.removeIfGone
  dsimp only
  rw [h.getRefiner_eq]
  obtain ⟨active, hperm, rfl⟩ := h
  have halike : Alike a { a with activeSet := active } := ⟨active, hperm, rfl⟩
  cases a.getRefiner account with
  | none => exact halike
  | some refiner =>
    dsimp only
    split
    · exact ⟨_, hperm.filter _, rfl⟩
    · exact halike

theorem processMaturedUnbonds (h : Alike a b) (height : BlockHeight) :
    Alike (a.processMaturedUnbonds height).1 (b.processMaturedUnbonds height).1 ∧
      (b.processMaturedUnbonds height).2 = (a.processMaturedUnbonds height).2 := by
  refine ⟨?_, h.maturedUnbonds_eq height⟩
  unfold RefinerSet.processMaturedUnbonds
  dsimp only
  rw [h.maturedUnbonds_eq]
  refine foldl (fun entry h => h.removeIfGone entry.1) ?_
  obtain ⟨active, hperm, rfl⟩ := h
  exact ⟨active, hperm, rfl⟩

theorem activateMaturedRefiners (h : Alike a b) (height : BlockHeight) :
    Alike (a.activateMaturedRefiners height) (b.activateMaturedRefiners height) := by
  have hvalues : b.cachedRefiners = a.cachedRefiners := by
    obtain ⟨active, -, rfl⟩ := h
    rfl
  unfold RefinerSet.activateMaturedRefiners
  rw [hvalues]
  refine foldl (fun id h => ?_) h
  obtain ⟨active, hperm, rfl⟩ := h
  exact ⟨active, hperm, rfl⟩

theorem rankRefiner (h : Alike a b) (activeLimit : ℕ) (candidate : (ObjectId × UInt64) × ℕ) :
    Alike (RefinerSet.rankRefiner activeLimit a candidate)
      (RefinerSet.rankRefiner activeLimit b candidate) := by
  unfold RefinerSet.rankRefiner
  dsimp only
  rw [h.getRefiner_eq]
  obtain ⟨active, hperm, rfl⟩ := h
  have halike : Alike a { a with activeSet := active } := ⟨active, hperm, rfl⟩
  cases a.getRefiner candidate.1.1 with
  | none => exact halike
  | some r =>
    dsimp only
    split
    · split
      · exact ⟨_, hperm.append_right _, rfl⟩
      · exact halike
    · split
      · exact ⟨_, hperm.filter _, rfl⟩
      · exact halike

theorem rerankRefiners (h : Alike a b) (totalIssued : FlakeAmount) :
    Alike (a.rerankRefiners totalIssued) (b.rerankRefiners totalIssued) := by
  have hvalues : b.cachedRefiners = a.cachedRefiners := by
    obtain ⟨active, -, rfl⟩ := h
    rfl
  unfold RefinerSet.rerankRefiners
  rw [hvalues]
  exact foldl (fun candidate h => h.rankRefiner _ candidate) h

theorem slash (h : Alike a b) (id : ObjectId) :
    Alike (a.afterSlash id) (b.afterSlash id) ∧ b.slashAmount id = a.slashAmount id := by
  have hamount : b.slashAmount id = a.slashAmount id := by
    obtain ⟨active, -, rfl⟩ := h
    rfl
  refine ⟨?_, hamount⟩
  unfold afterSlash
  dsimp only
  rw [h.getRefiner_eq]
  obtain ⟨active, hperm, rfl⟩ := h
  cases a.getRefiner id with
  | none => exact ⟨active, hperm, rfl⟩
  | some r =>
    dsimp only
    split
    · exact ⟨active, hperm, rfl⟩
    · exact ⟨_, hperm.filter _, rfl⟩

theorem recordCorrectAttestation (h : Alike a b) (id : ObjectId) :
    Both Alike (a.recordCorrectAttestation id) (b.recordCorrectAttestation id) := by
  unfold RefinerSet.recordCorrectAttestation
  rw [h.getRefiner_eq]
  obtain ⟨active, hperm, rfl⟩ := h
  cases a.getRefiner id with
  | none => exact Both.error _
  | some refiner => exact Both.check_bind fun _ => Both.ok ⟨active, hperm, rfl⟩

end Alike

end Opolys.RefinerSet
