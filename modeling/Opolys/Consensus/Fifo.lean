import Opolys.Consensus.Lifecycle

/-!
# Withdrawals in order

A withdrawal walks over the entries with an index, and its loop tests only that there are entries
at all: the index stays inside them because no more is withdrawn than there is. `fifoLoop` is that
loop, with no result where the index leaves the entries. It does what `consumeEntries` does by
recursion: some entries in front go, at most one more is reduced, and the rest stays as it was.
-/

namespace Opolys

open MachineInt (saturatingSub)

namespace RefinerInfo

/-- The loop of a withdrawal, with a number of rounds. -/
def fifoLoop : ℕ → List BondEntry → FlakeAmount → ℕ →
    Option (List BondEntry × FlakeAmount × ℕ)
  | 0, _, _, _ => none
  | rounds + 1, entries, remaining, consumed =>
    if remaining > 0 ∧ ¬entries.isEmpty then
      match entries[consumed]? with
      | none => none
      | some e =>
        if e.stake ≤ remaining then fifoLoop rounds entries (remaining - e.stake) (consumed + 1)
        else
          fifoLoop rounds (entries.set consumed { e with stake := e.stake - remaining }) 0 consumed
    else some (entries, remaining, consumed)

/-- `unbondFifo` as a loop, where the entries before the index are drained. -/
def unbondFifoWithin (rounds : ℕ) (r : RefinerInfo) (amount : FlakeAmount) :
    Option (RefinerInfo × FlakeAmount) :=
  match fifoLoop rounds r.entries amount 0 with
  | some (entries, remaining, consumed) =>
    if consumed ≤ entries.length then
      some ({ r with entries := entries.drop consumed }, saturatingSub amount remaining)
    else none
  | none => none

/-- At most the first entry has a smaller stake. -/
def Reduced (entries entries' : List BondEntry) : Prop :=
  entries' = entries ∨ ∃ e es stake, entries = e :: es ∧ 0 < stake ∧ stake < e.stake ∧
    entries' = { e with stake } :: es

/-! ## The recursion -/

/-- What there is can be consumed. -/
theorem exists_consumeEntries {entries : List BondEntry} {remaining : FlakeAmount}
    (h : remaining.toNat ≤ entriesStake entries) :
    ∃ entries', consumeEntries entries remaining = some entries' := by
  induction entries generalizing remaining with
  | nil =>
    have hzero : remaining = 0 := UInt64.toNat_inj.mp (Nat.le_zero.mp h)
    exact ⟨[], by simp [consumeEntries, hzero]⟩
  | cons e es ih =>
    unfold consumeEntries
    by_cases hzero : remaining = 0
    · exact ⟨e :: es, if_pos hzero⟩
    by_cases hle : e.stake ≤ remaining
    · have hrest : (remaining - e.stake).toNat ≤ entriesStake es := by
        rw [MachineInt.toNat_sub_of_le (UInt64.le_iff_toNat_le.mp hle)]
        rw [entriesStake_cons] at h
        omega
      obtain ⟨entries', hentries⟩ := ih hrest
      exact ⟨entries', by rw [if_neg hzero, if_pos hle, hentries]⟩
    · exact ⟨_, by rw [if_neg hzero, if_neg hle]⟩

/-- A front goes, and the rest is reduced. -/
theorem consumeEntries_reduced {entries entries' : List BondEntry} {remaining : FlakeAmount}
    (h : consumeEntries entries remaining = some entries') :
    ∃ removed rest, entries = removed ++ rest ∧ Reduced rest entries' := by
  induction entries generalizing remaining with
  | nil =>
    unfold consumeEntries at h
    split at h
    · cases h
      exact ⟨[], [], rfl, Or.inl rfl⟩
    · cases h
  | cons e es ih =>
    unfold consumeEntries at h
    by_cases hzero : remaining = 0
    · rw [if_pos hzero] at h
      cases h
      exact ⟨[], e :: es, rfl, Or.inl rfl⟩
    rw [if_neg hzero] at h
    by_cases hle : e.stake ≤ remaining
    · rw [if_pos hle] at h
      obtain ⟨removed, rest, rfl, hrest⟩ := ih h
      exact ⟨e :: removed, rest, rfl, hrest⟩
    · rw [if_neg hle] at h
      cases h
      have hlt : remaining.toNat < e.stake.toNat := UInt64.lt_iff_toNat_lt.mp (UInt64.not_le.mp hle)
      have hpos : remaining.toNat ≠ 0 := fun h0 => hzero (UInt64.toNat_inj.mp h0)
      refine ⟨[], e :: es, rfl, Or.inr ⟨e, es, e.stake - remaining, rfl, ?_, ?_, rfl⟩⟩
      · rw [UInt64.lt_iff_toNat_lt, MachineInt.toNat_sub_of_le hlt.le, UInt64.toNat_zero]
        omega
      · rw [UInt64.lt_iff_toNat_lt, MachineInt.toNat_sub_of_le hlt.le]
        omega

/-- The sum that the node computes falls by what is consumed, also where it wraps. -/
theorem consumeEntries_sum {entries entries' : List BondEntry} {remaining : FlakeAmount}
    (h : consumeEntries entries remaining = some entries') :
    (entries'.map BondEntry.stake).sum + remaining = (entries.map BondEntry.stake).sum := by
  induction entries generalizing remaining with
  | nil =>
    unfold consumeEntries at h
    split at h
    · rename_i hzero
      cases h
      simp [hzero]
    · cases h
  | cons e es ih =>
    unfold consumeEntries at h
    by_cases hzero : remaining = 0
    · rw [if_pos hzero] at h
      cases h
      simp [hzero]
    rw [if_neg hzero] at h
    by_cases hle : e.stake ≤ remaining
    · rw [if_pos hle] at h
      have hrest := ih h
      rw [List.map_cons, List.sum_cons]
      grind
    · rw [if_neg hle] at h
      cases h
      rw [List.map_cons, List.sum_cons, List.map_cons, List.sum_cons]
      grind

/-! ## The loop -/

/-- With everything before the index consumed, the loop consumes the rest. -/
theorem fifoLoop_eq {es es' : List BondEntry} {remaining : FlakeAmount}
    (h : consumeEntries es remaining = some es') (removed : List BondEntry) :
    ∃ entries consumed, consumed ≤ entries.length ∧ entries.drop consumed = es' ∧
      fifoLoop (es.length + 2) (removed ++ es) remaining removed.length =
        some (entries, 0, consumed) := by
  induction es generalizing remaining removed with
  | nil =>
    unfold consumeEntries at h
    split at h
    · rename_i hzero
      cases h
      refine ⟨removed ++ [], removed.length, by simp, by simp, ?_⟩
      unfold fifoLoop
      rw [hzero, if_neg (by simp)]
    · cases h
  | cons e es ih =>
    have hhead : (removed ++ e :: es)[removed.length]? = some e := by simp
    have hsome : ¬(removed ++ e :: es).isEmpty := by simp
    unfold consumeEntries at h
    by_cases hzero : remaining = 0
    · rw [if_pos hzero] at h
      cases h
      refine ⟨removed ++ e :: es, removed.length, by simp, by simp, ?_⟩
      unfold fifoLoop
      rw [hzero, if_neg (by simp)]
    rw [if_neg hzero] at h
    have hpos : remaining > 0 := UInt64.pos_iff_ne_zero.mpr hzero
    rw [List.length_cons, Nat.add_right_comm]
    unfold fifoLoop
    rw [if_pos ⟨hpos, hsome⟩]
    simp only [hhead]
    by_cases hle : e.stake ≤ remaining
    · rw [if_pos hle] at h ⊢
      have hrest := ih h (removed ++ [e])
      rwa [List.append_assoc, List.singleton_append, List.length_append,
        List.length_singleton] at hrest
    · -- the reduced entry stays at the index, and the next test ends the loop
      rw [if_neg hle] at h ⊢
      cases h
      refine ⟨removed ++ { e with stake := e.stake - remaining } :: es, removed.length, by simp,
        by simp, ?_⟩
      unfold fifoLoop
      rw [if_neg (by simp)]
      simp

/-- For an amount that the stake covers, the withdrawal by index ends, takes out exactly the
amount, and is the withdrawal by recursion. -/
theorem unbondFifoWithin_eq {r : RefinerInfo} {amount : FlakeAmount} {es' : List BondEntry}
    (h : consumeEntries r.entries amount = some es') :
    unbondFifoWithin (r.entries.length + 2) r amount =
      some ({ r with entries := es' }, amount) := by
  obtain ⟨entries, consumed, hlength, rfl, hloop⟩ := fifoLoop_eq h []
  rw [List.nil_append, List.length_nil] at hloop
  unfold unbondFifoWithin
  simp only [hloop]
  rw [if_pos hlength]
  have hall : saturatingSub amount 0 = amount := by
    apply UInt64.toNat_inj.mp
    rw [MachineInt.toNat_saturatingSub, UInt64.toNat_zero, Nat.sub_zero]
  rw [hall]

/-- A withdrawal of at most the stake ends, without an index outside of the entries, takes out
exactly the amount from the front, and leaves the rest of the entries in order, at most the first of
them with a smaller stake. -/
theorem unbondFifo_meets_reference (r : RefinerInfo) (amount : FlakeAmount)
    (hentries : ∀ e ∈ r.entries, 0 < e.stake) (hpos : 0 < amount)
    (hle : amount ≤ r.totalStake) :
    ∃ rounds r' removed rest, unbondFifoWithin rounds r amount = some (r', amount) ∧
      r.unbondFifo amount = some (r', amount) ∧
      r' = { r with entries := r'.entries } ∧
      r.entries = removed ++ rest ∧ Reduced rest r'.entries ∧
      r'.totalStake = r.totalStake - amount ∧ r'.stake + amount.toNat = r.stake ∧
      ∀ e ∈ r'.entries, 0 < e.stake := by
  have hcovered : amount.toNat ≤ entriesStake r.entries :=
    (UInt64.le_iff_toNat_le.mp hle).trans (MachineInt.toNat_sum_le BondEntry.stake r.entries)
  obtain ⟨es', hes⟩ := exists_consumeEntries hcovered
  obtain ⟨removed, rest, hsplit, hreduced⟩ := consumeEntries_reduced hes
  have hsome : ¬r.entries.isEmpty := by
    intro hempty
    rw [List.isEmpty_iff] at hempty
    rw [hempty] at hcovered
    have hzero : amount.toNat = 0 := Nat.le_zero.mp hcovered
    rw [UInt64.lt_iff_toNat_lt, hzero] at hpos
    exact absurd hpos (lt_irrefl _)
  refine ⟨r.entries.length + 2, { r with entries := es' }, removed, rest,
    unbondFifoWithin_eq hes, ?_, rfl, hsplit, hreduced, ?_, consumeEntries_stake hes,
    consumeEntries_pos hes hentries⟩
  · unfold unbondFifo
    rw [if_neg hsome, hes]
  · have hsum := consumeEntries_sum hes
    unfold totalStake
    rw [← hsum]
    grind

/-- A refiner with two bonds. -/
def twoBonds : RefinerInfo where
  objectId := ⟨Hash.zero⟩
  entries := [⟨5, 1, 10⟩, ⟨7, 2, 20⟩]
  status := .active
  lastSignedHeight := 0
  consecutiveCorrectAttestations := 0

/-- The first bond goes and the second is reduced. -/
theorem unbondFifo_meets_reference_two :
    ∃ rounds r' removed rest, unbondFifoWithin rounds twoBonds 8 = some (r', 8) ∧
      twoBonds.unbondFifo 8 = some (r', 8) ∧
      r' = { twoBonds with entries := r'.entries } ∧
      twoBonds.entries = removed ++ rest ∧ Reduced rest r'.entries ∧
      r'.totalStake = twoBonds.totalStake - 8 ∧
      r'.stake + (8 : FlakeAmount).toNat = twoBonds.stake ∧
      ∀ e ∈ r'.entries, 0 < e.stake :=
  unbondFifo_meets_reference twoBonds 8 (by decide) (by decide) (by decide)

end RefinerInfo

end Opolys
