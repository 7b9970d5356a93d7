import Opolys.Consensus.Refiner

/-!
# What refiners have in custody

The value a refiner set holds is the stake of its bond entries and the withdrawals in its
queue, counted in `ℕ`. Bonding adds the bonded stake to it and withdrawing keeps it. A
matured withdrawal and a slashing take out what they report. Everything else a set does
moves no value.
-/

namespace Opolys

open Effect (Ends check_eq_ok check_bind_eq_ok bind_eq_ok)
open MachineInt (saturatingAdd)

/-! ## Entries -/

/-- The exact stake of a list of bond entries. -/
def entriesStake (entries : List BondEntry) : ℕ := (entries.map fun e => e.stake.toNat).sum

@[simp] theorem entriesStake_nil : entriesStake [] = 0 := rfl

@[simp] theorem entriesStake_cons (e : BondEntry) (es : List BondEntry) :
    entriesStake (e :: es) = e.stake.toNat + entriesStake es := rfl

namespace RefinerInfo

/-- The exact stake of a refiner. -/
def stake (r : RefinerInfo) : ℕ := entriesStake r.entries

/-- The stake the node computes is the exact stake, as long as it fits. -/
theorem toNat_totalStake {r : RefinerInfo} (h : r.stake < 2 ^ 64) :
    r.totalStake.toNat = r.stake :=
  MachineInt.toNat_sum_of_lt BondEntry.stake r.entries h

theorem mergeStake_stake {stake : FlakeAmount} {timestamp : UInt64}
    {entries entries' : List BondEntry}
    (hany : (entries.any fun e => e.bondedAtTimestamp = timestamp) = true)
    (h : mergeStake stake timestamp entries = .ok entries') :
    entriesStake entries' = entriesStake entries + stake.toNat := by
  induction entries generalizing entries' with
  | nil => cases hany
  | cons e es ih =>
    unfold mergeStake at h
    split at h
    · split at h
      · rename_i sum hsum
        cases h
        have := MachineInt.checkedAdd_eq_some.mp hsum
        simp only [entriesStake_cons]
        omega
      · cases h
    · rename_i hne
      split at h
      · rename_i es' hes
        cases h
        rw [List.any_cons, decide_eq_false hne, Bool.false_or] at hany
        have := ih hany hes
        simp only [entriesStake_cons]
        omega
      · cases h

theorem insertEntry_stake (entry : BondEntry) (entries : List BondEntry) :
    entriesStake (insertEntry entry entries) = entriesStake entries + entry.stake.toNat := by
  induction entries with
  | nil => simp [insertEntry]
  | cons e es ih =>
    unfold insertEntry
    split
    · simp only [entriesStake_cons]
      omega
    · simp only [entriesStake_cons, ih]
      omega

/-- A top-up adds its stake and touches nothing but the entries. -/
theorem addEntry_eq_ok {r r' : RefinerInfo} {stake : FlakeAmount} {height timestamp : UInt64}
    (h : r.addEntry stake height timestamp = .ok r') :
    r'.stake = r.stake + stake.toNat ∧ r' = { r with entries := r'.entries } := by
  unfold addEntry at h
  split at h
  · rename_i hany
    split at h
    · rename_i entries hmerge
      cases h
      exact ⟨mergeStake_stake hany hmerge, rfl⟩
    · cases h
  · cases h
    exact ⟨insertEntry_stake _ _, rfl⟩

theorem consumeEntries_stake {entries entries' : List BondEntry} {remaining : FlakeAmount}
    (h : consumeEntries entries remaining = some entries') :
    entriesStake entries' + remaining.toNat = entriesStake entries := by
  induction entries generalizing remaining with
  | nil =>
    unfold consumeEntries at h
    split at h
    · rename_i h0
      cases h
      rw [h0]
      rfl
    · cases h
  | cons e es ih =>
    unfold consumeEntries at h
    split at h
    · rename_i h0
      cases h
      rw [h0]
      rfl
    · split at h
      · rename_i hle
        have hle := UInt64.le_iff_toNat_le.mp hle
        have := ih h
        rw [MachineInt.toNat_sub_of_le hle] at this
        rw [entriesStake_cons]
        omega
      · rename_i hnle
        have hlt := not_le.mp (mt UInt64.le_iff_toNat_le.mpr hnle)
        cases h
        simp only [entriesStake_cons, MachineInt.toNat_sub_of_le hlt.le]
        omega

/-- A withdrawal from a refiner with entries takes out what was asked for and touches
nothing but the entries. -/
theorem unbondFifo_eq_some {r r' : RefinerInfo} {amount unbonded : FlakeAmount}
    (hentries : r.entries ≠ []) (h : r.unbondFifo amount = some (r', unbonded)) :
    unbonded = amount ∧ r'.stake + amount.toNat = r.stake ∧
      r' = { r with entries := r'.entries } := by
  unfold unbondFifo at h
  rw [if_neg (by rwa [List.isEmpty_iff])] at h
  split at h
  · rename_i entries hcons
    cases h
    exact ⟨rfl, consumeEntries_stake hcons, rfl⟩
  · cases h

end RefinerInfo

/-! ## The set -/

/-- The exact sum of withdrawals. -/
def queuedAmount (queue : List PendingUnbond) : ℕ := (queue.map fun u => u.amount.toNat).sum

theorem queuedAmount_append (q q' : List PendingUnbond) :
    queuedAmount (q ++ q') = queuedAmount q + queuedAmount q' := by
  simp [queuedAmount]

/-- A queue is worth its two halves. -/
theorem queuedAmount_filter (p : PendingUnbond → Bool) (queue : List PendingUnbond) :
    queuedAmount (queue.filter p) + queuedAmount (queue.filter fun u => !p u) =
      queuedAmount queue := by
  induction queue with
  | nil => rfl
  | cons u us ih =>
    unfold queuedAmount at ih ⊢
    cases hp : p u <;> simp [hp] <;> omega

namespace RefinerSet

/-- The exact stake of all refiners. -/
def stakes (set : RefinerSet) : ℕ := Registry.total RefinerInfo.stake set.cachedRefiners

/-- Everything the set holds: stakes and withdrawals. -/
def custody (set : RefinerSet) : ℕ := set.stakes + queuedAmount set.unbondingQueue

theorem stake_le_stakes {set : RefinerSet} {id : ObjectId} {r : RefinerInfo}
    (h : set.getRefiner id = some r) : r.stake ≤ set.stakes := Registry.le_total _ h

/-! ### Bonding and withdrawing -/

/-- A bond that is accepted writes the record of its refiner. -/
theorem bond_eq_ok {set set' : RefinerSet} {id : ObjectId} {stake : FlakeAmount}
    {height timestamp : UInt64} {totalIssued : FlakeAmount}
    (h : set.bond id stake height timestamp totalIssued = .ok set') :
    ∃ r, r.objectId = id ∧ set' = { set with cachedRefiners := set.cachedRefiners.put r } ∧
      (∀ r', set.getRefiner id = some r' → r.stake = r'.stake + stake.toNat ∧
        (r.status = .active ↔ r'.status = .active)) ∧
      (set.getRefiner id = none → r.stake = stake.toNat ∧ r.status ≠ .active) := by
  unfold bond at h
  rw [check_bind_eq_ok] at h
  obtain ⟨-, h⟩ := h
  split at h
  · rename_i r hr
    rw [check_bind_eq_ok, bind_eq_ok] at h
    obtain ⟨-, r', hadd, h⟩ := h
    obtain ⟨hstake, hr'⟩ := RefinerInfo.addEntry_eq_ok hadd
    have hid : r'.objectId = id := by
      rw [hr']
      exact Registry.name_of_get? (v := r) hr
    have hstatus : r'.status = r.status := by rw [hr']
    cases h
    let status := if r'.status = .unbonding then .bonding else r'.status
    refine ⟨{ r' with status }, hid, rfl, ?_, ?_⟩
    · intro r'' hr''
      obtain rfl : r = r'' := Option.some.inj (hr.symm.trans hr'')
      refine ⟨hstake, ?_⟩
      change (if r'.status = .unbonding then .bonding else r'.status) = _ ↔ _
      rw [hstatus]
      split
      · rename_i hun
        simp [hun]
      · rfl
    · intro hnone
      rw [hr] at hnone
      cases hnone
  · rename_i hnone
    cases h
    refine ⟨_, rfl, rfl, ?_, fun _ => ⟨?_, ?_⟩⟩
    · intro r' hr'
      rw [hnone] at hr'
      cases hr'
    · simp [RefinerInfo.stake, RefinerInfo.new]
    · simp [RefinerInfo.new]

theorem custody_bond {set set' : RefinerSet} {id : ObjectId} {stake : FlakeAmount}
    {height timestamp : UInt64} {totalIssued : FlakeAmount}
    (h : set.bond id stake height timestamp totalIssued = .ok set') :
    set'.custody = set.custody + stake.toNat := by
  obtain ⟨r, hid, rfl, hsome, hnone⟩ := bond_eq_ok h
  unfold custody stakes
  cases hr : set.getRefiner id with
  | some r' =>
    have hput := Registry.total_put RefinerInfo.stake (w := r) (v := r')
      (r := set.cachedRefiners) (by rw [hid]; exact hr)
    rw [(hsome r' hr).1] at hput
    dsimp only
    omega
  | none =>
    have hput := Registry.total_put_new RefinerInfo.stake (v := r)
      (r := set.cachedRefiners) (by rw [hid]; exact hr)
    rw [(hnone hr).1] at hput
    dsimp only
    omega

/-- A withdrawal that is accepted writes the record of its refiner and one entry of the
queue. A refiner without entries leaves the active set. -/
theorem unbondAmount_eq_ok {set set' : RefinerSet} {id : ObjectId} {amount unbonded : FlakeAmount}
    {height : BlockHeight} (h : set.unbondAmount id amount height = .ok (set', unbonded)) :
    unbonded = amount ∧ ∃ r r', set.getRefiner id = some r ∧ r'.objectId = id ∧
      r'.stake + amount.toNat = r.stake ∧
      set'.cachedRefiners = set.cachedRefiners.put r' ∧
      set'.unbondingQueue = set.unbondingQueue ++
        [{ account := id, amount, maturesAt := saturatingAdd height epoch }] ∧
      ((r'.status = r.status ∧ set'.activeSet = set.activeSet) ∨
        (r'.status = .unbonding ∧ set'.activeSet = set.activeSet.filter fun a => a ≠ id)) := by
  unfold unbondAmount at h
  split at h
  · cases h
  · rename_i r hr
    rw [check_bind_eq_ok, check_bind_eq_ok, check_bind_eq_ok] at h
    obtain ⟨hhas, -, -, h⟩ := h
    have hentries : r.entries ≠ [] := by
      intro hnil
      refine hhas ?_
      rw [RefinerInfo.totalStake, hnil]
      rfl
    split at h
    · cases h
    · rename_i r' unbonded' hfifo
      obtain ⟨rfl, hstake, hr'⟩ := RefinerInfo.unbondFifo_eq_some hentries hfifo
      have hid : r'.objectId = id := by
        rw [hr']
        exact Registry.name_of_get? (v := r) hr
      have hstatus : r'.status = r.status := by rw [hr']
      dsimp only at h
      split at h
      · cases h
        exact ⟨rfl, r, { r' with status := .unbonding }, hr, hid, hstake, rfl, rfl,
          Or.inr ⟨rfl, rfl⟩⟩
      · cases h
        exact ⟨rfl, r, r', hr, hid, hstake, rfl, rfl, Or.inl ⟨hstatus, rfl⟩⟩

theorem custody_unbondAmount {set set' : RefinerSet} {id : ObjectId}
    {amount unbonded : FlakeAmount} {height : BlockHeight}
    (h : set.unbondAmount id amount height = .ok (set', unbonded)) :
    set'.custody = set.custody := by
  obtain ⟨-, r, r', hr, hid, hstake, hrec, hqueue, -⟩ := unbondAmount_eq_ok h
  have hput := Registry.total_put RefinerInfo.stake (w := r') (v := r)
    (r := set.cachedRefiners) (by rw [hid]; exact hr)
  unfold custody stakes
  rw [hrec, hqueue, queuedAmount_append]
  simp only [queuedAmount, List.map_cons, List.map_nil, List.sum_cons, List.sum_nil] at hput ⊢
  omega

/-! ### Maturing -/

/-- Removing a refiner that is gone takes no stake with it. -/
theorem stakes_removeIfGone {set : RefinerSet} {id : ObjectId} (h : set.stakes < 2 ^ 64) :
    (set.removeIfGone id).stakes = set.stakes := by
  unfold removeIfGone
  dsimp only
  split
  · rfl
  · rename_i r hr
    split
    · rename_i hgone
      have hstake : r.stake = 0 := by
        rw [← RefinerInfo.toNat_totalStake ((stake_le_stakes hr).trans_lt h), hgone.2.1]
        rfl
      have herase := Registry.total_erase RefinerInfo.stake (r := set.cachedRefiners) hr
      rw [hstake, Nat.zero_add] at herase
      exact herase
    · rfl

theorem unbondingQueue_removeIfGone (set : RefinerSet) (id : ObjectId) :
    (set.removeIfGone id).unbondingQueue = set.unbondingQueue := by
  unfold removeIfGone
  dsimp only
  split
  · rfl
  · split <;> rfl

theorem custody_foldl_removeIfGone {set : RefinerSet} (gone : List (ObjectId × FlakeAmount))
    (h : set.custody < 2 ^ 64) :
    (gone.foldl (fun set entry => set.removeIfGone entry.1) set).custody = set.custody := by
  induction gone generalizing set with
  | nil => rfl
  | cons entry gone ih =>
    have hone : (set.removeIfGone entry.1).custody = set.custody := by
      unfold custody at h ⊢
      rw [stakes_removeIfGone (by omega), unbondingQueue_removeIfGone]
    rw [List.foldl_cons, ih (by rwa [hone]), hone]

/-- What matures leaves the queue, and nothing else leaves. -/
theorem custody_processMaturedUnbonds (set : RefinerSet) (height : BlockHeight)
    (h : set.custody < 2 ^ 64) :
    (set.processMaturedUnbonds height).1.custody +
      ((set.processMaturedUnbonds height).2.map fun entry => entry.2.toNat).sum =
        set.custody := by
  have hsplit := queuedAmount_filter (fun u => decide (u.maturesAt ≤ height)) set.unbondingQueue
  unfold processMaturedUnbonds maturedUnbonds
  dsimp only
  rw [custody_foldl_removeIfGone]
  · rw [List.map_map]
    unfold custody stakes at h ⊢
    unfold queuedAmount at hsplit ⊢
    simp only [Function.comp_def, decide_not] at hsplit ⊢
    omega
  · unfold custody stakes at h ⊢
    simp only [decide_not]
    omega

/-! ### Standing -/

theorem custody_foldl_eq {ι : Type*} {f : RefinerSet → ι → RefinerSet} {xs : List ι}
    (hf : ∀ set x, (f set x).custody = set.custody) (set : RefinerSet) :
    (xs.foldl f set).custody = set.custody := by
  induction xs generalizing set with
  | nil => rfl
  | cons x xs ih => rw [List.foldl_cons, ih, hf]

theorem custody_activateMaturedRefiners (set : RefinerSet) (height : BlockHeight) :
    (set.activateMaturedRefiners height).custody = set.custody := by
  unfold activateMaturedRefiners
  refine custody_foldl_eq (fun set id => ?_) set
  have hstakes : Registry.total RefinerInfo.stake
      (set.cachedRefiners.update id (startWaiting height)) = set.stakes :=
    Registry.total_update_of_eq (g := startWaiting height) _ (fun _ => rfl) (fun _ => rfl) _ _
  exact congrArg (· + queuedAmount set.unbondingQueue) hstakes

theorem stakes_put_of_stake_eq {set : RefinerSet} {r r' : RefinerInfo} {id : ObjectId}
    (h : set.getRefiner id = some r) (hid : r'.objectId = r.objectId)
    (hstake : r'.stake = r.stake) :
    Registry.total RefinerInfo.stake (set.cachedRefiners.put r') = set.stakes := by
  refine Registry.total_put_of_eq _ ?_ hstake
  rw [hid, Registry.name_of_get? (v := r) h]
  exact h

theorem custody_rankRefiner (activeLimit : ℕ) (set : RefinerSet)
    (candidate : (ObjectId × UInt64) × ℕ) :
    (rankRefiner activeLimit set candidate).custody = set.custody := by
  unfold rankRefiner
  dsimp only
  split
  · rfl
  · rename_i r hr
    have hstakes (status : RefinerStatus) : Registry.total RefinerInfo.stake
        (set.cachedRefiners.put { r with status }) = set.stakes :=
      stakes_put_of_stake_eq hr rfl rfl
    split
    · split
      · exact congrArg (· + queuedAmount set.unbondingQueue) (hstakes .active)
      · rfl
    · split
      · exact congrArg (· + queuedAmount set.unbondingQueue) (hstakes .waiting)
      · rfl

theorem custody_rerankRefiners (set : RefinerSet) (totalIssued : FlakeAmount) :
    (set.rerankRefiners totalIssued).custody = set.custody :=
  custody_foldl_eq (custody_rankRefiner _) set

theorem custody_recordCorrectAttestation {set set' : RefinerSet} {id : ObjectId}
    (h : set.recordCorrectAttestation id = .ok set') : set'.custody = set.custody := by
  unfold recordCorrectAttestation at h
  split at h
  · cases h
  · rename_i r hr
    rw [check_bind_eq_ok] at h
    cases h.2
    exact congrArg (· + queuedAmount set.unbondingQueue) (stakes_put_of_stake_eq hr rfl rfl)

/-! ### Slashing -/

/-- The withdrawals of an account that are still in the queue, as the node adds them up. -/
def pendingBurn (set : RefinerSet) (id : ObjectId) : FlakeAmount :=
  (set.unbondingQueue.filter fun entry => entry.account = id).foldl
    (fun burn entry => saturatingAdd burn entry.amount) 0

/-- What slashing a refiner burns. -/
def slashAmount (set : RefinerSet) (id : ObjectId) : FlakeAmount :=
  match set.getRefiner id with
  | none => set.pendingBurn id
  | some r =>
    if r.status = .slashed then set.pendingBurn id
    else saturatingAdd r.totalStake (set.pendingBurn id)

/-- The set after a refiner has been slashed. -/
def afterSlash (set : RefinerSet) (id : ObjectId) : RefinerSet :=
  let unbondingQueue := set.unbondingQueue.filter fun entry => entry.account ≠ id
  match set.getRefiner id with
  | none => { set with unbondingQueue }
  | some r =>
    if r.status = .slashed then { set with unbondingQueue }
    else
      { cachedRefiners := set.cachedRefiners.put { r with
          status := .slashed
          entries := r.entries.map fun e => { e with stake := 0 } }
        activeSet := set.activeSet.filter fun a => a ≠ id
        unbondingQueue }

/-- Slashing leaves the same set whether it returns or fails, and it fails only where there
is nothing to burn. -/
theorem slashRefiner_ends (id : ObjectId) (set : RefinerSet) :
    Ends (slashRefiner id) set
      (fun burned set' => burned = set.slashAmount id ∧ set' = set.afterSlash id)
      (fun _ set' => set.slashAmount id = 0 ∧ set' = set.afterSlash id) := by
  unfold slashRefiner
  refine Ends.get_bind (Ends.modify_bind (Ends.get_bind ?_))
  unfold slashAmount afterSlash
  change Ends (match set.getRefiner id with
    | none => _
    | some r => _) _ _ _
  split
  · rename_i hnone
    change Ends (if set.pendingBurn id > 0 then _ else _) _ _ _
    split
    · exact Ends.pure ⟨rfl, rfl⟩
    · rename_i hzero
      refine Ends.throw ⟨?_, rfl⟩
      rw [gt_iff_lt, UInt64.lt_iff_toNat_lt, UInt64.toNat_zero] at hzero
      rw [← UInt64.toNat_inj, UInt64.toNat_zero]
      omega
  · rename_i r hr
    split
    · exact Ends.pure ⟨rfl, rfl⟩
    · exact Ends.modify_bind (Ends.pure ⟨rfl, rfl⟩)

/-- Slashing takes out what it burns. -/
theorem custody_afterSlash (set : RefinerSet) (id : ObjectId) (h : set.custody < 2 ^ 64) :
    (set.afterSlash id).custody + (set.slashAmount id).toNat = set.custody := by
  have hsplit := queuedAmount_filter (fun u => decide (u.account = id)) set.unbondingQueue
  have hpending : (set.pendingBurn id).toNat =
      queuedAmount (set.unbondingQueue.filter fun u => u.account = id) := by
    unfold pendingBurn
    rw [MachineInt.toNat_foldl_saturatingAdd_of_lt PendingUnbond.amount]
    · exact Nat.zero_add _
    · unfold custody queuedAmount at h
      unfold queuedAmount at hsplit
      simp only [UInt64.toNat_zero] at hsplit ⊢
      omega
  simp only [← decide_not, ← ne_eq] at hsplit
  unfold afterSlash slashAmount
  dsimp only
  unfold custody stakes at h ⊢
  split
  · dsimp only
    omega
  · rename_i r hr
    split
    · dsimp only
      omega
    · have hle := stake_le_stakes hr
      have hput := Registry.total_put RefinerInfo.stake (v := r) (r := set.cachedRefiners)
        (w := { r with
          status := .slashed, entries := r.entries.map fun e => { e with stake := 0 } })
        (by rw [show _ = r.objectId from rfl, Registry.name_of_get? (v := r) hr]; exact hr)
      have hzero : RefinerInfo.stake { r with
          status := .slashed, entries := r.entries.map fun e => { e with stake := 0 } } = 0 := by
        simp [RefinerInfo.stake, entriesStake, Function.comp_def]
      rw [hzero] at hput
      unfold stakes at hle
      have hstake := RefinerInfo.toNat_totalStake (r := r) (by omega)
      rw [MachineInt.toNat_saturatingAdd_of_lt (by omega)]
      dsimp only at hput ⊢
      omega

/-- What a set holds of one account. -/
def holding (set : RefinerSet) (id : ObjectId) : Option RefinerInfo × List PendingUnbond :=
  (set.getRefiner id, set.unbondingQueue.filter fun entry => entry.account = id)

/-- Slashing one refiner leaves the holdings of the others. -/
theorem holding_afterSlash {set : RefinerSet} {id k : ObjectId} (hne : id ≠ k) :
    (set.afterSlash id).holding k = set.holding k := by
  have hqueue : (set.unbondingQueue.filter fun entry => entry.account ≠ id).filter
        (fun entry => entry.account = k) =
      set.unbondingQueue.filter fun entry => entry.account = k := by
    rw [List.filter_filter]
    refine List.filter_congr fun entry _ => ?_
    by_cases hk : entry.account = k
    · simp [hk, Ne.symm hne]
    · simp [hk]
  unfold holding afterSlash
  dsimp only
  split
  · exact congrArg _ hqueue
  · rename_i r hr
    split
    · exact congrArg _ hqueue
    · refine Prod.ext (Registry.get?_put_of_ne _ ?_) hqueue
      rw [show _ = r.objectId from rfl, Registry.name_of_get? (v := r) hr]
      exact hne

end RefinerSet

end Opolys
