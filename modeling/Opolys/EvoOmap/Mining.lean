import Opolys.Library.ParallelSearch
import Opolys.Consensus.Pow
import Opolys.EvoOmap.Hash

/-!
# Mining

A miner tries nonces one after the other on a copy of the dataset, which it empties before every
nonce. Several miners share the nonces between them. A verifier computes one hash on the nodes that
it asks for.

* `mine`, `MiningPool.step` : the search of one miner, and a step of one of several.
* `Miner.attempt_eq` : a miner computes the hash of the verifier, whatever it has tried before.
* `first_mine`, `mineParallel_ends` : what is found verifies, and what is not found is not there.
-/

namespace Opolys

namespace EvoOmap

open Codec (FixedBytes)
open Addressed
open ParallelSearch (Pool Phase)

variable (H : Hashes)

/-! ## The verifier -/

/-- Whether a hash has the zero bits. -/
def meets (hash : FixedBytes 32) (difficulty : UInt64) : Bool :=
  difficulty.toNat ≤ leadingZeroBits hash.bytes

/-- The hash that a verifier computes. -/
def lightHash (header : List UInt8) (height nonce epochLength : UInt64)
    (seedMaterial : List UInt8) : FixedBytes 32 :=
  let epochSeed := computeEpochSeed H height epochLength seedMaterial
  (evoOmapHashLight H (LightDataset.new epochSeed).reset header height nonce).1

/-- Verify on a whole dataset. -/
def verify (header : List UInt8) (height nonce difficulty epochLength : UInt64)
    (seedMaterial : List UInt8) : Bool :=
  if difficulty = 0 then false
  else
    let epochSeed := computeEpochSeed H height epochLength seedMaterial
    meets (evoOmapHash H (generateDataset H epochSeed) header height nonce).1 difficulty

/-- Verify on the nodes that are asked for. -/
def verifyLight (header : List UInt8) (height nonce difficulty epochLength : UInt64)
    (seedMaterial : List UInt8) : Bool :=
  if difficulty = 0 then false
  else meets (lightHash H header height nonce epochLength seedMaterial) difficulty

variable {H} in
theorem lightHash_eq (header : List UInt8) (height nonce epochLength : UInt64)
    (seedMaterial : List UInt8) : lightHash H header height nonce epochLength seedMaterial =
      (evoOmapHash H (generateDataset H (computeEpochSeed H height epochLength seedMaterial))
        header height nonce).1 :=
  evoOmapHashLight_eq (LightDataset.shows_new _) header height nonce

/-! ## A miner -/

/-- What a miner keeps from nonce to nonce. -/
structure Miner where
  cow : CowDataset
  buffers : HashBuffers

namespace Miner

def new (base : Dataset) : Miner := { cow := Overlay.new base, buffers := HashBuffers.new }

/-- Try a nonce. -/
def attempt (header : List UInt8) (height : UInt64) (miner : Miner) (nonce : UInt64) :
    FixedBytes 32 × Miner :=
  let powHash := evoOmapHashWithBuffers H miner.cow.reset header height nonce miner.buffers
  (powHash.1, { cow := powHash.2.1, buffers := powHash.2.2 })

/-- A copy that can be emptied again. -/
structure Restorable (base : Dataset) (cow : CowDataset) : Prop where
  base : cow.base = base
  noted : cow.Noted

variable {H} {base : Dataset} {miner : Miner}

theorem restorable_new (base : Dataset) : Restorable base (new base).cow :=
  ⟨rfl, Overlay.noted_new base⟩

theorem Restorable.set {cow : CowDataset} (h : Restorable base cow) (i : Fin numNodes)
    (node : Node) : Restorable base (Memory.set cow i node) :=
  ⟨h.base, h.noted.set i node⟩

theorem Restorable.reset {cow : CowDataset} (h : Restorable base cow) :
    Restorable base cow.reset :=
  ⟨h.base, h.noted.reset.1⟩

theorem Restorable.attempt (h : Restorable base miner.cow) (header : List UInt8)
    (height nonce : UInt64) : Restorable base (miner.attempt H header height nonce).2.cow := by
  have hset (cow : CowDataset) (i : Fin numNodes) (node : Node) (h : Restorable base cow) :
      Restorable base (Memory.set cow i node) := h.set i node
  have hrun := evoOmapHashWithBuffers_dataset (H := H) hset h.reset header height nonce
    miner.buffers
  unfold Miner.attempt
  dsimp only
  exact hrun

/-- Whatever a miner has tried before, it computes the hash of the verifier. -/
theorem attempt_eq {height epochLength : UInt64} {seedMaterial : List UInt8}
    (h : Restorable (generateDataset H (computeEpochSeed H height epochLength seedMaterial))
      miner.cow)
    (header : List UInt8) (nonce : UInt64) :
    (miner.attempt H header height nonce).1 =
      lightHash H header height nonce epochLength seedMaterial := by
  have hcontents := h.noted.reset.2
  rw [h.base] at hcontents
  rw [lightHash_eq]
  exact evoOmapHashWithBuffers_eq hcontents header height nonce miner.buffers

end Miner

variable {H} in
/-- After any nonces, a miner computes for the next one the hash that a verifier computes on the
nodes it asks for, which is the hash on the whole dataset. -/
theorem hashes_agree (header : List UInt8) (height epochLength : UInt64)
    (seedMaterial : List UInt8) (nonces : List UInt64) (nonce : UInt64) :
    let base := generateDataset H (computeEpochSeed H height epochLength seedMaterial)
    let miner := Transition.run
      (fun miner nonce => (Miner.attempt H header height miner nonce).2) (.new base) nonces
    (miner.attempt H header height nonce).1 =
        lightHash H header height nonce epochLength seedMaterial ∧
      lightHash H header height nonce epochLength seedMaterial =
        (evoOmapHash H base header height nonce).1 := by
  intro base miner
  have hstep (miner : Miner) (nonce : UInt64) (h : Miner.Restorable base miner.cow) :
      Miner.Restorable base (Miner.attempt H header height miner nonce).2.cow :=
    h.attempt header height nonce
  have hminer : Miner.Restorable base miner.cow :=
    Transition.run_invariant hstep nonces (Miner.restorable_new base)
  exact ⟨Miner.attempt_eq hminer header nonce, lightHash_eq header height nonce epochLength _⟩

/-! ## One miner -/

/-- What is searched: the inputs that all nonces have in common. -/
structure Search where
  header : List UInt8
  height : UInt64
  difficulty : UInt64
  maxNonceAttempts : UInt64
  epochLength : UInt64
  seedMaterial : List UInt8

namespace Search

def baseDataset (search : Search) : Dataset :=
  generateDataset H (computeEpochSeed H search.height search.epochLength search.seedMaterial)

/-- Whether a nonce solves a search. -/
def solves (search : Search) (nonce : UInt64) : Bool :=
  meets (lightHash H search.header search.height nonce search.epochLength search.seedMaterial)
    search.difficulty

/-- The nonces from one on, as many as are left, one after the other. -/
def mineFrom (search : Search) : ℕ → UInt64 → UInt64 → Miner → Option UInt64 × UInt64
  | 0, _, attempts, _ => (none, attempts)
  | left + 1, nonce, attempts, miner =>
    let attempt := miner.attempt H search.header search.height nonce
    if meets attempt.1 search.difficulty then (some nonce, attempts + 1)
    else mineFrom search left (nonce + 1) (attempts + 1) attempt.2

def mine (search : Search) : Option UInt64 × UInt64 :=
  if search.difficulty = 0 then (none, 0)
  else search.mineFrom H search.maxNonceAttempts.toNat 0 0 (.new (search.baseDataset H))

variable {H} {search : Search}

/-- A nonce is the first solution of a range, or there is none. -/
def First (H : Hashes) (search : Search) (lo hi : ℕ) : Option UInt64 → Prop
  | some found => lo ≤ found.toNat ∧ found.toNat < hi ∧ search.solves H found = true ∧
      ∀ other : UInt64, lo ≤ other.toNat → other.toNat < found.toNat →
        search.solves H other = false
  | none => ∀ other : UInt64, lo ≤ other.toNat → other.toNat < hi → search.solves H other = false

/-- A nonce that is no solution can be added in front. -/
theorem First.cons {nonce : UInt64} {hi : ℕ} {found : Option UInt64}
    (hnonce : search.solves H nonce = false) (h : search.First H (nonce.toNat + 1) hi found) :
    search.First H nonce.toNat hi found := by
  have hothers (other : UInt64) (hle : nonce.toNat ≤ other.toNat)
      (hrest : nonce.toNat + 1 ≤ other.toNat → search.solves H other = false) :
      search.solves H other = false := by
    by_cases heq : other.toNat = nonce.toNat
    · rw [UInt64.toNat_inj.mp heq]
      exact hnonce
    · exact hrest (by omega)
  cases found with
  | none => exact fun other hle hlt => hothers other hle fun hle => h other hle hlt
  | some found =>
    obtain ⟨hle, hlt, hsolves, hbefore⟩ := h
    exact ⟨by omega, hlt, hsolves,
      fun other hle hlt => hothers other hle fun hle => hbefore other hle hlt⟩

/-- A miner finds the first solution, or there is none. -/
theorem first_mineFrom {left : ℕ} {nonce attempts : UInt64} {miner : Miner}
    (h : Miner.Restorable (search.baseDataset H) miner.cow) (hroom : nonce.toNat + left < 2 ^ 64) :
    search.First H nonce.toNat (nonce.toNat + left)
      (search.mineFrom H left nonce attempts miner).1 := by
  induction left generalizing nonce attempts miner with
  | zero =>
    intro other hle hlt
    omega
  | succ left ih =>
    have hone : (1 : UInt64).toNat = 1 := rfl
    have hnext : (nonce + 1).toNat = nonce.toNat + 1 := by
      rw [MachineInt.toNat_add_of_lt (by omega), hone]
    have hsolves : meets (miner.attempt H search.header search.height nonce).1 search.difficulty =
        search.solves H nonce := by
      rw [Miner.attempt_eq h]
      rfl
    rw [mineFrom, hsolves]
    by_cases hsolved : search.solves H nonce = true
    · rw [if_pos hsolved]
      exact ⟨le_rfl, by omega, hsolved, fun other hle hlt => by omega⟩
    · rw [if_neg hsolved]
      have hrest := @ih (nonce + 1) (attempts + 1)
        (miner.attempt H search.header search.height nonce).2 (h.attempt _ _ _) (by omega)
      rw [hnext, Nat.add_assoc, Nat.add_comm 1] at hrest
      exact First.cons (Bool.eq_false_of_not_eq_true hsolved) hrest

/-- Mining finds the first solution below the limit, or there is none. -/
theorem first_mine (hdifficulty : search.difficulty ≠ 0) :
    search.First H 0 search.maxNonceAttempts.toNat (search.mine H).1 := by
  have hroom : (0 : UInt64).toNat + search.maxNonceAttempts.toNat < 2 ^ 64 := by
    rw [UInt64.toNat_zero, Nat.zero_add]
    exact search.maxNonceAttempts.toNat_lt
  have hmined := @first_mineFrom H search search.maxNonceAttempts.toNat 0 0 _
    (Miner.restorable_new _) hroom
  rw [UInt64.toNat_zero, Nat.zero_add] at hmined
  rw [mine, if_neg hdifficulty]
  exact hmined

end Search

/-! ## Several miners -/

/-- A thread with what it keeps from nonce to nonce. -/
structure Worker where
  phase : Phase
  miner : Miner

/-- What the threads share, and the threads. -/
structure MiningPool (threads : ℕ) where
  nonceCounter : UInt64
  foundFlag : Bool
  foundNonce : UInt64
  totalAttempts : UInt64
  workers : Fin threads → Worker

namespace MiningPool

variable {threads : ℕ}

def start (base : Dataset) : MiningPool threads :=
  { nonceCounter := 0, foundFlag := false, foundNonce := ParallelSearch.vacant, totalAttempts := 0
    workers := fun _ => { phase := .poll, miner := .new base } }

def moveTo (pool : MiningPool threads) (i : Fin threads) (phase : Phase) : MiningPool threads :=
  { pool with
    workers := Function.update pool.workers i { pool.workers i with phase } }

/-- What a thread does next. -/
def step (search : Search) (pool : MiningPool threads) (i : Fin threads) : MiningPool threads :=
  match (pool.workers i).phase with
  | .poll => pool.moveTo i (if pool.foundFlag then .done else .draw)
  | .draw =>
    let nonce := pool.nonceCounter
    { pool.moveTo i (if search.maxNonceAttempts ≤ nonce then .done else .count nonce) with
      nonceCounter := pool.nonceCounter + 1 }
  | .count nonce =>
    { pool.moveTo i (.attempt nonce) with totalAttempts := pool.totalAttempts + 1 }
  | .attempt nonce =>
    let attempt := (pool.workers i).miner.attempt H search.header search.height nonce
    { pool with
      workers := Function.update pool.workers i {
        phase := if meets attempt.1 search.difficulty then .raise nonce else .poll
        miner := attempt.2 } }
  | .raise nonce => { pool.moveTo i (.publish nonce) with foundFlag := true }
  | .publish nonce =>
    { pool.moveTo i .done with
      foundNonce := if pool.foundNonce = ParallelSearch.vacant then nonce else pool.foundNonce }
  | .done => pool

def result (pool : MiningPool threads) : Option UInt64 × UInt64 :=
  (if pool.foundFlag then some pool.foundNonce else none, pool.totalAttempts)

/-- What the threads look like to someone who does not see their datasets. -/
def toPool (pool : MiningPool threads) : Pool (Fin threads) :=
  { counter := pool.nonceCounter, foundFlag := pool.foundFlag, found := pool.foundNonce
    attempts := pool.totalAttempts, phases := fun i => (pool.workers i).phase }

/-- Every thread can get its dataset back. -/
def Sound (base : Dataset) (pool : MiningPool threads) : Prop :=
  ∀ i, Miner.Restorable base (pool.workers i).miner.cow

variable {H} {search : Search} {pool : MiningPool threads}

theorem toPool_moveTo (i : Fin threads) (phase : Phase) :
    (pool.moveTo i phase).toPool = pool.toPool.moveTo i phase := by
  have hphases : (fun j => ((pool.moveTo i phase).workers j).phase) =
      Function.update (fun j => (pool.workers j).phase) i phase := by
    funext j
    by_cases hj : j = i
    · subst hj
      simp [moveTo]
    · simp [moveTo, hj]
  simp only [toPool, Pool.moveTo, hphases]
  rfl

theorem Sound.moveTo {base : Dataset} (h : pool.Sound base) (i : Fin threads) (phase : Phase) :
    (pool.moveTo i phase).Sound base := by
  intro j
  by_cases hj : j = i
  · subst hj
    simpa [MiningPool.moveTo] using h j
  · simpa [MiningPool.moveTo, hj] using h j

/-- A step of a thread is a step of a search for the solutions. -/
theorem step_toPool (h : pool.Sound (search.baseDataset H)) (i : Fin threads) :
    (pool.step H search i).toPool =
        pool.toPool.step (search.solves H) search.maxNonceAttempts i ∧
      (pool.step H search i).Sound (search.baseDataset H) := by
  have hphase : pool.toPool.phases i = (pool.workers i).phase := rfl
  have hmoved (phase : Phase) : (pool.moveTo i phase).toPool = pool.toPool.moveTo i phase :=
    toPool_moveTo i phase
  unfold Pool.step step
  rw [hphase]
  cases (pool.workers i).phase with
  | poll =>
    dsimp only
    exact ⟨hmoved _, h.moveTo i _⟩
  | draw =>
    dsimp only
    refine ⟨?_, h.moveTo i _⟩
    rw [← hmoved]
    rfl
  | count nonce =>
    dsimp only
    refine ⟨?_, h.moveTo i _⟩
    rw [← hmoved]
    rfl
  | attempt nonce =>
    have hmeets : meets ((pool.workers i).miner.attempt H search.header search.height nonce).1
        search.difficulty = search.solves H nonce := by
      rw [Miner.attempt_eq (h i)]
      rfl
    dsimp only
    rw [hmeets]
    constructor
    · rw [← hmoved]
      unfold toPool MiningPool.moveTo
      dsimp only
      congr 1
      funext j
      by_cases hj : j = i
      · subst hj
        simp
      · simp [hj]
    · intro j
      by_cases hj : j = i
      · subst hj
        simpa using (h j).attempt search.header search.height nonce
      · simpa [hj] using h j
  | raise nonce =>
    dsimp only
    refine ⟨?_, h.moveTo i _⟩
    rw [← hmoved]
    rfl
  | publish nonce =>
    dsimp only
    refine ⟨?_, h.moveTo i _⟩
    rw [← hmoved]
    rfl
  | done => exact ⟨rfl, h⟩

/-- The threads are at the same point of a search as workers without datasets. -/
structure Refines (H : Hashes) (search : Search) (pool : MiningPool threads)
    (workers : Pool (Fin threads)) : Prop where
  sound : pool.Sound (search.baseDataset H)
  looks : pool.toPool = workers

theorem refines_start :
    Refines H search (start (search.baseDataset H)) (Pool.start : Pool (Fin threads)) :=
  ⟨fun _ => Miner.restorable_new _, rfl⟩

theorem Refines.step {workers : Pool (Fin threads)} (h : Refines H search pool workers)
    (i : Fin threads) : Refines H search (pool.step H search i)
      (workers.step (search.solves H) search.maxNonceAttempts i) := by
  obtain ⟨hsound, rfl⟩ := h
  obtain ⟨hstep, hsound⟩ := step_toPool hsound i
  exact ⟨hsound, hstep⟩

/-- A run of the threads is a run of a search for the solutions. -/
theorem refines_run (schedule : List (Fin threads)) : Refines H search
    (Transition.run (MiningPool.step H search) (start (search.baseDataset H)) schedule)
    (Transition.run (Pool.step (search.solves H) search.maxNonceAttempts) Pool.start schedule) :=
  Transition.simulation_run (R := Refines H search) (fun _ _ i h => h.step i) refines_start

end MiningPool

/-- Mine with threads that take their steps in the order of a schedule. There is no result as long
as a thread is not done. -/
def mineParallel {threads : ℕ} (search : Search) (schedule : List (Fin threads)) :
    Option (Option UInt64 × UInt64) :=
  if search.difficulty = 0 then some (none, 0)
  else
    let pool := Transition.run (MiningPool.step H search) (.start (search.baseDataset H)) schedule
    if ∀ i, (pool.workers i).phase = .done then some pool.result else none

/-- A thread that is not done. -/
def MiningPool.Busy {threads : ℕ} (pool : MiningPool threads) (i : Fin threads) : Prop :=
  (pool.workers i).phase ≠ .done

variable {H}

theorem verifyLight_eq_solves {search : Search} (hdifficulty : search.difficulty ≠ 0)
    (nonce : UInt64) :
    verifyLight H search.header search.height nonce search.difficulty search.epochLength
      search.seedMaterial = search.solves H nonce :=
  if_neg hdifficulty

/-- A verifier that computes nodes as it needs them agrees with one that has the whole dataset. -/
theorem verifyLight_eq_verify (header : List UInt8) (height nonce difficulty epochLength : UInt64)
    (seedMaterial : List UInt8) :
    verifyLight H header height nonce difficulty epochLength seedMaterial =
      verify H header height nonce difficulty epochLength seedMaterial := by
  unfold verifyLight verify
  rw [lightHash_eq]

/-- What the threads report is what they have come to when all of them are done. -/
theorem finished_of_mineParallel {threads : ℕ} {search : Search}
    (hdifficulty : search.difficulty ≠ 0) {schedule : List (Fin threads)} {found : Option UInt64}
    {attempts : UInt64}
    (h : mineParallel H search schedule = some (found, attempts)) :
    let pool := (Transition.run (MiningPool.step H search) (.start (search.baseDataset H))
      schedule).toPool
    pool.Finished ∧ pool.result.1 = found := by
  unfold mineParallel at h
  rw [if_neg hdifficulty] at h
  dsimp only at h
  split at h
  · rename_i hdone
    exact ⟨hdone, congrArg Prod.fst (Option.some.inj h)⟩
  · cases h

/-- The threads of a run take no more steps than the workers of the search do. -/
theorem length_le_of_busy {threads : ℕ} {search : Search} {schedule : List (Fin threads)}
    (hroom : search.maxNonceAttempts.toNat + Fintype.card (Fin threads) < 2 ^ 64)
    (hbusy : Transition.EveryStep (MiningPool.step H search) MiningPool.Busy
      (.start (search.baseDataset H)) schedule) :
    schedule.length ≤ 5 * search.maxNonceAttempts.toNat + 2 * threads := by
  have hstays (pool : MiningPool threads) (workers : Pool (Fin threads)) (i : Fin threads)
      (h : MiningPool.Refines H search pool workers) (hi : pool.Busy i) : workers.Busy i := by
    rw [← h.looks]
    exact hi
  have hworkers : Transition.EveryStep
      (Pool.step (search.solves H) search.maxNonceAttempts) Pool.Busy Pool.start schedule :=
    Transition.simulation_everyStep (R := MiningPool.Refines H search) (fun _ _ i h => h.step i)
      hstays MiningPool.refines_start hbusy
  have hlength := Pool.run_length_le hroom hworkers
  rw [Fintype.card_fin] at hlength
  exact hlength

/-- In whatever order the threads take their steps, a nonce that they report at the end is below the
limit and verifies, and where they report none there is none. They come to an end. -/
theorem mineParallel_ends {threads : ℕ} [NeZero threads] (search : Search)
    (hdifficulty : search.difficulty ≠ 0)
    (hroom : search.maxNonceAttempts.toNat + threads < 2 ^ 64) (schedule : List (Fin threads)) :
    (∀ nonce attempts, mineParallel H search schedule = some (some nonce, attempts) →
      nonce < search.maxNonceAttempts ∧
        verifyLight H search.header search.height nonce search.difficulty search.epochLength
          search.seedMaterial = true) ∧
    (∀ attempts, mineParallel H search schedule = some (none, attempts) →
      ∀ nonce < search.maxNonceAttempts,
        verifyLight H search.header search.height nonce search.difficulty search.epochLength
          search.seedMaterial = false) ∧
    (Transition.EveryStep (MiningPool.step H search) MiningPool.Busy
        (.start (search.baseDataset H)) schedule →
      schedule.length ≤ 5 * search.maxNonceAttempts.toNat + 2 * threads) := by
  have hcard : search.maxNonceAttempts.toNat + Fintype.card (Fin threads) < 2 ^ 64 := by
    rw [Fintype.card_fin]
    exact hroom
  have hsound : (Transition.run (Pool.step (search.solves H) search.maxNonceAttempts) Pool.start
      schedule).Sound (search.solves H) search.maxNonceAttempts := Pool.sound_run hcard schedule
  have hrefines : MiningPool.Refines H search
      (Transition.run (MiningPool.step H search) (.start (search.baseDataset H)) schedule)
      (Transition.run (Pool.step (search.solves H) search.maxNonceAttempts) Pool.start schedule) :=
    MiningPool.refines_run schedule
  have hlooks := hrefines.looks
  rw [← hlooks] at hsound
  refine ⟨?_, ?_, ?_⟩
  · intro nonce attempts h
    obtain ⟨hfinished, hresult⟩ := finished_of_mineParallel hdifficulty h
    rw [verifyLight_eq_solves hdifficulty]
    exact hsound.result_sound hfinished hresult
  · intro attempts h nonce hlimit
    obtain ⟨hfinished, hresult⟩ := finished_of_mineParallel hdifficulty h
    rw [verifyLight_eq_solves hdifficulty]
    exact hsound.result_complete hfinished hresult hlimit
  · exact length_le_of_busy hcard

end EvoOmap

end Opolys
