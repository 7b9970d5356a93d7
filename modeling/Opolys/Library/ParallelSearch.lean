import Opolys.Library.Transition
import Opolys.Library.MachineInt
import Mathlib.Data.Fintype.Card
import Mathlib.Algebra.BigOperators.Group.Finset.Basic
import Mathlib.Algebra.Order.BigOperators.Group.Finset

/-!
# Searching in parallel

Workers draw candidates from a shared counter and test them, until one of them has found a
solution or the candidates below a limit are used up. Each step of a worker reads or writes one
shared variable, and the steps of the workers interleave in any order.

* `step`, `result` : a step of a worker, and what is read off when all are done.
* `run_length_le` : no worker goes on for ever.
* `result_sound`, `result_complete` : a reported candidate is a solution, and there is none where
  none is reported.
-/

namespace ParallelSearch

open MachineInt

/-- Where a worker is. -/
inductive Phase where
  /-- About to look whether a solution has been found. -/
  | poll
  /-- About to draw a candidate. -/
  | draw
  /-- About to count the candidate that it has drawn. -/
  | count (candidate : UInt64)
  /-- About to test its candidate. -/
  | attempt (candidate : UInt64)
  /-- About to tell the others to stop. -/
  | raise (candidate : UInt64)
  /-- About to report its candidate. -/
  | publish (candidate : UInt64)
  | done
deriving DecidableEq

/-- The candidate that a worker has. -/
def Phase.held : Phase → Option UInt64
  | .count candidate => some candidate
  | .attempt candidate => some candidate
  | .raise candidate => some candidate
  | .publish candidate => some candidate
  | _ => none

/-- What the workers share, and where each of them is. -/
structure Pool (ι : Type*) where
  counter : UInt64
  foundFlag : Bool
  found : UInt64
  attempts : UInt64
  phases : ι → Phase

variable {ι : Type*} [DecidableEq ι]

/-- No candidate is `vacant`: it stands for no report. -/
def vacant : UInt64 := UInt64.ofNat (2 ^ 64 - 1)

namespace Pool

def start : Pool ι :=
  { counter := 0, foundFlag := false, found := vacant, attempts := 0, phases := fun _ => .poll }

def moveTo (pool : Pool ι) (i : ι) (phase : Phase) : Pool ι :=
  { pool with phases := Function.update pool.phases i phase }

/-- What a worker does next. -/
def step (test : UInt64 → Bool) (limit : UInt64) (pool : Pool ι) (i : ι) : Pool ι :=
  match pool.phases i with
  | .poll => pool.moveTo i (if pool.foundFlag then .done else .draw)
  | .draw =>
    { pool.moveTo i (if limit ≤ pool.counter then .done else .count pool.counter) with
      counter := pool.counter + 1 }
  | .count candidate =>
    { pool.moveTo i (.attempt candidate) with attempts := pool.attempts + 1 }
  | .attempt candidate => pool.moveTo i (if test candidate then .raise candidate else .poll)
  | .raise candidate => { pool.moveTo i (.publish candidate) with foundFlag := true }
  | .publish candidate =>
    { pool.moveTo i .done with
      found := if pool.found = vacant then candidate else pool.found }
  | .done => pool

/-- Every worker is done. -/
def Finished (pool : Pool ι) : Prop := ∀ i, pool.phases i = .done

/-- What is reported at the end. -/
def result (pool : Pool ι) : Option UInt64 × UInt64 :=
  (if pool.foundFlag then some pool.found else none, pool.attempts)

/-- A worker that is not done. -/
def Busy (pool : Pool ι) (i : ι) : Prop := pool.phases i ≠ .done

/-! ## What every step keeps -/

section Invariant

variable {test : UInt64 → Bool} {limit : UInt64} {pool : Pool ι}

/-- The workers that are done. -/
def doneCount [Fintype ι] (pool : Pool ι) : ℕ :=
  (Finset.univ.filter fun i => pool.phases i = .done).card

/-- What holds of a search at every point. -/
structure Sound [Fintype ι] (test : UInt64 → Bool) (limit : UInt64) (pool : Pool ι) : Prop where
  /-- A candidate that is worked on is below the limit. -/
  held : ∀ i candidate, (pool.phases i).held = some candidate → candidate < limit
  /-- What is about to be reported is a solution. -/
  raised : ∀ i candidate, pool.phases i = .raise candidate → test candidate = true
  published : ∀ i candidate, pool.phases i = .publish candidate →
    test candidate = true ∧ pool.foundFlag = true
  /-- What is reported is a solution. -/
  found : pool.found = vacant ∨ pool.found < limit ∧ test pool.found = true
  /-- Where the others were told to stop, a report was made or is about to be. -/
  flagged : pool.foundFlag = true →
    pool.found ≠ vacant ∨ ∃ i candidate, pool.phases i = .publish candidate
  /-- A solution that was drawn has led to a report, or is worked on. -/
  drawn : ∀ candidate, candidate.toNat < pool.counter.toNat → candidate < limit →
    test candidate = true → pool.foundFlag = true ∨ ∃ i, (pool.phases i).held = some candidate
  /-- A worker stops after a report, or when the candidates are used up. -/
  stopped : ∀ i, pool.phases i = .done → pool.foundFlag = true ∨ limit ≤ pool.counter
  /-- Only workers that stop draw past the limit. -/
  counter_le : pool.counter.toNat ≤ limit.toNat + pool.doneCount

omit [DecidableEq ι] in
theorem sound_start [Fintype ι] : (start : Pool ι).Sound test limit where
  held _ _ h := by cases h
  raised _ _ h := by cases h
  published _ _ h := by cases h
  found := Or.inl rfl
  flagged h := by cases h
  drawn candidate h := absurd h (Nat.not_lt_zero _)
  stopped _ h := by cases h
  counter_le := Nat.zero_le _

@[simp] theorem phases_moveTo_self (i : ι) (phase : Phase) :
    (pool.moveTo i phase).phases i = phase := by
  simp [moveTo]

theorem phases_moveTo_of_ne {i j : ι} (h : j ≠ i) (phase : Phase) :
    (pool.moveTo i phase).phases j = pool.phases j := by
  simp [moveTo, h]

variable [Fintype ι]

omit [DecidableEq ι] in
theorem doneCount_lt {i : ι} (h : pool.Busy i) : pool.doneCount < Fintype.card ι := by
  unfold doneCount
  rw [← Finset.card_univ]
  apply Finset.card_lt_card
  rw [Finset.filter_ssubset]
  exact ⟨i, Finset.mem_univ i, h⟩

theorem le_doneCount_moveTo {i : ι} (h : pool.Busy i) (phase : Phase) :
    pool.doneCount ≤ (pool.moveTo i phase).doneCount := by
  unfold doneCount
  apply Finset.card_le_card
  intro j hj
  rw [Finset.mem_filter] at hj ⊢
  have hne : j ≠ i := by
    rintro rfl
    exact h hj.2
  exact ⟨hj.1, (phases_moveTo_of_ne hne phase).trans hj.2⟩

theorem doneCount_moveTo_done {i : ι} (h : pool.Busy i) :
    pool.doneCount + 1 ≤ (pool.moveTo i .done).doneCount := by
  have hnot : i ∉ Finset.univ.filter fun i => pool.phases i = .done := by
    rw [Finset.mem_filter]
    exact fun hi => h hi.2
  unfold doneCount
  rw [← Finset.card_insert_of_notMem hnot]
  apply Finset.card_le_card
  intro j hj
  rw [Finset.mem_filter]
  rcases Finset.mem_insert.mp hj with heq | hbefore
  · rw [heq]
    exact ⟨Finset.mem_univ i, phases_moveTo_self i .done⟩
  · have hne : j ≠ i := by
      intro heq
      rw [heq] at hbefore
      exact hnot hbefore
    exact ⟨Finset.mem_univ j,
      (phases_moveTo_of_ne hne .done).trans (Finset.mem_filter.mp hbefore).2⟩

/-- What the next state of one worker has to meet for the search to stay sound. -/
theorem Sound.of_move (h : pool.Sound test limit) {next : Pool ι} {i : ι} {phase : Phase}
    (hphases : next.phases = (pool.moveTo i phase).phases)
    (hheld : ∀ candidate, phase.held = some candidate → candidate < limit)
    (hraised : ∀ candidate, phase = .raise candidate → test candidate = true)
    (hpublished : ∀ candidate, phase = .publish candidate →
      test candidate = true ∧ next.foundFlag = true)
    (hflag : pool.foundFlag = true → next.foundFlag = true)
    (hfound : next.found = vacant ∨ next.found < limit ∧ test next.found = true)
    (hflagged : next.foundFlag = true →
      next.found ≠ vacant ∨ (∃ candidate, phase = .publish candidate) ∨
      pool.foundFlag = true ∧ next.found = pool.found ∧
        ∀ candidate, pool.phases i ≠ .publish candidate)
    (hdrawn : ∀ candidate, candidate.toNat < next.counter.toNat → candidate < limit →
      test candidate = true → next.foundFlag = true ∨ phase.held = some candidate ∨
        candidate.toNat < pool.counter.toNat ∧ (pool.phases i).held ≠ some candidate)
    (hstopped : phase = .done → next.foundFlag = true ∨ limit ≤ next.counter)
    (hcounter : pool.counter.toNat ≤ next.counter.toNat)
    (hcount : next.counter.toNat ≤ limit.toNat + next.doneCount) : next.Sound test limit := by
  have hself : next.phases i = phase := by rw [hphases, phases_moveTo_self]
  have hother {j : ι} (hj : j ≠ i) : next.phases j = pool.phases j := by
    rw [hphases, phases_moveTo_of_ne hj]
  constructor
  · intro j candidate hj
    by_cases hij : j = i
    · subst hij
      rw [hself] at hj
      exact hheld candidate hj
    · rw [hother hij] at hj
      exact h.held j candidate hj
  · intro j candidate hj
    by_cases hij : j = i
    · subst hij
      exact hraised candidate (hself.symm.trans hj)
    · exact h.raised j candidate ((hother hij).symm.trans hj)
  · intro j candidate hj
    by_cases hij : j = i
    · subst hij
      exact hpublished candidate (hself.symm.trans hj)
    · obtain ⟨htest, hset⟩ := h.published j candidate ((hother hij).symm.trans hj)
      exact ⟨htest, hflag hset⟩
  · exact hfound
  · intro hset
    rcases hflagged hset with hreport | ⟨candidate, hphase⟩ | ⟨hold, hsame, hnot⟩
    · exact Or.inl hreport
    · exact Or.inr ⟨i, candidate, hself.trans hphase⟩
    · rcases h.flagged hold with hreport | ⟨j, candidate, hj⟩
      · left
        rw [hsame]
        exact hreport
      · have hij : j ≠ i := by
          rintro rfl
          exact hnot candidate hj
        exact Or.inr ⟨j, candidate, (hother hij).trans hj⟩
  · intro candidate hlt hlimit htest
    rcases hdrawn candidate hlt hlimit htest with hset | hhas | ⟨hbefore, hnot⟩
    · exact Or.inl hset
    · right
      refine ⟨i, ?_⟩
      rw [hself]
      exact hhas
    · rcases h.drawn candidate hbefore hlimit htest with hset | ⟨j, hj⟩
      · exact Or.inl (hflag hset)
      · have hij : j ≠ i := by
          rintro rfl
          exact hnot hj
        right
        refine ⟨j, ?_⟩
        rw [hother hij]
        exact hj
  · intro j hj
    by_cases hij : j = i
    · subst hij
      exact hstopped (hself.symm.trans hj)
    · rcases h.stopped j ((hother hij).symm.trans hj) with hset | hused
      · exact Or.inl (hflag hset)
      · right
        rw [UInt64.le_iff_toNat_le] at hused ⊢
        omega
  · exact hcount

omit [DecidableEq ι] in
/-- There is room for one more draw. -/
theorem Sound.counter_lt (h : pool.Sound test limit) (hroom : limit.toNat + Fintype.card ι < 2 ^ 64)
    {i : ι} (hi : pool.Busy i) : (pool.counter + 1).toNat = pool.counter.toNat + 1 := by
  have hle := h.counter_le
  have hdone := doneCount_lt hi
  have hone : (1 : UInt64).toNat = 1 := rfl
  rw [MachineInt.toNat_add_of_lt (by omega), hone]

theorem Sound.counter_le_moveTo (h : pool.Sound test limit) {i : ι} (hi : pool.Busy i)
    (phase : Phase) : pool.counter.toNat ≤ limit.toNat + (pool.moveTo i phase).doneCount :=
  h.counter_le.trans (Nat.add_le_add_left (le_doneCount_moveTo hi phase) _)

/-- A worker that was told to stop stops, and the others go on. -/
theorem Sound.poll (h : pool.Sound test limit) {i : ι}
    (hphase : pool.phases i = .poll) : (pool.step test limit i).Sound test limit := by
  have hi : pool.Busy i := by simp [Busy, hphase]
  have hnext : pool.step test limit i =
      pool.moveTo i (if pool.foundFlag then .done else .draw) := by simp [Pool.step, hphase]
  rw [hnext]
  refine h.of_move rfl ?_ ?_ ?_ id h.found ?_ ?_ ?_ le_rfl (h.counter_le_moveTo hi _)
  · intro candidate hheld
    split at hheld <;> cases hheld
  · intro candidate hraise
    split at hraise <;> cases hraise
  · intro candidate hpublish
    split at hpublish <;> cases hpublish
  · intro hset
    exact Or.inr (Or.inr ⟨hset, rfl, by simp [hphase]⟩)
  · intro candidate hlt _ _
    exact Or.inr (Or.inr ⟨hlt, by simp [hphase, Phase.held]⟩)
  · intro hdone
    split at hdone
    · rename_i hset
      exact Or.inl hset
    · cases hdone

/-- A worker that draws past the limit stops, and the others work on what they have drawn. -/
theorem Sound.draw (h : pool.Sound test limit) (hroom : limit.toNat + Fintype.card ι < 2 ^ 64)
    {i : ι} (hphase : pool.phases i = .draw) : (pool.step test limit i).Sound test limit := by
  have hi : pool.Busy i := by simp [Busy, hphase]
  have hone := h.counter_lt hroom hi
  have hnext : pool.step test limit i =
      { pool.moveTo i (if limit ≤ pool.counter then .done else .count pool.counter) with
        counter := pool.counter + 1 } := by simp [Pool.step, hphase]
  rw [hnext]
  by_cases hused : limit ≤ pool.counter
  · have hle : limit.toNat ≤ pool.counter.toNat := UInt64.le_iff_toNat_le.mp hused
    rw [if_pos hused]
    refine h.of_move rfl (by simp [Phase.held]) (by simp) (by simp) id h.found ?_ ?_ ?_ ?_ ?_
    · intro hset
      exact Or.inr (Or.inr ⟨hset, rfl, by simp [hphase]⟩)
    · intro candidate _ hlimit _
      have hbelow := UInt64.lt_iff_toNat_lt.mp hlimit
      exact Or.inr (Or.inr ⟨by omega, by simp [hphase, Phase.held]⟩)
    · intro _
      right
      rw [UInt64.le_iff_toNat_le]
      dsimp only
      omega
    · dsimp only
      omega
    · have hdone := doneCount_moveTo_done hi
      have hle := h.counter_le
      show (pool.counter + 1).toNat ≤ limit.toNat + (pool.moveTo i .done).doneCount
      omega
  · have hlt : pool.counter.toNat < limit.toNat := by
      rw [UInt64.le_iff_toNat_le] at hused
      omega
    rw [if_neg hused]
    refine h.of_move rfl ?_ (by simp) (by simp) id h.found ?_ ?_ (by simp) ?_ ?_
    · intro candidate hheld
      cases hheld
      exact UInt64.lt_iff_toNat_lt.mpr hlt
    · intro hset
      exact Or.inr (Or.inr ⟨hset, rfl, by simp [hphase]⟩)
    · intro candidate hbefore _ _
      dsimp only at hbefore
      by_cases hnew : candidate = pool.counter
      · right
        left
        rw [hnew]
        rfl
      · have hne : candidate.toNat ≠ pool.counter.toNat := fun heq =>
          hnew (UInt64.toNat_inj.mp heq)
        exact Or.inr (Or.inr ⟨by omega, by simp [hphase, Phase.held]⟩)
    · dsimp only
      omega
    · dsimp only
      omega

/-- Counting an attempt leaves the search as it is. -/
theorem Sound.count (h : pool.Sound test limit) {candidate : UInt64} {i : ι}
    (hphase : pool.phases i = .count candidate) : (pool.step test limit i).Sound test limit := by
  have hi : pool.Busy i := by simp [Busy, hphase]
  have hnext : pool.step test limit i =
      { pool.moveTo i (.attempt candidate) with attempts := pool.attempts + 1 } := by
    simp [Pool.step, hphase]
  rw [hnext]
  refine h.of_move rfl ?_ (by simp) (by simp) id h.found ?_ ?_ (by simp) le_rfl
    (h.counter_le_moveTo hi _)
  · intro other hheld
    exact h.held i other (by rw [hphase]; exact hheld)
  · intro hset
    exact Or.inr (Or.inr ⟨hset, rfl, by simp [hphase]⟩)
  · intro other hlt _ _
    by_cases hsame : candidate = other
    · exact Or.inr (Or.inl (congrArg some hsame))
    · exact Or.inr (Or.inr ⟨hlt, by simp [hphase, Phase.held, hsame]⟩)

/-- A solution is about to be reported, and anything else is given up. -/
theorem Sound.attempt (h : pool.Sound test limit) {candidate : UInt64} {i : ι}
    (hphase : pool.phases i = .attempt candidate) : (pool.step test limit i).Sound test limit := by
  have hi : pool.Busy i := by simp [Busy, hphase]
  have hnext : pool.step test limit i =
      pool.moveTo i (if test candidate then .raise candidate else .poll) := by
    simp [Pool.step, hphase]
  have hbelow : candidate < limit := h.held i candidate (by rw [hphase]; rfl)
  rw [hnext]
  refine h.of_move rfl ?_ ?_ ?_ id h.found ?_ ?_ ?_ le_rfl (h.counter_le_moveTo hi _)
  · intro other hheld
    split at hheld
    · cases hheld
      exact hbelow
    · cases hheld
  · intro other hraise
    split at hraise
    · rename_i htest
      cases hraise
      exact htest
    · cases hraise
  · intro other hpublish
    split at hpublish <;> cases hpublish
  · intro hset
    exact Or.inr (Or.inr ⟨hset, rfl, by simp [hphase]⟩)
  · intro other hlt _ htest
    by_cases hsame : candidate = other
    · subst hsame
      right
      left
      rw [if_pos htest]
      rfl
    · exact Or.inr (Or.inr ⟨hlt, by simp [hphase, Phase.held, hsame]⟩)
  · intro hdone
    split at hdone <;> cases hdone

/-- The other workers are told to stop before the report. -/
theorem Sound.raise (h : pool.Sound test limit) {candidate : UInt64} {i : ι}
    (hphase : pool.phases i = .raise candidate) : (pool.step test limit i).Sound test limit := by
  have hi : pool.Busy i := by simp [Busy, hphase]
  have hnext : pool.step test limit i =
      { pool.moveTo i (.publish candidate) with foundFlag := true } := by
    simp [Pool.step, hphase]
  rw [hnext]
  refine h.of_move rfl ?_ (by simp) ?_ (fun _ => rfl) h.found ?_ ?_ (by simp) le_rfl
    (h.counter_le_moveTo hi _)
  · intro other hheld
    exact h.held i other (by rw [hphase]; exact hheld)
  · intro other hpublish
    cases hpublish
    exact ⟨h.raised i candidate hphase, rfl⟩
  · exact fun _ => Or.inr (Or.inl ⟨candidate, rfl⟩)
  · exact fun _ _ _ _ => Or.inl rfl

/-- The first report stays. -/
theorem Sound.publish (h : pool.Sound test limit) {candidate : UInt64} {i : ι}
    (hphase : pool.phases i = .publish candidate) : (pool.step test limit i).Sound test limit := by
  have hi : pool.Busy i := by simp [Busy, hphase]
  obtain ⟨htest, hset⟩ := h.published i candidate hphase
  have hbelow : candidate < limit := h.held i candidate (by rw [hphase]; rfl)
  have hnext : pool.step test limit i =
      { pool.moveTo i .done with
        found := if pool.found = vacant then candidate else pool.found } := by
    simp [Pool.step, hphase]
  rw [hnext]
  refine h.of_move rfl (by simp [Phase.held]) (by simp) (by simp) id ?_ ?_ ?_ ?_ le_rfl
    (h.counter_le_moveTo hi _)
  · right
    by_cases hvacant : pool.found = vacant
    · simp only [hvacant, if_true]
      exact ⟨hbelow, htest⟩
    · simp only [hvacant, if_false]
      rcases h.found with hnone | hsome
      · exact absurd hnone hvacant
      · exact hsome
  · intro _
    left
    by_cases hvacant : pool.found = vacant
    · simp only [hvacant, if_true]
      rintro rfl
      have hlt := UInt64.lt_iff_toNat_lt.mp hbelow
      have hmax : vacant.toNat = 2 ^ 64 - 1 := rfl
      have hlimit := limit.toNat_lt
      omega
    · simp only [hvacant, if_false]
      exact hvacant
  · exact fun _ _ _ _ => Or.inl hset
  · exact fun _ => Or.inl hset

/-- Every step of every worker keeps a search sound. -/
theorem Sound.step (h : pool.Sound test limit) (hroom : limit.toNat + Fintype.card ι < 2 ^ 64)
    (i : ι) : (pool.step test limit i).Sound test limit := by
  cases hphase : pool.phases i with
  | poll => exact h.poll hphase
  | draw => exact h.draw hroom hphase
  | count candidate => exact h.count hphase
  | attempt candidate => exact h.attempt hphase
  | raise candidate => exact h.raise hphase
  | publish candidate => exact h.publish hphase
  | done =>
    have hnext : pool.step test limit i = pool := by simp [Pool.step, hphase]
    rw [hnext]
    exact h

theorem sound_run (hroom : limit.toNat + Fintype.card ι < 2 ^ 64) (schedule : List ι) :
    (Transition.run (Pool.step test limit) start schedule).Sound test limit :=
  Transition.run_invariant (fun _ i h => h.step hroom i) schedule sound_start

/-! ## The end of a search -/

omit [DecidableEq ι] in
/-- A candidate that is reported at the end is a solution. -/
theorem Sound.result_sound (h : pool.Sound test limit) (hfinished : pool.Finished)
    {candidate : UInt64} (hresult : pool.result.1 = some candidate) :
    candidate < limit ∧ test candidate = true := by
  unfold result at hresult
  dsimp only at hresult
  split at hresult
  · rename_i hset
    cases hresult
    rcases h.found with hvacant | hsome
    · rcases h.flagged hset with hreport | ⟨i, candidate, hi⟩
      · exact absurd hvacant hreport
      · rw [hfinished i] at hi
        cases hi
    · exact hsome
  · cases hresult

omit [DecidableEq ι] in
/-- Where nothing is reported at the end there is no solution. -/
theorem Sound.result_complete [Nonempty ι] (h : pool.Sound test limit)
    (hfinished : pool.Finished) (hresult : pool.result.1 = none) {candidate : UInt64}
    (hlimit : candidate < limit) : test candidate = false := by
  have hunset : pool.foundFlag = false := by
    unfold result at hresult
    dsimp only at hresult
    split at hresult
    · cases hresult
    · rename_i hset
      exact Bool.eq_false_of_not_eq_true hset
  have hused : limit ≤ pool.counter := by
    obtain ⟨i⟩ := (inferInstance : Nonempty ι)
    rcases h.stopped i (hfinished i) with hset | hused
    · rw [hunset] at hset
      cases hset
    · exact hused
  by_contra htest
  rw [UInt64.le_iff_toNat_le] at hused
  have hbefore : candidate.toNat < pool.counter.toNat :=
    lt_of_lt_of_le (UInt64.lt_iff_toNat_lt.mp hlimit) hused
  rcases h.drawn candidate hbefore hlimit (Bool.eq_true_of_not_eq_false htest) with hset | ⟨i, hi⟩
  · rw [hunset] at hset
    cases hset
  · rw [hfinished i] at hi
    cases hi

/-! ## No search goes on for ever -/

/-- How much a worker still does before it draws again or stops. -/
def weight : Phase → ℕ
  | .poll => 2
  | .draw => 1
  | .count _ => 5
  | .attempt _ => 4
  | .raise _ => 2
  | .publish _ => 1
  | .done => 0

/-- How much is left to do. -/
def potential (limit : UInt64) (pool : Pool ι) : ℕ :=
  5 * (limit.toNat - pool.counter.toNat) + ∑ i, weight (pool.phases i)

theorem sum_weight_moveTo (i : ι) (phase : Phase) :
    ∑ j, weight ((pool.moveTo i phase).phases j) + weight (pool.phases i) =
      ∑ j, weight (pool.phases j) + weight phase := by
  have hrest : ∑ j ∈ Finset.univ.erase i, weight ((pool.moveTo i phase).phases j) =
      ∑ j ∈ Finset.univ.erase i, weight (pool.phases j) := by
    apply Finset.sum_congr rfl
    intro j hj
    rw [phases_moveTo_of_ne (Finset.ne_of_mem_erase hj)]
  have hnew := Finset.add_sum_erase Finset.univ (fun j => weight ((pool.moveTo i phase).phases j))
    (Finset.mem_univ i)
  have hold := Finset.add_sum_erase Finset.univ (fun j => weight (pool.phases j))
    (Finset.mem_univ i)
  rw [phases_moveTo_self] at hnew
  omega

/-- Every step of a worker that is not done leaves less to do. -/
theorem Sound.potential_step (h : pool.Sound test limit)
    (hroom : limit.toNat + Fintype.card ι < 2 ^ 64) {i : ι} (hi : pool.Busy i) :
    (pool.step test limit i).potential limit + 1 ≤ pool.potential limit := by
  have hsum (phase : Phase) :
      ∑ j, weight ((pool.moveTo i phase).phases j) + weight (pool.phases i) =
        ∑ j, weight (pool.phases j) + weight phase := sum_weight_moveTo i phase
  unfold potential
  cases hphase : pool.phases i with
  | poll =>
    rw [hphase] at hsum
    simp only [Pool.step, hphase]
    by_cases hset : pool.foundFlag = true
    · have hmoved : _ + 2 = _ + 0 := hsum .done
      rw [if_pos hset]
      show 5 * (limit.toNat - pool.counter.toNat) + _ + 1 ≤ _
      omega
    · have hmoved : _ + 2 = _ + 1 := hsum .draw
      rw [if_neg hset]
      show 5 * (limit.toNat - pool.counter.toNat) + _ + 1 ≤ _
      omega
  | draw =>
    have hone := h.counter_lt hroom hi
    rw [hphase] at hsum
    simp only [Pool.step, hphase, hone]
    by_cases hused : limit ≤ pool.counter
    · have hmoved : _ + 1 = _ + 0 := hsum .done
      rw [if_pos hused]
      omega
    · have hmoved : _ + 1 = _ + 5 := hsum (.count pool.counter)
      rw [if_neg hused]
      rw [UInt64.le_iff_toNat_le] at hused
      omega
  | count candidate =>
    rw [hphase] at hsum
    have hmoved : _ + 5 = _ + 4 := hsum (.attempt candidate)
    simp only [Pool.step, hphase]
    show 5 * (limit.toNat - pool.counter.toNat) + _ + 1 ≤ _
    omega
  | attempt candidate =>
    rw [hphase] at hsum
    simp only [Pool.step, hphase]
    by_cases htest : test candidate = true
    · have hmoved : _ + 4 = _ + 2 := hsum (.raise candidate)
      rw [if_pos htest]
      show 5 * (limit.toNat - pool.counter.toNat) + _ + 1 ≤ _
      omega
    · have hmoved : _ + 4 = _ + 2 := hsum .poll
      rw [if_neg htest]
      show 5 * (limit.toNat - pool.counter.toNat) + _ + 1 ≤ _
      omega
  | raise candidate =>
    rw [hphase] at hsum
    have hmoved : _ + 2 = _ + 1 := hsum (.publish candidate)
    simp only [Pool.step, hphase]
    show 5 * (limit.toNat - pool.counter.toNat) + _ + 1 ≤ _
    omega
  | publish candidate =>
    rw [hphase] at hsum
    have hmoved : _ + 1 = _ + 0 := hsum .done
    simp only [Pool.step, hphase]
    show 5 * (limit.toNat - pool.counter.toNat) + _ + 1 ≤ _
    omega
  | done => exact absurd hphase hi

/-- A schedule that lets only workers work that are not done comes to an end. -/
theorem run_length_le (hroom : limit.toNat + Fintype.card ι < 2 ^ 64) {schedule : List ι}
    (hbusy : Transition.EveryStep (Pool.step test limit) Busy start schedule) :
    schedule.length ≤ 5 * limit.toNat + 2 * Fintype.card ι := by
  have hrun (schedule : List ι) (pool : Pool ι) (h : pool.Sound test limit)
      (hbusy : Transition.EveryStep (Pool.step test limit) Busy pool schedule) :
      schedule.length ≤ pool.potential limit := by
    induction schedule generalizing pool with
    | nil => exact Nat.zero_le _
    | cons i schedule ih =>
      have hstep := h.potential_step hroom hbusy.1
      have hrest := ih _ (h.step hroom i) hbusy.2
      rw [List.length_cons]
      omega
  have hstart : (start : Pool ι).potential limit = 5 * limit.toNat + 2 * Fintype.card ι := by
    have hzero : (0 : UInt64).toNat = 0 := rfl
    simp [potential, start, weight, hzero, Nat.mul_comm]
  rw [← hstart]
  exact hrun schedule start sound_start hbusy

end Invariant

end Pool

end ParallelSearch
