import Mathlib.Tactic.Common

/-!
# Runs of a transition function

A system that reads one input after the other is a function `step : σ → ι → σ`. Its runs
are the left folds of `step` over lists of inputs. What holds over all runs is proved
from one step: an invariant from its preservation (`invariant_run`), where a run may be
restricted to steps that meet a condition (`EveryStep`, with the dual `SomeStep`), or the
condition read off the invariant of all its states (`everyState_iff_everyStep`), and the
agreement of two systems from a relation that every pair of steps keeps (`simulation_run`).
-/

namespace Transition

variable {σ σ' ι ω : Type*}

/-- The state after reading the inputs one after the other. -/
def run (step : σ → ι → σ) (s : σ) (is : List ι) : σ := is.foldl step s

@[simp] theorem run_nil (step : σ → ι → σ) (s : σ) : run step s [] = s := rfl

@[simp] theorem run_cons (step : σ → ι → σ) (s : σ) (i : ι) (is : List ι) :
    run step s (i :: is) = run step (step s i) is := rfl

theorem run_append (step : σ → ι → σ) (s : σ) (is js : List ι) :
    run step s (is ++ js) = run step (run step s is) js := List.foldl_append

/-- Every step of the run meets `C`, a condition on the state before it and its input. -/
def EveryStep (step : σ → ι → σ) (C : σ → ι → Prop) : σ → List ι → Prop
  | _, [] => True
  | s, i :: is => C s i ∧ EveryStep step C (step s i) is

instance EveryStep.decidable {step : σ → ι → σ} {C : σ → ι → Prop}
    [∀ s i, Decidable (C s i)] : ∀ s is, Decidable (EveryStep step C s is)
  | _, [] => inferInstanceAs (Decidable True)
  | s, i :: is =>
    @instDecidableAnd (C s i) (EveryStep step C (step s i) is) _ (EveryStep.decidable _ is)

theorem EveryStep.mono {step : σ → ι → σ} {C D : σ → ι → Prop} (hCD : ∀ s i, C s i → D s i)
    {s : σ} {is : List ι} (h : EveryStep step C s is) : EveryStep step D s is := by
  induction is generalizing s with
  | nil => trivial
  | cons i is ih => exact ⟨hCD s i h.1, ih h.2⟩

theorem everyStep_append {step : σ → ι → σ} {C : σ → ι → Prop} {s : σ} {is js : List ι} :
    EveryStep step C s (is ++ js) ↔
      EveryStep step C s is ∧ EveryStep step C (run step s is) js := by
  induction is generalizing s with
  | nil => simp [EveryStep]
  | cons i is ih => simp [EveryStep, ih, and_assoc]

/-- The condition of every step, at the state that the steps before it have reached. -/
theorem everyStep_iff {step : σ → ι → σ} {C : σ → ι → Prop} {s : σ} {is : List ι} :
    EveryStep step C s is ↔
      ∀ before i after, is = before ++ i :: after → C (run step s before) i := by
  constructor
  · rintro h before i after rfl
    exact (everyStep_append.mp h).2.1
  · intro h
    induction is generalizing s with
    | nil => trivial
    | cons i is ih =>
      refine ⟨h [] i is rfl, ih fun before j after his => ?_⟩
      rw [his] at h
      exact h (i :: before) j after rfl

/-- Conditions that agree wherever an invariant holds are met by the same runs. -/
theorem everyStep_congr {step : σ → ι → σ} {C D : σ → ι → Prop} {Inv : σ → Prop}
    (hstep : ∀ s i, Inv s → Inv (step s i)) (hCD : ∀ s i, Inv s → (C s i ↔ D s i)) {s : σ}
    {is : List ι} (h0 : Inv s) : EveryStep step C s is ↔ EveryStep step D s is := by
  induction is generalizing s with
  | nil => exact Iff.rfl
  | cons i is ih => exact and_congr (hCD s i h0) (ih (hstep s i h0))

/-- Every state of the run satisfies `Inv`, the first and the last included. -/
def EveryState (step : σ → ι → σ) (Inv : σ → Prop) : σ → List ι → Prop
  | s, [] => Inv s
  | s, i :: is => Inv s ∧ EveryState step Inv (step s i) is

/-- The states of a run are those that its beginnings reach. -/
theorem everyState_iff {step : σ → ι → σ} {Inv : σ → Prop} {s : σ} {is : List ι} :
    EveryState step Inv s is ↔ ∀ before after, is = before ++ after → Inv (run step s before) := by
  constructor
  · rintro h before after rfl
    induction before generalizing s with
    | nil =>
      cases after with
      | nil => exact h
      | cons i after => exact h.1
    | cons i before ih => exact ih h.2
  · intro h
    induction is generalizing s with
    | nil => exact h [] [] rfl
    | cons i is ih =>
      refine ⟨h [] (i :: is) rfl, ih fun before after his => ?_⟩
      rw [his] at h
      exact h (i :: before) after rfl

/-- Where every step out of the invariant either meets `C` and keeps it, or leaves what it
guarantees, a run has the guarantee in every state exactly when every step meets `C`. -/
theorem everyState_iff_everyStep {step : σ → ι → σ} {Good Inv : σ → Prop} {C : σ → ι → Prop}
    {s : σ} {is : List ι} (hgood : ∀ s, Inv s → Good s)
    (hstep : ∀ s, ∀ i ∈ is, Inv s → (Good (step s i) → C s i) ∧ (C s i → Inv (step s i)))
    (h0 : Inv s) : EveryState step Good s is ↔ EveryStep step C s is := by
  induction is generalizing s with
  | nil => exact iff_of_true (hgood s h0) trivial
  | cons i is ih =>
    obtain ⟨hC, hkeeps⟩ := hstep s i List.mem_cons_self h0
    have hrest (s : σ) (h : Inv s) := ih (fun s j hj => hstep s j (List.mem_cons_of_mem _ hj)) h
    constructor
    · rintro ⟨-, hstates⟩
      have hnext : Good (step s i) := by
        cases is with
        | nil => exact hstates
        | cons j is => exact hstates.1
      exact ⟨hC hnext, (hrest _ (hkeeps (hC hnext))).mp hstates⟩
    · rintro ⟨hC, hsteps⟩
      exact ⟨hgood s h0, (hrest _ (hkeeps hC)).mpr hsteps⟩

/-- The same for a guarantee that is itself the invariant. -/
theorem everyState_iff_everyStep' {step : σ → ι → σ} {Inv : σ → Prop} {C : σ → ι → Prop}
    (hstep : ∀ s i, Inv s → (Inv (step s i) ↔ C s i)) {s : σ} {is : List ι} (h0 : Inv s) :
    EveryState step Inv s is ↔ EveryStep step C s is :=
  everyState_iff_everyStep (fun _ => id) (fun s i _ h => ⟨(hstep s i h).mp, (hstep s i h).mpr⟩) h0

/-- Some step of the run meets `C`, a condition on the state before it and its input. -/
def SomeStep (step : σ → ι → σ) (C : σ → ι → Prop) : σ → List ι → Prop
  | _, [] => False
  | s, i :: is => C s i ∨ SomeStep step C (step s i) is

theorem someStep_congr {step : σ → ι → σ} {C D : σ → ι → Prop} (hCD : ∀ s i, C s i ↔ D s i)
    {s : σ} {is : List ι} : SomeStep step C s is ↔ SomeStep step D s is := by
  induction is generalizing s with
  | nil => exact Iff.rfl
  | cons i is ih => exact or_congr (hCD s i) ih

/-- A step that meets one of several conditions is a step that meets one of them. -/
theorem someStep_exists {κ : Sort*} {step : σ → ι → σ} {C : κ → σ → ι → Prop} {s : σ}
    {is : List ι} :
    SomeStep step (fun s i => ∃ k, C k s i) s is ↔ ∃ k, SomeStep step (C k) s is := by
  induction is generalizing s with
  | nil => exact ⟨nofun, fun ⟨_, h⟩ => h⟩
  | cons i is ih => exact (or_congr_right ih).trans exists_or.symm

theorem someStep_or {step : σ → ι → σ} {C D : σ → ι → Prop} {s : σ} {is : List ι} :
    SomeStep step (fun s i => C s i ∨ D s i) s is ↔
      SomeStep step C s is ∨ SomeStep step D s is := by
  induction is generalizing s with
  | nil => exact (or_self_iff (a := False)).symm
  | cons i is ih => exact (or_congr_right ih).trans or_or_or_comm

theorem someStep_and_left {p : Prop} {step : σ → ι → σ} {C : σ → ι → Prop} {s : σ}
    {is : List ι} : SomeStep step (fun s i => p ∧ C s i) s is ↔ p ∧ SomeStep step C s is := by
  induction is generalizing s with
  | nil => exact (iff_of_eq (and_false p)).symm
  | cons i is ih => exact (or_congr_right ih).trans and_or_left.symm

/-- An invariant that every admissible step keeps holds at the end of every run of
admissible steps. -/
theorem invariant_run {step : σ → ι → σ} {C : σ → ι → Prop} {Inv : σ → Prop}
    (hstep : ∀ s i, Inv s → C s i → Inv (step s i)) {s : σ} {is : List ι} (h0 : Inv s)
    (hC : EveryStep step C s is) : Inv (run step s is) := by
  induction is generalizing s with
  | nil => exact h0
  | cons i is ih => exact ih (hstep s i h0 hC.1) hC.2

/-- An invariant that every step keeps holds at the end of every run. -/
theorem run_invariant {step : σ → ι → σ} {Inv : σ → Prop}
    (hstep : ∀ s i, Inv s → Inv (step s i)) {s : σ} (is : List ι) (h0 : Inv s) :
    Inv (run step s is) := by
  induction is generalizing s with
  | nil => exact h0
  | cons i is ih => exact ih (hstep s i h0)

/-- A relation that every pair of steps keeps holds after every pair of runs. -/
theorem simulation_run {step : σ → ι → σ} {step' : σ' → ι → σ'} {R : σ → σ' → Prop}
    (hstep : ∀ s s' i, R s s' → R (step s i) (step' s' i)) {s : σ} {s' : σ'} {is : List ι}
    (h0 : R s s') : R (run step s is) (run step' s' is) := by
  induction is generalizing s s' with
  | nil => exact h0
  | cons i is ih => exact ih (hstep s s' i h0)

/-- Where related systems meet related conditions, one meets them in every step as the other. -/
theorem simulation_everyStep {step : σ → ι → σ} {step' : σ' → ι → σ'} {R : σ → σ' → Prop}
    {C : σ → ι → Prop} {C' : σ' → ι → Prop} (hstep : ∀ s s' i, R s s' → R (step s i) (step' s' i))
    (hC : ∀ s s' i, R s s' → C s i → C' s' i) {s : σ} {s' : σ'} {is : List ι} (h0 : R s s')
    (h : EveryStep step C s is) : EveryStep step' C' s' is := by
  induction is generalizing s s' with
  | nil => trivial
  | cons i is ih => exact ⟨hC s s' i h0 h.1, ih (hstep s s' i h0) h.2⟩

/-- What an observer sees of a run: one observation for every step. -/
def trace (step : σ → ι → σ) (observe : σ → ι → ω) : σ → List ι → List ω
  | _, [] => []
  | s, i :: is => observe s i :: trace step observe (step s i) is

/-- Related systems look the same to an observer who sees related steps alike. -/
theorem simulation_trace {step : σ → ι → σ} {step' : σ' → ι → σ'} {R : σ → σ' → Prop}
    {observe : σ → ι → ω} {observe' : σ' → ι → ω}
    (hstep : ∀ s s' i, R s s' → observe s i = observe' s' i ∧ R (step s i) (step' s' i))
    {s : σ} {s' : σ'} {is : List ι} (h0 : R s s') :
    trace step observe s is = trace step' observe' s' is := by
  induction is generalizing s s' with
  | nil => rfl
  | cons i is ih =>
    obtain ⟨ho, hR⟩ := hstep s s' i h0
    rw [trace, trace, ho, ih hR]

end Transition
