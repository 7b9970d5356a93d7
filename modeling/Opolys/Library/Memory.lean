import Mathlib.Data.Vector.Basic
import Mathlib.Tactic.Common

/-!
# Memories and copies of them

A memory holds a value at each of `n` addresses. A program that reads and writes it sees only what
`get` returns, so two memories with the same contents serve it alike, whatever they are made of.

* `Memory`, `LawfulMemory`, `SameContents` : memories, and when two of them look the same.
* `Overlay` : a copy of a base that keeps only what was written, and can be emptied again.
* `Chain` : values each of which is computed from the one before, all at once or as they are asked
  for.
-/

namespace Addressed

variable {n : ℕ} {α μ ν : Type*}

/-! ## Memories -/

/-- What a program can do with a memory. -/
class Memory (μ : Type*) (n : outParam ℕ) (α : outParam Type*) where
  get : μ → Fin n → α
  set : μ → Fin n → α → μ
  /-- All values, in the order of their addresses. -/
  toSlice : μ → Vector α n

/-- A value that is written is read back, and nothing else changes. -/
class LawfulMemory (μ : Type*) {n : outParam ℕ} {α : outParam Type*} [Memory μ n α] : Prop where
  get_set : ∀ (m : μ) (i j : Fin n) (a : α),
    Memory.get (Memory.set m i a) j = if i = j then a else Memory.get m j
  toSlice_get : ∀ (m : μ) (i : Fin n), (Memory.toSlice m).get i = Memory.get m i

/-- Two memories that a program cannot tell apart. -/
def SameContents [Memory μ n α] [Memory ν n α] (m : μ) (m' : ν) : Prop :=
  ∀ i, Memory.get m i = Memory.get m' i

namespace SameContents

variable [Memory μ n α] [Memory ν n α] [LawfulMemory μ] [LawfulMemory ν] {m : μ} {m' : ν}

theorem set (h : SameContents m m') (i : Fin n) (a : α) :
    SameContents (Memory.set m i a) (Memory.set m' i a) := by
  intro j
  rw [LawfulMemory.get_set, LawfulMemory.get_set, h j]

theorem toSlice (h : SameContents m m') : Memory.toSlice m = Memory.toSlice m' := by
  apply Vector.ext
  intro i hi
  have hslice := LawfulMemory.toSlice_get m ⟨i, hi⟩
  have hslice' := LawfulMemory.toSlice_get m' ⟨i, hi⟩
  exact hslice.trans ((h ⟨i, hi⟩).trans hslice'.symm)

end SameContents

instance : Memory (Vector α n) n α where
  get m i := m.get i
  set m i a := m.set i a
  toSlice m := m

instance : LawfulMemory (Vector α n) where
  get_set m i j a := by
    show (m.set i a)[j.val] = if i = j then a else m[j.val]
    rw [Vector.getElem_set]
    by_cases h : i = j
    · simp [h]
    · simp [h, Fin.val_inj]
  toSlice_get _ _ := rfl

/-! ## Overlays -/

/-- A base with the values that were written over it, and where they were written. -/
structure Overlay (n : ℕ) (α : Type*) where
  base : Vector α n
  modified : Vector (Option α) n
  modifiedIndices : List (Fin n)

namespace Overlay

/-- Nothing has been written. -/
def new (base : Vector α n) : Overlay n α :=
  { base, modified := Vector.replicate n none, modifiedIndices := [] }

def get (o : Overlay n α) (i : Fin n) : α :=
  match o.modified.get i with
  | some a => a
  | none => o.base.get i

def set (o : Overlay n α) (i : Fin n) (a : α) : Overlay n α :=
  { o with
    modifiedIndices :=
      if (o.modified.get i).isNone then o.modifiedIndices ++ [i] else o.modifiedIndices
    modified := o.modified.set i (some a) }

/-- Forget what was written at a place. -/
def clear (modified : Vector (Option α) n) (i : Fin n) : Vector (Option α) n := modified.set i none

/-- Forget what was written, at the places that are noted. -/
def reset (o : Overlay n α) : Overlay n α :=
  { o with
    modified := o.modifiedIndices.foldl clear o.modified
    modifiedIndices := [] }

instance : Memory (Overlay n α) n α where
  get := get
  set := set
  toSlice o := Vector.ofFn o.get

/-- Every place that was written is noted. -/
def Noted (o : Overlay n α) : Prop :=
  ∀ i, (o.modified.get i).isSome = true → i ∈ o.modifiedIndices

theorem get_set_modified (modified : Vector (Option α) n) (i j : Fin n) (a : Option α) :
    (modified.set i a).get j = if i = j then a else modified.get j :=
  LawfulMemory.get_set modified i j a

instance : LawfulMemory (Overlay n α) where
  get_set o i j a := by
    show (match (o.modified.set i (some a)).get j with
      | some a => a
      | none => o.base.get j) = if i = j then a else o.get j
    rw [get_set_modified]
    by_cases h : i = j
    · simp [h]
    · simp [h, get]
  toSlice_get o i := by
    show (Vector.ofFn o.get)[i.val] = o.get i
    rw [Vector.getElem_ofFn]

theorem noted_new (base : Vector α n) : (new base).Noted := by
  intro i h
  have hnone : (new base).modified.get i = none := Vector.getElem_replicate i.isLt
  rw [hnone] at h
  cases h

theorem Noted.set {o : Overlay n α} (h : o.Noted) (i : Fin n) (a : α) : (o.set i a).Noted := by
  intro j hj
  show j ∈ (if (o.modified.get i).isNone then o.modifiedIndices ++ [i] else o.modifiedIndices)
  by_cases hij : i = j
  · subst hij
    by_cases hnone : (o.modified.get i).isNone = true
    · simp [hnone]
    · rw [if_neg hnone]
      apply h
      rw [Option.isNone_iff_eq_none] at hnone
      exact Option.isSome_iff_ne_none.mpr hnone
  · have hkept : (o.modified.get j).isSome = true := by
      have hget := get_set_modified o.modified i j (some a)
      rw [if_neg hij] at hget
      rw [← hget]
      exact hj
    split
    · exact List.mem_append_left _ (h j hkept)
    · exact h j hkept

theorem get_foldl_clear (list : List (Fin n)) (modified : Vector (Option α) n) (j : Fin n) :
    (j ∈ list → (list.foldl clear modified).get j = none) ∧
      (j ∉ list → (list.foldl clear modified).get j = modified.get j) := by
  induction list generalizing modified with
  | nil => simp
  | cons i list ih =>
    obtain ⟨hmem, hnot⟩ := ih (clear modified i)
    rw [List.foldl_cons]
    by_cases hj : j ∈ list
    · simp [hj, hmem hj]
    · rw [hnot hj, clear, get_set_modified]
      by_cases hij : i = j
      · simp [hij]
      · simp [hj, hij, Ne.symm hij]

/-- An overlay that notes what it holds is its base again. -/
theorem Noted.reset {o : Overlay n α} (h : o.Noted) :
    o.reset.Noted ∧ SameContents o.reset o.base := by
  have hnone (i : Fin n) : o.reset.modified.get i = none := by
    show (o.modifiedIndices.foldl clear o.modified).get i = none
    obtain ⟨hmem, hnot⟩ := get_foldl_clear o.modifiedIndices o.modified i
    by_cases hi : i ∈ o.modifiedIndices
    · exact hmem hi
    · rw [hnot hi]
      by_contra hsome
      exact hi (h i (Option.isSome_iff_ne_none.mpr hsome))
  constructor
  · intro i hi
    rw [hnone i] at hi
    cases hi
  · intro i
    show (match o.reset.modified.get i with
      | some a => a
      | none => o.base.get i) = o.base.get i
    rw [hnone i]

end Overlay

/-! ## Chains -/

namespace Chain

variable (next : Option α → ℕ → α)

/-- The value at a place, computed from the value before it. -/
def value : ℕ → α
  | 0 => next none 0
  | i + 1 => next (some (value i)) (i + 1)

/-- The first values, each pushed behind the last one. -/
def eager : ℕ → List α
  | 0 => []
  | k + 1 => eager k ++ [next (eager k).getLast? k]

/-- The value at a place, with those before it as far as they are not known yet. -/
def demand : (i : ℕ) → i < n → Vector (Option α) n → α × Vector (Option α) n
  | 0, hi, known =>
    match known[0] with
    | some a => (a, known)
    | none => (next none 0, known.set 0 (some (next none 0)))
  | i + 1, hi, known =>
    match known[i + 1] with
    | some a => (a, known)
    | none =>
      let (prev, known) := demand i (Nat.lt_of_succ_lt hi) known
      let a := next (some prev) (i + 1)
      (a, known.set (i + 1) (some a))

@[simp] theorem length_eager (k : ℕ) : (eager next k).length = k := by
  induction k with
  | zero => rfl
  | succ k ih => simp [eager, ih]

variable {next}

theorem getLast?_eager (k : ℕ) : (eager next (k + 1)).getLast? = some (value next k) := by
  induction k with
  | zero => rfl
  | succ k ih =>
    rw [eager, List.getLast?_concat, ih]
    rfl

theorem getElem_eager {k i : ℕ} (hi : i < (eager next k).length) :
    (eager next k)[i] = value next i := by
  induction k with
  | zero => exact absurd hi (Nat.not_lt_zero i)
  | succ k ih =>
    have hlast : next (eager next k).getLast? k = value next k := by
      cases k with
      | zero => rfl
      | succ k =>
        rw [getLast?_eager]
        rfl
    rw [length_eager] at hi
    simp only [eager]
    by_cases hk : i < k
    · rw [List.getElem_append_left (by simpa using hk)]
      exact ih (by simpa using hk)
    · have hik : i = k := by omega
      subst hik
      rw [List.getElem_append_right (by simp)]
      simpa using hlast

/-- Chains with the same first value and the same steps are equal. -/
theorem value_congr {next' : Option α → ℕ → α} (hfirst : next none 0 = next' none 0)
    (hstep : ∀ a i, next (some a) i = next' (some a) i) (i : ℕ) : value next i = value next' i := by
  induction i with
  | zero => exact hfirst
  | succ i ih =>
    rw [value, value, ih]
    exact hstep _ _

/-- What is known is right. -/
def Known (next : Option α → ℕ → α) (known : Vector (Option α) n) : Prop :=
  ∀ (i : ℕ) (hi : i < n) (a : α), known[i] = some a → a = value next i

theorem known_none : Known next (Vector.replicate n none) := by
  intro i hi a h
  rw [Vector.getElem_replicate] at h
  cases h

theorem Known.set {known : Vector (Option α) n} (h : Known next known) {i : ℕ} (hi : i < n) :
    Known next (known.set i (some (value next i))) := by
  intro j hj a hget
  rw [Vector.getElem_set] at hget
  by_cases hij : i = j
  · rw [if_pos hij] at hget
    rw [← Option.some.inj hget, hij]
  · rw [if_neg hij] at hget
    exact h j hj a hget

/-- A value that is asked for is the value of the chain, and what is known stays right. -/
theorem Known.demand {known : Vector (Option α) n} (h : Known next known) (i : ℕ) (hi : i < n) :
    (Chain.demand next i hi known).1 = value next i ∧
      Known next (Chain.demand next i hi known).2 := by
  induction i generalizing known with
  | zero =>
    rw [Chain.demand]
    cases hget : known[0] with
    | some a => exact ⟨h 0 hi a hget, h⟩
    | none => exact ⟨rfl, h.set hi⟩
  | succ i ih =>
    rw [Chain.demand]
    cases hget : known[i + 1] with
    | some a => exact ⟨h (i + 1) hi a hget, h⟩
    | none =>
      obtain ⟨hprev, hknown⟩ := ih h (Nat.lt_of_succ_lt hi)
      have hvalue : next (some (Chain.demand next i (Nat.lt_of_succ_lt hi) known).1) (i + 1) =
          value next (i + 1) := by
        rw [hprev]
        rfl
      refine ⟨hvalue, ?_⟩
      dsimp only
      rw [hvalue]
      exact hknown.set hi

end Chain

end Addressed
