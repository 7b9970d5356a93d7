import Mathlib.Data.Set.Function
import Mathlib.Data.List.Basic
import Mathlib.Tactic.Common

/-!
# Merkle trees over lists

The values of a level are combined in pairs to the level above, the last one with itself where it
has no partner, until one value is left. A path of siblings leads from a value to the root.

* `root`, `siblings`, `climb` : the root, the path of a value, and where a path leads.
* `climb_siblings` : the path of a value leads to the root.
* `mem_of_climb` : without collisions only values of the level have paths to the root.
-/

namespace Merkle

variable {α : Type*} (parent : α → α → α)

/-! ## Levels -/

/-- The pairs of a level. -/
def levelPairs : List α → List (α × α)
  | [] => []
  | [a] => [(a, a)]
  | a :: b :: rest => (a, b) :: levelPairs rest

def combine (pair : α × α) : α := parent pair.1 pair.2

def parentLevel (level : List α) : List α := (levelPairs level).map (combine parent)

@[simp] theorem length_levelPairs (level : List α) :
    (levelPairs level).length = (level.length + 1) / 2 := by
  induction level using levelPairs.induct with
  | case1 => simp [levelPairs]
  | case2 a => simp [levelPairs]
  | case3 a b rest ih =>
    simp only [levelPairs, List.length_cons, ih]
    omega

@[simp] theorem length_parentLevel (level : List α) :
    (parentLevel parent level).length = (level.length + 1) / 2 := by
  simp [parentLevel]

theorem parentLevel_ne_nil {level : List α} (h : level ≠ []) : parentLevel parent level ≠ [] := by
  have hpos := List.length_pos_iff.mpr h
  apply List.ne_nil_of_length_pos
  rw [length_parentLevel]
  omega

theorem mem_of_mem_levelPairs {level : List α} {pair : α × α} (h : pair ∈ levelPairs level) :
    pair.1 ∈ level ∧ pair.2 ∈ level := by
  induction level using levelPairs.induct with
  | case1 => cases h
  | case2 a =>
    rw [levelPairs, List.mem_singleton] at h
    simp [h]
  | case3 a b rest ih =>
    rw [levelPairs, List.mem_cons] at h
    rcases h with rfl | h
    · simp
    · have hrest := ih h
      simp [hrest.1, hrest.2]

/-- The pair of a value, which is its partner or itself. -/
theorem getElem_levelPairs {level : List α} {i : ℕ} (hi : i < (levelPairs level).length)
    (hleft : 2 * i < level.length) (hright : min (2 * i + 1) (level.length - 1) < level.length) :
    (levelPairs level)[i] = (level[2 * i], level[min (2 * i + 1) (level.length - 1)]) := by
  induction level using levelPairs.induct generalizing i with
  | case1 => simp at hi
  | case2 a =>
    have hzero : i = 0 := by
      simp at hi
      omega
    subst hzero
    rfl
  | case3 a b rest ih =>
    cases i with
    | zero => simp [levelPairs]
    | succ i =>
      have hrest : 2 * i < rest.length := by
        simp only [List.length_cons] at hleft
        omega
      have hmin : min (2 * i + 2 + 1) ((a :: b :: rest).length - 1) =
          min (2 * i + 1) (rest.length - 1) + 2 := by
        simp only [List.length_cons]
        omega
      have hdouble : 2 * (i + 1) = 2 * i + 2 := by omega
      simp only [levelPairs, List.getElem_cons_succ, hdouble, hmin]
      exact ih (by simpa [levelPairs] using hi) hrest (by omega)

/-! ## The root -/

/-- The value that is left at the top. -/
def root : (level : List α) → level ≠ [] → α
  | [a], _ => a
  | a :: b :: rest, h =>
    root (parentLevel parent (a :: b :: rest)) (parentLevel_ne_nil parent h)
termination_by level => level.length
decreasing_by
  simp only [length_parentLevel, List.length_cons]
  omega

theorem root_singleton (a : α) (h : [a] ≠ []) : root parent [a] h = a := by
  rw [root]

theorem root_parentLevel {level : List α} (h : level ≠ []) (hmany : 1 < level.length) :
    root parent level h = root parent (parentLevel parent level) (parentLevel_ne_nil parent h) := by
  match level, hmany with
  | a :: b :: rest, _ => rw [root]

theorem root_congr {level level' : List α} (h : level = level') (hlevel : level ≠ [])
    (hlevel' : level' ≠ []) : root parent level hlevel = root parent level' hlevel' := by
  subst h
  rfl

/-- A level of one value, or one whose root is that of the level above. -/
theorem level_cases {level : List α} (h : level ≠ []) : (∃ a, level = [a]) ∨ 1 < level.length := by
  have hpos := List.length_pos_iff.mpr h
  by_cases hone : level.length = 1
  · exact Or.inl (List.length_eq_one_iff.mp hone)
  · exact Or.inr (by omega)

/-! ## Paths -/

/-- A value of a path, and whether it stands on the left. -/
structure Sibling (α : Type*) where
  hash : α
  isLeft : Bool
deriving DecidableEq

/-- The two values that a step of a path combines. -/
def Sibling.pair (sibling : Sibling α) (current : α) : α × α :=
  if sibling.isLeft then (sibling.hash, current) else (current, sibling.hash)

/-- Where a path leads. -/
def climb (current : α) (path : List (Sibling α)) : α :=
  path.foldl (fun current sibling => combine parent (sibling.pair current)) current

/-- The place of the sibling of a value. -/
def siblingIndex (length index : ℕ) : ℕ :=
  if index % 2 = 0 then min (index + 1) (length - 1) else index - 1

theorem siblingIndex_lt {length index : ℕ} (h : index < length) :
    siblingIndex length index < length := by
  unfold siblingIndex
  split <;> omega

/-- The path of a value. -/
def siblings (level : List α) (index : ℕ) (h : index < level.length) : List (Sibling α) :=
  if hmany : 1 < level.length then
    let sibling := siblingIndex level.length index
    { hash := level.get ⟨sibling, siblingIndex_lt h⟩, isLeft := sibling < index } ::
      siblings (parentLevel parent level) (index / 2) (by
        rw [length_parentLevel]
        omega)
  else []
termination_by level.length
decreasing_by
  simp only [length_parentLevel]
  omega

variable {parent}

/-- The first step of the path of a value leads to the level above. -/
theorem combine_sibling {level : List α} {index : ℕ} (h : index < level.length)
    (habove : index / 2 < (parentLevel parent level).length) :
    combine parent (Sibling.pair
      { hash := level.get ⟨siblingIndex level.length index, siblingIndex_lt h⟩
        isLeft := siblingIndex level.length index < index } level[index]) =
      (parentLevel parent level)[index / 2] := by
  have hpairs : index / 2 < (levelPairs level).length := by simpa [parentLevel] using habove
  simp only [parentLevel, List.getElem_map, List.get_eq_getElem]
  rw [getElem_levelPairs hpairs (by omega) (by omega)]
  congr 1
  unfold Sibling.pair
  by_cases heven : index % 2 = 0
  · have hdouble : 2 * (index / 2) = index := by omega
    have hsibling : siblingIndex level.length index = min (index + 1) (level.length - 1) :=
      if_pos heven
    have hright : ¬min (index + 1) (level.length - 1) < index := by omega
    simp only [hsibling, hright, hdouble, decide_false, Bool.false_eq_true, if_false]
  · have hdouble : 2 * (index / 2) = index - 1 := by omega
    have hself : min (2 * (index / 2) + 1) (level.length - 1) = index := by omega
    have hsibling : siblingIndex level.length index = index - 1 := if_neg heven
    have hleft : index - 1 < index := by omega
    simp only [hsibling, hleft, hdouble, decide_true, if_true, Prod.mk.injEq, true_and]
    congr 1
    omega

/-- The path of a value leads to the root. -/
theorem climb_siblings {level : List α} (hlevel : level ≠ []) {index : ℕ}
    (h : index < level.length) :
    climb parent level[index] (siblings parent level index h) = root parent level hlevel := by
  rw [siblings]
  rcases level_cases hlevel with ⟨a, rfl⟩ | hmany
  · have hzero : index = 0 := by simpa using h
    subst hzero
    simp [climb, root_singleton]
  · have habove : index / 2 < (parentLevel parent level).length := by
      rw [length_parentLevel]
      omega
    rw [dif_pos hmany, root_parentLevel parent hlevel hmany,
      ← climb_siblings (parentLevel_ne_nil parent hlevel) habove, ← combine_sibling h habove]
    rfl
termination_by level.length
decreasing_by
  simp only [length_parentLevel]
  omega

/-! ## What a root commits to -/

variable (parent) in
/-- All pairs that are combined on the way to the root. -/
def pairs (level : List α) : List (α × α) :=
  if 1 < level.length then levelPairs level ++ pairs (parentLevel parent level) else []
termination_by level.length
decreasing_by
  simp only [length_parentLevel]
  omega

variable (parent) in
/-- The pairs that a path combines. -/
def climbPairs (current : α) : List (Sibling α) → List (α × α)
  | [] => []
  | sibling :: path =>
    sibling.pair current :: climbPairs (combine parent (sibling.pair current)) path

variable (parent) in
/-- The values of a tree: those of its level and those that are combined. -/
def InTree (level : List α) (a : α) : Prop :=
  a ∈ level ∨ ∃ pair ∈ pairs parent level, combine parent pair = a

/-- A value above a level is a value of the tree. -/
theorem InTree.of_parentLevel {level : List α} (hmany : 1 < level.length) {a : α}
    (h : InTree parent (parentLevel parent level) a) : InTree parent level a := by
  right
  rw [pairs, if_pos hmany]
  rcases h with hmem | ⟨pair, hpair, rfl⟩
  · obtain ⟨pair, hpair, rfl⟩ := List.mem_map.mp hmem
    exact ⟨pair, List.mem_append_left _ hpair, rfl⟩
  · exact ⟨pair, List.mem_append_right _ hpair, rfl⟩

theorem inTree_root {level : List α} (hlevel : level ≠ []) :
    InTree parent level (root parent level hlevel) := by
  rcases level_cases hlevel with ⟨a, rfl⟩ | hmany
  · rw [root_singleton]
    exact Or.inl (List.mem_singleton_self a)
  · rw [root_parentLevel parent hlevel hmany]
    exact (inTree_root (parentLevel_ne_nil parent hlevel)).of_parentLevel hmany
termination_by level.length
decreasing_by
  simp only [length_parentLevel]
  omega

/-- Both parts of a pair are values of the tree. -/
theorem inTree_of_mem_pairs {level : List α} {pair : α × α} (h : pair ∈ pairs parent level) :
    InTree parent level pair.1 ∧ InTree parent level pair.2 := by
  rw [pairs] at h
  split at h
  · rename_i hmany
    rcases List.mem_append.mp h with hpair | hpair
    · obtain ⟨hleft, hright⟩ := mem_of_mem_levelPairs hpair
      exact ⟨Or.inl hleft, Or.inl hright⟩
    · obtain ⟨hleft, hright⟩ := inTree_of_mem_pairs hpair
      exact ⟨hleft.of_parentLevel hmany, hright.of_parentLevel hmany⟩
  · cases h
termination_by level.length
decreasing_by
  simp only [length_parentLevel]
  omega

/-- Where a path leads into the tree, it starts in the tree, unless two pairs collide or a value of
the level is itself combined. -/
theorem inTree_of_climb {level : List α} {path : List (Sibling α)} {x : α}
    (hinj : Set.InjOn (combine parent)
      {pair | pair ∈ pairs parent level ∨ pair ∈ climbPairs parent x path})
    (hlevel : ∀ a ∈ level, ∀ pair ∈ climbPairs parent x path, combine parent pair ≠ a)
    (h : InTree parent level (climb parent x path)) : InTree parent level x := by
  induction path generalizing x with
  | nil => exact h
  | cons sibling path ih =>
    have hfirst : sibling.pair x ∈ climbPairs parent x (sibling :: path) := List.mem_cons_self
    have hrest {pair : α × α} (hpair : pair ∈ climbPairs parent _ path) :
        pair ∈ climbPairs parent x (sibling :: path) := List.mem_cons_of_mem _ hpair
    have hnext : InTree parent level (combine parent (sibling.pair x)) := by
      apply ih
      · exact hinj.mono fun pair hpair => hpair.imp id hrest
      · intro a ha pair hpair
        exact hlevel a ha pair (hrest hpair)
      · exact h
    rcases hnext with hmem | ⟨pair, hpair, heq⟩
    · exact absurd rfl (hlevel _ hmem _ hfirst)
    · have hsame : pair = sibling.pair x := hinj (Or.inl hpair) (Or.inr hfirst) heq
      obtain ⟨hleft, hright⟩ := inTree_of_mem_pairs hpair
      rw [hsame] at hleft hright
      unfold Sibling.pair at hleft hright
      split at hleft
      · rename_i hside
        rw [if_pos hside] at hright
        exact hright
      · exact hleft

/-- Without collisions only values of the level have paths to the root. -/
theorem mem_of_climb {level : List α} (hne : level ≠ []) {path : List (Sibling α)} {x : α}
    (hinj : Set.InjOn (combine parent)
      {pair | pair ∈ pairs parent level ∨ pair ∈ climbPairs parent x path})
    (hlevel : ∀ a ∈ level, ∀ pair ∈ climbPairs parent x path, combine parent pair ≠ a)
    (hx : ∀ pair ∈ pairs parent level, combine parent pair ≠ x)
    (h : climb parent x path = root parent level hne) : x ∈ level := by
  have hin : InTree parent level x := by
    apply inTree_of_climb hinj hlevel
    rw [h]
    exact inTree_root hne
  rcases hin with hmem | ⟨pair, hpair, heq⟩
  · exact hmem
  · exact absurd heq (hx pair hpair)

end Merkle
