import Opolys.Library.FiniteMap

/-!
# Registries

A registry is a finite map whose records carry their own names: the record stored under
`k` is a record named `k`. Programs keep such maps when a record's identity is one of its
fields. The law is a field of the structure, so a record is written with `put`, which
needs no name beside it, and a reader never has to compare the two.

* `put`, `erase`, `update` : writing, with the lookups after them.
* `values`, `ofList` : flattening and rebuilding; `ofList_values` says nothing is lost.
* `total` : the sum of one number over the records, and how it moves.
-/

open Std (ExtTreeMap TransOrd LawfulEqOrd)

/-- A finite map from names to records, where `name` reads the name of a record. -/
structure Registry {κ ν : Type*} [Ord κ] [TransOrd κ] (name : ν → κ) where
  /-- The records by name. -/
  records : ExtTreeMap κ ν
  /-- Every record is stored under its own name. -/
  name_eq : ∀ {k v}, records[k]? = some v → name v = k

namespace Registry

variable {κ ν M : Type*} [Ord κ] [TransOrd κ] {name : ν → κ}

/-- The record named `k`. -/
def get? (r : Registry name) (k : κ) : Option ν := r.records[k]?

/-- Whether there is a record named `k`. -/
def contains (r : Registry name) (k : κ) : Bool := (r.get? k).isSome

/-- The records in the order of their names. -/
def values (r : Registry name) : List ν := r.records.toList.map Prod.snd

/-- The registry without records. -/
def empty : Registry name := ⟨∅, by simp⟩

theorem ext_get? [LawfulEqOrd κ] {r s : Registry name} (h : ∀ k, r.get? k = s.get? k) :
    r = s := by
  obtain ⟨m, hm⟩ := r
  obtain ⟨n, hn⟩ := s
  obtain rfl : m = n := ExtTreeMap.ext_getElem? h
  rfl

theorem name_of_get? {r : Registry name} {k : κ} {v : ν} (h : r.get? k = some v) : name v = k :=
  r.name_eq h

@[simp] theorem get?_empty (k : κ) : (empty : Registry name).get? k = none := by
  simp [get?, empty]

variable [LawfulEqOrd κ]

/-! ## Writing -/

/-- Store a record under its name. -/
def put (r : Registry name) (v : ν) : Registry name where
  records := r.records.insert (name v) v
  name_eq {k w} h := by
    classical
    rw [FiniteMap.getElem?_insert'] at h
    split at h
    · rename_i hk
      cases h
      exact hk
    · exact r.name_eq h

/-- Remove the record named `k`. -/
def erase (r : Registry name) (k : κ) : Registry name where
  records := r.records.erase k
  name_eq {l w} h := by
    classical
    rw [FiniteMap.getElem?_erase'] at h
    split at h
    · cases h
    · exact r.name_eq h

/-- Replace the record named `k`, if there is one. -/
def update (r : Registry name) (k : κ) (f : ν → ν) : Registry name :=
  match r.get? k with
  | some v => r.put (f v)
  | none => r

theorem get?_put [DecidableEq κ] (r : Registry name) (v : ν) (k : κ) :
    (r.put v).get? k = if name v = k then some v else r.get? k :=
  FiniteMap.getElem?_insert' _ _ _ _

@[simp] theorem get?_put_name (r : Registry name) (v : ν) : (r.put v).get? (name v) = some v :=
  FiniteMap.getElem?_insert_self _ _ _

theorem get?_put_of_ne (r : Registry name) {v : ν} {k : κ} (h : name v ≠ k) :
    (r.put v).get? k = r.get? k :=
  FiniteMap.getElem?_insert_of_ne _ _ h

theorem get?_erase [DecidableEq κ] (r : Registry name) (k l : κ) :
    (r.erase k).get? l = if k = l then none else r.get? l :=
  FiniteMap.getElem?_erase' _ _ _

theorem update_of_some {r : Registry name} {k : κ} {v : ν} (h : r.get? k = some v) (f : ν → ν) :
    r.update k f = r.put (f v) := by
  rw [update, h]

theorem update_of_none {r : Registry name} {k : κ} (h : r.get? k = none) (f : ν → ν) :
    r.update k f = r := by
  rw [update, h]

/-- A replacement that keeps the name is seen under that name only. -/
theorem get?_update [DecidableEq κ] {f : ν → ν} (hf : ∀ v, name (f v) = name v)
    (r : Registry name) (k l : κ) :
    (r.update k f).get? l = if k = l then (r.get? l).map f else r.get? l := by
  cases h : r.get? k with
  | none =>
    rw [update_of_none h]
    split
    · rename_i hkl
      rw [← hkl, h]
      rfl
    · rfl
  | some v =>
    rw [update_of_some h, get?_put, hf, name_of_get? h]
    split
    · rename_i hkl
      rw [← hkl, h]
      rfl
    · rfl

theorem put_of_get? {r : Registry name} {k : κ} {v : ν} (h : r.get? k = some v) : r.put v = r := by
  refine ext_get? fun l => ?_
  classical
  rw [get?_put, name_of_get? h]
  split
  · rename_i hkl
    rw [← hkl, h]
  · rfl

theorem put_put (r : Registry name) {v w : ν} (h : name v = name w) :
    (r.put v).put w = r.put w := by
  refine ext_get? fun l => ?_
  classical
  rw [get?_put, get?_put, get?_put, h]
  split <;> rfl

theorem put_comm (r : Registry name) {v w : ν} (h : name v ≠ name w) :
    (r.put v).put w = (r.put w).put v := by
  refine ext_get? fun l => ?_
  classical
  simp only [get?_put]
  split <;> split <;> simp_all

/-! ## Flattening -/

theorem mem_values {r : Registry name} {v : ν} : v ∈ r.values ↔ r.get? (name v) = some v := by
  constructor
  · intro h
    obtain ⟨⟨k, w⟩, hmem, rfl⟩ := List.mem_map.mp h
    have hk := FiniteMap.mem_toList.mp hmem
    rw [r.name_eq hk]
    exact hk
  · intro h
    exact List.mem_map.mpr ⟨_, FiniteMap.mem_toList.mpr h, rfl⟩

theorem mem_values_put_new {r : Registry name} {v w : ν} (h : r.get? (name v) = none) :
    w ∈ (r.put v).values ↔ w = v ∨ w ∈ r.values := by
  classical
  rw [mem_values, mem_values, get?_put]
  split
  · rename_i hname
    rw [← hname, h]
    simp [eq_comm]
  · rename_i hname
    rw [or_iff_right]
    rintro rfl
    exact hname rfl

theorem get?_eq_some {r : Registry name} {k : κ} {v : ν} :
    r.get? k = some v ↔ v ∈ r.values ∧ name v = k := by
  rw [mem_values]
  constructor
  · intro h
    rw [name_of_get? h]
    exact ⟨h, rfl⟩
  · rintro ⟨h, rfl⟩
    exact h

theorem map_name_values (r : Registry name) :
    r.values.map name = r.records.toList.map Prod.fst := by
  unfold values
  rw [List.map_map]
  refine List.map_congr_left ?_
  rintro ⟨k, v⟩ h
  exact r.name_eq (FiniteMap.mem_toList.mp h)

theorem nodup_map_name_values (r : Registry name) : (r.values.map name).Nodup := by
  rw [map_name_values]
  refine List.pairwise_map.mpr (r.records.distinct_keys_toList.imp ?_)
  rintro a b h e
  exact h (Std.LawfulEqOrd.compare_eq_iff_eq.mpr e)

theorem nodup_values (r : Registry name) : r.values.Nodup :=
  (List.pairwise_map.mp (nodup_map_name_values r)).imp fun h e => h (congrArg name e)

/-- The registry of the records of a list, where a later record replaces an earlier one
of the same name. -/
def ofList (vs : List ν) : Registry name := vs.foldl put empty

theorem get?_foldl_put_of_notMem {vs : List ν} {r : Registry name} {k : κ}
    (h : k ∉ vs.map name) : (vs.foldl put r).get? k = r.get? k := by
  induction vs generalizing r with
  | nil => rfl
  | cons v vs ih =>
    rw [List.map_cons, List.mem_cons, not_or] at h
    rw [List.foldl_cons, ih h.2, get?_put_of_ne r (Ne.symm h.1)]

theorem get?_foldl_put_of_mem {vs : List ν} (hnd : (vs.map name).Nodup) {r : Registry name}
    {v : ν} (h : v ∈ vs) : (vs.foldl put r).get? (name v) = some v := by
  induction vs generalizing r with
  | nil => cases h
  | cons w vs ih =>
    rw [List.map_cons, List.nodup_cons] at hnd
    rw [List.foldl_cons]
    cases h with
    | head => rw [get?_foldl_put_of_notMem hnd.1, get?_put_name]
    | tail _ h => exact ih hnd.2 h

/-- A registry is rebuilt from its records. -/
theorem ofList_values (r : Registry name) : ofList r.values = r := by
  refine ext_get? fun k => ?_
  by_cases hk : k ∈ r.values.map name
  · obtain ⟨v, hv, rfl⟩ := List.mem_map.mp hk
    rw [ofList, get?_foldl_put_of_mem (nodup_map_name_values r) hv, mem_values.mp hv]
  · rw [ofList, get?_foldl_put_of_notMem hk, get?_empty]
    cases h : r.get? k with
    | none => rfl
    | some v => exact absurd (List.mem_map.mpr ⟨v, get?_eq_some.mp h⟩) hk

/-! ## Totals -/

section Totals

variable [AddCommMonoid M] (f : ν → M)

omit [LawfulEqOrd κ] in
/-- The sum of `f` over the records. -/
def total (r : Registry name) : M := FiniteMap.total f r.records

omit [LawfulEqOrd κ] in
@[simp] theorem total_empty : total f (empty : Registry name) = 0 := FiniteMap.total_empty f

omit [LawfulEqOrd κ] in
theorem total_eq_sum_values (r : Registry name) : total f r = (r.values.map f).sum := by
  unfold total FiniteMap.total values
  rw [List.map_map]
  rfl

theorem total_put_new {r : Registry name} {v : ν} (h : r.get? (name v) = none) :
    total f (r.put v) = f v + total f r :=
  FiniteMap.total_insert_new f h v

theorem total_put {r : Registry name} {v w : ν} (h : r.get? (name w) = some v) :
    total f (r.put w) + f v = total f r + f w :=
  FiniteMap.total_insert_of_some f h w

theorem total_erase {r : Registry name} {k : κ} {v : ν} (h : r.get? k = some v) :
    f v + total f (r.erase k) = total f r :=
  (FiniteMap.total_eq_add_erase f h).symm

/-- Writing a record with the same number keeps the total. -/
theorem total_put_of_eq [IsRightCancelAdd M] {r : Registry name} {v w : ν}
    (h : r.get? (name w) = some v) (hf : f w = f v) : total f (r.put w) = total f r := by
  have he := total_put f h
  rw [hf] at he
  exact add_right_cancel he

/-- A replacement that keeps name and number keeps the total. -/
theorem total_update_of_eq [IsRightCancelAdd M] {g : ν → ν} (hname : ∀ v, name (g v) = name v)
    (hf : ∀ v, f (g v) = f v) (r : Registry name) (k : κ) :
    total f (r.update k g) = total f r := by
  cases h : r.get? k with
  | none => rw [update_of_none h]
  | some v =>
    rw [update_of_some h]
    refine total_put_of_eq f (v := v) ?_ (hf v)
    rw [hname, name_of_get? h, h]

variable [PartialOrder M] [CanonicallyOrderedAdd M]

theorem le_total {r : Registry name} {k : κ} {v : ν} (h : r.get? k = some v) : f v ≤ total f r :=
  FiniteMap.le_total f h

end Totals

end Registry
