import Mathlib.Algebra.BigOperators.Group.List.Basic
import Mathlib.Data.List.Perm.Basic
import Mathlib.Algebra.Order.Monoid.Canonical.Defs
import Mathlib.Tactic.Abel
import Mathlib.Tactic.Common

/-!
# Totals over finite maps

A ledger is a finite map from names to records, and what is conserved is the sum of one
number over its records. `total f m` is that sum for an ordered finite map `m`. The
lemmas say how the sum moves under the operations of the map: an insertion adds the new
record and takes away the one it replaces, an erasure takes away what was there, and a
map that keeps every record's number keeps the sum.
-/

namespace FiniteMap

open Std (ExtTreeMap ExtTreeSet TransOrd LawfulEqOrd)

variable {κ ν M : Type*} [Ord κ] [TransOrd κ]

/-! ## Entries -/

section Entries

variable [LawfulEqOrd κ]

theorem nodup_toList (m : ExtTreeMap κ ν) : m.toList.Nodup := by
  refine m.distinct_keys_toList.imp ?_
  rintro a b h rfl
  exact h (Std.ReflCmp.compare_self)

theorem mem_toList {m : ExtTreeMap κ ν} {k : κ} {v : ν} :
    (k, v) ∈ m.toList ↔ m[k]? = some v :=
  ExtTreeMap.mem_toList_iff_getElem?_eq_some

/-- A map is rebuilt from its entries. -/
theorem ofList_toList (m : ExtTreeMap κ ν) : ExtTreeMap.ofList m.toList = m := by
  classical
  refine ExtTreeMap.ext_getElem? fun k => ?_
  cases h : m[k]? with
  | some v =>
    exact ExtTreeMap.getElem?_ofList_of_mem Std.ReflCmp.compare_self m.distinct_keys_toList
      (mem_toList.mpr h)
  | none =>
    refine ExtTreeMap.getElem?_ofList_of_contains_eq_false ?_
    rw [List.contains_eq_mem, decide_eq_false_iff_not, List.mem_map]
    rintro ⟨⟨k', v⟩, hmem, rfl⟩
    rw [mem_toList.mp hmem] at h
    cases h

/-- Entries may be flattened on the way, as long as they can be recovered. -/
theorem ofList_map_toList {α : Type*} (m : ExtTreeMap κ ν) {f : κ × ν → α}
    {g : α → κ × ν} (h : ∀ e, g (f e) = e) :
    ExtTreeMap.ofList ((m.toList.map f).map g) = m := by
  have hid : (m.toList.map f).map g = m.toList := by
    rw [List.map_map]
    exact (List.map_congr_left fun e _ => h e).trans (List.map_id _)
  rw [hid, ofList_toList]

/-- A set is rebuilt from its elements. -/
theorem setOfList_toList (s : ExtTreeSet κ) : ExtTreeSet.ofList s.toList = s := by
  classical
  refine ExtTreeSet.ext_mem fun k => ?_
  rw [ExtTreeSet.mem_ofList, List.contains_eq_mem, decide_eq_true_iff, ExtTreeSet.mem_toList]

theorem getElem?_insert' (m : ExtTreeMap κ ν) (k a : κ) (v : ν) [Decidable (k = a)] :
    (m.insert k v)[a]? = if k = a then some v else m[a]? := by
  rw [ExtTreeMap.getElem?_insert]
  exact if_congr Std.LawfulEqOrd.compare_eq_iff_eq rfl rfl

theorem getElem?_erase' (m : ExtTreeMap κ ν) (k a : κ) [Decidable (k = a)] :
    (m.erase k)[a]? = if k = a then none else m[a]? := by
  rw [ExtTreeMap.getElem?_erase]
  exact if_congr Std.LawfulEqOrd.compare_eq_iff_eq rfl rfl

theorem getElem?_insert_self (m : ExtTreeMap κ ν) (k : κ) (v : ν) :
    (m.insert k v)[k]? = some v := by
  classical
  rw [getElem?_insert', if_pos rfl]

theorem getElem?_insert_of_ne (m : ExtTreeMap κ ν) {k a : κ} (v : ν) (h : k ≠ a) :
    (m.insert k v)[a]? = m[a]? := by
  classical
  rw [getElem?_insert', if_neg h]

/-- Writing back what is already stored changes nothing. -/
theorem insert_eq_self {m : ExtTreeMap κ ν} {k : κ} {v : ν} (h : m[k]? = some v) :
    m.insert k v = m := by
  classical
  refine ExtTreeMap.ext_getElem? fun a => ?_
  rw [getElem?_insert']
  split
  · rename_i e
    rw [← e, h]
  · rfl

theorem erase_eq_self {m : ExtTreeMap κ ν} {k : κ} (h : m[k]? = none) : m.erase k = m := by
  classical
  refine ExtTreeMap.ext_getElem? fun a => ?_
  rw [getElem?_erase']
  split
  · rename_i e
    rw [← e, h]
  · rfl

theorem insert_perm (m : ExtTreeMap κ ν) (k : κ) (v : ν) :
    (m.insert k v).toList.Perm ((k, v) :: (m.erase k).toList) := by
  classical
  refine (List.perm_ext_iff_of_nodup (nodup_toList _) ?_).mpr ?_
  · refine List.nodup_cons.mpr ⟨?_, nodup_toList _⟩
    rw [mem_toList, getElem?_erase', if_pos rfl]
    simp
  · rintro ⟨a, w⟩
    rw [mem_toList, List.mem_cons, mem_toList, getElem?_insert', getElem?_erase', Prod.mk.injEq]
    by_cases h : k = a
    · subst h
      simp [eq_comm]
    · simp [h, Ne.symm h]

theorem toList_singleton (k : κ) (v : ν) :
    ((∅ : ExtTreeMap κ ν).insert k v).toList = [(k, v)] := by
  refine List.perm_singleton.mp ((insert_perm ∅ k v).trans ?_)
  rw [erase_eq_self (by simp)]
  exact List.Perm.refl _

end Entries

/-! ## Totals -/

section Totals

variable [AddCommMonoid M] (f : ν → M)

/-- The sum of `f` over the records of the map. -/
def total (m : ExtTreeMap κ ν) : M := (m.toList.map fun p => f p.2).sum

@[simp] theorem total_empty : total f (∅ : ExtTreeMap κ ν) = 0 := rfl

/-- A count of records is the total of ones. -/
theorem countP_eq_total (p : ν → Prop) [DecidablePred p] (m : ExtTreeMap κ ν) :
    (m.toList.countP fun e => p e.2) = total (fun v => if p v then 1 else 0) m := by
  unfold total
  generalize m.toList = entries
  induction entries with
  | nil => rfl
  | cons e entries ih =>
    rw [List.countP_cons, List.map_cons, List.sum_cons, ← ih, Nat.add_comm]
    by_cases h : p e.2 <;> simp [h]

variable [LawfulEqOrd κ]

theorem total_insert_erase (m : ExtTreeMap κ ν) (k : κ) (v : ν) :
    total f (m.insert k v) = f v + total f (m.erase k) := by
  unfold total
  rw [((insert_perm m k v).map fun p => f p.2).sum_eq, List.map_cons, List.sum_cons]

theorem total_eq_add_erase {m : ExtTreeMap κ ν} {k : κ} {v : ν} (h : m[k]? = some v) :
    total f m = f v + total f (m.erase k) := by
  conv_lhs => rw [← insert_eq_self h]
  exact total_insert_erase f m k v

/-- A record under a new name adds its number. -/
theorem total_insert_new {m : ExtTreeMap κ ν} {k : κ} (h : m[k]? = none) (v : ν) :
    total f (m.insert k v) = f v + total f m := by
  rw [total_insert_erase, erase_eq_self h]

/-- Replacing a record moves the total from the old number to the new one. -/
theorem total_insert_of_some {m : ExtTreeMap κ ν} {k : κ} {v : ν} (h : m[k]? = some v) (w : ν) :
    total f (m.insert k w) + f v = total f m + f w := by
  rw [total_insert_erase, total_eq_add_erase f h]
  abel

/-- Totals of numbers that agree on the records. -/
theorem total_congr {g : ν → M} {m : ExtTreeMap κ ν}
    (h : ∀ (k : κ) (v : ν), m[k]? = some v → f v = g v) : total f m = total g m := by
  unfold total
  refine congrArg List.sum (List.map_congr_left ?_)
  rintro ⟨k, v⟩ hmem
  exact h k v (mem_toList.mp hmem)

variable [PartialOrder M] [CanonicallyOrderedAdd M]

/-- No record holds more than the total. -/
theorem le_total {m : ExtTreeMap κ ν} {k : κ} {v : ν} (h : m[k]? = some v) :
    f v ≤ total f m := by
  rw [total_eq_add_erase f h]
  exact le_self_add

end Totals

end FiniteMap
