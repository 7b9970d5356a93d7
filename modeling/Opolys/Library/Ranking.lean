import Mathlib.Data.List.Sort

/-!
# Rankings

A list is ranked by a total order that tells its members apart, and the first `n` of the
ranking are chosen. A member is chosen iff fewer than `n` others are ahead of it
(`mem_top_iff`). Choosing among all members and keeping those that qualify is in general
not the same as choosing among those that qualify: `top_filter_iff` says exactly when
the two agree.
-/

namespace Ranking

variable {α : Type*}

/-! ## Cutting a list -/

theorem mem_drop_iff {l : List α} (hnd : l.Nodup) {n : ℕ} {x : α} :
    x ∈ l.drop n ↔ x ∈ l ∧ x ∉ l.take n := by
  constructor
  · intro h
    exact ⟨List.mem_of_mem_drop h, fun ht => List.disjoint_take_drop hnd (Nat.le_refl n) ht h⟩
  · rintro ⟨hx, hnot⟩
    rw [← List.take_append_drop n l, List.mem_append] at hx
    exact hx.resolve_left hnot

theorem take_filter (l : List α) (n : ℕ) (p : α → Bool) :
    (l.filter p).take n = (l.take n).filter p ++
      ((l.drop n).filter p).take (n - ((l.take n).filter p).length) := by
  have hlength : ((l.take n).filter p).length ≤ n :=
    (List.length_filter_le _ _).trans (List.length_take_le _ _)
  have hsplit : l.filter p = (l.take n).filter p ++ (l.drop n).filter p := by
    rw [← List.filter_append, List.take_append_drop]
  rw [hsplit, List.take_append, List.take_of_length_le hlength]

/-- Cutting after the filter and before it agree unless the filter makes room before the
cut for one beyond it. -/
theorem mem_take_filter_iff {l : List α} (hnd : l.Nodup) {n : ℕ} {p : α → Bool} :
    (∀ x, x ∈ (l.filter p).take n ↔ x ∈ l.take n ∧ p x = true) ↔
      ¬((∃ x ∈ l.take n, p x = false) ∧ ∃ x ∈ l.drop n, p x = true) := by
  rw [take_filter]
  constructor
  · rintro h ⟨⟨x, hx, hpx⟩, y, hy, hpy⟩
    -- a seat is left for the first that qualifies beyond the cut
    have hroom : ((l.take n).filter p).length < n := by
      refine lt_of_lt_of_le ?_ (List.length_take_le n l)
      exact List.length_filter_lt_length_iff_exists.mpr ⟨x, hx, by simp [hpx]⟩
    have hne : (l.drop n).filter p ≠ [] := List.ne_nil_of_mem (List.mem_filter.mpr ⟨hy, hpy⟩)
    obtain ⟨z, zs, hz⟩ := List.exists_cons_of_ne_nil hne
    have hzd : z ∈ (l.drop n).filter p := hz ▸ List.mem_cons_self
    have hseat : z ∈ ((l.drop n).filter p).take (n - ((l.take n).filter p).length) := by
      obtain ⟨k, hk⟩ := Nat.exists_eq_succ_of_ne_zero (Nat.sub_ne_zero_of_lt hroom)
      rw [hz, hk, List.take_succ_cons]
      exact List.mem_cons_self
    have hzt := ((h z).mp (List.mem_append_right _ hseat)).1
    exact List.disjoint_take_drop hnd (Nat.le_refl n) hzt (List.mem_of_mem_filter hzd)
  · intro hnot x
    have hrest : ((l.drop n).filter p).take (n - ((l.take n).filter p).length) = [] := by
      by_cases hout : ∃ y ∈ l.drop n, p y = true
      · -- every seat is taken by one that qualifies
        have hall : (l.take n).filter p = l.take n := by
          refine List.filter_eq_self.mpr fun z hz => ?_
          by_contra hpz
          exact hnot ⟨⟨z, hz, Bool.not_eq_true _ ▸ hpz⟩, hout⟩
        obtain ⟨y, hy, -⟩ := hout
        have hlong : n ≤ l.length := by
          by_contra hshort
          rw [List.drop_eq_nil_of_le (by omega)] at hy
          cases hy
        rw [hall, List.length_take, Nat.min_eq_left hlong, Nat.sub_self, List.take_zero]
      · have hnil : (l.drop n).filter p = [] :=
          List.filter_eq_nil_iff.mpr fun z hz hpz => hout ⟨z, hz, hpz⟩
        rw [hnil, List.take_nil]
    rw [hrest, List.append_nil, List.mem_filter]

/-! ## Ranking -/

/-- The order `r` tells the members of the list apart. -/
def Separates (r : α → α → Prop) (l : List α) : Prop := ∀ x ∈ l, ∀ y ∈ l, r x y → r y x → x = y

theorem Separates.subset {r : α → α → Prop} {l l' : List α} (h : Separates r l) (hsub : l' ⊆ l) :
    Separates r l' :=
  fun x hx y hy => h x (hsub hx) y (hsub hy)

/-- The first `n` of a list in the order `r`. -/
def top (r : α → α → Prop) [DecidableRel r] (n : ℕ) (l : List α) : List α :=
  (l.insertionSort r).take n

/-- How many other members of the list are ahead of `x`. -/
def ahead (r : α → α → Prop) [DecidableRel r] [DecidableEq α] (l : List α) (x : α) : ℕ :=
  l.countP fun y => r y x ∧ y ≠ x

variable {r : α → α → Prop} [DecidableRel r]

theorem ahead_perm [DecidableEq α] {l l' : List α} (h : l.Perm l') (x : α) :
    ahead r l x = ahead r l' x := h.countP_eq _

theorem mem_of_mem_top {n : ℕ} {l : List α} {x : α} (h : x ∈ top r n l) : x ∈ l :=
  (List.mem_insertionSort r).mp (List.mem_of_mem_take h)

theorem length_top_le (n : ℕ) (l : List α) : (top r n l).length ≤ n := List.length_take_le _ _

/-- In a ranked list those ahead of a member are those at smaller indices. -/
theorem mem_take_iff [DecidableEq α] {l : List α} (hsorted : l.Pairwise r)
    (hsep : Separates r l) (hnd : l.Nodup) {x : α} (hx : x ∈ l) (n : ℕ) :
    x ∈ l.take n ↔ ahead r l x < n := by
  induction l generalizing n with
  | nil => cases hx
  | cons a l ih =>
    obtain ⟨hahead, hsorted⟩ := List.pairwise_cons.mp hsorted
    obtain ⟨ha, hnd⟩ := List.nodup_cons.mp hnd
    have hsub : Separates r l := hsep.subset (List.subset_cons_self a l)
    rcases List.mem_cons.mp hx with rfl | hx
    · -- nobody is ahead of the first
      have hzero : ahead r (x :: l) x = 0 := by
        refine List.countP_eq_zero.mpr fun y hy => ?_
        rw [decide_eq_true_eq]
        rintro ⟨hyx, hne⟩
        have hmem := (List.mem_cons.mp hy).resolve_left hne
        exact hne (hsep y hy x List.mem_cons_self hyx (hahead y hmem))
      rw [hzero]
      cases n with
      | zero => simp
      | succ n => simp
    · have hne : a ≠ x := by
        rintro rfl
        exact ha hx
      have hsucc : ahead r (a :: l) x = ahead r l x + 1 :=
        List.countP_cons_of_pos (decide_eq_true ⟨hahead x hx, hne⟩)
      rw [hsucc]
      cases n with
      | zero => simp
      | succ n =>
        rw [List.take_succ_cons, List.mem_cons, ih hsorted hsub hnd hx]
        simp [Ne.symm hne]

section Total

variable [Std.Total r] [IsTrans α r]

theorem mem_top_iff [DecidableEq α] {l : List α} (hsep : Separates r l) (hnd : l.Nodup) {n : ℕ}
    {x : α} : x ∈ top r n l ↔ x ∈ l ∧ ahead r l x < n := by
  have hperm := List.perm_insertionSort r l
  have hsep' : Separates r (l.insertionSort r) := hsep.subset hperm.subset
  have hiff (hx : x ∈ l) := mem_take_iff (List.pairwise_insertionSort r l) hsep'
    (hperm.nodup_iff.mpr hnd) (hperm.mem_iff.mpr hx) n
  rw [ahead_perm hperm] at hiff
  constructor
  · intro h
    have hx := mem_of_mem_top h
    exact ⟨hx, (hiff hx).mp h⟩
  · rintro ⟨hx, hlt⟩
    exact (hiff hx).mpr hlt

/-- Two lists with the same members are ranked alike. -/
theorem insertionSort_eq_of_perm {l l' : List α} (hsep : Separates r l) (h : l.Perm l') :
    l.insertionSort r = l'.insertionSort r := by
  refine List.Perm.eq_of_pairwise ?_ (List.pairwise_insertionSort r l)
    (List.pairwise_insertionSort r l') ?_
  · intro x y hx hy
    have hy := h.mem_iff.mpr ((List.mem_insertionSort r).mp hy)
    exact hsep x ((List.mem_insertionSort r).mp hx) y hy
  · exact (List.perm_insertionSort r l).trans (h.trans (List.perm_insertionSort r l').symm)

/-- Ranking those that qualify leaves them in the order in which all are ranked. -/
theorem insertionSort_filter {l : List α} (hsep : Separates r l) (p : α → Bool) :
    (l.filter p).insertionSort r = (l.insertionSort r).filter p := by
  have hperm := (List.perm_insertionSort r l).filter p
  have hsorted := (List.pairwise_insertionSort r l).filter p
  have hsep' : Separates r (l.filter p) :=
    hsep.subset fun _ hx => List.mem_of_mem_filter hx
  rw [insertionSort_eq_of_perm hsep' hperm.symm]
  exact hsorted.insertionSort_eq

/-- Those that qualify among the first `n` are the first `n` of those that qualify, unless
one that does not qualify is among the first `n` while one that does is not. -/
theorem top_filter_iff [DecidableEq α] {l : List α} (hsep : Separates r l) (hnd : l.Nodup) (n : ℕ)
    (p : α → Bool) :
    (∀ x, x ∈ top r n (l.filter p) ↔ x ∈ top r n l ∧ p x = true) ↔
      ¬((∃ x ∈ l, p x = false ∧ ahead r l x < n) ∧ ∃ x ∈ l, p x = true ∧ n ≤ ahead r l x) := by
  have hmem (x : α) : x ∈ (l.insertionSort r).take n ↔ x ∈ l ∧ ahead r l x < n :=
    mem_top_iff hsep hnd
  have hranked := (List.perm_insertionSort r l).nodup_iff.mpr hnd
  have hin (x : α) : x ∈ l.insertionSort r ↔ x ∈ l := List.mem_insertionSort r
  unfold top
  rw [insertionSort_filter hsep, mem_take_filter_iff hranked]
  have hdrop (x : α) : x ∈ (l.insertionSort r).drop n ↔ x ∈ l ∧ n ≤ ahead r l x := by
    rw [mem_drop_iff hranked, hin, hmem, ← Nat.not_lt]
    tauto
  simp only [hmem, hdrop]
  constructor
  · rintro h ⟨⟨x, hx, hpx, hlt⟩, y, hy, hpy, hle⟩
    exact h ⟨⟨x, ⟨hx, hlt⟩, hpx⟩, y, ⟨hy, hle⟩, hpy⟩
  · rintro h ⟨⟨x, ⟨hx, hlt⟩, hpx⟩, y, ⟨hy, hle⟩, hpy⟩
    exact h ⟨⟨x, hx, hpx, hlt⟩, y, hy, hpy, hle⟩

end Total

end Ranking
