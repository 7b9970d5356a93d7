import Mathlib.Data.List.Basic
import Mathlib.Data.Set.Basic
import Mathlib.Tactic.Common

/-!
# Texts that can be told apart

A value is written in front of other text. It can be told apart where everything that begins with
what it is written as, and goes on with a text that may follow, was written by a value with the
same view. What is left is then determined too, so that the property passes from the items of a list
to the list.
-/

namespace Readable

variable {α β σ : Type*}

/-- What `a` is written as, with a text of `Stop` behind it, determines the view of `a` and the text
behind it. -/
def ToldApart (write : α → List σ) (view : α → β) (Stop : Set (List σ)) (a : α) : Prop :=
  ∀ b s t, s ∈ Stop → t ∈ Stop → write a ++ s = write b ++ t → view a = view b ∧ s = t

/-! ## Runs of characters -/

/-- A run of characters of one kind ends where the next character is of another kind. -/
theorem append_inj_of_run {p : σ → Prop} {ws vs s t : List σ} (hw : ∀ c ∈ ws, p c)
    (hv : ∀ c ∈ vs, p c) (hs : ∀ c ∈ s.head?, ¬p c) (ht : ∀ c ∈ t.head?, ¬p c)
    (h : ws ++ s = vs ++ t) : ws = vs ∧ s = t := by
  induction ws generalizing vs with
  | nil =>
    cases vs with
    | nil => exact ⟨rfl, h⟩
    | cons c vs =>
      rw [List.nil_append] at h
      rw [h] at hs
      exact absurd (hv c List.mem_cons_self) (hs c rfl)
  | cons d ws ih =>
    obtain ⟨hd, hw⟩ := List.forall_mem_cons.mp hw
    cases vs with
    | nil =>
      rw [List.nil_append] at h
      rw [← h] at ht
      exact absurd hd (ht d rfl)
    | cons c vs =>
      rw [List.cons_append, List.cons_append] at h
      obtain ⟨rfl, hrest⟩ := List.cons.inj h
      obtain ⟨rfl, hst⟩ := ih hw (fun e he => hv e (List.mem_cons_of_mem _ he)) hrest
      exact ⟨rfl, hst⟩

/-! ## Lists with separators -/

/-- Texts with a separator between them. -/
def separated (sep : σ) : List (List σ) → List σ
  | [] => []
  | text :: texts => text ++ texts.flatMap (sep :: ·)

@[simp] theorem separated_nil (sep : σ) : separated sep [] = [] := rfl

@[simp] theorem separated_cons (sep : σ) (text : List σ) (texts : List (List σ)) :
    separated sep (text :: texts) = text ++ texts.flatMap (sep :: ·) := rfl

section Lists

variable {write : α → List σ} {view : α → β} {Stop : Set (List σ)} {sep close : σ}

theorem items_mem (hsep : ∀ t, sep :: t ∈ Stop) (hclose : ∀ t, close :: t ∈ Stop)
    (texts : List (List σ)) (s : List σ) : texts.flatMap (sep :: ·) ++ close :: s ∈ Stop := by
  cases texts with
  | nil => exact hclose s
  | cons text texts =>
    simp
    apply hsep

/-- The items behind the first. -/
theorem items_told (hne : sep ≠ close) (hsep : ∀ t, sep :: t ∈ Stop)
    (hclose : ∀ t, close :: t ∈ Stop) {as bs : List α}
    (has : ∀ a ∈ as, ToldApart write view Stop a) {s t : List σ}
    (h : (as.map write).flatMap (sep :: ·) ++ close :: s =
      (bs.map write).flatMap (sep :: ·) ++ close :: t) :
    as.map view = bs.map view ∧ s = t := by
  induction as generalizing bs with
  | nil =>
    cases bs with
    | nil =>
      simp at h
      exact ⟨rfl, h⟩
    | cons b bs =>
      simp at h
      exact absurd h.1.symm hne
  | cons a as ih =>
    obtain ⟨ha, has⟩ := List.forall_mem_cons.mp has
    cases bs with
    | nil =>
      simp at h
      exact absurd h.1 hne
    | cons b bs =>
      simp only [List.map_cons, List.flatMap_cons, List.cons_append, List.append_assoc,
        List.cons.injEq, true_and] at h
      obtain ⟨hview, h⟩ := ha b _ _ (items_mem hsep hclose _ _) (items_mem hsep hclose _ _) h
      obtain ⟨hviews, hst⟩ := ih has h
      simp [hview, hviews, hst]

/-- A list can be told apart where its items can, and no item begins like the end of the list. -/
theorem separated_told (hne : sep ≠ close) (hsep : ∀ t, sep :: t ∈ Stop)
    (hclose : ∀ t, close :: t ∈ Stop) (hhead : ∀ a s t, write a ++ s ≠ close :: t) {as bs : List α}
    (has : ∀ a ∈ as, ToldApart write view Stop a) {s t : List σ}
    (h : separated sep (as.map write) ++ close :: s =
      separated sep (bs.map write) ++ close :: t) :
    as.map view = bs.map view ∧ s = t := by
  cases as with
  | nil =>
    cases bs with
    | nil =>
      simp at h
      exact ⟨rfl, h⟩
    | cons b bs =>
      simp only [List.map_cons, List.map_nil, separated_nil, separated_cons, List.nil_append,
        List.append_assoc] at h
      exact absurd h.symm (hhead b _ s)
  | cons a as =>
    obtain ⟨ha, has⟩ := List.forall_mem_cons.mp has
    cases bs with
    | nil =>
      simp only [List.map_cons, List.map_nil, separated_nil, separated_cons, List.nil_append,
        List.append_assoc] at h
      exact absurd h (hhead a _ t)
    | cons b bs =>
      simp only [List.map_cons, separated_cons, List.append_assoc] at h
      obtain ⟨hview, h⟩ := ha b _ _ (items_mem hsep hclose _ _) (items_mem hsep hclose _ _) h
      obtain ⟨hviews, hst⟩ := items_told hne hsep hclose has h
      simp [hview, hviews, hst]

end Lists

end Readable
