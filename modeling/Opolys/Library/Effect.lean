import Mathlib.Tactic.Common

/-!
# Rules for state with early returns

A procedure that mutates shared state in place and may return early with an error is an
`EStateM ε σ α`: what it has written stays written when it returns the error. This file
states what such a procedure leaves behind and how the statement composes.

* `Ends m s Q E`: run from `s`, the procedure returns with `Q` of its value and state, or
  fails with `E` of its error and state.
* `run_bind_eq_ok` and its like: what a run that returns says about its steps.
* `Agree m m' s s' Q E`: run from `s` and `s'`, two procedures both return with `Q`
  relating what they leave, or both fail with `E` relating what they leave.
* `Both R x x'`: two pure computations both succeed with related values, or both fail with
  the same error.

Each has one rule for `pure`, `bind`, reading, writing, failing, and for a loop
`List.foldlM` with an invariant. The forms of an early return (`ensure`, `require`,
`ofExcept`) are procedures of their own, so that a program written with them is a plain
sequence of steps.
-/

namespace Effect

universe u v

variable {ε ε' σ σ' α α' β β' : Type u} {ι : Type v}

/-! ## Steps -/

/-- Return early with `e` unless `c` holds. -/
def ensure (c : Prop) [Decidable c] (e : ε) : EStateM ε σ PUnit :=
  if c then pure ⟨⟩ else throw e

/-- The pure form of `ensure`. -/
def check (c : Prop) [Decidable c] (e : ε) : Except ε PUnit :=
  if c then .ok ⟨⟩ else .error e

/-- The value inside, or return early with `e`. -/
def require (o : Option α) (e : ε) : EStateM ε σ α :=
  match o with
  | some a => pure a
  | none => throw e

/-- The value of a pure computation, or return early with its error, translated. -/
def ofExcept (f : ε' → ε) (x : Except ε' α) : EStateM ε σ α :=
  match x with
  | .ok a => pure a
  | .error e => throw (f e)

/-- Run a procedure on a part of the state. What it writes there stays, whether it returns
or fails. -/
def within (read : σ → σ') (write : σ' → σ → σ) (f : ε' → ε) (m : EStateM ε' σ' α) :
    EStateM ε σ α := fun s =>
  match m (read s) with
  | .ok a t => .ok a (write t s)
  | .error e t => .error (f e) (write t s)

/-- What a procedure leaves, whether it returns or fails. -/
def leaves (m : EStateM ε σ α) (s : σ) : σ :=
  match m s with
  | .ok _ t => t
  | .error _ t => t

theorem leaves_get_bind (f : σ → EStateM ε σ α) (s : σ) : leaves (get >>= f) s = leaves (f s) s :=
  rfl

theorem leaves_ofExcept_bind {f : ε' → ε} {x : Except ε' β} {a : β} (g : β → EStateM ε σ α)
    (s : σ) (hx : x = .ok a) : leaves (ofExcept f x >>= g) s = leaves (g a) s := by
  rw [hx]
  rfl

theorem leaves_within_bind (read : σ → σ') (write : σ' → σ → σ) (f : ε' → ε)
    (m : EStateM ε' σ' β) (a : α) (s : σ) :
    leaves (within read write f m >>= fun _ => pure a) s = write (leaves m (read s)) s := by
  unfold leaves
  change (match EStateM.bind (within read write f m) (fun _ => pure a) s with
    | .ok _ t => t
    | .error _ t => t) = _
  unfold EStateM.bind within
  dsimp only
  cases m (read s) <;> rfl

/-! ## Pure checks -/

section Checks

variable {c : Prop} [Decidable c] {e : ε}

@[simp] theorem check_eq_ok {u : PUnit} : check c e = .ok u ↔ c := by
  unfold check
  split <;> simp_all

@[simp] theorem check_bind_eq_ok {f : PUnit → Except ε β} {b : β} :
    (check c e >>= f) = .ok b ↔ c ∧ f ⟨⟩ = .ok b := by
  unfold check
  split
  · rename_i h
    exact ⟨fun he => ⟨h, he⟩, And.right⟩
  · rename_i h
    exact ⟨nofun, fun he => absurd he.1 h⟩

/-- A computation that succeeds, by its value. -/
theorem eq_ok_getD {x : Except ε α} {a : α} (h : x.toOption.isSome = true) :
    x = .ok (x.toOption.getD a) := by
  cases x with
  | error e => cases h
  | ok b => rfl

@[simp] theorem ok_bind {a : α} {f : α → Except ε β} : (Except.ok a >>= f) = f a := rfl

/-- A chain of pure steps succeeds when its first step does and the rest does on its value. -/
theorem bind_eq_ok {x : Except ε α} {f : α → Except ε β} {b : β} :
    (x >>= f) = .ok b ↔ ∃ a, x = .ok a ∧ f a = .ok b := by
  cases x with
  | error e => exact ⟨nofun, nofun⟩
  | ok a =>
    constructor
    · exact fun h => ⟨a, rfl, h⟩
    · rintro ⟨_, ha, h⟩
      cases ha
      exact h

/-- A chain of pure steps fails where one of its steps does. -/
theorem bind_eq_error {x : Except ε α} {f : α → Except ε β} {e : ε} :
    (x >>= f) = .error e ↔ x = .error e ∨ ∃ a, x = .ok a ∧ f a = .error e := by
  cases x with
  | error e' =>
    constructor
    · intro h
      cases h
      exact Or.inl rfl
    · rintro (h | ⟨_, ha, -⟩)
      · cases h
        rfl
      · cases ha
  | ok a =>
    constructor
    · exact fun h => Or.inr ⟨a, rfl, h⟩
    · rintro (h | ⟨_, ha, h⟩)
      · cases h
      · cases ha
        exact h

theorem check_eq_error {e' : ε} : check c e = .error e' ↔ ¬c ∧ e = e' := by
  unfold check
  split <;> simp_all

/-- A pure loop that succeeds keeps its invariant when every round does. -/
theorem foldlM_ok_invariant {I : β → Prop} {f : β → ι → Except ε β} {xs : List ι} {b b' : β}
    (h0 : I b) (hf : ∀ b x b', I b → f b x = .ok b' → I b') (h : xs.foldlM f b = .ok b') :
    I b' := by
  induction xs generalizing b with
  | nil =>
    cases h
    exact h0
  | cons x xs ih =>
    rw [List.foldlM_cons] at h
    obtain ⟨c, hc, h⟩ := bind_eq_ok.mp h
    exact ih (hf b x c h0 hc) h

end Checks

/-! ## One run -/

/-- Run from `s`, the procedure `m` returns with `Q` or fails with `E`. -/
def Ends (m : EStateM ε σ α) (s : σ) (Q : α → σ → Prop) (E : ε → σ → Prop) : Prop :=
  match m s with
  | .ok a s' => Q a s'
  | .error e s' => E e s'

section Ends

variable {s : σ} {Q : β → σ → Prop} {E : ε → σ → Prop}

theorem Ends.pure {b : β} (h : Q b s) : Ends (Pure.pure b : EStateM ε σ β) s Q E := h

theorem Ends.throw {e : ε} (h : E e s) : Ends (throw e : EStateM ε σ β) s Q E := h

theorem Ends.bind {m : EStateM ε σ α} {f : α → EStateM ε σ β} {R : α → σ → Prop}
    (hm : Ends m s R E) (hf : ∀ a s', R a s' → Ends (f a) s' Q E) : Ends (m >>= f) s Q E := by
  unfold Ends at hm
  change Ends (EStateM.bind m f) s Q E
  unfold Ends EStateM.bind
  cases h : m s with
  | ok a s' =>
    rw [h] at hm
    exact hf a s' hm
  | error e s' =>
    rw [h] at hm
    exact hm

/-- The bind rule where the first step is known by its run. -/
theorem Ends.bind_run {m : EStateM ε σ α} {f : α → EStateM ε σ β}
    (he : ∀ e s', m s = .error e s' → E e s')
    (hf : ∀ a s', m s = .ok a s' → Ends (f a) s' Q E) : Ends (m >>= f) s Q E := by
  change Ends (EStateM.bind m f) s Q E
  unfold Ends EStateM.bind
  cases h : m s with
  | ok a s' => exact hf a s' h
  | error e s' => exact he e s' h

theorem Ends.mono {m : EStateM ε σ β} {R : β → σ → Prop} {F : ε → σ → Prop}
    (h : Ends m s R F) (hQ : ∀ b s', R b s' → Q b s') (hE : ∀ e s', F e s' → E e s') :
    Ends m s Q E := by
  unfold Ends at h ⊢
  split
  · rename_i he
    rw [he] at h
    exact hQ _ _ h
  · rename_i he
    rw [he] at h
    exact hE _ _ h

theorem Ends.and {m : EStateM ε σ β} {R : β → σ → Prop} {F : ε → σ → Prop} (h : Ends m s Q E)
    (h' : Ends m s R F) :
    Ends m s (fun b s' => Q b s' ∧ R b s') fun e s' => E e s' ∧ F e s' := by
  unfold Ends at h h' ⊢
  split <;> rename_i he <;> rw [he] at h h' <;> exact ⟨h, h'⟩

/-- A procedure that cannot fail returns. -/
theorem Ends.exists_ok {m : EStateM ε σ β} (h : Ends m s Q fun _ _ => False) :
    ∃ b s', m s = .ok b s' ∧ Q b s' := by
  unfold Ends at h
  split at h
  · rename_i b s' he
    exact ⟨b, s', he, h⟩
  · exact h.elim

theorem Ends.of_ok {m : EStateM ε σ β} {b : β} {s' : σ} (hm : m s = .ok b s') (h : Q b s') :
    Ends m s Q E := by
  unfold Ends
  rw [hm]
  exact h

theorem Ends.ensure_bind {c : Prop} [Decidable c] {e : ε} {f : PUnit → EStateM ε σ β}
    (hn : ¬c → E e s) (hc : c → Ends (f ⟨⟩) s Q E) : Ends (Effect.ensure c e >>= f) s Q E := by
  unfold Effect.ensure
  split
  · exact hc ‹_›
  · exact hn ‹_›

theorem Ends.require_bind {o : Option α} {e : ε} {f : α → EStateM ε σ β}
    (hn : o = none → E e s) (hs : ∀ a, o = some a → Ends (f a) s Q E) :
    Ends (Effect.require o e >>= f) s Q E := by
  cases o with
  | none => exact hn rfl
  | some a => exact hs a rfl

theorem Ends.ofExcept_bind {g : ε' → ε} {x : Except ε' α} {f : α → EStateM ε σ β}
    (he : ∀ e, x = .error e → E (g e) s) (ho : ∀ a, x = .ok a → Ends (f a) s Q E) :
    Ends (Effect.ofExcept g x >>= f) s Q E := by
  cases x with
  | error e => exact he e rfl
  | ok a => exact ho a rfl

/-- A pure computation that is known to succeed. -/
theorem Ends.ofExcept_ok {g : ε' → ε} {x : Except ε' α} {a : α} {f : α → EStateM ε σ β}
    (hx : x = .ok a) (h : Ends (f a) s Q E) : Ends (Effect.ofExcept g x >>= f) s Q E := by
  rw [hx]
  exact h

/-- A value that is known to be there. -/
theorem Ends.require_some {o : Option α} {a : α} {e : ε} {f : α → EStateM ε σ β}
    (ho : o = some a) (h : Ends (f a) s Q E) : Ends (Effect.require o e >>= f) s Q E := by
  rw [ho]
  exact h

theorem Ends.within {read : σ → σ'} {write : σ' → σ → σ} {f : ε' → ε} {m : EStateM ε' σ' β}
    (h : Ends m (read s) (fun a t => Q a (write t s)) fun e t => E (f e) (write t s)) :
    Ends (Effect.within read write f m) s Q E := by
  unfold Ends at h ⊢
  unfold Effect.within
  cases hm : m (read s) <;> rw [hm] at h <;> exact h

theorem Ends.get_bind {f : σ → EStateM ε σ β} (h : Ends (f s) s Q E) :
    Ends (get >>= f) s Q E := h

theorem Ends.set_bind {t : σ} {f : PUnit → EStateM ε σ β} (h : Ends (f ⟨⟩) t Q E) :
    Ends (set t >>= f) s Q E := h

theorem Ends.modify_bind {g : σ → σ} {f : PUnit → EStateM ε σ β} (h : Ends (f ⟨⟩) (g s) Q E) :
    Ends (modify g >>= f) s Q E := h

/-- A loop keeps its invariant when every round does. -/
theorem Ends.foldlM {I : β → σ → Prop} {xs : List ι} {f : β → ι → EStateM ε σ β} {b : β}
    (h0 : I b s) (hf : ∀ b s x, x ∈ xs → I b s → Ends (f b x) s I E) :
    Ends (xs.foldlM f b) s I E := by
  induction xs generalizing b s with
  | nil => exact Ends.pure h0
  | cons x xs ih =>
    rw [List.foldlM_cons]
    refine Ends.bind (hf b s x List.mem_cons_self h0) fun b' s' h' => ?_
    exact ih h' fun b s y hy => hf b s y (List.mem_cons_of_mem _ hy)

theorem Ends.ok {m : EStateM ε σ β} {b : β} {s' : σ} (h : Ends m s Q E)
    (hm : m s = .ok b s') : Q b s' := by
  unfold Ends at h
  rwa [hm] at h

theorem Ends.error {m : EStateM ε σ β} {e : ε} {s' : σ} (h : Ends m s Q E)
    (hm : m s = .error e s') : E e s' := by
  unfold Ends at h
  rwa [hm] at h

end Ends

/-! ## Runs that return -/

section Returns

variable {s t : σ} {b : β}

/-- A chain of steps returns when its first step does and the rest does on what it left. -/
theorem run_bind_eq_ok {m : EStateM ε σ α} {f : α → EStateM ε σ β} :
    (m >>= f) s = .ok b t ↔ ∃ a s', m s = .ok a s' ∧ f a s' = .ok b t := by
  change EStateM.bind m f s = .ok b t ↔ _
  unfold EStateM.bind
  cases h : m s with
  | ok a s' =>
    constructor
    · exact fun h => ⟨a, s', rfl, h⟩
    · rintro ⟨_, _, he, h⟩
      cases he
      exact h
  | error e s' => exact ⟨nofun, nofun⟩

theorem run_pure_eq_ok {a : β} :
    (Pure.pure a : EStateM ε σ β) s = .ok b t ↔ a = b ∧ s = t := by
  constructor
  · intro h
    cases h
    exact ⟨rfl, rfl⟩
  · rintro ⟨rfl, rfl⟩
    rfl

theorem run_get_bind {f : σ → EStateM ε σ β} : (get >>= f) s = f s s := rfl

theorem run_modify_bind {g : σ → σ} {f : PUnit → EStateM ε σ β} :
    (modify g >>= f) s = f ⟨⟩ (g s) := rfl

theorem run_ensure_bind_eq_ok {c : Prop} [Decidable c] {e : ε} {f : PUnit → EStateM ε σ β} :
    (ensure c e >>= f) s = .ok b t ↔ c ∧ f ⟨⟩ s = .ok b t := by
  unfold ensure
  split
  · rename_i h
    exact ⟨fun he => ⟨h, he⟩, And.right⟩
  · rename_i h
    exact ⟨nofun, fun he => absurd he.1 h⟩

theorem run_require_bind_eq_ok {o : Option α} {e : ε} {f : α → EStateM ε σ β} :
    (require o e >>= f) s = .ok b t ↔ ∃ a, o = some a ∧ f a s = .ok b t := by
  cases o with
  | none => exact ⟨nofun, nofun⟩
  | some a =>
    constructor
    · exact fun h => ⟨a, rfl, h⟩
    · rintro ⟨_, ha, h⟩
      cases ha
      exact h

theorem run_ofExcept_bind_eq_ok {g : ε' → ε} {x : Except ε' α} {f : α → EStateM ε σ β} :
    (ofExcept g x >>= f) s = .ok b t ↔ ∃ a, x = .ok a ∧ f a s = .ok b t := by
  cases x with
  | error e => exact ⟨nofun, nofun⟩
  | ok a =>
    constructor
    · exact fun h => ⟨a, rfl, h⟩
    · rintro ⟨_, ha, h⟩
      cases ha
      exact h

theorem run_within_bind_eq_ok {read : σ → σ'} {write : σ' → σ → σ} {g : ε' → ε}
    {m : EStateM ε' σ' α} {f : α → EStateM ε σ β} :
    (within read write g m >>= f) s = .ok b t ↔
      ∃ a s', m (read s) = .ok a s' ∧ f a (write s' s) = .ok b t := by
  rw [run_bind_eq_ok]
  unfold within
  cases m (read s) with
  | ok a s' =>
    constructor
    · rintro ⟨_, _, he, h⟩
      cases he
      exact ⟨a, s', rfl, h⟩
    · rintro ⟨_, _, he, h⟩
      cases he
      exact ⟨a, _, rfl, h⟩
  | error e s' =>
    constructor <;> rintro ⟨_, _, he, -⟩ <;> cases he

/-- A loop that returns keeps its invariant when every round that returns does. -/
theorem run_foldlM_invariant {I : β → σ → Prop} {xs : List ι} {f : β → ι → EStateM ε σ β}
    {b b' : β} {s t : σ} (h0 : I b s)
    (hf : ∀ b s x b' s', x ∈ xs → I b s → f b x s = .ok b' s' → I b' s')
    (h : xs.foldlM f b s = .ok b' t) : I b' t := by
  induction xs generalizing b s with
  | nil =>
    obtain ⟨rfl, rfl⟩ := run_pure_eq_ok.mp h
    exact h0
  | cons x xs ih =>
    rw [List.foldlM_cons] at h
    obtain ⟨c, s', hc, h⟩ := run_bind_eq_ok.mp h
    exact ih (hf b s x c s' List.mem_cons_self h0 hc)
      (fun b s y b' s' hy => hf b s y b' s' (List.mem_cons_of_mem _ hy)) h

end Returns

/-! ## Two pure computations side by side -/

/-- Two computations succeed with related values, or fail with the same error. -/
inductive Both (R : α → α' → Prop) : Except ε α → Except ε α' → Prop where
  | ok {a : α} {a' : α'} (h : R a a') : Both R (.ok a) (.ok a')
  | error (e : ε) : Both R (.error e) (.error e)

section Both

variable {R : α → α' → Prop} {Q : β → β' → Prop}

theorem Both.refl (x : Except ε α) : Both Eq x x := by
  cases x with
  | error e => exact .error e
  | ok a => exact .ok rfl

theorem Both.bind {x : Except ε α} {x' : Except ε α'} {f : α → Except ε β}
    {f' : α' → Except ε β'} (h : Both R x x') (hf : ∀ a a', R a a' → Both Q (f a) (f' a')) :
    Both Q (x >>= f) (x' >>= f') := by
  cases h with
  | ok h => exact hf _ _ h
  | error e => exact .error e

theorem Both.check_bind {c : Prop} [Decidable c] {e : ε} {f : PUnit → Except ε β}
    {f' : PUnit → Except ε β'} (hf : c → Both Q (f ⟨⟩) (f' ⟨⟩)) :
    Both Q (check c e >>= f) (check c e >>= f') := by
  unfold check
  split
  · exact hf ‹_›
  · exact .error e

end Both

/-! ## Two runs side by side -/

/-- Run from `s` and `s'`, the two procedures both return with `Q` or both fail with `E`. -/
def Agree (m : EStateM ε σ α) (m' : EStateM ε' σ' α') (s : σ) (s' : σ')
    (Q : α → α' → σ → σ' → Prop) (E : ε → ε' → σ → σ' → Prop) : Prop :=
  match m s, m' s' with
  | .ok a t, .ok a' t' => Q a a' t t'
  | .error e t, .error e' t' => E e e' t t'
  | _, _ => False

/-- Two procedures return or fail with the same result and leave states related by `R`. -/
abbrev Lockstep (R : σ → σ' → Prop) (m : EStateM ε σ α) (m' : EStateM ε σ' α) (s : σ) (s' : σ') :
    Prop :=
  Agree m m' s s' (fun a a' t t' => a = a' ∧ R t t') fun e e' t t' => e = e' ∧ R t t'

section Agree

variable {s : σ} {s' : σ'} {Q : β → β' → σ → σ' → Prop} {E : ε → ε' → σ → σ' → Prop}

theorem Agree.pure {b : β} {b' : β'} (h : Q b b' s s') :
    Agree (Pure.pure b : EStateM ε σ β) (Pure.pure b' : EStateM ε' σ' β') s s' Q E := h

theorem Agree.throw {e : ε} {e' : ε'} (h : E e e' s s') :
    Agree (throw e : EStateM ε σ β) (throw e' : EStateM ε' σ' β') s s' Q E := h

theorem Agree.bind {m : EStateM ε σ α} {m' : EStateM ε' σ' α'} {f : α → EStateM ε σ β}
    {f' : α' → EStateM ε' σ' β'} {R : α → α' → σ → σ' → Prop} (hm : Agree m m' s s' R E)
    (hf : ∀ a a' t t', R a a' t t' → Agree (f a) (f' a') t t' Q E) :
    Agree (m >>= f) (m' >>= f') s s' Q E := by
  unfold Agree at hm
  change Agree (EStateM.bind m f) (EStateM.bind m' f') s s' Q E
  unfold Agree EStateM.bind
  cases h : m s <;> cases h' : m' s' <;> simp only [h, h'] at hm ⊢
  · exact hf _ _ _ _ hm
  · exact hm

theorem Agree.mono {m : EStateM ε σ β} {m' : EStateM ε' σ' β'} {R : β → β' → σ → σ' → Prop}
    {F : ε → ε' → σ → σ' → Prop} (h : Agree m m' s s' R F)
    (hQ : ∀ b b' t t', R b b' t t' → Q b b' t t')
    (hE : ∀ e e' t t', F e e' t t' → E e e' t t') : Agree m m' s s' Q E := by
  unfold Agree at h ⊢
  cases hm : m s <;> cases hm' : m' s' <;> simp only [hm, hm'] at h ⊢
  · exact hQ _ _ _ _ h
  · exact hE _ _ _ _ h

/-- Two procedures that begin with the same run agree as far as their rest does. -/
theorem Agree.bind_same {m m' : EStateM ε σ α} {f : α → EStateM ε σ β} {f' : α → EStateM ε σ β'}
    {Q : β → β' → σ → σ → Prop} {E : ε → ε → σ → σ → Prop} (hm : m s = m' s)
    (hE : ∀ e t, m s = .error e t → E e e t t)
    (hf : ∀ a t, m s = .ok a t → Agree (f a) (f' a) t t Q E) :
    Agree (m >>= f) (m' >>= f') s s Q E := by
  change Agree (EStateM.bind m f) (EStateM.bind m' f') s s Q E
  unfold Agree EStateM.bind
  rw [← hm]
  cases h : m s with
  | ok a t => exact hf a t h
  | error e t => exact hE e t h

/-- What holds when both return holds of what they return. -/
theorem Agree.ok {m : EStateM ε σ β} {m' : EStateM ε' σ' β'} (h : Agree m m' s s' Q E) {b : β}
    {b' : β'} {t : σ} {t' : σ'} (hm : m s = .ok b t) (hm' : m' s' = .ok b' t') : Q b b' t t' := by
  unfold Agree at h
  rwa [hm, hm'] at h

theorem Agree.get_bind {f : σ → EStateM ε σ β} {f' : σ' → EStateM ε' σ' β'}
    (h : Agree (f s) (f' s') s s' Q E) : Agree (get >>= f) (get >>= f') s s' Q E := h

theorem Agree.modify_bind {g : σ → σ} {g' : σ' → σ'} {f : PUnit → EStateM ε σ β}
    {f' : PUnit → EStateM ε' σ' β'} (h : Agree (f ⟨⟩) (f' ⟨⟩) (g s) (g' s') Q E) :
    Agree (modify g >>= f) (modify g' >>= f') s s' Q E := h

theorem Agree.ensure_bind {c c' : Prop} [Decidable c] [Decidable c'] {e : ε} {e' : ε'}
    {f : PUnit → EStateM ε σ β} {f' : PUnit → EStateM ε' σ' β'} (hcc : c ↔ c')
    (hn : ¬c → E e e' s s') (hc : c → Agree (f ⟨⟩) (f' ⟨⟩) s s' Q E) :
    Agree (Effect.ensure c e >>= f) (Effect.ensure c' e' >>= f') s s' Q E := by
  unfold Effect.ensure
  by_cases h : c
  · rw [if_pos h, if_pos (hcc.mp h)]
    exact hc h
  · rw [if_neg h, if_neg (mt hcc.mpr h)]
    exact hn h

theorem Agree.set_bind {t : σ} {t' : σ'} {f : PUnit → EStateM ε σ β}
    {f' : PUnit → EStateM ε' σ' β'} (h : Agree (f ⟨⟩) (f' ⟨⟩) t t' Q E) :
    Agree (set t >>= f) (set t' >>= f') s s' Q E := h

/-- A value that is there for both. -/
theorem Agree.require_bind {o : Option α} {o' : Option α'} {e : ε} {e' : ε'}
    {f : α → EStateM ε σ β} {f' : α' → EStateM ε' σ' β'} {R : α → α' → Prop}
    (ho : Option.Rel R o o') (hn : E e e' s s')
    (hs : ∀ a a', R a a' → Agree (f a) (f' a') s s' Q E) :
    Agree (Effect.require o e >>= f) (Effect.require o' e' >>= f') s s' Q E := by
  cases ho with
  | none => exact hn
  | some h => exact hs _ _ h

/-- Pure computations that go side by side. -/
theorem Agree.ofExcept_bind {ε₁ : Type u} {g : ε₁ → ε} {g' : ε₁ → ε'} {x : Except ε₁ α}
    {x' : Except ε₁ α'} {f : α → EStateM ε σ β} {f' : α' → EStateM ε' σ' β'}
    {R : α → α' → Prop} (hx : Both R x x') (he : ∀ e, E (g e) (g' e) s s')
    (ho : ∀ a a', R a a' → Agree (f a) (f' a') s s' Q E) :
    Agree (Effect.ofExcept g x >>= f) (Effect.ofExcept g' x' >>= f') s s' Q E := by
  cases hx with
  | ok h => exact ho _ _ h
  | error e => exact he e

theorem Agree.within {τ τ' : Type u} {ε₁ : Type u} {read : σ → τ} {read' : σ' → τ'}
    {write : τ → σ → σ} {write' : τ' → σ' → σ'} {g : ε₁ → ε} {g' : ε₁ → ε'}
    {m : EStateM ε₁ τ β} {m' : EStateM ε₁ τ' β'}
    (h : Agree m m' (read s) (read' s') (fun b b' t t' => Q b b' (write t s) (write' t' s'))
      fun e e' t t' => E (g e) (g' e') (write t s) (write' t' s')) :
    Agree (Effect.within read write g m) (Effect.within read' write' g' m') s s' Q E := by
  unfold Agree at h ⊢
  unfold Effect.within
  cases hm : m (read s) <;> cases hm' : m' (read' s') <;> simp only [hm, hm'] at h ⊢ <;> exact h

/-- A procedure agrees with itself. -/
theorem Agree.refl (m : EStateM ε σ β) (s : σ) :
    Agree m m s s (fun b b' t t' => b = b' ∧ t = t') fun e e' t t' => e = e' ∧ t = t' := by
  unfold Agree
  cases m s <;> exact ⟨rfl, rfl⟩

theorem Agree.foldlM {I : β → β' → σ → σ' → Prop} {xs : List ι} {f : β → ι → EStateM ε σ β}
    {f' : β' → ι → EStateM ε' σ' β'} {b : β} {b' : β'} (h0 : I b b' s s')
    (hf : ∀ b b' s s' x, x ∈ xs → I b b' s s' → Agree (f b x) (f' b' x) s s' I E) :
    Agree (xs.foldlM f b) (xs.foldlM f' b') s s' I E := by
  induction xs generalizing b b' s s' with
  | nil => exact Agree.pure h0
  | cons x xs ih =>
    rw [List.foldlM_cons, List.foldlM_cons]
    refine Agree.bind (hf b b' s s' x List.mem_cons_self h0) fun _ _ _ _ h' => ?_
    exact ih h' fun b b' s s' y hy => hf b b' s s' y (List.mem_cons_of_mem _ hy)

end Agree

attribute [irreducible] Ends Agree

end Effect
