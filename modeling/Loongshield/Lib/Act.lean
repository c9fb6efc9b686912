import Mathlib.Tactic.Common

/-!
# Computations on a state that may raise

`Act σ ε α` works on a state `σ`; it returns an `α` or raises an `ε`, and what it did to the state before it raised
stays done. `Along R` says that every run returns and moves the state along `R`; a sequence of such computations is one
again if `R` is reflexive and transitive. `Leads P Q` says that every run from `P` ends in `Q`,
returned or raised; with `P` for `Q` it is an invariant.
-/

/-- A computation on a state that may raise. -/
def Act (σ ε α : Type) : Type := σ → Except ε α × σ

namespace Act

variable {σ ε α β : Type}

instance : Monad (Act σ ε) where
  pure a := fun s => (.ok a, s)
  bind m f := fun s => match m s with
    | (.ok a, s') => f a s'
    | (.error e, s') => (.error e, s')

/-- Raises an error. -/
def raise (e : ε) : Act σ ε α := fun s => (.error e, s)

/-- A computation without a state. -/
def lift (m : Except ε α) : Act σ ε α := fun s => (m, s)

/-- A step that always returns. -/
def step (f : σ → α × σ) : Act σ ε α := fun s => (.ok (f s).1, (f s).2)

@[simp] theorem step_apply (f : σ → α × σ) (s : σ) : (step f : Act σ ε α) s = (.ok (f s).1, (f s).2) := rfl

/-- A computation goes on where its first part returned. -/
theorem bind_of_ok {m : Act σ ε α} {f : α → Act σ ε β} {s s' : σ} {a : α} (h : m s = (.ok a, s')) :
    (m >>= f) s = f a s' := by
  change (match m s with | (.ok a, s') => f a s' | (.error e, s') => (.error e, s')) = f a s'
  rw [h]

/-- A computation ends where its first part raised. -/
theorem bind_of_error {m : Act σ ε α} {f : α → Act σ ε β} {s s' : σ} {e : ε} (h : m s = (.error e, s')) :
    (m >>= f) s = (.error e, s') := by
  change (match m s with | (.ok a, s') => f a s' | (.error e, s') => (.error e, s')) = (.error e, s')
  rw [h]

/-- A computation that returned went through both parts. -/
theorem of_bind_ok {m : Act σ ε α} {f : α → Act σ ε β} {s s'' : σ} {b : β} (h : (m >>= f) s = (.ok b, s'')) :
    ∃ a s', m s = (.ok a, s') ∧ f a s' = (.ok b, s'') := by
  change (match m s with | (.ok a, s') => f a s' | (.error e, s') => (.error e, s')) = (.ok b, s'') at h
  generalize m s = r at h ⊢
  obtain ⟨ret, s'⟩ := r
  cases ret with
  | ok a => exact ⟨a, s', rfl, h⟩
  | error e => cases h

theorem bind_assoc {γ : Type} (m : Act σ ε α) (f : α → Act σ ε β) (g : β → Act σ ε γ) :
    m >>= f >>= g = m >>= fun a => f a >>= g := by
  funext s
  change (match (match m s with | (.ok a, s') => f a s' | (.error e, s') => (.error e, s')) with
    | (.ok b, s') => g b s' | (.error e, s') => (.error e, s')) =
      match m s with | (.ok a, s') => (f a >>= g) s' | (.error e, s') => (.error e, s')
  generalize m s = r
  obtain ⟨ret, s'⟩ := r
  cases ret with
  | ok a => rfl
  | error e => rfl

@[simp] theorem step_bind_apply (g : σ → α × σ) (f : α → Act σ ε β) (s : σ) :
    (step g >>= f) s = f (g s).1 (g s).2 := rfl

@[simp] theorem lift_ok_bind_apply (a : α) (f : α → Act σ ε β) (s : σ) : (lift (.ok a) >>= f) s = f a s := rfl

/-! ## Runs along a relation -/

section Along

variable {R : σ → σ → Prop}

/-- Every run returns, in a state that is `R`-related to the one it began in. -/
def Along (R : σ → σ → Prop) (m : Act σ ε α) : Prop := ∀ s, ∃ a s', m s = (.ok a, s') ∧ R s s'

theorem along_pure (hrefl : ∀ s, R s s) (a : α) : Along R (pure a : Act σ ε α) := fun s => ⟨a, s, rfl, hrefl s⟩

theorem along_bind {m : Act σ ε α} {f : α → Act σ ε β} (hm : Along R m) (hf : ∀ a, Along R (f a))
    (htrans : ∀ s s' s'', R s s' → R s' s'' → R s s'') : Along R (m >>= f) := by
  intro s
  obtain ⟨a, s₁, hrun, hrel⟩ := hm s
  obtain ⟨b, s₂, hrun', hrel'⟩ := hf a s₁
  exact ⟨b, s₂, by rw [bind_of_ok hrun, hrun'], htrans s s₁ s₂ hrel hrel'⟩

end Along

/-! ## Invariants -/

section Leads

variable {P Q R : σ → Prop}

/-- Every run that begins in a state with `P` ends in one with `Q`, also where it raises. -/
def Leads (P Q : σ → Prop) (m : Act σ ε α) : Prop := ∀ s, P s → Q (m s).2

/-- Every run keeps the invariant `P`. -/
abbrev Preserves (P : σ → Prop) (m : Act σ ε α) : Prop := Leads P P m

theorem leads_pure (h : ∀ s, P s → Q s) (a : α) : Leads P Q (pure a : Act σ ε α) := fun s hs => h s hs

theorem preserves_pure (a : α) : Preserves P (pure a : Act σ ε α) := fun _ hs => hs

theorem preserves_raise (e : ε) : Preserves P (raise e : Act σ ε α) := fun _ hs => hs

theorem preserves_lift (m : Except ε α) : Preserves P (lift m : Act σ ε α) := fun _ hs => hs

/-- The second part begins where the first one ended; if the first raises, the run ends there. -/
theorem leads_bind {m : Act σ ε α} {f : α → Act σ ε β} (hm : Leads P R m) (hf : ∀ a, Leads R Q (f a))
    (hraise : ∀ s, R s → Q s) : Leads P Q (m >>= f) := by
  intro s hs
  have hm' := hm s hs
  change Q (match m s with | (.ok a, s') => f a s' | (.error e, s') => (.error e, s')).2
  generalize m s = r at hm'
  obtain ⟨ret, s'⟩ := r
  cases ret with
  | ok a => exact hf a s' hm'
  | error e => exact hraise s' hm'

theorem preserves_bind {m : Act σ ε α} {f : α → Act σ ε β} (hm : Preserves P m) (hf : ∀ a, Preserves P (f a)) :
    Preserves P (m >>= f) := leads_bind hm hf fun _ hs => hs

end Leads

end Act
