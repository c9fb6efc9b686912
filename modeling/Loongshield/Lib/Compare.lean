import Mathlib.Data.List.Lex
import Mathlib.Order.Lattice

/-!
# Three-way comparisons, and the loops that compute them

- `sign`: the comparison of a linear order, as `-1`, `0` or `1`;
- `sign_cons`: lists are compared element by element;
- `loop`: a loop that ends with a result or goes on;
- `loop_eq`: a value that each step keeps (`Keeps`), where a measure falls, is what the loop ends with.
-/

namespace Compare

section Sign

variable {α : Type*} [LinearOrder α]

/-- `1` if the first is greater, `-1` if it is less, `0` if they are equal. -/
def sign (a b : α) : Int := if a < b then -1 else if b < a then 1 else 0

@[simp] theorem sign_self (a : α) : sign a a = 0 := by simp [sign]

theorem sign_of_lt {a b : α} (h : a < b) : sign a b = -1 := if_pos h

theorem sign_of_gt {a b : α} (h : b < a) : sign a b = 1 := by rw [sign, if_neg h.not_gt, if_pos h]

theorem sign_swap (a b : α) : sign b a = -sign a b := by
  rcases lt_trichotomy a b with h | rfl | h
  · rw [sign_of_lt h, sign_of_gt h]
    rfl
  · simp
  · rw [sign_of_lt h, sign_of_gt h]

theorem sign_nonneg {a b : α} : 0 ≤ sign a b ↔ b ≤ a := by
  rcases lt_trichotomy a b with h | rfl | h
  · simp [sign_of_lt h, h]
  · simp
  · simp [sign_of_gt h, h.le]

theorem sign_eq_zero {a b : α} : sign a b = 0 ↔ a = b := by
  rcases lt_trichotomy a b with h | rfl | h
  · simp [sign_of_lt h, h.ne]
  · simp
  · simp [sign_of_gt h, h.ne']

theorem sign_cons_self (a : α) (l m : List α) : sign (a :: l) (a :: m) = sign l m := by
  rcases lt_trichotomy l m with h | rfl | h
  · rw [sign_of_lt h]
    exact sign_of_lt (List.cons_lt_cons_iff.mpr (.inr ⟨rfl, h⟩))
  · rw [sign_self, sign_self]
  · rw [sign_of_gt h]
    exact sign_of_gt (List.cons_lt_cons_iff.mpr (.inr ⟨rfl, h⟩))

/-- Lists are compared element by element. -/
theorem sign_cons (a b : α) (l m : List α) : sign (a :: l) (b :: m) = if a = b then sign l m else sign a b := by
  rcases lt_trichotomy a b with h | rfl | h
  · rw [if_neg h.ne, sign_of_lt h]
    exact sign_of_lt (List.cons_lt_cons_iff.mpr (.inl h))
  · rw [if_pos rfl, sign_cons_self]
  · rw [if_neg h.ne', sign_of_gt h]
    exact sign_of_gt (List.cons_lt_cons_iff.mpr (.inl h))

end Sign

section Loop

variable {σ ρ : Type*}

/-- A loop whose body ends with a result or goes on; it has no result while it has not ended. -/
def loop (step : σ → ρ ⊕ σ) : Nat → σ → Option ρ
  | 0, _ => none
  | n + 1, s => match step s with
    | .inl r => some r
    | .inr s' => loop step n s'

/-- A step ends with the value, or keeps it and lowers the measure. -/
def Keeps (value : σ → ρ) (measure : σ → Nat) (s : σ) : ρ ⊕ σ → Prop
  | .inl r => value s = r
  | .inr s' => value s = value s' ∧ measure s' < measure s

/-- **The rule of loops**: a value that each step keeps, where a measure falls, is what the loop ends with. -/
theorem loop_eq {step : σ → ρ ⊕ σ} {value : σ → ρ} {measure : σ → Nat} (h : ∀ s, Keeps value measure s (step s)) :
    ∀ {n : Nat} {s : σ}, measure s < n → loop step n s = some (value s)
  | n + 1, s, hn => by
    have hstep := h s
    unfold loop
    cases hs : step s with
    | inl r =>
      rw [hs] at hstep
      exact congrArg some hstep.symm
    | inr s' =>
      rw [hs] at hstep
      obtain ⟨hvalue, hlt⟩ := hstep
      dsimp only
      rw [hvalue]
      apply loop_eq h
      omega

end Loop

end Compare
