import Loongshield.Seharden.Comparators
import Mathlib.Data.Nat.Bitwise
import Mathlib.Data.Rat.Floor

/-!
# The bits of a mode

`mode_is_no_more_permissive` splits a mode into four octal digits by divisions and remainders and tests the three bits
of a digit by remainders.

* `Excess a e`: the permission bits that `a` has and `e` has not.
* `modeIsNoMorePermissive_iff`: the comparator holds of `a` and `e` exactly when there are none.
* `mode_comparison`: so it is a preorder, an order on `0..07777`, and blind to the bits above.
-/

namespace Seharden

open Lua

/-! ## Digits -/

theorem fltMod_natCast (n m : Nat) : fltMod (.fin n) (m : Rat) = .fin ((n % m : Nat) : Rat) := by
  have hfloor : ⌊(n : Rat) / (m : Rat)⌋ = ((n / m : Nat) : Int) := by
    rw [Rat.floor_natCast_div_natCast, Int.natCast_div]
  have hdm : ((n % m : Nat) : Rat) + (m : Rat) * ((n / m : Nat) : Rat) = (n : Rat) := by
    exact_mod_cast Nat.mod_add_div n m
  have hval : (n : Rat) - (((n / m : Nat) : Int) : Rat) * (m : Rat) = ((n % m : Nat) : Rat) := by
    rw [← hdm, Int.cast_natCast]
    ring
  simp only [fltMod, hfloor, hval]

theorem fltFloorDiv_natCast (n m : Nat) : fltFloorDiv (.fin n) (m : Rat) = .fin ((n / m : Nat) : Rat) := by
  have hfloor : ⌊(n : Rat) / (m : Rat)⌋ = ((n / m : Nat) : Int) := by
    rw [Rat.floor_natCast_div_natCast, Int.natCast_div]
  simp only [fltFloorDiv, hfloor, Int.cast_natCast]

/-- The digits of a mode. -/
theorem splitPermissionDigits_natCast (n : Nat) : splitPermissionDigits (.num n) =
    some [.fin ((n / 8 ^ 3 % 8 : Nat) : Rat), .fin ((n / 8 ^ 2 % 8 : Nat) : Rat), .fin ((n / 8 ^ 1 % 8 : Nat) : Rat),
      .fin ((n / 8 ^ 0 % 8 : Nat) : Rat)] := by
  have hneg : (Flt.fin (n : Rat)).lt (.fin 0) = false := by simp [Flt.lt]
  have hdigit : ∀ w : Nat, fltMod (fltFloorDiv (.fin n) (w : Rat)) ((8 : Nat) : Rat) =
      .fin ((n / w % 8 : Nat) : Rat) := by
    intro w
    rw [fltFloorDiv_natCast, fltMod_natCast]
  have h₃ := hdigit 512
  have h₂ := hdigit 64
  have h₁ := hdigit 8
  have h₀ := fltMod_natCast n 8
  unfold splitPermissionDigits
  simp only [tonumber, Value.double, hneg, Bool.false_eq_true, ↓reduceIte]
  norm_num at h₃ h₂ h₁ h₀ ⊢
  exact ⟨h₃, h₂, h₁, h₀⟩

/-! ## Bits -/

/-- A remainder by `2 * 2 ^ i` is at least `2 ^ i` when bit `i` is set. -/
theorem hasBit_iff (d i : Nat) {bit : Rat} (hbit : bit = ((2 ^ i : Nat) : Rat)) :
    (Flt.fin bit).le (fltMod (.fin d) (bit * 2)) = d.testBit i := by
  have hcast : ((2 ^ i : Nat) : Rat) * 2 = ((2 ^ i * 2 : Nat) : Rat) := by push_cast; ring
  have hpos : 0 < 2 ^ i := Nat.two_pow_pos i
  have hsplit : d % (2 ^ i * 2) = d % 2 ^ i + 2 ^ i * (d / 2 ^ i % 2) := Nat.mod_mul
  have hlt : d % 2 ^ i < 2 ^ i := Nat.mod_lt _ hpos
  rw [hbit, hcast, fltMod_natCast, Nat.testBit_eq_decide_div_mod_eq]
  simp only [Flt.le, Nat.cast_le]
  congr 1
  rw [hsplit, eq_iff_iff]
  rcases Nat.mod_two_eq_zero_or_one (d / 2 ^ i) with h | h <;> rw [h] <;> omega

theorem digitIsSubset_natCast (a e : Nat) :
    digitIsSubset (.fin a) (.fin e) = true ↔ ∀ i < 3, a.testBit i = true → e.testBit i = true := by
  have h₂ := fun d => @hasBit_iff d 2 4 (by norm_num)
  have h₁ := fun d => @hasBit_iff d 1 2 (by norm_num)
  have h₀ := fun d => @hasBit_iff d 0 1 (by norm_num)
  have hall : (∀ i < 3, a.testBit i = true → e.testBit i = true) ↔
      (a.testBit 2 = true → e.testBit 2 = true) ∧ (a.testBit 1 = true → e.testBit 1 = true) ∧
        (a.testBit 0 = true → e.testBit 0 = true) := by
    constructor
    · intro h
      exact ⟨h 2 (by omega), h 1 (by omega), h 0 (by omega)⟩
    · rintro ⟨h2, h1, h0⟩ i hi
      obtain rfl | rfl | rfl : i = 0 ∨ i = 1 ∨ i = 2 := by omega
      exacts [h0, h1, h2]
  rw [hall]
  unfold digitIsSubset
  simp only [List.all_cons, List.all_nil, h₂, h₁, h₀]
  cases a.testBit 2 <;> cases a.testBit 1 <;> cases a.testBit 0 <;> simp

/-- Bit `i` of digit `k` is bit `3 * k + i` of the mode. -/
theorem testBit_digit (n k : Nat) {i : Nat} (h : i < 3) : (n / 8 ^ k % 8).testBit i = n.testBit (3 * k + i) := by
  have hpow : 8 ^ k = 2 ^ (3 * k) := by rw [pow_mul]; rfl
  rw [show (8 : Nat) = 2 ^ 3 from rfl, Nat.testBit_mod_two_pow, ← show (8 : Nat) = 2 ^ 3 from rfl, hpow,
    Nat.testBit_div_two_pow, Nat.add_comm i]
  simp [h]

/-! ## The comparator -/

/-- `a AND NOT e` on the twelve permission bits. -/
def excess (a e : Nat) : Nat := a.ldiff e &&& 0o7777

theorem excess_eq_zero_iff {a e : Nat} :
    excess a e = 0 ↔ ∀ i < 12, a.testBit i = true → e.testBit i = true := by
  have hmask : ∀ i, (0o7777 : Nat).testBit i = decide (i < 12) := fun i => Nat.testBit_two_pow_sub_one 12 i
  have hbit : ∀ i, (excess a e).testBit i = (a.testBit i && !e.testBit i && decide (i < 12)) := by
    intro i
    rw [excess, Nat.testBit_and, Nat.testBit_ldiff, hmask]
  constructor
  · intro h i hi ha
    have hz := hbit i
    rw [h, Nat.zero_testBit, ha, decide_eq_true hi] at hz
    simpa using hz
  · intro h
    apply Nat.eq_of_testBit_eq
    intro i
    rw [hbit i, Nat.zero_testBit]
    by_cases hi : i < 12
    · have := h i hi
      cases ha : a.testBit i <;> simp_all
    · simp [hi]

/-- The four digits together are the twelve bits. -/
theorem forall_bits {p : Nat → Prop} : (∀ i < 12, p i) ↔ ∀ k < 4, ∀ i < 3, p (3 * k + i) := by
  constructor
  · intro h k hk i hi
    exact h _ (by omega)
  · intro h i hi
    have := h (i / 3) (by omega) (i % 3) (by omega)
    rwa [Nat.div_add_mod] at this

/-- **What the comparator says of two modes.** -/
theorem modeIsNoMorePermissive_iff (a e : Nat) :
    modeIsNoMorePermissive (.num a) (.num e) = true ↔ excess a e = 0 := by
  have hdigit : ∀ k, digitIsSubset (.fin ((a / 8 ^ k % 8 : Nat) : Rat)) (.fin ((e / 8 ^ k % 8 : Nat) : Rat)) = true ↔
      ∀ i < 3, a.testBit (3 * k + i) = true → e.testBit (3 * k + i) = true := by
    intro k
    rw [digitIsSubset_natCast]
    refine forall₂_congr fun i hi => ?_
    rw [testBit_digit a k hi, testBit_digit e k hi]
  have hfour : ∀ q : Nat → Prop, (∀ k < 4, q k) ↔ q 3 ∧ q 2 ∧ q 1 ∧ q 0 := by
    intro q
    constructor
    · intro h
      exact ⟨h 3 (by omega), h 2 (by omega), h 1 (by omega), h 0 (by omega)⟩
    · rintro ⟨h3, h2, h1, h0⟩ k hk
      obtain rfl | rfl | rfl | rfl : k = 0 ∨ k = 1 ∨ k = 2 ∨ k = 3 := by omega
      exacts [h0, h1, h2, h3]
  rw [excess_eq_zero_iff, forall_bits, hfour]
  unfold modeIsNoMorePermissive
  rw [splitPermissionDigits_natCast, splitPermissionDigits_natCast]
  simp only [List.zip_cons_cons, List.zip_nil_right, List.all_cons, List.all_nil, Bool.and_true, Bool.and_eq_true,
    hdigit]

theorem excess_self (a : Nat) : excess a a = 0 := excess_eq_zero_iff.mpr fun _ _ h => h

theorem excess_trans {a b c : Nat} (hab : excess a b = 0) (hbc : excess b c = 0) : excess a c = 0 := by
  rw [excess_eq_zero_iff] at *
  intro i hi ha
  exact hbc i hi (hab i hi ha)

theorem excess_antisymm {a e : Nat} (ha : a ≤ 0o7777) (he : e ≤ 0o7777) (hae : excess a e = 0)
    (hea : excess e a = 0) : a = e := by
  rw [excess_eq_zero_iff] at hae hea
  have hhigh : ∀ n ≤ 0o7777, ∀ i, 12 ≤ i → n.testBit i = false := by
    intro n hn i hi
    apply Nat.testBit_lt_two_pow
    calc n < 2 ^ 12 := by omega
      _ ≤ 2 ^ i := Nat.pow_le_pow_right (by omega) hi
  apply Nat.eq_of_testBit_eq
  intro i
  by_cases hi : i < 12
  · rw [Bool.eq_iff_iff]
    exact ⟨hae i hi, hea i hi⟩
  · rw [hhigh a ha i (by omega), hhigh e he i (by omega)]

theorem testBit_fileType (n type : Nat) {i : Nat} (h : i < 12) : (n + type * 2 ^ 12).testBit i = n.testBit i := by
  have hmod : (n + type * 2 ^ 12) % 2 ^ 12 = n % 2 ^ 12 := Nat.add_mul_mod_self_right n type _
  have hbit : ∀ m, (m % 2 ^ 12).testBit i = m.testBit i := by
    intro m
    rw [Nat.testBit_mod_two_pow]
    simp [h]
  rw [← hbit, hmod, hbit]

theorem excess_fileType (a e type type' : Nat) :
    excess (a + type * 2 ^ 12) (e + type' * 2 ^ 12) = 0 ↔ excess a e = 0 := by
  rw [excess_eq_zero_iff, excess_eq_zero_iff]
  refine forall₂_congr fun i hi => ?_
  rw [testBit_fileType a type hi, testBit_fileType e type' hi]

/-- **Mode comparison is bitwise inclusion.** For non-negative integers the comparator is inclusion of the permission
bits: reflexive, transitive, antisymmetric on `0..07777` and insensitive to the file type above them. -/
theorem mode_comparison (a e : Nat) :
    (modeIsNoMorePermissive (.num a) (.num e) = true ↔ excess a e = 0) ∧
    modeIsNoMorePermissive (.num a) (.num a) = true ∧
    (∀ b : Nat, modeIsNoMorePermissive (.num a) (.num b) = true → modeIsNoMorePermissive (.num b) (.num e) = true →
      modeIsNoMorePermissive (.num a) (.num e) = true) ∧
    (a ≤ 0o7777 → e ≤ 0o7777 → modeIsNoMorePermissive (.num a) (.num e) = true →
      modeIsNoMorePermissive (.num e) (.num a) = true → a = e) ∧
    ∀ type type' : Nat, modeIsNoMorePermissive (.num ((a + type * 2 ^ 12 : Nat) : Rat))
        (.num ((e + type' * 2 ^ 12 : Nat) : Rat)) = modeIsNoMorePermissive (.num a) (.num e) := by
  simp only [modeIsNoMorePermissive_iff]
  refine ⟨trivial, excess_self a, ?_, ?_, ?_⟩
  · intro b hab hbe
    exact excess_trans hab hbe
  · intro ha he hae hea
    exact excess_antisymm ha he hae hea
  · intro type type'
    rw [Bool.eq_iff_iff, modeIsNoMorePermissive_iff, modeIsNoMorePermissive_iff]
    exact excess_fileType a e type type'

example : modeIsNoMorePermissive (.num 0o100640) (.num 0o644) = true := by decide +kernel

end Seharden
