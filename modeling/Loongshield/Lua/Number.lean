import Mathlib.Data.Rat.Floor

/-!
# Lua numbers

LuaJIT numbers are IEEE doubles. A finite double is its rational value (`Rat`); comparisons of doubles are comparisons
of these, and the only arithmetic the modelled code does on numbers (division by a power of two, `math.floor`,
remainder by a small power of two) is exact, so it is the arithmetic of `Rat`. What rounds is reading a numeral:
`tonumber` gives the nearest double (`roundDouble`). `Flt` adds the infinities and NaN, which `tonumber` also reads.

* `strscan`: the numerals `tonumber` accepts (decimal, hexadecimal, binary, `inf`, `nan`, blanks around them).
* `fmtNumber`: `tostring` of a number, the C format `%.14g`; `fmtInt`: the format `%d`.
-/

namespace Lua

/-- A Lua string: its bytes, one character each. -/
abbrev Str := List Char

instance : Coe String Str := ⟨String.toList⟩

instance : LawfulBEq Str := inferInstance

/-- What `tonumber` can give. -/
inductive Flt
  | nan
  | inf (neg : Bool)
  | fin (q : Rat)
deriving DecidableEq

namespace Flt

/-- `a < b` on doubles; false when one of them is NaN. -/
def lt : Flt → Flt → Bool
  | .fin a, .fin b => decide (a < b)
  | .inf true, .fin _ => true
  | .inf true, .inf false => true
  | .fin _, .inf false => true
  | _, _ => false

/-- `a <= b` on doubles; false when one of them is NaN. -/
def le : Flt → Flt → Bool
  | .fin a, .fin b => decide (a ≤ b)
  | .inf true, .fin _ => true
  | .fin _, .inf false => true
  | .inf a, .inf b => a || !b
  | _, _ => false

end Flt

/-! ## Rounding to the nearest double -/

/-- `2 ^ e` for an integer exponent. -/
def pow2 (e : Int) : Rat := if 0 ≤ e then ((2 ^ e.toNat : Nat) : Rat) else 1 / ((2 ^ (-e).toNat : Nat) : Rat)

/-- `10 ^ e` for an integer exponent. -/
def pow10 (e : Int) : Rat := if 0 ≤ e then ((10 ^ e.toNat : Nat) : Rat) else 1 / ((10 ^ (-e).toNat : Nat) : Rat)

/-- Rounding a rational to the nearest integer, ties to even. -/
def roundHalfEven (q : Rat) : Int :=
  let f := ⌊q⌋
  let r := q - f
  if r < 1 / 2 then f else if 1 / 2 < r then f + 1 else if f % 2 = 0 then f else f + 1

/-- The double nearest to `q`: 53 significant bits, exponents from `-1074`, overflow to infinity. -/
def roundDouble (q : Rat) : Flt :=
  if q = 0 then .fin 0 else
  let a := |q|
  let k : Int := (Nat.log2 a.num.natAbs : Int) - Nat.log2 a.den
  let e₀ : Int := k - 52
  let e₁ : Int := if a / pow2 e₀ < pow2 52 then e₀ - 1 else e₀
  let e : Int := max e₁ (-1074)
  let r : Rat := roundHalfEven (a / pow2 e) * pow2 e
  if pow2 1024 ≤ r then .inf (q < 0) else .fin (if q < 0 then -r else r)

/-! ## Reading numerals -/

/-- `isspace` of the C locale. -/
def isspace (c : Char) : Bool := c == ' ' || (9 ≤ c.toNat && c.toNat ≤ 13)

/-- The lower-case letter of an upper-case ASCII letter; other characters are left alone. -/
def lowerChar (c : Char) : Char := if 'A' ≤ c ∧ c ≤ 'Z' then Char.ofNat (c.toNat + 32) else c

/-- `string.lower`. -/
def lower (s : Str) : Str := s.map lowerChar

/-- The value of a digit in bases up to 16. -/
def digitVal (c : Char) : Option Nat :=
  if '0' ≤ c ∧ c ≤ '9' then some (c.toNat - 48)
  else if 'a' ≤ c ∧ c ≤ 'f' then some (c.toNat - 87)
  else none

/-- The digits of the given base at the front of `s`, and the rest. -/
def spanDigits (base : Nat) (s : Str) : List Nat × Str :=
  let ok (c : Char) : Bool := match digitVal c with
    | some d => d < base
    | none => false
  ((s.takeWhile ok).filterMap digitVal, s.dropWhile ok)

/-- The number with the given digits, most significant first. -/
def ofDigits (base : Nat) (ds : List Nat) : Nat := ds.foldl (fun n d => n * base + d) 0

/-- A signed exponent. -/
def scanExponent (s : Str) : Option Int :=
  let (neg, s) := match s with
    | '-' :: s => (true, s)
    | '+' :: s => (false, s)
    | s => (false, s)
  match spanDigits 10 s with
  | ([], _) => none
  | (ds, []) => some (if neg then -(ofDigits 10 ds : Int) else ofDigits 10 ds)
  | _ => none

/-- An unsigned numeral of a base: digits with at most one point, then an exponent after the mark, if the base has
one (`10 ^ e` after `e`, `2 ^ e` after `p`). -/
def scanBase (base : Nat) (mark : Option Char) (scale : Int → Rat) (s : Str) : Option Rat :=
  let (ip, s) := spanDigits base s
  let (fp, s) := match s with
    | '.' :: s => spanDigits base s
    | s => ([], s)
  if ip.isEmpty && fp.isEmpty then none else
  let m : Rat := ofDigits base (ip ++ fp) / (base ^ fp.length : Nat)
  match s with
  | [] => some m
  | c :: s => if some c = mark then (scanExponent s).map fun e => m * scale e else none

/-- The numerals `tonumber` accepts, without sign and blanks, in lower case. -/
def scanUnsigned : Str → Option Flt
  | '0' :: 'x' :: s => (scanBase 16 (some 'p') pow2 s).map roundDouble
  | '0' :: 'b' :: s => (scanBase 2 none pow2 s).map roundDouble
  | s =>
    if s = "inf" ∨ s = "infinity" then some (.inf false)
    else if s = "nan" then some .nan
    else (scanBase 10 (some 'e') pow10 s).map roundDouble

/-- Negation of a double. -/
def Flt.neg : Flt → Flt
  | .nan => .nan
  | .inf b => .inf !b
  | .fin q => .fin (-q)

/-- `tonumber` of a string. -/
def strscan (s : Str) : Option Flt :=
  let s := lower ((s.dropWhile isspace).reverse.dropWhile isspace).reverse
  match s with
  | '-' :: s => (scanUnsigned s).map Flt.neg
  | '+' :: s => scanUnsigned s
  | s => scanUnsigned s

/-! ## Writing numbers -/

/-- The decimal digits of a natural number. -/
def natStr (n : Nat) : Str := Nat.toDigits 10 n

/-- The decimal exponent `x` of a positive rational: `10 ^ x ≤ a < 10 ^ (x + 1)`. -/
def decExponent (a : Rat) : Int :=
  let x : Int := ((natStr a.num.natAbs).length : Int) - (natStr a.den).length
  if a < pow10 x then x - 1 else x

/-- The decimal digits of an integer. -/
def intStr (i : Int) : Str := if i < 0 then '-' :: natStr i.natAbs else natStr i.natAbs

/-- `string.format('%d', n)`: the number is cut to a 64-bit integer; what has none becomes the least one. -/
def fmtInt : Flt → Str
  | .fin q =>
    let i : Int := if 0 ≤ q then ⌊q⌋ else ⌈q⌉
    intStr (if -2 ^ 63 ≤ i ∧ i < 2 ^ 63 then i else -2 ^ 63)
  | _ => intStr (-2 ^ 63)

/-- Without the zeros at the end. -/
def stripZeros (s : Str) : Str := (s.reverse.dropWhile (· == '0')).reverse

/-- `tostring` of a number: the C format `%.14g`. -/
def fmtNumber (q : Rat) : Str :=
  if q = 0 then "0" else
  let a := |q|
  let x₀ := decExponent a
  let m₀ := (roundHalfEven (a * pow10 (13 - x₀))).toNat
  let (m, x) := if m₀ = 10 ^ 14 then (10 ^ 13, x₀ + 1) else (m₀, x₀)
  let ds := natStr m
  let point (ip fp : Str) : Str := if stripZeros fp = [] then ip else ip ++ '.' :: stripZeros fp
  let body : Str :=
    if x < -4 ∨ 14 ≤ x then
      let e := natStr x.natAbs
      point (ds.take 1) (ds.drop 1) ++ 'e' :: (if x < 0 then '-' else '+') ::
        ((if e.length < 2 then ['0'] else []) ++ e)
    else if 0 ≤ x then point (ds.take (x.toNat + 1)) (ds.drop (x.toNat + 1))
    else point "0" (List.replicate (-x - 1).toNat '0' ++ ds)
  if q < 0 then '-' :: body else body

/-! ## Reading what was written -/

section ReadBack

variable {s : Str}

theorem digitVal_of_isDigit {c : Char} (h : c.isDigit = true) : digitVal c = some (c.toNat - 48) ∧
    c.toNat - 48 < 10 := by
  rw [Char.isDigit, Bool.and_eq_true, decide_eq_true_eq, decide_eq_true_eq] at h
  have hrange : '0' ≤ c ∧ c ≤ '9' := h
  have hlt : c.toNat ≤ 57 := h.2
  exact ⟨by rw [digitVal, if_pos hrange], by omega⟩

theorem spanDigits_digits : ∀ {s : Str}, (∀ c ∈ s, c.isDigit = true) →
    spanDigits 10 s = (s.map fun c => c.toNat - 48, [])
  | [], _ => rfl
  | c :: s, h => by
    obtain ⟨hval, hlt⟩ := digitVal_of_isDigit (h c List.mem_cons_self)
    have ih := spanDigits_digits fun d hd => h d (List.mem_cons_of_mem c hd)
    simp only [spanDigits, Prod.mk.injEq] at ih ⊢
    rw [List.takeWhile_cons_of_pos (by simp [hval, hlt]), List.dropWhile_cons_of_pos (by simp [hval, hlt])]
    exact ⟨by rw [List.filterMap_cons, hval, ih.1]; rfl, ih.2⟩

theorem ofDigits_digits (s : Str) : ofDigits 10 (s.map fun c => c.toNat - 48) = Nat.ofDigitChars 10 s 0 := by
  rw [ofDigits, List.foldl_map, Nat.ofDigitChars_eq_foldl]
  congr 1
  funext n c
  rw [Nat.mul_comm]
  rfl

theorem isspace_of_isDigit {c : Char} (h : c.isDigit = true) : isspace c = false ∧ lowerChar c = c := by
  rw [Char.isDigit, Bool.and_eq_true, decide_eq_true_eq, decide_eq_true_eq] at h
  have hlo : 48 ≤ c.toNat := h.1
  have hhi : c.toNat ≤ 57 := h.2
  have hne : c ≠ ' ' := by
    rintro rfl
    exact absurd hlo (by decide)
  refine ⟨by simp [isspace, hne]; omega, if_neg fun hA => ?_⟩
  have hA' : 65 ≤ c.toNat := hA.1
  omega

/-- **A decimal numeral** is read as the double nearest to it. -/
theorem strscan_digits (hne : s ≠ []) (h : ∀ c ∈ s, c.isDigit = true) :
    strscan s = some (roundDouble (Nat.ofDigitChars 10 s 0)) := by
  have hkeep : ∀ t : Str, (∀ c ∈ t, c.isDigit = true) → t.dropWhile isspace = t := by
    intro t ht
    cases t with
    | nil => rfl
    | cons c t => exact List.dropWhile_cons_of_neg (by simp [(isspace_of_isDigit (ht c List.mem_cons_self)).1])
  have hlower : lower s = s := by
    have hid : lower s = s.map id := List.map_congr_left fun c hc => (isspace_of_isDigit (h c hc)).2
    rw [hid, List.map_id]
  have htrim : lower ((s.dropWhile isspace).reverse.dropWhile isspace).reverse = s := by
    rw [hkeep s h, hkeep s.reverse fun c hc => h c (List.mem_reverse.mp hc), List.reverse_reverse, hlower]
  have hno : ∀ c : Char, c.isDigit = false → c ∉ s := fun c hc hmem => by simp [h c hmem] at hc
  have hunsigned : scanUnsigned s = (scanBase 10 (some 'e') pow10 s).map roundDouble := by
    unfold scanUnsigned
    split
    · exact absurd (by simp) (hno 'x' rfl)
    · exact absurd (by simp) (hno 'b' rfl)
    · rw [if_neg, if_neg]
      · rintro rfl
        exact hno 'n' rfl (by decide)
      · rintro (rfl | rfl)
        · exact hno 'i' rfl (by decide)
        · exact hno 'i' rfl (by decide)
  unfold strscan
  dsimp only
  rw [htrim]
  split
  · exact absurd (by simp) (hno '-' rfl)
  · exact absurd (by simp) (hno '+' rfl)
  · rw [hunsigned, scanBase, spanDigits_digits h]
    have hempty : (s.map fun c => c.toNat - 48).isEmpty = false := by simpa using hne
    simp [hempty, ofDigits_digits]

/-- The digits of a number are read as the double nearest to it. -/
theorem strscan_natStr (n : Nat) : strscan (natStr n) = some (roundDouble n) := by
  rw [natStr, strscan_digits Nat.toDigits_ne_nil fun c hc => Nat.isDigit_of_mem_toDigits (by decide) (by decide) hc,
    Nat.ofDigitChars_ten_toDigits]

end ReadBack

/-! ## Whole numbers -/

theorem roundHalfEven_intCast (n : Int) : roundHalfEven n = n := by
  unfold roundHalfEven
  simp

/-- A whole number below `2 ^ 53` is a double. -/
theorem roundDouble_natCast {n : Nat} (h : n < 2 ^ 53) : roundDouble n = .fin n := by
  rcases Nat.eq_zero_or_pos n with rfl | hpos
  · rfl
  have hlog : Nat.log2 n ≤ 52 := Nat.le_of_lt_succ ((Nat.log2_lt hpos.ne').mpr h)
  have hself : 2 ^ Nat.log2 n ≤ n := Nat.log2_self_le hpos.ne'
  obtain ⟨m, hm⟩ : ∃ m, m + Nat.log2 n = 52 := ⟨52 - Nat.log2 n, by omega⟩
  have hscale : pow2 (((Nat.log2 n : Nat) : Int) - ((0 : Nat) : Int) - 52) = 1 / ((2 ^ m : Nat) : Rat) := by
    rw [show ((Nat.log2 n : Nat) : Int) - ((0 : Nat) : Int) - 52 = -(m : Int) by omega, pow2]
    by_cases hm0 : m = 0
    · subst hm0
      simp
    · rw [if_neg (by omega)]
      simp
  have hdiv : (n : Rat) / pow2 (((Nat.log2 n : Nat) : Int) - ((0 : Nat) : Int) - 52) = ((n * 2 ^ m : Nat) : Int) := by
    rw [hscale]
    push_cast
    field_simp
  have hge : ¬ (n : Rat) / pow2 (((Nat.log2 n : Nat) : Int) - ((0 : Nat) : Int) - 52) < pow2 52 := by
    have hpow : pow2 52 = ((2 ^ 52 : Nat) : Rat) := rfl
    rw [hdiv, hpow, not_lt]
    have hle : 2 ^ 52 ≤ n * 2 ^ m := by
      calc 2 ^ 52 = 2 ^ Nat.log2 n * 2 ^ m := by rw [← Nat.pow_add, Nat.add_comm, hm]
        _ ≤ n * 2 ^ m := Nat.mul_le_mul_right _ hself
    exact_mod_cast hle
  have hmax : max (((Nat.log2 n : Nat) : Int) - ((0 : Nat) : Int) - 52) (-1074) =
      ((Nat.log2 n : Nat) : Int) - ((0 : Nat) : Int) - 52 := by omega
  have hback : (((n * 2 ^ m : Nat) : Int) : Rat) * (1 / ((2 ^ m : Nat) : Rat)) = n := by
    push_cast
    field_simp
  have hsmall : ¬ pow2 1024 ≤ (n : Rat) := by
    have hpow : pow2 1024 = ((2 ^ 1024 : Nat) : Rat) := rfl
    rw [hpow, not_le]
    exact_mod_cast h.trans (Nat.pow_lt_pow_right (by omega) (by omega))
  have habs : |(n : Rat)| = n := abs_of_nonneg (Nat.cast_nonneg n)
  have hnum : (n : Rat).num.natAbs = n := by simp
  have hden : Nat.log2 (n : Rat).den = 0 := by rw [Rat.den_natCast]; decide
  unfold roundDouble
  rw [if_neg (by exact_mod_cast hpos.ne')]
  dsimp only
  rw [habs, hnum, hden, if_neg hge, hmax, hdiv, roundHalfEven_intCast, hscale, hback, if_neg hsmall,
    if_neg (not_lt.mpr (Nat.cast_nonneg n))]

end Lua
