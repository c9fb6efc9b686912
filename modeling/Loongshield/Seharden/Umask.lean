import Loongshield.Seharden.Trim

/-!
# `shared/umask_policy.lua`

A umask is compared with a baseline bit by bit. A symbolic umask changes a mask that is not known, and the code runs it
on two masks, 0 and 63: it takes 63 for the mask of all bits, which is 0777, and it adds up the permissions that a
clause names, so that one named twice counts as another.

- `classify`: the code;
- `shellRun`: what a shell makes of a symbolic umask;
- `reread`: the permissions that the sum of a clause stands for;
- `classify_exact_iff`: when the classification is that of the shell.
-/

namespace Seharden

open Lua Pattern

/-! ## The code -/

/-- `tonumber(text, 8)` of octal digits: `strtoul`, which stops at the greatest 64-bit number, and then a double. -/
def octalNumber (text : Str) : Flt := roundDouble (min (Nat.ofDigitChars 8 text 0) (2 ^ 64 - 1) : Nat)

/-- `parse_mask`. -/
def parseMask (value : Str) : Option Flt :=
  let text := trim value
  if text = [] || !isMatch text "^[0-7]+$" then none else some (octalNumber text)

/-- `has_bit`. -/
def hasBit : Flt → Nat → Bool
  | .fin q, bit => ⌊q / bit⌋ % 2 == 1
  | _, _ => false

/-- `is_at_least_restrictive`. -/
def isAtLeastRestrictive (actual baseline : Flt) : Bool :=
  [1, 2, 4, 8, 16, 32, 64, 128, 256].all fun bit => !(hasBit baseline bit && !hasBit actual bit)

/-- `parse_symbolic_permissions`, from the given sum on. -/
def parseSymbolicPermissions : Nat → Str → Option Nat
  | bits, [] => some bits
  | bits, 'r' :: value => parseSymbolicPermissions (bits + 4) value
  | bits, 'w' :: value => parseSymbolicPermissions (bits + 2) value
  | bits, 'x' :: value => parseSymbolicPermissions (bits + 1) value
  | _, _ :: _ => none

/-- The classes that a umask has a digit for. -/
inductive UserClass
  | user
  | group
  | other
  deriving DecidableEq

/-- The digits of a mask. -/
abbrev Digits := UserClass → Int

/-- The digits that `for_each_symbolic_target` calls back for. -/
def symbolicTargets (who : Str) : List UserClass :=
  if who = [] || who.contains 'a' then [.user, .group, .other]
  else [(UserClass.user, 'u'), (.group, 'g'), (.other, 'o')].filterMap fun (c, letter) =>
    if who.contains letter then some c else none

/-- One bit of the loop of `apply_mask_digit_operation`. -/
def applyBit (operator : Str) (permissionBits : Nat) (nextDigit : Int) (bit : Nat) : Int :=
  let includesBit := decide (bit ≤ permissionBits % (bit * 2))
  let hasDigitBit := decide ((bit : Int) ≤ nextDigit % (bit * 2))
  if includesBit && operator = "+".toList && hasDigitBit then nextDigit - bit
  else if includesBit && operator = "-".toList && !hasDigitBit then nextDigit + bit
  else nextDigit

/-- `apply_mask_digit_operation`. -/
def applyMaskDigitOperation (currentDigit : Int) (operator : Str) (permissionBits : Nat) : Int :=
  if operator = "=".toList then 7 - permissionBits
  else [4, 2, 1].foldl (applyBit operator permissionBits) currentDigit

/-- `split_mask_digits`. -/
def splitMaskDigits (mask : Nat) : Digits
  | .user => (mask / 64 % 8 : Nat)
  | .group => (mask / 8 % 8 : Nat)
  | .other => (mask % 8 : Nat)

/-- `join_mask_digits`. -/
def joinMaskDigits (digits : Digits) : Int := digits .user * 64 + digits .group * 8 + digits .other

/-- A clause of a symbolic umask. -/
structure Clause where
  who : Str
  operator : Str
  perms : Str
  deriving DecidableEq

/-- The clause that is matched, with the checks on it. -/
def parseClause (clause : Str) : Option Clause :=
  match matchCaptures clause "^([augo]*)([=+-])([rwx]*)$" with
  | some [who, operator, perms] =>
    if perms = [] && operator ≠ "=".toList then none else some ⟨who, operator, perms⟩
  | _ => none

/-- What a clause makes of the digits. -/
def applyClause (clause : Clause) (digits : Digits) : Option Digits := do
  let permissionBits ← parseSymbolicPermissions 0 clause.perms
  let targets := symbolicTargets clause.who
  if targets = [] then none
  else return fun c =>
    if c ∈ targets then applyMaskDigitOperation (digits c) clause.operator permissionBits else digits c

/-- The loop of `evaluate_symbolic_mask` over the clauses; all digits there are on the way are kept, the last first. -/
def clauseLoop : List Str → List Digits → Digits → Option (List Digits × Digits)
  | [], trace, digits => some (trace, digits)
  | text :: texts, trace, digits => do
    let clause ← parseClause text
    let next ← applyClause clause digits
    clauseLoop texts (next :: trace) next

/-- `evaluate_symbolic_mask`, with the digits on the way. -/
def evaluateTrace (value : Str) (baseMask : Nat) : Option (List Digits × Digits) :=
  let text := trim value
  if text = [] || isMatch text "%s" then none
  else clauseLoop (captures text "[^,]+") [] (splitMaskDigits baseMask)

/-- `evaluate_symbolic_mask`. -/
def evaluateSymbolicMask (value : Str) (baseMask : Nat) : Option Flt :=
  (evaluateTrace value baseMask).map fun r => .fin (joinMaskDigits r.2)

/-- What a umask is classified as. -/
inductive Classification
  | compliant
  | conflict
  | indeterminate
  deriving DecidableEq

/-- `classify`. -/
def classify (value : Str) (baseline : Flt) : Option Classification :=
  match parseMask value with
  | some octalValue => some (if isAtLeastRestrictive octalValue baseline then .compliant else .conflict)
  | none => do
    let minimumMask ← evaluateSymbolicMask value 0
    if isAtLeastRestrictive minimumMask baseline then return .compliant
    else
      let maximumMask ← evaluateSymbolicMask value 63
      if !isAtLeastRestrictive maximumMask baseline then return .conflict
      else return .indeterminate

/-! ## The shell -/

/-- The permissions. -/
inductive Perm
  | read
  | write
  | exec
  deriving DecidableEq

/-- The letter of a permission. -/
def Perm.letter : Perm → Char
  | .read => 'r'
  | .write => 'w'
  | .exec => 'x'

/-- The bit of a permission in its digit. -/
def Perm.pos : Perm → Nat
  | .read => 2
  | .write => 1
  | .exec => 0

/-- The lowest bit of a digit in the mask. -/
def UserClass.shift : UserClass → Nat
  | .user => 6
  | .group => 3
  | .other => 0

/-- The permissions that a mask blocks. -/
abbrev Mask := UserClass → Perm → Bool

/-- The mask that is the bits of a number. -/
def maskOf (n : Nat) : Mask := fun c p => n.testBit (c.shift + p.pos)

/-- The mask has all bits of the baseline. -/
def containsAll (baseline : Nat) (mask : Mask) : Bool :=
  [UserClass.other, .group, .user].all fun c => [Perm.exec, .write, .read].all fun p =>
    !(maskOf baseline c p && !mask c p)

/-- What a shell does at a clause: `=` blocks all but the named permissions, `+` unblocks them, `-` blocks them. -/
def shellClause (targets : List UserClass) (operator : Str) (named : Perm → Bool) (mask : Mask) : Mask := fun c p =>
  if c ∈ targets then
    if operator = "=".toList then !named p
    else if operator = "+".toList then mask c p && !named p
    else if operator = "-".toList then mask c p || named p
    else mask c p
  else mask c p

/-- What a shell makes of a mask, where `named` are the permissions that a clause names. -/
def shellRun (named : Clause → Perm → Bool) (clauses : List Clause) (mask : Mask) : Mask :=
  clauses.foldl (fun mask clause => shellClause (symbolicTargets clause.who) clause.operator (named clause) mask) mask

/-- The permissions that a clause names; naming one twice is the same as once. -/
def named (clause : Clause) (p : Perm) : Bool := clause.perms.contains p.letter

/-- The sum of the permissions of a clause. -/
def permissionSum (clause : Clause) : Nat :=
  4 * clause.perms.count 'r' + 2 * clause.perms.count 'w' + clause.perms.count 'x'

/-- The permissions that the sum of a clause stands for. -/
def reread (clause : Clause) (p : Perm) : Bool := (permissionSum clause).testBit p.pos

/-- The clauses of a symbolic umask. -/
def clausesOf (value : Str) : List Clause := ((captures (trim value) "[^,]+").mapM parseClause).getD []

/-- The mask that a umask command leaves, from the mask there was before it. -/
def resulting (value : Str) (start : Nat) : Mask :=
  if (parseMask value).isSome then maskOf (Nat.ofDigitChars 8 (trim value) 0)
  else shellRun named (clausesOf value) (maskOf start)

/-- The digits are octal. -/
def InRange (digits : Digits) : Prop := ∀ c, 0 ≤ digits c ∧ digits c ≤ 7

/-- **The classification is exact** for a umask and a baseline. -/
structure ClassifiedExactly (value : Str) (baseline : Nat) : Prop where
  compliant : classify value (.fin baseline) = some .compliant ↔
    ∀ start < 512, containsAll baseline (resulting value start) = true
  conflict : classify value (.fin baseline) = some .conflict ↔
    ∀ start < 512, containsAll baseline (resulting value start) = false
  indeterminate : classify value (.fin baseline) = some .indeterminate ↔
    (¬ ∀ start < 512, containsAll baseline (resulting value start) = true) ∧
      ¬ ∀ start < 512, containsAll baseline (resulting value start) = false
  digits : parseMask value = none → ∀ base ∈ [0, 63], ∀ r, evaluateTrace value base = some r → ∀ d ∈ r.1, InRange d

/-- The bits of a double. -/
def bitsOf (x : Flt) : Mask := fun c p => hasBit x (2 ^ (c.shift + p.pos))

/-- The condition: of a number, its double has the bits of the baseline iff it has them itself; of clauses, no sum that
is set exceeds 7, and the clauses read by their sums take 0 and 63 where the clauses take 0 and 0777, as far as having
the bits of the baseline goes. -/
def ReadAlike (value : Str) (baseline : Nat) : Prop :=
  if (parseMask value).isSome then
    containsAll baseline (bitsOf (octalNumber (trim value))) =
      containsAll baseline (maskOf (Nat.ofDigitChars 8 (trim value) 0))
  else
    (∀ clause ∈ clausesOf value, clause.operator = "=".toList → permissionSum clause ≤ 7) ∧
      containsAll baseline (shellRun reread (clausesOf value) (maskOf 0)) =
        containsAll baseline (shellRun named (clausesOf value) (maskOf 0)) ∧
      containsAll baseline (shellRun reread (clausesOf value) (maskOf 63)) =
        containsAll baseline (shellRun named (clausesOf value) (maskOf 511))

/-! ## Bits of numbers -/

theorem hasBit_nat (n k : Nat) : hasBit (.fin n) (2 ^ k) = n.testBit k := by
  have hfloor : ⌊(n : Rat) / ((2 ^ k : Nat) : Rat)⌋ = ((n / 2 ^ k : Nat) : Int) :=
    Rat.floor_natCast_div_natCast n (2 ^ k)
  change (⌊(n : Rat) / ((2 ^ k : Nat) : Rat)⌋ % 2 == 1) = _
  rw [hfloor, Nat.testBit_eq_decide_div_mod_eq, Bool.eq_iff_iff, beq_iff_eq, decide_eq_true_eq]
  omega

theorem isAtLeastRestrictive_eq (actual : Flt) (baseline : Nat) :
    isAtLeastRestrictive actual (.fin baseline) = containsAll baseline (bitsOf actual) := by
  have hbit := hasBit_nat baseline
  unfold isAtLeastRestrictive containsAll bitsOf maskOf
  simp only [← hbit, List.all_cons, List.all_nil, UserClass.shift, Perm.pos, Bool.and_true, Bool.and_assoc]
  rfl

/-- The mask of octal digits. -/
def digitMask (digits : Digits) : Mask := fun c p => (digits c).toNat.testBit p.pos

theorem bitsOf_join {digits : Digits} (h : InRange digits) :
    bitsOf (.fin (joinMaskDigits digits)) = digitMask digits := by
  have hu := h .user
  have hg := h .group
  have ho := h .other
  have hjoin : (joinMaskDigits digits : Rat) =
      ((2 ^ 6 * (digits .user).toNat + (2 ^ 3 * (digits .group).toNat + (digits .other).toNat) : Nat) : Rat) := by
    have hint : joinMaskDigits digits =
        ((2 ^ 6 * (digits .user).toNat + (2 ^ 3 * (digits .group).toNat + (digits .other).toNat) : Nat) : Int) := by
      unfold joinMaskDigits
      omega
    rw [hint]
    norm_cast
  funext c p
  unfold bitsOf digitMask
  rw [hjoin, hasBit_nat, Nat.testBit_two_pow_mul_add _ (by omega)]
  cases c with
  | user =>
    rw [if_neg (by simp [UserClass.shift])]
    congr 1
    simp [UserClass.shift]
  | group =>
    rw [if_pos (by cases p <;> decide), Nat.testBit_two_pow_mul_add _ (by omega), if_neg (by simp [UserClass.shift])]
    congr 1
    simp [UserClass.shift]
  | other =>
    rw [if_pos (by cases p <;> decide), Nat.testBit_two_pow_mul_add _ (by omega), if_pos (by cases p <;> decide)]
    congr 1
    simp [UserClass.shift]

/-! ## Digits and clauses -/

theorem set_digit : ∀ m < (8 : Nat), (0 ≤ 7 - (m : Int) ∧ 7 - (m : Int) ≤ 7) ∧
    ∀ k < 3, (7 - (m : Int)).toNat.testBit k = !m.testBit k := by
  decide

theorem unblock_digit : ∀ n < (8 : Nat), ∀ m < (8 : Nat), ((0 : Int) ≤ [4, 2, 1].foldl (applyBit "+" m) n ∧
    [4, 2, 1].foldl (applyBit "+" m) n ≤ (7 : Int)) ∧
    ∀ k < 3, (([4, 2, 1].foldl (applyBit "+" m) n : Int)).toNat.testBit k = (n.testBit k && !m.testBit k) := by
  decide +kernel

theorem block_digit : ∀ n < (8 : Nat), ∀ m < (8 : Nat), ((0 : Int) ≤ [4, 2, 1].foldl (applyBit "-" m) n ∧
    [4, 2, 1].foldl (applyBit "-" m) n ≤ (7 : Int)) ∧
    ∀ k < 3, (([4, 2, 1].foldl (applyBit "-" m) n : Int)).toNat.testBit k = (n.testBit k || m.testBit k) := by
  decide +kernel

theorem Perm.pos_lt (p : Perm) : p.pos < 3 := by cases p <;> decide

/-- Only the last three bits of a sum are added or removed. -/
theorem applyBit_mod (operator : Str) (sum : Nat) (d : Int) : [4, 2, 1].foldl (applyBit operator sum) d =
    [4, 2, 1].foldl (applyBit operator (sum % 8)) d := by
  have h4 : sum % 8 % (4 * 2) = sum % (4 * 2) := by omega
  have h2 : sum % 8 % (2 * 2) = sum % (2 * 2) := by omega
  have h1 : sum % 8 % (1 * 2) = sum % (1 * 2) := by omega
  simp only [List.foldl_cons, List.foldl_nil, applyBit, h4, h2, h1]

/-- An operation on an octal digit sets and clears the bits of the sum. -/
theorem applyMaskDigitOperation_spec {d : Int} (hd : 0 ≤ d ∧ d ≤ 7) (operator : Str) {sum : Nat}
    (hsum : operator = "=".toList → sum ≤ 7) :
    (0 ≤ applyMaskDigitOperation d operator sum ∧ applyMaskDigitOperation d operator sum ≤ 7) ∧
      ∀ p : Perm, (applyMaskDigitOperation d operator sum).toNat.testBit p.pos =
        if operator = "=".toList then !sum.testBit p.pos
        else if operator = "+".toList then d.toNat.testBit p.pos && !sum.testBit p.pos
        else if operator = "-".toList then d.toNat.testBit p.pos || sum.testBit p.pos
        else d.toNat.testBit p.pos := by
  obtain ⟨n, rfl⟩ := Int.eq_ofNat_of_zero_le hd.1
  have hn : n < 8 := by omega
  have hbit : ∀ p : Perm, (sum % 8).testBit p.pos = sum.testBit p.pos := by
    intro p
    have hmod := Nat.testBit_mod_two_pow sum 3 p.pos
    rw [decide_eq_true p.pos_lt, Bool.true_and] at hmod
    exact hmod
  have hmod : sum % 8 < 8 := Nat.mod_lt _ (by decide)
  unfold applyMaskDigitOperation
  -- the three operators one by one; any other leaves the digit alone
  by_cases hset : operator = "=".toList
  · have hle := hsum hset
    simp only [if_pos hset]
    exact ⟨(set_digit sum (by omega)).1, fun p => (set_digit sum (by omega)).2 p.pos p.pos_lt⟩
  · simp only [if_neg hset]
    rw [applyBit_mod]
    by_cases hplus : operator = "+".toList
    · subst hplus
      obtain ⟨hrange, hbits⟩ := unblock_digit n hn (sum % 8) hmod
      refine ⟨hrange, fun p => ?_⟩
      rw [if_pos rfl, ← hbit p]
      exact hbits p.pos p.pos_lt
    · simp only [if_neg hplus]
      by_cases hminus : operator = "-".toList
      · subst hminus
        obtain ⟨hrange, hbits⟩ := block_digit n hn (sum % 8) hmod
        refine ⟨hrange, fun p => ?_⟩
        rw [if_pos rfl, ← hbit p]
        exact hbits p.pos p.pos_lt
      · have hsame : ∀ (d : Int) (bit : Nat), applyBit operator (sum % 8) d bit = d := by
          intro d bit
          unfold applyBit
          dsimp only
          rw [decide_eq_false hplus, decide_eq_false hminus, Bool.and_false, Bool.false_and, Bool.false_and,
            if_neg Bool.false_ne_true, if_neg Bool.false_ne_true]
        simp only [if_neg hminus, List.foldl_cons, List.foldl_nil, hsame]
        exact ⟨hd, fun p => trivial⟩

/-- What a clause makes of the digits, if it is accepted. -/
def stepDigits (clause : Clause) (digits : Digits) : Digits := fun c =>
  if c ∈ symbolicTargets clause.who then
    applyMaskDigitOperation (digits c) clause.operator (permissionSum clause) else digits c

theorem parseSymbolicPermissions_sum : ∀ {perms : Str} {bits n : Nat}, parseSymbolicPermissions bits perms = some n →
    n = bits + (4 * perms.count 'r' + 2 * perms.count 'w' + perms.count 'x')
  | [], bits, n, h => by
    cases h
    rfl
  | c :: perms, bits, n, h => by
    unfold parseSymbolicPermissions at h
    split at h
    · next heq => cases heq
    · next heq =>
      cases heq
      rw [parseSymbolicPermissions_sum h]
      simp
      omega
    · next heq =>
      cases heq
      rw [parseSymbolicPermissions_sum h]
      simp
      omega
    · next heq =>
      cases heq
      rw [parseSymbolicPermissions_sum h]
      simp
      omega
    · cases h

/-- A clause is accepted or not whatever the digits are. -/
theorem applyClause_eq (clause : Clause) :
    (∀ digits, applyClause clause digits = none) ∨
      symbolicTargets clause.who ≠ [] ∧ ∀ digits, applyClause clause digits = some (stepDigits clause digits) := by
  unfold applyClause
  cases hsum : parseSymbolicPermissions 0 clause.perms with
  | none => exact .inl fun _ => rfl
  | some n =>
    have hn : n = permissionSum clause := by
      rw [parseSymbolicPermissions_sum hsum, Nat.zero_add]
      rfl
    subst hn
    by_cases htargets : symbolicTargets clause.who = []
    · left
      intro digits
      exact if_pos htargets
    · right
      refine ⟨htargets, fun digits => ?_⟩
      exact if_neg htargets

/-- The digits after each clause. -/
def states : List Clause → Digits → List Digits
  | [], _ => []
  | clause :: clauses, digits => stepDigits clause digits :: states clauses (stepDigits clause digits)

/-- The digits after all clauses. -/
def runDigits (clauses : List Clause) (digits : Digits) : Digits :=
  clauses.foldl (fun digits clause => stepDigits clause digits) digits

/-- Texts are accepted or not whatever the digits are. -/
theorem clauseLoop_eq : ∀ texts : List Str, (∀ trace digits, clauseLoop texts trace digits = none) ∨
    ∃ clauses, texts.mapM parseClause = some clauses ∧ (∀ clause ∈ clauses, symbolicTargets clause.who ≠ []) ∧
      ∀ trace digits, clauseLoop texts trace digits =
        some ((states clauses digits).reverse ++ trace, runDigits clauses digits)
  | [] => .inr ⟨[], rfl, by simp, fun _ _ => rfl⟩
  | text :: texts => by
    cases hparse : parseClause text with
    | none =>
      left
      intro trace digits
      simp [clauseLoop, hparse]
    | some clause =>
      rcases applyClause_eq clause with hnone | ⟨htargets, hsome⟩
      · left
        intro trace digits
        simp [clauseLoop, hparse, hnone]
      · rcases clauseLoop_eq texts with hnone | ⟨clauses, hclauses, hall, hloop⟩
        · left
          intro trace digits
          simp [clauseLoop, hparse, hnone]
        · right
          refine ⟨clause :: clauses, by simp [hparse, hclauses], List.forall_mem_cons.mpr ⟨htargets, hall⟩, ?_⟩
          intro trace digits
          simp [clauseLoop, hparse, hsome, hloop, states, runDigits]

/-- A symbolic umask is accepted or not whatever the mask is. -/
theorem evaluateTrace_eq (value : Str) : (∀ base, evaluateTrace value base = none) ∨
    (∀ clause ∈ clausesOf value, symbolicTargets clause.who ≠ []) ∧
      ∀ base, evaluateTrace value base = some ((states (clausesOf value) (splitMaskDigits base)).reverse,
        runDigits (clausesOf value) (splitMaskDigits base)) := by
  unfold evaluateTrace clausesOf
  dsimp only
  by_cases hblank : (trim value = [] || isMatch (trim value) "%s") = true
  · left
    intro base
    rw [if_pos hblank]
  · rcases clauseLoop_eq (captures (trim value) "[^,]+") with hnone | ⟨clauses, hclauses, hall, hloop⟩
    · left
      intro base
      rw [if_neg hblank, hnone]
    · right
      rw [hclauses, Option.getD_some]
      refine ⟨hall, fun base => ?_⟩
      rw [if_neg hblank, hloop, List.append_nil]

/-- No sum that is set exceeds 7. -/
def SumsFit (clauses : List Clause) : Prop :=
  ∀ clause ∈ clauses, clause.operator = "=".toList → permissionSum clause ≤ 7

theorem stepDigits_spec {clause : Clause} {digits : Digits} (hd : InRange digits)
    (hsum : clause.operator = "=".toList → permissionSum clause ≤ 7) : InRange (stepDigits clause digits) ∧
      digitMask (stepDigits clause digits) =
        shellClause (symbolicTargets clause.who) clause.operator (reread clause) (digitMask digits) := by
  have hspec := fun c => applyMaskDigitOperation_spec (hd c) clause.operator hsum
  constructor
  · intro c
    unfold stepDigits
    split
    · exact (hspec c).1
    · exact hd c
  · funext c p
    unfold digitMask stepDigits shellClause
    by_cases hc : c ∈ symbolicTargets clause.who
    · rw [if_pos hc, if_pos hc]
      exact (hspec c).2 p
    · rw [if_neg hc, if_neg hc]

/-- The digits stay octal iff the sums fit. -/
theorem states_inRange : ∀ {clauses : List Clause} {digits : Digits}, InRange digits →
    (∀ clause ∈ clauses, symbolicTargets clause.who ≠ []) →
      ((∀ d ∈ states clauses digits, InRange d) ↔ SumsFit clauses)
  | [], _, _, _ => iff_of_true (by simp [states]) (by simp [SumsFit])
  | clause :: clauses, digits, hd, htargets => by
    have hfirst : InRange (stepDigits clause digits) ↔
        (clause.operator = "=".toList → permissionSum clause ≤ 7) := by
      refine ⟨fun hstep hset => ?_, fun hsum => (stepDigits_spec hd hsum).1⟩
      obtain ⟨c, hc⟩ := List.exists_mem_of_ne_nil _ (htargets clause List.mem_cons_self)
      have hrange := (hstep c).1
      unfold stepDigits at hrange
      rw [if_pos hc, applyMaskDigitOperation, if_pos hset] at hrange
      omega
    unfold states SumsFit
    rw [List.forall_mem_cons, List.forall_mem_cons, hfirst]
    refine and_congr_right fun hsum => ?_
    exact states_inRange (stepDigits_spec hd hsum).1 fun cl hcl => htargets cl (List.mem_cons_of_mem clause hcl)

/-- Where the sums fit, the digits are what a shell makes of the clauses read by their sums. -/
theorem runDigits_spec : ∀ {clauses : List Clause} {digits : Digits}, InRange digits → SumsFit clauses →
    InRange (runDigits clauses digits) ∧
      digitMask (runDigits clauses digits) = shellRun reread clauses (digitMask digits)
  | [], _, hd, _ => ⟨hd, rfl⟩
  | clause :: clauses, digits, hd, hsums => by
    obtain ⟨hrange, hmask⟩ := stepDigits_spec hd (hsums clause List.mem_cons_self)
    have ih := runDigits_spec hrange fun cl hcl => hsums cl (List.mem_cons_of_mem clause hcl)
    rw [hmask] at ih
    exact ih

/-! ## The two extreme masks -/

section Extremes

variable {mask mask' : Mask} {baseline : Nat}

/-- One mask blocks all that another blocks. -/
def Within (mask mask' : Mask) : Prop := ∀ c p, mask c p = true → mask' c p = true

theorem within_shellClause (targets : List UserClass) (operator : Str) (named : Perm → Bool) (h : Within mask mask') :
    Within (shellClause targets operator named mask) (shellClause targets operator named mask') := by
  intro c p
  have hcp := h c p
  unfold shellClause
  split
  · split
    · exact id
    · split
      · simp only [Bool.and_eq_true]
        exact And.imp_left hcp
      · split
        · simp only [Bool.or_eq_true]
          exact Or.imp_left hcp
        · exact hcp
  · exact hcp

/-- **A shell keeps the order of masks.** -/
theorem within_shellRun (names : Clause → Perm → Bool) : ∀ (clauses : List Clause) {mask mask' : Mask},
    Within mask mask' → Within (shellRun names clauses mask) (shellRun names clauses mask')
  | [], _, _, h => h
  | clause :: clauses, _, _, h => within_shellRun names clauses (within_shellClause _ _ (names clause) h)

theorem containsAll_iff : containsAll baseline mask = true ↔ Within (maskOf baseline) mask := by
  unfold containsAll Within
  simp only [List.all_cons, List.all_nil, Bool.and_true, Bool.and_eq_true]
  constructor
  · intro h c p
    have hbit : (!(maskOf baseline c p && !mask c p)) = true := by cases c <;> cases p <;> simp only [h]
    intro hp
    simpa [hp] using hbit
  · intro h
    have hbit : ∀ c p, (!(maskOf baseline c p && !mask c p)) = true := by
      intro c p
      have hcp := h c p
      cases hb : maskOf baseline c p with
      | false => rfl
      | true => rw [hcp hb]; rfl
    simp only [hbit, and_self]

theorem containsAll_mono (h : Within mask mask') (hc : containsAll baseline mask = true) :
    containsAll baseline mask' = true :=
  containsAll_iff.mpr fun c p hp => h c p (containsAll_iff.mp hc c p hp)

theorem within_zero (start : Nat) : Within (maskOf 0) (maskOf start) := by
  intro c p h
  simp [maskOf] at h

theorem within_all (start : Nat) : Within (maskOf start) (maskOf 511) := by
  intro c p _
  cases c <;> cases p <;> rfl

end Extremes

/-! ## When the classification is exact -/

theorem parseMask_some {value : Str} {v : Flt} (h : parseMask value = some v) : v = octalNumber (trim value) := by
  unfold parseMask at h
  dsimp only at h
  split at h
  · cases h
  · exact (Option.some.inj h).symm

/-- The three answers to two questions, of which the first is the harder. -/
theorem answers_iff {a a' b b' : Bool} (hab : a = true → b = true) (hab' : a' = true → b' = true) (o : Classification)
    (ho : o = if a' then .compliant else if !b' then .conflict else .indeterminate) :
    ((o = .compliant ↔ a = true) ∧ (o = .conflict ↔ b = false) ∧ (o = .indeterminate ↔ ¬ a = true ∧ ¬ b = false)) ↔
      a' = a ∧ b' = b := by
  subst ho
  revert a a' b b'
  decide

variable {baseline : Nat}

/-- All masks are left with the bits of the baseline iff 0 is. -/
theorem forall_contains_iff (names : Clause → Perm → Bool) (clauses : List Clause) :
    (∀ start < 512, containsAll baseline (shellRun names clauses (maskOf start)) = true) ↔
      containsAll baseline (shellRun names clauses (maskOf 0)) = true :=
  ⟨fun h => h 0 (by decide), fun h start _ => containsAll_mono (within_shellRun names clauses (within_zero start)) h⟩

/-- No mask is left with the bits of the baseline iff 0777 is not. -/
theorem forall_lacks_iff (names : Clause → Perm → Bool) (clauses : List Clause) :
    (∀ start < 512, containsAll baseline (shellRun names clauses (maskOf start)) = false) ↔
      containsAll baseline (shellRun names clauses (maskOf 511)) = false := by
  refine ⟨fun h => h 511 (by decide), fun h start _ => Bool.eq_false_iff.mpr fun hc => ?_⟩
  rw [containsAll_mono (within_shellRun names clauses (within_all start)) hc] at h
  cases h

theorem inRange_split (mask : Nat) : InRange (splitMaskDigits mask) := by
  intro c
  cases c <;> simp only [splitMaskDigits] <;> omega

theorem digitMask_zero : digitMask (splitMaskDigits 0) = maskOf 0 := by
  funext c p
  cases c <;> cases p <;> rfl

theorem digitMask_63 : digitMask (splitMaskDigits 63) = maskOf 63 := by
  funext c p
  cases c <;> cases p <;> rfl

/-- The classification by its answer and the two extreme masks. -/
theorem classifiedExactly_iff {value : Str} {a b : Bool} {o : Classification}
    (hclass : classify value (.fin baseline) = some o)
    (hall : (∀ start < 512, containsAll baseline (resulting value start) = true) ↔ a = true)
    (hnone : (∀ start < 512, containsAll baseline (resulting value start) = false) ↔ b = false) :
    ClassifiedExactly value baseline ↔
      ((o = .compliant ↔ a = true) ∧ (o = .conflict ↔ b = false) ∧ (o = .indeterminate ↔ ¬ a = true ∧ ¬ b = false)) ∧
      (parseMask value = none → ∀ base ∈ [0, 63], ∀ r, evaluateTrace value base = some r → ∀ d ∈ r.1, InRange d) := by
  constructor
  · rintro ⟨h₁, h₂, h₃, hdigits⟩
    rw [hclass, Option.some_inj] at h₁ h₂ h₃
    rw [hall] at h₁ h₃
    rw [hnone] at h₂ h₃
    exact ⟨⟨h₁, h₂, h₃⟩, hdigits⟩
  · rintro ⟨⟨h₁, h₂, h₃⟩, hdigits⟩
    refine ⟨?_, ?_, ?_, hdigits⟩
    · rw [hclass, Option.some_inj, hall, h₁]
    · rw [hclass, Option.some_inj, hnone, h₂]
    · rw [hclass, Option.some_inj, hall, hnone, h₃]

/-- **The classification is exact iff the code reads the umask as a shell does.** -/
theorem classify_exact_iff (value : Str) (baseline : Nat) (haccepts : classify value (.fin baseline) ≠ none) :
    ClassifiedExactly value baseline ↔ ReadAlike value baseline := by
  unfold ReadAlike
  cases hmask : parseMask value with
  | some v =>
    obtain rfl := parseMask_some hmask
    have hresult : ∀ start, resulting value start = maskOf (Nat.ofDigitChars 8 (trim value) 0) := by
      intro start
      rw [resulting, hmask]
      rfl
    have hclass : classify value (.fin baseline) =
        some (if containsAll baseline (bitsOf (octalNumber (trim value))) then .compliant else .conflict) := by
      rw [classify, hmask, ← isAtLeastRestrictive_eq]
    have hconst : ∀ r : Bool, (∀ start < 512, containsAll baseline (resulting value start) = r) ↔
        containsAll baseline (maskOf (Nat.ofDigitChars 8 (trim value) 0)) = r := by
      intro r
      simp only [hresult]
      exact ⟨fun h => h 0 (by decide), fun h _ _ => h⟩
    rw [classifiedExactly_iff hclass (hconst true) (hconst false), Option.isSome_some, if_pos rfl]
    have hanswers := @answers_iff (containsAll baseline (maskOf (Nat.ofDigitChars 8 (trim value) 0)))
      (containsAll baseline (bitsOf (octalNumber (trim value)))) _ _ id id
      (if containsAll baseline (bitsOf (octalNumber (trim value))) then .compliant else .conflict)
      (by cases containsAll baseline (bitsOf (octalNumber (trim value))) <;> rfl)
    rw [hanswers]
    exact ⟨fun h => h.1.1, fun h => ⟨⟨h, h⟩, fun h => by rw [hmask] at h; cases h⟩⟩
  | none =>
    rcases evaluateTrace_eq value with hnone | ⟨htargets, htrace⟩
    · exact absurd (by simp [classify, hmask, evaluateSymbolicMask, hnone]) haccepts
    · have hresult : ∀ start, resulting value start = shellRun named (clausesOf value) (maskOf start) := by
        intro start
        rw [resulting, hmask]
        rfl
      have hall : (∀ start < 512, containsAll baseline (resulting value start) = true) ↔
          containsAll baseline (shellRun named (clausesOf value) (maskOf 0)) = true := by
        simp only [hresult]
        exact forall_contains_iff named (clausesOf value)
      have hlacks : (∀ start < 512, containsAll baseline (resulting value start) = false) ↔
          containsAll baseline (shellRun named (clausesOf value) (maskOf 511)) = false := by
        simp only [hresult]
        exact forall_lacks_iff named (clausesOf value)
      have hclass : ∃ o, classify value (.fin baseline) = some o := by
        cases h : classify value (.fin baseline) with
        | none => exact absurd h haccepts
        | some o => exact ⟨o, rfl⟩
      obtain ⟨o, hclass⟩ := hclass
      have hdigits : (parseMask value = none → ∀ base ∈ [0, 63], ∀ r, evaluateTrace value base = some r →
          ∀ d ∈ r.1, InRange d) ↔ SumsFit (clausesOf value) := by
        have hrange := fun base => @states_inRange (clausesOf value) (splitMaskDigits base)
          (inRange_split base) htargets
        constructor
        · intro h
          refine (hrange 0).mp fun d hd => ?_
          exact h hmask 0 List.mem_cons_self _ (htrace 0) d (List.mem_reverse.mpr hd)
        · intro h _ base _ r hr d hd
          rw [htrace base] at hr
          cases hr
          exact (hrange base).mpr h d (List.mem_reverse.mp hd)
      rw [classifiedExactly_iff hclass hall hlacks, hdigits, Option.isSome_none, if_neg Bool.false_ne_true]
      change _ ↔ SumsFit (clausesOf value) ∧ _
      rw [and_comm]
      refine and_congr_right fun hsums => ?_
      -- the code's two runs are the shell's on the clauses read by their sums
      have hcode : ∀ base, evaluateSymbolicMask value base =
          some (.fin (joinMaskDigits (runDigits (clausesOf value) (splitMaskDigits base)))) := by
        intro base
        rw [evaluateSymbolicMask, htrace base]
        rfl
      have hcontains : ∀ base, isAtLeastRestrictive
          (.fin (joinMaskDigits (runDigits (clausesOf value) (splitMaskDigits base)))) (.fin baseline) =
            containsAll baseline (shellRun reread (clausesOf value) (digitMask (splitMaskDigits base))) := by
        intro base
        obtain ⟨hin, hrun⟩ := runDigits_spec (inRange_split base) hsums
        rw [isAtLeastRestrictive_eq, bitsOf_join hin, hrun]
      have ho : o = if containsAll baseline (shellRun reread (clausesOf value) (maskOf 0)) then .compliant
          else if !containsAll baseline (shellRun reread (clausesOf value) (maskOf 63)) then .conflict
          else .indeterminate := by
        rw [← digitMask_zero, ← digitMask_63, ← hcontains 0, ← hcontains 63]
        have h := hclass
        simp only [classify, hmask, hcode, Option.bind_eq_bind, Option.bind_some] at h
        split at h
        · next hmin =>
          rw [if_pos hmin]
          exact (Option.some.inj h).symm
        · next hmin =>
          rw [if_neg hmin]
          split at h
          · next hmax =>
            rw [if_pos hmax]
            exact (Option.some.inj h).symm
          · next hmax =>
            rw [if_neg hmax]
            exact (Option.some.inj h).symm
      refine answers_iff ?_ ?_ o ho
      · exact containsAll_mono (within_shellRun named _ (within_zero 511))
      · exact containsAll_mono (within_shellRun reread _ (within_zero 63))

/-- A group with write permission passes for one without: `wwx` adds up to 5, which is read and execute. -/
theorem doubled_write_compliant : classify "u=rwx,g=wwx,o=" (.fin 23) = some .compliant ∧
    ∀ start < 512, containsAll 23 (resulting "u=rwx,g=wwx,o=" start) = false := by
  refine ⟨by decide +kernel, fun start hstart => ?_⟩
  rw [resulting, if_neg (by decide +kernel)]
  exact (forall_lacks_iff named _).mpr (by decide +kernel) start hstart

/-- The usual symbolic umask is classified exactly. -/
theorem symbolic_default_exact : ClassifiedExactly "u=rwx,g=rx,o=" 23 := by
  refine (classify_exact_iff _ 23 (by decide +kernel)).mpr ?_
  unfold ReadAlike
  rw [if_neg (by decide +kernel)]
  exact ⟨by decide +kernel, by decide +kernel, by decide +kernel⟩

end Seharden
