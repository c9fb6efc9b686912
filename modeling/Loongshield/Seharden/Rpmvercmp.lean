import Loongshield.Lib.Compare
import Loongshield.Seharden.Text
import Mathlib.Data.List.DropRight
import Mathlib.Data.Prod.Lex

/-!
# The version comparison of `probes/packages.lua`

A cursor is the rest of the text from it on. The loop of `rpmvercmp` takes a step on both cursors at a time; each text
is a list of tokens (`toks`), of which the loop does not see the carets, and the result is the comparison of the lists
of their keys (`rpmvercmp_eq`). So the loop ends, and the comparison is that of a linear order.

- `rpmvercmpStep`: an iteration;
- `codeKeys`: what a text is compared by; a tilde that follows a tilde is above the end of the text;
- `evrMeetsMinimum`: epochs, versions and releases in turn.
-/

namespace Seharden

open Lua Pattern

/-! ## The code -/

/-- What `skip_separators` skips. -/
def isSeparator (c : Char) : Bool := !(isalnum c || c == '~')

/-- `skip_separators`: the rest from the first letter, digit or tilde on. -/
def skipSeparators (s : Str) : Str := s.dropWhile isSeparator

/-- The characters of a segment. -/
def inSegment (numeric : Bool) (c : Char) : Bool := if numeric then isdigit c else isalpha c

/-- `read_segment`: the segment, whether it is numeric, and the rest. -/
def readSegment (s : Str) : Str × Bool × Str :=
  let numeric := s.head?.any isdigit
  (s.takeWhile (inSegment numeric), numeric, s.dropWhile (inSegment numeric))

/-- Digits without the zeros before them. -/
def stripped (digits : Str) : Str :=
  let rest := digits.dropWhile (· == '0')
  if rest = [] then "0" else rest

/-- `compare_numeric_segments`. -/
def compareNumericSegments (left right : Str) : Int :=
  let left := stripped left
  let right := stripped right
  if left.length ≠ right.length then if right.length < left.length then 1 else -1
  else if left = right then 0
  else if right < left then 1 else -1

/-- The second half of an iteration of `rpmvercmp`, behind the tildes. -/
def compareSegments (left right : Str) : Int ⊕ (Str × Str) :=
  let left := skipSeparators left
  let right := skipSeparators right
  if left = [] ∨ right = [] then
    if left = [] ∧ right = [] then .inl 0 else if left = [] then .inl (-1) else .inl 1
  else
    let (leftSegment, leftNumeric, nextLeft) := readSegment left
    let (rightSegment, rightNumeric, nextRight) := readSegment right
    if leftNumeric ≠ rightNumeric then .inl (if leftNumeric then 1 else -1)
    else
      let result :=
        if leftNumeric then compareNumericSegments leftSegment rightSegment
        else if leftSegment = rightSegment then 0
        else if rightSegment < leftSegment then 1 else -1
      if result ≠ 0 then .inl result else .inr (nextLeft, nextRight)

/-- An iteration of the loop of `rpmvercmp`. -/
def rpmvercmpStep (p : Str × Str) : Int ⊕ (Str × Str) :=
  if p.1 = [] ∧ p.2 = [] then .inl 0
  else
    let left := skipSeparators p.1
    let right := skipSeparators p.2
    let leftTilde := left.head? == some '~'
    let rightTilde := right.head? == some '~'
    if leftTilde || rightTilde then
      if !leftTilde then .inl 1
      else if !rightTilde then .inl (-1)
      else compareSegments left.tail right.tail
    else compareSegments left right

/-- `rpmvercmp`; no result if the loop has not ended after as many iterations as the texts have characters. -/
def rpmvercmp (left right : Str) : Option Int :=
  if left = right then some 0 else Compare.loop rpmvercmpStep (left.length + right.length + 1) (left, right)

/-! ## Tokens -/

/-- What a version is made of; a run is one of digits or one of letters. -/
inductive Tok
  | tilde
  | caret
  | run (numeric : Bool) (text : Str)
  deriving DecidableEq

/-- The tokens of a text; what is between them is left out. -/
def toks : Str → List Tok
  | [] => []
  | c :: s =>
    if c = '~' then .tilde :: toks s
    else if c = '^' then .caret :: toks s
    else if isalnum c then match s.head?.any (inSegment (isdigit c)), toks s with
      | true, .run _ text :: ts => .run (isdigit c) (c :: text) :: ts
      | _, ts => .run (isdigit c) [c] :: ts
    else toks s

/-- The tokens the loop sees. -/
def plainToks (s : Str) : List Tok := (toks s).filter (· ≠ .caret)

/-- The number that digits stand for. -/
def value (digits : Str) : Nat := Nat.ofDigitChars 10 digits 0

/-- What two tokens are compared by: the kind, the number and the letters. -/
abbrev Key := ℕ ×ₗ ℕ ×ₗ Str

def mkKey (kind number : Nat) (letters : Str) : Key := toLex (kind, toLex (number, letters))

/-- The end of a text. -/
def endKey : Key := mkKey 1 0 []

/-- The key of a token. A tilde is below the end of the text, but behind another tilde it is a word without letters. -/
def key (afterTilde : Bool) : Tok → Key
  | .tilde => if afterTilde then mkKey 3 0 [] else mkKey 0 0 []
  | .caret => mkKey 2 0 []
  | .run numeric text => if numeric then mkKey 4 (value text) [] else mkKey 3 0 text

/-- What the loop compares a text by. -/
def codeKeys : Bool → List Tok → List Key
  | _, [] => [endKey]
  | afterTilde, t :: ts => key afterTilde t :: codeKeys (t == .tilde) ts

/-! ## Numbers -/

theorem sign_mkKey (k k' n n' : Nat) (s s' : Str) : Compare.sign (mkKey k n s) (mkKey k' n' s') =
    if k = k' then if n = n' then Compare.sign s s' else Compare.sign n n' else Compare.sign k k' := by
  have hlex : ∀ {k k' n n' : Nat} {s s' : Str}, mkKey k n s < mkKey k' n' s' ↔
      k < k' ∨ k = k' ∧ (n < n' ∨ n = n' ∧ s < s') := by
    intro k k' n n' s s'
    simp only [mkKey, Prod.Lex.toLex_lt_toLex]
  rcases lt_trichotomy k k' with h | rfl | h
  · rw [if_neg h.ne, Compare.sign_of_lt h, Compare.sign_of_lt (hlex.mpr (.inl h))]
  · rw [if_pos rfl]
    rcases lt_trichotomy n n' with h | rfl | h
    · rw [if_neg h.ne, Compare.sign_of_lt h, Compare.sign_of_lt (hlex.mpr (.inr ⟨rfl, .inl h⟩))]
    · rw [if_pos rfl]
      rcases lt_trichotomy s s' with h | rfl | h
      · rw [Compare.sign_of_lt h, Compare.sign_of_lt (hlex.mpr (.inr ⟨rfl, .inr ⟨rfl, h⟩⟩))]
      · rw [Compare.sign_self, Compare.sign_self]
      · rw [Compare.sign_of_gt h, Compare.sign_of_gt (hlex.mpr (.inr ⟨rfl, .inr ⟨rfl, h⟩⟩))]
    · rw [if_neg h.ne', Compare.sign_of_gt h, Compare.sign_of_gt (hlex.mpr (.inr ⟨rfl, .inl h⟩))]
  · rw [if_neg h.ne', Compare.sign_of_gt h, Compare.sign_of_gt (hlex.mpr (.inl h))]

theorem ofDigitChars_shift (s : Str) (n : Nat) : Nat.ofDigitChars 10 s n = n * 10 ^ s.length + value s := by
  induction s generalizing n with
  | nil => simp [value]
  | cons c s ih =>
    rw [value, Nat.ofDigitChars_cons, Nat.ofDigitChars_cons, ih, ih (10 * 0 + _), List.length_cons, pow_succ]
    ring

theorem value_cons (c : Char) (s : Str) : value (c :: s) = (c.toNat - 48) * 10 ^ s.length + value s := by
  rw [value, Nat.ofDigitChars_cons, ofDigitChars_shift, Nat.mul_zero, Nat.zero_add]
  rfl

/-- Digits are the characters from `0` to `9`. -/
theorem isdigit_iff {c : Char} : isdigit c = true ↔ 48 ≤ c.toNat ∧ c.toNat ≤ 57 := by
  rw [isdigit, Bool.and_eq_true, decide_eq_true_eq, decide_eq_true_eq]
  rfl

theorem value_lt {s : Str} (h : ∀ c ∈ s, isdigit c = true) : value s < 10 ^ s.length := by
  induction s with
  | nil => simp [value]
  | cons c s ih =>
    have hc := isdigit_iff.mp (h c List.mem_cons_self)
    have hs := ih fun d hd => h d (List.mem_cons_of_mem c hd)
    rw [value_cons, List.length_cons, pow_succ]
    have hle : (c.toNat - 48) * 10 ^ s.length ≤ 9 * 10 ^ s.length := Nat.mul_le_mul_right _ (by omega)
    omega

/-- Digit strings of one length are in the order of their numbers. -/
theorem lt_iff_value_lt {s t : Str} (hs : ∀ c ∈ s, isdigit c = true) (ht : ∀ c ∈ t, isdigit c = true)
    (hlen : s.length = t.length) : s < t ↔ value s < value t := by
  induction s generalizing t with
  | nil =>
    obtain rfl := List.length_eq_zero_iff.mp hlen.symm
    simp
  | cons c s ih =>
    cases t with
    | nil => cases hlen
    | cons d t =>
      have hlen' : s.length = t.length := Nat.succ.inj hlen
      have ih := ih (fun x hx => hs x (List.mem_cons_of_mem c hx)) (fun x hx => ht x (List.mem_cons_of_mem d hx)) hlen'
      have hvs := value_lt fun x hx => hs x (List.mem_cons_of_mem c hx)
      have hvt := value_lt fun x hx => ht x (List.mem_cons_of_mem d hx)
      have hc := isdigit_iff.mp (hs c List.mem_cons_self)
      have hd := isdigit_iff.mp (ht d List.mem_cons_self)
      have hlt : c < d ↔ c.toNat < d.toNat := Iff.rfl
      rw [List.cons_lt_cons_iff, ih, value_cons, value_cons, hlen', hlt]
      rw [hlen'] at hvs
      generalize 10 ^ t.length = w at hvs hvt
      rcases lt_trichotomy c.toNat d.toNat with h | h | h
      · have hmul : (c.toNat - 48 + 1) * w ≤ (d.toNat - 48) * w := Nat.mul_le_mul_right _ (by omega)
        rw [Nat.add_mul] at hmul
        exact iff_of_true (.inl h) (by omega)
      · rw [h]
        have heq : c = d := Char.toNat_inj.mp h
        simp [heq]
      · have hmul : (d.toNat - 48 + 1) * w ≤ (c.toNat - 48) * w := Nat.mul_le_mul_right _ (by omega)
        rw [Nat.add_mul] at hmul
        refine iff_of_false (fun hor => ?_) (by omega)
        rcases hor with hor | hor
        · omega
        · rw [hor.1] at h
          omega

theorem value_dropWhile (s : Str) : value (s.dropWhile (· == '0')) = value s := by
  induction s with
  | nil => rfl
  | cons c s ih =>
    by_cases hc : c = '0'
    · subst hc
      rw [List.dropWhile_cons_of_pos rfl, ih, value_cons]
      simp
    · rw [List.dropWhile_cons_of_neg (by simpa using hc)]

/-- What is left without the zeros before it: the same number, and no zero first unless it is alone. -/
theorem stripped_spec {s : Str} (h : ∀ c ∈ s, isdigit c = true) : (∀ c ∈ stripped s, isdigit c = true) ∧
    value (stripped s) = value s ∧ 0 < (stripped s).length ∧
      (1 < (stripped s).length → 10 ^ ((stripped s).length - 1) ≤ value (stripped s)) := by
  unfold stripped
  dsimp only
  have hvalue := value_dropWhile s
  split
  · next hnil =>
    rw [hnil] at hvalue
    refine ⟨fun c hc => ?_, hvalue, by decide, fun h => absurd h (by decide)⟩
    rw [List.mem_singleton.mp hc]
    rfl
  · next hne =>
    have hdigits : ∀ c ∈ s.dropWhile (· == '0'), isdigit c = true :=
      fun c hc => h c ((List.dropWhile_sublist _).subset hc)
    refine ⟨hdigits, hvalue, List.length_pos_iff.mpr hne, fun _ => ?_⟩
    cases hrest : s.dropWhile (· == '0') with
    | nil => exact absurd hrest hne
    | cons c r =>
      have hc : c ≠ '0' := by
        have hhead := List.head?_dropWhile_not (· == '0') s
        rw [hrest] at hhead
        simpa using hhead
      have hdigit := isdigit_iff.mp (hdigits c (hrest ▸ List.mem_cons_self))
      have hpos : c.toNat ≠ 48 := fun h => hc (Char.toNat_inj.mp h)
      rw [value_cons, List.length_cons, Nat.add_sub_cancel]
      have hmul : 1 * 10 ^ r.length ≤ (c.toNat - 48) * 10 ^ r.length := Nat.mul_le_mul_right _ (by omega)
      omega

/-- **Numbers are compared by value.** -/
theorem compareNumericSegments_eq {s t : Str} (hs : ∀ c ∈ s, isdigit c = true) (ht : ∀ c ∈ t, isdigit c = true) :
    compareNumericSegments s t = Compare.sign (value s) (value t) := by
  obtain ⟨hds, hvs, hps, hls⟩ := stripped_spec hs
  obtain ⟨hdt, hvt, hpt, hlt⟩ := stripped_spec ht
  rw [← hvs, ← hvt]
  unfold compareNumericSegments
  dsimp only
  generalize stripped s = s at hds hps hls
  generalize stripped t = t at hdt hpt hlt
  have hs' := value_lt hds
  have ht' := value_lt hdt
  have hlonger : ∀ {s t : Str}, t.length < s.length → value t < 10 ^ t.length →
      10 ^ (s.length - 1) ≤ value s → value t < value s := by
    intro s t hlen hlt hle
    have hpow : 10 ^ t.length ≤ 10 ^ (s.length - 1) := Nat.pow_le_pow_right (by omega) (by omega)
    omega
  rcases lt_trichotomy s.length t.length with hlen | hlen | hlen
  · rw [if_pos hlen.ne, if_neg (by omega), Compare.sign_of_lt (hlonger hlen hs' (hlt (by omega)))]
  · rw [if_neg (by simpa using hlen)]
    rcases lt_trichotomy s t with h | rfl | h
    · rw [if_neg h.ne, if_neg h.not_gt, Compare.sign_of_lt ((lt_iff_value_lt hds hdt hlen).mp h)]
    · rw [if_pos rfl, Compare.sign_self]
    · rw [if_neg h.ne', if_pos h, Compare.sign_of_gt ((lt_iff_value_lt hdt hds hlen.symm).mp h)]
  · rw [if_pos hlen.ne', if_pos hlen, Compare.sign_of_gt (hlonger hlen ht' (hls (by omega)))]

/-! ## The tokens at a cursor -/

theorem isalpha_of_isdigit {c : Char} (h : isdigit c = true) : isalpha c = false := by
  have hc := isdigit_iff.mp h
  rw [isalpha, Bool.or_eq_false_iff, Bool.and_eq_false_iff, Bool.and_eq_false_iff]
  simp only [decide_eq_false_iff_not]
  refine ⟨.inl fun (hle : 97 ≤ c.toNat) => ?_, .inl fun (hle : 65 ≤ c.toNat) => ?_⟩
  · omega
  · omega

/-- A letter or digit is of the segment it starts. -/
theorem inSegment_iff {numeric : Bool} {c : Char} : inSegment numeric c = true ↔
    isalnum c = true ∧ isdigit c = numeric := by
  cases numeric with
  | true => simp +contextual [inSegment, isalnum]
  | false =>
    rw [inSegment, if_neg Bool.false_ne_true, isalnum, Bool.or_eq_true]
    refine ⟨fun h => ⟨.inl h, Bool.eq_false_iff.mpr fun hd => ?_⟩, fun ⟨h, hd⟩ => h.resolve_right (by simp [hd])⟩
    rw [isalpha_of_isdigit hd] at h
    cases h

/-- A run that no further character of its kind follows is a token. -/
theorem toks_run {numeric : Bool} {run rest : Str} (hne : run ≠ []) (hrun : ∀ c ∈ run, inSegment numeric c = true)
    (hrest : rest.head?.any (inSegment numeric) = false) : toks (run ++ rest) = .run numeric run :: toks rest := by
  induction run with
  | nil => exact absurd rfl hne
  | cons c run ih =>
    obtain ⟨halnum, hdigit⟩ := inSegment_iff.mp (hrun c List.mem_cons_self)
    have htilde : c ≠ '~' := by
      rintro rfl
      cases halnum
    have hcaret : c ≠ '^' := by
      rintro rfl
      cases halnum
    rw [List.cons_append, toks, if_neg htilde, if_neg hcaret, if_pos halnum, hdigit]
    cases run with
    | nil => rw [List.nil_append, hrest]
    | cons d run =>
      have hd := hrun d (List.mem_cons_of_mem c List.mem_cons_self)
      rw [ih (List.cons_ne_nil d run) fun x hx => hrun x (List.mem_cons_of_mem c hx), List.cons_append,
        List.head?_cons, Option.any_some, hd]

theorem any_head_dropWhile (p : Char → Bool) (s : Str) : (s.dropWhile p).head?.any p = false := by
  have hnot := List.head?_dropWhile_not p s
  cases h : (s.dropWhile p).head? with
  | none => rfl
  | some c =>
    rw [h] at hnot
    exact hnot

/-- A letter or digit starts a run. -/
theorem toks_alnum {c : Char} {r : Str} (h : isalnum c = true) : toks (c :: r) =
    .run (isdigit c) (c :: r.takeWhile (inSegment (isdigit c))) :: toks (r.dropWhile (inSegment (isdigit c))) ∧
      ∀ x ∈ c :: r.takeWhile (inSegment (isdigit c)), inSegment (isdigit c) x = true := by
  have hrun : ∀ x ∈ c :: r.takeWhile (inSegment (isdigit c)), inSegment (isdigit c) x = true := by
    intro x hx
    rcases List.mem_cons.mp hx with rfl | hx
    · exact inSegment_iff.mpr ⟨h, rfl⟩
    · exact List.mem_takeWhile_imp hx
  have htoks := toks_run (List.cons_ne_nil _ _) hrun (any_head_dropWhile (inSegment (isdigit c)) r)
  rw [List.cons_append, List.takeWhile_append_dropWhile] at htoks
  exact ⟨htoks, hrun⟩

/-- The first token at a cursor, and what is left behind it. -/
def front (s : Str) : Option (Tok × Str) :=
  match skipSeparators s with
  | [] => none
  | '~' :: rest => some (.tilde, rest)
  | rest => some (.run (readSegment rest).2.1 (readSegment rest).1, (readSegment rest).2.2)

theorem plainToks_skip (s : Str) : plainToks (skipSeparators s) = plainToks s := by
  induction s with
  | nil => rfl
  | cons c s ih =>
    unfold skipSeparators at ih ⊢
    by_cases hc : isSeparator c = true
    · rw [List.dropWhile_cons_of_pos hc, ih]
      rw [isSeparator, Bool.not_eq_true', Bool.or_eq_false_iff, beq_eq_false_iff_ne] at hc
      unfold plainToks
      rw [toks, if_neg hc.2, hc.1, if_neg Bool.false_ne_true]
      by_cases hcaret : c = '^'
      · rw [if_pos hcaret, List.filter_cons_of_neg (by simp)]
      · rw [if_neg hcaret]
    · rw [List.dropWhile_cons_of_neg hc]

/-- What is at a cursor behind the separators: the end, a tilde, or a letter or digit with its run. -/
theorem front_cases (s : Str) :
    (skipSeparators s = [] ∧ front s = none ∧ plainToks s = []) ∨
    (∃ rest, skipSeparators s = '~' :: rest ∧ front s = some (.tilde, rest) ∧ plainToks s = .tilde :: plainToks rest ∧
      readSegment ('~' :: rest) = ([], false, '~' :: rest)) ∨
    ∃ numeric text rest, skipSeparators s ≠ [] ∧ (skipSeparators s).head? ≠ some '~' ∧
      readSegment (skipSeparators s) = (text, numeric, rest) ∧ front s = some (.run numeric text, rest) ∧
      plainToks s = .run numeric text :: plainToks rest ∧ text ≠ [] ∧ (∀ c ∈ text, inSegment numeric c = true) ∧
      rest.length < s.length := by
  have hskip := plainToks_skip s
  have hlen : (skipSeparators s).length ≤ s.length := (List.dropWhile_sublist _).length_le
  have hhead : (skipSeparators s).head?.any isSeparator = false := any_head_dropWhile isSeparator s
  unfold front
  rw [← hskip]
  generalize skipSeparators s = r at hlen hhead
  cases r with
  | nil => exact .inl ⟨rfl, rfl, rfl⟩
  | cons c r =>
    by_cases hc : c = '~'
    · subst hc
      exact .inr (.inl ⟨r, rfl, rfl, rfl, rfl⟩)
    · right
      right
      have halnum : isalnum c = true := by simpa [isSeparator, hc] using hhead
      have hin : inSegment (isdigit c) c = true := inSegment_iff.mpr ⟨halnum, rfl⟩
      have hread : readSegment (c :: r) =
          (c :: r.takeWhile (inSegment (isdigit c)), isdigit c, r.dropWhile (inSegment (isdigit c))) := by
        unfold readSegment
        rw [List.head?_cons, Option.any_some]
        dsimp only
        rw [List.takeWhile_cons_of_pos hin, List.dropWhile_cons_of_pos hin]
      obtain ⟨htoks, hrun⟩ := @toks_alnum c r halnum
      refine ⟨isdigit c, _, _, List.cons_ne_nil c r, by simpa using hc, hread, ?_, ?_, List.cons_ne_nil _ _, hrun, ?_⟩
      · split
        · next h => cases h
        · next h => exact absurd (List.cons.inj h).1 hc
        · rw [hread]
      · rw [plainToks, htoks, List.filter_cons_of_pos (by simp)]
        rfl
      · have hdrop : (r.dropWhile (inSegment (isdigit c))).length ≤ r.length := (List.dropWhile_sublist _).length_le
        rw [List.length_cons] at hlen
        omega

/-! ## An iteration -/

/-- Two segments are compared by their keys. -/
theorem segments_eq {ls rs : Str} {ln rn : Bool} (hl : ∀ c ∈ ls, inSegment ln c = true)
    (hr : ∀ c ∈ rs, inSegment rn c = true) (next : Str × Str) :
    (if ln ≠ rn then .inl (if ln then 1 else -1)
      else
        let result := if ln then compareNumericSegments ls rs else if ls = rs then 0 else if rs < ls then 1 else -1
        if result ≠ 0 then .inl result else .inr next : Int ⊕ (Str × Str)) =
      if Compare.sign (key true (.run ln ls)) (key true (.run rn rs)) = 0 then .inr next
      else .inl (Compare.sign (key true (.run ln ls)) (key true (.run rn rs))) := by
  have hresult : ∀ result : Int, (if result ≠ 0 then .inl result else .inr next : Int ⊕ (Str × Str)) =
      if result = 0 then .inr next else .inl result := fun result => ite_not _ _ _
  cases ln with
  | true =>
    cases rn with
    | true =>
      have hsign : Compare.sign (key true (.run true ls)) (key true (.run true rs)) = compareNumericSegments ls rs := by
        rw [key, if_pos rfl, key, if_pos rfl, sign_mkKey, if_pos rfl, compareNumericSegments_eq hl hr]
        split
        · next h => rw [h, Compare.sign_self, Compare.sign_self]
        · rfl
      rw [hsign]
      exact hresult _
    | false =>
      have hsign : Compare.sign (key true (.run true ls)) (key true (.run false rs)) = 1 := by
        rw [key, if_pos rfl, key, if_neg Bool.false_ne_true, sign_mkKey]
        rfl
      rw [hsign]
      rfl
  | false =>
    cases rn with
    | true =>
      have hsign : Compare.sign (key true (.run false ls)) (key true (.run true rs)) = -1 := by
        rw [key, if_neg Bool.false_ne_true, key, if_pos rfl, sign_mkKey]
        rfl
      rw [hsign]
      rfl
    | false =>
      have hsign : Compare.sign (key true (.run false ls)) (key true (.run false rs)) =
          if ls = rs then 0 else if rs < ls then 1 else -1 := by
        rw [key, if_neg Bool.false_ne_true, key, if_neg Bool.false_ne_true, sign_mkKey, if_pos rfl, if_pos rfl]
        rcases lt_trichotomy ls rs with h | rfl | h
        · rw [Compare.sign_of_lt h, if_neg h.ne, if_neg h.not_gt]
        · rw [Compare.sign_self, if_pos rfl]
        · rw [Compare.sign_of_gt h, if_neg h.ne', if_pos h]
      rw [hsign]
      exact hresult _

/-- The segment that is read at a cursor with a token has the key of the token. -/
theorem readSegment_front {s rest : Str} {t : Tok} (h : front s = some (t, rest)) : skipSeparators s ≠ [] ∧
    ∃ text numeric next, readSegment (skipSeparators s) = (text, numeric, next) ∧
      key true t = key true (.run numeric text) ∧ ∀ c ∈ text, inSegment numeric c = true := by
  rcases front_cases s with ⟨-, hfront, -⟩ | ⟨r, hskip, hfront, -, hread⟩ | ⟨numeric, text, r, hne, -, hread, hfront,
    -, -, hrun, -⟩
  · rw [hfront] at h
    cases h
  · rw [hfront] at h
    cases h
    rw [hskip, hread]
    exact ⟨List.cons_ne_nil _ _, [], false, _, rfl, rfl, by simp⟩
  · rw [hfront] at h
    cases h
    exact ⟨hne, text, numeric, _, hread, rfl, hrun⟩

/-- The second half of an iteration, by the tokens at the cursors. -/
theorem compareSegments_front (l r : Str) : compareSegments l r = match front l, front r with
    | none, none => .inl 0
    | none, some _ => .inl (-1)
    | some _, none => .inl 1
    | some (t, _), some (t', _) =>
      if Compare.sign (key true t) (key true t') = 0 then
        .inr ((readSegment (skipSeparators l)).2.2, (readSegment (skipSeparators r)).2.2)
      else .inl (Compare.sign (key true t) (key true t')) := by
  have hnone : ∀ s, front s = none → skipSeparators s = [] := by
    intro s hs
    rcases front_cases s with ⟨h, -, -⟩ | ⟨_, -, h, -⟩ | ⟨_, _, _, -, -, -, h, -⟩
    · exact h
    · rw [h] at hs
      cases hs
    · rw [h] at hs
      cases hs
  unfold compareSegments
  cases hl : front l with
  | none =>
    cases hr : front r with
    | none => simp [hnone l hl, hnone r hr]
    | some q =>
      obtain ⟨hne, -⟩ := @readSegment_front r q.2 q.1 hr
      simp [hnone l hl, hne]
  | some p =>
    obtain ⟨hne, text, numeric, next, hread, hkey, hrun⟩ := @readSegment_front l p.2 p.1 hl
    cases hr : front r with
    | none => simp [hnone r hr, hne]
    | some q =>
      obtain ⟨hne', text', numeric', next', hread', hkey', hrun'⟩ := @readSegment_front r q.2 q.1 hr
      dsimp only
      rw [if_neg (not_or.mpr ⟨hne, hne'⟩), hread, hread', hkey, hkey']
      exact segments_eq hrun hrun' (next, next')

/-- What the comparison of two texts comes to. -/
def keysSign (afterTilde : Bool) (p : Str × Str) : Int :=
  Compare.sign (codeKeys afterTilde (plainToks p.1)) (codeKeys afterTilde (plainToks p.2))

/-- The characters at both cursors. -/
def cursors (p : Str × Str) : Nat := p.1.length + p.2.length

/-- The keys of a text with a token, and where the loop goes on behind it: a tilde is not passed here. -/
theorem next_front {s rest : Str} {t : Tok} (h : front s = some (t, rest)) :
    plainToks s = t :: plainToks rest ∧
      (t = .tilde → plainToks (readSegment (skipSeparators s)).2.2 = .tilde :: plainToks rest) ∧
      (t ≠ .tilde → (readSegment (skipSeparators s)).2.2 = rest) ∧
      (readSegment (skipSeparators s)).2.2.length ≤ s.length ∧
      (t ≠ .tilde → (readSegment (skipSeparators s)).2.2.length < s.length) := by
  have hskip : (skipSeparators s).length ≤ s.length := (List.dropWhile_sublist _).length_le
  rcases front_cases s with ⟨-, hfront, -⟩ | ⟨r, hs, hfront, htoks, hread⟩ | ⟨numeric, text, r, -, -, hread, hfront,
    htoks, -, -, hlt⟩
  · rw [hfront] at h
    cases h
  · rw [hfront] at h
    cases h
    rw [hs] at hskip
    rw [hs, hread]
    exact ⟨htoks, fun _ => rfl, fun h => absurd rfl h, hskip, fun h => absurd rfl h⟩
  · rw [hfront] at h
    cases h
    rw [hread]
    exact ⟨htoks, nofun, fun _ => rfl, hlt.le, fun _ => hlt⟩

theorem plainToks_front {s : Str} (h : front s = none) : plainToks s = [] := by
  rcases front_cases s with ⟨-, -, htoks⟩ | ⟨_, -, hfront, -⟩ | ⟨_, _, _, -, -, -, hfront, -⟩
  · exact htoks
  · rw [hfront] at h
    cases h
  · rw [hfront] at h
    cases h

/-- Only a tilde has the key of a word without letters. -/
theorem eq_tilde_of_key {s rest : Str} {t : Tok} (h : front s = some (t, rest)) (hkey : key true t = mkKey 3 0 []) :
    t = .tilde := by
  rcases front_cases s with ⟨-, hfront, -⟩ | ⟨_, -, hfront, -⟩ | ⟨numeric, text, _, -, -, -, hfront, -, hne, -⟩
  · rw [hfront] at h
    cases h
  · rw [hfront] at h
    cases h
    rfl
  · rw [hfront] at h
    cases h
    cases numeric with
    | true => exact absurd (congrArg (fun k => (ofLex k).1) hkey) (by decide : (4 : Nat) ≠ 3)
    | false => exact absurd (congrArg (fun k => (ofLex (ofLex k).2).2) hkey) hne

theorem sign_end_key (ks ms : List Key) {t : Tok} {afterTilde : Bool} (h : afterTilde = false → t ≠ .tilde) :
    Compare.sign (endKey :: ks) (key afterTilde t :: ms) = -1 := by
  have hlt : endKey < key afterTilde t := by
    cases t with
    | tilde =>
      cases afterTilde with
      | false => exact absurd rfl (h rfl)
      | true => decide
    | caret => exact (Prod.Lex.toLex_lt_toLex).mpr (.inl (by decide : 1 < 2))
    | run numeric text =>
      cases numeric with
      | true => exact (Prod.Lex.toLex_lt_toLex).mpr (.inl (by decide : 1 < 4))
      | false => exact (Prod.Lex.toLex_lt_toLex).mpr (.inl (by decide : 1 < 3))
  exact Compare.sign_of_lt (List.cons_lt_cons_iff.mpr (.inl hlt))

/-- The second half of an iteration keeps the comparison of the keys. -/
theorem compareSegments_spec {l r : Str} {afterTilde : Bool}
    (hl : afterTilde = false → ∀ rest, front l ≠ some (.tilde, rest))
    (hr : afterTilde = false → ∀ rest, front r ≠ some (.tilde, rest)) :
    (∀ result, compareSegments l r = .inl result → keysSign afterTilde (l, r) = result) ∧
      ∀ q, compareSegments l r = .inr q → keysSign afterTilde (l, r) = keysSign false q ∧
        cursors q ≤ cursors (l, r) ∧ (afterTilde = false → cursors q < cursors (l, r)) := by
  rw [compareSegments_front]
  unfold keysSign cursors
  cases hfl : front l with
  | none =>
    rw [plainToks_front hfl]
    cases hfr : front r with
    | none =>
      rw [plainToks_front hfr]
      refine ⟨fun result h => ?_, nofun⟩
      cases h
      exact Compare.sign_self _
    | some q =>
      rw [(next_front hfr).1]
      refine ⟨fun result h => ?_, nofun⟩
      cases h
      exact sign_end_key _ _ fun ha ht => hr ha q.2 (by rw [hfr, ← ht])
  | some p =>
    obtain ⟨t, l'⟩ := p
    obtain ⟨htl, htildel, hrunl, hlel, hltl⟩ := next_front hfl
    cases hfr : front r with
    | none =>
      rw [htl, plainToks_front hfr]
      refine ⟨fun result h => ?_, nofun⟩
      cases h
      have hend := @sign_end_key [] (codeKeys (t == .tilde) (plainToks l')) t afterTilde
        fun ha ht => hl ha l' (by rw [hfl, ht])
      rw [Compare.sign_swap, codeKeys, codeKeys, hend]
      rfl
    | some q =>
      obtain ⟨t', r'⟩ := q
      obtain ⟨htr, htilder, hrunr, hler, hltr⟩ := next_front hfr
      -- where no tilde was passed, there is none here, and the flag makes no difference
      have hkey : ∀ {u : Tok}, (afterTilde = false → u ≠ .tilde) → key afterTilde u = key true u := by
        intro u hu
        cases u with
        | tilde =>
          cases afterTilde with
          | false => exact absurd rfl (hu rfl)
          | true => rfl
        | caret => rfl
        | run numeric text => rfl
      have hnl : afterTilde = false → t ≠ .tilde := fun ha ht => hl ha l' (by rw [hfl, ht])
      have hnr : afterTilde = false → t' ≠ .tilde := fun ha ht => hr ha r' (by rw [hfr, ht])
      rw [htl, htr]
      dsimp only
      rw [codeKeys, codeKeys, hkey hnl, hkey hnr, Compare.sign_cons]
      by_cases hsame : Compare.sign (key true t) (key true t') = 0
      · rw [if_pos hsame, if_pos (Compare.sign_eq_zero.mp hsame)]
        refine ⟨nofun, fun q h => ?_⟩
        cases h
        dsimp only
        refine ⟨?_, by omega, fun ha => by have := hltl (hnl ha); omega⟩
        have hkeys := Compare.sign_eq_zero.mp hsame
        by_cases ht : t = .tilde
        · have ht' : t' = .tilde := eq_tilde_of_key hfr (by rw [← hkeys, ht]; rfl)
          rw [htildel ht, htilder ht', ht, ht', codeKeys, codeKeys, Compare.sign_cons_self]
        · have ht' : t' ≠ .tilde := fun h => ht (eq_tilde_of_key hfl (by rw [hkeys, h]; rfl))
          rw [hrunl ht, hrunr ht', beq_false_of_ne ht, beq_false_of_ne ht']
      · rw [if_neg hsame, if_neg (mt Compare.sign_eq_zero.mpr hsame)]
        refine ⟨fun result h => ?_, nofun⟩
        cases h
        rfl

/-- Whether there is a tilde at a cursor. -/
theorem tilde_cases (s : Str) :
    (∃ rest, skipSeparators s = '~' :: rest ∧ front s = some (.tilde, rest) ∧ rest.length < s.length) ∨
      ((skipSeparators s).head? ≠ some '~' ∧ ∀ rest, front s ≠ some (.tilde, rest)) := by
  have hskip : (skipSeparators s).length ≤ s.length := (List.dropWhile_sublist _).length_le
  rcases front_cases s with ⟨hs, hfront, -⟩ | ⟨rest, hs, hfront, -⟩ | ⟨_, _, _, -, hhead, -, hfront, -⟩
  · rw [hs, hfront]
    exact .inr ⟨nofun, nofun⟩
  · rw [hs, List.length_cons] at hskip
    exact .inl ⟨rest, hs, hfront, hskip⟩
  · rw [hfront]
    exact .inr ⟨hhead, nofun⟩

theorem skipSeparators_skip (s : Str) : skipSeparators (skipSeparators s) = skipSeparators s :=
  List.dropWhile_idempotent isSeparator s

/-- Nothing but a tilde is as low as a tilde. -/
theorem sign_tilde_key {s : Str} (h : ∀ rest, front s ≠ some (.tilde, rest)) (ks : List Key) :
    Compare.sign (key false .tilde :: ks) (codeKeys false (plainToks s)) = -1 := by
  rcases front_cases s with ⟨-, -, htoks⟩ | ⟨rest, -, hfront, -⟩ | ⟨numeric, text, rest, -, -, -, -, htoks, -⟩
  · rw [htoks]
    exact Compare.sign_of_lt (List.cons_lt_cons_iff.mpr (.inl (by decide)))
  · exact absurd hfront (h rest)
  · have hlt : key false .tilde < key false (.run numeric text) := by
      cases numeric with
      | true => exact (Prod.Lex.toLex_lt_toLex).mpr (.inl (by decide : 0 < 4))
      | false => exact (Prod.Lex.toLex_lt_toLex).mpr (.inl (by decide : 0 < 3))
    rw [htoks]
    exact Compare.sign_of_lt (List.cons_lt_cons_iff.mpr (.inl hlt))

/-- An iteration keeps the comparison of the keys, and a cursor moves. -/
theorem keeps_rpmvercmpStep (p : Str × Str) : Compare.Keeps (keysSign false) cursors p (rpmvercmpStep p) := by
  obtain ⟨l, r⟩ := p
  unfold rpmvercmpStep
  dsimp only
  by_cases hnil : l = [] ∧ r = []
  · rw [if_pos hnil, hnil.1, hnil.2]
    rfl
  · rw [if_neg hnil]
    rcases tilde_cases l with ⟨l', hl, hfl, hltl⟩ | ⟨hl, hfl⟩
    · have htl : plainToks l = .tilde :: plainToks l' := (next_front hfl).1
      rcases tilde_cases r with ⟨r', hr, hfr, hltr⟩ | ⟨hr, hfr⟩
      · have htr : plainToks r = .tilde :: plainToks r' := (next_front hfr).1
        have hboth : keysSign false (l, r) = keysSign true (l', r') := by
          unfold keysSign
          dsimp only
          rw [htl, htr, codeKeys, codeKeys, Compare.sign_cons_self]
          rfl
        obtain ⟨hend, hnext⟩ := @compareSegments_spec l' r' true nofun nofun
        have hstep : ∀ o, compareSegments l' r' = o → Compare.Keeps (keysSign false) cursors (l, r) o := by
          intro o ho
          cases o with
          | inl result => exact hboth.trans (hend result ho)
          | inr q =>
            obtain ⟨hsign, hle, -⟩ := hnext q ho
            unfold cursors at hle
            dsimp only at hle
            exact ⟨hboth.trans hsign, by unfold cursors; dsimp only; omega⟩
        rw [hl, hr]
        exact hstep _ rfl
      · rw [hl, List.head?_cons, beq_self_eq_true, beq_false_of_ne hr]
        change keysSign false (l, r) = -1
        unfold keysSign
        rw [htl]
        exact sign_tilde_key hfr _
    · rcases tilde_cases r with ⟨r', hr, hfr, hltr⟩ | ⟨hr, hfr⟩
      · rw [hr, List.head?_cons, beq_self_eq_true, beq_false_of_ne hl]
        change keysSign false (l, r) = 1
        unfold keysSign
        rw [Compare.sign_swap, (next_front hfr).1, codeKeys, sign_tilde_key hfl]
        rfl
      · have hskip : compareSegments (skipSeparators l) (skipSeparators r) = compareSegments l r := by
          unfold compareSegments
          rw [skipSeparators_skip, skipSeparators_skip]
        rw [beq_false_of_ne hl, beq_false_of_ne hr, hskip]
        obtain ⟨hend, hnext⟩ := @compareSegments_spec l r false (fun _ => hfl) fun _ => hfr
        change Compare.Keeps (keysSign false) cursors (l, r) (compareSegments l r)
        cases ho : compareSegments l r with
        | inl result => exact hend result ho
        | inr q =>
          obtain ⟨hsign, -, hlt⟩ := hnext q ho
          exact ⟨hsign, hlt rfl⟩

/-- **The loop ends, with the comparison of the keys.** -/
theorem loop_rpmvercmpStep {left right : Str} {n : Nat} (hn : left.length + right.length < n) :
    Compare.loop rpmvercmpStep n (left, right) =
      some (Compare.sign (codeKeys false (plainToks left)) (codeKeys false (plainToks right))) :=
  @Compare.loop_eq _ _ rpmvercmpStep (keysSign false) cursors keeps_rpmvercmpStep n (left, right) hn

theorem rpmvercmp_eq (left right : Str) : rpmvercmp left right =
    some (Compare.sign (codeKeys false (plainToks left)) (codeKeys false (plainToks right))) := by
  unfold rpmvercmp
  split
  · next h => rw [h, Compare.sign_self]
  · exact loop_rpmvercmpStep (Nat.lt_succ_self _)

/-! ## Epoch, version and release -/

/-- `normalize_epoch`. -/
def normalizeEpoch (epoch : Option Str) : Flt := (epoch.bind strscan).getD (.fin 0)

/-- The two parts that `parse_evr` takes from a match; without one, the whole text is the second part. -/
def splitEpoch (evr : Str) : Option Str × Str :=
  match matchCaptures evr "^([^:]+):(.+)$" with
  | some [epoch, versionRelease] => (some epoch, versionRelease)
  | _ => (none, evr)

/-- What `parse_evr` returns. -/
structure Evr where
  epoch : Flt
  version : Str
  release : Str

/-- `parse_evr`. -/
def parseEvr (evr : Str) : Evr :=
  let (epoch, versionRelease) := splitEpoch evr
  match matchCaptures versionRelease "^([^-]+)%-(.+)$" with
  | some [version, release] => ⟨normalizeEpoch epoch, version, release⟩
  | _ => ⟨normalizeEpoch epoch, versionRelease, []⟩

/-- `a == b` on doubles; false when one of them is NaN. -/
def numEq : Flt → Flt → Bool
  | .nan, _ => false
  | a, b => a == b

/-- `evr_meets_minimum`. -/
def evrMeetsMinimum (installedEvr minimumEvr : Str) : Option Bool := do
  let installed := parseEvr installedEvr
  let minimum := parseEvr minimumEvr
  if !numEq installed.epoch minimum.epoch then return minimum.epoch.lt installed.epoch
  else
    let versionCmp ← rpmvercmp installed.version minimum.version
    if versionCmp ≠ 0 then return 0 < versionCmp
    else
      let releaseCmp ← rpmvercmp installed.release minimum.release
      return 0 ≤ releaseCmp

/-- The epoch is absent, `(none)` or digits. -/
def PlainEpoch (evr : Str) : Prop :=
  ∀ epoch, (splitEpoch evr).1 = some epoch → epoch = "(none)".toList ∨ epoch ≠ [] ∧ ∀ c ∈ epoch, c.isDigit = true

theorem roundDouble_ne_nan (q : Rat) : roundDouble q ≠ .nan := by
  unfold roundDouble
  by_cases hq : q = 0
  · rw [if_pos hq]
    exact Flt.noConfusion
  · rw [if_neg hq]
    dsimp only
    generalize (roundHalfEven _ : Rat) * pow2 _ = r
    by_cases hr : pow2 1024 ≤ r
    · rw [if_pos hr]
      exact Flt.noConfusion
    · rw [if_neg hr]
      exact Flt.noConfusion

/-- A plain epoch is a number. -/
theorem epoch_ne_nan {evr : Str} (h : PlainEpoch evr) : (parseEvr evr).epoch ≠ .nan := by
  have hparse : (parseEvr evr).epoch = normalizeEpoch (splitEpoch evr).1 := by
    unfold parseEvr
    dsimp only
    split <;> rfl
  rw [hparse]
  cases hepoch : (splitEpoch evr).1 with
  | none => nofun
  | some epoch =>
    rcases h epoch hepoch with rfl | ⟨hne, hdigits⟩
    · have hnone : normalizeEpoch (some "(none)".toList) = .fin 0 := rfl
      rw [hnone]
      nofun
    · unfold normalizeEpoch
      rw [Option.bind_some, strscan_digits hne hdigits]
      exact roundDouble_ne_nan _

theorem numEq_iff {a b : Flt} (ha : a ≠ .nan) : numEq a b = true ↔ a = b := by
  cases a with
  | nan => exact absurd rfl ha
  | inf neg => exact beq_iff_eq
  | fin q => exact beq_iff_eq

/-- A number among the rationals and the infinities. -/
def rank : Flt → ℤ ×ₗ ℚ
  | .nan => toLex (-1, 0)
  | .inf true => toLex (-1, 0)
  | .inf false => toLex (1, 0)
  | .fin q => toLex (0, q)

theorem lt_iff_rank {a b : Flt} (ha : a ≠ .nan) (hb : b ≠ .nan) : a.lt b = true ↔ rank a < rank b := by
  cases a with
  | nan => exact absurd rfl ha
  | inf n =>
    cases b with
    | nan => exact absurd rfl hb
    | inf m => cases n <;> cases m <;> simp [Flt.lt, rank, Prod.Lex.toLex_lt_toLex]
    | fin q => cases n <;> simp [Flt.lt, rank, Prod.Lex.toLex_lt_toLex]
  | fin p =>
    cases b with
    | nan => exact absurd rfl hb
    | inf m => cases m <;> simp [Flt.lt, rank, Prod.Lex.toLex_lt_toLex]
    | fin q => simp [Flt.lt, rank, Prod.Lex.toLex_lt_toLex]

theorem rank_inj {a b : Flt} (ha : a ≠ .nan) (hb : b ≠ .nan) : rank a = rank b ↔ a = b := by
  cases a with
  | nan => exact absurd rfl ha
  | inf n =>
    cases b with
    | nan => exact absurd rfl hb
    | inf m => cases n <;> cases m <;> simp [rank]
    | fin q => cases n <;> simp [rank]
  | fin p =>
    cases b with
    | nan => exact absurd rfl hb
    | inf m => cases m <;> simp [rank]
    | fin q => simp [rank]

/-- What a version or a release is compared by. -/
def versionKeys (s : Str) : List Key := codeKeys false (plainToks s)

/-- What a package is compared by. -/
def evrKey (evr : Str) : (ℤ ×ₗ ℚ) ×ₗ List Key ×ₗ List Key :=
  toLex (rank (parseEvr evr).epoch, toLex (versionKeys (parseEvr evr).version, versionKeys (parseEvr evr).release))

/-- What an epoch, a version and a release are compared by. -/
def Evr.key (e : Evr) : (ℤ ×ₗ ℚ) ×ₗ List Key ×ₗ List Key :=
  toLex (rank e.epoch, toLex (versionKeys e.version, versionKeys e.release))

/-- `evr_meets_minimum`, behind `parse_evr`. -/
def Evr.meets (installed minimum : Evr) : Option Bool := do
  if !numEq installed.epoch minimum.epoch then return minimum.epoch.lt installed.epoch
  else
    let versionCmp ← rpmvercmp installed.version minimum.version
    if versionCmp ≠ 0 then return 0 < versionCmp
    else
      let releaseCmp ← rpmvercmp installed.release minimum.release
      return 0 ≤ releaseCmp

/-- **A version meets a minimum iff it is not below it**, by epoch, version and release. -/
theorem Evr.meets_iff {x y : Evr} (hnx : x.epoch ≠ .nan) (hny : y.epoch ≠ .nan) :
    x.meets y = some true ↔ y.key ≤ x.key := by
  have hnum := @numEq_iff x.epoch y.epoch hnx
  have hlt := lt_iff_rank hny hnx
  have hrank := rank_inj hny hnx
  unfold Evr.meets Evr.key
  rw [Prod.Lex.toLex_le_toLex, Prod.Lex.toLex_le_toLex]
  dsimp only
  rw [rpmvercmp_eq, rpmvercmp_eq]
  by_cases hepoch : x.epoch = y.epoch
  · rw [hnum.mpr hepoch, hepoch]
    rcases lt_trichotomy (versionKeys x.version) (versionKeys y.version) with h | h | h
    · have hsign := Compare.sign_of_lt h
      unfold versionKeys at hsign h ⊢
      simp [hsign, h.not_gt, h.ne']
    · unfold versionKeys at h ⊢
      simp [h, Compare.sign_nonneg]
    · have hsign := Compare.sign_of_gt h
      unfold versionKeys at hsign h ⊢
      simp [hsign, h]
  · have hne : numEq x.epoch y.epoch = false := Bool.eq_false_iff.mpr (mt hnum.mp hepoch)
    rw [hne]
    have hne' : rank y.epoch ≠ rank x.epoch := fun h => hepoch (hrank.mp h).symm
    simp [hlt, hne']

/-- No version meets a minimum whose epoch is no number. -/
theorem Evr.meets_nan {x y : Evr} (hx : x.epoch ≠ .nan) (hy : y.epoch = .nan) : x.meets y = some false := by
  have hnum : numEq x.epoch y.epoch = false := Bool.eq_false_iff.mpr fun h => hx (((numEq_iff hx).mp h).trans hy)
  unfold Evr.meets
  rw [hnum, hy]
  rfl

/-- **An installed package meets a minimum iff it is not below it.** -/
theorem evrMeetsMinimum_iff {x y : Str} (hx : PlainEpoch x) (hy : PlainEpoch y) :
    evrMeetsMinimum x y = some true ↔ evrKey y ≤ evrKey x := Evr.meets_iff (epoch_ne_nan hx) (epoch_ne_nan hy)

/-- The comparison ends. -/
theorem evrMeetsMinimum_false {x y : Str} (h : evrMeetsMinimum x y ≠ some true) : evrMeetsMinimum x y = some false := by
  obtain ⟨b, hb⟩ : ∃ b, evrMeetsMinimum x y = some b := by
    unfold evrMeetsMinimum
    dsimp only
    rw [rpmvercmp_eq, rpmvercmp_eq]
    split
    · exact ⟨_, rfl⟩
    · rw [Option.bind_eq_bind, Option.bind_some]
      split <;> exact ⟨_, rfl⟩
  cases b with
  | false => exact hb
  | true => exact absurd hb h

/-- **The comparison is that of a linear order of keys**: the loop ends, swapped sides give the opposite result, results
that are not negative compose, and a minimum is met by itself and by what meets what meets it. -/
theorem rpmvercmp_total_preorder :
    (∀ a b : Str, ∃ r, (∀ n, a.length + b.length < n → Compare.loop rpmvercmpStep n (a, b) = some r) ∧
      rpmvercmp a b = some r ∧ rpmvercmp b a = some (-r)) ∧
    (∀ a b c : Str, ∀ r s, rpmvercmp a b = some r → rpmvercmp b c = some s → 0 ≤ r → 0 ≤ s →
      ∃ t, rpmvercmp a c = some t ∧ 0 ≤ t) ∧
    (∀ x : Str, PlainEpoch x → evrMeetsMinimum x x = some true) ∧
    ∀ x y z : Str, PlainEpoch x → PlainEpoch y → PlainEpoch z →
      evrMeetsMinimum x y = some true → evrMeetsMinimum y z = some true → evrMeetsMinimum x z = some true := by
  refine ⟨fun a b => ?_, fun a b c r s hr hs hr0 hs0 => ?_, fun x hx => ?_, fun x y z hx hy hz hxy hyz => ?_⟩
  · refine ⟨_, fun n hn => loop_rpmvercmpStep hn, rpmvercmp_eq a b, ?_⟩
    rw [rpmvercmp_eq, ← Compare.sign_swap]
  · rw [rpmvercmp_eq] at hr hs
    cases hr
    cases hs
    rw [Compare.sign_nonneg] at hr0 hs0
    exact ⟨_, rpmvercmp_eq a c, Compare.sign_nonneg.mpr (hs0.trans hr0)⟩
  · exact (evrMeetsMinimum_iff hx hx).mpr le_rfl
  · rw [evrMeetsMinimum_iff hx hy] at hxy
    rw [evrMeetsMinimum_iff hy hz] at hyz
    exact (evrMeetsMinimum_iff hx hz).mpr (hyz.trans hxy)

example : rpmvercmp "1.10" "1.9" = some 1 ∧ rpmvercmp "1.0~rc1" "1.0" = some (-1) := by decide +kernel

end Seharden
