import Mathlib.Data.List.Basic

/-!
# Extended regular expressions

How `grep -E` reads a pattern in the C locale, and what the pattern matches. What POSIX leaves undefined has no reading,
but for an escaped punctuation character that has no sense of its own, which is itself.

- `read`: a regular expression from its text, with `readBracket` for the bracket expressions;
- `Matches`: what a regular expression matches in a line, from one position to another;
- `Grep`: `grep -E` selects the line;
- `iter_chars`, `matches_rep_chars`: repetitions of a set of characters.
-/

namespace Ere

/-! ## The classes of the C locale -/

def isLower (c : Char) : Bool := 97 ≤ c.toNat && c.toNat ≤ 122
def isUpper (c : Char) : Bool := 65 ≤ c.toNat && c.toNat ≤ 90
def isAlpha (c : Char) : Bool := isLower c || isUpper c
def isDigit (c : Char) : Bool := 48 ≤ c.toNat && c.toNat ≤ 57
def isAlnum (c : Char) : Bool := isAlpha c || isDigit c
def isGraph (c : Char) : Bool := 33 ≤ c.toNat && c.toNat ≤ 126
def isPunct (c : Char) : Bool := isGraph c && !isAlnum c
def isSpace (c : Char) : Bool := c.toNat == 32 || 9 ≤ c.toNat && c.toNat ≤ 13
def isBlank (c : Char) : Bool := c.toNat == 32 || c.toNat == 9
def isPrint (c : Char) : Bool := 32 ≤ c.toNat && c.toNat ≤ 126
def isCntrl (c : Char) : Bool := c.toNat < 32 || c.toNat == 127
def isXdigit (c : Char) : Bool := isDigit c || 97 ≤ c.toNat && c.toNat ≤ 102 || 65 ≤ c.toNat && c.toNat ≤ 70

/-- The classes, as they are written in a bracket expression. -/
def classes : List (List Char × (Char → Bool)) :=
  [("[:alnum:]".toList, isAlnum), ("[:alpha:]".toList, isAlpha), ("[:blank:]".toList, isBlank),
    ("[:cntrl:]".toList, isCntrl), ("[:digit:]".toList, isDigit), ("[:graph:]".toList, isGraph),
    ("[:lower:]".toList, isLower), ("[:print:]".toList, isPrint), ("[:punct:]".toList, isPunct),
    ("[:space:]".toList, isSpace), ("[:upper:]".toList, isUpper), ("[:xdigit:]".toList, isXdigit)]

/-! ## Syntax -/

/-- A regular expression. `rep` is a repetition, at least `min` and at most `max` times. -/
inductive Regex
  | chars (test : Char → Bool)
  | bol
  | eol
  | empty
  | seq (a b : Regex)
  | alt (a b : Regex)
  | rep (min : Nat) (max : Option Nat) (a : Regex)

/-! ## Reading a bracket expression -/

/-- A class at the front. -/
def classAt (s : List Char) : Option ((Char → Bool) × List Char) :=
  (classes.find? fun c => c.1.isPrefixOf s).map fun c => (c.2, s.drop c.1.length)

/-- A bracket that begins a class, a collating symbol or an equivalence class. -/
def opensClass (c : Char) (r : List Char) : Bool :=
  c == '[' && (r.head? == some ':' || r.head? == some '.' || r.head? == some '=')

/-- The elements up to the closing bracket; a closing bracket that comes first is an element, and a hyphen is one at
either end. -/
def readElems : Nat → Bool → List Char → Option (List (Char → Bool) × List Char)
  | 0, _, _ => none
  | _ + 1, _, [] => none
  | n + 1, first, c :: r =>
    if c = ']' ∧ first = false then some ([], r)
    else match classAt (c :: r) with
      | some (test, r) => (readElems n false r).map fun p => (test :: p.1, p.2)
      | none =>
        if opensClass c r = true ∨ c = '-' ∧ first = false ∧ r.head? ≠ some ']' then none
        else match r with
          | '-' :: b :: r' =>
            if b = ']' then (readElems n false r).map fun p => ((· == c) :: p.1, p.2)
            else if opensClass b r' = true ∨ ¬c ≤ b then none
            else (readElems n false r').map fun p => ((fun x => decide (c ≤ x) && decide (x ≤ b)) :: p.1, p.2)
          | _ => (readElems n false r).map fun p => ((· == c) :: p.1, p.2)

/-- The set after an opening bracket. -/
def readBracket (s : List Char) : Option (Regex × List Char) :=
  match s with
  | '^' :: r => (readElems r.length true r).map fun p => (.chars fun x => !p.1.any (· x), p.2)
  | r => (readElems r.length true r).map fun p => (.chars fun x => p.1.any (· x), p.2)

/-! ## Reading a regular expression -/

/-- A number at the front. -/
def readNat (s : List Char) : Option (Nat × List Char) :=
  match s.span isDigit with
  | ([], _) => none
  | (ds, r) => some (ds.foldl (fun n d => 10 * n + (d.toNat - 48)) 0, r)

/-- The bounds of an interval after its opening brace. -/
def readInterval (s : List Char) : Option ((Nat × Option Nat) × List Char) :=
  match readNat s with
  | some (m, '}' :: r) => some ((m, some m), r)
  | some (m, ',' :: '}' :: r) => some ((m, none), r)
  | some (m, ',' :: r) => match readNat r with
    | some (n, '}' :: r) => if m ≤ n then some ((m, some n), r) else none
    | _ => none
  | _ => none

/-- The duplication symbol after an expression. -/
def readDup (a : Regex) : List Char → Option (Regex × List Char)
  | '*' :: r => some (.rep 0 none a, r)
  | '+' :: r => some (.rep 1 none a, r)
  | '?' :: r => some (.rep 0 (some 1) a, r)
  | '{' :: r => (readInterval r).map fun i => (.rep i.1.1 i.1.2 a, i.2)
  | r => some (a, r)

/-- The operators of GNU that begin with a backslash: `<`, `>`, the apostrophe and the backquote. -/
def operators : List Char := ['<', '>', Char.ofNat 39, Char.ofNat 96]

/-- What stands for itself after a backslash: punctuation, but for the operators. -/
def quotable (c : Char) : Bool := isPunct c && decide (c ∉ operators)

mutual

/-- Alternatives, up to the end or a closing parenthesis. -/
def readAlt : Nat → List Char → Option (Regex × List Char)
  | 0, _ => none
  | n + 1, s => match readBranch n s with
    | some (a, '|' :: r) => (readAlt n r).map fun b => (.alt a b.1, b.2)
    | other => other

/-- One alternative. -/
def readBranch : Nat → List Char → Option (Regex × List Char)
  | 0, _ => none
  | _ + 1, [] => some (.empty, [])
  | n + 1, c :: r =>
    if c = '|' ∨ c = ')' then some (.empty, c :: r)
    else match readAtom n (c :: r) with
      | some (a, r) => match readDup a r with
        | some (a, r) => (readBranch n r).map fun b => (.seq a b.1, b.2)
        | none => none
      | none => none

/-- What a duplication symbol applies to. -/
def readAtom : Nat → List Char → Option (Regex × List Char)
  | 0, _ => none
  | _ + 1, [] => none
  | n + 1, c :: r =>
    if c = '(' then match readAlt n r with
      | some (a, ')' :: r) => some (a, r)
      | _ => none
    else if c = '[' then readBracket r
    else if c = '\\' then match r with
      | d :: r => if quotable d then some (.chars (· == d), r) else none
      | [] => none
    else if c = '.' then some (.chars fun _ => true, r)
    else if c = '^' then some (.bol, r)
    else if c = '$' then some (.eol, r)
    else if c = '*' ∨ c = '+' ∨ c = '?' ∨ c = '{' then none
    else some (.chars (· == c), r)

end

/-- A regular expression from its text. -/
def read (s : List Char) : Option Regex :=
  match readAlt (3 * s.length + 6) s with
  | some (a, []) => some a
  | _ => none

/-! ## Matching -/

/-- Some number of steps, one after the other. -/
def Iter (P : Nat → Nat → Prop) : Nat → Nat → Nat → Prop
  | 0, i, j => j = i
  | n + 1, i, j => ∃ k, P i k ∧ Iter P n k j

/-- A regular expression matches in a line from one position to another. -/
def Matches (text : List Char) : Regex → Nat → Nat → Prop
  | .chars test, i, j => ∃ x, text[i]? = some x ∧ test x = true ∧ j = i + 1
  | .bol, i, j => i = 0 ∧ j = i
  | .eol, i, j => i = text.length ∧ j = i
  | .empty, i, j => j = i
  | .seq a b, i, j => ∃ k, Matches text a i k ∧ Matches text b k j
  | .alt a b, i, j => Matches text a i j ∨ Matches text b i j
  | .rep min max a, i, j => ∃ n, min ≤ n ∧ (∀ m, max = some m → n ≤ m) ∧ Iter (Matches text a) n i j

/-- A regular expression matches somewhere in a line. -/
def MatchesLine (a : Regex) (line : List Char) : Prop := ∃ i ≤ line.length, ∃ j, Matches line a i j

/-- `grep -E` selects the line. Each line of its argument is a pattern, and all must be readable. -/
def Grep (pattern line : List Char) : Prop :=
  (∀ p ∈ pattern.splitOn '\n', (read p).isSome = true) ∧
    ∃ p ∈ pattern.splitOn '\n', ∃ a, read p = some a ∧ MatchesLine a line

/-! ## Elements of a bracket expression -/

theorem opensClass_of_ne {c : Char} (hc : c ≠ '[') (r : List Char) : opensClass c r = false := by
  unfold opensClass
  rw [beq_eq_false_iff_ne.mpr hc, Bool.false_and]

theorem classAt_none {c : Char} {r : List Char} (h : opensClass c r = false) : classAt (c :: r) = none := by
  have hfirst : ∀ d ∈ classes, ∃ w, d.1 = '[' :: ':' :: w := by
    intro d hd
    simp only [classes, List.mem_cons, List.not_mem_nil, or_false] at hd
    rcases hd with rfl | rfl | rfl | rfl | rfl | rfl | rfl | rfl | rfl | rfl | rfl | rfl <;> exact ⟨_, rfl⟩
  have hnone : classes.find? (fun d => d.1.isPrefixOf (c :: r)) = none := by
    rw [List.find?_eq_none]
    intro d hd hpre
    obtain ⟨w, hw⟩ := hfirst d hd
    obtain ⟨t, ht⟩ := List.isPrefixOf_iff_prefix.mp hpre
    rw [hw] at ht
    obtain ⟨hc, hr⟩ := List.cons.inj ht
    rw [← hc, ← hr] at h
    cases h
  unfold classAt
  rw [hnone]
  rfl

/-- A character that is an element. -/
theorem readElems_char {n : Nat} {first : Bool} {c : Char} {r : List Char} (hc : c = ']' → first = true)
    (hopen : opensClass c r = false) (hdash : c = '-' → first = true ∨ r.head? = some ']')
    (hnext : ∀ b r', r = '-' :: b :: r' → b = ']') : readElems (n + 1) first (c :: r) =
      (readElems n false r).map fun p => ((· == c) :: p.1, p.2) := by
  have hclose : ¬(c = ']' ∧ first = false) := fun h => by rw [hc h.1] at h; cases h.2
  have hhyphen : ¬(opensClass c r = true ∨ c = '-' ∧ first = false ∧ r.head? ≠ some ']') := by
    rintro (h | ⟨h, hf, hr⟩)
    · rw [hopen] at h
      cases h
    · rcases hdash h with h | h
      · rw [hf] at h
        cases h
      · exact hr h
  by_cases hr : ∃ b r', r = '-' :: b :: r'
  · obtain ⟨b, r', rfl⟩ := hr
    rw [readElems, if_neg hclose, classAt_none hopen]
    dsimp only
    rw [if_neg hhyphen, if_pos (hnext b r' rfl)]
  · rw [readElems, if_neg hclose, classAt_none hopen]
    · dsimp only
      rw [if_neg hhyphen]
    · exact fun b r' h => hr ⟨b, r', h⟩

/-- A range. -/
theorem readElems_range {n : Nat} {first : Bool} {a b : Char} {r : List Char} (ha : a = ']' ∨ a = '-' → first = true)
    (hb : b ≠ ']') (hopen : opensClass b r = false) (hle : a ≤ b) : readElems (n + 1) first (a :: '-' :: b :: r) =
      (readElems n false r).map fun p => ((fun x => decide (a ≤ x) && decide (x ≤ b)) :: p.1, p.2) := by
  have hopen' : opensClass a ('-' :: b :: r) = false := by
    unfold opensClass
    rw [List.head?_cons]
    simp
  have hclose : ¬(a = ']' ∧ first = false) := fun h => by rw [ha (.inl h.1)] at h; cases h.2
  have hhyphen : ¬(opensClass a ('-' :: b :: r) = true ∨ a = '-' ∧ first = false ∧
    ('-' :: b :: r).head? ≠ some ']') := by
    rintro (h | ⟨h, hf, -⟩)
    · rw [hopen'] at h
      cases h
    · rw [ha (.inr h)] at hf
      cases hf
  have hbad : ¬(opensClass b r = true ∨ ¬a ≤ b) := by
    rintro (h | h)
    · rw [hopen] at h
      cases h
    · exact h hle
  rw [readElems, if_neg hclose, classAt_none hopen']
  dsimp only
  rw [if_neg hhyphen, if_neg hb, if_neg hbad]

/-! ## Atoms -/

theorem readAtom_bracket (n : Nat) (r : List Char) : readAtom (n + 1) ('[' :: r) = readBracket r := rfl

theorem readAtom_quoted (n : Nat) {d : Char} (hd : quotable d = true) (r : List Char) :
    readAtom (n + 1) ('\\' :: d :: r) = some (.chars (· == d), r) := by
  show (if quotable d = true then some (Regex.chars (· == d), r) else none) = _
  rw [if_pos hd]

/-- The characters with a sense of their own at the front of an expression. -/
def special : List Char := ['(', '[', '\\', '.', '^', '$', '*', '+', '?', '{']

theorem readAtom_char (n : Nat) {c : Char} (hc : c ∉ special) (r : List Char) :
    readAtom (n + 1) (c :: r) = some (.chars (· == c), r) := by
  simp only [special, List.mem_cons, List.not_mem_nil, or_false, not_or] at hc
  obtain ⟨hopen, hset, hback, hdot, hcaret, hdollar, hstar, hplus, hopt, hbrace⟩ := hc
  unfold readAtom
  rw [if_neg hopen, if_neg hset, if_neg hback, if_neg hdot, if_neg hcaret, if_neg hdollar,
    if_neg fun h => h.elim hstar fun h => h.elim hplus fun h => h.elim hopt hbrace]

/-! ## Alternatives -/

theorem readAlt_last {n : Nat} {s : List Char} {a : Regex} (h : readBranch n s = some (a, [])) :
    readAlt (n + 1) s = some (a, []) := by
  rw [readAlt, h]

theorem readAlt_bar {n : Nat} {s r rest : List Char} {a b : Regex} (ha : readBranch n s = some (a, '|' :: r))
    (hb : readAlt n r = some (b, rest)) : readAlt (n + 1) s = some (.alt a b, rest) := by
  rw [readAlt, ha]
  show (readAlt n r).map (fun b => (Regex.alt a b.1, b.2)) = _
  rw [hb]
  rfl

/-- A pattern without an end of line in it selects the lines that it matches. -/
theorem grep_iff {pattern line : List Char} {a : Regex} (hline : '\n' ∉ pattern) (ha : read pattern = some a) :
    Grep pattern line ↔ MatchesLine a line := by
  unfold Grep
  rw [List.splitOn_eq_singleton hline]
  constructor
  · rintro ⟨-, p, hp, b, hb, h⟩
    rw [List.mem_singleton.mp hp, ha] at hb
    rwa [Option.some.inj hb]
  · intro h
    refine ⟨fun p hp => ?_, pattern, List.mem_singleton_self _, a, ha, h⟩
    rw [List.mem_singleton.mp hp, ha]
    rfl

/-- A line is selected by one of the alternatives. -/
theorem matchesLine_alt {a b : Regex} {line : List Char} :
    MatchesLine (.alt a b) line ↔ MatchesLine a line ∨ MatchesLine b line := by
  constructor
  · rintro ⟨i, hi, j, h | h⟩
    · exact .inl ⟨i, hi, j, h⟩
    · exact .inr ⟨i, hi, j, h⟩
  · rintro (⟨i, hi, j, h⟩ | ⟨i, hi, j, h⟩)
    · exact ⟨i, hi, j, .inl h⟩
    · exact ⟨i, hi, j, .inr h⟩

/-! ## Repeating a set of characters -/

/-- How many characters from a position on are in the set. -/
def run (text : List Char) (test : Char → Bool) (i : Nat) : Nat := ((text.drop i).takeWhile test).length

theorem run_pos {text : List Char} {test : Char → Bool} {i : Nat} :
    0 < run text test i ↔ ∃ x, text[i]? = some x ∧ test x = true := by
  unfold run
  rw [← List.head?_drop]
  cases text.drop i with
  | nil => simp
  | cons x r => by_cases hx : test x = true <;> simp [hx]

theorem run_succ {text : List Char} {test : Char → Bool} {i : Nat} {x : Char} (hx : text[i]? = some x)
    (htest : test x = true) : run text test i = run text test (i + 1) + 1 := by
  obtain ⟨hi, rfl⟩ := List.getElem?_eq_some_iff.mp hx
  unfold run
  rw [List.drop_eq_getElem_cons hi, List.takeWhile_cons_of_pos htest, List.length_cons]

/-- Some number of characters of the set. -/
theorem iter_chars {text : List Char} {test : Char → Bool} : ∀ {n i j : Nat},
    Iter (Matches text (.chars test)) n i j ↔ n ≤ run text test i ∧ j = i + n
  | 0, i, j => by simp [Iter]
  | n + 1, i, j => by
    constructor
    · rintro ⟨k, ⟨x, hx, htest, rfl⟩, h⟩
      obtain ⟨hn, rfl⟩ := iter_chars.mp h
      rw [run_succ hx htest]
      omega
    · rintro ⟨hn, rfl⟩
      obtain ⟨x, hx, htest⟩ := run_pos.mp (Nat.lt_of_lt_of_le (Nat.succ_pos n) hn)
      rw [run_succ hx htest] at hn
      exact ⟨i + 1, ⟨x, hx, htest, rfl⟩, iter_chars.mpr ⟨by omega, by omega⟩⟩

/-- A repetition of a set of characters. -/
theorem matches_rep_chars {text : List Char} {test : Char → Bool} {min : Nat} {max : Option Nat} {i j : Nat} :
    Matches text (.rep min max (.chars test)) i j ↔
      ∃ n, min ≤ n ∧ (∀ m, max = some m → n ≤ m) ∧ n ≤ run text test i ∧ j = i + n := by
  unfold Matches
  simp only [iter_chars]

theorem matches_chars {text : List Char} {test : Char → Bool} {i j : Nat} :
    Matches text (.chars test) i j ↔ 1 ≤ run text test i ∧ j = i + 1 := by
  have h := @iter_chars text test 1 i j
  unfold Iter Iter at h
  rw [← h]
  exact ⟨fun h => ⟨j, h, rfl⟩, fun ⟨k, h, hk⟩ => hk ▸ h⟩

end Ere
