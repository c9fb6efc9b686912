import Mathlib.Data.List.TakeDrop
import Mathlib.Data.List.TakeWhile

/-!
# Globs

How `fnmatch` reads a glob in the C locale, and what the glob matches. Backslashes are characters like others here, and
so are the openings of collating symbols, classes and equivalence classes in a bracket expression.

- `Matches`: a text matches items, each of which is any text or one character of a class;
- `read`: the items of a glob, and `fnmatch`;
- `matches_chars`: characters match themselves only;
- `readBracket_closed`, `readBracket_negated`, `readBracket_open`: bracket expressions.
-/

namespace Glob

/-! ## Matching -/

/-- An item: any text, or one character. -/
inductive Item (α : Type)
  | star
  | one (test : α → Bool)

section Matches

variable {α : Type}

/-- The text matches the items. -/
def Matches : List (Item α) → List α → Bool
  | [], s => s.isEmpty
  | .star :: is, s => s.tails.any (Matches is)
  | .one _ :: _, [] => false
  | .one test :: is, x :: s => test x && Matches is s

variable [DecidableEq α]

/-- Characters match themselves only. -/
theorem matches_chars (w s : List α) : Matches (w.map fun c => .one (· == c)) s = decide (s = w) := by
  induction w generalizing s with
  | nil => cases s <;> rfl
  | cons c w ih =>
    cases s with
    | nil => rfl
    | cons x s =>
      rw [List.map_cons, Matches, ih, Bool.eq_iff_iff, Bool.and_eq_true, beq_iff_eq, decide_eq_true_eq,
        decide_eq_true_eq,
        List.cons.injEq]

end Matches

/-! ## Reading -/

/-- The ranges of a bracket expression; a character alone is a range too. -/
def ranges : List Char → List (Char × Char)
  | a :: '-' :: b :: r => (a, b) :: ranges r
  | c :: r => (c, c) :: ranges r
  | [] => []

/-- The character is in one of the ranges. -/
def inRanges (rs : List (Char × Char)) (x : Char) : Bool := rs.any fun r => decide (r.1 ≤ x) && decide (x ≤ r.2)

/-- The text of a bracket expression up to its closing bracket, and what follows. A bracket that comes first is in
it. -/
def bracketBody : List Char → Option (List Char × List Char)
  | c :: r => match r.span (· ≠ ']') with
    | (body, _ :: rest) => some (c :: body, rest)
    | (_, []) => none
  | [] => none

/-- The bracket expression after an opening bracket; `!` negates it. -/
def readBracket (r : List Char) : Option (Item Char × List Char) :=
  let (neg, r) := match r with
    | '!' :: r => (true, r)
    | r => (false, r)
  (bracketBody r).map fun b => (.one fun x => inRanges (ranges b.1) x != neg, b.2)

/-- The items of a glob; `fuel` counts its characters. A bracket that is not closed is a character. -/
def readItems : Nat → List Char → List (Item Char)
  | 0, _ => []
  | _, [] => []
  | n + 1, '*' :: r => .star :: readItems n r
  | n + 1, '?' :: r => .one (fun _ => true) :: readItems n r
  | n + 1, '[' :: r => match readBracket r with
    | some (i, r) => i :: readItems n r
    | none => .one (· == '[') :: readItems n r
  | n + 1, c :: r => .one (· == c) :: readItems n r

/-- The items of a glob. -/
def read (glob : List Char) : List (Item Char) := readItems glob.length glob

/-- `fnmatch`. -/
def fnmatch (glob name : List Char) : Bool := Matches (read glob) name

example : fnmatch "kernel-[!d]*".toList "kernel-core".toList = true := by decide +kernel

/-! ## Bracket expressions -/

theorem span_closed {cls : List Char} (hcls : ']' ∉ cls) (rest : List Char) :
    (cls ++ ']' :: rest).span (· ≠ ']') = (cls, ']' :: rest) := by
  have hall : ∀ x ∈ cls, decide (x ≠ ']') = true := fun x hx => decide_eq_true fun h => hcls (h ▸ hx)
  rw [List.span_eq_takeWhile_dropWhile, List.takeWhile_append_of_pos hall, List.dropWhile_append_of_pos hall]
  simp

theorem span_open {s : List Char} (hs : ']' ∉ s) : s.span (· ≠ ']') = (s, []) := by
  have hall : ∀ x ∈ s, decide (x ≠ ']') = true := fun x hx => decide_eq_true fun h => hs (h ▸ hx)
  rw [List.span_eq_takeWhile_dropWhile, List.takeWhile_eq_self_iff.mpr hall, List.dropWhile_eq_nil_iff.mpr hall]

theorem bracketBody_closed {c : Char} {body : List Char} (hbody : ']' ∉ body) (rest : List Char) :
    bracketBody (c :: (body ++ ']' :: rest)) = some (c :: body, rest) := by
  rw [bracketBody, span_closed hbody]

theorem bracketBody_open {s : List Char} (hs : ']' ∉ s) : bracketBody s = none := by
  cases s with
  | nil => rfl
  | cons c s => rw [bracketBody, span_open fun h => hs (List.mem_cons_of_mem c h)]

/-- **An expression that is closed.** -/
theorem readBracket_closed {c : Char} {body : List Char} (hc : c ≠ '!') (hbody : ']' ∉ body) (rest : List Char) :
    readBracket (c :: (body ++ ']' :: rest)) = some (.one fun x => inRanges (ranges (c :: body)) x != false, rest) := by
  unfold readBracket
  split
  next neg r hr =>
    split at hr
    · next heq => exact absurd (List.cons.inj heq).1 hc
    · cases hr
      rw [bracketBody_closed hbody]
      rfl

theorem readBracket_negated {c : Char} {body : List Char} (hbody : ']' ∉ body) (rest : List Char) :
    readBracket ('!' :: c :: (body ++ ']' :: rest)) = some (.one fun x => inRanges (ranges (c :: body)) x != true,
      rest) := by
  have hread : readBracket ('!' :: c :: (body ++ ']' :: rest)) = (bracketBody (c :: (body ++ ']' :: rest))).map
      fun b => (.one fun x => inRanges (ranges b.1) x != true, b.2) := rfl
  rw [hread, bracketBody_closed hbody]
  rfl

theorem readBracket_open {s : List Char} (hs : ']' ∉ s) : readBracket s = none := by
  unfold readBracket
  split
  next neg r hr =>
    have hr' : ']' ∉ r := by
      split at hr
      · cases hr
        exact fun h => hs (List.mem_cons_of_mem _ h)
      · cases hr
        exact hs
    rw [bracketBody_open hr']
    rfl

end Glob
