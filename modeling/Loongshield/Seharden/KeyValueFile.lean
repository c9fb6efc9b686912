import Loongshield.Lua.Escape
import Loongshield.Seharden.Trim

/-!
# `shared/key_value_file.lua`

Files of assignments, with comments and sections.

- `parseLine`, `parseEntries`, `parseHandle`: the reader; the last assignment of a key wins;
- `parseHandle_eq`: the value of a key, from what each line assigns;
- `parseLine_eq`: what a line says, without the patterns.
-/

namespace Seharden
namespace KeyValueFile

open Lua Pattern

/-! ## The reader -/

/-- The options of the reader. -/
structure Options where
  normalizeKey : Option (Str → Str)
  lowerValues : Bool
  section_ : Option Str
  allowWhitespaceAssignment : Bool

/-- The options of a call that gives none. -/
def Options.none : Options where
  normalizeKey := Option.none
  lowerValues := false
  section_ := Option.none
  allowWhitespaceAssignment := true

/-- The loop of `strip_inline_comment`: whether it is in quotes, and the character before. -/
def stripLoop : Bool → Option Char → Str → Str
  | _, _, [] => []
  | inQuote, previous, c :: rest =>
    if c = '"' then c :: stripLoop (!inQuote) (some c) rest
    else if c = '#' ∧ inQuote = false ∧ previous.all isspace then []
    else c :: stripLoop inQuote (some c) rest

/-- `strip_inline_comment`. -/
def stripInlineComment (line : Str) : Str := stripLoop false Option.none line

/-- `parse_assignment`: the key and the value. -/
def parseAssignment (allowWhitespace : Bool) (trimmed : Str) : Option (Str × Str) :=
  match matchCaptures trimmed "^([^=%s]+)%s*=%s*(.-)%s*$" with
  | some [key, value] => some (key, value)
  | _ =>
    if allowWhitespace then
      match matchCaptures trimmed "^([%S]+)%s+(.-)%s*$" with
      | some [key, value] => some (key, value)
      | _ => Option.none
    else Option.none

/-- `normalize_value`. -/
def normalizeValue (lowerValues : Bool) (value : Str) : Str :=
  let value := substitute (substitute value "^\"" []) "\"$" []
  if lowerValues then lower value else value

/-- What `parse_line` gives: a section, or a key and a value. -/
inductive Parsed
  | header (name : Str)
  | entry (key value : Str)
  deriving DecidableEq

/-- The test for the header of a section. -/
def isHeader (trimmed : Str) : Bool := isMatch trimmed "^%[[^%]]+%]$"

/-- `parse_line`. -/
def parseLine (opts : Options) (line : Str) : Option Parsed :=
  let trimmed := trim (stripInlineComment line)
  if trimmed = [] ∨ isMatch trimmed "^#" then Option.none
  else if isHeader trimmed then some (.header ((firstCapture trimmed "^%[([^%]]+)%]$").getD []))
  else
    match parseAssignment opts.allowWhitespaceAssignment trimmed with
    | some (key, value) => some (.entry (opts.normalizeKey.getD id key) (normalizeValue opts.lowerValues value))
    | Option.none => Option.none

/-- The entries that `parse_entries` gives. -/
structure Entry where
  key : Str
  value : Str
  section_ : Option Str
  deriving DecidableEq

/-- The loop of `parse_entries`; `current` is the section so far. -/
def entriesFrom (opts : Options) : Option Str → List Str → List Entry
  | _, [] => []
  | current, line :: lines =>
    match parseLine opts line with
    | some (.header name) => entriesFrom opts (some name) lines
    | some (.entry key value) =>
      if opts.section_ = Option.none ∨ current = opts.section_ then
        ⟨key, value, current⟩ :: entriesFrom opts current lines
      else entriesFrom opts current lines
    | Option.none => entriesFrom opts current lines

/-- `parse_entries`, on the lines of the handle. -/
def parseEntries (opts : Options) (lines : List Str) : List Entry := entriesFrom opts Option.none lines

/-- `parse_handle`: the table of values. -/
def parseHandle (opts : Options) (lines : List Str) : Str → Option Str :=
  (parseEntries opts lines).foldl (fun values entry => fun key => if key = entry.key then some entry.value
    else values key)
    fun _ => Option.none

/-- What an entry gives to a key. -/
def Entry.for (key : Str) (entry : Entry) : Option Str := if key = entry.key then some entry.value else Option.none

/-- **The last entry of a key wins.** -/
theorem parseHandle_eq (opts : Options) (lines : List Str) (key : Str) :
    parseHandle opts lines key = ((parseEntries opts lines).filterMap (Entry.for key)).getLast? := by
  have h : ∀ (entries : List Entry) (values : Str → Option Str), entries.foldl (fun values entry => fun key =>
      if key = entry.key then some entry.value else values key) values key =
        (entries.filterMap (Entry.for key)).getLast?.or (values key) := by
    intro entries
    induction entries with
    | nil => exact fun _ => rfl
    | cons entry entries ih =>
      intro values
      rw [List.foldl_cons, ih, List.filterMap_cons]
      unfold Entry.for
      by_cases hkey : key = entry.key
      · rw [if_pos hkey, if_pos hkey, List.getLast?_cons]
        cases (entries.filterMap _).getLast? <;> rfl
      · rw [if_neg hkey, if_neg hkey]
  rw [parseHandle, h, Option.or_none]

/-! ## Comments -/

theorem stripLoop_append {w : Str} (hw : '#' ∉ w) : ∀ (inQuote : Bool) (previous : Option Char) (rest : Str),
    stripLoop inQuote previous (w ++ rest) =
      w ++ stripLoop (inQuote ^^ decide (Odd (w.count '"'))) (w.getLast?.or previous) rest := by
  induction w with
  | nil =>
    intro inQuote previous rest
    cases inQuote <;> rfl
  | cons x w ih =>
    intro inQuote previous rest
    have hx : x ≠ '#' := fun h => hw (h ▸ List.mem_cons_self)
    have ih := ih fun h => hw (List.mem_cons_of_mem x h)
    have hlast : ((x :: w).getLast?).or previous = w.getLast?.or (some x) := by
      rw [List.getLast?_cons]
      cases w.getLast? <;> rfl
    rw [List.cons_append, stripLoop, hlast]
    by_cases hq : x = '"'
    · have hodd : decide (Odd ((x :: w).count '"')) = !decide (Odd (w.count '"')) := by
        rw [hq, List.count_cons_self, Bool.eq_iff_iff, decide_eq_true_eq, Bool.not_eq_true', decide_eq_false_iff_not,
          Nat.odd_add_one]
      rw [if_pos hq, ih, hodd]
      cases inQuote <;> cases decide (Odd (w.count '"')) <;> rfl
    · rw [if_neg hq, if_neg fun h => hx h.1, ih, List.count_cons_of_ne hq]
      rfl

/-- A word is cut off only at its beginning. -/
theorem stripLoop_word {w : Str} (hw : ∀ x ∈ w, isspace x = false) : ∀ {inQuote : Bool} {previous : Option Char}
    {b : Str}, (∀ x ∈ b, isspace x = true) → (w.head? = some '#' → inQuote = true ∨ previous.all isspace = false) →
    stripLoop inQuote previous (w ++ b) = w ++ b := by
  induction w with
  | nil =>
    intro inQuote previous b hb _
    have hno : '#' ∉ b := fun h => absurd (hb _ h) (by decide)
    have h := stripLoop_append hno inQuote previous []
    rw [stripLoop, List.append_nil] at h
    rw [List.nil_append, h]
  | cons x w ih =>
    intro inQuote previous b hb hhead
    have hx : isspace x = false := hw x List.mem_cons_self
    have hnext : ∀ q : Bool, w.head? = some '#' → q = true ∨ (some x).all isspace = false := fun _ _ => .inr hx
    have ih := @ih fun y hy => hw y (List.mem_cons_of_mem x hy)
    rw [List.cons_append, stripLoop]
    by_cases hq : x = '"'
    · rw [if_pos hq, ih hb (hnext _)]
    · rw [if_neg hq, if_neg, ih hb (hnext _)]
      rintro ⟨rfl, hquote, hprevious⟩
      rcases hhead rfl with h | h
      · rw [h] at hquote
        cases hquote
      · rw [h] at hprevious
        cases hprevious

/-- What is left of a line is its front. -/
theorem stripLoop_isPrefix : ∀ (inQuote : Bool) (previous : Option Char) (line : Str),
    stripLoop inQuote previous line <+: line
  | _, _, [] => List.prefix_refl []
  | inQuote, previous, c :: rest => by
    rw [stripLoop]
    split
    · exact List.cons_prefix_cons.mpr ⟨rfl, stripLoop_isPrefix _ _ rest⟩
    · split
      · exact List.nil_prefix
      · exact List.cons_prefix_cons.mpr ⟨rfl, stripLoop_isPrefix _ _ rest⟩

/-! ## Quotes -/

/-- A text without a quote at its beginning and one at its end. -/
def unquote (value : Str) : Str :=
  let value := if value.head? = some '"' then value.tail else value
  if value.getLast? = some '"' then value.dropLast else value

theorem substitute_openQuote (s : Str) : substitute s "^\"" [] = if s.head? = some '"' then s.tail else s := by
  have h : gsub s "^\"" (fun _ => []) = .ok (((matchRest [.single (.lit '"') .one] s []).map fun p =>
    [] ++ p.1).getD s) :=
    gsub_anchored rfl rfl rfl (fun _ => []) s
  unfold substitute
  rw [h]
  cases s with
  | nil => rfl
  | cons x s =>
    rw [matchRest, Single.test, List.head?_cons]
    by_cases hx : x = '"'
    · rw [hx]
      rfl
    · rw [if_neg (by simpa using fun h : '"' = x => hx h.symm), if_neg (by simpa using hx)]
      rfl

theorem substitute_closeQuote (s : Str) : substitute s "\"$" [] = if s.getLast? = some '"' then s.dropLast else s := by
  have h : gsub s "\"$" (fun _ => []) = .ok (gsubRest [.single (.lit '"') .one, .atEnd] (fun _ => [])
    (s.length + 1) s) :=
    gsub_eq (by decide) rfl rfl (fun _ => []) s
  have hrest : ∀ {fuel : Nat} {s : Str}, s.length < fuel →
    gsubRest [.single (.lit '"') .one, .atEnd] (fun _ => []) fuel s =
      if s.getLast? = some '"' then s.dropLast else s := by
    intro fuel
    induction fuel with
    | zero => exact fun h => absurd h (Nat.not_lt_zero _)
    | succ fuel ih =>
      intro s hfuel
      cases s with
      | nil => rfl
      | cons x s =>
        rw [List.length_cons] at hfuel
        have hmatch : matchRest [.single (.lit '"') .one, .atEnd] (x :: s) [] =
            if x = '"' ∧ s = [] then some (s, []) else none := by
          rw [matchRest, matchRest, Single.test]
          by_cases hx : x = '"'
          · rw [hx, if_pos (by rfl)]
            by_cases hs : s = []
            · rw [if_pos hs, if_pos ⟨rfl, hs⟩]
            · rw [if_neg hs, if_neg fun h => hs h.2]
          · rw [if_neg (by simpa using fun h : '"' = x => hx h.symm), if_neg fun h => hx h.1]
        unfold gsubRest
        rw [hmatch]
        by_cases hend : x = '"' ∧ s = []
        · rw [if_pos hend]
          obtain ⟨rfl, rfl⟩ := hend
          dsimp only
          rw [if_pos (by decide), ih (by simpa using hfuel)]
          rfl
        · rw [if_neg hend]
          dsimp only
          rw [ih (by omega), List.getLast?_cons]
          cases hs : s with
          | nil => simp [show x ≠ '"' from fun h => hend ⟨h, hs⟩]
          | cons y t =>
            have hlast : ((y :: t).getLast?).getD x = (y :: t).getLast (List.cons_ne_nil y t) := by
              rw [List.getLast?_eq_some_getLast (List.cons_ne_nil y t), Option.getD_some]
            rw [hlast, List.getLast?_eq_some_getLast (List.cons_ne_nil y t), List.dropLast_cons_cons]
            split <;> rfl
  unfold substitute
  rw [h, hrest (Nat.lt_succ_self _)]

theorem normalizeValue_eq (value : Str) : normalizeValue false value = unquote value := by
  unfold normalizeValue unquote
  rw [substitute_openQuote, substitute_closeQuote]
  rfl

/-! ## Assignments -/

/-- A character of a key before `=`. -/
def inKey (x : Char) : Bool := x != '=' && !isspace x

/-- `[^=%s]`. -/
def keyClass : Single := .set true [.lit '=', .cls 's']

theorem keyClass_test (x : Char) : keyClass.test x = inKey x := by
  have h : keyClass.test x = ((('=' == x) || (isspace x || false)) != true) := rfl
  have hsymm : ('=' == x) = (x == '=') := by rw [Bool.eq_iff_iff, beq_iff_eq, beq_iff_eq, eq_comm]
  rw [h, inKey, hsymm]
  cases hx : (x == '=') <;> cases isspace x <;> simp [bne, hx]

/-- A key, `=` and a value. -/
def equalsSplit (t : Str) : Option (Str × Str) :=
  let rest := (t.dropWhile inKey).dropWhile isspace
  if t.takeWhile inKey ≠ [] ∧ rest.head? = some '=' then some (t.takeWhile inKey, trim rest.tail) else Option.none

/-- A word, blanks and a value. -/
def blankSplit (t : Str) : Option (Str × Str) :=
  let rest := t.dropWhile fun x => !isspace x
  if t.takeWhile (fun x => !isspace x) ≠ [] ∧ rest ≠ [] then some (t.takeWhile fun x => !isspace x, trim rest)
    else Option.none

/-- A captured run that cannot be cut short. -/
theorem matchRest_capRun {c : Single} {is : List Pattern.Item} (his : ∀ x r segs, c.test x = true →
    matchRest is (x :: r) segs = Option.none) (t : Str) :
    matchRest (.capOpen :: .single c .plus :: .capClose :: is) t [] =
      if t.takeWhile c.test = [] then Option.none
      else matchRest is (t.dropWhile c.test) [⟨t, some (t.takeWhile c.test).length⟩] := by
  cases t with
  | nil => rfl
  | cons x u =>
    rw [matchRest, List.nil_append, matchRest]
    by_cases hx : c.test x = true
    · have hk : ∀ y r, c.test y = true → matchRest (.capClose :: is) (y :: r) [⟨x :: u, Option.none⟩] =
        Option.none := by
        intro y r hy
        rw [matchRest]
        cases closeSeg (y :: r) [⟨x :: u, Option.none⟩] with
        | none => rfl
        | some segs => exact his y r segs hy
      have hclose := closeSeg_run (x :: u.takeWhile c.test) (u.dropWhile c.test) []
      rw [List.cons_append, List.takeWhile_append_dropWhile, List.nil_append, List.nil_append] at hclose
      rw [if_pos hx, longest_eq hk, List.takeWhile_cons_of_pos hx, List.dropWhile_cons_of_pos hx,
        if_neg (List.cons_ne_nil _ _), matchRest, hclose]
    · rw [if_neg hx, List.takeWhile_cons_of_neg hx, if_pos rfl]

/-- The items of `([^=%s]+)%s*=%s*(.-)%s*$`. -/
def equalsItems : List Pattern.Item :=
  .capOpen :: .single keyClass .plus :: .capClose :: .single blank .star :: .single (.lit '=') .one :: trimItems

theorem compile_equals : compile "([^=%s]+)%s*=%s*(.-)%s*$" = equalsItems := rfl

/-- `[%S]`. -/
def wordClass : Single := .set false [.cls 'S']

theorem wordClass_test (x : Char) : wordClass.test x = !isspace x := by
  have h : wordClass.test x = ((!isspace x || false) != false) := rfl
  rw [h, Bool.or_false, Bool.bne_false]

/-- The items of `([%S]+)%s+(.-)%s*$`. -/
def blankItems : List Pattern.Item :=
  [.capOpen, .single wordClass .plus, .capClose, .single blank .plus, .capOpen, .single .any .minus, .capClose,
    .single blank .star, .atEnd]

theorem compile_blanks : compile "([%S]+)%s+(.-)%s*$" = blankItems := rfl

theorem take_length_takeWhile (p : Char → Bool) (t : Str) : t.take (t.takeWhile p).length = t.takeWhile p :=
  (List.prefix_iff_eq_take.mp (List.takeWhile_prefix p)).symm

/-- The texts of a run and of what `trim` leaves of a rest. -/
theorem texts_run_trim (p : Char → Bool) (t r : Str) :
    texts t [] [⟨t, some (t.takeWhile p).length⟩, ⟨r.dropWhile isspace,
      some ((r.dropWhile isspace).rdropWhile isspace).length⟩] =
      [t.takeWhile p, trim r] := by
  simp only [texts, List.isEmpty_cons, Bool.false_eq_true, if_false, List.map_cons, List.map_nil, Seg.text,
    Option.getD_some, take_length_takeWhile, take_rdropWhile, trim_eq]

theorem matchCaptures_equals (t : Str) : matchCaptures t "^([^=%s]+)%s*=%s*(.-)%s*$" =
    (equalsSplit t).map fun kv => [kv.1, kv.2] := by
  have hcapt : matchCaptures t "^([^=%s]+)%s*=%s*(.-)%s*$" =
      (matchRest equalsItems t []).map fun p => texts t p.1 p.2 := matchCaptures_anchored rfl compile_equals rfl
  have hlit : ∀ x r segs, isspace x = true → matchRest (.single (.lit '=') .one :: trimItems) (x :: r) segs =
    Option.none := by
    intro x r segs hx
    rw [matchRest, if_neg]
    intro h
    obtain rfl : '=' = x := beq_iff_eq.mp h
    exact absurd hx (by decide)
  have hrest : ∀ (r : Str) (segs : List Seg), matchRest
    (.single blank .star :: .single (.lit '=') .one :: trimItems) r segs =
      matchRest (.single (.lit '=') .one :: trimItems) (r.dropWhile isspace) segs := by
    intro r segs
    have hlong := @longest_eq blank _ (fun r => matchRest (.single (.lit '=') .one :: trimItems) r segs)
      (fun x r hx => hlit x r segs hx) r
    rw [matchRest, hlong]
    rfl
  have hkey : ∀ x r segs, keyClass.test x = true →
      matchRest (.single blank .star :: .single (.lit '=') .one :: trimItems) (x :: r) segs = Option.none := by
    intro x r segs hx
    rw [keyClass_test, inKey, Bool.and_eq_true, bne_iff_ne, Bool.not_eq_true'] at hx
    rw [hrest, List.dropWhile_cons_of_neg (by rw [hx.2]; exact Bool.false_ne_true), matchRest, if_neg]
    exact fun h => hx.1 (beq_iff_eq.mp h).symm
  have hfun : keyClass.test = inKey := funext keyClass_test
  rw [hcapt, equalsItems, matchRest_capRun hkey, hrest, hfun, equalsSplit]
  by_cases hne : t.takeWhile inKey = []
  · rw [if_pos hne, if_neg fun h => h.1 hne]
    rfl
  · rw [if_neg hne]
    cases hr : (t.dropWhile inKey).dropWhile isspace with
    | nil =>
      rw [if_neg fun h => by cases h.2]
      rfl
    | cons x r =>
      rw [List.head?_cons, List.tail_cons, matchRest, Single.test]
      by_cases hx : x = '='
      · rw [hx, if_pos (by rfl), if_pos ⟨hne, rfl⟩, matchRest_trim]
        exact congrArg some (texts_run_trim inKey t r)
      · rw [if_neg (by simpa using fun h : '=' = x => hx h.symm), if_neg fun h => hx (Option.some.inj h.2)]
        rfl

theorem matchCaptures_blanks (t : Str) : matchCaptures t "^([%S]+)%s+(.-)%s*$" =
    (blankSplit t).map fun kv => [kv.1, kv.2] := by
  have hcapt : matchCaptures t "^([%S]+)%s+(.-)%s*$" =
      (matchRest blankItems t []).map fun p => texts t p.1 p.2 := matchCaptures_anchored rfl compile_blanks rfl
  have hplus : ∀ (x : Char) (r : Str) (segs : List Seg), matchRest [.single blank .plus, .capOpen, .single .any .minus,
      .capClose, .single blank .star, .atEnd] (x :: r) segs = if isspace x then matchRest trimItems r segs
      else Option.none :=
    fun x r segs => by rw [matchRest]; rfl
  have hword : ∀ x r segs, wordClass.test x = true → matchRest [.single blank .plus, .capOpen, .single .any .minus,
      .capClose, .single blank .star, .atEnd] (x :: r) segs = Option.none := by
    intro x r segs hx
    rw [wordClass_test, Bool.not_eq_true'] at hx
    rw [hplus, if_neg (by rw [hx]; exact Bool.false_ne_true)]
  have hfun : wordClass.test = fun x => !isspace x := funext wordClass_test
  rw [hcapt, blankItems, matchRest_capRun hword, hfun, blankSplit]
  by_cases hne : t.takeWhile (fun x => !isspace x) = []
  · rw [if_pos hne, if_neg fun h => h.1 hne]
    rfl
  · rw [if_neg hne]
    cases hr : t.dropWhile (fun x => !isspace x) with
    | nil =>
      rw [if_neg fun h => h.2 rfl]
      rfl
    | cons x r =>
      have hx : isspace x = true := by
        have hhead := List.head?_dropWhile_not (fun x => !isspace x) t
        rw [hr] at hhead
        simpa using hhead
      have htrim : trim (x :: r) = trim r := by
        rw [trim_eq, trim_eq, List.dropWhile_cons_of_pos hx]
      rw [hplus, if_pos hx, matchRest_trim, if_pos ⟨hne, List.cons_ne_nil x r⟩, htrim]
      exact congrArg some (texts_run_trim (fun x => !isspace x) t r)

/-- **The assignment in a line.** -/
theorem parseAssignment_eq (allowWhitespace : Bool) (t : Str) : parseAssignment allowWhitespace t =
    (equalsSplit t).or (if allowWhitespace then blankSplit t else Option.none) := by
  unfold parseAssignment
  rw [matchCaptures_equals, matchCaptures_blanks]
  cases equalsSplit t with
  | some kv => rfl
  | none => cases blankSplit t <;> cases allowWhitespace <;> rfl

/-! ## Headers -/

/-- A character of the name of a section. -/
def nameClass : Single := .set true [.cls ']']

theorem nameClass_test (x : Char) : nameClass.test x = (x != ']') := by
  have h : nameClass.test x = (((']' == x) || false) != true) := rfl
  have hsymm : (']' == x) = (x == ']') := by rw [Bool.eq_iff_iff, beq_iff_eq, beq_iff_eq, eq_comm]
  rw [h, Bool.or_false, hsymm]
  cases hx : (x == ']') <;> simp [bne, hx]

/-- The name of the section that a text is the header of. -/
def headerName (t : Str) : Option Str :=
  match t with
  | '[' :: u =>
    if u.takeWhile (· != ']') ≠ [] ∧ u.dropWhile (· != ']') = "]".toList then some (u.takeWhile (· != ']'))
      else Option.none
  | _ => Option.none

theorem headerName_of_ne {x : Char} {u : Str} (hx : '[' ≠ x) : headerName (x :: u) = Option.none := by
  unfold headerName
  split
  · next h => exact absurd (List.cons.inj h).1.symm hx
  · rfl

/-- The items of `[^%]]+%]$`. -/
def nameItems : List Pattern.Item := [.single nameClass .plus, .single (.cls ']') .one, .atEnd]

theorem compile_header : compile "%[[^%]]+%]$" = .single (.cls '[') .one :: nameItems := rfl

theorem compile_headerName : compile "%[([^%]]+)%]$" =
    [.single (.cls '[') .one, .capOpen, .single nameClass .plus, .capClose, .single (.cls ']') .one, .atEnd] := rfl

theorem matchRest_bracketEnd (r : Str) (segs : List Seg) : matchRest [.single (.cls ']') .one, .atEnd] r segs =
    if r = "]".toList then some ([], segs) else Option.none := by
  cases r with
  | nil => rfl
  | cons x r =>
    rw [matchRest, matchRest, cls_test_magic (by decide)]
    by_cases hx : x = ']'
    · rw [hx, if_pos (by rfl)]
      by_cases hr : r = []
      · rw [hr]
        rfl
      · rw [if_neg hr, if_neg (by simpa using hr)]
    · rw [if_neg (by simpa using fun h : ']' = x => hx h.symm), if_neg (by simpa using fun h : x = ']' => absurd h hx)]

theorem bracketEnd_none {x : Char} (r : Str) (segs : List Seg) (hx : nameClass.test x = true) :
    matchRest [.single (.cls ']') .one, .atEnd] (x :: r) segs = Option.none := by
  rw [nameClass_test, bne_iff_ne] at hx
  rw [matchRest_bracketEnd, if_neg (show ¬x :: r = "]".toList from fun h => hx (List.cons.inj h).1)]

theorem isHeader_eq (t : Str) : isHeader t = (headerName t).isSome := by
  have hmatch : strMatch t "^%[[^%]]+%]$" = .ok ((matchRest (.single (.cls '[') .one :: nameItems) t []).map fun p =>
      (texts t p.1 p.2).map .str) := strMatch_anchored rfl compile_header rfl t
  have hfun : nameClass.test = (· != ']') := funext nameClass_test
  have hbool : isHeader t = (matchRest (.single (.cls '[') .one :: nameItems) t []).isSome := by
    unfold isHeader isMatch
    rw [hmatch]
    cases matchRest (.single (.cls '[') .one :: nameItems) t [] <;> rfl
  rw [hbool]
  cases t with
  | nil => rfl
  | cons x u =>
    rw [matchRest, cls_test_magic (by decide)]
    by_cases hx : '[' = x
    · subst hx
      rw [if_pos (by rfl), headerName]
      cases u with
      | nil => rfl
      | cons y v =>
        rw [nameItems, matchRest, ← hfun]
        by_cases hy : nameClass.test y = true
        · rw [if_pos hy, longest_eq fun z r hz => bracketEnd_none r [] hz, matchRest_bracketEnd,
            List.takeWhile_cons_of_pos hy, List.dropWhile_cons_of_pos hy]
          split
          · next h =>
            rw [if_pos ⟨List.cons_ne_nil _ _, h⟩]
            rfl
          · next h =>
            rw [if_neg fun h' => h h'.2]
            rfl
        · rw [if_neg hy, List.takeWhile_cons_of_neg hy, if_neg fun h => h.1 rfl]
          rfl
    · rw [if_neg (by simpa using hx), headerName_of_ne hx]
      rfl

theorem firstCapture_header (t : Str) : firstCapture t "^%[([^%]]+)%]$" = headerName t := by
  have hmatch : strMatch t "^%[([^%]]+)%]$" = .ok ((matchRest [.single (.cls '[') .one, .capOpen,
      .single nameClass .plus, .capClose, .single (.cls ']') .one, .atEnd] t []).map fun p =>
      (texts t p.1 p.2).map .str) :=
    strMatch_anchored rfl compile_headerName rfl t
  have hfun : nameClass.test = (· != ']') := funext nameClass_test
  unfold firstCapture
  rw [hmatch]
  cases t with
  | nil => rfl
  | cons x u =>
    rw [matchRest, cls_test_magic (by decide)]
    by_cases hx : '[' = x
    · subst hx
      rw [if_pos (by rfl), headerName, matchRest_capRun fun x r segs hx => bracketEnd_none r segs hx, hfun,
        matchRest_bracketEnd]
      by_cases hne : u.takeWhile (· != ']') = []
      · rw [if_pos hne, if_neg fun h => h.1 hne]
        rfl
      · rw [if_neg hne]
        by_cases hend : u.dropWhile (· != ']') = "]".toList
        · rw [if_pos hend, if_pos ⟨hne, hend⟩]
          simp only [Option.map_some, texts, List.isEmpty_cons, Bool.false_eq_true, if_false, List.map_cons,
            List.map_nil,
            Seg.text, Option.getD_some, take_length_takeWhile]
        · rw [if_neg hend, if_neg fun h => hend h.2]
          rfl
    · rw [if_neg (by simpa using hx), headerName_of_ne hx]
      rfl

/-- **What a line says.** -/
theorem parseLine_eq (opts : Options) (line : Str) : parseLine opts line =
    let t := trim (stripInlineComment line)
    if t = [] ∨ t.head? = some '#' then Option.none
    else match headerName t with
      | some name => some (.header name)
      | Option.none => ((equalsSplit t).or (if opts.allowWhitespaceAssignment then blankSplit t else Option.none)).map
          fun kv => .entry (opts.normalizeKey.getD id kv.1) (normalizeValue opts.lowerValues kv.2) := by
  unfold parseLine
  dsimp only
  generalize trim (stripInlineComment line) = t
  rw [isMatch_hash, isHeader_eq, firstCapture_header, parseAssignment_eq]
  simp only [beq_iff_eq]
  split
  · rfl
  · cases headerName t with
    | some name => rfl
    | none =>
      rw [if_neg (by simp)]
      dsimp only
      cases (equalsSplit t).or (if opts.allowWhitespaceAssignment then blankSplit t else Option.none) <;> rfl

end KeyValueFile
end Seharden
