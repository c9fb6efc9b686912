import Loongshield.Seharden.Sudoers
import Loongshield.Seharden.Trim
import Mathlib.Data.List.Chain

/-!
# A line of a sudoers file

What the patterns of `parsers/sudoers.lua` find, in terms of lists.

- `cutComment`: a line up to the first blanks before a `#`;
- `isOperator`, `isFlagToken`: the two kinds of options;
- `parseDefaultsEntry_eq`: the first word of a line, and the pieces of the rest;
- `active_trim`: blanks around a line do not matter for its active text.
-/

namespace Seharden
namespace Sudoers

open Lua Pattern

/-! ## Comments -/

/-- A line up to the first blanks before a `#`. -/
def cutComment : Str → Str
  | [] => []
  | x :: s => if isspace x = true ∧ ((x :: s).dropWhile isspace).head? = some '#' then [] else x :: cutComment s

/-- The items of `%s+#.*$`. -/
def commentItems : List Pattern.Item := [.single blank .plus, .single (.lit '#') .one, .single .any .star, .atEnd]

theorem compile_comment : compile "%s+#.*$" = commentItems := rfl

theorem matchRest_all (r : Str) (segs : List Seg) : matchRest [.single .any .star, .atEnd] r segs =
    some ([], segs) := by
  rw [matchRest]
  have h : longest Single.any (fun r => matchRest [.atEnd] r segs) (r ++ []) = some ([], segs) :=
    longest_run (by simp) (by rw [matchRest, if_pos rfl]) fun x _ => any_test x
  rwa [List.append_nil] at h

theorem matchRest_hash (r : Str) (segs : List Seg) :
    matchRest [.single (.lit '#') .one, .single .any .star, .atEnd] r segs =
      if r.head? = some '#' then some ([], segs) else none := by
  cases r with
  | nil => rfl
  | cons x r =>
    rw [matchRest, matchRest_all]
    by_cases hx : x = '#'
    · have heq : (Single.lit '#').test x = true := beq_iff_eq.mpr hx.symm
      rw [if_pos heq, if_pos (by rw [hx]; rfl)]
    · have hne : ¬ (Single.lit '#').test x = true := fun h => hx (beq_iff_eq.mp h).symm
      rw [if_neg hne, if_neg (by simpa using hx)]

theorem matchRest_comment (x : Char) (s : Str) : matchRest commentItems (x :: s) [] =
    if isspace x = true ∧ ((x :: s).dropWhile isspace).head? = some '#' then some ([], []) else none := by
  rw [commentItems, matchRest, blank_test]
  by_cases hx : isspace x = true
  · have hend : ∀ y r, blank.test y = true → (if (y :: r).head? = some '#' then some (([] : Str), ([] : List Seg))
      else none) = none := by
      intro y r hy
      refine if_neg fun h => ?_
      rw [List.head?_cons, Option.some.injEq] at h
      rw [h] at hy
      exact absurd hy (by decide)
    rw [if_pos hx, List.dropWhile_cons, if_pos hx]
    simp only [matchRest_hash, hx, true_and]
    exact longest_eq hend s
  · rw [if_neg hx, if_neg fun h => hx h.1]

/-- **A line without its comment.** -/
theorem stripComment_eq (s : Str) : stripComment s = cutComment s := by
  refine substitute_of (by decide) compile_comment rfl rfl rfl (fun x s hnone => ?_) (fun x s r segs hm => ?_) s
  · rw [matchRest_comment] at hnone
    have hcut : ¬(isspace x = true ∧ ((x :: s).dropWhile isspace).head? = some '#') := fun h => by
      rw [if_pos h] at hnone
      cases hnone
    rw [cutComment, if_neg hcut]
  · rw [matchRest_comment] at hm
    by_cases hcut : isspace x = true ∧ ((x :: s).dropWhile isspace).head? = some '#'
    · rw [if_pos hcut] at hm
      obtain rfl : [] = r := (Prod.mk.inj (Option.some.inj hm)).1
      refine ⟨Nat.zero_le _, ?_⟩
      change cutComment (x :: s) = []
      rw [cutComment, if_pos hcut]
    · rw [if_neg hcut] at hm
      cases hm

/-- No blank before a `#`. -/
abbrev NoComment (s : Str) : Prop := s.IsChain fun x y => isspace x = true → y ≠ '#'

theorem cutComment_isPrefix : ∀ s : Str, cutComment s <+: s
  | [] => List.prefix_rfl
  | x :: s => by
    unfold cutComment
    split
    · exact List.nil_prefix
    · exact List.prefix_cons_inj x |>.mpr (cutComment_isPrefix s)

theorem cutComment_noComment : ∀ s : Str, NoComment (cutComment s)
  | [] => .nil
  | x :: s => by
    unfold cutComment
    split
    · exact .nil
    · next hcut =>
      refine List.isChain_cons.mpr ⟨fun y hy hx => ?_, cutComment_noComment s⟩
      rintro rfl
      -- the next character would be the `#` after this blank
      obtain ⟨t, ht⟩ := cutComment_isPrefix s
      have hhead : s.head? = some '#' := by
        rw [← ht, List.head?_append, Option.mem_def.mp hy]
        rfl
      refine hcut ⟨hx, ?_⟩
      rw [List.dropWhile_cons, if_pos hx]
      cases s with
      | nil => cases hhead
      | cons z s =>
        obtain rfl : z = '#' := Option.some.inj hhead
        rfl

theorem noComment_within {s t : Str} (hin : t <:+: s) (h : NoComment s) : NoComment t := by
  obtain ⟨before, after, rfl⟩ := hin
  exact h.left_of_append.right_of_append

theorem noComment_of_not_mem : ∀ {s : Str}, '#' ∉ s → NoComment s
  | [], _ => .nil
  | x :: s, h => by
    have hs := (List.ne_and_not_mem_of_not_mem_cons h).2
    refine List.isChain_cons.mpr ⟨fun y hy _ heq => hs ?_, noComment_of_not_mem hs⟩
    rw [← heq]
    exact List.mem_of_mem_head? hy

theorem cutComment_of_noComment : ∀ {s : Str}, NoComment s → cutComment s = s
  | [], _ => rfl
  | x :: s, h => by
    obtain ⟨hnext, htail⟩ := List.isChain_cons.mp h
    have hrun : ∀ {s : Str}, NoComment s → ∀ {x : Char}, isspace x = true → (∀ y ∈ s.head?, y ≠ '#') →
        (s.dropWhile isspace).head? ≠ some '#' := by
      intro s
      induction s with
      | nil => intro _ x _ _ hnil; cases hnil
      | cons y s ih =>
        intro hs x _ hy
        obtain ⟨hnext, htail⟩ := List.isChain_cons.mp hs
        rw [List.dropWhile_cons]
        split
        · next hblank => exact ih htail hblank fun z hz => hnext z hz hblank
        · exact fun heq => hy y rfl (Option.some.inj heq)
    unfold cutComment
    rw [if_neg, cutComment_of_noComment htail]
    rintro ⟨hx, hhash⟩
    rw [List.dropWhile_cons, if_pos hx] at hhash
    exact hrun htail hx (fun y hy => hnext y hy hx) hhash

/-- Blanks before a line stay, unless a comment follows them. -/
theorem cutComment_blanks_append {u : Str} (hu : ∀ x, u.head? = some x → isspace x = false ∧ x ≠ '#') : ∀ {b : Str},
    (∀ x ∈ b, isspace x = true) → cutComment (b ++ u) = b ++ cutComment u
  | [], _ => rfl
  | x :: b, hb => by
    have hdrop : ((x :: b) ++ u).dropWhile isspace = u := by
      rw [List.dropWhile_append_of_pos hb]
      cases u with
      | nil => rfl
      | cons y u => rw [List.dropWhile_cons, if_neg (by rw [(hu y rfl).1]; exact Bool.false_ne_true)]
    rw [List.cons_append] at hdrop ⊢
    rw [cutComment, hdrop, if_neg fun h => (hu _ h.2).2 rfl,
      cutComment_blanks_append hu fun y hy => hb y (List.mem_cons_of_mem x hy)]
    rfl

theorem dropWhile_append_blanks {b : Str} (hb : ∀ x ∈ b, isspace x = true) (t : Str) :
    ((t ++ b).dropWhile isspace).head? = (t.dropWhile isspace).head? := by
  rw [List.dropWhile_append]
  split
  · next hnil =>
    rw [List.dropWhile_eq_nil_iff.mpr hb, List.isEmpty_iff.mp hnil]
  · next hne =>
    rw [List.head?_append]
    cases h : t.dropWhile isspace with
    | nil => exact absurd (by rw [h]; rfl) hne
    | cons x r => rfl

/-- Blanks after a line stay or go with its comment. -/
theorem cutComment_append_blanks {b : Str} (hb : ∀ x ∈ b, isspace x = true) : ∀ t : Str,
    ∃ b', (∀ x ∈ b', isspace x = true) ∧ cutComment (t ++ b) = cutComment t ++ b'
  | [] => by
    have hcut : NoComment b := noComment_of_not_mem fun hmem => absurd (hb _ hmem) (by decide)
    exact ⟨b, hb, by rw [List.nil_append, cutComment_of_noComment hcut]; rfl⟩
  | x :: t => by
    obtain ⟨b', hb', htail⟩ := cutComment_append_blanks hb t
    have hsame := dropWhile_append_blanks hb (x :: t)
    rw [List.cons_append] at hsame ⊢
    rw [cutComment, cutComment, hsame]
    split
    · exact ⟨[], by simp, rfl⟩
    · exact ⟨b', hb', by rw [htail]; rfl⟩

/-! ## Active texts -/

/-- The active text of a line: what is left of it without its comment. -/
def active (line : Str) : Str := trim (cutComment line)

/-- **Blanks around a line do not matter for its active text.** -/
theorem active_trim {line : Str} (h : (trim line).head? ≠ some '#') : active (trim line) = active line := by
  obtain ⟨b, b', hb, hb', hline⟩ := exists_trim line
  have hhead := @head_trim line
  generalize trim line = t at h hline hhead
  subst hline
  cases t with
  | nil =>
    have hblank : ∀ x ∈ b ++ ([] ++ b'), isspace x = true := by
      intro x hx
      rcases List.mem_append.mp hx with hx | hx
      · exact hb x hx
      · exact hb' x hx
    rw [active, active, cutComment_of_noComment (noComment_of_not_mem fun hmem => absurd (hblank _ hmem) (by decide)),
      ← List.append_nil (b ++ ([] ++ b')), trim_blanks_append hblank]
    rfl
  | cons x t =>
    obtain ⟨b'', hb'', hcut⟩ := cutComment_append_blanks hb' (x :: t)
    have hcut' : cutComment (b ++ (x :: t ++ b')) = b ++ cutComment (x :: t ++ b') := by
      refine cutComment_blanks_append (fun y hy => ?_) hb
      obtain rfl : x = y := Option.some.inj hy
      exact ⟨hhead rfl, fun heq => h (congrArg some heq)⟩
    rw [active, active, hcut', trim_blanks_append hb, hcut, trim_append_blanks hb'']

/-- A line that is a comment has no active text, or one that shows it. -/
theorem active_of_comment {line : Str} (h : (trim line).head? = some '#') :
    active line = [] ∨ (active line).head? = some '#' := by
  obtain ⟨b, b', hb, hb', hline⟩ := exists_trim line
  cases ht : trim line with
  | nil =>
    rw [ht] at h
    cases h
  | cons x t =>
    rw [ht] at h hline
    obtain rfl : x = '#' := Option.some.inj h
    have hhash : isspace '#' = false := by decide
    rw [hline]
    cases b with
    | nil =>
      right
      rw [active, List.nil_append, List.cons_append, cutComment, if_neg fun h => absurd h.1 (by decide)]
      exact head_trim_cons hhash
    | cons y b =>
      left
      have hdrop : ((y :: b) ++ ('#' :: t ++ b')).dropWhile isspace = '#' :: t ++ b' := by
        rw [List.dropWhile_append_of_pos hb]
        rfl
      rw [List.cons_append] at hdrop ⊢
      rw [active, cutComment, hdrop, if_pos ⟨hb y List.mem_cons_self, rfl⟩]
      rfl

/-! ## Options with a value -/

/-- A character of a name: `[%w_]`. -/
def isWord (x : Char) : Bool := isalnum x || x == '_'

/-- `[%w_]`. -/
def word : Single := .set false [.cls 'w', .lit '_']

/-- `[+%-]`. -/
def sign : Single := .set false [.lit '+', .cls '-']

theorem word_test (x : Char) : word.test x = isWord x := by
  have h : word.test x = ((isalnum x || (('_' == x) || false)) != false) := rfl
  rw [h, isWord, Bool.or_false, Bool.bne_false]
  congr 1
  rw [Bool.eq_iff_iff, beq_iff_eq, beq_iff_eq, eq_comm]

/-- The text after an exclamation mark, if there is one. -/
def stripBang : Str → Str
  | '!' :: t => t
  | t => t

theorem stripBang_of_ne {x : Char} {r : Str} (hx : x ≠ '!') : stripBang (x :: r) = x :: r := by
  unfold stripBang
  split
  · next heq => exact absurd (List.cons.inj heq).1 hx
  · rfl

/-- The operator a text begins with, and what follows it. -/
def operatorAt (v : Str) : Option (Str × Str) :=
  if v.head? = some '=' then some (v.take 1, v.tail)
  else if (v.head? = some '+' ∨ v.head? = some '-') ∧ v.tail.head? = some '=' then some (v.take 2, v.tail.tail)
  else none

/-- The name, the operator and the text after the operator of an option with a value. -/
def operatorSplit (t : Str) : Option (Str × Str × Str) :=
  let u := stripBang t
  let v := u.dropWhile isWord
  if u.takeWhile isWord = [] then none
  else (operatorAt (v.dropWhile isspace)).map fun p => (t.take (t.length - v.length), p)

/-- An option with a value. -/
def isOperator (t : Str) : Bool := (operatorSplit t).isSome

/-- The items of `([+%-]?=)%s*(.-)%s*$`. -/
def operatorItems : List Pattern.Item :=
  .capOpen :: .single sign .opt :: .single (.lit '=') .one :: .capClose :: trimItems

/-- The items of `(!?[%w_]+)%s*([+%-]?=)%s*(.-)%s*$`. -/
def optionItems : List Pattern.Item :=
  .capOpen :: .single (.lit '!') .opt :: .single word .plus :: .capClose :: .single blank .star :: operatorItems

theorem compile_option : compile "(!?[%w_]+)%s*([+%-]?=)%s*(.-)%s*$" = optionItems := rfl

theorem lit_test {a x : Char} : (Single.lit a).test x = true ↔ x = a := by
  have h : (Single.lit a).test x = (a == x) := rfl
  rw [h, beq_iff_eq, eq_comm]

theorem sign_test {x : Char} : sign.test x = true ↔ x = '+' ∨ x = '-' := by
  have h : sign.test x = ((('+' == x) || (('-' == x) || false)) != false) := rfl
  rw [h, Bool.or_false, Bool.bne_false, Bool.or_eq_true, beq_iff_eq, beq_iff_eq, @eq_comm _ '+', @eq_comm _ '-']

/-- The equals sign, and the value after it. -/
theorem matchRest_equals (u r : Str) (segs : List Seg) :
    matchRest (.single (.lit '=') .one :: .capClose :: trimItems) r (segs ++ [⟨u, none⟩]) =
      if r.head? = some '=' then some ([], segs ++ [⟨u, some (u.length - r.tail.length)⟩] ++
        [⟨r.tail.dropWhile isspace, some (trim r.tail).length⟩])
      else none := by
  cases r with
  | nil => rfl
  | cons x v =>
    rw [matchRest, List.head?_cons, List.tail_cons]
    by_cases hx : x = '='
    · rw [if_pos (lit_test.mpr hx), if_pos (congrArg some hx), matchRest, closeSeg_concat]
      dsimp only
      rw [matchRest_trim, trim_eq]
    · rw [if_neg fun h => hx (lit_test.mp h), if_neg fun h => hx (Option.some.inj h)]

theorem matchRest_operator (v : Str) (segs : List Seg) : matchRest operatorItems v segs =
    (operatorAt v).map fun p =>
      ([], segs ++ [⟨v, some p.1.length⟩] ++ [⟨p.2.dropWhile isspace, some (trim p.2).length⟩]) := by
  rw [operatorItems, matchRest]
  cases v with
  | nil => rfl
  | cons x v =>
    rw [matchRest]
    simp only [matchRest_equals, operatorAt, List.head?_cons, List.tail_cons, Option.some.injEq]
    by_cases hsign : x = '+' ∨ x = '-'
    · have hne : x ≠ '=' := by
        rcases hsign with rfl | rfl <;> decide
      rw [if_pos (sign_test.mpr hsign), if_neg hne, Option.or_none, if_neg hne]
      simp only [hsign, true_and]
      by_cases heq : v.head? = some '='
      · rw [if_pos heq, if_pos heq]
        obtain ⟨v', rfl⟩ : ∃ v', v = '=' :: v' := by
          cases v with
          | nil => cases heq
          | cons y v' => exact ⟨v', by rw [Option.some.inj heq]⟩
        simp only [List.tail_cons, Option.map_some, List.length_cons, List.length_take]
        have hlen : v'.length + 1 + 1 - v'.length = min 2 (v'.length + 1 + 1) := by omega
        rw [hlen]
      · rw [if_neg heq, if_neg heq]
        rfl
    · rw [if_neg fun h => hsign (sign_test.mp h)]
      simp only [hsign, false_and, if_false]
      by_cases heq : x = '='
      · rw [if_pos heq, if_pos heq]
        simp
      · rw [if_neg heq, if_neg heq]
        rfl

theorem operatorAt_cons_none {x : Char} (r : Str) (h : x ≠ '=' ∧ x ≠ '+' ∧ x ≠ '-') : operatorAt (x :: r) = none := by
  simp [operatorAt, h.1, h.2.1, h.2.2]

theorem not_operator_of_isspace {x : Char} (h : isspace x = true) : x ≠ '=' ∧ x ≠ '+' ∧ x ≠ '-' := by
  refine ⟨?_, ?_, ?_⟩ <;> rintro rfl <;> exact absurd h (by decide)

theorem not_operator_of_isWord {x : Char} (h : isWord x = true) : x ≠ '=' ∧ x ≠ '+' ∧ x ≠ '-' := by
  refine ⟨?_, ?_, ?_⟩ <;> rintro rfl <;> exact absurd h (by decide)

theorem isspace_cases {x : Char} (h : isspace x = true) :
    x ∈ [' ', Char.ofNat 9, Char.ofNat 10, Char.ofNat 11, Char.ofNat 12, Char.ofNat 13] := by
  have hcode : x = ' ' ∨ (9 ≤ x.toNat ∧ x.toNat ≤ 13) := by simpa [isspace] using h
  rcases hcode with rfl | ⟨hlo, hhi⟩
  · simp
  · have hx : x = Char.ofNat x.toNat := (Char.ofNat_toNat x).symm
    generalize x.toNat = n at hx hlo hhi
    subst hx
    obtain rfl | rfl | rfl | rfl | rfl : n = 9 ∨ n = 10 ∨ n = 11 ∨ n = 12 ∨ n = 13 := by omega
    all_goals simp

theorem isspace_of_isWord {x : Char} (h : isWord x = true) : isspace x = false := by
  rw [Bool.eq_false_iff]
  intro hspace
  have hmem := isspace_cases hspace
  simp only [List.mem_cons, List.not_mem_nil, or_false] at hmem
  rcases hmem with rfl | rfl | rfl | rfl | rfl | rfl <;> exact absurd h (by decide)

/-- The blanks after a name, and the operator. -/
theorem matchRest_afterName (r : Str) (segs : List Seg) :
    matchRest (.single blank .star :: operatorItems) r segs = matchRest operatorItems (r.dropWhile isspace) segs := by
  rw [matchRest]
  refine longest_eq (fun x r hx => ?_) r
  rw [matchRest_operator, operatorAt_cons_none r (not_operator_of_isspace hx)]
  rfl

/-- A name, and the operator after it. -/
theorem matchRest_name (t u : Str) :
    matchRest (.single word .plus :: .capClose :: .single blank .star :: operatorItems) u [⟨t, none⟩] =
      if u.takeWhile isWord = [] then none
      else matchRest operatorItems ((u.dropWhile isWord).dropWhile isspace)
        [⟨t, some (t.length - (u.dropWhile isWord).length)⟩] := by
  have htest : word.test = isWord := funext word_test
  have hk : ∀ r, matchRest (.capClose :: .single blank .star :: operatorItems) r [⟨t, none⟩] =
      matchRest operatorItems (r.dropWhile isspace) [⟨t, some (t.length - r.length)⟩] := by
    intro r
    rw [matchRest, show closeSeg r [⟨t, none⟩] = some [⟨t, some (t.length - r.length)⟩] from rfl]
    exact matchRest_afterName r _
  cases u with
  | nil => rfl
  | cons x u =>
    rw [matchRest, htest]
    by_cases hx : isWord x = true
    · rw [if_pos hx, List.takeWhile_cons_of_pos hx, if_neg (List.cons_ne_nil _ _), List.dropWhile_cons, if_pos hx]
      simp only [hk]
      have hend : ∀ y r, word.test y = true →
          matchRest operatorItems ((y :: r).dropWhile isspace) [⟨t, some (t.length - (y :: r).length)⟩] = none := by
        intro y r hy
        rw [word_test] at hy
        have hdrop : (y :: r).dropWhile isspace = y :: r := by
          rw [List.dropWhile_cons, if_neg (by rw [isspace_of_isWord hy]; exact Bool.false_ne_true)]
        rw [hdrop, matchRest_operator, operatorAt_cons_none r (not_operator_of_isWord hy)]
        rfl
      rw [longest_eq hend, htest]
    · rw [if_neg hx, List.takeWhile_cons_of_neg hx, if_pos rfl]

/-- The captures of an option with a value. -/
theorem matchRest_option (t : Str) : matchRest optionItems t [] =
    (operatorSplit t).map fun p => ([], [⟨t, some p.1.length⟩,
      ⟨((stripBang t).dropWhile isWord).dropWhile isspace, some p.2.1.length⟩,
      ⟨p.2.2.dropWhile isspace, some (trim p.2.2).length⟩]) := by
  have hname : ∀ u, u <:+ t → (stripBang t) = u →
      matchRest (.single word .plus :: .capClose :: .single blank .star :: operatorItems) u [⟨t, none⟩] =
        (operatorSplit t).map fun p => ([], [⟨t, some p.1.length⟩,
          ⟨((stripBang t).dropWhile isWord).dropWhile isspace, some p.2.1.length⟩,
          ⟨p.2.2.dropWhile isspace, some (trim p.2.2).length⟩]) := by
    intro u hsuf hu
    rw [matchRest_name, operatorSplit, hu]
    by_cases hnil : u.takeWhile isWord = []
    · rw [if_pos hnil, if_pos hnil]
      rfl
    · rw [if_neg hnil, if_neg hnil, matchRest_operator, Option.map_map]
      congr 1
      funext p
      simp only [Function.comp_apply, List.length_take, Nat.min_eq_left (Nat.sub_le _ _)]
      rfl
  rw [optionItems, matchRest]
  cases t with
  | nil => rfl
  | cons x r =>
    rw [matchRest]
    by_cases hx : x = '!'
    · subst hx
      have hbang : matchRest (.single word .plus :: .capClose :: .single blank .star :: operatorItems) ('!' :: r)
          [⟨'!' :: r, none⟩] = none := by
        rw [matchRest_name, if_pos (by rw [List.takeWhile_cons_of_neg (by decide)])]
      rw [if_pos (lit_test.mpr rfl)]
      rw [List.nil_append, hbang, Option.or_none]
      exact hname r (List.suffix_cons '!' r) rfl
    · rw [if_neg fun h => hx (lit_test.mp h)]
      exact hname (x :: r) List.suffix_rfl (stripBang_of_ne hx)

theorem operatorAt_take {v : Str} {p : Str × Str} (h : operatorAt v = some p) : v = p.1 ++ p.2 ∧ '=' ∈ p.1 := by
  unfold operatorAt at h
  cases v with
  | nil => simp at h
  | cons x v =>
    split at h
    · next hx =>
      obtain rfl := Option.some.inj h
      simpa using (Option.some.inj hx).symm
    · split at h
      · next hx =>
        obtain rfl := Option.some.inj h
        cases v with
        | nil => simp at hx
        | cons y v =>
          obtain rfl : y = '=' := Option.some.inj hx.2
          simp
      · cases h

theorem take_trim (w : Str) : (w.dropWhile isspace).take (trim w).length = trim w := by
  rw [trim_eq]
  exact take_rdropWhile _

/-- **The parts of an option with a value.** -/
theorem matchCaptures_option (t : Str) : matchCaptures t "^(!?[%w_]+)%s*([+%-]?=)%s*(.-)%s*$" =
    (operatorSplit t).map fun p => [p.1, p.2.1, trim p.2.2] := by
  have hcapt : matchCaptures t "^(!?[%w_]+)%s*([+%-]?=)%s*(.-)%s*$" =
      (matchRest optionItems t []).map fun p => texts t p.1 p.2 := matchCaptures_anchored rfl compile_option rfl
  rw [hcapt, matchRest_option, Option.map_map]
  cases hp : operatorSplit t with
  | none => rfl
  | some p =>
    have hsplit := hp
    unfold operatorSplit at hsplit
    dsimp only at hsplit
    split at hsplit
    · cases hsplit
    · obtain ⟨q, hq, rfl⟩ := Option.map_eq_some_iff.mp hsplit
      have htake := (operatorAt_take hq).1
      refine congrArg some ?_
      simp only [Function.comp_apply, texts, List.isEmpty_cons, Bool.false_eq_true, if_false, List.map_cons,
        List.map_nil,
        Seg.text, Option.getD_some, take_trim]
      congr 1
      · rw [List.length_take, Nat.min_eq_left (Nat.sub_le _ _)]
      · congr 1
        rw [htake, List.take_left]

/-! ## Flags -/

/-- A token that is a flag. -/
def isFlagToken (t : Str) : Bool := decide (stripBang t ≠ []) && (stripBang t).all isWord

/-- The items of `(!?)([%w_]+)$`. -/
def flagItems : List Pattern.Item :=
  [.capOpen, .single (.lit '!') .opt, .capClose, .capOpen, .single word .plus, .capClose, .atEnd]

theorem compile_flag : compile "(!?)([%w_]+)$" = flagItems := rfl

/-- `([%w_]+)$`. -/
theorem matchRest_wholeWord (r : Str) (segs : List Seg) :
    matchRest [.capOpen, .single word .plus, .capClose, .atEnd] r segs =
      if r ≠ [] ∧ r.all isWord = true then some ([], segs ++ [⟨r, some r.length⟩]) else none := by
  have htest : word.test = isWord := funext word_test
  rw [matchRest]
  cases r with
  | nil => rfl
  | cons x u =>
    have hk : ∀ r, matchRest [.capClose, .atEnd] r (segs ++ [⟨x :: u, none⟩]) =
        if r = [] then some ([], segs ++ [⟨x :: u, some (x :: u).length⟩]) else none := by
      intro r
      rw [matchRest, closeSeg_concat]
      dsimp only
      rw [matchRest]
      by_cases hr : r = []
      · rw [if_pos hr, if_pos hr, hr]
        rfl
      · rw [if_neg hr, if_neg hr]
    rw [matchRest, htest]
    by_cases hx : isWord x = true
    · rw [if_pos hx]
      simp only [hk]
      rw [longest_eq fun y r _ => if_neg (List.cons_ne_nil y r), htest]
      have hall : u.dropWhile isWord = [] ↔ (x :: u ≠ [] ∧ (x :: u).all isWord = true) := by
        rw [List.dropWhile_eq_nil_iff, List.all_cons, hx, Bool.true_and, List.all_eq_true]
        exact ⟨fun h => ⟨List.cons_ne_nil _ _, h⟩, fun h => h.2⟩
      by_cases h : u.dropWhile isWord = []
      · rw [if_pos h, if_pos (hall.mp h)]
      · rw [if_neg h, if_neg fun h' => h (hall.mpr h')]
    · rw [if_neg hx, if_neg]
      rintro ⟨-, h⟩
      rw [List.all_cons, Bool.and_eq_true] at h
      exact hx h.1

theorem isFlagToken_iff {t : Str} : isFlagToken t = true ↔ stripBang t ≠ [] ∧ (stripBang t).all isWord = true := by
  rw [isFlagToken, Bool.and_eq_true, decide_eq_true_eq]

theorem matchRest_flag (t : Str) : matchRest flagItems t [] =
    if isFlagToken t then some ([], [⟨t, some (t.length - (stripBang t).length)⟩,
      ⟨stripBang t, some (stripBang t).length⟩])
    else none := by
  have hk : ∀ r, matchRest [.capClose, .capOpen, .single word .plus, .capClose, .atEnd] r [⟨t, none⟩] =
      if r ≠ [] ∧ r.all isWord = true then some ([], [⟨t, some (t.length - r.length)⟩, ⟨r, some r.length⟩])
        else none := by
    intro r
    rw [matchRest, show closeSeg r [⟨t, none⟩] = some [⟨t, some (t.length - r.length)⟩] from rfl]
    exact matchRest_wholeWord r _
  simp only [isFlagToken_iff]
  rw [flagItems, matchRest, List.nil_append]
  cases t with
  | nil => rfl
  | cons x r =>
    rw [matchRest]
    simp only [hk]
    by_cases hx : x = '!'
    · subst hx
      have hbang : ¬ ('!' :: r ≠ [] ∧ ('!' :: r).all isWord = true) := by
        rintro ⟨-, h⟩
        rw [List.all_cons, Bool.and_eq_true] at h
        exact absurd h.1 (by decide)
      rw [if_pos (lit_test.mpr rfl), if_neg hbang, Option.or_none]
      rfl
    · rw [if_neg fun h => hx (lit_test.mp h), stripBang_of_ne hx]

/-- **The flags of a line.** -/
theorem flagOption_eq (t : Str) : flagOption t = if isFlagToken t then
    some { name := lower (stripBang t), negated := t.head? = some '!', operator := none, value := none, text := t }
    else none := by
  have hcapt : matchCaptures t "^(!?)([%w_]+)$" = (matchRest flagItems t []).map fun p => texts t p.1 p.2 :=
    matchCaptures_anchored rfl compile_flag rfl
  unfold flagOption
  rw [hcapt, matchRest_flag]
  by_cases hflag : isFlagToken t = true
  · rw [if_pos hflag, if_pos hflag]
    simp only [Option.map_some, texts, List.isEmpty_cons, Bool.false_eq_true, if_false, List.map_cons, List.map_nil,
      Seg.text, Option.getD_some, List.take_length]
    congr 3
    rw [isFlagToken_iff] at hflag
    cases t with
    | nil => exact absurd rfl hflag.1
    | cons x r =>
      by_cases hx : x = '!'
      · subst hx
        have hlen : ('!' :: r).length - (stripBang ('!' :: r)).length = 1 := by
          rw [stripBang, List.length_cons]
          omega
        rw [hlen]
        simp
      · rw [stripBang_of_ne hx, Nat.sub_self]
        simp [hx]
  · rw [if_neg hflag, if_neg hflag]
    rfl

/-- An option with a value, from its parts. -/
def valueOption (t name operator value : Str) : DefaultsOption :=
  { name := lower (if name.head? = some '!' then name.tail else name)
    negated := name.head? = some '!'
    operator := some operator
    value := some (unquoteDefaultsValue value)
    text := t }

/-- **The options of one text**: one with a value, or the flags among its words. -/
theorem defaultsOptions_eq (t : Str) : defaultsOptions t = match operatorSplit t with
    | some (name, operator, value) => [valueOption t name operator (trim value)]
    | none => (words nonBlank t).filterMap flagOption := by
  unfold defaultsOptions
  rw [matchCaptures_option, captures_words]
  cases operatorSplit t <;> rfl

theorem defaultsOptions_operator {t : Str} (h : isOperator t = true) :
    ∃ name operator value, defaultsOptions t = [valueOption t name operator value] := by
  obtain ⟨⟨name, operator, value⟩, hsplit⟩ := Option.isSome_iff_exists.mp h
  exact ⟨name, operator, trim value, by rw [defaultsOptions_eq, hsplit]⟩

theorem defaultsOptions_words {t : Str} (h : isOperator t = false) :
    defaultsOptions t = (words nonBlank t).filterMap flagOption := by
  have hnone : operatorSplit t = none := Option.isNone_iff_eq_none.mp
    (by rw [← Option.not_isSome]; simpa [isOperator] using h)
  rw [defaultsOptions_eq, hnone]

/-! ## The first word -/

/-- The first word of a text, and what follows the blanks after it. -/
def entrySplit (t : Str) : Str × Str :=
  (t.takeWhile fun x => !isspace x, (t.dropWhile fun x => !isspace x).dropWhile isspace)

/-- The items of `(%S+)%s+(.+)$`. -/
def entryItems : List Pattern.Item :=
  [.capOpen, .single nonBlank .plus, .capClose, .single blank .plus, .capOpen, .single .any .plus, .capClose, .atEnd]

theorem compile_entry : compile "(%S+)%s+(.+)$" = entryItems := rfl

theorem head_dropWhile {p : Char → Bool} {s : Str} {x : Char} (h : (s.dropWhile p).head? = some x) : p x = false := by
  have hhead := List.head?_dropWhile_not p s
  rw [h] at hhead
  simpa using hhead

/-- A text that ends with no blank has something after the blanks in it. -/
theorem dropWhile_ne_nil {t m : Str} (ht : Trimmed t) (hm : m <:+ t) (hne : m ≠ []) : m.dropWhile isspace ≠ [] := by
  intro hnil
  obtain ⟨pre, rfl⟩ := hm
  have hlast := ht.2 (m.getLast hne) (by rw [List.getLast?_append_of_ne_nil _ hne, List.getLast?_eq_some_getLast hne])
  have hblank := List.dropWhile_eq_nil_iff.mp hnil _ (List.getLast_mem hne)
  rw [hlast] at hblank
  cases hblank

/-- The blanks after a word, and the rest. -/
theorem matchRest_afterBlanks {t m : Str} (ht : Trimmed t) (hm : m <:+ t) (segs : List Seg) :
    matchRest [.single blank .plus, .capOpen, .single .any .plus, .capClose, .atEnd] m segs =
      if m.head?.any isspace then some ([], segs ++ [⟨m.dropWhile isspace, some (m.dropWhile isspace).length⟩])
      else none := by
  cases m with
  | nil => rfl
  | cons y m =>
    rw [matchRest, blank_test, List.head?_cons, Option.any_some]
    by_cases hy : isspace y = true
    · have hne := dropWhile_ne_nil ht hm (List.cons_ne_nil y m)
      rw [if_pos hy, if_pos hy]
      rw [List.dropWhile_cons, if_pos hy] at hne ⊢
      have hsplit : m.takeWhile isspace ++ m.dropWhile isspace = m := List.takeWhile_append_dropWhile
      conv_lhs => rw [← hsplit]
      exact longest_run (fun x hx => head_dropWhile hx) (matchRest_nonempty _ _ hne) fun x hx =>
        List.mem_takeWhile_imp hx
    · rw [if_neg hy, if_neg hy]

theorem matchRest_afterWord {t m : Str} (ht : Trimmed t) (hm : m <:+ t) :
    matchRest [.capClose, .single blank .plus, .capOpen, .single .any .plus, .capClose, .atEnd] m [⟨t, none⟩] =
      if m.head?.any isspace then some ([], [⟨t, some (t.length - m.length)⟩,
        ⟨m.dropWhile isspace, some (m.dropWhile isspace).length⟩]) else none := by
  rw [matchRest, show closeSeg m [⟨t, none⟩] = some [⟨t, some (t.length - m.length)⟩] from rfl]
  exact matchRest_afterBlanks ht hm _

/-- **The first word of a line and the rest.** -/
theorem matchCaptures_entry {t : Str} (ht : Trimmed t) : matchCaptures t "^(%S+)%s+(.+)$" =
    if (entrySplit t).2 = [] then none else some [(entrySplit t).1, (entrySplit t).2] := by
  have hcapt : matchCaptures t "^(%S+)%s+(.+)$" = (matchRest entryItems t []).map fun p => texts t p.1 p.2 :=
    matchCaptures_anchored rfl compile_entry rfl
  rw [hcapt]
  cases t with
  | nil => rfl
  | cons x u =>
    have hx : nonBlank.test x = true := by rw [nonBlank_test, ht.1 x rfl]; rfl
    have hm : u.dropWhile nonBlank.test <:+ x :: u := (List.dropWhile_suffix _).trans (List.suffix_cons x u)
    have hend : ∀ y r, nonBlank.test y = true → matchRest [.capClose, .single blank .plus, .capOpen,
        .single .any .plus, .capClose, .atEnd] (y :: r) [⟨x :: u, none⟩] = none := by
      intro y r hy
      have hblank : isspace y = false := by simpa using hy
      rw [matchRest, show closeSeg (y :: r) [⟨x :: u, none⟩] = some [⟨x :: u, some _⟩] from rfl]
      dsimp only
      rw [matchRest, blank_test, if_neg (by rw [hblank]; exact Bool.false_ne_true)]
    have hsplit : entrySplit (x :: u) = (x :: u.takeWhile nonBlank.test,
      (u.dropWhile nonBlank.test).dropWhile isspace) := by
      change ((x :: u).takeWhile nonBlank.test, ((x :: u).dropWhile nonBlank.test).dropWhile isspace) = _
      rw [List.takeWhile_cons_of_pos hx, List.dropWhile_cons_of_pos hx]
    rw [entryItems, matchRest, List.nil_append, matchRest, if_pos hx, longest_eq hend, matchRest_afterWord ht hm,
      hsplit]
    dsimp only
    generalize hmdef : u.dropWhile nonBlank.test = m at hm ⊢
    cases m with
    | nil => rfl
    | cons y m =>
      have hy : isspace y = true := by simpa using head_dropWhile (congrArg List.head? hmdef)
      have hne := dropWhile_ne_nil ht hm (List.cons_ne_nil y m)
      have htake : (x :: u).take ((x :: u).length - (y :: m).length) = x :: u.takeWhile nonBlank.test := by
        have happ : x :: u = (x :: u.takeWhile nonBlank.test) ++ (y :: m) := by
          rw [← hmdef, List.cons_append, List.takeWhile_append_dropWhile]
        have hlen := congrArg List.length happ
        rw [List.length_append] at hlen
        rw [hlen, Nat.add_sub_cancel]
        conv_lhs => rw [happ]
        rw [List.take_left]
      rw [List.head?_cons, Option.any_some, if_pos hy, if_neg hne]
      simp only [Option.map_some, texts, List.isEmpty_cons, Bool.false_eq_true, if_false, List.map_cons, List.map_nil,
        Seg.text, Option.getD_some, htake, List.take_length]

/-- **A `Defaults` line**: its first word, and the options in the pieces of the rest. -/
theorem parseDefaultsEntry_eq (line : Str) : parseDefaultsEntry line =
    if (entrySplit (trim line)).2 = [] then none
    else (scopeOf (entrySplit (trim line)).1).map fun scope =>
      { linePrefix := (entrySplit (trim line)).1, scope := scope,
        options := (splitDefaultsOptions (entrySplit (trim line)).2).flatMap defaultsOptions } := by
  unfold parseDefaultsEntry
  rw [matchCaptures_entry (trimmed_trim line)]
  by_cases h : (entrySplit (trim line)).2 = []
  · rw [if_pos h, if_pos h]
  · rw [if_neg h, if_neg h]

end Sudoers
end Seharden
