import Loongshield.Lib.Glob
import Loongshield.Lua.Escape
import Loongshield.Seharden.Text

/-!
# `text.glob_to_pattern`

A glob is translated to a Lua pattern, and names are matched with the pattern.

- `PlainGlob`: the globs that both languages read alike;
- `Means`: what a Lua item takes is what the item of the glob takes; `matchRest_means` is this for whole patterns;
- `compile_globLoop`: the items of the translation;
- `glob_to_pattern_exact`: matching the translated pattern is `fnmatch`.
-/

namespace Seharden

open Lua Pattern Glob

/-! ## Plain globs -/

/-- A bracket expression opens no collating symbol, class or equivalence class. -/
def opensNothing : Str → Bool
  | '[' :: c :: r => c != '.' && c != ':' && c != '=' && opensNothing (c :: r)
  | _ :: r => opensNothing r
  | [] => true

/-- The characters of a bracket expression, and what a Lua set makes of them: there are some, a `^` does not come first,
and there is no `%`. -/
def plainBody (body : Str) : Bool := body != [] && !body.contains '%' && opensNothing body

/-- A bracket expression that is a Lua set. -/
def plainClass : Str → Bool
  | '!' :: body => plainBody body
  | body => plainBody body && body.head? != some '^'

/-- The loop of `PlainGlob`; `fuel` counts the characters. -/
def plainLoop : Nat → Str → Bool
  | 0, _ => true
  | _, [] => true
  | n + 1, '[' :: rest => match rest.span (· ≠ ']') with
    | (cls, _ :: rest') => plainClass cls && plainLoop n rest'
    | (_, []) => plainLoop n rest
  | n + 1, c :: rest => c != '\\' && plainLoop n rest

/-- No backslash, and bracket expressions that are Lua sets. -/
def PlainGlob (glob : Str) : Prop := plainLoop glob.length glob = true

instance (glob : Str) : Decidable (PlainGlob glob) := inferInstanceAs (Decidable (_ = true))

example : PlainGlob "gpg-pubkey-[!a-f0]*.??[x".toList := by decide +kernel

/-! ## Items -/

/-- An item of the pattern takes what the item of the glob takes. -/
inductive Means : Pattern.Item → Glob.Item Char → Prop
  | star : Means (.single .any .star) .star
  | one {c : Single} {test : Char → Bool} (h : ∀ x, c.test x = test x) : Means (.single c .one) (.one test)

/-- The longest text whose continuation matches, where the result does not depend on it. -/
theorem longest_any_const {β : Type} {k : Str → Option β} {b : β} {p : Str → Bool}
    (hk : ∀ r, k r = if p r = true then some b else none) : ∀ s : Str,
    longest .any k s = if s.tails.any p = true then some b else none
  | [] => by
    rw [longest, hk, List.tails, List.any_cons, List.any_nil, Bool.or_false]
  | x :: s => by
    rw [longest, if_pos (by rfl), longest_any_const hk s, hk, List.tails, List.any_cons]
    cases p (x :: s) <;> cases s.tails.any p <;> rfl

/-- **A pattern of such items matches what the glob matches.** -/
theorem matchRest_means {is : List Pattern.Item} {gs : List (Glob.Item Char)} (h : List.Forall₂ Means is gs)
    (segs : List Seg) : ∀ s : Str, matchRest (is ++ [.atEnd]) s segs = if Matches gs s = true then some ([], segs)
      else none := by
  induction h with
  | nil =>
    intro s
    rw [List.nil_append, matchRest, Matches]
    cases s <;> rfl
  | cons hi _ ih =>
    intro s
    cases hi with
    | star =>
      rw [List.cons_append, matchRest, Matches]
      exact longest_any_const ih s
    | @one c test htest =>
      cases s with
      | nil =>
        rw [List.cons_append, matchRest, Matches]
        rfl
      | cons x s =>
        rw [List.cons_append, matchRest, Matches, htest, ih]
        cases test x <;> rfl

theorem simple_means {is : List Pattern.Item} {gs : List (Glob.Item Char)} (h : List.Forall₂ Means is gs) :
    Simple 0 0 (is ++ [.atEnd]) = true := by
  induction h with
  | nil => rfl
  | cons hi _ ih => cases hi <;> exact ih

/-! ## Sets -/

theorem setBody_plain : ∀ {c : Char} {body : Str}, '%' ∉ c :: body → ']' ∉ body → ∀ rest : Str,
    setBody (c :: (body ++ ']' :: rest)) = some (c :: body, rest)
  | c, [], hpercent, _, rest => by
    have hc : c ≠ '%' := fun h => hpercent (h ▸ List.mem_cons_self)
    rw [List.nil_append, setBody]
    · exact fun _ h => absurd h hc
    · exact hc
  | c, d :: body, hpercent, hbracket, rest => by
    have hd : d ≠ ']' := fun h => hbracket (h ▸ List.mem_cons_self)
    have hc : c ≠ '%' := fun h => hpercent (h ▸ List.mem_cons_self)
    have ih := @setBody_plain d body (fun h => hpercent (List.mem_cons_of_mem c h))
      (fun h => hbracket (List.mem_cons_of_mem d h)) rest
    rw [List.cons_append, setBody, ih]
    · rfl
    all_goals grind

/-- The elements of a set are the ranges of the expression. -/
theorem setItems_ranges {body : Str} (h : '%' ∉ body) (x : Char) :
    (setItems body).any (SetItem.test x) = inRanges (ranges body) x := by
  induction body using ranges.induct with
  | case1 a b r ih =>
    have ha : a ≠ '%' := fun heq => h (heq ▸ List.mem_cons_self)
    have ih := ih fun hr => h (List.mem_cons_of_mem _ (List.mem_cons_of_mem _ (List.mem_cons_of_mem _ hr)))
    rw [setItems, ranges, List.any_cons, ih]
    · rfl
    · exact ha
  | case2 c r hne ih =>
    have hc : c ≠ '%' := fun heq => h (heq ▸ List.mem_cons_self)
    have ih := ih fun hr => h (List.mem_cons_of_mem _ hr)
    rw [setItems, ranges, List.any_cons, ih]
    · have hone : SetItem.test x (.lit c) = (decide (c ≤ x) && decide (x ≤ c)) := by
        rw [SetItem.test, Bool.eq_iff_iff, beq_iff_eq, Bool.and_eq_true, decide_eq_true_eq, decide_eq_true_eq]
        exact le_antisymm_iff
      rw [hone]
      rfl
    · exact hne
    · exact fun _ _ heq => absurd heq hc
    · exact hne
  | case3 => rfl

theorem readSet_plain {c : Char} {body : Str} (hc : c ≠ '^') (hpercent : '%' ∉ c :: body) (hbracket : ']' ∉ body)
    (rest : Str) :
    readSet (c :: (body ++ ']' :: rest)) = some (.set false (setItems (c :: body)), rest) := by
  unfold readSet
  split
  next neg r hr =>
    split at hr
    · next heq => exact absurd (List.cons.inj heq).1 hc
    · cases hr
      rw [setBody_plain hpercent hbracket]
      rfl

theorem readSet_negated {c : Char} {body : Str} (hpercent : '%' ∉ c :: body) (hbracket : ']' ∉ body) (rest : Str) :
    readSet ('^' :: c :: (body ++ ']' :: rest)) = some (.set true (setItems (c :: body)), rest) := by
  have hread : readSet ('^' :: c :: (body ++ ']' :: rest)) = (setBody (c :: (body ++ ']' :: rest))).map
      fun b => (.set true (setItems b.1), b.2) := rfl
  rw [hread, setBody_plain hpercent hbracket]
  rfl

theorem readItem_set {r p : Str} {c : Single} (h : readSet r = some (c, p)) (hp : Unquantified p) :
    readItem ('[' :: r) = (.single c .one, some p) := by
  simp only [readItem, h, readQuant_of_unquantified hp]

/-! ## The translation -/

/-- The characters that are escaped. -/
def escapedInGlob : Str := "^$()%.+-/"

/-- The class of these characters, as the translation names them. -/
def escapeClass : Single := .set false (escapedInGlob.map .cls)

theorem readItem_escaped {c : Char} (hc : escapedInGlob.contains c = true) {p : Str} (hp : Unquantified p) :
    readItem ('%' :: c :: p) = (.single (.cls c) .one, some p) := by
  have hmem : c ∈ ['^', '$', '(', ')', '%', '.', '+', '-', '/'] := List.contains_iff_mem.mp hc
  simp only [List.mem_cons, List.not_mem_nil, or_false] at hmem
  have hread : readItem ('%' :: c :: p) = (.single (.cls c) (readQuant p).1, some (readQuant p).2) := by
    rcases hmem with rfl | rfl | rfl | rfl | rfl | rfl | rfl | rfl | rfl <;> rfl
  rw [hread, readQuant_of_unquantified hp]

theorem cls_test_escaped {c : Char} (hc : escapedInGlob.contains c = true) (x : Char) :
    (Single.cls c).test x = (x == c) := by
  have hmem : c ∈ ['^', '$', '(', ')', '%', '.', '+', '-', '/'] := List.contains_iff_mem.mp hc
  simp only [List.mem_cons, List.not_mem_nil, or_false] at hmem
  rcases hmem with rfl | rfl | rfl | rfl | rfl | rfl | rfl | rfl | rfl <;> exact BEq.comm

theorem isMatch_escape (c : Char) : isMatch [c] "[%^%$%(%)%%%.%+%-%/]" = escapedInGlob.contains c := by
  have hpat : compile "[%^%$%(%)%%%.%+%-%/]" = [.single escapeClass .one] := rfl
  have htest : escapeClass.test c = escapedInGlob.contains c := by
    rw [escapeClass, Single.test, Bool.bne_false, List.any_map, Bool.eq_iff_iff, List.any_eq_true,
      List.contains_iff_mem]
    constructor
    · rintro ⟨d, hd, hdc⟩
      have heq := (cls_test_escaped (List.contains_iff_mem.mpr hd) c).symm.trans hdc
      rw [beq_iff_eq.mp heq]
      exact hd
    · intro hc
      exact ⟨c, hc, (cls_test_escaped (List.contains_iff_mem.mpr hc) c).trans (beq_self_eq_true c)⟩
  rw [Bool.eq_iff_iff, isMatch_iff, strMatch_somewhere hpat (by decide), ← htest]
  simp

/-- A character that is left as it is. -/
theorem readItem_literal {c : Char} (hc : escapedInGlob.contains c = false) (hstar : c ≠ '*') (hone : c ≠ '?')
    (hopen : c ≠ '[') {p : Str} (hp : Unquantified p) : readItem (c :: p) = (.single (.lit c) .one, some p) := by
  by_cases hclose : c = ']'
  · have hread : readItem (']' :: p) = (.single (.lit ']') (readQuant p).1, some (readQuant p).2) := rfl
    rw [hclose, hread, readQuant_of_unquantified hp]
  · refine readItem_other (decide_eq_false fun hmem => ?_) hp
    have hmem : c ∈ ['^', '$', '(', ')', '%', '.', '[', ']', '*', '+', '-', '?'] := hmem
    have hnot : c ∉ ['^', '$', '(', ')', '%', '.', '+', '-', '/'] := fun h =>
      absurd ((List.contains_iff_mem.mpr h).symm.trans hc) Bool.true_eq_false.mp
    simp only [List.mem_cons, List.not_mem_nil, or_false] at hmem hnot
    tauto

/-- What is written for the text of a bracket expression. -/
def setText : Str → Str
  | '!' :: body => '^' :: body
  | cls => cls

theorem globLoop_closed (n : Nat) {cls : Str} (hcls : ']' ∉ cls) (rest : Str) :
    globLoop (n + 1) ('[' :: (cls ++ ']' :: rest)) = '[' :: (setText cls ++ ']' :: globLoop n rest) := by
  rw [globLoop.eq_def]
  split
  · next h => exact absurd h (Nat.succ_ne_zero n)
  · next h _ => exact absurd h (List.cons_ne_nil _ _)
  · next h => exact absurd (List.cons.inj h).1 (by decide)
  · next h => exact absurd (List.cons.inj h).1 (by decide)
  · next hn h =>
    obtain rfl := Nat.succ.inj hn
    rw [← (List.cons.inj h).2, span_closed hcls]
    have happend : ∀ t : Str, "[" ++ t ++ "]" ++ globLoop n rest = '[' :: (t ++ ']' :: globLoop n rest) := fun t => by
      rw [List.append_assoc, List.append_assoc]
      rfl
    exact happend _
  · next hopen _ h => exact absurd (List.cons.inj h).1.symm hopen

theorem globLoop_open (n : Nat) {rest : Str} (hrest : ']' ∉ rest) :
    globLoop (n + 1) ('[' :: rest) = '%' :: '[' :: globLoop n rest := by
  rw [globLoop.eq_def]
  split
  · next h => exact absurd h (Nat.succ_ne_zero n)
  · next h _ => exact absurd h (List.cons_ne_nil _ _)
  · next h => exact absurd (List.cons.inj h).1 (by decide)
  · next h => exact absurd (List.cons.inj h).1 (by decide)
  · next hn h =>
    obtain rfl := Nat.succ.inj hn
    rw [← (List.cons.inj h).2, span_open hrest]
    rfl
  · next hopen _ h => exact absurd (List.cons.inj h).1.symm hopen

theorem globLoop_char (n : Nat) {c : Char} (hstar : c ≠ '*') (hone : c ≠ '?') (hopen : c ≠ '[') (rest : Str) :
    globLoop (n + 1) (c :: rest) = if escapedInGlob.contains c then '%' :: c :: globLoop n rest
      else c :: globLoop n rest := by
  rw [globLoop.eq_def]
  split
  · next h => exact absurd h (Nat.succ_ne_zero n)
  · next h _ => exact absurd h (List.cons_ne_nil _ _)
  · next h => exact absurd (List.cons.inj h).1 hstar
  · next h => exact absurd (List.cons.inj h).1 hone
  · next h => exact absurd (List.cons.inj h).1 hopen
  · next hn h =>
    obtain rfl := Nat.succ.inj hn
    obtain ⟨rfl, rfl⟩ := List.cons.inj h
    rw [isMatch_escape]

/-- What a glob begins with. -/
theorem glob_cases (c : Char) (g : Str) : c = '*' ∨ c = '?' ∨
    (c = '[' ∧ ∃ cls rest, g = cls ++ ']' :: rest ∧ ']' ∉ cls) ∨
    (c = '[' ∧ ']' ∉ g) ∨ (c ≠ '*' ∧ c ≠ '?' ∧ c ≠ '[') := by
  by_cases hstar : c = '*'
  · exact .inl hstar
  · by_cases hone : c = '?'
    · exact .inr (.inl hone)
    · by_cases hopen : c = '['
      · by_cases hclosed : ']' ∈ g
        · obtain ⟨cls, rest, hg, hcls⟩ := List.eq_append_cons_of_mem hclosed
          exact .inr (.inr (.inl ⟨hopen, cls, rest, hg, hcls⟩))
        · exact .inr (.inr (.inr (.inl ⟨hopen, hclosed⟩)))
      · exact .inr (.inr (.inr (.inr ⟨hstar, hone, hopen⟩)))

/-- What follows an item of the translation is no quantifier. -/
theorem unquantified_globLoop (n : Nat) (g : Str) : Unquantified (globLoop n g ++ ['$']) := by
  have hfront : ∀ {x : Char} {t : Str}, x ≠ '*' ∧ x ≠ '+' ∧ x ≠ '-' ∧ x ≠ '?' → Unquantified (x :: t) := by
    rintro x t hx y hy
    rw [← Option.some.inj hy]
    exact hx
  cases n with
  | zero => exact hfront (by decide)
  | succ n =>
    cases g with
    | nil => exact hfront (by decide)
    | cons c g =>
      rcases glob_cases c g with rfl | rfl | ⟨rfl, cls, rest, rfl, hcls⟩ | ⟨rfl, hopen⟩ | ⟨hstar, hone, hopen⟩
      · exact hfront (by decide)
      · exact hfront (by decide)
      · rw [globLoop_closed n hcls]
        exact hfront (by decide)
      · rw [globLoop_open n hopen]
        exact hfront (by decide)
      · rw [globLoop_char n hstar hone hopen]
        split
        · exact hfront (by decide)
        · next hc =>
          refine hfront ⟨hstar, ?_, ?_, hone⟩
          · rintro rfl
            exact hc rfl
          · rintro rfl
            exact hc rfl

/-- What becomes of the pattern of an item, and of the others. -/
theorem compile_means {p r : Str} {i : Pattern.Item} {g : Glob.Item Char} {gs : List (Glob.Item Char)}
    (hread : readItem p = (i, some r)) (hne : p ≠ []) (hi : Means i g)
    (hr : ∃ is, compile r = is ++ [.atEnd] ∧ List.Forall₂ Means is gs) :
    ∃ is, compile p = is ++ [.atEnd] ∧ List.Forall₂ Means is (g :: gs) := by
  obtain ⟨is, hcompile, hmeans⟩ := hr
  exact ⟨i :: is, by rw [compile_cons hread hne, hcompile]; rfl, .cons hi hmeans⟩

/-- The parts of a plain expression. -/
theorem plainBody_cons {body : Str} (h : plainBody body = true) : ∃ c r, body = c :: r ∧ '%' ∉ body := by
  simp only [plainBody, Bool.and_eq_true, bne_iff_ne, Bool.not_eq_true', List.contains_eq_mem,
    decide_eq_false_iff_not] at h
  obtain ⟨c, r, rfl⟩ := List.exists_cons_of_ne_nil h.1.1
  exact ⟨c, r, rfl, h.1.2⟩

theorem means_set {neg : Bool} {body : Str} (h : '%' ∉ body) :
    Means (.single (.set neg (setItems body)) .one) (.one fun x => inRanges (ranges body) x != neg) := by
  refine .one fun x => ?_
  rw [Single.test, setItems_ranges h]

/-- **A plain expression is a set.** -/
theorem readItem_class {cls : Str} (h : plainClass cls = true) (hcls : ']' ∉ cls) (rest : Str) {p : Str}
    (hp : Unquantified p) :
    ∃ i g, readItem ('[' :: (setText cls ++ ']' :: p)) = (i, some p) ∧ Means i g ∧
      readBracket (cls ++ ']' :: rest) = some (g, rest) := by
  unfold plainClass at h
  split at h
  · next body =>
    obtain ⟨c, r, rfl, hpercent⟩ := plainBody_cons h
    have hr : ']' ∉ r := fun hmem => hcls (List.mem_cons_of_mem _ (List.mem_cons_of_mem c hmem))
    exact ⟨_, _, readItem_set (readSet_negated hpercent hr p) hp, means_set hpercent, readBracket_negated hr rest⟩
  · next hbang =>
    obtain ⟨hbody, hcaret⟩ := Bool.and_eq_true_iff.mp h
    obtain ⟨c, r, rfl, hpercent⟩ := plainBody_cons hbody
    have hr : ']' ∉ r := fun hmem => hcls (List.mem_cons_of_mem c hmem)
    have hc : c ≠ '!' := fun heq => hbang r (by rw [heq])
    have hc' : c ≠ '^' := by
      rintro rfl
      exact absurd hcaret (by simp)
    have htext : setText (c :: r) = c :: r := by
      unfold setText
      split
      · next heq => exact absurd (List.cons.inj heq).1 hc
      · rfl
    rw [htext]
    exact ⟨_, _, readItem_set (readSet_plain hc' hpercent hr p) hp, means_set hpercent, readBracket_closed hc hr rest⟩

/-- **The items of the translation** are those of the glob. -/
theorem compile_globLoop : ∀ (n : Nat) (g : Str), plainLoop n g = true →
    ∃ is, compile (globLoop n g ++ ['$']) = is ++ [.atEnd] ∧ List.Forall₂ Means is (Glob.readItems n g)
  | 0, _, _ => ⟨[], rfl, .nil⟩
  | n + 1, [], _ => ⟨[], rfl, .nil⟩
  | n + 1, c :: g, h => by
    have hunq := unquantified_globLoop n
    rcases glob_cases c g with rfl | rfl | ⟨rfl, cls, rest, rfl, hcls⟩ | ⟨rfl, hopen⟩ | ⟨hstar, hone, hopen⟩
    · exact compile_means (p := '.' :: '*' :: (globLoop n g ++ ['$'])) rfl (List.cons_ne_nil _ _) .star
        (compile_globLoop n g h)
    · have hread : readItem ('.' :: (globLoop n g ++ ['$'])) = (.single .any .one, some (globLoop n g ++ ['$'])) := by
        have hdot : ∀ p : Str, readItem ('.' :: p) = (.single .any (readQuant p).1, some (readQuant p).2) := fun p =>
          rfl
        rw [hdot, readQuant_of_unquantified (hunq g)]
      exact compile_means hread (List.cons_ne_nil _ _) (.one fun _ => rfl) (compile_globLoop n g h)
    · rw [plainLoop, span_closed hcls] at h
      obtain ⟨hplain, hrest⟩ := Bool.and_eq_true_iff.mp h
      obtain ⟨i, item, hread, hmeans, hbracket⟩ := readItem_class hplain hcls rest (hunq rest)
      rw [globLoop_closed n hcls, Glob.readItems, hbracket]
      have happend : '[' :: (setText cls ++ ']' :: globLoop n rest) ++ ['$'] =
          '[' :: (setText cls ++ ']' :: (globLoop n rest ++ ['$'])) := by
        rw [List.cons_append, List.append_assoc, List.cons_append]
      rw [happend]
      exact compile_means hread (List.cons_ne_nil _ _) hmeans (compile_globLoop n rest hrest)
    · rw [plainLoop, span_open hopen] at h
      rw [globLoop_open n hopen, Glob.readItems, readBracket_open hopen]
      exact compile_means (readItem_magic rfl (hunq g)) (List.cons_ne_nil _ _)
        (.one fun x => cls_test_magic rfl x |>.trans BEq.comm)
        (compile_globLoop n g h)
    · have hplain : plainLoop n g = true := by
        rw [plainLoop] at h
        · exact (Bool.and_eq_true_iff.mp h).2
        · exact hopen
      have hitems : Glob.readItems (n + 1) (c :: g) = .one (· == c) :: Glob.readItems n g := by
        rw [Glob.readItems]
        all_goals assumption
      rw [globLoop_char n hstar hone hopen, hitems]
      split
      · next hc =>
        exact compile_means (readItem_escaped hc (hunq g)) (List.cons_ne_nil _ _) (.one (cls_test_escaped hc))
          (compile_globLoop n g hplain)
      · next hc =>
        exact compile_means (readItem_literal (Bool.eq_false_iff.mpr hc) hstar hone hopen (hunq g))
          (List.cons_ne_nil _ _)
          (.one fun x => BEq.comm) (compile_globLoop n g hplain)

/-- **The translation is exact.** For every plain glob and every name, matching the name with the pattern raises nothing
and succeeds, with the whole name, if and only if the glob matches it. -/
theorem glob_to_pattern_exact {glob : Str} (h : PlainGlob glob) (name : Str) :
    strMatch name (globToPattern glob) = .ok (if fnmatch glob name = true then some [.str name] else none) := by
  obtain ⟨is, hcompile, hmeans⟩ := compile_globLoop glob.length glob h
  have hpat : globToPattern glob = '^' :: (globLoop glob.length glob ++ ['$']) := rfl
  rw [strMatch_anchored hpat hcompile (simple_means hmeans), matchRest_means hmeans]
  unfold fnmatch Glob.read
  split
  · have htexts : texts name [] [] = [name] := by simp [texts]
    rw [Option.map_some, htexts]
    rfl
  · rfl

theorem kernel_core_matches : strMatch "kernel-core" (globToPattern "kernel-[!d]*") =
    .ok (some [.str "kernel-core"]) := by
  have hplain : PlainGlob "kernel-[!d]*".toList := by decide +kernel
  have hmatch : fnmatch "kernel-[!d]*".toList "kernel-core".toList = true := by decide +kernel
  exact (glob_to_pattern_exact hplain _).trans (by rw [if_pos hmatch])

end Seharden
