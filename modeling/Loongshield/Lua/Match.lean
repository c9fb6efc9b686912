import Loongshield.Lua.Pattern

/-!
# What simple patterns match

Positions of the matcher are lengths of prefixes of the text, so the lemmas speak of a text `pre ++ suf` matched from
`pre.length` on.

* `doMatch_lits`, `doMatch_run`: single characters, and a greedy run that takes all it can;
* `strMatch_capture`, `strMatch_capture_none`: a literal prefix, a captured run, and one character at the end;
* `strMatch_lastRun`, `strMatch_beforeLast`: the last run of a class, and what stands before it;
* `gmatch_runs`: the matches of a captured run are the words between the other characters (`words`);
* `gmatch_pieces`: the matches of a lazy capture up to a character are the pieces between its occurrences;
* `strMatch_lacks`, `gsub_lacks`: a pattern whose first character does not occur;
* `strMatch_whole`, `strMatch_somewhere`: a class over the whole text, or somewhere in it.
-/

namespace Lua

open Pattern

namespace Pattern

/-- The set `[^a]`. -/
def allBut (a : Char) : Single := .set true [.lit a]

@[simp] theorem allBut_test {a x : Char} : (allBut a).test x = true ↔ x ≠ a := by
  simp only [allBut, Single.test, List.any_cons, SetItem.test, List.any_nil, Bool.or_false, bne_iff_ne, ne_eq,
    beq_iff_eq]
  exact not_congr eq_comm

@[simp] theorem allBut_test_eq_false {a x : Char} : (allBut a).test x = false ↔ x = a := by
  rw [← Bool.not_eq_true, allBut_test, not_not]

/-- A greedy repetition gives back what it took until its continuation succeeds. -/
theorem maxExpand_back {k : Nat → Res} {s j : Nat} {r : Res} (h : k (s + j) = r) (hr : r ≠ .ok none) : ∀ {n : Nat},
    j ≤ n → (∀ m, j < m → m ≤ n → k (s + m) = .ok none) → maxExpand k s n = r
  | 0, hj, _ => by
    rw [Nat.le_zero.mp hj] at h
    exact h
  | n + 1, hj, hfail => by
    unfold maxExpand
    by_cases hn : j = n + 1
    · rw [← hn, h]
      split
      · exact absurd rfl hr
      · rfl
    · rw [hfail (n + 1) (by omega) (Nat.le_refl _)]
      exact maxExpand_back h hr (by omega) fun m hm hmn => hfail m hm (by omega)

/-- A greedy repetition whose continuation fails everywhere. -/
theorem maxExpand_none {k : Nat → Res} {s : Nat} : ∀ {n : Nat}, (∀ m, m ≤ n → k (s + m) = .ok none) →
    maxExpand k s n = .ok none
  | 0, h => h 0 (Nat.le_refl 0)
  | n + 1, h => by
    unfold maxExpand
    rw [h (n + 1) (Nat.le_refl _)]
    exact maxExpand_none fun m hm => h m (by omega)

theorem runLength_append (pre suf : Str) (c : Single) :
    runLength (pre ++ suf) c pre.length = (suf.takeWhile c.test).length := by
  simp [runLength]

/-- A lazy repetition takes more until its continuation succeeds. -/
theorem minExpand_first {k : Nat → Res} {r : Res} (hr : r ≠ .ok none) : ∀ {n j s : Nat}, j ≤ n → k (s + j) = r →
    (∀ m, m < j → k (s + m) = .ok none) → minExpand k s n = r
  | 0, j, s, hj, h, _ => by
    rw [Nat.le_zero.mp hj] at h
    exact h
  | n + 1, 0, s, _, h, _ => by
    unfold minExpand
    rw [show k s = r from h]
    split
    · exact absurd rfl hr
    · rfl
  | n + 1, j + 1, s, hj, h, hfail => by
    unfold minExpand
    rw [show k s = .ok none from hfail 0 (by omega)]
    refine minExpand_first hr (Nat.le_of_succ_le_succ hj) ?_ fun m hm => ?_
    · rw [← h, Nat.add_assoc, Nat.add_comm 1 j]
    · rw [← hfail (m + 1) (by omega), Nat.add_assoc, Nat.add_comm 1 m]

/-- A run ends at a character outside the class. -/
theorem takeWhile_length_le {c : Single} {x : Char} (b a : Str) (hx : c.test x = false) :
    ((a ++ x :: b).takeWhile c.test).length ≤ a.length := by
  rw [List.takeWhile_append]
  split
  · rw [List.takeWhile_cons_of_neg (by simp [hx]), List.append_nil]
  · exact (List.takeWhile_prefix _).length_le

theorem doMatch_single_one (src : Str) (c : Single) (is : List Item) (s : Nat) (caps : Caps) :
    doMatch src (.single c .one :: is) s caps =
      if 0 < runLength src c s then doMatch src is (s + 1) caps else .ok none := rfl

theorem doMatch_single_plus (src : Str) (c : Single) (is : List Item) (s : Nat) (caps : Caps) :
    doMatch src (.single c .plus :: is) s caps =
      match runLength src c s with
      | 0 => .ok none
      | n + 1 => maxExpand (fun s => doMatch src is s caps) (s + 1) n := rfl

theorem doMatch_single_star (src : Str) (c : Single) (is : List Item) (s : Nat) (caps : Caps) :
    doMatch src (.single c .star :: is) s caps = maxExpand (fun s => doMatch src is s caps) s (runLength src c s) := rfl

theorem doMatch_single_minus (src : Str) (c : Single) (is : List Item) (s : Nat) (caps : Caps) :
    doMatch src (.single c .minus :: is) s caps = minExpand (fun s => doMatch src is s caps) s (runLength src c s) :=
      rfl

theorem doMatch_one (pre suf : Str) {x : Char} {c : Single} {is : List Item} {caps : Caps} (hx : c.test x = true) :
    doMatch (pre ++ x :: suf) (.single c .one :: is) pre.length caps =
      doMatch (pre ++ x :: suf) is (pre.length + 1) caps := by
  rw [doMatch_single_one, runLength_append, List.takeWhile_cons_of_pos hx, if_pos (by simp)]

/-- A single character that is not there. -/
theorem doMatch_one_none {pre suf : Str} {c : Single} {is : List Item} {caps : Caps}
    (hx : ∀ x, suf.head? = some x → c.test x = false) :
    doMatch (pre ++ suf) (.single c .one :: is) pre.length caps = .ok none := by
  have hrun : suf.takeWhile c.test = [] := by
    cases suf with
    | nil => rfl
    | cons x suf => exact List.takeWhile_cons_of_neg (by simp [hx x rfl])
  rw [doMatch_single_one, runLength_append, hrun]
  rfl

/-- Literal characters, one after the other. -/
theorem doMatch_lits {is : List Item} {caps : Caps} : ∀ {cs : List Single} {xs : Str} (pre suf : Str),
    List.Forall₂ (fun c x => c.test x = true) cs xs →
      doMatch (pre ++ (xs ++ suf)) (cs.map (.single · .one) ++ is) pre.length caps =
        doMatch (pre ++ (xs ++ suf)) is (pre.length + xs.length) caps
  | [], [], pre, suf, _ => rfl
  | c :: cs, x :: xs, pre, suf, .cons hx hxs => by
    have ih : doMatch (pre ++ [x] ++ (xs ++ suf)) (cs.map (.single · .one) ++ is) (pre ++ [x]).length caps =
        doMatch (pre ++ [x] ++ (xs ++ suf)) is ((pre ++ [x]).length + xs.length) caps :=
      doMatch_lits (pre ++ [x]) suf hxs
    rw [List.map_cons, List.cons_append, List.cons_append, doMatch_one pre _ hx]
    simp only [List.append_assoc, List.singleton_append, List.length_append, List.length_singleton] at ih
    rw [ih, List.length_cons]
    congr 1
    omega

/-- Literal characters at the front of a text. -/
theorem doMatch_lits_start {cs : List Single} {xs suf : Str} {is : List Item} {caps : Caps}
    (hxs : List.Forall₂ (fun c x => c.test x = true) cs xs) :
    doMatch (xs ++ suf) (cs.map (.single · .one) ++ is) 0 caps = doMatch (xs ++ suf) is xs.length caps := by
  have h : doMatch ([] ++ (xs ++ suf)) (cs.map (.single · .one) ++ is) ([] : Str).length caps =
      doMatch ([] ++ (xs ++ suf)) is (([] : Str).length + xs.length) caps := doMatch_lits [] suf hxs
  rwa [List.nil_append, List.length_nil, Nat.zero_add] at h

/-- A greedy run up to a character outside the class, if the rest of the pattern can go on there. -/
theorem doMatch_run {pre run rest : Str} {c : Single} {is : List Item} {caps : Caps} {r : Res} (hne : run ≠ [])
    (hrun : ∀ x ∈ run, c.test x = true) (hrest : ∀ x, rest.head? = some x → c.test x = false)
    (hr : doMatch (pre ++ (run ++ rest)) is (pre.length + run.length) caps = r) (hsome : r ≠ .ok none) :
    doMatch (pre ++ (run ++ rest)) (.single c .plus :: is) pre.length caps = r := by
  have htake : (run ++ rest).takeWhile c.test = run := by
    rw [List.takeWhile_append_of_pos hrun]
    cases rest with
    | nil => simp
    | cons x rest => rw [List.takeWhile_cons_of_neg (by simp [hrest x rfl]), List.append_nil]
  cases run with
  | nil => exact absurd rfl hne
  | cons x run =>
    rw [doMatch_single_plus, runLength_append, htake]
    refine maxExpand_back ?_ hsome (Nat.le_refl _) fun m hm hmn => absurd hm (by omega)
    rw [← hr, List.length_cons]
    congr 1
    omega

end Pattern

/-- The text of a capture. -/
theorem capValues_closed (pre run rest : Str) (s e : Nat) :
    capValues (pre ++ (run ++ rest)) s e [.closed pre.length run.length] = .ok [.str run] := by
  simp [capValues, pure, Except.pure, bind, Except.bind]

/-! ## A captured run between literals -/

/-- **A literal prefix, a captured run and one last character.** -/
theorem strMatch_capture {pat : Str} {cs : List Single} {c d : Single} {xs p : Str} {y : Char}
    (hpat : compile pat = cs.map (.single · .one) ++
      [.capOpen, .single c .plus, .capClose, .single d .one, .atEnd])
    (hxs : List.Forall₂ (fun c x => c.test x = true) cs xs) (hp : p ≠ []) (hrun : ∀ x ∈ p, c.test x = true)
    (hy : c.test y = false) (hd : d.test y = true) : strMatch (xs ++ (p ++ [y])) ('^' :: pat) =
      .ok (some [.str p]) := by
  have hend : doMatch (xs ++ (p ++ [y])) [.single d .one, .atEnd] (xs.length + p.length) [.closed xs.length p.length] =
      .ok (some (xs.length + p.length + 1, [.closed xs.length p.length])) := by
    have hone : doMatch (xs ++ p ++ [y]) [.single d .one, .atEnd] (xs ++ p).length [.closed xs.length p.length] =
        doMatch (xs ++ p ++ [y]) [.atEnd] ((xs ++ p).length + 1) [.closed xs.length p.length] :=
      doMatch_one (xs ++ p) [] hd
    rw [List.append_assoc, List.length_append] at hone
    rw [hone, doMatch, if_pos (by simp [Nat.add_assoc])]
  have hmatch : doMatch (xs ++ (p ++ [y])) (compile pat) 0 [] =
      .ok (some (xs.length + p.length + 1, [.closed xs.length p.length])) := by
    rw [hpat, doMatch_lits_start hxs, doMatch, if_neg (by simp)]
    refine doMatch_run hp hrun (by simpa using hy) ?_ (by simp)
    rw [doMatch]
    simp only [List.nil_append, closeLast, Nat.add_sub_cancel_left]
    exact hend
  unfold strMatch
  simp only [search, hmatch, bind, Except.bind, capValues_closed]
  rfl

/-- The run has to reach the last character. -/
theorem strMatch_capture_none {pat : Str} {cs : List Single} {c d : Single} {xs p : Str} {x y : Char}
    (hpat : compile pat = cs.map (.single · .one) ++
      [.capOpen, .single c .plus, .capClose, .single d .one, .atEnd])
    (hxs : List.Forall₂ (fun c x => c.test x = true) cs xs) (hx : x ∈ p) (hcx : c.test x = false) :
    strMatch (xs ++ (p ++ [y])) ('^' :: pat) = .ok none := by
  have hshort : ((p ++ [y]).takeWhile c.test).length < p.length := by
    obtain ⟨a, b, rfl⟩ := List.append_of_mem hx
    have hle := takeWhile_length_le (b ++ [y]) a hcx
    simp only [List.append_assoc, List.cons_append, List.length_append, List.length_cons] at hle ⊢
    omega
  have hmatch : doMatch (xs ++ (p ++ [y])) (compile pat) 0 [] = .ok none := by
    rw [hpat, doMatch_lits_start hxs, doMatch, if_neg (by simp), doMatch_single_plus, runLength_append]
    split
    · rfl
    · next n hn =>
      refine maxExpand_none fun m hm => ?_
      -- the end of the pattern is tried before the end of the text
      rw [doMatch]
      simp only [List.nil_append, closeLast]
      rw [doMatch_single_one]
      split
      · rw [doMatch, if_neg]
        simp only [List.length_append, List.length_singleton]
        omega
      · rfl
  unfold strMatch
  simp only [search, hmatch, bind, Except.bind]
  rfl

/-! ## A captured run at the end -/

section LastRun

variable {c : Single} {pat : Str}

theorem search_of_none {src : Str} {is : List Item} {s : Nat} (h : doMatch src is s [] = .ok none) (fuel : Nat) :
    search src is (fuel + 1) s = search src is fuel (s + 1) := by
  rw [search, h]

theorem search_of_some {src : Str} {is : List Item} {s e : Nat} {caps : Caps}
    (h : doMatch src is s [] = .ok (some (e, caps))) (fuel : Nat) :
    search src is fuel s = .ok (some (s, e, caps)) := by
  unfold search
  rw [h]

/-- Positions without a match are passed over. -/
theorem search_skip {src : Str} {is : List Item} : ∀ {j fuel s : Nat}, j ≤ fuel →
    (∀ m, m < j → doMatch src is (s + m) [] = .ok none) → search src is fuel s = search src is (fuel - j) (s + j)
  | 0, _, _, _, _ => rfl
  | j + 1, 0, _, hj, _ => absurd hj (by omega)
  | j + 1, fuel + 1, s, hj, hnone => by
    have hrest : ∀ m, m < j → doMatch src is (s + 1 + m) [] = .ok none := by
      intro m hm
      rw [Nat.add_assoc, Nat.add_comm 1 m]
      exact hnone (m + 1) (by omega)
    have hfirst : doMatch src is s [] = .ok none := hnone 0 (by omega)
    rw [search_of_none hfirst, search_skip (by omega) hrest, Nat.add_sub_add_right, Nat.add_assoc, Nat.add_comm 1 j]

/-- A run that begins before a character outside the class does not reach the end. -/
theorem doMatch_lastRun_none {pre rest : Str} {x : Char} {s : Nat} (hx : c.test x = false) (hs : s ≤ pre.length) :
    doMatch (pre ++ x :: rest) [.capOpen, .single c .plus, .capClose, .atEnd] s [] = .ok none := by
  have hrun : runLength (pre ++ x :: rest) c s ≤ pre.length - s := by
    unfold runLength
    rw [List.drop_append_of_le_length hs, ← List.length_drop]
    exact takeWhile_length_le rest (pre.drop s) hx
  rw [doMatch, if_neg (by simp), doMatch_single_plus]
  split
  · rfl
  · next n hn =>
    refine maxExpand_none fun m hm => ?_
    rw [doMatch]
    simp only [List.nil_append, closeLast]
    rw [doMatch, if_neg]
    simp only [List.length_append, List.length_cons]
    omega

theorem doMatch_lastRun {pre run : Str} (hne : run ≠ []) (hrun : ∀ x ∈ run, c.test x = true) :
    doMatch (pre ++ run) [.capOpen, .single c .plus, .capClose, .atEnd] pre.length [] =
      .ok (some (pre.length + run.length, [.closed pre.length run.length])) := by
  rw [doMatch, if_neg (by simp)]
  have h : doMatch (pre ++ (run ++ [])) (.single c .plus :: [.capClose, .atEnd]) pre.length [.opened pre.length] =
      .ok (some (pre.length + run.length, [.closed pre.length run.length])) := by
    refine doMatch_run hne hrun (by simp) ?_ (by simp)
    rw [doMatch]
    simp only [closeLast, Nat.add_sub_cancel_left]
    rw [doMatch, if_pos (by simp)]
  rwa [List.append_nil] at h

/-- **The last run of a class** is the first match, if no match begins earlier. -/
theorem strMatch_lastRun (hpat : compile pat = [.capOpen, .single c .plus, .capClose, .atEnd])
    (hanchor : pat.head? ≠ some '^') {pre run : Str} (hne : run ≠ []) (hrun : ∀ x ∈ run, c.test x = true)
    (hpre : ∀ m, m < pre.length →
      doMatch (pre ++ run) [.capOpen, .single c .plus, .capClose, .atEnd] m [] = .ok none) :
    strMatch (pre ++ run) pat = .ok (some [.str run]) := by
  have hfound : search (pre ++ run) (compile pat) (pre ++ run).length 0 =
      .ok (some (pre.length, pre.length + run.length, [.closed pre.length run.length])) := by
    rw [hpat, @search_skip _ _ pre.length _ 0 (by simp) fun m hm => by rw [Nat.zero_add]; exact hpre m hm, Nat.zero_add]
    exact search_of_some (doMatch_lastRun hne hrun) _
  have hvals : capValues (pre ++ run) pre.length (pre.length + run.length) [.closed pre.length run.length] =
      .ok [.str run] := by
    have h := capValues_closed pre run [] pre.length (pre.length + run.length)
    rwa [List.append_nil] at h
  unfold strMatch
  split
  · exact absurd rfl hanchor
  · simp only [hfound, bind, Except.bind, hvals]
    rfl

/-- There is none if the text ends outside the class. -/
theorem strMatch_lastRun_none (hpat : compile pat = [.capOpen, .single c .plus, .capClose, .atEnd])
    (hanchor : pat.head? ≠ some '^') {pre : Str} {x : Char} (hx : c.test x = false) :
    strMatch (pre ++ [x]) pat = .ok none := by
  have hend : doMatch (pre ++ [x]) [.capOpen, .single c .plus, .capClose, .atEnd] (pre.length + 1) [] = .ok none := by
    have h : runLength (pre ++ [x]) c (pre.length + 1) = 0 := by simp [runLength]
    rw [doMatch, if_neg (by simp), doMatch_single_plus, h]
  have hfound : search (pre ++ [x]) (compile pat) (pre ++ [x]).length 0 = .ok none := by
    rw [hpat, @search_skip _ _ (pre.length + 1) _ 0 (by simp) fun m hm => by
      rw [Nat.zero_add]; exact doMatch_lastRun_none hx (by omega), Nat.zero_add]
    simp only [List.length_append, List.length_singleton, Nat.sub_self]
    rw [search, hend]
  unfold strMatch
  split
  · exact absurd rfl hanchor
  · simp only [hfound, bind, Except.bind]
    rfl

/-- **Everything before the last separator**: `^(.*)/[^/]+$` and its like. -/
theorem strMatch_beforeLast {d : Single} (hpat : compile pat =
      [.capOpen, .single .any .star, .capClose, .single d .one, .single c .plus, .atEnd])
    {pre run : Str} {x : Char} (hx : d.test x = true) (hne : run ≠ []) (hrun : ∀ y ∈ run, c.test y = true)
    (hd : ∀ y ∈ run, d.test y = false) : strMatch (pre ++ x :: run) ('^' :: pat) = .ok (some [.str pre]) := by
  have hany : runLength (pre ++ x :: run) .any 0 = (pre ++ x :: run).length := by
    have h := @List.takeWhile_append_of_pos _ Single.any.test (pre ++ x :: run) [] fun _ _ => rfl
    rw [List.append_nil, List.takeWhile_nil, List.append_nil] at h
    rw [runLength, List.drop_zero, h]
  have hend : doMatch (pre ++ x :: run) [.single d .one, .single c .plus, .atEnd] pre.length [.closed 0 pre.length] =
      .ok (some ((pre ++ x :: run).length, [.closed 0 pre.length])) := by
    have h : doMatch (pre ++ [x] ++ (run ++ [])) (.single c .plus :: [.atEnd]) (pre ++ [x]).length
        [.closed 0 pre.length] = .ok (some ((pre ++ x :: run).length, [.closed 0 pre.length])) := by
      refine doMatch_run hne hrun (by simp) ?_ (by simp)
      have hlen : (pre ++ [x]).length + run.length = (pre ++ x :: run).length := by
        simp only [List.length_append, List.length_cons, List.length_nil]
        omega
      rw [doMatch, hlen, if_pos (by simp)]
    rw [doMatch_one pre run hx]
    simpa using h
  have hmatch : doMatch (pre ++ x :: run) (compile pat) 0 [] =
      .ok (some ((pre ++ x :: run).length, [.closed 0 pre.length])) := by
    rw [hpat, doMatch, if_neg (by simp), doMatch_single_star, hany]
    refine @maxExpand_back _ 0 pre.length _ ?_ (by simp) _ (by simp) fun m hm hmn => ?_
    · rw [doMatch, Nat.zero_add]
      exact hend
    · -- behind the separator there is no other one
      have hsplit : (pre ++ x :: run).take m ++ (pre ++ x :: run).drop m = pre ++ x :: run := List.take_append_drop _ _
      have hlen : ((pre ++ x :: run).take m).length = m := List.length_take_of_le hmn
      have hnone : doMatch ((pre ++ x :: run).take m ++ (pre ++ x :: run).drop m)
          [.single d .one, .single c .plus, .atEnd] ((pre ++ x :: run).take m).length [.closed 0 m] = .ok none := by
        refine doMatch_one_none fun y hy => hd y ?_
        have hdrop : (pre ++ x :: run).drop m = run.drop (m - pre.length - 1) := by
          rw [List.drop_append, List.drop_eq_nil_of_le (by omega), List.nil_append,
            show m - pre.length = (m - pre.length - 1) + 1 by omega, List.drop_succ_cons, Nat.add_sub_cancel]
        rw [hdrop] at hy
        exact List.mem_of_mem_drop (List.mem_of_mem_head? hy)
      rw [hsplit, hlen] at hnone
      rw [doMatch, Nat.zero_add]
      exact hnone
  have hvals : capValues (pre ++ x :: run) 0 (pre ++ x :: run).length [.closed 0 pre.length] = .ok [.str pre] :=
    capValues_closed [] pre (x :: run) 0 _
  unfold strMatch
  simp only [search, hmatch, bind, Except.bind, hvals]
  rfl

end LastRun

/-! ## All runs -/

/-- The words between the characters outside a class. -/
def words (c : Single) (s : Str) : List Str := (s.splitOnP fun x => !c.test x).filter fun w => !w.isEmpty

theorem words_cons_of_neg {c : Single} {x : Char} (s : Str) (hx : c.test x = false) : words c (x :: s) = words c s := by
  rw [words, List.splitOnP_cons_eq_if_modifyHead, if_pos (by simp [hx])]
  simp [words]

/-- The words are made of the class. -/
theorem mem_words {c : Single} {s w : Str} (hw : w ∈ words c s) : ∀ x ∈ w, c.test x = true := by
  have hsplit : ∀ {s : Str}, ∀ w ∈ s.splitOnP fun x => !c.test x, ∀ x ∈ w, c.test x = true := by
    intro s
    induction s with
    | nil => simp
    | cons y s ih =>
      rw [List.splitOnP_cons_eq_if_modifyHead]
      cases hy : c.test y with
      | false => simpa using ih
      | true =>
        obtain ⟨v, vs, hvs⟩ := List.exists_cons_of_ne_nil (List.splitOnP_ne_nil (fun x => !c.test x) s)
        rw [hvs] at ih ⊢
        simp only [Bool.not_true, Bool.false_eq_true, ↓reduceIte, List.modifyHead_cons]
        intro w hw x hx
        rcases List.mem_cons.mp hw with rfl | hw
        · rcases List.mem_cons.mp hx with rfl | hx
          · exact hy
          · exact ih v List.mem_cons_self x hx
        · exact ih w (List.mem_cons_of_mem v hw) x hx
  exact hsplit w (List.mem_filter.mp hw).1

/-- A run up to a character outside the class is the first word. -/
theorem words_append {c : Single} {run rest : Str} (hne : run ≠ []) (hrun : ∀ x ∈ run, c.test x = true)
    (hrest : ∀ x, rest.head? = some x → c.test x = false) : words c (run ++ rest) = run :: words c rest := by
  have hin : ∀ x ∈ run, (!c.test x) = false := fun x hx => by simp [hrun x hx]
  have hempty : run.isEmpty = false := by simpa using hne
  cases rest with
  | nil =>
    rw [List.append_nil, words, List.splitOnP_eq_singleton hin]
    simp [hempty, words]
  | cons y rest =>
    have hy := hrest y rfl
    rw [words_cons_of_neg rest hy, words, List.splitOnP_append_cons_of_forall_mem hin y (by simp [hy])]
    simp [hempty, words]

theorem gmatchFrom_runs (c : Single) : ∀ (fuel : Nat) (pre suf : Str), suf.length < fuel →
    gmatchFrom (pre ++ suf) [.capOpen, .single c .plus, .capClose] fuel pre.length =
      .ok ((words c suf).map fun w => [.str w])
  | fuel + 1, pre, [], _ => by
    have hnone : doMatch (pre ++ []) [.capOpen, .single c .plus, .capClose] pre.length [] = .ok none := by
      rw [doMatch, if_neg (by simp), doMatch_single_plus, runLength_append]
      rfl
    unfold gmatchFrom
    rw [if_neg (by simp), hnone]
    cases fuel with
    | zero => rfl
    | succ fuel =>
      simp only [bind, Except.bind, gmatchFrom]
      rw [if_pos (by simp)]
      rfl
  | fuel + 1, pre, x :: suf, hf => by
    unfold gmatchFrom
    rw [if_neg (by simp)]
    cases hx : c.test x with
    | false =>
      have hnone : doMatch (pre ++ x :: suf) [.capOpen, .single c .plus, .capClose] pre.length [] = .ok none := by
        rw [doMatch, if_neg (by simp), doMatch_single_plus, runLength_append,
          List.takeWhile_cons_of_neg (by simp [hx])]
        rfl
      have ih := gmatchFrom_runs c fuel (pre ++ [x]) suf (by simpa using hf)
      rw [List.append_assoc, List.length_append] at ih
      rw [hnone, words_cons_of_neg suf hx]
      exact ih
    | true =>
      -- the run that begins here, and what follows it
      obtain ⟨run, rest, hsplit, hne, hrun, hrest⟩ : ∃ run rest, x :: suf = run ++ rest ∧ run ≠ [] ∧
          (∀ x ∈ run, c.test x = true) ∧ ∀ x, rest.head? = some x → c.test x = false := by
        refine ⟨(x :: suf).takeWhile c.test, (x :: suf).dropWhile c.test, List.takeWhile_append_dropWhile.symm,
          by simp [hx], fun y hy => List.all_eq_true.mp List.all_takeWhile y hy, fun y hy => ?_⟩
        have := List.head?_dropWhile_not c.test (x :: suf)
        rw [hy] at this
        simpa using this
      have hmatch : doMatch (pre ++ (run ++ rest)) [.capOpen, .single c .plus, .capClose] pre.length [] =
          .ok (some (pre.length + run.length, [.closed pre.length run.length])) := by
        rw [doMatch, if_neg (by simp)]
        refine doMatch_run hne hrun hrest ?_ (by simp)
        simp [doMatch, closeLast]
      have hlen : 0 < run.length := List.length_pos_iff.mpr hne
      have hfuel : rest.length < fuel := by
        have := congrArg List.length hsplit
        simp only [List.length_cons, List.length_append] at this hf
        omega
      have ih := gmatchFrom_runs c fuel (pre ++ run) rest hfuel
      rw [List.append_assoc, List.length_append] at ih
      rw [hsplit, hmatch, words_append hne hrun hrest]
      simp only [bind, Except.bind, capValues_closed]
      rw [if_neg (by omega), ih]
      rfl

/-- **The matches of a captured run.** -/
theorem gmatch_runs {pat : Str} {c : Single} (hpat : compile pat = [.capOpen, .single c .plus, .capClose]) (s : Str) :
    gmatch s pat = .ok ((words c s).map fun w => [.str w]) := by
  unfold gmatch
  rw [hpat]
  exact gmatchFrom_runs c (s.length + 1) [] s (Nat.lt_succ_self _)

/-! ## All pieces up to a character -/

section Pieces

variable {x : Char}

/-- The piece up to the next `x`. -/
theorem doMatch_piece {pre line rest : Str} (hline : x ∉ line) :
    doMatch (pre ++ (line ++ x :: rest)) [.capOpen, .single .any .minus, .capClose, .single (.lit x) .one] pre.length
      [] =
      .ok (some (pre.length + line.length + 1, [.closed pre.length line.length])) := by
  have hany : line.length ≤ runLength (pre ++ (line ++ x :: rest)) .any pre.length := by
    have h := @List.takeWhile_append_of_pos _ Single.any.test line (x :: rest) fun _ _ => rfl
    rw [runLength_append, h]
    simp
  rw [doMatch, if_neg (by simp), doMatch_single_minus]
  refine minExpand_first (by simp) hany ?_ fun m hm => ?_
  · rw [doMatch]
    simp only [List.nil_append, closeLast, Nat.add_sub_cancel_left]
    have hone : doMatch (pre ++ line ++ x :: rest) [.single (.lit x) .one] (pre ++ line).length
        [.closed pre.length line.length] =
        doMatch (pre ++ line ++ x :: rest) [] ((pre ++ line).length + 1) [.closed pre.length line.length] :=
      doMatch_one (pre ++ line) rest (by simp [Single.test])
    rw [List.append_assoc, List.length_append] at hone
    rw [hone, doMatch]
  · -- the characters of the piece are not `x`
    have hnone : doMatch (pre ++ line.take m ++ (line.drop m ++ x :: rest)) [.single (.lit x) .one]
        (pre ++ line.take m).length [.closed pre.length m] = .ok none := by
      refine doMatch_one_none fun y hy => ?_
      rw [List.drop_eq_getElem_cons hm, List.cons_append, List.head?_cons, Option.some_inj] at hy
      have hne : x ≠ y := fun h => hline (h ▸ hy ▸ List.getElem_mem hm)
      exact beq_eq_false_iff_ne.mpr hne
    have hsplit : pre ++ line.take m ++ (line.drop m ++ x :: rest) = pre ++ (line ++ x :: rest) := by
      rw [List.append_assoc, ← List.append_assoc (line.take m), List.take_append_drop]
    rw [hsplit, List.length_append, List.length_take_of_le (Nat.le_of_lt hm)] at hnone
    rw [doMatch]
    simp only [List.nil_append, closeLast, Nat.add_sub_cancel_left]
    exact hnone

theorem gmatchFrom_pieces_end (src : Str) (fuel : Nat) :
    gmatchFrom src [.capOpen, .single .any .minus, .capClose, .single (.lit x) .one] fuel src.length = .ok [] := by
  have hrun : ∀ c : Single, runLength src c src.length = 0 := fun c => by simp [runLength]
  have hnone : doMatch src [.capOpen, .single .any .minus, .capClose, .single (.lit x) .one] src.length [] =
    .ok none := by
    rw [doMatch, if_neg (by simp), doMatch_single_minus, hrun, minExpand, doMatch]
    simp only [List.nil_append, closeLast]
    rw [doMatch_single_one, hrun]
    rfl
  cases fuel with
  | zero => rfl
  | succ fuel =>
    rw [gmatchFrom, if_neg (Nat.lt_irrefl _), hnone]
    cases fuel with
    | zero => rfl
    | succ fuel =>
      simp only [bind, Except.bind, gmatchFrom]
      rw [if_pos (Nat.lt_succ_self _)]
      rfl

theorem gmatchFrom_pieces : ∀ (fuel : Nat) (pre suf : Str), suf.length < fuel →
    gmatchFrom (pre ++ (suf ++ [x])) [.capOpen, .single .any .minus, .capClose, .single (.lit x) .one] fuel pre.length =
      .ok ((suf.splitOn x).map fun w => [.str w])
  | fuel + 1, pre, suf, hf => by
    unfold gmatchFrom
    rw [if_neg (by simp)]
    by_cases hx : x ∈ suf
    · obtain ⟨line, rest, rfl, hline⟩ := List.eq_append_cons_of_mem hx
      have hlen : rest.length < fuel := by
        simp only [List.length_append, List.length_cons] at hf
        omega
      have ih := gmatchFrom_pieces fuel (pre ++ (line ++ [x])) rest hlen
      rw [List.splitOn_append_cons_self_of_not_mem hline]
      simp only [List.append_assoc, List.cons_append, List.nil_append, List.length_append, List.length_cons,
        List.length_nil] at ih ⊢
      rw [doMatch_piece hline]
      simp only [bind, Except.bind, capValues_closed]
      rw [if_neg (by omega), Nat.add_assoc, ih]
      rfl
    · have hend := @gmatchFrom_pieces_end x (pre ++ (suf ++ [x])) fuel
      rw [List.splitOn_eq_singleton hx, doMatch_piece hx]
      simp only [bind, Except.bind, capValues_closed]
      rw [if_neg (by omega)]
      simp only [List.length_append, List.length_singleton, ← Nat.add_assoc] at hend
      rw [hend]
      rfl

/-- **The matches of a lazy capture up to a character** are the pieces between its occurrences. -/
theorem gmatch_pieces {pat : Str}
    (hpat : compile pat = [.capOpen, .single .any .minus, .capClose, .single (.lit x) .one]) (s : Str) :
    gmatch (s ++ [x]) pat = .ok ((s.splitOn x).map fun w => [.str w]) := by
  unfold gmatch
  rw [hpat]
  exact gmatchFrom_pieces ((s ++ [x]).length + 1) [] s (by rw [List.length_append]; omega)

end Pieces

/-! ## Patterns whose first character does not occur -/

theorem strMatch_lacks {pat s : Str} {c : Single} {is : List Item} (hpat : compile pat = .single c .one :: is)
    (hs : ∀ x ∈ s, c.test x = false) : strMatch s ('^' :: pat) = .ok none := by
  have hnone : doMatch ([] ++ s) (.single c .one :: is) ([] : Str).length [] = .ok none :=
    doMatch_one_none fun x hx => hs x (List.mem_of_mem_head? hx)
  unfold strMatch
  simp only [search, hpat]
  rw [show doMatch s (.single c .one :: is) 0 [] = .ok none from hnone]
  rfl

theorem gsubFrom_lacks {c : Single} {is : List Item} {f : List Value → Str} : ∀ (fuel : Nat) (pre suf : Str),
    (∀ x ∈ suf, c.test x = false) → gsubFrom (pre ++ suf) (.single c .one :: is) false f fuel pre.length = .ok suf
  | 0, pre, suf, _ => by simp [gsubFrom]
  | fuel + 1, pre, suf, hs => by
    have hnone : doMatch (pre ++ suf) (.single c .one :: is) pre.length [] = .ok none :=
      doMatch_one_none fun x hx => hs x (List.mem_of_mem_head? hx)
    unfold gsubFrom
    rw [hnone]
    cases suf with
    | nil => simp [bind, Except.bind, pure, Except.pure]
    | cons x suf =>
      have ih : gsubFrom (pre ++ [x] ++ suf) (.single c .one :: is) false f fuel (pre ++ [x]).length = .ok suf :=
        gsubFrom_lacks fuel (pre ++ [x]) suf fun y hy => hs y (List.mem_cons_of_mem x hy)
      rw [List.append_assoc, List.length_append] at ih
      simp only [List.singleton_append, List.length_singleton] at ih
      simp [bind, Except.bind, pure, Except.pure, ih]

theorem gsub_lacks {pat s : Str} {c : Single} {is : List Item} {f : List Value → Str}
    (hpat : compile pat = .single c .one :: is) (hanchor : pat.head? ≠ some '^') (hs : ∀ x ∈ s, c.test x = false) :
    gsub s pat f = .ok s := by
  have hfrom : gsubFrom ([] ++ s) (.single c .one :: is) false f (s.length + 1) ([] : Str).length = .ok s :=
    gsubFrom_lacks (s.length + 1) [] s hs
  unfold gsub
  split
  · exact absurd rfl hanchor
  · rw [hpat]
    exact hfrom

/-! ## Replacements of single characters -/

section GsubTotal

variable {f : List Value → Str}

/-- A replacement returns if every match does. -/
theorem gsubFrom_total {src : Str} {is : List Item} {anchor : Bool} (h : ∀ s, doMatch src is s [] = .ok none ∨
      ∃ e caps v, doMatch src is s [] = .ok (some (e, caps)) ∧ capValues src s e caps = .ok v) :
    ∀ fuel s, ∃ r, gsubFrom src is anchor f fuel s = .ok r
  | 0, s => ⟨_, rfl⟩
  | fuel + 1, s => by
    unfold gsubFrom
    rcases h s with hnone | ⟨e, caps, v, hsome, hv⟩
    · obtain ⟨r, hr⟩ := gsubFrom_total h fuel (s + 1)
      rw [hnone, hr]
      simp only [bind, Except.bind]
      split <;> exact ⟨_, rfl⟩
    · obtain ⟨r, hr⟩ := gsubFrom_total h fuel (if s < e then e else s + 1)
      rw [hsome]
      simp only [bind, Except.bind, hv]
      rw [hr]
      by_cases hlast : (anchor || decide (src.length < if s < e then e else s + 1)) = true
      · rw [if_pos hlast]
        exact ⟨_, rfl⟩
      · rw [if_neg hlast]
        exact ⟨_, rfl⟩

/-- Every character of a class is replaced; nothing raises. -/
theorem gsub_single_total {pat : Str} {c : Single} (hpat : compile pat = [.single c .one])
    (hanchor : pat.head? ≠ some '^')
    (s : Str) : ∃ r, gsub s pat f = .ok r := by
  unfold gsub
  split
  · exact absurd rfl hanchor
  · rw [hpat]
    refine gsubFrom_total (fun i => ?_) _ _
    rw [doMatch_single_one]
    split
    · exact .inr ⟨_, _, _, rfl, rfl⟩
    · exact .inl rfl

theorem gsub_captured_total {pat : Str} {c : Single} (hpat : compile pat = [.capOpen, .single c .one, .capClose])
    (hanchor : pat.head? ≠ some '^') (s : Str) : ∃ r, gsub s pat f = .ok r := by
  unfold gsub
  split
  · exact absurd rfl hanchor
  · rw [hpat]
    refine gsubFrom_total (fun i => ?_) _ _
    rw [doMatch, if_neg (by simp), doMatch_single_one]
    split
    · exact .inr ⟨_, _, _, rfl, rfl⟩
    · exact .inl rfl

end GsubTotal

/-! ## One class over the whole text, or somewhere in it -/

section OneClass

variable {c : Single} {pat s : Str}

/-- What the search found is what the match gives. -/
theorem strMatch_of_search {found : Option (Nat × Nat)} (hanchor : pat.head? ≠ some '^')
    (h : search s (compile pat) s.length 0 = .ok (found.map fun p => (p.1, p.2, []))) :
    (∃ m, strMatch s pat = .ok (some m)) ↔ found.isSome = true := by
  unfold strMatch
  split
  · exact absurd rfl hanchor
  · simp only [h, bind, Except.bind]
    cases found with
    | none => simp [pure, Except.pure]
    | some p => simp [capValues, Functor.map, Except.map]

theorem strMatch_of_search_anchored {found : Option (Nat × Nat)}
    (h : search s (compile pat) 0 0 = .ok (found.map fun p => (p.1, p.2, []))) :
    (∃ m, strMatch s ('^' :: pat) = .ok (some m)) ↔ found.isSome = true := by
  unfold strMatch
  simp only [h, bind, Except.bind]
  cases found with
  | none => simp [pure, Except.pure]
  | some p => simp [capValues, Functor.map, Except.map]

/-- **A run that is the whole text**: `^[…]+$`. -/
theorem strMatch_whole (hpat : compile pat = [.single c .plus, .atEnd]) (s : Str) :
    (∃ m, strMatch s ('^' :: pat) = .ok (some m)) ↔ s ≠ [] ∧ ∀ x ∈ s, c.test x = true := by
  by_cases hs : s ≠ [] ∧ ∀ x ∈ s, c.test x = true
  · have hrun : doMatch ([] ++ (s ++ [])) (.single c .plus :: [.atEnd]) ([] : Str).length [] =
        .ok (some (s.length, [])) := by
      refine doMatch_run hs.1 hs.2 (by simp) ?_ (by simp)
      rw [doMatch, if_pos (by simp)]
      simp
    rw [List.nil_append, List.append_nil] at hrun
    have hfound : search s (compile pat) 0 0 = .ok ((some (0, s.length)).map fun p => (p.1, p.2, [])) := by
      rw [hpat]
      exact search_of_some hrun 0
    exact (strMatch_of_search_anchored hfound).trans (iff_of_true rfl hs)
  · have hnone : doMatch s [.single c .plus, .atEnd] 0 [] = .ok none := by
      have hrun : runLength s c 0 = (s.takeWhile c.test).length := by simp [runLength]
      rw [doMatch_single_plus, hrun]
      split
      · rfl
      · next n hn =>
        refine maxExpand_none fun m hm => ?_
        rw [doMatch, if_neg]
        intro hlen
        -- a run as long as the text is the text
        refine hs ?_
        have hle : s.length ≤ (s.takeWhile c.test).length := by omega
        have heq : s.takeWhile c.test = s := (List.takeWhile_prefix c.test).eq_of_length_le hle
        refine ⟨fun hnil => by simp [hnil] at hn, fun x hx => ?_⟩
        rw [← heq] at hx
        exact List.all_eq_true.mp List.all_takeWhile x hx
    have hfound : search s (compile pat) 0 0 = .ok ((none : Option (Nat × Nat)).map fun p => (p.1, p.2, [])) := by
      rw [hpat]
      unfold search
      rw [hnone]
      rfl
    exact (strMatch_of_search_anchored hfound).trans (iff_of_false (by simp) hs)

/-- The search for one character of a class. -/
theorem search_one (c : Single) : ∀ (suf pre : Str), ∃ found : Option (Nat × Nat),
    search (pre ++ suf) [.single c .one] suf.length pre.length = .ok (found.map fun p => (p.1, p.2, [])) ∧
      (found.isSome = true ↔ ∃ x ∈ suf, c.test x = true)
  | [], pre => by
    refine ⟨none, ?_, by simp⟩
    unfold search
    rw [doMatch_one_none (by simp)]
    rfl
  | x :: suf, pre => by
    cases hx : c.test x with
    | true =>
      have hone : doMatch (pre ++ x :: suf) [.single c .one] pre.length [] = .ok (some (pre.length + 1, [])) := by
        rw [doMatch_one pre suf hx, doMatch]
      exact ⟨some (pre.length, pre.length + 1), search_of_some hone _, by simp [hx]⟩
    | false =>
      have hnone : doMatch (pre ++ x :: suf) [.single c .one] pre.length [] = .ok none :=
        doMatch_one_none (by simpa using hx)
      obtain ⟨found, hfound, hiff⟩ := search_one c suf (pre ++ [x])
      rw [List.append_assoc, List.length_append] at hfound
      refine ⟨found, ?_, by simpa [hx] using hiff⟩
      rw [List.length_cons, search_of_none hnone]
      exact hfound

/-- **A character of a class somewhere in the text.** -/
theorem strMatch_somewhere (hpat : compile pat = [.single c .one]) (hanchor : pat.head? ≠ some '^') (s : Str) :
    (∃ m, strMatch s pat = .ok (some m)) ↔ ∃ x ∈ s, c.test x = true := by
  obtain ⟨found, hfound, hiff⟩ := search_one c s []
  rw [List.nil_append, List.length_nil, ← hpat] at hfound
  exact (strMatch_of_search hanchor hfound).trans hiff

end OneClass

end Lua
