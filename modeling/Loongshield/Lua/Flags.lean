import Loongshield.Lua.Match

/-!
# Flags and their arguments

A pattern like `%-F%s+path=(%S+)` reads command line flags out of a text: a flag, blanks, some literal characters and a
captured run. It is tried at every place of the text, so that the flag may be the end of a longer word; the argument
begins the next word.

* `strMatch_of_gmatch`: the first match is the first one of all;
* `scan`: what follows a flag in a list of words;
* `gmatch_scan`: the matches of a pattern that begins with a flag and blanks are given by `scan`;
* `gmatch_flag`: a captured argument after literal characters;
* `gmatch_flag_lits`: an argument that is not captured;
* `strMatch_flag`: a flag at the front of the text.
-/

namespace Lua

open Pattern

/-! ## The first match and all matches -/

theorem search_of_gmatchFrom {src : Str} {is : List Item} : ∀ {fuel s : Nat} {ms : List (List Value)},
    fuel + s = src.length → gmatchFrom src is (fuel + 1) s = .ok ms →
      (search src is fuel s >>= fun found => match found with
        | none => pure none
        | some (a, e, caps) => some <$> capValues src a e caps) = .ok ms.head?
  | fuel, s, ms, hlen, h => by
    unfold gmatchFrom at h
    rw [if_neg (by omega)] at h
    unfold search
    cases hmatch : doMatch src is s [] with
    | error e =>
      rw [hmatch] at h
      cases h
    | ok r =>
      rw [hmatch] at h
      cases r with
      | none =>
        cases fuel with
        | zero =>
          cases h
          rfl
        | succ fuel => exact search_of_gmatchFrom (by omega) h
      | some r =>
        obtain ⟨e, caps⟩ := r
        obtain ⟨v, hv, h⟩ := bind_ok.mp (show (capValues src s e caps >>= fun v =>
          gmatchFrom src is fuel (if e = s then s + 1 else e) >>= fun rest => pure (v :: rest)) = .ok ms from h)
        obtain ⟨rest, hrest, h⟩ := bind_ok.mp h
        cases h
        simp only [bind, Except.bind, hv]
        rfl

/-- **The first match is the first one of all**, for a pattern without an anchor. -/
theorem strMatch_of_gmatch {s pat : Str} {ms : List (List Value)} (hanchor : pat.head? ≠ some '^')
    (h : gmatch s pat = .ok ms) : strMatch s pat = .ok ms.head? := by
  unfold strMatch
  split
  · exact absurd rfl hanchor
  · exact search_of_gmatchFrom (Nat.add_zero _) h

/-! ## A flag, blanks, and what follows -/

/-- Each of `cs` stands for the character at its place. -/
def Spells (cs : List Single) (xs : Str) : Prop := List.Forall₂ (fun c x => ∀ y, c.test y = true ↔ y = x) cs xs

/-- The class `%s`. -/
def blank : Single := .cls 's'

/-- The class `%S`. -/
def nonBlank : Single := .cls 'S'

@[simp] theorem blank_test (x : Char) : blank.test x = isspace x := rfl

@[simp] theorem nonBlank_test (x : Char) : nonBlank.test x = !isspace x := rfl

/-- Characters that are there, or not. -/
theorem doMatch_spells {is : List Item} {caps : Caps} : ∀ {cs : List Single} {xs : Str}, Spells cs xs →
    ∀ pre suf : Str, doMatch (pre ++ suf) (cs.map (.single · .one) ++ is) pre.length caps =
      if xs <+: suf then doMatch (pre ++ suf) is (pre.length + xs.length) caps else .ok none
  | [], [], _, pre, suf => by simp
  | c :: cs, x :: xs, .cons hx hxs, pre, suf => by
    have hmap : (c :: cs).map (Item.single · Quant.one) ++ is =
        .single c .one :: (cs.map (Item.single · Quant.one) ++ is) := rfl
    rw [hmap]
    cases suf with
    | nil =>
      rw [if_neg (by simp)]
      exact doMatch_one_none (by simp)
    | cons y suf =>
      by_cases hy : y = x
      · subst hy
        have ih := @doMatch_spells is caps cs xs hxs (pre ++ [y]) suf
        rw [List.append_assoc, List.length_append] at ih
        rw [doMatch_one pre suf ((hx y).mpr rfl)]
        simp only [List.prefix_cons_inj, List.singleton_append, List.length_cons, List.length_nil, Nat.zero_add] at ih ⊢
        rw [ih, Nat.add_assoc, Nat.add_comm 1]
      · have hno : c.test y = false := by
          rw [← Bool.not_eq_true, hx]
          exact hy
        rw [if_neg (by simp [List.cons_prefix_cons, Ne.symm hy])]
        exact doMatch_one_none (by simpa using hno)

/-- A greedy run of blanks, before items that do not match at a blank. -/
theorem doMatch_blanks {R : List Item} {caps : Caps} (hR : ∀ (pre suf : Str) (x : Char), isspace x = true →
      doMatch (pre ++ x :: suf) R pre.length caps = .ok none) (pre suf : Str) :
    doMatch (pre ++ suf) (.single blank .plus :: R) pre.length caps =
      if suf.takeWhile isspace = [] then .ok none
      else doMatch (pre ++ suf) R (pre.length + (suf.takeWhile isspace).length) caps := by
  have htest : blank.test = isspace := rfl
  rw [doMatch_single_plus, runLength_append, htest]
  cases hrun : suf.takeWhile isspace with
  | nil => rw [if_pos rfl]; rfl
  | cons b run =>
    rw [if_neg (by simp)]
    simp only [List.length_cons]
    -- shorter runs leave a blank
    have hshort : ∀ m, m < run.length → doMatch (pre ++ suf) R (pre.length + 1 + m) caps = .ok none := by
      intro m hm
      have hsplit : suf = (b :: run).take (m + 1) ++ (b :: run).drop (m + 1) ++ suf.dropWhile isspace := by
        rw [List.take_append_drop, ← hrun, List.takeWhile_append_dropWhile]
      have hdrop : (b :: run).drop (m + 1) = run[m] :: run.drop (m + 1) := by
        rw [List.drop_succ_cons, List.drop_eq_getElem_cons hm]
      have hblank : isspace run[m] = true := by
        have hmem : run[m] ∈ suf.takeWhile isspace := by
          rw [hrun]
          exact List.mem_cons_of_mem b (List.getElem_mem hm)
        exact List.all_eq_true.mp List.all_takeWhile _ hmem
      have hnone := hR (pre ++ (b :: run).take (m + 1)) (run.drop (m + 1) ++ suf.dropWhile isspace) run[m] hblank
      have hsrc : pre ++ (b :: run).take (m + 1) ++ run[m] :: (run.drop (m + 1) ++ suf.dropWhile isspace) =
        pre ++ suf := by
        conv_rhs => rw [hsplit, hdrop]
        simp only [List.append_assoc, List.cons_append]
      rw [hsrc, List.length_append, List.length_take_of_le (by simpa using Nat.le_of_lt hm)] at hnone
      rw [Nat.add_assoc, Nat.add_comm 1 m]
      exact hnone
    by_cases hfull : doMatch (pre ++ suf) R (pre.length + (run.length + 1)) caps = .ok none
    · rw [hfull]
      refine maxExpand_none fun m hm => ?_
      rcases Nat.lt_or_eq_of_le hm with hm | rfl
      · exact hshort m hm
      · rw [Nat.add_assoc, Nat.add_comm 1]
        exact hfull
    · refine maxExpand_back ?_ hfull (Nat.le_refl _) fun m hm hmn => absurd hm (by omega)
      rw [Nat.add_assoc, Nat.add_comm 1]

/-! ## The words of a text -/

/-- The words from the middle of a word on: its rest, and the words after it. -/
theorem words_split (s : Str) : words nonBlank s =
    if s.takeWhile nonBlank.test = [] then words nonBlank (s.dropWhile nonBlank.test)
    else s.takeWhile nonBlank.test :: words nonBlank (s.dropWhile nonBlank.test) := by
  split
  next h =>
    have hall : s.dropWhile nonBlank.test = s := by
      conv_rhs => rw [← @List.takeWhile_append_dropWhile _ nonBlank.test s, h, List.nil_append]
    rw [hall]
  next h =>
    conv_lhs => rw [← @List.takeWhile_append_dropWhile _ nonBlank.test s]
    refine words_append h (fun x hx => List.all_eq_true.mp List.all_takeWhile x hx) fun x hx => ?_
    have hnot := List.head?_dropWhile_not nonBlank.test s
    rw [hx] at hnot
    simpa using hnot

theorem words_blanks {b : Str} (s : Str) (hb : ∀ x ∈ b, isspace x = true) :
    words nonBlank (b ++ s) = words nonBlank s := by
  induction b with
  | nil => rfl
  | cons x b ih =>
    rw [List.cons_append, words_cons_of_neg (b ++ s) (by simp [hb x List.mem_cons_self])]
    exact ih fun y hy => hb y (List.mem_cons_of_mem x hy)

/-- What follows a flag in a list of words, where `u` is the rest of the word before them: `arg` reads a word, and says
where the search goes on in it. -/
def scan (flag : Str) (arg : Str → Option (α × Str)) : Str → List Str → List α
  | _, [] => []
  | u, v :: ws =>
    if flag.isSuffixOf u then
      match arg v with
      | some (a, rest) => a :: scan flag arg rest ws
      | none => scan flag arg v ws
    else scan flag arg v ws

/-- A place in a word where the flag does not begin can be passed over. -/
theorem scan_skip {flag : Str} {arg : Str → Option (α × Str)} {x : Char} {u : Str} (hflag : flag ≠ x :: u) :
    ∀ ws : List Str, scan flag arg (x :: u) ws = scan flag arg u ws
  | [] => rfl
  | v :: ws => by
    have hsuf : flag.isSuffixOf (x :: u) = flag.isSuffixOf u := by
      rw [Bool.eq_iff_iff, List.isSuffixOf_iff_suffix, List.isSuffixOf_iff_suffix, List.suffix_cons_iff]
      exact or_iff_right hflag
    simp only [scan, hsuf]

theorem scan_short {flag : Str} {arg : Str → Option (α × Str)} {u : Str} (hu : u.length < flag.length) (v : Str)
    (ws : List Str) : scan flag arg u (v :: ws) = scan flag arg v ws := by
  have hno : flag.isSuffixOf u = false := by
    rw [← Bool.not_eq_true, List.isSuffixOf_iff_suffix]
    exact fun h => absurd h.length_le (by omega)
  rw [scan, if_neg (by rw [hno]; exact Bool.false_ne_true)]

/-! ## The matches of a flag -/

/-- The items `T` read a word as `arg` does; `R` relates what was read to the values of the match. -/
structure Reads (T : List Item) (arg : Str → Option (α × Str)) (R : α → List Value → Prop) : Prop where
  blank : ∀ pre suf : Str, (∀ x, suf.head? = some x → isspace x = true) →
    doMatch (pre ++ suf) T pre.length [] = .ok none
  none : ∀ pre v t : Str, (∀ x ∈ v, nonBlank.test x = true) → (∀ x, t.head? = some x → isspace x = true) →
    arg v = none → doMatch (pre ++ (v ++ t)) T pre.length [] = .ok none
  some : ∀ pre v t : Str, (∀ x ∈ v, nonBlank.test x = true) → (∀ x, t.head? = some x → isspace x = true) →
    ∀ a rest, arg v = some (a, rest) → ∃ taken caps, v = taken ++ rest ∧
      doMatch (pre ++ (v ++ t)) T pre.length [] = .ok (some (pre.length + taken.length, caps)) ∧
      ∀ s, ∃ vals, capValues (pre ++ (v ++ t)) s (pre.length + taken.length) caps = .ok vals ∧ R a vals

section Flag

variable {fs : List Single} {flag : Str} {T : List Item} {arg : Str → Option (α × Str)} {R : α → List Value → Prop}

/-- Where the rest of the word is not the flag, nothing matches. -/
theorem doMatch_flag_ne (hfs : Spells fs flag) (hflag : ∀ x ∈ flag, nonBlank.test x = true) (hT : Reads T arg R)
    (pre : Str) {suf : Str} (h : suf.takeWhile nonBlank.test ≠ flag) :
    doMatch (pre ++ suf) (fs.map (.single · .one) ++ .single blank .plus :: T) pre.length [] = .ok none := by
  rw [doMatch_spells hfs]
  split
  next hpre =>
    obtain ⟨r, rfl⟩ := hpre
    have hrun := doMatch_blanks (fun pre suf x hx => hT.blank pre (x :: suf) (by simpa using hx)) (pre ++ flag) r
    rw [List.append_assoc, List.length_append] at hrun
    rw [hrun, if_pos]
    -- a blank after the flag would end the word
    cases r with
    | nil => rfl
    | cons y r =>
      refine List.takeWhile_cons_of_neg fun hy => h ?_
      rw [List.takeWhile_append_of_pos hflag, List.takeWhile_cons_of_neg (by simp [hy]), List.append_nil]
  next => rfl

/-- A flag and blanks: the rest of the pattern is matched at the next word. -/
theorem doMatch_flag_eq (hfs : Spells fs flag) (hT : Reads T arg R) (pre : Str) {b r : Str} (hne : b ≠ [])
    (hb : ∀ x ∈ b, isspace x = true) (hr : ∀ x, r.head? = some x → isspace x = false) :
    doMatch (pre ++ (flag ++ (b ++ r))) (fs.map (.single · .one) ++ .single blank .plus :: T) pre.length [] =
      doMatch (pre ++ (flag ++ (b ++ r))) T (pre.length + flag.length + b.length) [] := by
  have hrun := doMatch_blanks (fun pre suf x hx => hT.blank pre (x :: suf) (by simpa using hx)) (pre ++ flag) (b ++ r)
  have htake : (b ++ r).takeWhile isspace = b := by
    rw [List.takeWhile_append_of_pos hb]
    cases r with
    | nil => simp
    | cons x r => rw [List.takeWhile_cons_of_neg (by simp [hr x rfl]), List.append_nil]
  rw [htake, if_neg hne, List.append_assoc, List.length_append] at hrun
  rw [doMatch_spells hfs, if_pos (List.prefix_append _ _), hrun]

/-- A flag and blanks at the end of the text. -/
theorem doMatch_flag_end (hfs : Spells fs flag) (hT : Reads T arg R) (pre : Str) {b : Str}
    (hb : ∀ x ∈ b, isspace x = true) :
    doMatch (pre ++ (flag ++ b)) (fs.map (.single · .one) ++ .single blank .plus :: T) pre.length [] = .ok none := by
  cases b with
  | nil =>
    have hrun := doMatch_blanks (fun pre suf x hx => hT.blank pre (x :: suf) (by simpa using hx)) (pre ++ flag) []
    rw [List.append_assoc, List.length_append] at hrun
    rw [doMatch_spells hfs, if_pos (List.prefix_append _ _)]
    exact hrun
  | cons x b =>
    have hmatch := @doMatch_flag_eq _ _ _ _ _ _ hfs hT pre (x :: b) [] (by simp) hb (by simp)
    have hend := hT.blank (pre ++ (flag ++ x :: b)) [] (by simp)
    rw [List.append_nil] at hmatch hend
    rw [List.length_append, List.length_append, ← Nat.add_assoc] at hend
    rw [hmatch, hend]

/-- A text from the middle of a word on: the rest of the word, blanks, a word and the rest. -/
theorem word_split (suf : Str) : ∃ b v t : Str,
    suf = suf.takeWhile nonBlank.test ++ (b ++ (v ++ t)) ∧ suf.dropWhile nonBlank.test = b ++ (v ++ t) ∧
    (b = [] → v = [] ∧ t = []) ∧ (∀ x ∈ b, isspace x = true) ∧ (v = [] → t = []) ∧ (∀ x ∈ v, nonBlank.test x = true) ∧
    ∀ x, t.head? = some x → isspace x = true := by
  let d := suf.dropWhile nonBlank.test
  let r := d.dropWhile isspace
  have hd : ∀ x, d.head? = some x → isspace x = true := by
    intro x hx
    have hnot := List.head?_dropWhile_not nonBlank.test suf
    rw [hx] at hnot
    simpa using hnot
  have hr : ∀ x, r.head? = some x → isspace x = false := by
    intro x hx
    have hnot := List.head?_dropWhile_not isspace d
    rw [hx] at hnot
    simpa using hnot
  have hsplit : d = d.takeWhile isspace ++ (r.takeWhile nonBlank.test ++ r.dropWhile nonBlank.test) := by
    rw [List.takeWhile_append_dropWhile, List.takeWhile_append_dropWhile]
  refine ⟨d.takeWhile isspace, r.takeWhile nonBlank.test, r.dropWhile nonBlank.test, ?_, hsplit, fun h => ?_,
    fun x hx => List.all_eq_true.mp List.all_takeWhile x hx, fun h => ?_,
    fun x hx => List.all_eq_true.mp List.all_takeWhile x hx, fun x hx => ?_⟩
  · rw [← hsplit, List.takeWhile_append_dropWhile]
  · have hnil : d = [] := by
      cases hcons : d with
      | nil => rfl
      | cons x d' =>
        rw [hcons, List.takeWhile_cons_of_pos (hd x (by rw [hcons]; rfl))] at h
        exact absurd h (by simp)
    have hrnil : r = [] := by simp only [r, hnil, List.dropWhile_nil]
    simp [hrnil]
  · cases hcons : r with
    | nil => rfl
    | cons x r' =>
      rw [hcons, List.takeWhile_cons_of_pos (by simp [hr x (by rw [hcons]; rfl)])] at h
      exact absurd h (by simp)
  · have hnot := List.head?_dropWhile_not nonBlank.test r
    rw [hx] at hnot
    simpa using hnot

/-- A text that begins with the rest of a word. -/
theorem scan_text {u t : Str} (hu : ∀ x ∈ u, nonBlank.test x = true) (ht : ∀ x, t.head? = some x → isspace x = true) :
    (u ++ t).takeWhile nonBlank.test = u ∧ (u ++ t).dropWhile nonBlank.test = t := by
  rw [List.takeWhile_append_of_pos hu, List.dropWhile_append_of_pos hu]
  cases t with
  | nil => simp
  | cons x t =>
    have hx : ¬nonBlank.test x = true := by simp [ht x rfl]
    rw [List.takeWhile_cons_of_neg hx, List.dropWhile_cons_of_neg hx, List.append_nil]
    exact ⟨rfl, rfl⟩

/-- What `scan` finds in a text. -/
abbrev scanText (flag : Str) (arg : Str → Option (α × Str)) (suf : Str) : List α :=
  scan flag arg (suf.takeWhile nonBlank.test) (words nonBlank (suf.dropWhile nonBlank.test))

/-- A character where the flag does not begin is passed over. -/
theorem scanText_cons (hne : flag ≠ []) {x : Char} {suf : Str}
    (h : (x :: suf).takeWhile nonBlank.test ≠ flag) : scanText flag arg (x :: suf) = scanText flag arg suf := by
  cases hx : nonBlank.test x with
  | true =>
    rw [scanText, List.takeWhile_cons_of_pos hx, List.dropWhile_cons_of_pos hx]
    rw [List.takeWhile_cons_of_pos hx] at h
    exact scan_skip (Ne.symm h) _
  | false =>
    have hneg : ¬nonBlank.test x = true := by simp [hx]
    rw [scanText, List.takeWhile_cons_of_neg hneg, List.dropWhile_cons_of_neg hneg, words_cons_of_neg suf hx,
      words_split suf]
    split
    next h => rw [scanText, h]
    next h => exact scan_short (by simpa using List.length_pos_iff.mpr hne) _ _

theorem gmatchFrom_scan (hfs : Spells fs flag) (hne : flag ≠ []) (hflag : ∀ x ∈ flag, nonBlank.test x = true)
    (hT : Reads T arg R) : ∀ (fuel : Nat) (pre suf : Str), suf.length < fuel → ∃ ms,
      gmatchFrom (pre ++ suf) (fs.map (.single · .one) ++ .single blank .plus :: T) fuel pre.length = .ok ms ∧
      List.Forall₂ R (scanText flag arg suf) ms
  | fuel + 1, pre, [], _ => by
    have hnone : doMatch (pre ++ []) (fs.map (.single · .one) ++ .single blank .plus :: T) pre.length [] = .ok none :=
      doMatch_flag_ne hfs hflag hT pre (Ne.symm hne)
    refine ⟨[], ?_, .nil⟩
    unfold gmatchFrom
    rw [if_neg (by simp), hnone]
    cases fuel with
    | zero => rfl
    | succ fuel =>
      simp only [bind, Except.bind, gmatchFrom]
      rw [if_pos (by simp)]
      rfl
  | fuel + 1, pre, x :: suf, hf => by
    -- without a match here, the search goes on at the next character
    have hskip : doMatch (pre ++ x :: suf) (fs.map (.single · .one) ++ .single blank .plus :: T) pre.length [] =
      .ok none →
        scanText flag arg (x :: suf) = scanText flag arg suf → ∃ ms,
        gmatchFrom (pre ++ x :: suf) (fs.map (.single · .one) ++ .single blank .plus :: T) (fuel + 1) pre.length =
        .ok ms ∧
        List.Forall₂ R (scanText flag arg (x :: suf)) ms := by
      intro hnone hscan
      have ih := gmatchFrom_scan hfs hne hflag hT fuel (pre ++ [x]) suf (by simpa using hf)
      rw [List.append_assoc, List.length_append] at ih
      rw [gmatchFrom, if_neg (by simp), hnone, hscan]
      exact ih
    by_cases hword : (x :: suf).takeWhile nonBlank.test = flag
    · obtain ⟨b, v, t, hsplit, hdrop, hbnil, hb, hvnil, hv, ht⟩ := word_split (x :: suf)
      have hshort : suf.takeWhile nonBlank.test = flag.tail ∧ suf.dropWhile nonBlank.test = b ++ (v ++ t) := by
        have hx : nonBlank.test x = true := by
          rcases hx : nonBlank.test x
          · rw [List.takeWhile_cons_of_neg (by simp [hx])] at hword
            exact absurd hword.symm hne
          · rfl
        rw [List.takeWhile_cons_of_pos hx] at hword
        rw [List.dropWhile_cons_of_pos hx] at hdrop
        exact ⟨by rw [← hword]; rfl, hdrop⟩
      have hlen : flag.tail.length < flag.length := by
        rw [List.length_tail]
        exact Nat.sub_lt (List.length_pos_iff.mpr hne) Nat.one_pos
      have hwords : words nonBlank (b ++ (v ++ t)) = if v = [] then [] else v :: words nonBlank t := by
        rw [words_blanks _ hb]
        split
        next h => rw [h, hvnil h]; rfl
        next h => exact words_append h hv fun y hy => by simp [ht y hy]
      rw [hword] at hsplit
      by_cases hvne : v = []
      · -- blanks up to the end of the text
        refine hskip ?_ ?_
        · rw [hvne, hvnil hvne, List.append_nil, List.append_nil] at hsplit
          rw [hsplit]
          exact doMatch_flag_end hfs hT pre hb
        · rw [scanText, hword, hdrop, scanText, hshort.1, hshort.2, hwords, if_pos hvne]
          rfl
      · have hbne : b ≠ [] := fun h => hvne (hbnil h).1
        have hvhead : ∀ y, (v ++ t).head? = some y → isspace y = false := by
          intro y hy
          cases v with
          | nil => exact absurd rfl hvne
          | cons z v =>
            obtain rfl : z = y := by simpa using hy
            simpa using hv z List.mem_cons_self
        have hmatch := doMatch_flag_eq hfs hT pre hbne hb hvhead
        have hplace : (pre ++ (flag ++ b)).length = pre.length + flag.length + b.length := by
          simp [Nat.add_assoc]
        have htext : pre ++ (flag ++ b) ++ (v ++ t) = pre ++ (flag ++ (b ++ (v ++ t))) := by simp
        cases harg : arg v with
        | none =>
          have hnone := hT.none (pre ++ (flag ++ b)) v t hv ht harg
          rw [htext, hplace] at hnone
          refine hskip (by rw [hsplit, hmatch, hnone]) ?_
          rw [scanText, hword, hdrop, scanText, hshort.1, hshort.2, hwords, if_neg hvne, scan_short hlen, scan,
            if_pos (by simp), harg]
        | some r =>
          obtain ⟨a, rest⟩ := r
          obtain ⟨taken, caps, hvtaken, hsome, hcaps⟩ := hT.some (pre ++ (flag ++ b)) v t hv ht a rest harg
          obtain ⟨vals, hvals, hR⟩ := hcaps pre.length
          rw [htext, hplace] at hsome hvals
          have hrest : ∀ y ∈ rest, nonBlank.test y = true := fun y hy => hv y (hvtaken ▸ List.mem_append_right taken hy)
          have hfuel : (rest ++ t).length < fuel := by
            have hl := congrArg List.length hsplit
            have hflen : 0 < flag.length := List.length_pos_iff.mpr hne
            simp only [hvtaken, List.length_cons, List.length_append] at hl hf ⊢
            omega
          obtain ⟨ms, hms, hall⟩ := gmatchFrom_scan hfs hne hflag hT fuel (pre ++ (flag ++ b) ++ taken)
            (rest ++ t) hfuel
          have hend : pre ++ (flag ++ b) ++ taken ++ (rest ++ t) = pre ++ (flag ++ (b ++ (v ++ t))) := by simp [hvtaken]
          rw [hend, List.length_append, hplace] at hms
          refine ⟨vals :: ms, ?_, ?_⟩
          · rw [hsplit, gmatchFrom, if_neg (by simp), hmatch, hsome]
            have hmoved : pre.length + flag.length + b.length + taken.length ≠ pre.length := by
              have hflen : 0 < flag.length := List.length_pos_iff.mpr hne
              omega
            simp only [bind, Except.bind, hvals, if_neg hmoved, hms]
            rfl
          · obtain ⟨htake, hdropt⟩ := scan_text hrest ht
            rw [scanText, htake, hdropt] at hall
            rw [scanText, hword, hdrop, hwords, if_neg hvne, scan, if_pos (by simp), harg]
            exact .cons hR hall
    · exact hskip (doMatch_flag_ne hfs hflag hT pre hword) (scanText_cons hne hword)

/-- **The matches of a pattern that begins with a flag and blanks.** -/
theorem gmatch_scan {pat : Str} (hpat : compile pat = fs.map (.single · .one) ++ .single blank .plus :: T)
    (hfs : Spells fs flag) (hne : flag ≠ []) (hflag : ∀ x ∈ flag, nonBlank.test x = true) (hT : Reads T arg R)
      (s : Str) :
    ∃ ms, gmatch s pat = .ok ms ∧ List.Forall₂ R (scan flag arg [] (words nonBlank s)) ms := by
  have hscan : scan flag arg [] (words nonBlank s) = scanText flag arg s := by
    rw [words_split s]
    split
    next h => rw [scanText, h]
    next h => exact scan_short (by simpa using List.length_pos_iff.mpr hne) _ _
  rw [hscan, gmatch, hpat]
  exact gmatchFrom_scan hfs hne hflag hT (s.length + 1) [] s (Nat.lt_succ_self _)

end Flag

/-! ## Arguments -/

/-- A word that begins with `lits` and goes on with a run of `c`: the run, and the rest of the word. -/
def argSplit (lits : Str) (c : Single) (v : Str) : Option (Str × Str) :=
  if lits.isPrefixOf v then
    match (v.drop lits.length).takeWhile c.test with
    | [] => none
    | a => some (a, (v.drop lits.length).dropWhile c.test)
  else none

/-- A word that begins with `lits`. -/
def litsSplit (lits : Str) (v : Str) : Option (Unit × Str) :=
  if lits.isPrefixOf v then some ((), v.drop lits.length) else none

section Arguments

variable {ls : List Single} {lits : Str} {c : Single}

/-- Characters that are not blank stand at the front of a word, or nowhere in front of it. -/
theorem prefix_word {v t : Str} (hlits : ∀ x ∈ lits, nonBlank.test x = true)
    (ht : ∀ x, t.head? = some x → isspace x = true) : lits <+: v ++ t ↔ lits <+: v := by
  refine ⟨fun h => ?_, fun h => h.trans (List.prefix_append _ _)⟩
  rcases List.prefix_or_prefix_of_prefix h (List.prefix_append v t) with h' | ⟨r, rfl⟩
  · exact h'
  · cases r with
    | nil => simp
    | cons x r =>
      have hhead : t.head? = some x := by
        obtain ⟨r', hr'⟩ := (List.prefix_append_right_inj v).mp h
        rw [← hr']
        rfl
      have hx := hlits x (by simp)
      rw [nonBlank_test, ht x hhead] at hx
      cases hx

theorem reads_lits (hls : Spells ls lits) (hlits : ∀ x ∈ lits, nonBlank.test x = true) (hne : lits ≠ []) :
    Reads (ls.map (.single · .one)) (litsSplit lits) fun _ _ => True where
  blank pre suf hsuf := by
    have h : ¬lits <+: suf := (@prefix_word lits [] suf hlits hsuf).not.mpr (by simpa using hne)
    have hspells := @doMatch_spells [] [] ls lits hls pre suf
    rw [List.append_nil] at hspells
    rw [hspells, if_neg h]
  none pre v t _ ht harg := by
    have hspells := @doMatch_spells [] [] ls lits hls pre (v ++ t)
    rw [List.append_nil] at hspells
    rw [hspells, if_neg]
    rw [prefix_word hlits ht, ← List.isPrefixOf_iff_prefix]
    intro hpre
    simp [litsSplit, hpre] at harg
  some pre v t _ ht a rest harg := by
    have hpre : lits.isPrefixOf v = true := by
      by_contra hno
      simp [litsSplit, hno] at harg
    obtain ⟨r, rfl⟩ := List.isPrefixOf_iff_prefix.mp hpre
    obtain rfl : r = rest := by simpa [litsSplit] using harg
    have hspells := @doMatch_spells [] [] ls lits hls pre (lits ++ r ++ t)
    rw [List.append_nil, if_pos (by simp), doMatch] at hspells
    exact ⟨lits, [], rfl, hspells, fun s => ⟨_, rfl, trivial⟩⟩

theorem reads_arg (hls : Spells ls lits) (hlits : ∀ x ∈ lits, nonBlank.test x = true)
    (hc : ∀ x, isspace x = true → c.test x = false) :
    Reads (ls.map (.single · .one) ++ [.capOpen, .single c .plus, .capClose]) (argSplit lits c)
      fun a vals => vals = [.str a] where
  blank pre suf hsuf := by
    rw [doMatch_spells hls]
    split
    next hpre =>
      have hnil : lits = [] := by simpa using (@prefix_word lits [] suf hlits hsuf).mp hpre
      have hrun : suf.takeWhile c.test = [] := by
        cases suf with
        | nil => rfl
        | cons x suf => exact List.takeWhile_cons_of_neg (by simp [hc x (hsuf x rfl)])
      rw [doMatch, if_neg (by simp), hnil, List.length_nil, Nat.add_zero, doMatch_single_plus, runLength_append, hrun]
      rfl
    next => rfl
  none pre v t hv ht harg := by
    rw [doMatch_spells hls]
    split
    next hpre =>
      obtain ⟨r, rfl⟩ := (prefix_word hlits ht).mp hpre
      have hrun : (r ++ t).takeWhile c.test = [] := by
        cases r with
        | nil =>
          cases t with
          | nil => rfl
          | cons x t => exact List.takeWhile_cons_of_neg (by simp [hc x (ht x rfl)])
        | cons x r =>
          refine List.takeWhile_cons_of_neg fun hx => ?_
          simp [argSplit, List.takeWhile_cons_of_pos hx] at harg
      have hplus := runLength_append (pre ++ lits) (r ++ t) c
      rw [hrun, List.append_assoc, List.length_append, ← List.append_assoc lits] at hplus
      rw [doMatch, if_neg (by simp), doMatch_single_plus, hplus]
      rfl
    next => rfl
  some pre v t hv ht a rest harg := by
    have hpre : lits.isPrefixOf v = true := by
      by_contra hno
      simp [argSplit, hno] at harg
    obtain ⟨r, rfl⟩ := List.isPrefixOf_iff_prefix.mp hpre
    have hsplit : r = a ++ rest ∧ a ≠ [] ∧ (∀ x ∈ a, c.test x = true) ∧
        ∀ x, rest.head? = some x → c.test x = false := by
      simp only [argSplit, List.drop_left, hpre, if_true] at harg
      split at harg
      · cases harg
      next hne =>
        cases harg
        refine ⟨List.takeWhile_append_dropWhile.symm, hne, fun x hx => List.all_eq_true.mp List.all_takeWhile x hx,
          fun x hx => ?_⟩
        have hnot := List.head?_dropWhile_not c.test r
        rw [hx] at hnot
        simpa using hnot
    obtain ⟨rfl, hne, ha, hrest⟩ := hsplit
    have hend : ∀ x, (rest ++ t).head? = some x → c.test x = false := by
      intro x hx
      cases rest with
      | nil => exact hc x (ht x hx)
      | cons y rest => exact hrest x hx
    have hcaps := capValues_closed (pre ++ lits) a (rest ++ t)
    have hrun : doMatch (pre ++ lits ++ (a ++ (rest ++ t))) (.single c .plus :: [.capClose]) (pre ++ lits).length
        [.opened (pre ++ lits).length] =
        .ok (some ((pre ++ lits).length + a.length, [.closed (pre ++ lits).length a.length])) := by
      refine doMatch_run hne ha hend ?_ (by simp)
      simp [doMatch, closeLast]
    have htext : pre ++ lits ++ (a ++ (rest ++ t)) = pre ++ (lits ++ (a ++ rest) ++ t) := by simp
    rw [htext] at hrun hcaps
    refine ⟨lits ++ a, [.closed (pre ++ lits).length a.length], by simp, ?_, fun s => ⟨_, hcaps s _, rfl⟩⟩
    rw [doMatch_spells hls, if_pos (by simp), doMatch, if_neg (by simp), ← List.length_append]
    rw [List.nil_append, hrun, List.length_append, List.length_append, Nat.add_assoc]

/-- The arguments of a flag in a list of words. -/
def flagArgs (flag lits : Str) (c : Single) (ws : List Str) : List Str := scan flag (argSplit lits c) [] ws

/-- A flag is followed by a word that begins with `lits`. -/
def hasFlag (flag lits : Str) (ws : List Str) : Bool := !(scan flag (litsSplit lits) [] ws).isEmpty

variable {fs : List Single} {flag pat : Str}

/-- **The captured arguments of a flag.** -/
theorem gmatch_flag (hpat : compile pat = fs.map (.single · .one) ++ .single blank .plus ::
      (ls.map (.single · .one) ++ [.capOpen, .single c .plus, .capClose]))
    (hfs : Spells fs flag) (hne : flag ≠ []) (hflag : ∀ x ∈ flag, nonBlank.test x = true) (hls : Spells ls lits)
    (hlits : ∀ x ∈ lits, nonBlank.test x = true) (hc : ∀ x, isspace x = true → c.test x = false) (s : Str) :
    gmatch s pat = .ok ((flagArgs flag lits c (words nonBlank s)).map fun a => [.str a]) := by
  obtain ⟨ms, hms, hall⟩ := gmatch_scan hpat hfs hne hflag (reads_arg hls hlits hc) s
  rw [hms, flagArgs]
  congr 1
  clear hms
  generalize scan flag (argSplit lits c) [] (words nonBlank s) = args at hall
  induction hall with
  | nil => rfl
  | cons h _ ih => rw [List.map_cons, ih, h]

/-- **A flag before a word that is not captured.** -/
theorem gmatch_flag_lits (hpat : compile pat = fs.map (.single · .one) ++ .single blank .plus :: ls.map
    (.single · .one))
    (hfs : Spells fs flag) (hne : flag ≠ []) (hflag : ∀ x ∈ flag, nonBlank.test x = true) (hls : Spells ls lits)
    (hlits : ∀ x ∈ lits, nonBlank.test x = true) (hlne : lits ≠ []) (s : Str) :
    ∃ ms, gmatch s pat = .ok ms ∧ ms.isEmpty = !hasFlag flag lits (words nonBlank s) := by
  obtain ⟨ms, hms, hall⟩ := gmatch_scan hpat hfs hne hflag (reads_lits hls hlits hlne) s
  refine ⟨ms, hms, ?_⟩
  rw [hasFlag, Bool.not_not]
  generalize scan flag (litsSplit lits) [] (words nonBlank s) = found at hall
  cases hall with
  | nil => rfl
  | cons _ _ => rfl

/-- The argument of a flag that is the first word of a text. -/
def firstArg (flag lits : Str) (c : Single) (s : Str) : Option Str :=
  if s.takeWhile nonBlank.test = flag then
    (words nonBlank (s.dropWhile nonBlank.test)).head?.bind fun v => (argSplit lits c v).map Prod.fst
  else none

/-- **The captured argument of a flag at the front of the text.** -/
theorem strMatch_flag (hpat : compile pat = fs.map (.single · .one) ++ .single blank .plus ::
      (ls.map (.single · .one) ++ [.capOpen, .single c .plus, .capClose]))
    (hfs : Spells fs flag) (hflag : ∀ x ∈ flag, nonBlank.test x = true) (hls : Spells ls lits)
    (hlits : ∀ x ∈ lits, nonBlank.test x = true) (hc : ∀ x, isspace x = true → c.test x = false) (s : Str) :
    strMatch s ('^' :: pat) = .ok ((firstArg flag lits c s).map fun a => [.str a]) := by
  have hT := reads_arg hls hlits hc
  have hnone : doMatch ([] ++ s) (compile pat) ([] : Str).length [] = .ok none → firstArg flag lits c s = none →
      strMatch s ('^' :: pat) = .ok ((firstArg flag lits c s).map fun a => [.str a]) := by
    intro hmatch hfirst
    rw [List.nil_append, List.length_nil] at hmatch
    simp only [strMatch, search, hmatch, bind, Except.bind, hfirst]
    rfl
  by_cases hword : s.takeWhile nonBlank.test = flag
  · obtain ⟨b, v, t, hsplit, hdrop, hbnil, hb, hvnil, hv, ht⟩ := word_split s
    rw [hword] at hsplit
    have hwords : (words nonBlank (b ++ (v ++ t))).head? = if v = [] then none else some v := by
      rw [words_blanks _ hb]
      split
      next h => rw [h, hvnil h]; rfl
      next h => rw [words_append h hv fun y hy => by simp [ht y hy]]; rfl
    have hfirst : firstArg flag lits c s = if v = [] then none else (argSplit lits c v).map Prod.fst := by
      rw [firstArg, if_pos hword, hdrop, hwords]
      split <;> rfl
    by_cases hvne : v = []
    · refine hnone ?_ (by rw [hfirst, if_pos hvne])
      rw [hvne, hvnil hvne, List.append_nil, List.append_nil] at hsplit
      rw [hsplit, hpat]
      exact doMatch_flag_end hfs hT [] hb
    · have hbne : b ≠ [] := fun h => hvne (hbnil h).1
      have hvhead : ∀ y, (v ++ t).head? = some y → isspace y = false := by
        intro y hy
        cases v with
        | nil => exact absurd rfl hvne
        | cons z v =>
          obtain rfl : z = y := by simpa using hy
          simpa using hv z List.mem_cons_self
      have hmatch := doMatch_flag_eq hfs hT [] hbne hb hvhead
      have htext : flag ++ b ++ (v ++ t) = flag ++ (b ++ (v ++ t)) := List.append_assoc _ _ _
      cases harg : argSplit lits c v with
      | none =>
        have h := hT.none (flag ++ b) v t hv ht harg
        rw [htext, List.length_append] at h
        refine hnone ?_ (by rw [hfirst, if_neg hvne, harg]; rfl)
        rw [hsplit, hpat, hmatch, List.length_nil, Nat.zero_add]
        exact h
      | some r =>
        obtain ⟨a, rest⟩ := r
        obtain ⟨taken, caps, -, hsome, hcaps⟩ := hT.some (flag ++ b) v t hv ht a rest harg
        obtain ⟨vals, hvals, rfl⟩ := hcaps 0
        rw [htext, List.length_append] at hsome hvals
        rw [List.length_nil, Nat.zero_add, List.nil_append, hsome, ← hsplit, ← hpat] at hmatch
        rw [← hsplit] at hvals
        rw [hfirst, if_neg hvne, harg]
        simp only [strMatch, search, hmatch, bind, Except.bind, hvals]
        rfl
  · refine hnone ?_ (by rw [firstArg, if_neg hword])
    rw [hpat]
    exact doMatch_flag_ne hfs hflag hT [] hword

end Arguments

/-! ## A loop that may end early -/

theorem gmatchAnyFrom_of_gmatchFrom {src : Str} {is : List Item} {found : List Value → Bool} : ∀ {fuel s : Nat}
    {ms : List (List Value)}, gmatchFrom src is fuel s = .ok ms → gmatchAnyFrom src is found fuel s = .ok (ms.any found)
  | 0, _, _, h => by
    cases h
    rfl
  | fuel + 1, s, ms, h => by
    unfold gmatchFrom at h
    unfold gmatchAnyFrom
    split at h
    next hlt =>
      cases h
      rw [if_pos hlt]
      rfl
    next hlt =>
      rw [if_neg hlt]
      cases hmatch : doMatch src is s [] with
      | error e =>
        rw [hmatch] at h
        cases h
      | ok r =>
        rw [hmatch] at h
        cases r with
        | none => exact gmatchAnyFrom_of_gmatchFrom h
        | some r =>
          obtain ⟨e, caps⟩ := r
          obtain ⟨v, hv, h⟩ := bind_ok.mp (show (capValues src s e caps >>= fun v =>
            gmatchFrom src is fuel (if e = s then s + 1 else e) >>= fun rest => pure (v :: rest)) = .ok ms from h)
          obtain ⟨rest, hrest, h⟩ := bind_ok.mp h
          cases h
          simp only [bind, Except.bind, hv, List.any_cons]
          cases hfound : found v with
          | true => rfl
          | false => exact gmatchAnyFrom_of_gmatchFrom hrest

/-- A loop over all matches that returns at the first one it looks for. -/
theorem gmatchAny_of_gmatch {s pat : Str} {ms : List (List Value)} (found : List Value → Bool)
    (h : gmatch s pat = .ok ms) : gmatchAny s pat found = .ok (ms.any found) := gmatchAnyFrom_of_gmatchFrom h

/-! ## Text that stands for itself -/

/-- The characters with a meaning in a pattern. -/
def magic : List Char := ['^', '$', '(', ')', '%', '.', '[', ']', '*', '+', '-', '?']

/-- A text without such characters. -/
def Plain (s : Str) : Prop := ∀ x ∈ s, x ∉ magic

theorem readQuant_plain {c : Char} (hc : c ∉ magic) (r : Str) : readQuant (c :: r) = (.one, c :: r) := by
  unfold readQuant
  split
  case h_5 => rfl
  all_goals
    next heq =>
      obtain ⟨rfl, _⟩ := List.cons.inj heq
      exact absurd (by decide) hc

theorem readItem_plain {c : Char} (hc : c ∉ magic) (r : Str) :
    readItem (c :: r) = (.single (.lit c) (readQuant r).1, some (readQuant r).2) := by
  unfold readItem
  split
  case h_13 heq =>
    obtain ⟨rfl, rfl⟩ := List.cons.inj heq
    rfl
  case h_14 heq => cases heq
  all_goals
    next heq =>
      obtain ⟨rfl, _⟩ := List.cons.inj heq
      exact absurd (by decide) hc

theorem readItems_plain {rest : Str} (hrest : readQuant rest = (.one, rest)) (n : Nat) : ∀ {xs : Str}, Plain xs →
    readItems (xs.length + n) (xs ++ rest) = xs.map (fun x => .single (.lit x) .one) ++ readItems n rest
  | [], _ => by simp
  | x :: xs, hxs => by
    have hquant : readQuant (xs ++ rest) = (.one, xs ++ rest) := by
      cases xs with
      | nil => exact hrest
      | cons y xs => exact readQuant_plain (hxs y (by simp)) _
    have ih := @readItems_plain rest hrest n xs fun y hy => hxs y (List.mem_cons_of_mem x hy)
    have hfuel : (x :: xs).length + n = xs.length + n + 1 := Nat.succ_add _ _
    rw [hfuel, List.cons_append, readItems, readItem_plain (hxs x List.mem_cons_self), hquant, List.map_cons,
      List.cons_append, ← ih]
    simp

end Lua
