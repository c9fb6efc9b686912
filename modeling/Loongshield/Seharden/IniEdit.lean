import Loongshield.Seharden.KeyValueEdit

/-!
# `set_ini_key_value` and its reader

`file.set_ini_key_value` changes one assignment in a section; `key_value_file.lua` reads the section.

- `strMatch_iniHeader`, `strMatch_iniKey`: the lines that the two patterns of the editor take;
- `editIni_edited`: an edit keeps the lines, replaces the first assignment, adds a line to the section, or appends it;
- `ini_set_read`: what the reader makes of the new lines.
-/

namespace Seharden
namespace KeyValueFile

open Lua Pattern

/-! ## The patterns of the editor -/

theorem rdropWhile_cons {x : Char} (hx : isspace x = false) (u : Str) :
    (x :: u).rdropWhile isspace = x :: u.rdropWhile isspace := by
  by_cases hu : u.rdropWhile isspace = []
  · have hall : ∀ y ∈ u, isspace y = true := List.rdropWhile_eq_nil_iff.mp hu
    rw [hu]
    exact (rdropWhile_append_blanks [x] hall).trans (rdropWhile_word fun y hy => by
      rw [List.mem_singleton.mp hy]; exact hx)
  · exact rdropWhile_append_of_ne hu [x]

/-- The section that a line begins. -/
def headerOf (line : Str) : Option Str := headerName (trim line)

theorem headerName_eq_some_iff {t name : Str} : headerName t = some name ↔
    t = '[' :: (name ++ "]".toList) ∧ name ≠ [] ∧ ']' ∉ name := by
  have hno : ∀ u : Str, ']' ∉ u.takeWhile (· != ']') := by
    intro u hmem
    simpa using List.mem_takeWhile_imp hmem
  constructor
  · intro h
    unfold headerName at h
    split at h
    · next u =>
      split at h
      · next hsplit =>
        cases h
        refine ⟨?_, hsplit.1, hno u⟩
        rw [← hsplit.2, List.takeWhile_append_dropWhile]
      · cases h
    · cases h
  · rintro ⟨rfl, hne, hmem⟩
    have hname : ∀ x ∈ name, (x != ']') = true := fun x hx => by
      rw [bne_iff_ne]
      exact fun heq => hmem (heq ▸ hx)
    have htake : (name ++ "]".toList).takeWhile (· != ']') = name := by
      rw [List.takeWhile_append_of_pos hname]
      exact List.append_nil name
    have hdrop : (name ++ "]".toList).dropWhile (· != ']') = "]".toList := by
      rw [List.dropWhile_append_of_pos hname]
      rfl
    rw [headerName, htake, hdrop, if_pos ⟨hne, rfl⟩]

/-- The items behind the bracket. -/
def bracketItems : List Pattern.Item := [.single (.cls ']') .one, .single blank .star, .atEnd]

theorem matchRest_bracket (r : Str) (segs : List Seg) : matchRest bracketItems r segs =
    if trim r = "]".toList ∧ r.head? = some ']' then some ([], segs) else none := by
  cases r with
  | nil => rfl
  | cons x r =>
    rw [bracketItems, matchRest, cls_test_magic (by decide), matchRest_blanks_end, List.head?_cons]
    by_cases hx : ']' = x
    · subst hx
      have htrim : trim (']' :: r) = ']' :: r.rdropWhile isspace := by
        rw [trim_eq, List.dropWhile_cons_of_neg (by decide), rdropWhile_cons (by decide)]
      have hnil : r.rdropWhile isspace = [] ↔ r.all isspace = true := by
        rw [List.rdropWhile_eq_nil_iff, List.all_eq_true]
      rw [if_pos (by rfl), htrim]
      by_cases hall : r.all isspace = true
      · rw [if_pos hall, hnil.mpr hall, if_pos ⟨rfl, rfl⟩]
      · rw [if_neg hall, if_neg fun h => hall (hnil.mp (List.cons.inj h.1).2)]
    · rw [if_neg (by simpa using hx), if_neg fun h => hx (Option.some.inj h.2).symm]

theorem bracket_none {x : Char} (r : Str) (segs : List Seg) (hx : nameClass.test x = true) :
    matchRest bracketItems (x :: r) segs = none := by
  rw [nameClass_test, bne_iff_ne] at hx
  rw [matchRest_bracket, if_neg fun h => hx (Option.some.inj h.2)]

/-- The items of the pattern for a header. -/
def iniHeaderItems : List Pattern.Item :=
  .single blank .star :: .single (.cls '[') .one :: .capOpen :: .single nameClass .plus :: .capClose :: bracketItems

theorem compile_iniHeader : compile "%s*%[([^%]]+)%]%s*$" = iniHeaderItems := rfl

theorem matchRest_iniHeader (line : Str) : (matchRest iniHeaderItems line []).map (fun p => texts line p.1 p.2) =
    (headerOf line).map fun name => [name] := by
  have hfirst : ∀ x r, blank.test x = true → matchRest (.single
    (.cls '[') .one :: .capOpen :: .single nameClass .plus ::
      .capClose :: bracketItems) (x :: r) [] = none := by
    intro x r hx
    rw [matchRest, cls_test_magic (by decide), if_neg]
    intro heq
    rw [← beq_iff_eq.mp heq] at hx
    exact absurd hx (by decide)
  have hlong := @longest_eq blank _ (fun r => matchRest
    (.single (.cls '[') .one :: .capOpen :: .single nameClass .plus ::
    .capClose :: bracketItems) r []) hfirst line
  rw [iniHeaderItems, matchRest, hlong, headerOf, trim_eq]
  change (matchRest _ (line.dropWhile isspace) []).map _ = _
  cases hdrop : line.dropWhile isspace with
  | nil => rfl
  | cons x u =>
    have hx : isspace x = false := by
      have hhead := List.head?_dropWhile_not isspace line
      rw [hdrop] at hhead
      simpa using hhead
    rw [rdropWhile_cons hx, matchRest, cls_test_magic (by decide)]
    by_cases hopen : '[' = x
    · subst hopen
      have hfun : nameClass.test = (· != ']') := funext nameClass_test
      rw [if_pos (by rfl), matchRest_capRun fun x r segs hx => bracket_none r segs hx, hfun, matchRest_bracket]
      have hsplit := @List.takeWhile_append_dropWhile _ (· != ']') u
      cases hrest : u.dropWhile (· != ']') with
      | nil =>
        have hno : headerName ('[' :: u.rdropWhile isspace) = none := by
          rw [Option.eq_none_iff_forall_ne_some]
          intro name hname
          have hmem : ']' ∈ u := by
            refine (List.rdropWhile_prefix isspace u).subset ?_
            rw [(List.cons.inj (headerName_eq_some_iff.mp hname).1).2]
            simp
          rw [List.dropWhile_eq_nil_iff] at hrest
          exact absurd (hrest _ hmem) (by decide)
        rw [hno]
        split
        · rfl
        · rw [if_neg fun h => by cases h.2]
          rfl
      | cons y r =>
        obtain rfl : y = ']' := by
          have hhead := List.head?_dropWhile_not (· != ']') u
          rw [hrest] at hhead
          simpa using hhead
        have hend : (']' :: r).rdropWhile isspace = ']' :: r.rdropWhile isspace := rdropWhile_cons (by decide) r
        have hu : u.rdropWhile isspace = u.takeWhile (· != ']') ++ ']' :: r.rdropWhile isspace := by
          conv_lhs => rw [← hsplit, hrest]
          rw [rdropWhile_append_of_ne (by rw [hend]; exact List.cons_ne_nil _ _), hend]
        have hin : ∀ x ∈ u.takeWhile (· != ']'), (x != ']') = true := fun x hx => by
          simpa using List.mem_takeWhile_imp hx
        have htake : (u.rdropWhile isspace).takeWhile (· != ']') = u.takeWhile (· != ']') := by
          rw [hu, List.takeWhile_append_of_pos hin, List.takeWhile_cons_of_neg (by simp), List.append_nil]
        have hdrop : (u.rdropWhile isspace).dropWhile (· != ']') = ']' :: r.rdropWhile isspace := by
          rw [hu, List.dropWhile_append_of_pos hin, List.dropWhile_cons_of_neg (by simp)]
        have htrim : trim (']' :: r) = ']' :: r.rdropWhile isspace := by
          rw [trim_eq, List.dropWhile_cons_of_neg (by decide), hend]
        rw [headerName, htake, hdrop, htrim]
        by_cases hne : u.takeWhile (· != ']') = []
        · rw [if_pos hne, if_neg fun h => h.1 hne]
          rfl
        · rw [if_neg hne]
          by_cases hclose : ']' :: r.rdropWhile isspace = "]".toList
          · rw [if_pos ⟨hclose, rfl⟩, if_pos ⟨hne, hclose⟩]
            simp only [Option.map_some, texts, List.isEmpty_cons, Bool.false_eq_true, if_false, List.map_cons,
              List.map_nil,
              Seg.text, Option.getD_some, take_length_takeWhile]
          · rw [if_neg fun h => hclose h.1, if_neg fun h => hclose h.2]
            rfl
    · rw [if_neg (by simpa using hopen), headerName_of_ne hopen]
      rfl

theorem strMatch_iniHeader (line : Str) : strMatch line "^%s*%[([^%]]+)%]%s*$" =
    .ok ((headerOf line).map fun name => [.str name]) := by
  have hmatch : strMatch line "^%s*%[([^%]]+)%]%s*$" = .ok ((matchRest iniHeaderItems line []).map fun p =>
      (texts line p.1 p.2).map .str) := strMatch_anchored rfl compile_iniHeader rfl line
  have hmap := congrArg (Option.map (List.map Value.str)) (matchRest_iniHeader line)
  rw [Option.map_map, Option.map_map] at hmap
  rw [hmatch]
  exact congrArg Except.ok hmap

/-- The items of the pattern for a key. -/
def iniKeyItems (key : Str) : List Pattern.Item :=
  .single blank .star :: ((spelling key).map (.single · .one) ++ .single blank .star :: .single
    (.lit '=') .one :: trimItems)

theorem compile_iniKey (key : Str) : compile ("%s*" ++ escaped key ++ "%s*=%s*(.-)%s*$") = iniKeyItems key := by
  have hunq : Unquantified "%s*=%s*(.-)%s*$" := by
    intro x hx
    obtain rfl : '%' = x := Option.some.inj hx
    decide
  have hescaped := compile_escaped key hunq
  rw [show compile "%s*=%s*(.-)%s*$" = .single blank .star :: .single (.lit '=') .one :: trimItems from rfl] at hescaped
  rw [iniKeyItems, ← hescaped, List.append_assoc]
  exact compile_cons rfl (List.cons_ne_nil _ _)

/-- **What the pattern for a key captures** is what the one of `set_key_value` captures. -/
theorem strMatch_iniKey {key : Str} (hkey : IsKey key) (line : Str) :
    strMatch line ("^%s*" ++ escaped key ++ "%s*=%s*(.-)%s*$") =
      .ok ((captured key '=' line).map fun v => [.str v]) := by
  have hsame : ∀ (r : Str) (segs : List Seg), matchRest (.single (.lit '=') .one :: trimItems) r segs =
      matchRest (.single (.cls '=') .one :: trimItems) r segs := by
    intro r segs
    cases r <;> rfl
  have hitems : matchRest (iniKeyItems key) line [] = matchRest (setItems key '=') line [] := by
    have hrest : ∀ (r : Str) (segs : List Seg), matchRest
      (.single blank .star :: .single (.lit '=') .one :: trimItems) r segs =
        matchRest (.single blank .star :: .single (.cls '=') .one :: trimItems) r segs := by
      intro r segs
      rw [matchRest, matchRest]
      exact congrArg (longest blank · r) (funext fun u => hsame u segs)
    rw [iniKeyItems, setItems, matchRest, matchRest]
    refine congrArg (longest blank · line) (funext fun u => ?_)
    rw [matchRest_spells (spells_spelling key), matchRest_spells (spells_spelling key), hrest]
  have hset := strMatch_keyValue hkey (.inl rfl : IsSep '=') line
  rw [strMatch_anchored rfl (compile_set key (.inl rfl)) (simple_spelling key rfl) line] at hset
  have hmatch : strMatch line ("^%s*" ++ escaped key ++ "%s*=%s*(.-)%s*$") =
      .ok ((matchRest (iniKeyItems key) line []).map fun p => (texts line p.1 p.2).map .str) :=
    strMatch_anchored rfl (compile_iniKey key) (simple_spelling key rfl) line
  rw [hmatch, hitems]
  exact hset

/-! ## The edit -/

/-- The section that lines end in. -/
def sectionAfter (current : Option Str) (lines : List Str) : Option Str :=
  lines.foldl (fun current line => (headerOf line).or current) current

/-- No line in the section gives a value to the key. -/
def Unset (sec key : Str) : Option Str → List Str → Prop
  | _, [] => True
  | current, line :: lines => (headerOf line = none → current = some sec → captured key '=' line = none) ∧
      Unset sec key ((headerOf line).or current) lines

theorem unset_append (sec key : Str) : ∀ (current : Option Str) (a b : List Str), Unset sec key current (a ++ b) ↔
    Unset sec key current a ∧ Unset sec key (sectionAfter current a) b
  | _, [], _ => (and_iff_right trivial).symm
  | current, line :: a, b => by
    rw [List.cons_append, Unset, Unset, unset_append sec key _ a b, and_assoc]
    rfl

section Edit

variable {sec key value : Str}

/-- What the loop has before the key is found. -/
structure Scanned (sec key : Str) (st : IniState) : Prop where
  found : st.keyFound = false
  updated : st.keyUpdated = false
  target : st.inTargetSection = decide (sectionAfter none st.lines = some sec)
  unset : Unset sec key none st.lines
  place : st.inTargetSection = false → ∀ i, st.insertIndex = some i → ∃ a b, st.lines = a ++ b ∧ i = a.length + 1 ∧
    sectionAfter none a = some sec ∧ (∃ line rest, b = line :: rest ∧ (headerOf line).isSome = true) ∧
      ∀ line ∈ b, headerOf line ≠ some sec
  absent : st.inTargetSection = false → st.insertIndex = none → ∀ line ∈ st.lines, headerOf line ≠ some sec

theorem sectionAfter_concat (lines : List Str) (line : Str) :
    sectionAfter none (lines ++ [line]) = (headerOf line).or (sectionAfter none lines) := by
  rw [sectionAfter, List.foldl_append]
  rfl

theorem unset_concat {lines : List Str} {line : Str} (h : Unset sec key none lines)
    (hline : headerOf line = none → sectionAfter none lines = some sec → captured key '=' line = none) :
    Unset sec key none (lines ++ [line]) := (unset_append sec key none lines [line]).mpr ⟨h, hline, trivial⟩

/-- Lines with an assignment in the section give the key a value. -/
theorem not_unset {pre post : List Str} {line v : Str} (hsec : sectionAfter none pre = some sec)
    (hline : headerOf line = none) (hcapt : captured key '=' line = some v) :
    ¬ Unset sec key none (pre ++ line :: post) := by
  intro hunset
  have hnone := ((unset_append sec key none pre (line :: post)).mp hunset).2.1 hline hsec
  rw [hnone] at hcapt
  cases hcapt

/-- A header. -/
theorem Scanned.header {st : IniState} (h : Scanned sec key st) {line name : Str} (hline : headerOf line = some name) :
    Scanned sec key { st with
      lines := st.lines ++ [line]
      insertIndex := if st.inTargetSection && !st.keyFound then some (st.lines.length + 1) else st.insertIndex
      inTargetSection := Value.rawEq (.str name) (.str sec) } := by
  have hraw : Value.rawEq (.str name) (.str sec) = decide (name = sec) := by
    rw [Bool.eq_iff_iff, Value.rawEq_str, decide_eq_true_eq, Value.str.injEq]
  have hother : decide (name = sec) = false → headerOf line ≠ some sec := by
    intro hname heq
    rw [hline] at heq
    exact (decide_eq_false_iff_not.mp hname) (Option.some.inj heq)
  rw [hraw, h.found, Bool.not_false, Bool.and_true]
  refine ⟨rfl, h.updated, ?_, unset_concat h.unset fun hnone => ?_, fun hname i hi => ?_, fun hname hi => ?_⟩
  · rw [sectionAfter_concat, hline, Option.some_or]
    simp only [Option.some.injEq]
  · rw [hline] at hnone
    cases hnone
  · cases htarget : st.inTargetSection with
    | true =>
      rw [htarget, if_pos rfl] at hi
      refine ⟨st.lines, [line], rfl, (Option.some.inj hi).symm, ?_, ⟨line, [], rfl, by rw [hline]; rfl⟩, ?_⟩
      · rw [h.target] at htarget
        exact of_decide_eq_true htarget
      · intro l hl
        rw [List.mem_singleton.mp hl]
        exact hother hname
    | false =>
      rw [htarget, if_neg Bool.false_ne_true] at hi
      obtain ⟨a, b, hlines, hlen, hsec, ⟨l, rest, rfl, hl⟩, hb⟩ := h.place htarget i hi
      refine ⟨a, l :: rest ++ [line], ?_, hlen, hsec, ⟨l, rest ++ [line], rfl, hl⟩, fun x hx => ?_⟩
      · rw [← List.append_assoc, ← hlines]
      · rcases List.mem_append.mp hx with hx | hx
        · exact hb x hx
        · rw [List.mem_singleton.mp hx]
          exact hother hname
  · cases htarget : st.inTargetSection with
    | true =>
      rw [htarget, if_pos rfl] at hi
      cases hi
    | false =>
      rw [htarget, if_neg Bool.false_ne_true] at hi
      intro l hl
      rcases List.mem_append.mp hl with hl | hl
      · exact h.absent htarget hi l hl
      · rw [List.mem_singleton.mp hl]
        exact hother hname

/-- Another line, without the key. -/
theorem Scanned.plain {st : IniState} (h : Scanned sec key st) {line : Str} (hline : headerOf line = none)
    (hcapt : st.inTargetSection = true → captured key '=' line = none) :
    Scanned sec key { st with lines := st.lines ++ [line] } := by
  have hne : headerOf line ≠ some sec := by
    rw [hline]
    exact (Option.some_ne_none sec).symm
  refine ⟨h.found, h.updated, ?_, unset_concat h.unset fun _ hsec => hcapt ?_, fun htarget i hi => ?_,
    fun htarget hi => ?_⟩
  · rw [sectionAfter_concat, hline]
    exact h.target
  · rw [h.target]
    exact decide_eq_true hsec
  · obtain ⟨a, b, hlines, hlen, hsec, ⟨l, rest, rfl, hl⟩, hb⟩ := h.place htarget i hi
    refine ⟨a, l :: rest ++ [line], ?_, hlen, hsec, ⟨l, rest ++ [line], rfl, hl⟩, fun x hx => ?_⟩
    · rw [← List.append_assoc, ← hlines]
    · rcases List.mem_append.mp hx with hx | hx
      · exact hb x hx
      · rw [List.mem_singleton.mp hx]
        exact hne
  · intro l hl
    rcases List.mem_append.mp hl with hl | hl
    · exact h.absent htarget hi l hl
    · rw [List.mem_singleton.mp hl]
      exact hne

/-- The line of the key. -/
def iniLine (key value : Str) : Str := key ++ "=" ++ value

/-- Once the key is found, the lines are kept. -/
theorem iniLoop_found (section_ : Value) (keyPattern newLine value : Str) : ∀ (lines : List Str) (st : IniState),
    st.keyFound = true → ∃ st', iniLoop section_ keyPattern newLine value lines st = .ok (some st') ∧
      st'.keyFound = true ∧ st'.keyUpdated = st.keyUpdated ∧ st'.lines = st.lines ++ lines
  | [], st, h => ⟨st, rfl, h, rfl, (List.append_nil _).symm⟩
  | line :: lines, st, h => by
    cases hhead : headerOf line with
    | some name =>
      obtain ⟨st', hrun, hfound, hupd, hl⟩ := iniLoop_found section_ keyPattern newLine value lines { st with
        lines := st.lines ++ [line]
        insertIndex := if st.inTargetSection && !st.keyFound then some (st.lines.length + 1) else st.insertIndex
        inTargetSection := Value.rawEq (.str name) section_ } h
      refine ⟨st', ?_, hfound, hupd, by rw [hl, List.append_assoc]; rfl⟩
      rw [iniLoop, strMatch_iniHeader, hhead]
      exact hrun
    | none =>
      obtain ⟨st', hrun, hfound, hupd, hl⟩ := iniLoop_found section_ keyPattern newLine value lines
        { st with lines := st.lines ++ [line] } h
      refine ⟨st', ?_, hfound, hupd, by rw [hl, List.append_assoc]; rfl⟩
      rw [iniLoop, strMatch_iniHeader, hhead]
      simp only [bind, Except.bind, Option.map_none]
      rw [if_neg (by rw [h]; simp)]
      exact hrun

/-- How the loop can end, from the lines it has: the key is nowhere in the section, or its first line has the value, or
another one. -/
inductive LoopEnds (sec key newLine value : Str) (done : List Str) : List Str → Option IniState → Prop
  | passed {lines : List Str} {st : IniState} (hscan : Scanned sec key st) (hlines : st.lines = done ++ lines) :
      LoopEnds sec key newLine value done lines (some st)
  | has {pre post : List Str} {line : Str} (hsec : sectionAfter none (done ++ pre) = some sec)
      (hunset : Unset sec key none (done ++ pre)) (hline : headerOf line = none)
        (hcapt : captured key '=' line = some value) :
      LoopEnds sec key newLine value done (pre ++ line :: post) none
  | updated {pre post : List Str} {line v : Str} {st : IniState} (hsec : sectionAfter none (done ++ pre) = some sec)
      (hunset : Unset sec key none (done ++ pre)) (hline : headerOf line = none)
        (hcapt : captured key '=' line = some v)
      (hne : v ≠ value) (hfound : st.keyFound = true) (hupd : st.keyUpdated = true)
      (hlines : st.lines = done ++ pre ++ newLine :: post) :
      LoopEnds sec key newLine value done (pre ++ line :: post) (some st)

theorem LoopEnds.cons {newLine line : Str} {done lines : List Str} {r : Option IniState}
    (h : LoopEnds sec key newLine value (done ++ [line]) lines r) :
      LoopEnds sec key newLine value done (line :: lines) r := by
  have hshift : ∀ rest : List Str, done ++ [line] ++ rest = done ++ line :: rest := by simp
  cases h with
  | passed hscan hlines => exact .passed hscan (hlines.trans (hshift lines))
  | @has pre post l hsec hunset hline hcapt =>
    rw [hshift] at hsec hunset
    exact @LoopEnds.has _ _ _ _ _ (line :: pre) post l hsec hunset hline hcapt
  | @updated pre post l v st hsec hunset hline hcapt hne hfound hupd hlines =>
    rw [hshift] at hsec hunset hlines
    exact @LoopEnds.updated _ _ _ _ _ (line :: pre) post l v st hsec hunset hline hcapt hne hfound hupd hlines

/-- The pattern for the key. -/
def iniKeyPattern (key : Str) : Str := "^%s*" ++ escaped key ++ "%s*=%s*(.-)%s*$"

theorem iniLoop_ends (hkey : IsKey key) (newLine value : Str) :
    ∀ (lines : List Str) (st : IniState), Scanned sec key st →
    ∃ r, iniLoop (.str sec) (iniKeyPattern key) newLine value lines st = .ok r ∧
      LoopEnds sec key newLine value st.lines lines r
  | [], st, h => ⟨some st, rfl, .passed h (List.append_nil _).symm⟩
  | line :: lines, st, h => by
    cases hhead : headerOf line with
    | some name =>
      obtain ⟨r, hrun, hends⟩ := iniLoop_ends hkey newLine value lines _ (h.header hhead)
      refine ⟨r, ?_, hends.cons⟩
      rw [iniLoop, strMatch_iniHeader, hhead]
      exact hrun
    | none =>
      cases htarget : st.inTargetSection with
      | false =>
        obtain ⟨r, hrun, hends⟩ := iniLoop_ends hkey newLine value lines _
          (h.plain hhead fun ht => absurd (htarget.symm.trans ht) Bool.false_ne_true)
        refine ⟨r, ?_, hends.cons⟩
        rw [iniLoop, strMatch_iniHeader, hhead]
        simp only [bind, Except.bind, Option.map_none]
        rw [if_neg (by rw [htarget]; simp)]
        exact hrun
      | true =>
        have hmatch : strMatch line (iniKeyPattern key) = .ok ((captured key '=' line).map fun v => [.str v]) :=
          strMatch_iniKey hkey line
        cases hcapt : captured key '=' line with
        | none =>
          obtain ⟨r, hrun, hends⟩ := iniLoop_ends hkey newLine value lines _ (h.plain hhead fun _ => hcapt)
          refine ⟨r, ?_, hends.cons⟩
          rw [iniLoop, strMatch_iniHeader, hhead]
          simp only [bind, Except.bind, Option.map_none]
          rw [if_pos (by rw [htarget, h.found]; rfl), hmatch, hcapt]
          exact hrun
        | some v =>
          have hsec : sectionAfter none (st.lines ++ []) = some sec := by
            rw [h.target] at htarget
            rw [List.append_nil]
            exact of_decide_eq_true htarget
          have hunset : Unset sec key none (st.lines ++ []) := by
            rw [List.append_nil]
            exact h.unset
          have hstep : iniLoop (.str sec) (iniKeyPattern key) newLine value (line :: lines) st =
              if Value.rawEq (.str v) (.str value) then .ok none
              else iniLoop (.str sec) (iniKeyPattern key) newLine value lines
                { st with lines := st.lines ++ [newLine], keyFound := true, keyUpdated := true } := by
            rw [iniLoop, strMatch_iniHeader, hhead]
            simp only [bind, Except.bind, Option.map_none]
            rw [if_pos (by rw [htarget, h.found]; rfl), hmatch, hcapt]
            rfl
          by_cases hv : v = value
          · rw [hv] at hcapt
            rw [if_pos (Value.rawEq_str.mpr (congrArg Value.str hv))] at hstep
            exact ⟨none, hstep, @LoopEnds.has _ _ _ _ _ [] lines line hsec hunset hhead hcapt⟩
          · rw [if_neg fun hraw => hv (Value.str.inj (Value.rawEq_str.mp hraw))] at hstep
            obtain ⟨st', hrun, hfound, hupd, hl⟩ := iniLoop_found (.str sec) (iniKeyPattern key) newLine value lines
              { st with lines := st.lines ++ [newLine], keyFound := true, keyUpdated := true } rfl
            refine ⟨some st', hstep.trans hrun,
              @LoopEnds.updated _ _ _ _ _ [] lines line v st' hsec hunset hhead hcapt hv hfound hupd ?_⟩
            rw [hl, List.append_nil, List.append_assoc]
            rfl

/-- What an edit makes of the lines; `none` when the key has the value already. -/
inductive IniEdited (sec key value : Str) : List Str → Option (List Str) → Prop
  | kept {pre post : List Str} {line : Str} (hunset : Unset sec key none pre) (hsec : sectionAfter none pre = some sec)
      (hline : headerOf line = none) (hcapt : captured key '=' line = some value) :
      IniEdited sec key value (pre ++ line :: post) none
  | replaced {pre post : List Str} {line v : Str} (hunset : Unset sec key none pre)
      (hsec : sectionAfter none pre = some sec) (hline : headerOf line = none) (hcapt : captured key '=' line = some v)
      (hne : v ≠ value) : IniEdited sec key value (pre ++ line :: post) (some (pre ++ iniLine key value :: post))
  | inserted {pre post : List Str} (hunset : Unset sec key none (pre ++ post)) (hsec : sectionAfter none pre = some sec)
      (hend : ∀ line, post.head? = some line → (headerOf line).isSome = true)
      (hlast : ∀ line ∈ post, headerOf line ≠ some sec) :
      IniEdited sec key value (pre ++ post) (some (pre ++ iniLine key value :: post))
  | appended {lines : List Str} (hno : ∀ line ∈ lines, headerOf line ≠ some sec) :
      IniEdited sec key value lines (some (lines ++ ["[" ++ sec ++ "]", iniLine key value]))

theorem insertIdx_behind {α : Type} (x : α) : ∀ a b : List α, (a ++ b).insertIdx a.length x = a ++ x :: b
  | [], _ => List.insertIdx_zero
  | y :: a, b => congrArg (y :: ·) (insertIdx_behind x a b)

/-- **The edit**, for each way the loop can end. -/
theorem editIni_edited (hkey : IsKey key) (value : Str) (lines : List Str) :
    ∃ r, editIni (.str sec) sec key value lines = .ok r ∧ IniEdited sec key value lines r := by
  have hstart : Scanned sec key ⟨[], false, false, false, none⟩ :=
    ⟨rfl, rfl, rfl, trivial, fun _ i hi => (by cases hi), fun _ _ l hl => absurd hl List.not_mem_nil⟩
  obtain ⟨r, hrun, hends⟩ := iniLoop_ends hkey (iniLine key value) value lines _ hstart
  unfold editIni
  rw [escapeKey_eq]
  change ∃ r, (iniLoop (.str sec) (iniKeyPattern key) (iniLine key value) value lines
    ⟨[], false, false, false, none⟩).bind _ = .ok r ∧ _
  rw [hrun]
  dsimp only [Except.bind]
  cases hends with
  | @passed _ st hscan hlines =>
    rw [List.nil_append] at hlines
    have hunset := hscan.unset
    rw [hlines] at hunset
    dsimp only
    rw [hscan.found, if_neg Bool.false_ne_true, Bool.not_false, Bool.and_true]
    cases htarget : st.inTargetSection with
    | true =>
      have hsec : sectionAfter none lines = some sec := by
        rw [hscan.target, hlines] at htarget
        exact of_decide_eq_true htarget
      have hplace : st.lines.insertIdx (st.lines.length + 1 - 1) (iniLine key value) =
        lines ++ iniLine key value :: [] := by
        rw [Nat.add_sub_cancel, List.insertIdx_length_self, hlines]
      rw [if_pos rfl]
      change ∃ r, Except.ok (some (st.lines.insertIdx (st.lines.length + 1 - 1) (iniLine key value))) = .ok r ∧ _
      rw [hplace]
      have hins := @IniEdited.inserted sec key value lines [] (by rw [List.append_nil]; exact hunset) hsec
        (fun _ hl => by cases hl) fun _ hl => absurd hl List.not_mem_nil
      rw [List.append_nil] at hins
      exact ⟨_, rfl, hins⟩
    | false =>
      rw [if_neg Bool.false_ne_true]
      cases hi : st.insertIndex with
      | none =>
        refine ⟨_, rfl, ?_⟩
        rw [hlines]
        exact .appended fun line hline => hscan.absent htarget hi line (by rw [hlines]; exact hline)
      | some i =>
        obtain ⟨a, b, hsplit, hlen, hsec, ⟨line, rest, hb, hhead⟩, hlast⟩ := hscan.place htarget i hi
        have hab : lines = a ++ b := hlines.symm.trans hsplit
        have hplace : st.lines.insertIdx (i - 1) (iniLine key value) = a ++ iniLine key value :: b := by
          rw [hlen, Nat.add_sub_cancel, hsplit]
          exact insertIdx_behind _ a b
        change ∃ r, Except.ok (some (st.lines.insertIdx (i - 1) (iniLine key value))) = .ok r ∧ _
        rw [hplace, hab]
        rw [hab] at hunset
        refine ⟨_, rfl, .inserted hunset hsec (fun l hl => ?_) hlast⟩
        rw [hb] at hl
        rw [← Option.some.inj hl]
        exact hhead
  | has hsec hunset hline hcapt => exact ⟨none, rfl, .kept hunset hsec hline hcapt⟩
  | @updated pre post line v st hsec hunset hline hcapt hne hfound hupd hlines =>
    dsimp only
    rw [hfound, if_pos rfl, hupd, if_pos rfl, hlines]
    exact ⟨_, rfl, .replaced hunset hsec hline hcapt hne⟩

end Edit

/-! ## The reader of a section -/

/-- The options of the readers in `probes/file.lua`, which keep the case of values; all sections, or one. -/
def iniOptions (section_ : Option Str) : Options where
  normalizeKey := none
  lowerValues := false
  section_ := section_
  allowWhitespaceAssignment := true

/-- A comment does not hide a header. -/
def Clear (line : Str) : Prop := headerName (trim (stripInlineComment line)) = headerOf line

/-- A line that gives the key a value without an `=`. -/
def Spaced (key line : Str) : Prop := headerOf line = none ∧ equalsSplit (trim (stripInlineComment line)) = none ∧
    ∃ v, blankSplit (trim (stripInlineComment line)) = some (key, v)

/-- The entry is for the key in the section. -/
def Entry.isFor (sec key : Str) (entry : Entry) : Bool := entry.section_ = some sec ∧ entry.key = key

/-- The values that lines give to the key in the section. -/
def reads (sec key : Str) (lines : List Str) : List Str :=
  ((parseEntries (iniOptions none) lines).filter (Entry.isFor sec key)).map Entry.value

/-- The entries for other keys, or in other sections. -/
def others (sec key : Str) (lines : List Str) : List Entry :=
  (parseEntries (iniOptions none) lines).filter fun entry => !entry.isFor sec key

section Reader

variable {sec key : Str} {opt : Option Str}

theorem parseLine_header {line name : Str} (hclear : Clear line) (hline : headerOf line = some name) :
    parseLine (iniOptions opt) line = some (.header name) := by
  have hname : headerName (trim (stripInlineComment line)) = some name := hclear.trans hline
  have hhash : ¬(trim (stripInlineComment line) = [] ∨ (trim (stripInlineComment line)).head? = some '#') := by
    rw [(headerName_eq_some_iff.mp hname).1]
    rintro (h | h)
    · cases h
    · exact absurd (Option.some.inj h) (by decide)
  rw [parseLine_eq]
  dsimp only
  rw [if_neg hhash, hname]

theorem parseLine_plain {line : Str} (hclear : Clear line) (hline : headerOf line = none) :
    parseLine (iniOptions opt) line =
      if trim (stripInlineComment line) = [] ∨ (trim (stripInlineComment line)).head? = some '#' then none
      else ((equalsSplit (trim (stripInlineComment line))).or (blankSplit (trim (stripInlineComment line)))).map
        fun kv => .entry kv.1 (unquote kv.2) := by
  have hname : headerName (trim (stripInlineComment line)) = none := hclear.trans hline
  rw [parseLine_eq]
  dsimp only
  rw [hname]
  split
  · rfl
  · exact congrArg (Option.map · _) (funext fun kv => congrArg (Parsed.entry kv.1) (normalizeValue_eq kv.2))

theorem entriesFrom_append (opts : Options) (hopts : opts = iniOptions opt) : ∀ (current : Option Str) (a b : List Str),
    (∀ line ∈ a, Clear line) →
      entriesFrom opts current (a ++ b) = entriesFrom opts current a ++ entriesFrom opts (sectionAfter current a) b
  | _, [], _, _ => rfl
  | current, line :: a, b, h => by
    have hclear := h line List.mem_cons_self
    have ih := fun c => entriesFrom_append opts hopts c a b fun l hl => h l (List.mem_cons_of_mem line hl)
    have hafter : sectionAfter current (line :: a) = sectionAfter ((headerOf line).or current) a := rfl
    rw [List.cons_append, entriesFrom, entriesFrom, hafter]
    cases hline : headerOf line with
    | some name =>
      rw [hopts, parseLine_header hclear hline, ← hopts]
      exact ih (some name)
    | none =>
      cases hparsed : parseLine opts line with
      | none => exact ih current
      | some parsed =>
        cases parsed with
        | header name =>
          rw [hopts, parseLine_plain hclear hline] at hparsed
          split at hparsed
          · cases hparsed
          · obtain ⟨kv, -, heq⟩ := Option.map_eq_some_iff.mp hparsed
            cases heq
        | entry k v =>
          dsimp only
          split
          · exact congrArg (_ :: ·) (ih current)
          · exact ih current

/-- What the pattern of the editor takes is an assignment of the key. -/
theorem equalsSplit_of_captured (hkey : IsKey key) {line w : Str} (h : captured key '=' line = some w) :
    ∃ v, equalsSplit (trim (stripInlineComment line)) = some (key, v) := by
  obtain ⟨b, mid, b', rfl, hb, -, hmid⟩ := captured_parts h
  have hsep : IsSep '=' := .inl rfl
  have hends := fun z => endsKey_append hsep hmid z
  have hassoc : b ++ (key ++ (mid ++ (w ++ b'))) = b ++ (key ++ mid) ++ (w ++ b') := by simp only [List.append_assoc]
  rw [stripInlineComment, hassoc, stripLoop_append (hash_front hkey hsep hb hmid)]
  generalize stripLoop _ _ (w ++ b') = rest
  have htrim : trim (b ++ (key ++ mid) ++ rest) = key ++ (mid ++ rest).rdropWhile isspace := by
    rw [← trim_key hkey hb (mid ++ rest)]
    simp only [List.append_assoc]
  obtain ⟨c, c', rfl, hc, -⟩ : ∃ c c', mid = c ++ '=' :: c' ∧ (∀ x ∈ c, isspace x = true) ∧
    ∀ x ∈ c', isspace x = true := by
    unfold Between at hmid
    rwa [if_neg (by decide)] at hmid
  have hdrop : ((c ++ '=' :: c') ++ rest).rdropWhile isspace = c ++ '=' :: (c' ++ rest).rdropWhile isspace := by
    have hcons : ('=' :: (c' ++ rest)).rdropWhile isspace = '=' :: (c' ++ rest).rdropWhile isspace :=
      rdropWhile_cons (by decide) _
    rw [List.append_assoc, List.cons_append, rdropWhile_append_of_ne (by rw [hcons]; exact List.cons_ne_nil _ _), hcons]
  have hy : EndsKey (c ++ '=' :: (c' ++ rest).rdropWhile isspace) := by
    rw [← hdrop]
    exact (hends rest).of_isPrefix (List.rdropWhile_prefix isspace _)
  have hhead : (c ++ '=' :: (c' ++ rest).rdropWhile isspace).dropWhile isspace =
    '=' :: (c' ++ rest).rdropWhile isspace := by
    rw [List.dropWhile_append_of_pos hc, List.dropWhile_cons_of_neg (by decide)]
  rw [htrim, hdrop, equalsSplit_key hkey hy, hhead, List.head?_cons, if_pos rfl]
  exact ⟨_, rfl⟩

theorem captured_front (hkey : IsKey key) {b c : Str} (hb : ∀ x ∈ b, isspace x = true) (hc : ∀ x ∈ c, isspace x = true)
    (z : Str) : captured key '=' (b ++ (key ++ (c ++ '=' :: z))) = some (trim z) := by
  have hdrop : (b ++ (key ++ (c ++ '=' :: z))).dropWhile isspace = key ++ (c ++ '=' :: z) := by
    obtain ⟨x, k, rfl⟩ := List.exists_cons_of_ne_nil hkey.nonempty
    rw [List.dropWhile_append_of_pos hb]
    exact List.dropWhile_cons_of_neg (by rw [(hkey.chars x List.mem_cons_self).1]; exact Bool.false_ne_true)
  have hsep : (c ++ '=' :: z).dropWhile isspace = '=' :: z := by
    rw [List.dropWhile_append_of_pos hc, List.dropWhile_cons_of_neg (by decide)]
  unfold captured afterKey
  rw [hdrop, if_pos (List.prefix_append _ _), List.drop_left]
  dsimp only
  rw [if_neg (by decide), hsep, List.head?_cons, if_pos rfl, List.tail_cons]

/-- An assignment of the key is taken by the pattern of the editor. -/
theorem captured_of_equalsSplit (hkey : IsKey key) {line v : Str}
    (h : equalsSplit (trim (stripInlineComment line)) = some (key, v)) : ∃ w, captured key '=' line = some w := by
  obtain ⟨rest, hrest⟩ := stripLoop_isPrefix false none line
  obtain ⟨b, b', hb, -, hstrip⟩ := exists_trim (stripInlineComment line)
  unfold equalsSplit at h
  dsimp only at h
  split at h
  · next hsplit =>
    have hkeyEq : (trim (stripInlineComment line)).takeWhile inKey = key := congrArg Prod.fst (Option.some.inj h)
    obtain ⟨r, hr⟩ : ∃ r, ((trim (stripInlineComment line)).dropWhile inKey).dropWhile isspace = '=' :: r := by
      cases hd : ((trim (stripInlineComment line)).dropWhile inKey).dropWhile isspace with
      | nil =>
        rw [hd] at hsplit
        cases hsplit.2
      | cons x r =>
        rw [hd] at hsplit
        exact ⟨r, by rw [Option.some.inj hsplit.2]⟩
    have hline : line = b ++ (key ++ (((trim (stripInlineComment line)).dropWhile inKey).takeWhile isspace ++
        '=' :: (r ++ (b' ++ rest)))) := by
      have htrim := @List.takeWhile_append_dropWhile _ inKey (trim (stripInlineComment line))
      have hgap := @List.takeWhile_append_dropWhile _ isspace ((trim (stripInlineComment line)).dropWhile inKey)
      rw [hr] at hgap
      rw [hkeyEq, ← hgap] at htrim
      conv_lhs => rw [← hrest, ← stripInlineComment, hstrip, ← htrim]
      simp only [List.append_assoc, List.cons_append]
    rw [hline]
    exact ⟨_, captured_front hkey hb (fun x hx => List.mem_takeWhile_imp hx) _⟩
  · cases h

/-- A line with a key that begins with no bracket is no header, with or without its comment. -/
theorem clear_of_captured (hkey : IsKey key) (hopen : key.head? ≠ some '[') {line w : Str}
    (h : captured key '=' line = some w) : headerOf line = none ∧ Clear line := by
  have hfront : ∀ y : Str, headerName (key ++ y) = none := by
    intro y
    obtain ⟨x, k, rfl⟩ := List.exists_cons_of_ne_nil hkey.nonempty
    exact headerName_of_ne fun hx => hopen (congrArg some hx.symm)
  have hheader : headerOf line = none := by
    obtain ⟨b, mid, b', rfl, hb, -, -⟩ := captured_parts h
    rw [headerOf, trim_key hkey hb]
    exact hfront _
  obtain ⟨y, hstrip, -⟩ := trim_stripped hkey (.inl rfl) h
  refine ⟨hheader, ?_⟩
  unfold Clear
  rw [hheader, hstrip]
  exact hfront y

/-- What the reader makes of a line that the editor takes for the assignment. -/
theorem parseLine_captured (hkey : IsKey key) {line w : Str} (hclear : Clear line) (hline : headerOf line = none)
    (h : captured key '=' line = some w) : ∃ v, parseLine (iniOptions opt) line = some (.entry key v) ∧
      (IsWord w → w.head? ≠ some '#' → v = unquote w) := by
  obtain ⟨v, hv⟩ := equalsSplit_of_captured hkey h
  obtain ⟨y, hstrip, -⟩ := trim_stripped hkey (.inl rfl) h
  have hhash : ¬(trim (stripInlineComment line) = [] ∨ (trim (stripInlineComment line)).head? = some '#') := by
    obtain ⟨x, k, rfl⟩ := List.exists_cons_of_ne_nil hkey.nonempty
    rw [hstrip]
    rintro (h | h)
    · cases h
    · exact (hkey.chars x List.mem_cons_self).2.2 (Option.some.inj h)
  refine ⟨unquote v, ?_, fun hword hhead => ?_⟩
  · rw [parseLine_plain hclear hline, if_neg hhash, hv]
    rfl
  · have hplain : parseLine .none line = some (.entry key (unquote v)) := by
      rw [parseLine_eq]
      dsimp only
      rw [if_neg hhash, show headerName (trim (stripInlineComment line)) = none from hclear.trans hline, hv]
      exact congrArg (fun u => some (Parsed.entry key u)) (normalizeValue_eq v)
    have hassigned := (assigned_captured hkey (.inl rfl) hword h).2 fun hc => hhead hc.1
    have hheader : isHeader (trim line) = false := by
      rw [isHeader_eq, show headerName (trim line) = none from hline]
      rfl
    rw [assigned, hplain, hheader] at hassigned
    dsimp only at hassigned
    rw [if_pos rfl, if_neg Bool.false_ne_true, if_neg fun hc => absurd hc.1 (by decide)] at hassigned
    exact Option.some.inj hassigned

/-- Where the editor finds no assignment of the key, the reader finds none. -/
theorem isFor_of_unset (hkey : IsKey key) : ∀ (current : Option Str) (lines : List Str), (∀ line ∈ lines, Clear line) →
    (∀ line ∈ lines, ¬Spaced key line) → Unset sec key current lines →
    ∀ entry ∈ entriesFrom (iniOptions none) current lines, entry.isFor sec key = false := by
  intro current lines
  induction lines generalizing current with
  | nil =>
    intro _ _ _ entry hmem
    exact absurd hmem List.not_mem_nil
  | cons line lines ih =>
    intro hclear hspaced hunset entry hmem
    obtain ⟨hline, hrest⟩ := hunset
    have ih := fun c => ih c (fun l hl => hclear l (List.mem_cons_of_mem line hl)) fun l hl =>
      hspaced l (List.mem_cons_of_mem line hl)
    have hfirst := hclear line List.mem_cons_self
    rw [entriesFrom] at hmem
    cases hhead : headerOf line with
    | some name =>
      rw [parseLine_header hfirst hhead] at hmem
      rw [hhead] at hrest
      exact ih (some name) hrest entry hmem
    | none =>
      rw [hhead] at hrest
      rw [parseLine_plain hfirst hhead] at hmem
      split at hmem
      · next name hparsed =>
        split at hparsed
        · cases hparsed
        · obtain ⟨kv, -, heq⟩ := Option.map_eq_some_iff.mp hparsed
          cases heq
      · next k v hparsed =>
        split at hparsed
        · cases hparsed
        · obtain ⟨kv, hkv, heq⟩ := Option.map_eq_some_iff.mp hparsed
          cases heq
          rw [if_pos (.inl rfl)] at hmem
          rcases List.mem_cons.mp hmem with rfl | hmem
          · refine decide_eq_false ?_
            rintro ⟨hsec, hk⟩
            obtain ⟨u, u'⟩ := kv
            obtain rfl : u = key := hk
            rcases Option.or_eq_some_iff.mp hkv with hkv | ⟨hequals, hblank⟩
            · obtain ⟨w, hw⟩ := captured_of_equalsSplit hkey hkv
              rw [hline hhead hsec] at hw
              cases hw
            · exact hspaced line List.mem_cons_self ⟨hhead, hequals, u', hblank⟩
          · exact ih current hrest entry hmem
      · exact ih current hrest entry hmem

theorem reads_unset (hkey : IsKey key) {lines : List Str} (hclear : ∀ line ∈ lines, Clear line)
    (hspaced : ∀ line ∈ lines, ¬Spaced key line) (h : Unset sec key none lines) : reads sec key lines = [] ∧
      others sec key lines = parseEntries (iniOptions none) lines := by
  have hnone := isFor_of_unset hkey none lines hclear hspaced h
  constructor
  · have hnil : (parseEntries (iniOptions none) lines).filter (Entry.isFor sec key) = [] :=
      List.filter_eq_nil_iff.mpr fun e he => by rw [hnone e he]; exact Bool.false_ne_true
    rw [reads, hnil]
    rfl
  · exact List.filter_eq_self.mpr fun e he => by rw [hnone e he]; rfl

/-- The entries around the assignment. -/
theorem reads_captured (hkey : IsKey key) {pre post : List Str} {line w : Str} (hpre : ∀ l ∈ pre, Clear l)
    (hspaced : ∀ l ∈ pre, ¬Spaced key l) (hunset : Unset sec key none pre) (hsec : sectionAfter none pre = some sec)
      (hclear : Clear line)
    (hline : headerOf line = none) (hcapt : captured key '=' line = some w) :
    ∃ v, (IsWord w → w.head? ≠ some '#' → v = unquote w) ∧
      reads sec key (pre ++ line :: post) =
        v :: ((entriesFrom (iniOptions none) (some sec) post).filter (Entry.isFor sec key)).map Entry.value ∧
      others sec key (pre ++ line :: post) = entriesFrom (iniOptions none) none pre ++
        (entriesFrom (iniOptions none) (some sec) post).filter fun entry => !entry.isFor sec key := by
  obtain ⟨v, hparse, hv⟩ := @parseLine_captured key none hkey line w hclear hline hcapt
  have hnone := isFor_of_unset hkey none pre hpre hspaced hunset
  have hentry : Entry.isFor sec key ⟨key, v, some sec⟩ = true := decide_eq_true ⟨rfl, rfl⟩
  have hentries : parseEntries (iniOptions none) (pre ++ line :: post) = entriesFrom (iniOptions none) none pre ++
      ⟨key, v, some sec⟩ :: entriesFrom (iniOptions none) (some sec) post := by
    rw [parseEntries, entriesFrom_append _ rfl none pre _ hpre, hsec, entriesFrom, hparse]
    dsimp only
    rw [if_pos (.inl rfl)]
  refine ⟨v, hv, ?_, ?_⟩
  · rw [reads, hentries, List.filter_append, List.filter_eq_nil_iff.mpr fun e he => by
      rw [hnone e he]; exact Bool.false_ne_true,
      List.nil_append, List.filter_cons_of_pos hentry, List.map_cons]
  · rw [others, hentries, List.filter_append, List.filter_eq_self.mpr fun e he => by rw [hnone e he]; rfl,
      List.filter_cons_of_neg (by rw [hentry]; decide)]

theorem unset_of_absent : ∀ {current : Option Str} {lines : List Str}, current ≠ some sec →
    (∀ line ∈ lines, headerOf line ≠ some sec) → Unset sec key current lines
  | _, [], _, _ => trivial
  | current, line :: lines, hcurrent, h => by
    have hline := h line List.mem_cons_self
    refine ⟨fun _ hsec => absurd hsec hcurrent, unset_of_absent ?_ fun l hl => h l (List.mem_cons_of_mem line hl)⟩
    cases hhead : headerOf line with
    | some name =>
      rw [hhead] at hline
      exact hline
    | none => exact hcurrent

end Reader

/-! ## The enforcer -/

section Enforcer

variable {sec key value : Str}

theorem captured_iniLine (hkey : IsKey key) (hvalue : IsWord value) :
    captured key '=' (iniLine key value) = some value := by
  have h := captured_new hkey (.inl rfl) hvalue
  rw [iniLine, List.append_assoc]
  exact h

/-- The header that is written is one for both. -/
theorem header_written (hne : sec ≠ []) (hclose : ']' ∉ sec) (hhash : '#' ∉ sec) :
    headerOf ("[" ++ sec ++ "]") = some sec ∧ Clear ("[" ++ sec ++ "]") := by
  have htrimmed : Trimmed ("[" ++ sec ++ "]") := by
    constructor
    · rintro x hx
      obtain rfl : '[' = x := Option.some.inj hx
      rfl
    · intro x hx
      rw [List.getLast?_append] at hx
      obtain rfl : ']' = x := Option.some.inj hx
      rfl
  have hname : headerOf ("[" ++ sec ++ "]") = some sec := by
    rw [headerOf, trim_of_trimmed htrimmed]
    exact headerName_eq_some_iff.mpr ⟨rfl, hne, hclose⟩
  have hno : '#' ∉ "[" ++ sec ++ "]" := by
    intro hmem
    rcases List.mem_append.mp hmem with hmem | hmem
    · rcases List.mem_append.mp hmem with hmem | hmem
      · exact absurd hmem (by decide)
      · exact hhash hmem
    · exact absurd hmem (by decide)
  have hstrip : stripInlineComment ("[" ++ sec ++ "]") = "[" ++ sec ++ "]" := by
    have h := stripLoop_append hno false none []
    rw [List.append_nil, stripLoop, List.append_nil] at h
    exact h
  refine ⟨hname, ?_⟩
  unfold Clear
  rw [hstrip]
  rfl

/-- An edit of lines that have the value has nothing to do. -/
theorem editIni_settled (hkey : IsKey key) {pre post : List Str} {line : Str} (hunset : Unset sec key none pre)
    (hsec : sectionAfter none pre = some sec) (hline : headerOf line = none)
      (hcapt : captured key '=' line = some value) :
    editIni (.str sec) sec key value (pre ++ line :: post) = .ok none := by
  obtain ⟨r, hedit, hedited⟩ := @editIni_edited sec key hkey value (pre ++ line :: post)
  generalize hlines : pre ++ line :: post = lines at hedit hedited
  -- the first assignment is this line
  have hfirst : ∀ {pre' post' : List Str} {line' v : Str}, pre ++ line :: post = pre' ++ line' :: post' →
      Unset sec key none pre' → sectionAfter none pre' = some sec → headerOf line' = none →
      captured key '=' line' = some v → v = value := by
    intro pre' post' line' v heq hunset' hsec' hline' hcapt'
    rcases List.append_eq_append_iff.mp heq with ⟨a, rfl, hpost⟩ | ⟨a, rfl, hpost⟩
    · cases a with
      | nil =>
        obtain rfl := (List.cons.inj hpost).1
        exact Option.some.inj (hcapt'.symm.trans hcapt)
      | cons l a =>
        obtain rfl := (List.cons.inj hpost).1
        exact absurd hunset' (not_unset hsec hline hcapt)
    · cases a with
      | nil =>
        obtain rfl := (List.cons.inj hpost).1
        exact Option.some.inj (hcapt'.symm.trans hcapt)
      | cons l a =>
        obtain rfl := (List.cons.inj hpost).1
        exact absurd hunset (not_unset hsec' hline' hcapt')
  rw [hedit]
  cases hedited with
  | kept => rfl
  | replaced hunset' hsec' hline' hcapt' hne => exact absurd (hfirst hlines hunset' hsec' hline' hcapt') hne
  | inserted hunset' =>
    rw [← hlines] at hunset'
    exact absurd hunset' (not_unset hsec hline hcapt)
  | appended hno =>
    have hunset' : Unset sec key none lines := unset_of_absent (Option.some_ne_none sec).symm hno
    rw [← hlines] at hunset'
    exact absurd hunset' (not_unset hsec hline hcapt)

/-- **The lines after an edit**: what the reader reads in them, and that a second edit has nothing to do. -/
theorem IniEdited.read (hkey : IsKey key) (hopen : key.head? ≠ some '[') (hvalue : IsWord value)
    (hhash : value.head? ≠ some '#') (hne : sec ≠ []) (hclose : ']' ∉ sec) (hsecHash : '#' ∉ sec) {lines : List Str}
    (hclear : ∀ line ∈ lines, Clear line) (hspaced : ∀ line ∈ lines, ¬Spaced key line) {r : Option (List Str)}
    (h : IniEdited sec key value lines r) :
    reads sec key (r.getD lines) = unquote value :: (reads sec key lines).tail ∧
      others sec key (r.getD lines) = others sec key lines ∧
      editIni (.str sec) sec key value (r.getD lines) = .ok none := by
  have hnew := captured_iniLine hkey hvalue
  obtain ⟨hheader, hnewClear⟩ := clear_of_captured hkey hopen hnew
  cases h with
  | @kept pre post line hunset hsec hline hcapt =>
    have hpre : ∀ l ∈ pre, Clear l := fun l hl => hclear l (List.mem_append_left _ hl)
    have hpreSpaced : ∀ l ∈ pre, ¬Spaced key l := fun l hl => hspaced l (List.mem_append_left _ hl)
    obtain ⟨v, hv, hreads, -⟩ := @reads_captured _ _ hkey _ post _ _ hpre hpreSpaced hunset hsec
      (hclear line (by simp)) hline hcapt
    rw [Option.getD_none, hreads, hv hvalue hhash, List.tail_cons]
    exact ⟨rfl, rfl, editIni_settled hkey hunset hsec hline hcapt⟩
  | @replaced pre post line v hunset hsec hline hcapt =>
    have hpre : ∀ l ∈ pre, Clear l := fun l hl => hclear l (List.mem_append_left _ hl)
    have hpreSpaced : ∀ l ∈ pre, ¬Spaced key l := fun l hl => hspaced l (List.mem_append_left _ hl)
    obtain ⟨v, -, hreads, hothers⟩ := @reads_captured _ _ hkey _ post _ _ hpre hpreSpaced hunset hsec
      (hclear line (by simp)) hline hcapt
    obtain ⟨v', hv', hreads', hothers'⟩ := @reads_captured _ _ hkey _ post _ _ hpre hpreSpaced hunset hsec
      hnewClear hheader hnew
    rw [Option.getD_some, hreads, hreads', hothers, hothers', hv' hvalue hhash, List.tail_cons]
    exact ⟨rfl, rfl, editIni_settled hkey hunset hsec hheader hnew⟩
  | @inserted pre post hunset hsec =>
    have hpre : ∀ l ∈ pre, Clear l := fun l hl => hclear l (List.mem_append_left _ hl)
    have hpost : ∀ l ∈ post, Clear l := fun l hl => hclear l (List.mem_append_right _ hl)
    have hsplit := (unset_append sec key none pre post).mp hunset
    rw [hsec] at hsplit
    obtain ⟨v, hv, hreads, hothers⟩ := @reads_captured _ _ hkey _ post _ _ hpre
      (fun l hl => hspaced l (List.mem_append_left _ hl)) hsplit.1 hsec hnewClear hheader hnew
    have hrest := isFor_of_unset hkey (some sec) post hpost (fun l hl => hspaced l (List.mem_append_right _ hl))
      hsplit.2
    obtain ⟨hold, hall⟩ := reads_unset hkey hclear hspaced hunset
    rw [Option.getD_some, hreads, hothers, hold, hall, hv hvalue hhash,
      List.filter_eq_nil_iff.mpr fun e he => by rw [hrest e he]; exact Bool.false_ne_true,
      List.filter_eq_self.mpr fun e he => by rw [hrest e he]; rfl,
      parseEntries, entriesFrom_append _ rfl none pre post hpre, hsec]
    exact ⟨rfl, rfl, editIni_settled hkey hsplit.1 hsec hheader hnew⟩
  | appended hno =>
    obtain ⟨hname, hnameClear⟩ := header_written hne hclose hsecHash
    have hunset : Unset sec key none lines := unset_of_absent (Option.some_ne_none sec).symm hno
    have hpre : ∀ l ∈ lines ++ ["[" ++ sec ++ "]"], Clear l := by
      intro l hl
      rcases List.mem_append.mp hl with hl | hl
      · exact hclear l hl
      · rw [List.mem_singleton.mp hl]
        exact hnameClear
    have hpreSpaced : ∀ l ∈ lines ++ ["[" ++ sec ++ "]"], ¬Spaced key l := by
      intro l hl
      rcases List.mem_append.mp hl with hl | hl
      · exact hspaced l hl
      · rw [List.mem_singleton.mp hl]
        exact fun h => absurd (hname.symm.trans h.1) (Option.some_ne_none sec)
    have hpreUnset : Unset sec key none (lines ++ ["[" ++ sec ++ "]"]) :=
      unset_concat hunset fun hnone => absurd (hname.symm.trans hnone) (Option.some_ne_none sec)
    have hsec : sectionAfter none (lines ++ ["[" ++ sec ++ "]"]) = some sec := by
      rw [sectionAfter_concat, hname]
      rfl
    obtain ⟨v, hv, hreads, hothers⟩ := @reads_captured _ _ hkey _ [] _ _ hpre hpreSpaced hpreUnset hsec hnewClear
      hheader hnew
    obtain ⟨hold, hall⟩ := reads_unset hkey hclear hspaced hunset
    have hnameEntries : ∀ current, entriesFrom (iniOptions none) current ["[" ++ sec ++ "]"] = [] := by
      intro current
      rw [entriesFrom, parseLine_header hnameClear hname]
      rfl
    rw [Option.getD_some, List.append_cons lines, hreads, hothers, hold, hall, hv hvalue hhash,
      entriesFrom_append _ rfl none lines _ hclear, hnameEntries]
    exact ⟨rfl, by simp [entriesFrom, parseEntries], editIni_settled hkey hpreUnset hsec hheader hnew⟩

/-- How the lines may differ: not, in one assignment of the key in the section, by one more line for it, or by a header
and that line at the end. -/
def OneLine (sec key value : Str) (old new : List Str) : Prop :=
  new = old ∨
  (∃ pre line post, old = pre ++ line :: post ∧ new = pre ++ iniLine key value :: post ∧
    sectionAfter none pre = some sec ∧ (captured key '=' line).isSome = true) ∨
  (∃ pre post, old = pre ++ post ∧ new = pre ++ iniLine key value :: post ∧ sectionAfter none pre = some sec ∧
    ∀ line, post.head? = some line → (headerOf line).isSome = true) ∨
  new = old ++ ["[" ++ sec ++ "]", iniLine key value]

end Enforcer

end KeyValueFile
end Seharden
