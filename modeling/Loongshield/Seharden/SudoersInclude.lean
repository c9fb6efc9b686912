import Loongshield.Lua.Escape
import Loongshield.Seharden.SudoersLine

/-!
# What a line of a sudoers file includes

The directives and the paths they name, as the format has them: the first word of the line, and the rest without quotes
and escapes, in the directory of the file.

- `includeArg`, `includePath`: a directive and its path; `directive_eq` is what the patterns find;
- `directoryFiles`: the files of an include directory; `listDirectoryFiles_eq` is what the loader lists.
-/

namespace Seharden
namespace Sudoers

open Lua Pattern

/-! ## The format -/

/-- A directive and its argument. Its word is the first of the line, behind `@` or `#`, and the rest is the argument. -/
def includeArg (line : Str) : Option (IncludeKind × Str) :=
  let (word, arg) := entrySplit (trim line)
  if arg = [] then none
  else if word = "@includedir".toList ∨ word = "#includedir".toList then some (.includedir, arg)
  else if word = "@include".toList ∨ word = "#include".toList then some (.include_, arg)
  else none

/-- A text without the quotes around it. -/
def unquoted (arg : Str) : Str :=
  if arg.head? = some '"' ∧ arg.getLast? = some '"' ∧ 2 ≤ arg.length then arg.tail.dropLast else arg

/-- A text with another in the place of each pair of characters. -/
def replacePair (a b : Char) (new : Str) : Str → Str
  | [] => []
  | [x] => [x]
  | x :: y :: s => if x = a ∧ y = b then new ++ replacePair a b new s else x :: replacePair a b new (y :: s)

/-- A text without the backslashes that escape a space or a backslash. -/
def unescaped : Str → Str
  | [] => []
  | [x] => [x]
  | x :: y :: s => if x = '\\' ∧ (y = ' ' ∨ y = '\\') then y :: unescaped s else x :: unescaped (y :: s)

/-- The directory of a file: what stands before the last slash. -/
def directoryOf (path : Str) : Str :=
  let name := path.rtakeWhile (· != '/')
  if name = [] ∨ name = path then ".".toList else (path.rdropWhile (· != '/')).dropLast

/-- A path is absolute, or in the directory of the file that names it. -/
def located (path p : Str) : Str := if p.head? = some '/' then p else directoryOf path ++ "/" ++ p

/-- The path that an argument names in the file `path`; `%h` stands for the host name. A host name with a `%` is read as
`gsub` reads a replacement. -/
def includePath (hostname : Option Str) (path arg : Str) : Except Err Str :=
  if "%h".toList <:+: unquoted arg then
    (expandReplacement "%h" (hostname.getD [])).map fun host =>
      located path (unescaped (replacePair '%' 'h' host (unquoted arg)))
  else .ok (located path (unescaped (unquoted arg)))

/-- The directive on a line of the file `path`, with the path it names. -/
def directive (hostname : Option Str) (path line : Str) : Option (IncludeKind × Except Err Str) :=
  (includeArg line).map fun p => (p.1, includePath hostname path p.2)

/-- The files an include directory stands for, in order: no dot in their names, and no tilde at the end. -/
def directoryFiles (view : View) (dir : Str) : Option (List Str) :=
  if view.mode dir = some "directory".toList then
    match view.names dir with
    | .error _ => none
    | .ok names => some (sortStrs (((names.filter fun name => '.' ∉ name ∧ name.getLast? ≠ some '~').map
        (dir ++ "/" ++ ·)).filter fun p => view.mode p = some "file".toList))
  else none

/-! ## The directives -/

/-- The first character of a directive. -/
def atOrHash : Single := .set false [.lit '@', .lit '#']

theorem atOrHash_test (x : Char) : atOrHash.test x = true ↔ x = '@' ∨ x = '#' := by
  have htest : atOrHash.test x = ((('@' == x) || (('#' == x) || false)) != false) := rfl
  rw [htest, Bool.or_false, Bool.bne_false, Bool.or_eq_true, beq_iff_eq, beq_iff_eq, @eq_comm _ '@', @eq_comm _ '#']

/-- The items behind the word of a directive. -/
def argItems : List Pattern.Item := [.single blank .plus, .capOpen, .single .any .plus, .capClose, .atEnd]

theorem compile_includedir : compile "[@#]includedir%s+(.+)$" =
    .single atOrHash .one :: ((spelling "includedir").map (.single · .one) ++ argItems) := rfl

theorem compile_include : compile "[@#]include%s+(.+)$" =
    .single atOrHash .one :: ((spelling "include").map (.single · .one) ++ argItems) := rfl

theorem drop_takeWhile (p : Char → Bool) (u : Str) : u.drop (u.takeWhile p).length = u.dropWhile p := by
  have hsplit := @List.takeWhile_append_dropWhile _ p u
  generalize u.takeWhile p = w at hsplit ⊢
  generalize u.dropWhile p = r at hsplit ⊢
  rw [← hsplit, List.drop_left]

/-- A word stands at the front, and blanks follow. -/
theorem word_iff {w u : Str} (hw : ∀ x ∈ w, isspace x = false) :
    (w <+: u ∧ (u.drop w.length).head?.any isspace = true) ↔
      u.takeWhile (fun x => !isspace x) = w ∧ u.dropWhile (fun x => !isspace x) ≠ [] := by
  have hword : ∀ x ∈ w, (!isspace x) = true := fun x hx => by rw [hw x hx]; rfl
  constructor
  · rintro ⟨⟨r, rfl⟩, hblank⟩
    rw [List.drop_left] at hblank
    cases r with
    | nil => cases hblank
    | cons y r =>
      have hy : isspace y = true := hblank
      rw [List.takeWhile_append_of_pos hword, List.dropWhile_append_of_pos hword]
      simp [hy]
  · rintro ⟨rfl, hne⟩
    have hsplit := @List.takeWhile_append_dropWhile _ (fun x => !isspace x) u
    refine ⟨⟨_, hsplit⟩, ?_⟩
    rw [drop_takeWhile]
    cases hd : u.dropWhile fun x => !isspace x with
    | nil => exact absurd hd hne
    | cons y r =>
      have hy := head_dropWhile (p := fun x => !isspace x) (s := u) (x := y) (by rw [hd]; rfl)
      simpa using hy

/-- What stands behind the first word of a text without blanks at its end. -/
theorem entrySplit_ne_nil {t : Str} (ht : Trimmed t) : (entrySplit t).2 ≠ [] ↔
    t.dropWhile (fun x => !isspace x) ≠ [] := by
  refine ⟨fun h hnil => h (by rw [entrySplit, hnil]; rfl), fun h => dropWhile_ne_nil ht (List.dropWhile_suffix _) h⟩

/-- The pattern of a directive finds its argument. -/
theorem firstCapture_directive {w t pat p : Str} (hpat : pat = '^' :: p) (hw : ∀ x ∈ w, isspace x = false)
    (his : compile p = .single atOrHash .one :: ((spelling w).map (.single · .one) ++ argItems))
    (hs : Simple 0 0 (.single atOrHash .one :: ((spelling w).map (.single · .one) ++ argItems)) = true)
    (ht : Trimmed t) : firstCapture t pat =
      if (entrySplit t).2 ≠ [] ∧ ((entrySplit t).1 = '@' :: w ∨ (entrySplit t).1 = '#' :: w) then some (entrySplit t).2
      else none := by
  rw [firstCapture_eq hpat his hs]
  cases t with
  | nil => rfl
  | cons x u =>
    have hx : isspace x = false := ht.1 x rfl
    have hsplit : entrySplit (x :: u) = (x :: u.takeWhile fun x => !isspace x,
        (u.dropWhile fun x => !isspace x).dropWhile isspace) := by
      rw [entrySplit]
      simp [hx]
    have hne := entrySplit_ne_nil ht
    rw [show (x :: u).dropWhile (fun x => !isspace x) = u.dropWhile fun x => !isspace x by simp [hx]] at hne
    rw [matchRest, matchRest_spells (spells_spelling w)]
    have hdrop : u.drop w.length <:+ x :: u := (List.drop_suffix _ _).trans (List.suffix_cons x u)
    by_cases hmark : atOrHash.test x = true
    · rw [if_pos hmark]
      by_cases hfind : u.takeWhile (fun x => !isspace x) = w ∧ u.dropWhile (fun x => !isspace x) ≠ []
      · obtain ⟨hpre, hblank⟩ := (word_iff hw).mpr hfind
        have hword : (entrySplit (x :: u)).1 = '@' :: w ∨ (entrySplit (x :: u)).1 = '#' :: w := by
          rw [hsplit, hfind.1]
          rcases (atOrHash_test x).mp hmark with rfl | rfl
          · exact .inl rfl
          · exact .inr rfl
        rw [if_pos hpre, argItems, matchRest_afterBlanks ht hdrop, if_pos hblank, if_pos ⟨hne.mpr hfind.2, hword⟩]
        have hrest : u.drop w.length = u.dropWhile fun x => !isspace x := by
          rw [← drop_takeWhile, hfind.1]
        simp [texts, Seg.text, hrest, hsplit]
      · have hno : ¬((entrySplit (x :: u)).2 ≠ [] ∧
            ((entrySplit (x :: u)).1 = '@' :: w ∨ (entrySplit (x :: u)).1 = '#' :: w)) := by
          rintro ⟨hrest, hword⟩
          rw [hsplit] at hword
          exact hfind ⟨hword.elim (fun h => (List.cons.inj h).2) fun h => (List.cons.inj h).2, hne.mp hrest⟩
        rw [if_neg hno]
        split
        · next hpre =>
          have hblank : ¬(u.drop w.length).head?.any isspace = true := fun h => hfind ((word_iff hw).mp ⟨hpre, h⟩)
          rw [argItems, matchRest_afterBlanks ht hdrop, if_neg hblank]
          rfl
        · rfl
    · have hno : ¬((entrySplit (x :: u)).2 ≠ [] ∧
          ((entrySplit (x :: u)).1 = '@' :: w ∨ (entrySplit (x :: u)).1 = '#' :: w)) := by
        rintro ⟨-, hword⟩
        rw [hsplit] at hword
        exact hmark ((atOrHash_test x).mpr (hword.imp (fun h => (List.cons.inj h).1) fun h => (List.cons.inj h).1))
      rw [if_neg hmark, if_neg hno]
      rfl

/-- **The directive of a line.** -/
theorem parseIncludeDirective_eq (line : Str) : parseIncludeDirective (trim line) = includeArg line := by
  have hdir := @firstCapture_directive "includedir" (trim line) "^[@#]includedir%s+(.+)$" _ rfl
    (isspace_of_all rfl) compile_includedir rfl (trimmed_trim line)
  have hfile := @firstCapture_directive "include" (trim line) "^[@#]include%s+(.+)$" _ rfl
    (isspace_of_all rfl) compile_include rfl (trimmed_trim line)
  unfold parseIncludeDirective includeArg
  rw [hdir, hfile]
  dsimp only
  by_cases hnil : (entrySplit (trim line)).2 = []
  · rw [if_pos hnil, if_neg fun h => h.1 hnil, if_neg fun h => h.1 hnil]
    rfl
  · rw [if_neg hnil]
    by_cases hword : (entrySplit (trim line)).1 = "@includedir".toList ∨
      (entrySplit (trim line)).1 = "#includedir".toList
    · rw [if_pos hword, if_pos ⟨hnil, hword⟩]
    · rw [if_neg hword, if_neg fun h => hword h.2]
      by_cases hword' : (entrySplit (trim line)).1 = "@include".toList ∨ (entrySplit (trim line)).1 = "#include".toList
      · rw [if_pos hword', if_pos ⟨hnil, hword'⟩]
        rfl
      · rw [if_neg hword', if_neg fun h => hword' h.2]
        rfl

/-! ## The paths -/

/-- The items of a pair of characters that stand for themselves. -/
theorem substitute_pair {pat new : Str} {a b : Char} {c d : Single} (hcs : Spells [c, d] [a, b])
    (hanchor : pat.head? ≠ some '^') (his : compile pat = [.single c .one, .single d .one]) (s : Str) :
    substitute s pat new = replacePair a b new s := by
  have hmatches : ∀ t, matchRest [.single c .one, .single d .one] t [] = if [a, b] <+: t then some (t.drop 2, [])
      else none := by
    intro t
    have h := @matchRest_spells [] [] [c, d] [a, b] hcs t
    rwa [List.append_nil] at h
  have hpair : ∀ x t, [a, b] <+: x :: t ↔ ∃ r, t = b :: r ∧ x = a := by
    intro x t
    rw [List.cons_prefix_cons]
    constructor
    · rintro ⟨rfl, r, rfl⟩
      exact ⟨r, rfl, rfl⟩
    · rintro ⟨r, rfl, rfl⟩
      exact ⟨rfl, r, rfl⟩
  refine substitute_of hanchor his rfl rfl rfl (fun x t hnone => ?_) (fun x t r segs hm => ?_) s
  · rw [hmatches] at hnone
    have hno : ¬[a, b] <+: x :: t := fun h => by
      rw [if_pos h] at hnone
      cases hnone
    cases t with
    | nil => rfl
    | cons y r => rw [replacePair, if_neg fun h => hno ((hpair x _).mpr ⟨r, by rw [h.2], h.1⟩)]
  · rw [hmatches] at hm
    by_cases hpre : [a, b] <+: x :: t
    · rw [if_pos hpre] at hm
      obtain ⟨rest, rfl, rfl⟩ := (hpair x t).mp hpre
      obtain rfl : rest = r := (Prod.mk.inj (Option.some.inj hm)).1
      exact ⟨Nat.le_succ _, by rw [replacePair, if_pos ⟨rfl, rfl⟩]⟩
    · rw [if_neg hpre] at hm
      cases hm

theorem replacePair_cons {a b x : Char} (hx : x ≠ a) (new s : Str) :
    replacePair a b new (x :: s) = x :: replacePair a b new s := by
  cases s with
  | nil => rfl
  | cons y s => rw [replacePair, if_neg fun h => hx h.1]

theorem unescaped_cons {x : Char} (hx : x ≠ '\\') (s : Str) : unescaped (x :: s) = x :: unescaped s := by
  cases s with
  | nil => rfl
  | cons y s => rw [unescaped, if_neg fun h => hx h.1]

/-- **Escapes are read in two passes**: the escaped spaces first, and then the escaped backslashes. -/
theorem unescaped_eq : ∀ s : Str, replacePair '\\' '\\' ['\\'] (replacePair '\\' ' ' [' '] s) = unescaped s
  | [] => rfl
  | [_] => rfl
  | x :: y :: s => by
    by_cases hx : x = '\\'
    · subst hx
      by_cases hspace : y = ' '
      · subst hspace
        rw [replacePair, if_pos ⟨rfl, rfl⟩, List.singleton_append, replacePair_cons (by decide), unescaped_eq s,
          unescaped, if_pos ⟨rfl, .inl rfl⟩]
      · rw [replacePair, if_neg fun h => hspace h.2]
        by_cases hslash : y = '\\'
        · subst hslash
          rw [unescaped, if_pos ⟨rfl, .inr rfl⟩]
          -- a space behind the second backslash is not escaped
          cases s with
          | nil => rfl
          | cons z s =>
            by_cases hz : z = ' '
            · subst hz
              have hno : ¬('\\' = '\\' ∧ ' ' = '\\') := fun h => absurd h.2 (by decide)
              rw [replacePair, if_pos ⟨rfl, rfl⟩, List.singleton_append, replacePair, if_neg hno,
                replacePair_cons (by decide), unescaped_eq s, unescaped_cons (by decide)]
            · have ih := unescaped_eq (z :: s)
              rw [replacePair, if_neg fun h => hz h.2, replacePair, if_pos ⟨rfl, rfl⟩, List.singleton_append, ih]
        · have hno : ¬('\\' = '\\' ∧ (y = ' ' ∨ y = '\\')) := fun h => h.2.elim hspace hslash
          rw [replacePair_cons hslash, replacePair, if_neg fun h => hslash h.2, replacePair_cons hslash, unescaped_eq s,
            unescaped, if_neg hno, unescaped_cons hslash]
    · rw [replacePair_cons hx, replacePair_cons hx, unescaped_eq (y :: s), unescaped_cons hx]
termination_by s => s.length

theorem rtakeWhile_slash {dir base : Str} (hbase : '/' ∉ base) :
    (dir ++ '/' :: base).rtakeWhile (· != '/') = base ∧ (dir ++ '/' :: base).rdropWhile (· != '/') = dir ++ ['/'] := by
  have hname : ∀ x ∈ base.reverse, (x != '/') = true := by
    intro x hx
    rw [bne_iff_ne]
    rintro rfl
    exact hbase (List.mem_reverse.mp hx)
  unfold List.rtakeWhile List.rdropWhile
  rw [List.reverse_append, List.reverse_cons, List.append_assoc, List.takeWhile_append_of_pos hname,
    List.dropWhile_append_of_pos hname, List.singleton_append, List.takeWhile_cons_of_neg (by decide),
    List.dropWhile_cons_of_neg (by decide)]
  simp

/-- The items of `(.*)/[^/]+$`. -/
def dirItems : List Pattern.Item :=
  [.capOpen, .single .any .star, .capClose, .single (.lit '/') .one, .single (allBut '/') .plus, .atEnd]

theorem compile_dir : compile "(.*)/[^/]+$" = dirItems := rfl

/-- A directory is found only in front of a name. -/
theorem exists_of_dirname {path dir : Str} (h : firstCapture path "^(.*)/[^/]+$" = some dir) :
    ∃ d base, path = d ++ '/' :: base ∧ base ≠ [] ∧ '/' ∉ base := by
  rw [@firstCapture_eq "^(.*)/[^/]+$" "(.*)/[^/]+$" _ rfl compile_dir rfl] at h
  obtain ⟨q, hq, -⟩ := Option.bind_eq_some_iff.mp h
  obtain ⟨d, rest, rfl, -, hrest⟩ := of_matchRest_capStar hq
  obtain ⟨text, rfl, htext⟩ := of_matchRest_lit hrest
  cases text with
  | nil => cases htext
  | cons x text =>
    rw [matchRest] at htext
    split at htext
    · next hx =>
      obtain ⟨run, r, rfl, hrun, hr⟩ := longest_split htext
      rw [matchRest] at hr
      split at hr
      · next hnil =>
        rw [hnil, List.append_nil]
        refine ⟨d, x :: run, rfl, List.cons_ne_nil x run, fun hmem => ?_⟩
        rcases List.mem_cons.mp hmem with heq | hmem
        · exact allBut_test.mp hx heq.symm
        · exact allBut_test.mp (hrun _ hmem) rfl
      · cases hr
    · cases htext

/-- **The directory of a file.** -/
theorem getDirname_eq (path : Str) : getDirname path = directoryOf path := by
  unfold getDirname directoryOf
  dsimp only
  cases hdir : firstCapture path "^(.*)/[^/]+$" with
  | some dir =>
    obtain ⟨d, base, rfl, hne, hbase⟩ := exists_of_dirname hdir
    have hlonger : base ≠ d ++ '/' :: base := fun h => by
      have hlength := congrArg List.length h
      rw [List.length_append, List.length_cons] at hlength
      omega
    have hfound := @firstCapture_dirname d base hne hbase
    rw [hdir] at hfound
    rw [Option.getD_some, Option.some.inj hfound, (rtakeWhile_slash hbase).1, (rtakeWhile_slash hbase).2,
      if_neg fun h => h.elim hne hlonger,
      List.dropLast_concat]
  | none =>
    rw [Option.getD_none, if_pos]
    by_contra hno
    obtain ⟨hname, hpath⟩ := not_or.mp hno
    have hsplit : path.rdropWhile (· != '/') ++ path.rtakeWhile (· != '/') = path := List.rdropWhile_append_rtakeWhile
    have hne : path.rdropWhile (· != '/') ≠ [] := fun hnil => hpath (by rw [hnil] at hsplit; exact hsplit)
    have hlast := List.rdropWhile_last_not (· != '/') path hne
    have hslash : (path.rdropWhile (· != '/')).getLast hne = '/' := by simpa using hlast
    have hfront := List.dropLast_append_getLast hne
    rw [hslash] at hfront
    have hbase : '/' ∉ path.rtakeWhile (· != '/') := fun hmem => by simpa using List.mem_rtakeWhile_imp hmem
    have hfound := @firstCapture_dirname (path.rdropWhile (· != '/')).dropLast _ hname hbase
    rw [← List.singleton_append, ← List.append_assoc, hfront, hsplit, hdir] at hfound
    cases hfound

theorem compile_host : compile "%%h" = [.single (.cls '%') .one, .single (.lit 'h') .one] := rfl

theorem spells_host : Spells [.cls '%', .lit 'h'] ['%', 'h'] := spells_spelling "%h"

theorem isMatch_host (s : Str) : isMatch s "%%h" = true ↔ "%h".toList <:+: s := by
  rw [isMatch_search (by decide) compile_host rfl, findRest_isSome, List.infix_iff_prefix_suffix]
  refine exists_congr fun r => ?_
  have hmatch := @matchRest_spells [] [] _ _ spells_host r
  rw [and_comm, show [Pattern.Item.single (.cls '%') .one, .single (.lit 'h') .one] =
    [Single.cls '%', .lit 'h'].map (.single · .one) ++ [] from rfl, hmatch]
  refine and_congr_left fun _ => ?_
  by_cases hpre : ['%', 'h'] <+: r
  · exact iff_of_true (by rw [if_pos hpre]; rfl) hpre
  · exact iff_of_false (by rw [if_neg hpre]; exact Bool.false_ne_true) hpre

/-- **The path a directive names.** -/
theorem resolveIncludePath_eq {arg : Str} (ht : Trimmed arg) (path : Str) (hostname : Option Str) :
    resolveIncludePath arg path hostname = includePath hostname path arg := by
  have hspace : ∀ s, substitute s "\\ " " " = replacePair '\\' ' ' [' '] s :=
    substitute_pair (spells_spelling "\\ ") (by decide) rfl
  have hslash : ∀ s, substitute s "\\\\" "\\" = replacePair '\\' '\\' ['\\'] s :=
    substitute_pair (spells_spelling "\\\\") (by decide) rfl
  unfold resolveIncludePath includePath
  simp only [hspace, hslash, unescaped_eq, getDirname_eq, trim_of_trimmed ht]
  change replaceHost (unquoted arg) hostname >>= _ = _
  unfold replaceHost
  by_cases hhost : "%h".toList <:+: unquoted arg
  · rw [if_pos ((isMatch_host _).mpr hhost), if_pos hhost]
    cases expandReplacement "%h" (hostname.getD []) with
    | error err => rfl
    | ok host =>
      change Except.ok (located path (unescaped (substitute (unquoted arg) "%%h" host))) = _
      rw [substitute_pair spells_host (by decide) compile_host]
      rfl
  · rw [if_neg fun h => hhost ((isMatch_host _).mp h), if_neg hhost]
    rfl

theorem trimmed_includeArg {line : Str} {p : IncludeKind × Str} (h : includeArg line = some p) : Trimmed p.2 := by
  have hrest : p.2 = (entrySplit (trim line)).2 ∧ p.2 ≠ [] := by
    unfold includeArg at h
    dsimp only at h
    split at h
    · cases h
    · next hne =>
      split at h
      · obtain rfl := Option.some.inj h
        exact ⟨rfl, hne⟩
      · split at h
        · obtain rfl := Option.some.inj h
          exact ⟨rfl, hne⟩
        · cases h
  obtain ⟨heq, hne⟩ := hrest
  rw [heq] at hne ⊢
  obtain ⟨pre, hpre⟩ : (entrySplit (trim line)).2 <:+ trim line :=
    (List.dropWhile_suffix _).trans (List.dropWhile_suffix _)
  refine ⟨fun x hx => head_dropWhile hx, fun x hx => (trimmed_trim line).2 x ?_⟩
  rw [← hpre, List.getLast?_append_of_ne_nil _ hne, hx]

/-- **The directive of a line, with its path.** -/
theorem directive_eq (hostname : Option Str) (path line : Str) : directive hostname path line =
    (parseIncludeDirective (trim line)).map fun p => (p.1, resolveIncludePath p.2 path hostname) := by
  rw [parseIncludeDirective_eq, directive]
  cases h : includeArg line with
  | none => rfl
  | some p => rw [Option.map_some, Option.map_some, resolveIncludePath_eq (trimmed_includeArg h)]

/-! ## The files of a directory -/

theorem isMatch_tilde (name : Str) : isMatch name "~$" = true ↔ name.getLast? = some '~' := by
  have hitems : compile "~$" = (spelling "~").map (.single · .one) ++ [.atEnd] := rfl
  rw [isMatch_search (by decide) hitems rfl, findRest_isSome]
  simp only [matchRest_spells_end (spells_spelling "~")]
  constructor
  · rintro ⟨-, ⟨pre, rfl⟩, rfl⟩
    exact List.getLast?_concat
  · intro h
    obtain ⟨pre, rfl⟩ := List.getLast?_eq_some_iff.mp h
    exact ⟨_, List.suffix_append _ _, rfl⟩

theorem isIncludedirMember_iff (name : Str) :
    isIncludedirMember name = decide ('.' ∉ name ∧ name.getLast? ≠ some '~') := by
  unfold isIncludedirMember
  rw [Bool.eq_iff_iff, Bool.and_eq_true, decide_eq_true_eq, decide_eq_true_eq, Bool.not_eq_true', Ne,
    ← isMatch_tilde, Bool.not_eq_true]

/-- **The files of an include directory**: the loader lists them, or fails. -/
theorem listDirectoryFiles_eq (view : View) (errorContext : Option Str) (dir : Str) :
    (∃ files, listDirectoryFiles view errorContext dir = .ok files ∧ directoryFiles view dir = some files) ∨
    ((∃ e, listDirectoryFiles view errorContext dir = .error e) ∧ directoryFiles view dir = none) := by
  have hmember : isIncludedirMember = fun name => decide ('.' ∉ name ∧ name.getLast? ≠ some '~') :=
    funext isIncludedirMember_iff
  unfold directoryFiles listDirectoryFiles
  rw [hmember]
  split
  · cases view.names dir with
    | error err => exact .inr ⟨⟨_, rfl⟩, rfl⟩
    | ok names => exact .inl ⟨_, rfl, rfl⟩
  · exact .inr ⟨⟨_, rfl⟩, rfl⟩

end Sudoers
end Seharden
