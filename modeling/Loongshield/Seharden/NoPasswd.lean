import Loongshield.Lua.Fold
import Loongshield.Seharden.UsePty

/-!
# `remove_nopasswd` and `find_nopasswd_entries`

The enforcer deletes the `NOPASSWD:` tags of a line, or takes the negated `authenticate` out of a `Defaults` line; the
probe looks at the active lines of the tree.

- `dropTags`, `squeeze`: what the substitutions make of a text;
- `rewriteSudoAuthLine_eq`: what becomes of a line;
- `remove_nopasswd_clears_iff`: when a run that succeeds leaves nothing to report.
-/

namespace Seharden
namespace Sudo

open Lua Pattern Sudoers

/-! ## The substitutions -/

/-- The tag, in small letters. -/
def tag : Str := "nopasswd:"

/-- The characters of the pattern for the tag. -/
def tagClasses : List Single :=
  ([('N', 'n'), ('O', 'o'), ('P', 'p'), ('A', 'a'), ('S', 's'), ('S', 's'), ('W', 'w'), ('D', 'd')].map fun p =>
    .set false [.lit p.1, .lit p.2]) ++ [.lit ':']

/-- The items of the pattern for the tag. -/
def tagItems : List Pattern.Item := .capOpen :: (tagClasses.map (.single · .one) ++ [.capClose])

theorem compile_tag : compile "([Nn][Oo][Pp][Aa][Ss][Ss][Ww][Dd]:)" = tagItems := rfl

/-- These characters are those of a text in either case. -/
abbrev FoldSpells (cs : List Single) (w : Str) : Prop :=
    List.Forall₂ (fun c k => ∀ x, c.test x = (lowerChar x == k)) cs w

theorem letterClass_test {u l : Char} (hu : lowerChar u = l) (hl : lowerChar l = l) (hnat : u.toNat + 32 = l.toNat)
    (x : Char) :
    (Single.set false [.lit u, .lit l]).test x = (lowerChar x == l) := by
  have htest : (Single.set false [.lit u, .lit l]).test x = (((u == x) || ((l == x) || false)) != false) := rfl
  rw [htest, Bool.or_false, Bool.bne_false, Bool.eq_iff_iff, Bool.or_eq_true, beq_iff_eq, beq_iff_eq, beq_iff_eq]
  constructor
  · rintro (rfl | rfl)
    · exact hu
    · exact hl
  · intro h
    rcases lowerChar_eq_letter hnat h with rfl | rfl
    · exact .inr rfl
    · exact .inl rfl

theorem colon_test (x : Char) : (Single.lit ':').test x = (lowerChar x == ':') := by
  rw [Bool.eq_iff_iff, lit_test, beq_iff_eq, lowerChar_eq_iff (by decide)]

theorem foldSpells_tag : FoldSpells tagClasses tag := by
  have hletter := fun u l hu hl hnat => @letterClass_test u l hu hl hnat
  refine .cons (hletter 'N' 'n' (by decide) (by decide) (by decide))
    (.cons (hletter 'O' 'o' (by decide) (by decide) (by decide))
    (.cons (hletter 'P' 'p' (by decide) (by decide) (by decide))
      (.cons (hletter 'A' 'a' (by decide) (by decide) (by decide))
    (.cons (hletter 'S' 's' (by decide) (by decide) (by decide))
      (.cons (hletter 'S' 's' (by decide) (by decide) (by decide))
    (.cons (hletter 'W' 'w' (by decide) (by decide) (by decide))
      (.cons (hletter 'D' 'd' (by decide) (by decide) (by decide))
    (.cons colon_test .nil))))))))

/-- Such items take the text in either case. -/
theorem matchRest_foldSpells {is : List Pattern.Item} {segs : List Seg} {cs : List Single} {w : Str}
    (h : FoldSpells cs w) :
    ∀ r : Str, matchRest (cs.map (.single · .one) ++ is) r segs =
      if w <+: lower r then matchRest is (r.drop w.length) segs else none := by
  induction h with
  | nil =>
    intro r
    rw [if_pos List.nil_prefix]
    rfl
  | @cons c k cs w hc _ ih =>
    intro r
    cases r with
    | nil =>
      have hno : ¬(k :: w <+: lower []) := fun h => List.cons_ne_nil _ _ (List.prefix_nil.mp h)
      rw [if_neg hno]
      rfl
    | cons x r =>
      rw [List.map_cons, List.cons_append, matchRest, hc, ih r, lower_cons]
      by_cases hx : lowerChar x = k
      · rw [if_pos (beq_iff_eq.mpr hx)]
        exact if_congr (by rw [List.cons_prefix_cons, and_iff_right hx.symm]) rfl rfl
      · have hno : ¬(k :: w <+: lowerChar x :: lower r) := fun h => hx (List.cons_prefix_cons.mp h).1.symm
        rw [if_neg (by simpa using hx), if_neg hno]

/-- A text without its tags. -/
def dropTags : Str → Str
  | [] => []
  | x :: s => if tag <+: lower (x :: s) then dropTags (s.drop 8) else x :: dropTags s
termination_by s => s.length
decreasing_by all_goals grind

theorem matchRest_tag (s : Str) : (matchRest tagItems s []).map Prod.fst = if tag <+: lower s then some (s.drop 9)
    else none := by
  rw [tagItems, matchRest, matchRest_foldSpells foldSpells_tag, List.nil_append]
  by_cases h : tag <+: lower s
  · rw [if_pos h, if_pos h, matchRest]
    rfl
  · rw [if_neg h, if_neg h]
    rfl

theorem substitute_tag (s : Str) : substitute s "([Nn][Oo][Pp][Aa][Ss][Ss][Ww][Dd]:)" [] = dropTags s := by
  refine substitute_of (by decide) compile_tag rfl rfl (by unfold dropTags; rfl) (fun x s hnone => ?_)
    (fun x s r segs hm => ?_) s
  · have hmatch := matchRest_tag (x :: s)
    rw [hnone] at hmatch
    have htag : ¬tag <+: lower (x :: s) := fun h => by
      rw [if_pos h] at hmatch
      cases hmatch
    rw [dropTags, if_neg htag]
  · have hmatch := matchRest_tag (x :: s)
    rw [hm] at hmatch
    by_cases htag : tag <+: lower (x :: s)
    · rw [if_pos htag] at hmatch
      obtain rfl : r = s.drop 8 := Option.some.inj hmatch
      exact ⟨by rw [List.length_drop]; omega, by rw [dropTags, if_pos htag, List.nil_append]⟩
    · rw [if_neg htag] at hmatch
      cases hmatch

/-- A text with one space for each run of blanks. -/
def squeeze : Str → Str
  | [] => []
  | x :: s => if isspace x then ' ' :: squeeze (s.dropWhile isspace) else x :: squeeze s
termination_by s => s.length
decreasing_by
  all_goals simp only [List.length_cons]
  · have h := (List.dropWhile_suffix isspace (l := s)).length_le
    omega
  · omega

theorem substitute_squeeze (s : Str) : substitute s "%s+" " " = squeeze s := by
  have hitems : compile "%s+" = [.single blank .plus] := rfl
  refine substitute_of (by decide) hitems rfl rfl (by unfold squeeze; rfl)
    (fun x s hnone => ?_) (fun x s r segs hm => ?_) s
  · have hx : ¬isspace x = true := fun hx => by
      rw [matchRest_run s (show blank.test x = true from hx)] at hnone
      cases hnone
    rw [squeeze, if_neg hx]
  · by_cases hx : isspace x = true
    · rw [matchRest_run s (show blank.test x = true from hx)] at hm
      obtain rfl : s.dropWhile isspace = r := (Prod.mk.inj (Option.some.inj hm)).1
      exact ⟨(List.dropWhile_suffix _).length_le, by rw [squeeze, if_pos hx]; rfl⟩
    · rw [matchRest, blank_test, if_neg hx] at hm
      cases hm

/-- A text without the blanks at its end. -/
def dropEnd : Str → Str
  | [] => []
  | x :: s => if isspace x = true ∧ s.dropWhile isspace = [] then [] else x :: dropEnd s

theorem matchRest_blanksEnd (x : Char) (s : Str) : matchRest [.single blank .plus, .atEnd] (x :: s) [] =
    if isspace x = true ∧ s.dropWhile isspace = [] then some ([], []) else none := by
  rw [matchRest, blank_test]
  by_cases hx : isspace x = true
  · rw [if_pos hx, longest_eq fun _ _ _ => rfl]
    have htest : s.dropWhile blank.test = s.dropWhile isspace := rfl
    rw [htest]
    cases hd : s.dropWhile isspace with
    | nil =>
      rw [if_pos ⟨hx, rfl⟩]
      rfl
    | cons y t =>
      rw [if_neg fun h => List.cons_ne_nil y t h.2]
      rfl
  · rw [if_neg hx, if_neg fun h => hx h.1]

theorem dropEnd_append : ∀ s : Str, ∃ b, s = dropEnd s ++ b ∧ ∀ x ∈ b, isspace x = true
  | [] => ⟨[], rfl, fun _ hx => absurd hx List.not_mem_nil⟩
  | x :: s => by
    unfold dropEnd
    split
    · next hend =>
      refine ⟨x :: s, rfl, fun y hy => ?_⟩
      rcases List.mem_cons.mp hy with rfl | hy
      · exact hend.1
      · exact List.dropWhile_eq_nil_iff.mp hend.2 y hy
    · obtain ⟨b, hs, hb⟩ := dropEnd_append s
      exact ⟨b, congrArg (x :: ·) hs, hb⟩

theorem trim_dropEnd (s : Str) : trim (dropEnd s) = trim s := by
  obtain ⟨b, hs, hb⟩ := dropEnd_append s
  conv_rhs => rw [hs]
  exact (trim_append_blanks hb _).symm

theorem substitute_dropEnd (s : Str) : substitute s "%s+$" [] = dropEnd s := by
  have hitems : compile "%s+$" = [.single blank .plus, .atEnd] := rfl
  refine substitute_of (by decide) hitems rfl rfl rfl (fun x s hnone => ?_)
    (fun x s r segs hm => ?_) s
  · rw [matchRest_blanksEnd] at hnone
    have hend : ¬(isspace x = true ∧ s.dropWhile isspace = []) := fun h => by
      rw [if_pos h] at hnone
      cases hnone
    rw [dropEnd, if_neg hend]
  · rw [matchRest_blanksEnd] at hm
    by_cases hend : isspace x = true ∧ s.dropWhile isspace = []
    · rw [if_pos hend] at hm
      obtain rfl : [] = r := (Prod.mk.inj (Option.some.inj hm)).1
      refine ⟨Nat.zero_le _, ?_⟩
      change dropEnd (x :: s) = []
      rw [dropEnd, if_pos hend]
    · rw [if_neg hend] at hm
      cases hm

/-- The blanks that a line begins with. -/
theorem firstCapture_indent (line : Str) : firstCapture line "^(%s*)" = some (line.takeWhile isspace) := by
  have hsplit : line.takeWhile isspace ++ line.dropWhile isspace = line := List.takeWhile_append_dropWhile
  have hrun : matchRest [.capOpen, .single blank .star, .capClose] (line.takeWhile isspace ++ line.dropWhile isspace)
    [] =
      some (line.dropWhile isspace, [⟨line, some (line.takeWhile isspace).length⟩]) := by
    refine matchRest_capStar (fun x hx => List.mem_takeWhile_imp hx) (fun x hx => head_dropWhile hx) ?_
    rw [hsplit]
    rfl
  rw [hsplit] at hrun
  have hitems : compile "(%s*)" = [.capOpen, .single blank .star, .capClose] := rfl
  have hmatch : strMatch line "^(%s*)" = _ := strMatch_anchored rfl hitems rfl line
  have htake : line.take (line.takeWhile isspace).length = line.takeWhile isspace := by
    conv_lhs => rw [← hsplit]
    rw [List.takeWhile_append_dropWhile]
    exact Eq.symm <| List.prefix_iff_eq_take.mp <| List.takeWhile_prefix isspace
  unfold firstCapture
  rw [hmatch, hrun]
  simp [texts, Seg.text, htake]

/-! ## What becomes of a line -/

/-- A line with the tag. -/
def Tagged (line : Str) : Bool := decide (active line ≠ [] ∧ (active line).head? ≠ some '#' ∧
    tag <:+: lower (active line))

/-- What becomes of such a line. -/
def untagged (line : Str) : Str := line.takeWhile isspace ++ trim (squeeze (dropTags line))

theorem rewriteSudoAuthLine_eq (line : Str) : rewriteSudoAuthLine line =
    if Tagged line then (some (untagged line), true) else rewriteDefaultsWithoutFlag line "authenticate" true := by
  unfold rewriteSudoAuthLine
  dsimp only
  rw [active_eq]
  by_cases hcomment : active line = [] ∨ (active line).head? = some '#'
  · have htagged : Tagged line = false := by
      refine decide_eq_false fun h => ?_
      rcases hcomment with hnil | hhash
      · exact h.1 hnil
      · exact h.2.1 hhash
    rw [if_pos hcomment, htagged, if_neg Bool.false_ne_true, rewriteDefaultsWithoutFlag]
    dsimp only
    rw [active_eq, if_pos hcomment]
  · rw [if_neg hcomment]
    obtain ⟨hnil, hhash⟩ := not_or.mp hcomment
    by_cases htag : tag <:+: lower (active line)
    · have htagged : Tagged line = true := decide_eq_true ⟨hnil, hhash, htag⟩
      rw [substitute_tag, substitute_squeeze, substitute_dropEnd, trim_dropEnd, firstCapture_indent, if_pos htagged]
      exact if_pos htag
    · have htagged : Tagged line = false := decide_eq_false fun h => htag h.2.2
      rw [htagged, if_neg Bool.false_ne_true]
      exact if_neg htag

/-- A line that turns the question for a password off. -/
def disablesAuthenticate (line : Str) : Bool := Sets "authenticate" true line

theorem auth_cases (hostname : Option Str) (p line : Str) :
    (Tagged line = true ∧ rewriteSudoAuthLine line = (some (untagged line), true)) ∨
    (Tagged line = false ∧ disablesAuthenticate line = false ∧ rewriteSudoAuthLine line = (some line, false)) ∨
    (Tagged line = false ∧ disablesAuthenticate line = true ∧ directive hostname p line = none ∧
      (rewriteSudoAuthLine line).2 = true ∧ ∀ new, (rewriteSudoAuthLine line).1 = some new →
        nopasswdReason (active new) = none ∧ directive hostname p new = none ∧ ('\n' ∉ line → '\n' ∉ new)) := by
  rw [rewriteSudoAuthLine_eq]
  cases htagged : Tagged line with
  | true => exact .inl ⟨rfl, rfl⟩
  | false =>
    rw [if_neg Bool.false_ne_true]
    refine .inr ?_
    rcases rewrite_cases line "authenticate" true with ⟨hsets, hrun⟩ | ⟨hsets, ⟨scope, hscope⟩, hrun⟩
    · exact .inl ⟨rfl, hsets, hrun⟩
    · refine .inr ⟨rfl, hsets, ?_⟩
      rcases rewritten_cases hostname p line "authenticate" true with ⟨hno, -⟩ | ⟨-, hdir, hall⟩
      · exact absurd (hsets.symm.trans hno) nofun
      · refine ⟨hdir, by rw [hrun], fun new hnew => ?_⟩
        obtain ⟨hnosets, hnewdir, hnewline⟩ := hall new hnew
        refine ⟨?_, hnewdir, hnewline⟩
        rw [hrun] at hnew
        dsimp only at hnew
        split at hnew
        · cases hnew
        · next hne =>
          cases hnew
          have hparse := (congrArg parseDefaultsEntry (trimmed_and_active hscope hne).2).trans
            (parseDefaultsEntry_kept line "authenticate" true hscope hne)
          unfold nopasswdReason defaultsScope
          rw [hparse]
          exact if_neg (flagState_of_sets hnosets)

/-- The lines of a file after a run. -/
def authLines (lines : List Str) : List Str := lines.filterMap fun line => (rewriteSudoAuthLine line).1

/-- A line that the probe reports. -/
def reports (line : Str) : Bool := decide ((trim line).head? ≠ some '#') && (nopasswdReason (active line)).isSome

theorem nopasswdReason_nil : nopasswdReason [] = none := by decide

/-- A line that is kept as it is, is not reported. -/
theorem reports_kept {line : Str} (htagged : Tagged line = false) (hdisables : disablesAuthenticate line = false) :
    reports line = false := by
  unfold reports
  rw [Bool.and_eq_false_iff]
  by_cases hhash : (trim line).head? = some '#'
  · exact .inl (decide_eq_false fun h => h hhash)
  · right
    have hnone : nopasswdReason (active line) = none := by
      by_cases hnil : active line = []
      · rw [hnil]
        exact nopasswdReason_nil
      · unfold nopasswdReason
        split
        · refine if_neg fun htag => of_decide_eq_false htagged ⟨hnil, fun hactive => hhash ?_, htag⟩
          exact head_of_active hhash hactive
        · exact if_neg (flagState_of_sets hdisables)
    rw [hnone]
    rfl

theorem mem_dropTags {x : Char} (s : Str) : x ∈ dropTags s → x ∈ s := by
  induction s using dropTags.induct with
  | case1 =>
    unfold dropTags
    exact id
  | case2 y s htag ih =>
    unfold dropTags
    rw [if_pos htag]
    exact fun h => List.mem_cons_of_mem y (List.mem_of_mem_drop (ih h))
  | case3 y s htag ih =>
    unfold dropTags
    rw [if_neg htag, List.mem_cons, List.mem_cons]
    exact Or.imp_right ih

theorem mem_squeeze {x : Char} (hx : x ≠ ' ') (s : Str) : x ∈ squeeze s → x ∈ s := by
  induction s using squeeze.induct with
  | case1 =>
    unfold squeeze
    exact id
  | case2 y s hy ih =>
    unfold squeeze
    rw [if_pos hy, List.mem_cons, or_iff_right hx]
    exact fun h => List.mem_cons_of_mem y ((List.dropWhile_suffix _).subset (ih h))
  | case3 y s hy ih =>
    unfold squeeze
    rw [if_neg hy, List.mem_cons, List.mem_cons]
    exact Or.imp_right ih

theorem newline_untagged {line : Str} (h : '\n' ∉ line) : '\n' ∉ untagged line := by
  intro hmem
  rcases List.mem_append.mp hmem with hmem | hmem
  · exact h ((List.takeWhile_sublist isspace).subset hmem)
  · exact h (mem_dropTags line (mem_squeeze (by decide) _ ((infix_trim _).subset hmem)))

section Lines

variable {lines : List Str}

theorem lines_authLines (h : Lines lines) : Lines (authLines lines) := by
  intro new hnew
  obtain ⟨line, hline, hrun⟩ := List.mem_filterMap.mp hnew
  rcases auth_cases none [] line with ⟨-, hres⟩ | ⟨-, -, hres⟩ | ⟨-, -, -, -, hall⟩
  · rw [hres] at hrun
    cases hrun
    exact newline_untagged (h line hline)
  · rw [hres] at hrun
    rw [← Option.some.inj hrun]
    exact h line hline
  · exact (hall new hrun).2.2 (h line hline)

theorem authLines_eq_self (h : (!lines.any fun line => (rewriteSudoAuthLine line).2) = true) :
    authLines lines = lines := by
  rw [Bool.not_eq_true', List.any_eq_false] at h
  have hcongr : authLines lines = lines.filterMap some := by
    refine List.filterMap_congr fun line hline => ?_
    rcases auth_cases none [] line with ⟨-, hres⟩ | ⟨-, -, hres⟩ | ⟨-, -, -, hchanged, -⟩
    · exact absurd (by rw [hres]) (h line hline)
    · rw [hres]
    · exact absurd hchanged (h line hline)
  rw [hcongr, List.filterMap_some]

/-- A line that neither has the tag nor disables authentication. -/
def untouched (line : Str) : Bool := !Tagged line && !disablesAuthenticate line

theorem filter_sublist_authLines : ∀ lines : List Str, (lines.filter untouched).Sublist (authLines lines)
  | [] => List.Sublist.refl _
  | line :: lines => by
    have ih := filter_sublist_authLines lines
    have hcons : (authLines lines).Sublist (authLines (line :: lines)) := by
      unfold authLines
      rw [List.filterMap_cons]
      split
      · exact List.Sublist.refl _
      · exact List.sublist_cons_self _ _
    cases hun : untouched line with
    | false =>
      rw [List.filter_cons_of_neg (by rw [hun]; exact Bool.false_ne_true)]
      exact ih.trans hcons
    | true =>
      obtain ⟨htagged, hdisables⟩ := (Bool.and_eq_true_iff.mp hun).imp (Bool.not_eq_true' _).mp (Bool.not_eq_true' _).mp
      rcases auth_cases none [] line with ⟨h, -⟩ | ⟨-, -, hres⟩ | ⟨-, h, -⟩
      · exact absurd (h.symm.trans htagged) nofun
      · rw [List.filter_cons_of_pos hun, authLines, List.filterMap_cons, hres]
        exact ih.cons_cons line
      · exact absurd (h.symm.trans hdisables) nofun

/-- The include tree stays as it is, if no tagged line takes part in it. -/
theorem directives_authLines {hostname : Option Str} {p : Str}
    (hplain : ∀ line ∈ lines, Tagged line = true → directive hostname p line = none ∧
      directive hostname p (untagged line) = none) :
    (authLines lines).filterMap (directive hostname p) = lines.filterMap (directive hostname p) := by
  unfold authLines
  rw [List.filterMap_filterMap]
  refine List.filterMap_congr fun line hline => ?_
  rcases auth_cases hostname p line with ⟨htagged, hres⟩ | ⟨-, -, hres⟩ | ⟨-, -, hdir, -, hall⟩
  · obtain ⟨hold, hnew⟩ := hplain line hline htagged
    rw [hres, hold]
    exact hnew
  · rw [hres]
    rfl
  · rw [hdir]
    cases hnew : (rewriteSudoAuthLine line).1 with
    | none => rfl
    | some new => exact (hall new hnew).2.1

/-- **What is reported after a run**: what is left of a tagged line. -/
theorem mem_authLines_reports {new : Str} (h : new ∈ authLines lines) (hreports : reports new = true) :
    ∃ line ∈ lines, Tagged line = true ∧ untagged line = new := by
  obtain ⟨line, hline, hrun⟩ := List.mem_filterMap.mp h
  rcases auth_cases none [] line with ⟨htagged, hres⟩ | ⟨htagged, hdisables, hres⟩ | ⟨-, -, -, -, hall⟩
  · rw [hres] at hrun
    exact ⟨line, hline, htagged, Option.some.inj hrun⟩
  · rw [hres] at hrun
    cases hrun
    rw [reports_kept htagged hdisables] at hreports
    cases hreports
  · unfold reports at hreports
    rw [(hall new hrun).1, Option.isSome_none, Bool.and_false] at hreports
    cases hreports

end Lines

/-! ## The enforcer and the probe -/

theorem nopasswdFile_eq (env : Env) (path : Str) : nopasswdFile env path =
    sudoFile env (.ok ()) "sudo.remove_nopasswd" (fun lines => !lines.any fun line => (rewriteSudoAuthLine line).2)
      authLines path := by
  refine congrArg (isSymlink env path >>= ·) (funext fun link => ?_)
  cases link with
  | true => rfl
  | false =>
    refine congrArg (readLines env path "sudo.remove_nopasswd" sudoDeps false >>= ·) (funext fun r => ?_)
    cases r with
    | error err => rfl
    | ok r =>
      dsimp only
      by_cases hany : (r.1.any fun line => (rewriteSudoAuthLine line).2) = true
      · rw [if_pos hany, if_neg (by rw [hany]; exact Bool.false_ne_true)]
        rfl
      · rw [if_neg hany, if_pos (by rw [Bool.not_eq_true] at hany; rw [hany]; rfl)]

section Probe

variable {view : View} {hostname : Option Str} {root : Str} {st : State}

/-- The probe reports nothing if and only if no line of a file is reported. -/
theorem findNopasswdEntries_nil (h : load view hostname none defaultMaxDepth [root] = .ok st) :
    findNopasswdEntries view hostname (some [root]) = .ok [] ↔
      ∀ p ∈ st.files, ∀ lines, view.lines p = .ok lines → ∀ line ∈ lines, directive hostname p line = none →
        reports line = false := by
  have hfind : findNopasswdEntries view hostname (some [root]) = .ok (st.lines.filterMap fun entry =>
      (nopasswdReason entry.text).map fun reason => (entry, reason)) := by
    unfold findNopasswdEntries loadProbeLines
    dsimp only [Option.getD_some]
    rw [if_neg (List.cons_ne_nil _ _), h]
    rfl
  rw [hfind, Except.ok.injEq, List.filterMap_eq_nil_iff]
  constructor
  · intro hnone p hp lines hl line hline hdir
    rw [← Bool.not_eq_true]
    intro hreports
    obtain ⟨hhash, hreason⟩ := Bool.and_eq_true_iff.mp hreports
    have hnil : active line ≠ [] := by
      intro hnil
      rw [hnil, nopasswdReason_nil] at hreason
      cases hreason
    have hsub := activeLine_subset h hp hl hline hdir
    rw [activeLine_eq hnil (of_decide_eq_true hhash)] at hsub
    have hentry := Option.map_eq_none_iff.mp (hnone _ (hsub (List.mem_singleton_self _)))
    rw [hentry] at hreason
    cases hreason
  · intro hall e he
    obtain ⟨p, hp, lines, hl, line, hline, hdir, hact⟩ := mem_load_lines h he
    obtain ⟨rfl, -, hhash⟩ := mem_activeLine hact
    have hreports := hall p hp lines hl line hline hdir
    rw [reports, decide_eq_true hhash, Bool.true_and, Option.isSome_eq_false_iff, Option.isNone_iff_eq_none] at hreports
    exact Option.map_eq_none_iff.mpr hreports

end Probe

/-- **What `remove_nopasswd` leaves.** Only files of the include tree changed, and lines without the tag that do not
disable authentication are there, in order. The probe finds nothing if and only if it would not report what the
substitutions leave of each tagged line. -/
theorem remove_nopasswd_clears_iff {env : Env} (henv : env.Reliable) (hlinks : ∀ k file, env.seesLink k file = false)
    {dirs : Dirs} {hostname : Option Str} {params : Value} {s s' : Sys} (hfresh : env.Fresh s)
    (h : removeNopasswd env dirs hostname params s = (.ok (.ok ()), s')) {st : State}
    (hload : load (s.view dirs) hostname none defaultMaxDepth [rootOf params] = .ok st)
    (hplain : ∀ p ∈ st.files, ∀ line ∈ s.linesAt p, Tagged line = true →
      directive hostname p line = none ∧ directive hostname p (untagged line) = none) :
    (∀ p, p ∉ st.files → s'.disk p = s.disk p) ∧
    (∀ p ∈ st.files, ((s.linesAt p).filter untouched).Sublist (s'.linesAt p)) ∧
    (findNopasswdEntries (s'.view dirs) hostname (some [rootOf params]) = .ok [] ↔
      ∀ p ∈ st.files, ∀ line ∈ s.linesAt p, Tagged line = true → reports (untagged line) = false) := by
  obtain ⟨st₀, hload₀, hrun⟩ := editSudoers_ok h
  have hnodup := ((load_covers_tree (s.view dirs) hostname (some "sudo.remove_nopasswd".toList) defaultMaxDepth
    [rootOf params]).2 st₀ hload₀).1
  have hedit : Edits env (fun path => nopasswdFile env path) fun _ => authLines := by
    intro p s s' hfresh h
    dsimp only at h
    rw [nopasswdFile_eq] at h
    exact sudoFile_edits henv (.inr hlinks) (fun lines => lines_authLines) (fun lines => authLines_eq_self) hfresh h
  have hafter := @eachFile_edits _ _ _ hedit _ s.tick s' hfresh hnodup hrun
  obtain ⟨st₁, hload₁, hfiles₁⟩ : ∃ st₁, load (s.view dirs) hostname none defaultMaxDepth [rootOf params] = .ok st₁ ∧
    ∀ p, p ∈ st₁.files ↔ p ∈ st₀.files := (SameTree.refl (s.view dirs) hostname).files hload₀
  obtain rfl := Except.ok.inj (hload₁.symm.trans hload)
  have hchanged : ∀ p ∈ st₁.files, (s.disk p).isSome = true ∧ (s'.disk p).isSome = true ∧
      s'.linesAt p = authLines (s.linesAt p) := fun p hp => (hafter p).2 ((hfiles₁ p).mp hp)
  have hsame : ∀ p, p ∉ st₁.files → s'.disk p = s.disk p := fun p hp => (hafter p).1 fun hmem =>
    hp ((hfiles₁ p).mpr hmem)
  have htree : SameTree (s.view dirs) (s'.view dirs) hostname := by
    refine sameTree_of_states (fun p => ?_) fun p => ?_
    · by_cases hp : p ∈ st₁.files
      · obtain ⟨hb, ha, -⟩ := hchanged p hp
        exact ha.trans hb.symm
      · rw [hsame p hp]
    · by_cases hp : p ∈ st₁.files
      · rw [(hchanged p hp).2.2, directives_authLines (hplain p hp)]
      · unfold Sys.linesAt
        rw [hsame p hp]
  obtain ⟨st', hload', hfiles'⟩ : ∃ st', load (s'.view dirs) hostname none defaultMaxDepth [rootOf params] = .ok st' ∧
    ∀ p, p ∈ st'.files ↔ p ∈ st₁.files := htree.files hload
  refine ⟨hsame, fun p hp => ?_, ?_⟩
  · rw [(hchanged p hp).2.2]
    exact filter_sublist_authLines _
  · rw [findNopasswdEntries_nil hload']
    constructor
    · intro hnone p hp line hline htagged
      have hview : (s'.view dirs).lines p = .ok (s'.linesAt p) := (view_lines s' p _).mpr ⟨(hchanged p hp).2.1, rfl⟩
      refine hnone p ((hfiles' p).mpr hp) _ hview _ ?_ (hplain p hp line hline htagged).2
      rw [(hchanged p hp).2.2]
      refine List.mem_filterMap.mpr ⟨line, hline, ?_⟩
      rw [rewriteSudoAuthLine_eq, if_pos htagged]
    · intro hall p hp lines hl new hnew hdir
      have hp₁ := (hfiles' p).mp hp
      rw [((view_lines s' p lines).mp hl).2, (hchanged p hp₁).2.2] at hnew
      rw [← Bool.not_eq_true]
      intro hreports
      obtain ⟨line, hline, htagged, rfl⟩ := mem_authLines_reports hnew hreports
      rw [hall p hp₁ line hline htagged] at hreports
      cases hreports

/-- A configuration with a tag, and a file that disables authentication. -/
def nopasswdSys : Sys where
  disk p :=
    if p = "/etc/sudoers".toList then
      some ⟨"Defaults env_reset\n%ops  ALL=(ALL)  NoPasswd: ALL # temporary\n@includedir /etc/sudoers.d\n", 0, 0, 0o440⟩
    else if p = "/etc/sudoers.d/ops".toList then some ⟨"Defaults:ops !authenticate, insults\n", 0, 0, 0o440⟩
    else none
  clock := 0
  effects := []

theorem nopasswdSys_fresh : calmEnv.Fresh nopasswdSys := by
  intro p hp
  have h := sudoersSys_fresh p hp
  by_cases h1 : p = "/etc/sudoers".toList
  · rw [h1] at h
    cases h
  · by_cases h2 : p = "/etc/sudoers.d/ops".toList
    · rw [h2] at h
      cases h
    · exact (if_neg h1).trans (if_neg h2)

theorem nopasswdSys_tagged {p line : Str} (hline : line ∈ nopasswdSys.linesAt p) (htagged : Tagged line = true) :
    line = "%ops  ALL=(ALL)  NoPasswd: ALL # temporary".toList := by
  have hroot : nopasswdSys.linesAt "/etc/sudoers".toList = ["Defaults env_reset".toList,
    "%ops  ALL=(ALL)  NoPasswd: ALL # temporary".toList, "@includedir /etc/sudoers.d".toList] := by decide +kernel
  have hops : nopasswdSys.linesAt "/etc/sudoers.d/ops".toList = ["Defaults:ops !authenticate, insults".toList] := by
    decide +kernel
  have hreset : Tagged "Defaults env_reset".toList = false := by decide +kernel
  have hdir : Tagged "@includedir /etc/sudoers.d".toList = false := by decide +kernel
  have hauth : Tagged "Defaults:ops !authenticate, insults".toList = false := by decide +kernel
  by_cases h1 : p = "/etc/sudoers".toList
  · rw [h1, hroot] at hline
    rcases List.mem_cons.mp hline with rfl | hline
    · exact absurd (hreset.symm.trans htagged) nofun
    · rcases List.mem_cons.mp hline with rfl | hline
      · rfl
      · rw [List.mem_singleton.mp hline, hdir] at htagged
        cases htagged
  · by_cases h2 : p = "/etc/sudoers.d/ops".toList
    · rw [h2, hops] at hline
      rw [List.mem_singleton.mp hline, hauth] at htagged
      cases htagged
    · have hnone : nopasswdSys.disk p = none := (if_neg h1).trans (if_neg h2)
      unfold Sys.linesAt at hline
      rw [hnone] at hline
      cases hline

theorem calmEnv_seesLink (k : Nat) (file : Option File) : calmEnv.seesLink k file = false := by
  have hdone : calmEnv.outcome k = .done := by
    unfold calmEnv Env.oneOutcome
    dsimp only
    split <;> rfl
  unfold Env.seesLink Env.attr
  rw [hdone]
  cases file <;> rfl

theorem nopasswd_cleared : findNopasswdEntries ((removeNopasswd calmEnv sudoersDirs none
    (.record 1 []) nopasswdSys).2.view
    sudoersDirs) none (some ["/etc/sudoers".toList]) = .ok [] := by
  have hrun : (removeNopasswd calmEnv sudoersDirs none (.record 1 []) nopasswdSys).1 = .ok (.ok ()) := by decide +kernel
  obtain ⟨st, hload⟩ : ∃ st, load (nopasswdSys.view sudoersDirs) none none defaultMaxDepth ["/etc/sudoers".toList] =
    .ok st := by
    cases hload : load (nopasswdSys.view sudoersDirs) none none defaultMaxDepth ["/etc/sudoers".toList] with
    | ok st => exact ⟨st, rfl⟩
    | error err =>
      have hok : (load (nopasswdSys.view sudoersDirs) none none defaultMaxDepth ["/etc/sudoers".toList]).isOk =
        true := by
        decide +kernel
      rw [hload] at hok
      cases hok
  have hleft : reports (untagged "%ops  ALL=(ALL)  NoPasswd: ALL # temporary".toList) = false := by decide +kernel
  refine (remove_nopasswd_clears_iff calmEnv_reliable calmEnv_seesLink nopasswdSys_fresh
    (run_of_fst hrun) hload ?_).2.2.mpr ?_
  · intro p _ line hline htagged
    rw [nopasswdSys_tagged hline htagged]
    exact ⟨directive_eq_none (by decide +kernel) (by decide +kernel),
      directive_eq_none (by decide +kernel) (by decide +kernel)⟩
  · intro p _ line hline htagged
    rw [nopasswdSys_tagged hline htagged]
    exact hleft

end Sudo
end Seharden
