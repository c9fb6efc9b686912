import Loongshield.Lua.Flags
import Loongshield.Lua.Rest
import Loongshield.Seharden.Text
import Mathlib.Data.List.DropRight

/-!
# What the patterns for blanks give

- `substitute_of`: what a substitution gives;
- `trim_eq`: `trim` takes the blanks from both ends;
- `captures_words`: `%S+` gives the words.
-/

namespace Seharden

open Lua Pattern

/-! ## Substitutions -/

/-- **A function that follows a substitution** where its pattern matches, and copies the other characters. -/
theorem substitute_of {is : List Pattern.Item} {pat text : Str} {g : Str → Str} (hanchor : pat.head? ≠ some '^')
    (his : compile pat = is) (hs : Simple 0 0 is = true) (hnil : matchRest is [] [] = none) (hend : g [] = [])
    (hcopy : ∀ x s, matchRest is (x :: s) [] = none → g (x :: s) = x :: g s)
    (hmatch : ∀ x s r segs, matchRest is (x :: s) [] = some (r, segs) →
      r.length ≤ s.length ∧ g (x :: s) = text ++ g r) (s : Str) : substitute s pat text = g s := by
  have hgsub := gsub_eq hanchor his hs (fun _ => text) s
  rw [gsubRest_of hnil hend hcopy hmatch (Nat.lt_succ_self _)] at hgsub
  unfold substitute
  rw [hgsub]

/-! ## Joined texts -/

theorem mem_intercalate {x : Char} {sep : Str} : ∀ {ts : List Str}, x ∈ sep.intercalate ts → x ∈ sep ∨ ∃ t ∈ ts, x ∈ t
  | [], h => by cases h
  | [t], h => .inr ⟨t, List.mem_cons_self, by simpa [List.intercalate] using h⟩
  | t :: t' :: ts, h => by
    have hjoin : sep.intercalate (t :: t' :: ts) = t ++ (sep ++ sep.intercalate (t' :: ts)) := by
      simp [List.intercalate]
    rw [hjoin] at h
    rcases List.mem_append.mp h with h | h
    · exact .inr ⟨t, List.mem_cons_self, h⟩
    · rcases List.mem_append.mp h with h | h
      · exact .inl h
      · exact (mem_intercalate h).imp_right fun ⟨u, hu, hx⟩ => ⟨u, List.mem_cons_of_mem t hu, hx⟩

/-! ## Blanks at the ends -/

/-- `%s*$`. -/
theorem matchRest_blanks_end (r : Str) (segs : List Seg) : matchRest [.single blank .star, .atEnd] r segs =
    if r.all isspace then some ([], segs) else none := by
  rw [matchRest, longest_eq fun x r _ => by rw [matchRest, if_neg (List.cons_ne_nil x r)]]
  have hnil : r.dropWhile blank.test = [] ↔ r.all isspace = true := by
    rw [List.dropWhile_eq_nil_iff, List.all_eq_true]
    rfl
  by_cases h : r.all isspace = true
  · rw [if_pos h, hnil.mpr h, matchRest, if_pos rfl]
  · rw [if_neg h, matchRest, if_neg fun h' => h (hnil.mp h')]

theorem any_test (x : Char) : Single.any.test x = true := rfl

/-- `(.-)%s*$`: the text without the blanks at its end. -/
theorem matchRest_lazy_end (u : Str) (segs : List Seg) :
    matchRest [.capOpen, .single .any .minus, .capClose, .single blank .star, .atEnd] u segs =
      some ([], segs ++ [⟨u, some (u.rdropWhile isspace).length⟩]) := by
  have hk : ∀ r, matchRest [.capClose, .single blank .star, .atEnd] r (segs ++ [⟨u, none⟩]) =
      if r.all isspace then some ([], segs ++ [⟨u, some (u.length - r.length)⟩]) else none := by
    intro r
    rw [matchRest, closeSeg_concat]
    exact matchRest_blanks_end r _
  rw [matchRest, matchRest]
  simp only [hk]
  have hsplit : u.rdropWhile isspace ++ u.rtakeWhile isspace = u := List.rdropWhile_append_rtakeWhile
  have hlen : (u.rdropWhile isspace).length = u.length - (u.rtakeWhile isspace).length := by
    have := congrArg List.length hsplit
    rw [List.length_append] at this
    omega
  have hrest : (u.rtakeWhile isspace).all isspace = true :=
    List.all_eq_true.mpr fun x hx => List.mem_rtakeWhile_imp hx
  conv_lhs => rw [← hsplit]
  refine shortest_run ?_ (fun x _ => any_test x) ?_
  · rw [hsplit, if_pos hrest, hlen]
  · intro r hr hlong
    -- a longer rest has the last character of the text, which is no blank
    obtain ⟨v, hv⟩ := hr
    have hne : u.rdropWhile isspace ≠ [] := by
      intro hnil
      rw [hnil, List.nil_append] at hv
      have := congrArg List.length hv
      rw [List.length_append] at this
      omega
    have hlast := List.rdropWhile_last_not isspace u hne
    obtain ⟨w, hw⟩ : ∃ w, r = w ++ u.rtakeWhile isspace ∧ w ≠ [] := by
      obtain ⟨w, hw⟩ := List.suffix_of_suffix_length_le ⟨_, rfl⟩ ⟨v, hv⟩ (Nat.le_of_lt hlong)
      refine ⟨w, hw.symm, ?_⟩
      rintro rfl
      rw [List.nil_append] at hw
      rw [hw] at hlong
      exact Nat.lt_irrefl _ hlong
    have hvw : v ++ w = u.rdropWhile isspace := by
      rw [hw.1, ← List.append_assoc] at hv
      exact List.append_cancel_right hv
    refine if_neg fun hall => hlast (List.all_eq_true.mp hall _ ?_)
    rw [hw.1]
    refine List.mem_append_left _ ?_
    have hgetLast : (u.rdropWhile isspace).getLast hne = w.getLast hw.2 := by
      simp only [← hvw]
      exact List.getLast_append_of_ne_nil _ hw.2
    rw [hgetLast]
    exact List.getLast_mem hw.2

/-- `(.+)$`. -/
theorem matchRest_nonempty (r : Str) (segs : List Seg) (hr : r ≠ []) :
    matchRest [.capOpen, .single .any .plus, .capClose, .atEnd] r segs = some ([], segs ++ [⟨r, some r.length⟩]) := by
  cases r with
  | nil => exact absurd rfl hr
  | cons x u =>
    rw [matchRest, matchRest, if_pos (any_test x)]
    have h : longest Single.any (fun r => matchRest [.capClose, .atEnd] r (segs ++ [⟨x :: u, none⟩])) (u ++ []) =
        some ([], segs ++ [⟨x :: u, some (x :: u).length⟩]) := by
      refine longest_run (by simp) ?_ fun y _ => any_test y
      rw [matchRest, closeSeg_concat]
      rfl
    rwa [List.append_nil] at h

theorem take_rdropWhile (u : Str) : u.take (u.rdropWhile isspace).length = u.rdropWhile isspace :=
  Eq.symm <| List.prefix_iff_eq_take.mp <| List.rdropWhile_prefix isspace u

/-- The items of `%s*(.-)%s*$`. -/
def trimItems : List Pattern.Item :=
  [.single blank .star, .capOpen, .single .any .minus, .capClose, .single blank .star, .atEnd]

theorem matchRest_trim (s : Str) (segs : List Seg) : matchRest trimItems s segs =
    some ([], segs ++ [⟨s.dropWhile isspace, some ((s.dropWhile isspace).rdropWhile isspace).length⟩]) := by
  have hsplit : s.takeWhile isspace ++ s.dropWhile isspace = s := List.takeWhile_append_dropWhile
  rw [trimItems, matchRest]
  conv_lhs => rw [← hsplit]
  refine longest_run ?_ ?_ fun x hx => List.mem_takeWhile_imp hx
  · intro x hx
    have hhead := List.head?_dropWhile_not isspace s
    rw [hx] at hhead
    simpa using hhead
  · exact matchRest_lazy_end _ segs

/-- **`text.trim` takes the blanks from both ends.** -/
theorem trim_eq (s : Str) : trim s = (s.dropWhile isspace).rdropWhile isspace := by
  have hpat : strMatch s "^%s*(.-)%s*$" = .ok ((matchRest trimItems s []).map fun p => (texts s p.1 p.2).map .str) :=
    strMatch_anchored rfl rfl rfl s
  rw [matchRest_trim] at hpat
  unfold trim firstCapture
  rw [hpat]
  exact take_rdropWhile _

section Trim

variable {s : Str}

theorem infix_trim (s : Str) : trim s <:+: s := by
  rw [trim_eq]
  have hfront := List.rdropWhile_prefix isspace (s.dropWhile isspace)
  exact hfront.isInfix.trans (List.dropWhile_suffix isspace).isInfix

/-- What is left begins with no blank. -/
theorem head_trim {x : Char} (h : (trim s).head? = some x) : isspace x = false := by
  rw [trim_eq] at h
  have hhead := List.head?_dropWhile_not isspace s
  obtain ⟨t, ht⟩ := List.rdropWhile_prefix isspace (s.dropWhile isspace)
  rw [← ht, List.head?_append, h] at hhead
  simpa using hhead

/-- What is left ends with no blank. -/
theorem getLast_trim (h : trim s ≠ []) : isspace ((trim s).getLast h) = false := by
  simp only [trim_eq] at h ⊢
  simpa using List.rdropWhile_last_not isspace _ h

/-- A text without blanks at its ends. -/
def Trimmed (s : Str) : Prop :=
  (∀ x, s.head? = some x → isspace x = false) ∧ ∀ x, s.getLast? = some x → isspace x = false

theorem trimmed_trim (s : Str) : Trimmed (trim s) := by
  refine ⟨fun x => head_trim, fun x hx => ?_⟩
  have hne : trim s ≠ [] := by
    intro h
    rw [h] at hx
    cases hx
  rw [List.getLast?_eq_some_getLast hne] at hx
  rw [← Option.some.inj hx]
  exact getLast_trim hne

/-- A text without blanks at its ends stays. -/
theorem trim_of_trimmed (h : Trimmed s) : trim s = s := by
  have hleft : s.dropWhile isspace = s := by
    cases s with
    | nil => rfl
    | cons x s => rw [List.dropWhile_cons, if_neg (by rw [h.1 x rfl]; exact Bool.false_ne_true)]
  rw [trim_eq, hleft, List.rdropWhile_eq_self_iff]
  intro hne
  rw [h.2 _ (List.getLast?_eq_some_getLast hne)]
  exact Bool.false_ne_true

@[simp] theorem trim_trim (s : Str) : trim (trim s) = trim s := trim_of_trimmed (trimmed_trim s)

/-- Blanks before a text do not count. -/
theorem trim_blanks_append {b : Str} (hb : ∀ x ∈ b, isspace x = true) (s : Str) : trim (b ++ s) = trim s := by
  rw [trim_eq, trim_eq, List.dropWhile_append_of_pos hb]

/-- Blanks after a text do not count. -/
theorem trim_append_blanks {b : Str} (hb : ∀ x ∈ b, isspace x = true) (s : Str) : trim (s ++ b) = trim s := by
  have hright : ∀ u : Str, (u ++ b).rdropWhile isspace = u.rdropWhile isspace := by
    intro u
    rw [List.rdropWhile, List.reverse_append, List.dropWhile_append_of_pos fun x hx => hb x (List.mem_reverse.mp hx)]
    rfl
  rw [trim_eq, trim_eq, List.dropWhile_append]
  split
  · next hnil => rw [List.dropWhile_eq_nil_iff.mpr hb, List.isEmpty_iff.mp hnil]
  · exact hright _

theorem head_trim_cons {x : Char} {r : Str} (hx : isspace x = false) : (trim (x :: r)).head? = some x := by
  have hleft : (x :: r).dropWhile isspace = x :: r := by
    rw [List.dropWhile_cons, if_neg (by rw [hx]; exact Bool.false_ne_true)]
  have hne : (x :: r).rdropWhile isspace ≠ [] := by
    intro h
    have := List.rdropWhile_eq_nil_iff.mp h x List.mem_cons_self
    rw [hx] at this
    cases this
  obtain ⟨t, ht⟩ := List.rdropWhile_prefix isspace (x :: r)
  rw [trim_eq, hleft]
  cases hd : (x :: r).rdropWhile isspace with
  | nil => exact absurd hd hne
  | cons y w =>
    rw [hd, List.cons_append] at ht
    rw [(List.cons.inj ht).1]
    rfl

/-- A text is what is left of it, with blanks around. -/
theorem exists_trim (s : Str) : ∃ b b', (∀ x ∈ b, isspace x = true) ∧ (∀ x ∈ b', isspace x = true) ∧
    s = b ++ (trim s ++ b') := by
  refine ⟨s.takeWhile isspace, (s.dropWhile isspace).rtakeWhile isspace, fun x hx => List.mem_takeWhile_imp hx,
    fun x hx => List.mem_rtakeWhile_imp hx, ?_⟩
  rw [trim_eq, List.rdropWhile_append_rtakeWhile, List.takeWhile_append_dropWhile]

end Trim

/-! ## Words -/

/-- The first word, and the words after it. -/
theorem words_cons {c : Single} {x : Char} (s : Str) (hx : c.test x = true) :
    words c (x :: s) = (x :: s.takeWhile c.test) :: words c (s.dropWhile c.test) := by
  have hsplit : x :: s = (x :: s.takeWhile c.test) ++ s.dropWhile c.test := by
    rw [List.cons_append, List.takeWhile_append_dropWhile]
  conv_lhs => rw [hsplit]
  refine words_append (List.cons_ne_nil _ _) (fun y hy => ?_) fun y hy => ?_
  · rcases List.mem_cons.mp hy with rfl | hy
    · exact hx
    · exact List.mem_takeWhile_imp hy
  · have hhead := List.head?_dropWhile_not c.test s
    rw [hy] at hhead
    simpa using hhead

/-- Words that each end in the same separator. -/
theorem words_separated {c : Single} {sep : Char} (hsep : c.test sep = false) : ∀ {ws : List Str},
    (∀ w ∈ ws, w ≠ [] ∧ ∀ x ∈ w, c.test x = true) → words c (ws.flatMap fun w => w ++ [sep]) = ws
  | [], _ => rfl
  | w :: ws, h => by
    obtain ⟨hne, hw⟩ := h w List.mem_cons_self
    rw [List.flatMap_cons, List.append_assoc, List.singleton_append, words_append hne hw]
    · rw [words_cons_of_neg _ hsep, words_separated hsep fun v hv => h v (List.mem_cons_of_mem w hv)]
    · intro x hx
      obtain rfl : sep = x := Option.some.inj hx
      exact hsep

/-- A run of the class, to its end. -/
theorem matchRest_run {c : Single} {x : Char} (rest : Str) (hx : c.test x = true) :
    matchRest [.single c .plus] (x :: rest) [] = some (rest.dropWhile c.test, []) := by
  have hsplit : rest.takeWhile c.test ++ rest.dropWhile c.test = rest := List.takeWhile_append_dropWhile
  rw [matchRest, if_pos hx]
  conv_lhs => rw [← hsplit]
  refine longest_run (fun y hy => ?_) ?_ fun y hy => List.mem_takeWhile_imp hy
  · have hhead := List.head?_dropWhile_not c.test rest
    rw [hy] at hhead
    simpa using hhead
  · rfl

theorem gmatchRest_words (c : Single) : ∀ (fuel : Nat) (rest : Str), rest.length < fuel →
    gmatchRest [.single c .plus] fuel rest = (words c rest).map fun w => [w]
  | 0, rest, h => absurd h (Nat.not_lt_zero _)
  | fuel + 1, [], h => rfl
  | fuel + 1, x :: rest, h => by
    rw [List.length_cons] at h
    unfold gmatchRest
    by_cases hx : c.test x = true
    · have hle : (rest.dropWhile c.test).length ≤ rest.length := List.length_dropWhile_le _ _
      have ih := gmatchRest_words c fuel (rest.dropWhile c.test) (by omega)
      have hsplit : x :: rest = (x :: rest.takeWhile c.test) ++ rest.dropWhile c.test := by
        rw [List.cons_append, List.takeWhile_append_dropWhile]
      have hword : texts (x :: rest) (rest.dropWhile c.test) [] = [x :: rest.takeWhile c.test] := by
        have hlen := congrArg List.length hsplit
        rw [List.length_append] at hlen
        rw [texts, if_pos List.isEmpty_nil, hlen, Nat.add_sub_cancel]
        conv_lhs => rw [hsplit]
        rw [List.take_left]
      rw [matchRest_run rest hx]
      dsimp only
      rw [if_neg (by rw [List.length_cons]; omega), ih, hword, words_cons rest hx, List.map_cons]
    · have hnone : matchRest [.single c .plus] (x :: rest) [] = none := by rw [matchRest, if_neg hx]
      rw [hnone, words_cons_of_neg rest (Bool.eq_false_iff.mpr hx)]
      exact gmatchRest_words c fuel rest (by omega)

/-- A word is not empty, and its characters are in the text. -/
theorem words_spec {c : Single} : ∀ {s w : Str}, w ∈ words c s → w ≠ [] ∧ ∀ x ∈ w, x ∈ s
  | [], w, hw => by cases hw
  | x :: s, w, hw => by
    by_cases hx : c.test x = true
    · rw [words_cons s hx] at hw
      rcases List.mem_cons.mp hw with rfl | hw
      · refine ⟨List.cons_ne_nil _ _, fun y hy => ?_⟩
        rcases List.mem_cons.mp hy with rfl | hy
        · exact List.mem_cons_self
        · exact List.mem_cons_of_mem x ((List.takeWhile_sublist _).subset hy)
      · have hlt : (s.dropWhile c.test).length ≤ s.length := List.length_dropWhile_le _ _
        obtain ⟨hne, hsub⟩ := words_spec hw
        exact ⟨hne, fun y hy => List.mem_cons_of_mem x ((List.dropWhile_sublist _).subset (hsub y hy))⟩
    · rw [words_cons_of_neg s (Bool.eq_false_iff.mpr hx)] at hw
      obtain ⟨hne, hsub⟩ := words_spec hw
      exact ⟨hne, fun y hy => List.mem_cons_of_mem x (hsub y hy)⟩
termination_by s => s.length

/-- Every character of the class is in a word. -/
theorem exists_word {c : Single} {x : Char} (hx : c.test x = true) : ∀ {s : Str}, x ∈ s → ∃ w ∈ words c s, x ∈ w
  | y :: s, hmem => by
    by_cases hy : c.test y = true
    · have hlt : (s.dropWhile c.test).length ≤ s.length := List.length_dropWhile_le _ _
      rw [words_cons s hy]
      by_cases hword : x ∈ y :: s.takeWhile c.test
      · exact ⟨_, List.mem_cons_self, hword⟩
      · have hrest : x ∈ s.dropWhile c.test := by
          rw [← @List.takeWhile_append_dropWhile _ c.test s, ← List.cons_append] at hmem
          exact (List.mem_append.mp hmem).resolve_left hword
        obtain ⟨w, hw, hxw⟩ := exists_word hx hrest
        exact ⟨w, List.mem_cons_of_mem _ hw, hxw⟩
    · have hmem' : x ∈ s := (List.mem_cons.mp hmem).resolve_left fun h => hy (h ▸ hx)
      rw [words_cons_of_neg s (Bool.eq_false_iff.mpr hy)]
      exact exists_word hx hmem'
termination_by s => s.length

/-- A text without blanks, by evaluation. -/
theorem isspace_of_all {w : Str} (h : (w.all fun x => !isspace x) = true) : ∀ x ∈ w, isspace x = false := by
  simpa using h

theorem words_eq_nil_iff {s : Str} : words nonBlank s = [] ↔ ∀ x ∈ s, isspace x = true := by
  constructor
  · intro h x hx
    by_contra hblank
    obtain ⟨w, hw, -⟩ := @exists_word nonBlank x (by rw [nonBlank_test, Bool.eq_false_iff.mpr hblank]; rfl) s hx
    rw [h] at hw
    cases hw
  · intro h
    have hwords := words_blanks [] h
    rw [List.append_nil] at hwords
    exact hwords

/-- The first word stands behind blanks, and a blank or nothing stands behind it. -/
theorem words_eq_cons_iff {s w : Str} {ws : List Str} : words nonBlank s = w :: ws ↔
    ∃ b r, s = b ++ (w ++ r) ∧ (∀ x ∈ b, isspace x = true) ∧ w ≠ [] ∧ (∀ x ∈ w, isspace x = false) ∧
      (∀ x, r.head? = some x → isspace x = true) ∧ words nonBlank r = ws := by
  constructor
  · intro h
    have hsplit : s.takeWhile isspace ++ s.dropWhile isspace = s := List.takeWhile_append_dropWhile
    have hblanks : ∀ x ∈ s.takeWhile isspace, isspace x = true := fun x hx => List.mem_takeWhile_imp hx
    have hhead := List.head?_dropWhile_not isspace s
    rw [← hsplit, words_blanks _ hblanks] at h
    cases hdrop : s.dropWhile isspace with
    | nil =>
      rw [hdrop] at h
      cases h
    | cons x t =>
      rw [hdrop] at h hhead
      have hx : nonBlank.test x = true := by simpa using hhead
      rw [words_cons t hx] at h
      obtain ⟨rfl, rfl⟩ := List.cons.inj h
      refine ⟨s.takeWhile isspace, t.dropWhile nonBlank.test, ?_, hblanks, List.cons_ne_nil _ _, ?_, ?_, rfl⟩
      · rw [List.cons_append, List.takeWhile_append_dropWhile, ← hdrop, hsplit]
      · intro y hy
        rcases List.mem_cons.mp hy with rfl | hy
        · simpa using hx
        · simpa using List.mem_takeWhile_imp hy
      · intro y hy
        have hrest := List.head?_dropWhile_not nonBlank.test t
        rw [hy] at hrest
        simpa using hrest
  · rintro ⟨b, r, rfl, hb, hne, hw, hr, rfl⟩
    rw [words_blanks _ hb, words_append hne (fun x hx => by simp [hw x hx]) fun x hx => by simp [hr x hx]]

/-- A run of blanks, before a text that does not begin with one. -/
theorem matchRest_blankPlus {is : List Pattern.Item} {b r : Str} {segs : List Seg} {p : Str × List Seg} (hne : b ≠ [])
    (hb : ∀ x ∈ b, isspace x = true) (hr : ∀ x, r.head? = some x → isspace x = false)
    (h : matchRest is r segs = some p) : matchRest (.single blank .plus :: is) (b ++ r) segs = some p := by
  obtain ⟨x, b, rfl⟩ := List.exists_cons_of_ne_nil hne
  have hx : blank.test x = true := hb x List.mem_cons_self
  rw [List.cons_append, matchRest, if_pos hx]
  exact longest_run hr h fun y hy => hb y (List.mem_cons_of_mem x hy)

theorem of_matchRest_blankPlus {is : List Pattern.Item} {text : Str} {segs : List Seg} {p : Str × List Seg}
    (h : matchRest (.single blank .plus :: is) text segs = some p) :
    ∃ b r, text = b ++ r ∧ b ≠ [] ∧ (∀ x ∈ b, isspace x = true) ∧ matchRest is r segs = some p := by
  cases text with
  | nil => cases h
  | cons x text =>
    rw [matchRest] at h
    split at h
    · next hx =>
      obtain ⟨run, r, rfl, hrun, hr⟩ := longest_split h
      refine ⟨x :: run, r, rfl, List.cons_ne_nil _ _, fun y hy => ?_, hr⟩
      rcases List.mem_cons.mp hy with rfl | hy
      · exact hx
      · exact hrun y hy
    · cases h

/-- The captures of an anchored pattern. -/
theorem matchCaptures_anchored {pat p s : Str} {is : List Pattern.Item} (hpat : pat = '^' :: p) (his : compile p = is)
    (hs : Simple 0 0 is = true) : matchCaptures s pat = (matchRest is s []).map fun p => texts s p.1 p.2 := by
  unfold matchCaptures
  rw [strMatch_anchored hpat his hs s]
  cases matchRest is s [] with
  | none => rfl
  | some p =>
    simp only [Option.map_some]
    rw [List.map_map]
    exact congrArg some (List.map_id _)

theorem firstCapture_eq {pat p : Str} {is : List Pattern.Item} (hpat : pat = '^' :: p) (his : compile p = is)
    (hs : Simple 0 0 is = true) (s : Str) :
    firstCapture s pat = (matchRest is s []).bind fun q => (texts s q.1 q.2).head? := by
  unfold firstCapture
  rw [strMatch_anchored hpat his hs]
  cases matchRest is s [] with
  | none => rfl
  | some q =>
    dsimp only [Option.map_some, Option.bind_some]
    cases texts s q.1 q.2 <;> rfl

theorem isMatch_search {s pat : Str} {is : List Pattern.Item} (hanchor : pat.head? ≠ some '^') (his : compile pat = is)
    (hs : Simple 0 0 is = true) : isMatch s pat = true ↔ (findRest is s).isSome = true := by
  unfold isMatch
  rw [strMatch_search hanchor his hs s]
  cases findRest is s <;> simp

theorem isMatch_anchored {pat p s : Str} {is : List Pattern.Item} (hpat : pat = '^' :: p) (his : compile p = is)
    (hs : Simple 0 0 is = true) : isMatch s pat = (matchRest is s []).isSome := by
  unfold isMatch
  rw [strMatch_anchored hpat his hs s]
  cases matchRest is s [] <;> rfl

/-- A repeated class: the words of the text. -/
theorem captures_runs {pat : Str} {c : Single} (hpat : compile pat = [.single c .plus]) (s : Str) :
    captures s pat = words c s := by
  have hmatches : gmatch s pat = .ok ((gmatchRest [.single c .plus] (s.length + 1) s).map fun ts => ts.map .str) :=
    gmatch_eq hpat rfl s
  rw [gmatchRest_words c _ _ (Nat.lt_succ_self _)] at hmatches
  unfold captures
  rw [hmatches]
  dsimp only
  rw [List.map_map, List.map_map]
  exact List.map_id _

theorem compile_word : compile "%S+" = [.single nonBlank .plus] := rfl

/-- `%S+`: the words of a text. -/
theorem captures_words (s : Str) : captures s "%S+" = words nonBlank s := captures_runs compile_word s

/-- The characters of a line. -/
def notEol : Single := .set true [.lit '\r', .lit '\n']

theorem notEol_test {x : Char} : notEol.test x = true ↔ x ≠ '\r' ∧ x ≠ '\n' := by
  simp only [notEol, Single.test, List.any_cons, List.any_nil, SetItem.test, Bool.or_false]
  by_cases hr : x = '\r'
  · subst hr
    decide
  · by_cases hn : x = '\n'
    · subst hn
      decide
    · have hr' : ('\r' == x) = false := beq_false_of_ne fun h => hr h.symm
      have hn' : ('\n' == x) = false := beq_false_of_ne fun h => hn h.symm
      rw [hr', hn']
      exact iff_of_true rfl ⟨hr, hn⟩

theorem compile_lines : compile "[^\r\n]+" = [.single notEol .plus] := rfl

/-- `[^\r\n]+`: the lines of a text that are not empty. -/
theorem captures_lines (s : Str) : captures s "[^\r\n]+" = words notEol s := captures_runs compile_lines s

/-- Words up to a separator, and after it. -/
theorem words_append_cons {c : Single} {sep : Char} (hsep : c.test sep = false) (a b : Str) :
    words c (a ++ sep :: b) = words c a ++ words c b := by
  unfold words
  rw [List.splitOnP_append_cons _ _ (by simp [hsep]), List.filter_append]

/-- The first word of a text that begins with a blank, or is empty. -/
theorem words_behind {r w : Str} {ws : List Str} (hr : ∀ x, r.head? = some x → isspace x = true)
    (h : words nonBlank r = w :: ws) : ∃ b r', r = b ++ (w ++ r') ∧ b ≠ [] ∧ (∀ x ∈ b, isspace x = true) ∧ w ≠ [] ∧
      (∀ x ∈ w, isspace x = false) ∧ (∀ x, r'.head? = some x → isspace x = true) ∧ words nonBlank r' = ws := by
  obtain ⟨b, r', rfl, hb, hne, hword, hend, hws⟩ := words_eq_cons_iff.mp h
  refine ⟨b, r', rfl, ?_, hb, hne, hword, hend, hws⟩
  rintro rfl
  obtain ⟨x, w, rfl⟩ := List.exists_cons_of_ne_nil hne
  have hx := hr x rfl
  rw [hword x List.mem_cons_self] at hx
  cases hx

/-- Blanks at the end make no words. -/
theorem words_rdropWhile (s : Str) : words nonBlank (s.rdropWhile isspace) = words nonBlank s := by
  have hend : ∀ {a b : Str}, (∀ x ∈ b, isspace x = true) → words nonBlank (a ++ b) = words nonBlank a := by
    intro a b hb
    induction b generalizing a with
    | nil => rw [List.append_nil]
    | cons x b ih =>
      have hx : nonBlank.test x = false := by simp [hb x List.mem_cons_self]
      have hnil := @ih [] fun y hy => hb y (List.mem_cons_of_mem x hy)
      rw [List.nil_append] at hnil
      rw [words_append_cons hx, hnil]
      exact List.append_nil _
  conv_rhs => rw [← @List.rdropWhile_append_rtakeWhile _ isspace s]
  exact (hend fun x hx => List.mem_rtakeWhile_imp hx).symm

/-! ## The first character -/

theorem isMatch_hash (t : Str) : isMatch t "^#" = (t.head? == some '#') := by
  have hmatch : strMatch t "^#" = .ok ((matchRest [.single (.lit '#') .one] t []).map fun p =>
      (texts t p.1 p.2).map .str) := strMatch_anchored rfl rfl rfl t
  unfold isMatch
  rw [hmatch]
  cases t with
  | nil => rfl
  | cons x u =>
    rw [matchRest, Single.test, List.head?_cons]
    by_cases hx : x = '#'
    · rw [hx]
      rfl
    · rw [if_neg (by simpa using fun h : '#' = x => hx h.symm)]
      exact (beq_eq_false_iff_ne.mpr (by simpa using hx)).symm

/-- `.`: some character. -/
theorem isMatch_any (t : Str) : isMatch t "." = !t.isEmpty := by
  have hmatch : strMatch t "." = .ok ((findRest [.single .any .one] t).map fun p =>
      (texts p.1 p.2.1 p.2.2).map .str) := strMatch_search (by decide) rfl rfl t
  unfold isMatch
  rw [hmatch]
  cases t with
  | nil => rfl
  | cons x u => rfl

end Seharden
