import Loongshield.Seharden.SudoersRewrite

/-!
# A `Defaults` line with a comment

`rewrite_defaults_without_flag` cuts a line at the first `#` behind a blank. A comment begins at one that stands outside
quotes, as the splitter of the options reads them, so that a cut in a quote takes a part of an option away.

- `uncomment`: a text up to its comment; `uncomment_cases`: the code cuts there, or in a quote;
- `hash_lost`: a `#` in a quote is in what should stay, and not in the rewritten line;
- `rewrite_keeps_iff`: when a rewritten line keeps everything but the flag.
-/

namespace Seharden
namespace Sudoers

open Lua Pattern

/-! ## The comment -/

/-- The mode after a character of a line; at a comma that separates, no quote is open. -/
def follow (m : Mode) (c : Char) : Mode := (scanChar m c).getD start

/-- A text up to its comment: the blanks before a `#` outside quotes. -/
def uncomment : Mode → Str → Str
  | _, [] => []
  | m, x :: s =>
    if m.1 = none ∧ isspace x = true ∧ ((x :: s).dropWhile isspace).head? = some '#' then []
    else x :: uncomment (follow m x) s

/-- The first word of a line, in which no quote is read. -/
def leading (line : Str) : Str := (trim line).takeWhile fun x => !isspace x

/-- What stands behind it. -/
def behind (line : Str) : Str := (trim line).dropWhile fun x => !isspace x

/-- The active text of a line: what stands before its comment. -/
def activeText (line : Str) : Str := trim (leading line ++ uncomment start (behind line))

/-- The rewritten line keeps everything of the active text but the flag. -/
def KeepsRest (line flagName : Str) (wantNegated : Bool) (new : Option Str) : Prop :=
  KeepsText (activeText line) flagName wantNegated new

/-- No quote is open before the first `#` behind a blank, if there is one. -/
def CutsComment (line : Str) : Prop :=
  cutComment (behind line) ≠ behind line → ((cutComment (behind line)).foldl follow start).1 = none

instance (line : Str) : Decidable (CutsComment line) := inferInstanceAs (Decidable (_ → _))

theorem cutComment_word (s : Str) : ∀ {w : Str}, (∀ x ∈ w, isspace x = false) → cutComment (w ++ s) = w ++ cutComment s
  | [], _ => rfl
  | x :: w, hw => by
    obtain ⟨hx, hw⟩ := List.forall_mem_cons.mp hw
    have hno : ¬(isspace x = true ∧ ((x :: (w ++ s)).dropWhile isspace).head? = some '#') := by simp [hx]
    rw [List.cons_append, List.cons_append, cutComment, if_neg hno, cutComment_word s hw]

/-- What the code takes for the active text. -/
theorem active_behind {line : Str} (h : (trim line).head? ≠ some '#') :
    active line = trim (leading line ++ cutComment (behind line)) := by
  have hword : ∀ x ∈ leading line, isspace x = false := fun x hx => by simpa using List.mem_takeWhile_imp hx
  have hsplit : leading line ++ behind line = trim line := List.takeWhile_append_dropWhile
  rw [← active_trim h, active, ← hsplit, cutComment_word _ hword]

/-- **The code cuts the comment** iff no quote is open there. -/
theorem uncomment_eq_iff : ∀ (s : Str) (m : Mode), uncomment m s = cutComment s ↔
    (cutComment s ≠ s → ((cutComment s).foldl follow m).1 = none)
  | [], m => iff_of_true rfl fun h => absurd rfl h
  | x :: s, m => by
    rw [uncomment, cutComment]
    by_cases hcut : isspace x = true ∧ ((x :: s).dropWhile isspace).head? = some '#'
    · rw [if_pos hcut]
      by_cases hquote : m.1 = none
      · rw [if_pos ⟨hquote, hcut⟩]
        exact iff_of_true rfl fun _ => hquote
      · rw [if_neg fun h => hquote h.1]
        exact iff_of_false (List.cons_ne_nil _ _) fun h => hquote (h (List.cons_ne_nil _ _).symm)
    · rw [if_neg hcut, if_neg fun h => hcut h.2, List.foldl_cons, List.cons_inj_right, uncomment_eq_iff s, Ne, Ne,
        List.cons_inj_right]

/-- In a quote, a `#` behind blanks is no comment. -/
theorem uncomment_quoted (r : Str) : ∀ {b : Str} {m : Mode}, m.Quoted → m.1 ≠ none → (∀ x ∈ b, isspace x = true) →
    ∃ post, uncomment m (b ++ '#' :: r) = b ++ '#' :: post
  | [], m, _, hopen, _ => ⟨uncomment (follow m '#') r, by
    rw [List.nil_append, uncomment, if_neg fun h => hopen h.1]
    rfl⟩
  | x :: b, m, hm, hopen, hb => by
    obtain ⟨hx, hb⟩ := List.forall_mem_cons.mp hb
    have hfollow : follow m x = (m.1, false) := by rw [follow, scanChar_blank hm hx, Option.getD_some]
    obtain ⟨post, hpost⟩ := @uncomment_quoted r b (m.1, false) hm hopen hb
    exact ⟨post, by rw [List.cons_append, uncomment, if_neg fun h => hopen h.1, hfollow, hpost, List.cons_append]⟩

theorem quoted_follow {m : Mode} (h : m.Quoted) (c : Char) : (follow m c).Quoted := by
  unfold follow
  cases hc : scanChar m c with
  | some m' => exact h.scanChar hc
  | none => exact quoted_start

/-- The code cuts a line at its comment, or at blanks and a `#` that belong to it. -/
theorem uncomment_cases : ∀ (s : Str) {m : Mode}, m.Quoted → uncomment m s = cutComment s ∨
    ∃ b post, uncomment m s = cutComment s ++ (b ++ '#' :: post)
  | [], _, _ => .inl rfl
  | x :: s, m, hm => by
    rw [cutComment]
    by_cases hcut : isspace x = true ∧ ((x :: s).dropWhile isspace).head? = some '#'
    · rw [if_pos hcut]
      by_cases hquote : m.1 = none
      · exact .inl (by rw [uncomment, if_pos ⟨hquote, hcut⟩])
      · obtain ⟨r, hr⟩ : ∃ r, (x :: s).dropWhile isspace = '#' :: r := by
          cases hd : (x :: s).dropWhile isspace with
          | nil =>
            rw [hd] at hcut
            cases hcut.2
          | cons y r =>
            rw [hd] at hcut
            exact ⟨r, by rw [Option.some.inj hcut.2]⟩
        have hsplit : x :: s = (x :: s).takeWhile isspace ++ '#' :: r := by
          rw [← hr, List.takeWhile_append_dropWhile]
        have hblanks : ∀ y ∈ (x :: s).takeWhile isspace, isspace y = true := fun y hy => List.mem_takeWhile_imp hy
        obtain ⟨post, hpost⟩ := uncomment_quoted r hm hquote hblanks
        rw [← hsplit] at hpost
        exact .inr ⟨_, post, hpost⟩
    · rw [if_neg hcut, uncomment, if_neg fun h => hcut h.2]
      rcases uncomment_cases s (quoted_follow hm x) with heq | ⟨b, post, heq⟩
      · exact .inl (by rw [heq])
      · exact .inr ⟨b, post, by rw [heq, List.cons_append]⟩

/-! ## What is cut off in a quote -/

theorem count_trim {c : Char} (hc : isspace c = false) (s : Str) : (trim s).count c = s.count c := by
  obtain ⟨b, b', hb, hb', hs⟩ := exists_trim s
  have hzero : ∀ {u : Str}, (∀ x ∈ u, isspace x = true) → u.count c = 0 := by
    intro u hu
    refine List.count_eq_zero.mpr fun hmem => ?_
    rw [hu c hmem] at hc
    cases hc
  conv_rhs => rw [hs, List.count_append, List.count_append, hzero hb, hzero hb']
  omega

/-- The splitter drops blanks and commas only. -/
theorem count_split {c : Char} (hc : isspace c = false) (hcomma : c ≠ ',') : ∀ (raw : Str) (st : SplitState),
    (raw.foldl SplitState.next st).push.options.flatten.count c =
      st.options.flatten.count c + (st.buffer.count c + raw.count c)
  | [], st => by
    have htrim := count_trim hc st.buffer
    rw [List.foldl_nil, SplitState.push]
    dsimp only
    split
    · next hnil =>
      rw [hnil] at htrim
      simp only [List.count_nil] at htrim ⊢
      omega
    · rw [List.flatten_append, List.count_append, List.flatten_singleton, htrim, List.count_nil, Nat.add_zero]
  | x :: raw, st => by
    rw [List.foldl_cons, count_split hc hcomma raw, next_eq]
    have hcons : (x :: raw).count c = [x].count c + raw.count c := @List.count_append _ _ _ [x] raw
    cases hx : scanChar (st.quote, st.escaped) x with
    | some m =>
      dsimp only
      rw [List.count_append, hcons]
      omega
    | none =>
      obtain ⟨-, rfl⟩ := scanChar_none hx
      have hpush := count_split hc hcomma [] st
      rw [List.foldl_nil, List.count_nil] at hpush
      dsimp only
      rw [hpush, List.count_cons_of_ne hcomma.symm]
      change _ + (([] : Str).count c + _) = _
      rw [List.count_nil]
      omega

/-- The words of a text are its characters without the blanks. -/
theorem flatten_words (c : Single) : ∀ s : Str, (words c s).flatten = s.filter c.test
  | [] => rfl
  | x :: s => by
    by_cases hx : c.test x = true
    · have hlt : (s.dropWhile c.test).length ≤ s.length := List.length_dropWhile_le _ _
      have htake : (s.takeWhile c.test).filter c.test = s.takeWhile c.test :=
        List.filter_eq_self.mpr fun y hy => List.mem_takeWhile_imp hy
      rw [words_cons s hx, List.flatten_cons, flatten_words c (s.dropWhile c.test), List.filter_cons_of_pos hx,
        List.cons_append]
      conv_rhs => rw [← @List.takeWhile_append_dropWhile _ c.test s, List.filter_append, htake]
    · rw [words_cons_of_neg s (Bool.eq_false_iff.mpr hx), flatten_words c s, List.filter_cons_of_neg hx]
termination_by s => s.length

variable {flagName : Str} {wantNegated : Bool}

/-- A flag has no `#`, so that one in a text is in what should stay. -/
theorem count_pieceRemainder (t : Str) : (pieceRemainder flagName wantNegated t).flatten.count '#' = t.count '#' := by
  unfold pieceRemainder
  split
  · rw [List.flatten_singleton]
  · have hkept : ∀ ws : List Str,
        (ws.filter fun w => !(flagOption w).any (removes flagName wantNegated)).flatten.count '#' =
          ws.flatten.count '#' := by
      intro ws
      induction ws with
      | nil => rfl
      | cons w ws ih =>
        rw [List.flatten_cons, List.count_append, ← ih]
        by_cases hw : (flagOption w).any (removes flagName wantNegated) = true
        · have hflag : isFlagToken w = true := by
            rw [← flagOption_isSome]
            cases hoption : flagOption w with
            | none =>
              rw [hoption] at hw
              cases hw
            | some o => rfl
          have hzero : w.count '#' = 0 :=
            List.count_eq_zero.mpr fun hmem => (plain_of_isFlagToken hflag _ hmem).2.2.2.2.2.2 rfl
          rw [List.filter_cons_of_neg (by rw [hw]; exact Bool.false_ne_true), hzero, Nat.zero_add]
        · rw [List.filter_cons_of_pos (by rw [Bool.eq_false_iff.mpr hw]; rfl), List.flatten_cons, List.count_append]
    rw [hkept, flatten_words, List.count_filter rfl]

theorem count_remainder (text : Str) :
    (remainder text flagName wantNegated).flatten.count '#' = (entrySplit text).2.count '#' := by
  have hpieces : ∀ ts : List Str, (ts.flatMap (pieceRemainder flagName wantNegated)).flatten.count '#' =
      ts.flatten.count '#' := by
    intro ts
    induction ts with
    | nil => rfl
    | cons t ts ih =>
      rw [List.flatMap_cons, List.flatten_append, List.count_append, count_pieceRemainder, ih, List.flatten_cons,
        List.count_append]
  have hsplit := count_split (c := '#') (by decide) (by decide) (entrySplit text).2
    { options := [], buffer := [], quote := none, escaped := false }
  rw [remainder, hpieces]
  refine hsplit.trans ?_
  change 0 + (0 + _) = _
  omega

/-- The parts of a text that goes on. -/
theorem entrySplit_append {t : Str} (h : (entrySplit t).2 ≠ []) (u : Str) :
    entrySplit (t ++ u) = ((entrySplit t).1, (entrySplit t).2 ++ u) := by
  have hne : t.dropWhile (fun x => !isspace x) ≠ [] := by
    intro hnil
    refine h ?_
    rw [entrySplit, hnil]
    rfl
  have hdrop := dropWhile_append_of_ne_nil hne u
  have htake : (t ++ u).takeWhile (fun x => !isspace x) = t.takeWhile fun x => !isspace x := by
    have hsplit := @List.takeWhile_append_dropWhile _ (fun x => !isspace x) (t ++ u)
    rw [hdrop, ← List.append_assoc] at hsplit
    have happ := List.append_cancel_right hsplit
    exact List.append_cancel_right (happ.trans List.takeWhile_append_dropWhile.symm)
  unfold entrySplit at h ⊢
  rw [htake, hdrop, dropWhile_append_of_ne_nil h]

/-- A text goes on up to a `#` behind it. -/
theorem trim_hash {s : Str} (hne : trim s ≠ []) (b post : Str) :
    ∃ b' post', trim (s ++ (b ++ '#' :: post)) = trim s ++ (b' ++ '#' :: post') := by
  obtain ⟨l, r, hl, hr, hs⟩ := exists_trim s
  obtain ⟨l', r', hl', hr', hpost⟩ := exists_trim ('#' :: post)
  obtain ⟨post', hpost'⟩ : ∃ post', trim ('#' :: post) = '#' :: post' := by
    have h := @head_trim_cons '#' post (by decide)
    cases htrim : trim ('#' :: post) with
    | nil =>
      rw [htrim] at h
      cases h
    | cons y post' =>
      rw [htrim] at h
      exact ⟨post', by rw [Option.some.inj h]⟩
  have hnil : l' = [] := by
    cases l' with
    | nil => rfl
    | cons y l' =>
      rw [List.cons_append] at hpost
      have hblank := hl' y List.mem_cons_self
      rw [← (List.cons.inj hpost).1] at hblank
      exact absurd hblank (by decide)
  rw [hnil, List.nil_append] at hpost
  have htrimmed : Trimmed (trim s ++ ((r ++ b) ++ trim ('#' :: post))) := by
    refine ⟨fun x hx => ?_, fun x hx => ?_⟩
    · rw [List.head?_append_of_ne_nil _ hne] at hx
      exact head_trim hx
    · rw [hpost', List.getLast?_append_of_ne_nil _ (by simp), List.getLast?_append_of_ne_nil _ (by simp), ← hpost']
        at hx
      exact (trimmed_trim _).2 x hx
  have hsplit : s ++ (b ++ '#' :: post) = l ++ (trim s ++ ((r ++ b) ++ trim ('#' :: post)) ++ r') := by
    conv_lhs => rw [hs, hpost]
    simp only [List.append_assoc]
  exact ⟨r ++ b, post', by rw [hsplit, trim_blanks_append hl, trim_append_blanks hr', trim_of_trimmed htrimmed, hpost']⟩

/-- **What is cut off in a quote is lost**: the rewritten line does not have the `#`. -/
theorem hash_lost {line : Str} {new : Option Str} {b post : Str}
    (h : rewriteDefaultsWithoutFlag line flagName wantNegated = (new, true))
    (htext : activeText line = active line ++ (b ++ '#' :: post)) : ¬KeepsRest line flagName wantNegated new := by
  obtain ⟨scope, hscope, hparse, hnew⟩ := rewrite_eq h
  have hraw : (entrySplit (active line)).2 ≠ [] := by
    intro hnil
    rw [parseDefaultsEntry_active, if_pos (show rawOptions line = [] from hnil)] at hparse
    cases hparse
  have hsplit := entrySplit_append hraw (b ++ '#' :: post)
  rw [← htext] at hsplit
  have hmore : (rawOptions line).count '#' < (remainder (activeText line) flagName wantNegated).flatten.count '#' := by
    rw [count_remainder, hsplit]
    change _ < ((entrySplit (active line)).2 ++ (b ++ '#' :: post)).count '#'
    rw [List.count_append, List.count_append, List.count_cons_self]
    change (entrySplit (active line)).2.count '#' < _
    omega
  by_cases hnil : keptTokens line flagName wantNegated = []
  · rw [if_pos hnil] at hnew
    subst hnew
    intro hrest
    change remainder (activeText line) flagName wantNegated = [] at hrest
    rw [hrest] at hmore
    exact absurd hmore (Nat.not_lt_zero _)
  · rw [if_neg hnil] at hnew
    subst hnew
    rintro ⟨-, -, -, -, -, -, hchars⟩
    have hcount := hchars.count_le '#'
    have hkept := @count_kept_le flagName wantNegated '#' (splitDefaultsOptions (rawOptions line))
    have hactive := @count_remainder flagName wantNegated (active line)
    rw [List.count_filter (by decide), List.count_append, hsplit, joined, List.count_append,
      List.count_cons_of_ne (by decide), count_intercalate (by decide)] at hcount
    change _ ≤ (firstWord line).count '#' + (keptTexts _ _).flatten.count '#' at hcount
    change (firstWord line).count '#' + _ ≤ _ at hcount
    change _ = (rawOptions line).count '#' at hactive
    change _ ≤ (remainder (active line) flagName wantNegated).flatten.count '#' at hkept
    omega

theorem active_no_hash {line : Str} {new : Option Str}
    (h : rewriteDefaultsWithoutFlag line flagName wantNegated = (new, true)) : (active line).head? ≠ some '#' := by
  intro hhash
  unfold rewriteDefaultsWithoutFlag at h
  dsimp only at h
  rw [active_eq] at h
  split at h
  · cases h
  · next hno => exact hno (.inr hhash)

/-- **Removing a flag removes nothing else exactly if** no quote is open where the comment is cut, every word without a
value is a flag, and of the texts that stay only the last may leave an escape open. -/
theorem rewrite_keeps_iff {line flagName : Str} {wantNegated : Bool} {new : Option Str}
    (h : rewriteDefaultsWithoutFlag line flagName wantNegated = (new, true)) :
    KeepsRest line flagName wantNegated new ↔ CutsComment line ∧ Rejoins (activeText line) flagName wantNegated := by
  have hcut : CutsComment line ↔ uncomment start (behind line) = cutComment (behind line) :=
    (uncomment_eq_iff (behind line) start).symm
  obtain ⟨scope, hscope, hparse, -⟩ := rewrite_eq h
  have hne : active line ≠ [] := by
    intro hnil
    rw [hnil] at hparse
    cases hparse
  have hstart : (trim line).head? ≠ some '#' := by
    intro hhash
    rcases active_of_comment hhash with hnil | hactive
    · exact hne hnil
    · exact active_no_hash h hactive
  have hactive := active_behind hstart
  rcases uncomment_cases (behind line) quoted_start with heq | ⟨b, post, heq⟩
  · have htext : activeText line = active line := by rw [activeText, heq, hactive]
    rw [KeepsRest, htext, and_iff_right (hcut.mpr heq)]
    exact keepsText_iff h
  · rw [hactive] at hne
    obtain ⟨b', post', htext⟩ := trim_hash hne b post
    rw [List.append_assoc, ← heq, ← hactive] at htext
    refine iff_of_false (hash_lost h htext) fun hboth => ?_
    have hlength := congrArg List.length (hcut.mp hboth.1)
    rw [heq, List.length_append, List.length_append, List.length_cons] at hlength
    omega

theorem insults_kept :
    rewriteDefaultsWithoutFlag "Defaults env_reset, !use_pty insults # \"no\"" "use_pty" true =
      (some "Defaults env_reset,insults".toList, true) ∧
    KeepsRest "Defaults env_reset, !use_pty insults # \"no\"" "use_pty" true
      (some "Defaults env_reset,insults".toList) := by
  have hrun : rewriteDefaultsWithoutFlag "Defaults env_reset, !use_pty insults # \"no\"" "use_pty" true =
      (some "Defaults env_reset,insults".toList, true) := by decide +kernel
  have hrejoins : Rejoins (activeText "Defaults env_reset, !use_pty insults # \"no\"") "use_pty" true :=
    ⟨by decide +kernel, by decide +kernel⟩
  exact ⟨hrun, (rewrite_keeps_iff hrun).mpr ⟨by decide +kernel, hrejoins⟩⟩

/-- A second exclamation mark is no flag for the parser: the whole line goes, with an option nobody asked to remove. -/
theorem doubled_bang_lost :
    rewriteDefaultsWithoutFlag "Defaults !use_pty, !!env_reset" "use_pty" true = (none, true) ∧
    remainder (activeText "Defaults !use_pty, !!env_reset") "use_pty" true = ["!!env_reset".toList] ∧
    ¬ KeepsRest "Defaults !use_pty, !!env_reset" "use_pty" true none := by
  have hrest : remainder (activeText "Defaults !use_pty, !!env_reset") "use_pty" true = ["!!env_reset".toList] := by
    decide +kernel
  refine ⟨by decide +kernel, hrest, fun h => ?_⟩
  change remainder (activeText "Defaults !use_pty, !!env_reset") "use_pty" true = [] at h
  rw [hrest] at h
  cases h

/-- A `#` in a quoted value is taken for a comment, and the rest of the value goes. -/
theorem quoted_hash_lost :
    rewriteDefaultsWithoutFlag "Defaults !use_pty, badpass_message=\"Try # again\"" "use_pty" true =
      (some "Defaults badpass_message=\"Try".toList, true) ∧
    ¬ KeepsRest "Defaults !use_pty, badpass_message=\"Try # again\"" "use_pty" true
      (some "Defaults badpass_message=\"Try".toList) := by
  have hrun : rewriteDefaultsWithoutFlag "Defaults !use_pty, badpass_message=\"Try # again\"" "use_pty" true =
      (some "Defaults badpass_message=\"Try".toList, true) := by decide +kernel
  exact ⟨hrun, @hash_lost _ _ _ _ " ".toList " again\"".toList hrun (by decide +kernel)⟩

end Sudoers
end Seharden
