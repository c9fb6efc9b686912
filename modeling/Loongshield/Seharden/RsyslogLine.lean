import Loongshield.Seharden.Rsyslog

/-!
# What a line of an rsyslog configuration says

The meaning of a physical line, apart from the patterns of the probe: what is left in front of its comment, and the
value that it assigns to a parameter.

- `Visible`: the text in front of the comment;
- `assigned`: the value that a text assigns to a key;
- `RemoteLine`: the line is remote input when it is read on its own;
- `parseNamedArg_eq`: the patterns of the probe read what is assigned.
-/

namespace Seharden

open Lua Pattern

namespace Rsyslog

/-! ## Comments -/

/-- The quotation mark that is open behind a character. -/
def quote (opened : Option Char) (c : Char) : Option Char :=
  if opened = some c then none
  else if opened = none ∧ (c = '"' ∨ c = Char.ofNat 39) then some c
  else opened

/-- A comment begins behind the text: no quotation mark is open there. -/
def Comment (opened : Option Char) (line text : Str) : Prop :=
  text.foldl quote opened = none ∧ ∃ r, line = text ++ '#' :: r

/-- The text in front of the first comment of a line. -/
def Visible (opened : Option Char) (line text : Str) : Prop :=
  Comment opened line text ∧ (∀ a, Comment opened line a → text <+: a) ∨
    text = line ∧ ∀ a, ¬Comment opened line a

theorem Visible.unique {opened : Option Char} {line text text' : Str} (h : Visible opened line text)
    (h' : Visible opened line text') : text = text' := by
  rcases h with ⟨hcomment, hfirst⟩ | ⟨rfl, hnone⟩
  · rcases h' with ⟨hcomment', hfirst'⟩ | ⟨-, hnone'⟩
    · exact (hfirst _ hcomment').eq_of_length_le (hfirst' _ hcomment).length_le
    · exact absurd hcomment (hnone' _)
  · rcases h' with ⟨hcomment', -⟩ | ⟨rfl, -⟩
    · exact absurd hcomment' (hnone _)
    · rfl

theorem Comment.cons_iff {opened : Option Char} {c : Char} {r a : Str} :
    Comment opened (c :: r) (c :: a) ↔ Comment (quote opened c) r a :=
  and_congr_right fun _ => exists_congr fun _ => ⟨fun h => (List.cons.inj h).2, fun h => congrArg (List.cons c) h⟩

/-- One character. -/
theorem Visible.cons {opened : Option Char} {c : Char} {r text : Str} (hc : c = '#' → opened ≠ none)
    (h : Visible (quote opened c) r text) : Visible opened (c :: r) (c :: text) := by
  have hcons : ∀ a, Comment opened (c :: r) a → ∃ a', a = c :: a' ∧ Comment (quote opened c) r a' := by
    rintro (_ | ⟨d, a⟩) ⟨hopened, r', hr⟩
    · exact absurd hopened (hc (List.cons.inj hr).1)
    · obtain rfl : c = d := (List.cons.inj hr).1
      exact ⟨a, rfl, Comment.cons_iff.mp ⟨hopened, r', hr⟩⟩
  rcases h with ⟨hcomment, hfirst⟩ | ⟨rfl, hnone⟩
  · refine .inl ⟨Comment.cons_iff.mpr hcomment, fun a ha => ?_⟩
    obtain ⟨a', rfl, ha'⟩ := hcons a ha
    exact List.cons_prefix_cons.mpr ⟨rfl, hfirst a' ha'⟩
  · refine .inr ⟨rfl, fun a ha => ?_⟩
    obtain ⟨a', rfl, ha'⟩ := hcons a ha
    exact hnone a' ha'

/-- **`strip_inline_comment` leaves what is in front of the first comment.** -/
theorem visible_stripInlineComment : ∀ {opened : Option Char} (line : Str),
    (opened = none ∨ opened = some '"' ∨ opened = some (Char.ofNat 39)) →
      Visible opened line (stripInlineComment (opened == some (Char.ofNat 39)) (opened == some '"') line)
  | opened, [], _ => by
    refine .inr ⟨rfl, ?_⟩
    rintro a ⟨-, r, h⟩
    cases a <;> cases h
  | opened, c :: r, hopened => by
    have hrest : ∀ next : Option Char, quote opened c = next → (c = '#' → opened ≠ none) →
        (next = none ∨ next = some '"' ∨ next = some (Char.ofNat 39)) → Visible opened (c :: r)
          (c :: stripInlineComment (next == some (Char.ofNat 39)) (next == some '"') r) := by
      rintro _ rfl hc hnext
      exact (visible_stripInlineComment r hnext).cons hc
    rw [stripInlineComment]
    rcases hopened with rfl | rfl | rfl
    · by_cases hsingle : c = Char.ofNat 39
      · subst hsingle
        exact hrest (some (Char.ofNat 39)) rfl (fun h => by cases h) (.inr (.inr rfl))
      · by_cases hdouble : c = '"'
        · subst hdouble
          exact hrest (some '"') rfl (fun h => by cases h) (.inr (.inl rfl))
        · by_cases hhash : c = '#'
          · subst hhash
            exact .inl ⟨⟨rfl, r, rfl⟩, fun a _ => List.nil_prefix⟩
          · have hnext : quote none c = none := by simp [quote, hsingle, hdouble]
            simpa [hsingle, hdouble, hhash] using hrest _ hnext (fun h => absurd h hhash) (.inl rfl)
    · by_cases hdouble : c = '"'
      · subst hdouble
        exact hrest none rfl (fun h => by cases h) (.inl rfl)
      · have hnext : quote (some '"') c = some '"' := by simp [quote, Ne.symm hdouble]
        simpa [hdouble] using hrest _ hnext (fun _ => Option.some_ne_none _) (.inr (.inl rfl))
    · by_cases hsingle : c = Char.ofNat 39
      · subst hsingle
        exact hrest none rfl (fun h => by cases h) (.inl rfl)
      · have hnext : quote (some (Char.ofNat 39)) c = some (Char.ofNat 39) := by simp [quote, Ne.symm hsingle]
        simpa [hsingle] using hrest _ hnext (fun _ => Option.some_ne_none _) (.inr (.inr rfl))

/-! ## Assignments -/

/-- What stands behind a key and an equals sign at the beginning of a text. -/
def behindKey (key s : Str) : Option Str :=
  let r := (s.drop key.length).dropWhile isspace
  if key <+: s ∧ r.head? = some '=' then some (r.tail.dropWhile isspace) else none

/-- A value in quotation marks, at the beginning of a text. -/
def quotedValue (q : Char) : Str → Option Str
  | [] => none
  | c :: s => if c = q ∧ q ∈ s ∧ s.takeWhile (· != q) ≠ [] then some (s.takeWhile (· != q)) else none

/-- Neither a comma nor a blank nor a closing parenthesis. -/
def isplain (c : Char) : Bool := !(isspace c || c == ',' || c == ')')

/-- A value without quotation marks, at the beginning of a text. -/
def plainValue (s : Str) : Option Str :=
  if s.takeWhile isplain ≠ [] then some (s.takeWhile isplain) else none

/-- The first value behind a key that is read in a text. -/
def firstValue (read : Str → Option Str) (key s : Str) : Option Str :=
  s.tails.findSome? fun r => (behindKey key r).bind read

/-- What a text assigns to a key: a value in quotation marks, and one without them if there is none. -/
def assigned (key s : Str) : Option Str :=
  (firstValue (quotedValue '"') key s).or
    ((firstValue (quotedValue (Char.ofNat 39)) key s).or (firstValue plainValue key s))

/-! ## Remote input -/

/-- A text in lower case begins with a statement: with its keyword, blanks and a parenthesis. -/
def Begins (keyword s : Str) : Prop :=
  ∃ b c r, s = b ++ (keyword ++ (c ++ '(' :: r)) ∧ (∀ x ∈ b, isspace x = true) ∧ ∀ x ∈ c, isspace x = true

/-- What a text assigns to a key is `imtcp`. -/
def Assigns (key s : Str) : Prop := ∃ v, assigned key s = some v ∧ lower v = "imtcp"

/-- A directive in lower case that loads `imtcp` or starts a TCP input. -/
def Directive (s : Str) : Prop :=
  words nonBlank s = ["$modload".toList, "imtcp".toList] ∨
    ∃ port rest, words nonBlank s = "$inputtcpserverrun".toList :: port :: rest

/-- A text in lower case that is remote input. -/
def RemoteText (s : Str) : Prop :=
  Directive s ∨ Begins "module" s ∧ Assigns "load" s ∨ Begins "input" s ∧ Assigns "type" s

/-- A line that is remote input when it is read on its own. -/
def RemoteLine (line : Str) : Prop := ∃ text, Visible none line text ∧ RemoteText (lower text)

/-! ## The patterns of the probe -/

section Patterns

variable {is : List Pattern.Item}

theorem head?_texts (rest r : Str) (segs : List Seg) : ∃ t, (texts rest r segs).head? = some t := by
  unfold texts
  cases segs with
  | nil => exact ⟨_, rfl⟩
  | cons seg segs => exact ⟨_, rfl⟩

/-- A pattern that is not anchored is tried at every place. -/
theorem firstCapture_search {pat : Str} (hanchor : pat.head? ≠ some '^') (his : compile pat = is)
    (hs : Simple 0 0 is = true) (s : Str) : firstCapture s pat =
      s.tails.findSome? fun r => (matchRest is r []).bind fun p => (texts r p.1 p.2).head? := by
  have hfind : ∀ s : Str, (findRest is s).bind (fun p => (texts p.1 p.2.1 p.2.2).head?) =
      s.tails.findSome? fun r => (matchRest is r []).bind fun p => (texts r p.1 p.2).head? := by
    intro s
    induction s with
    | nil =>
      rw [findRest, List.tails, List.findSome?_singleton, Option.bind_map]
      rfl
    | cons x s ih =>
      rw [findRest, List.tails, List.findSome?_cons]
      cases hmatch : matchRest is (x :: s) [] with
      | none => exact ih
      | some p =>
        obtain ⟨t, ht⟩ := head?_texts (x :: s) p.1 p.2
        simp only [Option.bind_some, ht]
  rw [← hfind, firstCapture, strMatch_search hanchor his hs]
  cases findRest is s with
  | none => rfl
  | some p =>
    obtain ⟨t, ht⟩ := head?_texts p.1 p.2.1 p.2.2
    simp only [Option.map_some, Option.bind_some, ht]
    cases htexts : texts p.1 p.2.1 p.2.2 with
    | nil => rw [htexts] at ht; cases ht
    | cons u us =>
      rw [htexts] at ht
      exact ht

theorem matchRest_lit_ne {a x : Char} (hx : x ≠ a) (r : Str) (segs : List Seg) :
    matchRest (.single (.lit a) .one :: is) (x :: r) segs = none := by
  have htest : ¬(Single.lit a).test x = true := fun heq => hx (eq_of_beq heq).symm
  rw [matchRest, if_neg htest]

/-- `key%s*=%s*...`, where no blank can follow. -/
theorem matchRest_key (hblank : ∀ x r, isspace x = true → matchRest is (x :: r) [] = none) (key s : Str) :
    matchRest ((spelling key).map (.single · .one) ++ (.single blank .star :: .single (.lit '=') .one ::
      .single blank .star :: is)) s [] = (behindKey key s).bind fun r => matchRest is r [] := by
  rw [matchRest_spells (spells_spelling key), behindKey]
  have hequals : ∀ x r, isspace x = true →
      matchRest (.single (.lit '=') .one :: .single blank .star :: is) (x :: r) [] = none := by
    intro x r hx
    refine matchRest_lit_ne ?_ r []
    rintro rfl
    exact absurd hx (by decide)
  have hstar : ∀ r : Str, matchRest (.single blank .star :: is) r [] = matchRest is (r.dropWhile isspace) [] := by
    intro r
    rw [matchRest]
    exact longest_eq (c := blank) (k := fun r => matchRest is r []) hblank r
  by_cases hkey : key <+: s
  · rw [if_pos hkey, matchRest, longest_eq (c := blank) (k := fun r => matchRest _ r []) hequals]
    show matchRest _ ((s.drop key.length).dropWhile isspace) [] = _
    cases (s.drop key.length).dropWhile isspace with
    | nil =>
      rw [if_neg fun h => by cases h.2]
      rfl
    | cons x r =>
      by_cases hx : x = '='
      · subst hx
        rw [matchRest_lit, hstar, if_pos ⟨hkey, rfl⟩]
        rfl
      · rw [matchRest_lit_ne hx, if_neg fun h => hx (Option.some.inj h.2)]
        rfl
  · rw [if_neg hkey, if_neg fun h => hkey h.1]
    rfl

/-- A captured run in front of what no character of the class can begin. -/
theorem matchRest_capPlus_eq {c : Single} (his : ∀ x r segs, c.test x = true → matchRest is (x :: r) segs = none)
    (s : Str) : matchRest (.capOpen :: .single c .plus :: .capClose :: is) s [] =
      if s.takeWhile c.test ≠ [] then
        matchRest is (s.dropWhile c.test) [⟨s, some (s.takeWhile c.test).length⟩]
      else none := by
  cases s with
  | nil => rfl
  | cons x s =>
    by_cases hx : c.test x = true
    · have hclose : ∀ run r : Str, s = run ++ r → closeSeg r [⟨x :: s, none⟩] =
        some [⟨x :: s, some (run.length + 1)⟩] := by
        rintro run r rfl
        exact closeSeg_run (x :: run) r []
      have hnone : ∀ y r, c.test y = true →
          matchRest (.capClose :: is) (y :: r) [⟨x :: s, none⟩] = none := by
        intro y r hy
        rw [matchRest]
        cases closeSeg (y :: r) [⟨x :: s, none⟩] with
        | none => rfl
        | some segs => exact his y r segs hy
      rw [matchRest, matchRest, if_pos hx, List.takeWhile_cons, if_pos hx, List.dropWhile_cons, if_pos hx,
        if_pos (List.cons_ne_nil _ _)]
      refine (longest_eq (k := fun r => matchRest (.capClose :: is) r [⟨x :: s, none⟩]) hnone s).trans ?_
      rw [matchRest, hclose _ _ List.takeWhile_append_dropWhile.symm]
      rfl
    · rw [matchRest, matchRest, if_neg hx, List.takeWhile_cons, if_neg hx, if_neg fun h => h rfl]

theorem captured_text {s run r : Str} (hs : s = run ++ r) (rest t : Str) :
    (texts t rest [⟨s, some run.length⟩]).head? = some run := by
  subst hs
  exact congrArg some (List.take_left ..)

/-- `"([^"]+)"`, with either quotation mark. -/
theorem matchRest_quoted (q : Char) (s t : Str) :
    ((matchRest [.single (.lit q) .one, .capOpen, .single (allBut q) .plus, .capClose, .single (.lit q) .one] s []).bind
      fun p => (texts t p.1 p.2).head?) = quotedValue q s := by
  have hclass : (allBut q).test = (· != q) := by
    funext x
    rw [Bool.eq_iff_iff, allBut_test, bne_iff_ne]
  cases s with
  | nil => rfl
  | cons x s =>
    by_cases hx : x = q
    · subst hx
      rw [matchRest_lit, quotedValue, matchRest_capPlus_eq, hclass]
      · split
        · next hne =>
          have hsplit : s = s.takeWhile (· != x) ++ s.dropWhile (· != x) := List.takeWhile_append_dropWhile.symm
          cases hdrop : s.dropWhile (· != x) with
          | nil =>
            have hno : x ∉ s := by
              intro hmem
              have := List.dropWhile_eq_nil_iff.mp hdrop x hmem
              simp at this
            rw [if_neg fun h => hno h.2.1]
            rfl
          | cons y r =>
            obtain rfl : y = x := by
              have := List.head?_dropWhile_not (· != x) s
              rw [hdrop] at this
              simpa using this
            have hmem : y ∈ s := by
              rw [hsplit, hdrop]
              exact List.mem_append_right _ List.mem_cons_self
            rw [if_pos ⟨rfl, hmem, hne⟩, matchRest_lit]
            exact captured_text hsplit r t
        · next hnil => rw [if_neg fun h => hnil h.2.2]; rfl
      · intro y r segs hy
        exact matchRest_lit_ne (allBut_test.mp hy) r segs
    · rw [quotedValue, matchRest_lit_ne hx, if_neg fun h => hx h.1]
      rfl

/-- The class `[^,%s%)]`. -/
def plainClass : Single := .set true [.lit ',', .cls 's', .cls ')']

theorem plainClass_test : plainClass.test = isplain := by
  funext c
  have hblank : matchClass 's' c = isspace c := rfl
  have hparen : matchClass ')' c = (')' == c) := rfl
  simp only [plainClass, Single.test, SetItem.test, List.any_cons, List.any_nil, Bool.or_false, hblank, hparen,
    Bool.bne_true, isplain]
  rw [Bool.beq_comm (a := ','), Bool.beq_comm (a := ')'), ← Bool.or_assoc, Bool.or_comm (c == ',')]

/-- `([^,%s%)]+)`. -/
theorem matchRest_plain (s t : Str) :
    ((matchRest [.capOpen, .single plainClass .plus, .capClose] s []).bind
      fun p => (texts t p.1 p.2).head?) = plainValue s := by
  have hsplit : s = s.takeWhile plainClass.test ++ s.dropWhile plainClass.test := List.takeWhile_append_dropWhile.symm
  unfold plainValue
  rw [← plainClass_test]
  split
  · next hne =>
    have hmatch : matchRest [.capOpen, .single plainClass .plus, .capClose]
        (s.takeWhile plainClass.test ++ s.dropWhile plainClass.test) [] =
        some (s.dropWhile plainClass.test, [⟨s, some (s.takeWhile plainClass.test).length⟩]) := by
      refine matchRest_capPlus hne (fun x hx => List.mem_takeWhile_imp hx) (fun x hx => ?_) ?_
      · have := List.head?_dropWhile_not plainClass.test s
        rw [hx] at this
        exact this
      · rw [← hsplit]
        rfl
    rw [← hsplit] at hmatch
    rw [hmatch]
    exact captured_text hsplit (s.dropWhile plainClass.test) t
  · next hnil =>
    cases hm : matchRest [.capOpen, .single plainClass .plus, .capClose] s [] with
    | none => rfl
    | some p =>
      obtain ⟨run, rest, rfl, hne, hrun, -⟩ := of_matchRest_capPlus hm
      rw [List.takeWhile_append_of_pos hrun] at hnil
      exact absurd (fun h => hne (List.append_eq_nil_iff.mp h).1) hnil

end Patterns

/-- One of the three patterns of `parse_named_arg`. -/
theorem firstCapture_value {pat key : Str} {is : List Pattern.Item} {read : Str → Option Str}
    (hanchor : pat.head? ≠ some '^')
    (his : compile pat = (spelling key).map (.single · .one) ++ (.single blank .star :: .single (.lit '=') .one ::
      .single blank .star :: is))
    (hs : Simple 0 0 ((spelling key).map (.single · .one) ++ (.single blank .star :: .single (.lit '=') .one ::
      .single blank .star :: is)) = true)
    (hblank : ∀ x r, isspace x = true → matchRest is (x :: r) [] = none)
    (hread : ∀ s t, ((matchRest is s []).bind fun p => (texts t p.1 p.2).head?) = read s) (s : Str) :
    firstCapture s pat = firstValue read key s := by
  rw [firstCapture_search hanchor his hs, firstValue]
  refine congrArg (fun f => s.tails.findSome? f) (funext fun r => ?_)
  rw [matchRest_key hblank, Option.bind_assoc]
  exact congrArg (fun f => (behindKey key r).bind f) (funext fun u => hread u r)

theorem quoted_blank (q : Char) (hq : isspace q = false) (x : Char) (r : Str) (hx : isspace x = true) :
    matchRest [.single (.lit q) .one, .capOpen, .single (allBut q) .plus, .capClose, .single (.lit q) .one] (x :: r)
      [] =
      none := by
  refine matchRest_lit_ne ?_ r []
  rintro rfl
  rw [hq] at hx
  cases hx

theorem plain_blank (x : Char) (r : Str) (hx : isspace x = true) :
    matchRest [.capOpen, .single plainClass .plus, .capClose] (x :: r) [] = none := by
  have htest : ¬plainClass.test x = true := by
    rw [plainClass_test]
    simp [isplain, hx]
  rw [matchRest, matchRest, if_neg htest]

/-- **`parse_named_arg` reads what the line assigns.** -/
theorem parseNamedArg_eq {name : Str} (hname : ∀ x ∈ name, isMagic x = false) (line : Str) :
    parseNamedArg line name = (assigned name line).map lower := by
  have hanchor : ∀ rest : Str, rest.head? ≠ some '^' → (name ++ rest).head? ≠ some '^' := by
    intro rest hrest
    cases name with
    | nil => exact hrest
    | cons x name =>
      intro hx
      have hmagic := hname x List.mem_cons_self
      rw [Option.some.inj hx] at hmagic
      exact absurd hmagic (by decide)
  have hcompile : ∀ rest : Str, Unquantified rest →
      compile (name ++ rest) = (spelling name).map (.single · .one) ++ compile rest := by
    intro rest hrest
    rw [← compile_escaped name hrest, escaped_plain hname]
  have hblank : ∀ rest : Str, Unquantified ('%' :: rest) := by
    intro rest x hx
    obtain rfl := Option.some.inj hx
    decide
  have hdouble : firstCapture line (name ++ "%s*=%s*\"([^\"]+)\"") = firstValue (quotedValue '"') name line :=
    firstCapture_value (hanchor _ (by decide)) (hcompile _ (hblank _)) (simple_spelling name rfl) (quoted_blank '"' rfl)
      (matchRest_quoted '"') line
  have hsingle : firstCapture line (name ++ "%s*=%s*'([^']+)'") = firstValue (quotedValue (Char.ofNat 39)) name line :=
    firstCapture_value (hanchor _ (by decide)) (hcompile _ (hblank _)) (simple_spelling name rfl)
      (quoted_blank (Char.ofNat 39) rfl) (matchRest_quoted (Char.ofNat 39)) line
  have hplain : firstCapture line (name ++ "%s*=%s*([^,%s%)]+)") = firstValue plainValue name line :=
    firstCapture_value (hanchor _ (by decide)) (hcompile _ (hblank _)) (simple_spelling name rfl) plain_blank
      matchRest_plain line
  unfold parseNamedArg assigned
  rw [← hdouble, ← hsingle, ← hplain]

end Rsyslog

end Seharden
