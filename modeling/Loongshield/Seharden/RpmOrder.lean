import Loongshield.Seharden.Rpmvercmp

/-!
# The version comparison and RPM's own

`rpmOrder` is RPM's algorithm. It sees the carets, and a tilde is below everything, also below the end of a text that
ends in a tilde. The comparison of `probes/packages.lua` takes a caret for a separator, and after a tilde on both sides
it does not start over but reads a second tilde as an empty segment, which is above the end.

- `rpmOrder_eq`: RPM compares the lists of the keys of all tokens;
- `sign_codeKeys`: where no caret is, the two differ exactly if one text ends behind a tilde and the other goes on with
  a tilde (`tildeEnd`);
- `rpmvercmp_agrees_iff`: when they agree.
-/

namespace Seharden

open Lua Pattern

/-! ## RPM's algorithm -/

/-- What RPM drops: all but letters, digits, tildes and carets. -/
def rpmSeparator (c : Char) : Bool := !(isalnum c || c == '~' || c == '^')

/-- What is next in a text, and the rest behind it; nothing at the end. -/
def rpmNext (s : Str) : Option (Tok × Str) :=
  match s.dropWhile rpmSeparator with
  | [] => none
  | c :: r =>
    if c = '~' then some (.tilde, r)
    else if c = '^' then some (.caret, r)
    else some (.run (isdigit c) ((c :: r).takeWhile (inSegment (isdigit c))),
      (c :: r).dropWhile (inSegment (isdigit c)))

/-- An iteration of RPM's loop. -/
def rpmStep (p : Str × Str) : Int ⊕ (Str × Str) :=
  match rpmNext p.1, rpmNext p.2 with
  -- a tilde is below everything
  | some (.tilde, l), some (.tilde, r) => .inr (l, r)
  | some (.tilde, _), _ => .inl (-1)
  | _, some (.tilde, _) => .inl 1
  | none, none => .inl 0
  | none, some _ => .inl (-1)
  | some _, none => .inl 1
  -- a caret is above the end and below any segment
  | some (.caret, l), some (.caret, r) => .inr (l, r)
  | some (.caret, _), some _ => .inl (-1)
  | some _, some (.caret, _) => .inl 1
  -- digits are above letters, numbers are compared by value
  | some (.run n s, l), some (.run m t, r) =>
    if n ≠ m then .inl (if n then 1 else -1)
    else
      let result := if n then Compare.sign (value s) (value t) else Compare.sign s t
      if result = 0 then .inr (l, r) else .inl result

/-- RPM's comparison of versions. -/
def rpmOrder (left right : Str) : Option Int :=
  Compare.loop rpmStep (left.length + right.length + 1) (left, right)

/-- What RPM compares a text by. -/
def rpmKeys (ts : List Tok) : List Key := ts.map (key false) ++ [endKey]

theorem toks_dropWhile (s : Str) : toks (s.dropWhile rpmSeparator) = toks s := by
  induction s with
  | nil => rfl
  | cons c s ih =>
    by_cases hc : rpmSeparator c = true
    · rw [List.dropWhile_cons_of_pos hc, ih]
      rw [rpmSeparator, Bool.not_eq_true', Bool.or_eq_false_iff, Bool.or_eq_false_iff, beq_eq_false_iff_ne,
        beq_eq_false_iff_ne] at hc
      rw [toks, if_neg hc.1.2, if_neg hc.2, hc.1.1, if_neg Bool.false_ne_true]
    · rw [List.dropWhile_cons_of_neg hc]

/-- The tokens of a text, one by one. -/
theorem toks_rpmNext (s : Str) : (rpmNext s = none ∧ toks s = []) ∨
    ∃ t rest, rpmNext s = some (t, rest) ∧ toks s = t :: toks rest ∧ rest.length < s.length ∧ ∀ n, t ≠ .run n [] := by
  have htoks := toks_dropWhile s
  have hlen : (s.dropWhile rpmSeparator).length ≤ s.length := (List.dropWhile_sublist _).length_le
  have hhead := any_head_dropWhile rpmSeparator s
  unfold rpmNext
  rw [← htoks]
  generalize s.dropWhile rpmSeparator = r at hlen hhead
  cases r with
  | nil => exact .inl ⟨rfl, rfl⟩
  | cons c r =>
    right
    rw [List.length_cons] at hlen
    by_cases htilde : c = '~'
    · subst htilde
      exact ⟨.tilde, r, rfl, rfl, hlen, nofun⟩
    · by_cases hcaret : c = '^'
      · subst hcaret
        exact ⟨.caret, r, rfl, rfl, hlen, nofun⟩
      · have halnum : isalnum c = true := by simpa [rpmSeparator, htilde, hcaret] using hhead
        have hin : inSegment (isdigit c) c = true := inSegment_iff.mpr ⟨halnum, rfl⟩
        have hdrop : (r.dropWhile (inSegment (isdigit c))).length ≤ r.length := (List.dropWhile_sublist _).length_le
        dsimp only
        rw [if_neg htilde, if_neg hcaret, List.takeWhile_cons_of_pos hin, List.dropWhile_cons_of_pos hin]
        exact ⟨_, _, rfl, (toks_alnum halnum).1, by omega, fun n h => by cases h⟩

theorem mkKey_lt {k k' : Nat} (h : k < k') (n n' : Nat) (s s' : Str) : mkKey k n s < mkKey k' n' s' :=
  (Prod.Lex.toLex_lt_toLex).mpr (.inl h)

/-- The kind of a run is 3 or 4. -/
theorem lt_key_run {k : Nat} (hk : k < 3) (afterTilde numeric : Bool) (text : Str) :
    mkKey k 0 [] < key afterTilde (.run numeric text) := by
  cases numeric with
  | true => exact mkKey_lt (by omega) _ _ _ _
  | false => exact mkKey_lt hk _ _ _ _

theorem sign_cons_of_lt {a b : Key} (h : a < b) (ks ms : List Key) :
    Compare.sign (a :: ks) (b :: ms) = -1 ∧ Compare.sign (b :: ms) (a :: ks) = 1 :=
  have hlt : a :: ks < b :: ms := List.cons_lt_cons_iff.mpr (.inl h)
  ⟨Compare.sign_of_lt hlt, Compare.sign_of_gt hlt⟩

/-- The comparison of two runs by their keys. -/
theorem sign_key_run (n m : Bool) (s t : Str) : Compare.sign (key false (.run n s)) (key false (.run m t)) =
    if n ≠ m then if n then 1 else -1 else if n then Compare.sign (value s) (value t) else Compare.sign s t := by
  cases n with
  | true =>
    cases m with
    | true =>
      rw [key, key, if_pos rfl, if_pos rfl, sign_mkKey, if_pos rfl]
      by_cases h : value s = value t
      · simp [h]
      · simp [h]
    | false =>
      rw [key, key, if_pos rfl, if_neg Bool.false_ne_true, sign_mkKey]
      rfl
  | false =>
    cases m with
    | true =>
      rw [key, key, if_pos rfl, if_neg Bool.false_ne_true, sign_mkKey]
      rfl
    | false =>
      rw [key, key, if_neg Bool.false_ne_true, if_neg Bool.false_ne_true, sign_mkKey]
      rfl

/-- What RPM's comparison comes to. -/
def rpmSign (p : Str × Str) : Int := Compare.sign (rpmKeys (toks p.1)) (rpmKeys (toks p.2))

/-- An iteration of RPM's loop keeps the comparison of the keys, and a cursor moves. -/
theorem keeps_rpmStep (p : Str × Str) : Compare.Keeps rpmSign cursors p (rpmStep p) := by
  obtain ⟨l, r⟩ := p
  have hsign : rpmSign (l, r) = Compare.sign (rpmKeys (toks l)) (rpmKeys (toks r)) := rfl
  unfold rpmStep
  dsimp only
  rcases toks_rpmNext l with ⟨hl, htl⟩ | ⟨t, l', hl, htl, hltl, -⟩
  · rcases toks_rpmNext r with ⟨hr, htr⟩ | ⟨t', r', hr, htr, hltr, -⟩
    · rw [htl, htr] at hsign
      rw [hl, hr]
      exact hsign.trans (Compare.sign_self _)
    · rw [htl, htr] at hsign
      rw [hl, hr]
      cases t' with
      | tilde => exact hsign.trans (sign_cons_of_lt (by decide) _ _).2
      | caret => exact hsign.trans (sign_cons_of_lt (by decide) _ _).1
      | run m t => exact hsign.trans (sign_cons_of_lt (lt_key_run (by decide) _ _ _) _ _).1
  · rcases toks_rpmNext r with ⟨hr, htr⟩ | ⟨t', r', hr, htr, hltr, -⟩
    · rw [htl, htr] at hsign
      rw [hl, hr]
      cases t with
      | tilde => exact hsign.trans (sign_cons_of_lt (by decide) _ _).1
      | caret => exact hsign.trans (sign_cons_of_lt (by decide) _ _).2
      | run m t => exact hsign.trans (sign_cons_of_lt (lt_key_run (by decide) _ _ _) _ _).2
    · have hnext : ∀ {a b : Key}, rpmSign (l, r) = Compare.sign (a :: rpmKeys (toks l')) (b :: rpmKeys (toks r')) →
          a = b → Compare.Keeps rpmSign cursors (l, r) (.inr (l', r')) := by
        rintro a _ h rfl
        refine ⟨h.trans (Compare.sign_cons_self _ _ _), ?_⟩
        unfold cursors
        dsimp only
        omega
      rw [htl, htr] at hsign
      rw [hl, hr]
      cases t with
      | tilde =>
        cases t' with
        | tilde => exact hnext hsign rfl
        | caret => exact hsign.trans (sign_cons_of_lt (by decide) _ _).1
        | run m t => exact hsign.trans (sign_cons_of_lt (lt_key_run (by decide) _ _ _) _ _).1
      | caret =>
        cases t' with
        | tilde => exact hsign.trans (sign_cons_of_lt (by decide) _ _).2
        | caret => exact hnext hsign rfl
        | run m t => exact hsign.trans (sign_cons_of_lt (lt_key_run (by decide) _ _ _) _ _).1
      | run n s =>
        cases t' with
        | tilde => exact hsign.trans (sign_cons_of_lt (lt_key_run (by decide) _ _ _) _ _).2
        | caret => exact hsign.trans (sign_cons_of_lt (lt_key_run (by decide) _ _ _) _ _).2
        | run m t =>
          have hkey := sign_key_run n m s t
          have hsign' : rpmSign (l, r) = Compare.sign (key false (.run n s) :: rpmKeys (toks l'))
            (key false (.run m t) :: rpmKeys (toks r')) := hsign
          by_cases heq : key false (.run n s) = key false (.run m t)
          · rw [Compare.sign_eq_zero.mpr heq] at hkey
            by_cases hnm : n = m
            · subst hnm
              rw [if_neg (not_not.mpr rfl)] at hkey
              dsimp only
              rw [if_neg (not_not.mpr rfl), if_pos hkey.symm]
              exact hnext hsign' heq
            · rw [if_pos hnm] at hkey
              cases n <;> cases hkey
          · rw [Compare.sign_cons, if_neg heq, hkey] at hsign'
            have hne := mt Compare.sign_eq_zero.mp heq
            by_cases hnm : n = m
            · subst hnm
              rw [if_neg (not_not.mpr rfl)] at hkey hsign'
              rw [hkey] at hne
              dsimp only
              rw [if_neg (not_not.mpr rfl), if_neg hne]
              exact hsign'
            · rw [if_pos hnm] at hsign'
              dsimp only
              rw [if_pos hnm]
              exact hsign'

/-- **RPM compares the keys of all tokens.** -/
theorem rpmOrder_eq (left right : Str) : rpmOrder left right =
    some (Compare.sign (rpmKeys (toks left)) (rpmKeys (toks right))) :=
  @Compare.loop_eq _ _ rpmStep rpmSign cursors keeps_rpmStep _ (left, right) (Nat.lt_succ_self _)

/-! ## Where the two differ -/

/-- The two have the same keys up to where one of them ends, behind a tilde, and the other goes on with a tilde. -/
def tildeEnd : Bool → List Tok → List Tok → Bool
  | _, [], [] => false
  | afterTilde, [], t :: _ => afterTilde && t == .tilde
  | afterTilde, t :: _, [] => afterTilde && t == .tilde
  | _, t :: u, t' :: v => key false t == key false t' && tildeEnd (t == .tilde) u v

/-- A text with a dot for each caret. -/
def dotted (s : Str) : Str := s.map fun c => if c = '^' then '.' else c

/-- Runs have characters. -/
theorem run_ne_nil {t : Tok} : ∀ {s : Str}, t ∈ toks s → ∀ n, t ≠ .run n [] := by
  intro s
  induction h : s.length using Nat.strong_induction_on generalizing s with
  | _ k ih =>
    intro ht
    rcases toks_rpmNext s with ⟨-, htoks⟩ | ⟨u, rest, -, htoks, hlt, hu⟩
    · rw [htoks] at ht
      cases ht
    · rw [htoks] at ht
      rcases List.mem_cons.mp ht with rfl | ht
      · exact hu
      · exact ih rest.length (by omega) rfl ht

/-- Without the carets, the tokens are those of the text with dots. -/
theorem toks_dotted (s : Str) : toks (dotted s) = plainToks s := by
  induction s with
  | nil => rfl
  | cons c s ih =>
    have hcons : dotted (c :: s) = (if c = '^' then '.' else c) :: dotted s := rfl
    by_cases hcaret : c = '^'
    · subst hcaret
      rw [hcons, if_pos rfl]
      exact ih
    · rw [hcons, if_neg hcaret]
      by_cases htilde : c = '~'
      · subst htilde
        exact congrArg (.tilde :: ·) ih
      · unfold plainToks at ih ⊢
        by_cases halnum : isalnum c = true
        · rw [toks, toks, if_neg htilde, if_neg hcaret, if_pos halnum, if_neg htilde, if_neg hcaret, if_pos halnum]
          have hhead : ∀ numeric, (dotted s).head?.any (inSegment numeric) = s.head?.any (inSegment numeric) := by
            intro numeric
            cases s with
            | nil => rfl
            | cons d s =>
              by_cases hd : d = '^'
              · subst hd
                cases numeric <;> rfl
              · have hcons' : dotted (d :: s) = d :: dotted s := by
                  change (if d = '^' then '.' else d) :: dotted s = _
                  rw [if_neg hd]
                rw [hcons']
                rfl
          rw [hhead, ih]
          cases hany : s.head?.any (inSegment (isdigit c)) with
          | false => exact (List.filter_cons_of_pos (by simp)).symm
          | true =>
            cases s with
            | nil => cases hany
            | cons d s =>
              have hd : isalnum d = true := (inSegment_iff.mp hany).1
              rw [(toks_alnum hd).1, List.filter_cons_of_pos (by simp)]
              exact (List.filter_cons_of_pos (by simp)).symm
        · rw [toks, toks, if_neg htilde, if_neg hcaret, if_neg halnum, if_neg htilde, if_neg hcaret, if_neg halnum]
          exact ih

/-- A token the loop sees. -/
def Seen (t : Tok) : Prop := t = .tilde ∨ ∃ numeric text, text ≠ [] ∧ t = .run numeric text

theorem seen_of_mem {t : Tok} {s : Str} (h : t ∈ plainToks s) : Seen t := by
  obtain ⟨hmem, hcaret⟩ := List.mem_filter.mp h
  cases t with
  | tilde => exact .inl rfl
  | caret => simp at hcaret
  | run numeric text => exact .inr ⟨numeric, text, fun h => run_ne_nil hmem numeric (h ▸ rfl), rfl⟩

/-- Behind a tilde, tokens are ordered as elsewhere. -/
theorem sign_key {t t' : Tok} (ht : Seen t) (ht' : Seen t') (afterTilde : Bool) :
    Compare.sign (key afterTilde t) (key afterTilde t') = Compare.sign (key false t) (key false t') := by
  have hrun : ∀ {numeric : Bool} {text : Str}, text ≠ [] →
    key afterTilde .tilde < key afterTilde (.run numeric text) := by
    intro numeric text hne
    cases afterTilde with
    | false => exact lt_key_run (by decide) _ _ _
    | true =>
      cases numeric with
      | true => exact mkKey_lt (by decide) _ _ _ _
      | false =>
        refine (Prod.Lex.toLex_lt_toLex).mpr (.inr ⟨rfl, (Prod.Lex.toLex_lt_toLex).mpr (.inr ⟨rfl, ?_⟩)⟩)
        cases text with
        | nil => exact absurd rfl hne
        | cons c text => exact List.nil_lt_cons c text
  have hrun' : ∀ numeric text, key false .tilde < key false (.run numeric text) := lt_key_run (by decide) false
  rcases ht with rfl | ⟨n, s, hs, rfl⟩
  · rcases ht' with rfl | ⟨m, t, htext, rfl⟩
    · rw [Compare.sign_self, Compare.sign_self]
    · rw [Compare.sign_of_lt (hrun htext), Compare.sign_of_lt (hrun' m t)]
  · rcases ht' with rfl | ⟨m, t, htext, rfl⟩
    · rw [Compare.sign_of_gt (hrun hs), Compare.sign_of_gt (hrun' n s)]
    · rfl

/-- A token and the end of the text. -/
theorem sign_key_end {t : Tok} (ht : Seen t) (afterTilde : Bool) (ks ms : List Key) :
    Compare.sign (key afterTilde t :: ks) [endKey] =
      (if (afterTilde && t == .tilde) = true then -1 else 1) * Compare.sign (key false t :: ms) [endKey] := by
  rcases ht with rfl | ⟨numeric, text, -, rfl⟩
  · cases afterTilde with
    | true => rw [(sign_cons_of_lt (by decide) _ _).2, (sign_cons_of_lt (by decide) _ _).1]; rfl
    | false => rw [(sign_cons_of_lt (by decide) _ _).1, (sign_cons_of_lt (by decide) _ _).1]; rfl
  · have hlt : ∀ afterTilde, endKey < key afterTilde (.run numeric text) := fun _ => lt_key_run (by decide) _ _ _
    have hne : (afterTilde && Tok.run numeric text == .tilde) = false := Bool.and_false afterTilde
    rw [(sign_cons_of_lt (hlt afterTilde) _ _).2, (sign_cons_of_lt (hlt false) _ _).2, hne]
    rfl

/-- **Behind a tilde, the end and a tilde are in the wrong order**; but for that the loop orders tokens as RPM does. -/
theorem sign_codeKeys : ∀ (afterTilde : Bool) {u v : List Tok}, (∀ t ∈ u, Seen t) → (∀ t ∈ v, Seen t) →
    Compare.sign (codeKeys afterTilde u) (codeKeys afterTilde v) =
      (if tildeEnd afterTilde u v then -1 else 1) * Compare.sign (rpmKeys u) (rpmKeys v)
  | _, [], [], _, _ => by
    rw [Compare.sign_self, Compare.sign_self, mul_zero]
  | afterTilde, [], t :: v, _, hv => by
    have hend := sign_key_end (hv t List.mem_cons_self) afterTilde (codeKeys (t == .tilde) v) (rpmKeys v)
    rw [Compare.sign_swap, Compare.sign_swap (rpmKeys (t :: v)), codeKeys, codeKeys, mul_neg]
    exact congrArg Neg.neg hend
  | afterTilde, t :: u, [], hu, _ => sign_key_end (hu t List.mem_cons_self) afterTilde _ (rpmKeys u)
  | afterTilde, t :: u, t' :: v, hu, hv => by
    have hsign := sign_key (hu t List.mem_cons_self) (hv t' List.mem_cons_self) afterTilde
    have hcons : ∀ (t : Tok) (ts : List Tok), rpmKeys (t :: ts) = key false t :: rpmKeys ts := fun _ _ => rfl
    rw [codeKeys, codeKeys, hcons, hcons, Compare.sign_cons, Compare.sign_cons, hsign, tildeEnd]
    by_cases hkey : key false t = key false t'
    · have hkey' : key afterTilde t = key afterTilde t' :=
        Compare.sign_eq_zero.mp (hsign.trans (Compare.sign_eq_zero.mpr hkey))
      have htilde : (t == .tilde) = (t' == .tilde) := by
        have hne : ∀ numeric text, key false .tilde ≠ key false (.run numeric text) :=
          fun numeric text => (@lt_key_run 0 (by decide) false numeric text).ne
        rcases hu t List.mem_cons_self with rfl | ⟨n, s, -, rfl⟩
        · rcases hv t' List.mem_cons_self with rfl | ⟨m, t, -, rfl⟩
          · rfl
          · exact absurd hkey (hne m t)
        · rcases hv t' List.mem_cons_self with rfl | ⟨m, t, -, rfl⟩
          · exact absurd hkey.symm (hne n s)
          · rfl
      rw [if_pos hkey', if_pos hkey, beq_iff_eq.mpr hkey, Bool.true_and, ← htilde]
      exact sign_codeKeys (t == .tilde) (fun x hx => hu x (List.mem_cons_of_mem t hx))
        fun x hx => hv x (List.mem_cons_of_mem t' hx)
    · have hkey' : ¬ key afterTilde t = key afterTilde t' := fun h =>
        hkey (Compare.sign_eq_zero.mp (hsign.symm.trans (Compare.sign_eq_zero.mpr h)))
      rw [if_neg hkey', if_neg hkey, beq_false_of_ne hkey, Bool.false_and, if_neg Bool.false_ne_true, one_mul]

/-! ## A tilde behind a version -/

/-- A tilde is a token of its own. -/
theorem toks_append_tilde (v s : Str) : toks (v ++ '~' :: s) = toks v ++ .tilde :: toks s := by
  induction v with
  | nil => rfl
  | cons c v ih =>
    rw [List.cons_append, toks, toks]
    by_cases htilde : c = '~'
    · rw [if_pos htilde, if_pos htilde, ih, List.cons_append]
    · rw [if_neg htilde, if_neg htilde]
      by_cases hcaret : c = '^'
      · rw [if_pos hcaret, if_pos hcaret, ih, List.cons_append]
      · rw [if_neg hcaret, if_neg hcaret]
        by_cases halnum : isalnum c = true
        · rw [if_pos halnum, if_pos halnum, ih]
          cases v with
          | nil => cases isdigit c <;> rfl
          | cons d v =>
            rw [List.cons_append, List.head?_cons, List.head?_cons, Option.any_some]
            cases hd : inSegment (isdigit c) d with
            | false => rfl
            | true =>
              rw [(toks_alnum (inSegment_iff.mp hd).1).1]
              rfl
        · rw [if_neg halnum, if_neg halnum, ih]

/-- The keys of a beginning, and whether a tilde is last in it. -/
theorem codeKeys_append : ∀ (afterTilde : Bool) (u : List Tok), ∃ ks, ∀ w,
    codeKeys afterTilde (u ++ w) = ks ++ codeKeys ((u.getLast?.map (· == .tilde)).getD afterTilde) w
  | afterTilde, [] => ⟨[], fun _ => rfl⟩
  | afterTilde, t :: u => by
    obtain ⟨ks, hks⟩ := codeKeys_append (t == .tilde) u
    refine ⟨key afterTilde t :: ks, fun w => ?_⟩
    rw [List.cons_append, codeKeys, hks, List.cons_append]
    cases u with
    | nil => rfl
    | cons t' u => rw [List.getLast?_cons_cons, List.getLast?_cons]; rfl

theorem sign_append {l m : List Key} : ∀ ks : List Key, Compare.sign (ks ++ l) (ks ++ m) = Compare.sign l m
  | [] => rfl
  | k :: ks => by rw [List.cons_append, List.cons_append, Compare.sign_cons_self, sign_append ks]

/-- **A version with a tilde behind it is older**, unless the version ends in a tilde itself. -/
theorem rpmvercmp_tilde_iff (v s : Str) :
    rpmvercmp (v ++ '~' :: s) v = some (-1) ↔ (plainToks v).getLast? ≠ some .tilde := by
  have htoks : plainToks (v ++ '~' :: s) = plainToks v ++ .tilde :: plainToks s := by
    unfold plainToks
    rw [toks_append_tilde, List.filter_append, List.filter_cons_of_pos (by simp)]
  obtain ⟨ks, hks⟩ := codeKeys_append false (plainToks v)
  have hnil := hks []
  rw [List.append_nil] at hnil
  rw [rpmvercmp_eq, htoks, hks, hnil, sign_append]
  cases hlast : (plainToks v).getLast? with
  | none =>
    have hsign := (sign_cons_of_lt (by decide : key false .tilde < endKey) (codeKeys true (plainToks s)) []).1
    exact iff_of_true (congrArg some hsign) nofun
  | some t =>
    rw [Option.map_some, Option.getD_some]
    by_cases ht : t = .tilde
    · subst ht
      have hsign := (sign_cons_of_lt (by decide : endKey < key true .tilde) [] (codeKeys true (plainToks s))).2
      refine iff_of_false (fun h => ?_) fun h => h rfl
      have hone : (some (1 : Int)) = some (-1) := (congrArg some hsign).symm.trans h
      cases hone
    · have hsign := (sign_cons_of_lt (by decide : key false .tilde < endKey) (codeKeys true (plainToks s)) []).1
      rw [beq_false_of_ne ht]
      exact iff_of_true (congrArg some hsign) fun h => ht (Option.some.inj h)

/-- RPM orders two texts as it does with dots for the carets; reversed, if one of these then ends behind a tilde where
the other goes on with a tilde. -/
def OrderedAsDotted (a b : Str) : Prop :=
  ∃ r, rpmOrder (dotted a) (dotted b) = some r ∧
    rpmOrder a b = some (if tildeEnd false (toks (dotted a)) (toks (dotted b)) then -r else r)

/-- **When the comparison is RPM's.** -/
theorem rpmvercmp_agrees_iff (a b v s : Str) :
    (rpmvercmp a b = rpmOrder a b ↔ OrderedAsDotted a b) ∧
      (rpmvercmp (v ++ '~' :: s) v = some (-1) ↔ (plainToks v).getLast? ≠ some .tilde) := by
  refine ⟨?_, rpmvercmp_tilde_iff v s⟩
  have hcode := @sign_codeKeys false (plainToks a) (plainToks b) (fun t => seen_of_mem) fun t => seen_of_mem
  have hif : ∀ (p : Bool) (r : Int), (if p then -1 else 1) * r = if p then -r else r := by
    intro p r
    cases p with
    | true => exact neg_one_mul r
    | false => exact one_mul r
  unfold OrderedAsDotted
  rw [rpmvercmp_eq, hcode, rpmOrder_eq (dotted a), toks_dotted, toks_dotted, hif]
  constructor
  · intro h
    exact ⟨_, rfl, h.symm⟩
  · rintro ⟨r, hr, h⟩
    cases hr
    exact h.symm

/-- A second tilde makes a version newer, and a caret makes no difference; both against RPM. -/
theorem second_tilde_newer :
    rpmvercmp "1~~" "1~" = some 1 ∧ rpmOrder "1~~" "1~" = some (-1) ∧
      rpmvercmp "1^" "1" = some 0 ∧ rpmOrder "1^" "1" = some 1 := by
  decide +kernel

end Seharden
