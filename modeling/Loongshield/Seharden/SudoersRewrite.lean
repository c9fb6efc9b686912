import Loongshield.Seharden.SudoersLine

/-!
# A `Defaults` line without a flag

The options of a line are split at commas outside quotes and escapes, some are dropped, and the others are joined by
commas. Splitting again gives the same texts, except that a text which ends in an open escape (its escaped blank was
trimmed) takes the comma and the next text with it.

- `scan`: the mode of the splitter after a text without a separating comma;
- `splitDefaultsOptions_pieces`: what the splitter gives;
- `splitDefaultsOptions_join`: what it makes of texts that are joined again;
- `keepsText_iff`: when a rewritten line keeps everything of its text but the flag.
-/

namespace Seharden
namespace Sudoers

open Lua Pattern

/-! ## The splitter -/

/-- The open quote of the splitter, and whether the next character is escaped. -/
abbrev Mode := Option Char × Bool

/-- One character; `none` for a comma that separates. -/
def scanChar (m : Mode) (c : Char) : Option Mode :=
  if m.2 then some (m.1, false)
  else if c = '\\' then some (m.1, true)
  else match m.1 with
    | some q => some (if c = q then none else some q, false)
    | none => if c = '"' ∨ c = '\'' then some (some c, false) else if c = ',' then none else some (none, false)

/-- The mode after a text; `none` if a comma in it separates. -/
def scan : Mode → Str → Option Mode
  | m, [] => some m
  | m, c :: t => (scanChar m c).bind fun m => scan m t

/-- The mode at the beginning of a text. -/
abbrev start : Mode := (none, false)

theorem scan_append (m : Mode) (u : Str) : ∀ t : Str, scan m (t ++ u) = (scan m t).bind fun m => scan m u := by
  intro t
  induction t generalizing m with
  | nil => rfl
  | cons c t ih =>
    rw [List.cons_append, scan, scan, Option.bind_assoc]
    congr 1
    funext m
    exact ih m

/-- One step of the splitter. -/
theorem next_eq (st : SplitState) (c : Char) : st.next c = match scanChar (st.quote, st.escaped) c with
    | some (q, e) => { st with buffer := st.buffer ++ [c], quote := q, escaped := e }
    | none => st.push := by
  obtain ⟨opts, b, q, e⟩ := st
  unfold SplitState.next scanChar
  cases e with
  | true => rfl
  | false =>
    simp only [Bool.false_eq_true, if_false]
    split
    · rfl
    · cases q with
      | some q => rfl
      | none =>
        dsimp only
        split
        · rfl
        · split <;> rfl

/-- A text without a separating comma goes to the buffer. -/
theorem foldl_next_scan : ∀ {t : Str} {st : SplitState} {q : Option Char} {e : Bool},
    scan (st.quote, st.escaped) t = some (q, e) →
      t.foldl SplitState.next st = { st with buffer := st.buffer ++ t, quote := q, escaped := e }
  | [], st, q, e, h => by
    obtain ⟨rfl, rfl⟩ := Prod.mk.inj (Option.some.inj h)
    rw [List.foldl_nil, List.append_nil]
  | c :: t, st, q, e, h => by
    rw [scan] at h
    obtain ⟨⟨q', e'⟩, hc, ht⟩ := Option.bind_eq_some_iff.mp h
    have hnext := next_eq st c
    rw [hc] at hnext
    rw [List.foldl_cons, hnext, foldl_next_scan ht]
    simp

/-! ## The pieces -/

/-- The quote of a mode is a quote. -/
def Mode.Quoted (m : Mode) : Prop := ∀ c, m.1 = some c → c = '"' ∨ c = '\''

theorem Mode.Quoted.scanChar {m m' : Mode} {c : Char} (h : m.Quoted) (hc : scanChar m c = some m') : m'.Quoted := by
  obtain ⟨q, e⟩ := m
  unfold Sudoers.scanChar at hc
  split at hc
  · obtain rfl := Option.some.inj hc
    exact h
  · split at hc
    · obtain rfl := Option.some.inj hc
      exact h
    · cases q with
      | some q =>
        obtain rfl := Option.some.inj hc
        intro d hd
        dsimp only at hd
        split at hd
        · cases hd
        · exact h d hd
      | none =>
        dsimp only at hc
        split at hc
        · next hquote =>
          obtain rfl := Option.some.inj hc
          rintro d hd
          rw [← Option.some.inj hd]
          exact hquote
        · split at hc
          · cases hc
          · obtain rfl := Option.some.inj hc
            rintro d hd
            cases hd

theorem Mode.Quoted.scan : ∀ {t : Str} {m m' : Mode}, m.Quoted → scan m t = some m' → m'.Quoted
  | [], _, _, h, ht => Option.some.inj ht ▸ h
  | _ :: _, _, _, h, ht => by
    obtain ⟨m, hc, ht⟩ := Option.bind_eq_some_iff.mp ht
    exact (h.scanChar hc).scan ht

theorem quoted_start : start.Quoted := by simp [Mode.Quoted]

theorem scanChar_blank {m : Mode} (h : m.Quoted) {x : Char} (hx : isspace x = true) :
    scanChar m x = some (m.1, false) := by
  have hne : ∀ c, isspace c = false → x ≠ c := by
    rintro c hc rfl
    rw [hc] at hx
    cases hx
  obtain ⟨q, e⟩ := m
  unfold scanChar
  cases e with
  | true => rfl
  | false =>
    simp only [Bool.false_eq_true, if_false, if_neg (hne '\\' (by decide))]
    cases q with
    | some q =>
      have hq : isspace q = false := by
        rcases h q rfl with rfl | rfl <;> decide
      simp only [if_neg (hne q hq)]
    | none =>
      have hquote : ¬ (x = '"' ∨ x = '\'') := by
        rintro (h | h)
        · exact hne '"' (by decide) h
        · exact hne '\'' (by decide) h
      simp only [if_neg hquote, if_neg (hne ',' (by decide))]

/-- Blanks leave the quote. -/
theorem scan_blanks : ∀ {b : Str} {m : Mode}, m.Quoted → (∀ x ∈ b, isspace x = true) →
    ∃ e, scan m b = some (m.1, e) ∧ (m.2 = false → e = false)
  | [], m, _, _ => ⟨m.2, rfl, id⟩
  | x :: b, m, h, hb => by
    have hx := scanChar_blank h (hb x List.mem_cons_self)
    obtain ⟨e, he, hfalse⟩ := @scan_blanks b (m.1, false) h fun y hy => hb y (List.mem_cons_of_mem x hy)
    exact ⟨e, by rw [scan, hx]; exact he, fun _ => hfalse rfl⟩

/-- A buffer without the blanks at its ends leaves the same quote. -/
theorem scan_trim {b : Str} {m : Mode} (h : scan start b = some m) : ∃ e, scan start (trim b) = some (m.1, e) := by
  obtain ⟨l, r, hl, hr, hb⟩ := exists_trim b
  obtain ⟨e, he, hfalse⟩ := scan_blanks quoted_start hl
  obtain rfl := hfalse rfl
  rw [hb, scan_append, he] at h
  change scan start (trim b ++ r) = some m at h
  rw [scan_append] at h
  obtain ⟨m', ht, hend⟩ := Option.bind_eq_some_iff.mp h
  obtain ⟨e', he', -⟩ := scan_blanks (quoted_start.scan ht) hr
  rw [he'] at hend
  exact ⟨m'.2, by rw [ht, ← Option.some.inj hend]⟩

/-- A text that the splitter keeps together, with no quote left open. -/
def Closed (t : Str) : Prop := ∃ e, scan start t = some (none, e)

/-- Texts that the splitter keeps together; only the last one may leave a quote open. -/
inductive Pieces : List Str → Prop
  | nil : Pieces []
  | last {t : Str} (h : (scan start t).isSome = true) : Pieces [t]
  | cons {t t' : Str} {ts : List Str} (h : Closed t) (hs : Pieces (t' :: ts)) : Pieces (t :: t' :: ts)

theorem pieces_concat : ∀ {ts : List Str} {t : Str}, (∀ u ∈ ts, Closed u) → (scan start t).isSome = true →
    Pieces (ts ++ [t])
  | [], _, _, ht => .last ht
  | [_], _, h, ht => .cons (h _ List.mem_cons_self) (.last ht)
  | u :: _ :: _, _, h, ht => .cons (h u List.mem_cons_self)
      (pieces_concat (fun v hv => h v (List.mem_cons_of_mem u hv)) ht)

theorem Closed.isSome {t : Str} (h : Closed t) : (scan start t).isSome = true := by
  obtain ⟨e, he⟩ := h
  rw [he]
  rfl

theorem pieces_of_closed : ∀ {ts : List Str}, (∀ t ∈ ts, Closed t) → Pieces ts
  | [], _ => .nil
  | [_], h => .last (h _ List.mem_cons_self).isSome
  | t :: _ :: _, h => .cons (h t List.mem_cons_self) (pieces_of_closed fun u hu => h u (List.mem_cons_of_mem t hu))

/-- What the splitter has so far of a text `w`. -/
structure Splits (w : Str) (st : SplitState) : Prop where
  buffer : scan start st.buffer = some (st.quote, st.escaped)
  suffix : st.buffer <:+ w
  options : ∀ t ∈ st.options, Closed t ∧ t ≠ [] ∧ Trimmed t ∧ t <:+: w

theorem splits_init : Splits [] { options := [], buffer := [], quote := none, escaped := false } where
  buffer := rfl
  suffix := List.suffix_rfl
  options := by simp

theorem scanChar_none {m : Mode} {c : Char} (h : scanChar m c = none) : m = start ∧ c = ',' := by
  obtain ⟨q, e⟩ := m
  unfold scanChar at h
  cases e with
  | true => cases h
  | false =>
    simp only [Bool.false_eq_true, if_false] at h
    split at h
    · cases h
    · cases q with
      | some q => cases h
      | none =>
        dsimp only at h
        split at h
        · cases h
        · split at h
          · next hc => exact ⟨rfl, hc⟩
          · cases h

namespace Splits

variable {w : Str} {st : SplitState}

/-- One step keeps what the splitter knows. -/
theorem next (h : Splits w st) (c : Char) : Splits (w ++ [c]) (st.next c) := by
  have hinfix : ∀ {t : Str}, t <:+: w → t <:+: w ++ [c] := fun ht => ht.trans ⟨[], [c], rfl⟩
  rw [next_eq]
  cases hc : scanChar (st.quote, st.escaped) c with
  | some m =>
    refine ⟨?_, ?_, fun t ht => ?_⟩
    · rw [scan_append, h.buffer]
      change (scanChar (st.quote, st.escaped) c).bind (fun m => scan m []) = _
      rw [hc]
      rfl
    · obtain ⟨pre, hpre⟩ := h.suffix
      exact ⟨pre, by rw [← hpre, List.append_assoc]⟩
    · obtain ⟨hclosed, hne, htrim, hin⟩ := h.options t ht
      exact ⟨hclosed, hne, htrim, hinfix hin⟩
  | none =>
    obtain ⟨hm, rfl⟩ := scanChar_none hc
    have hbuffer := h.buffer
    rw [hm] at hbuffer
    refine ⟨?_, List.nil_suffix, fun t ht => ?_⟩
    · exact congrArg some hm.symm
    · have hold : ∀ t ∈ st.options, Closed t ∧ t ≠ [] ∧ Trimmed t ∧ t <:+: w ++ [','] := by
        intro t ht
        obtain ⟨hclosed, hne, htrim, hin⟩ := h.options t ht
        exact ⟨hclosed, hne, htrim, hinfix hin⟩
      change t ∈ (if trim st.buffer = [] then st.options else st.options ++ [trim st.buffer]) at ht
      split at ht
      · exact hold t ht
      · next hne =>
        rcases List.mem_append.mp ht with ht | ht
        · exact hold t ht
        · rw [List.mem_singleton.mp ht]
          exact ⟨scan_trim hbuffer, hne, trimmed_trim _, hinfix ((infix_trim _).trans h.suffix.isInfix)⟩

theorem foldl : ∀ {t w : Str} {st : SplitState}, Splits w st → Splits (w ++ t) (t.foldl SplitState.next st)
  | [], w, st, h => by
    rw [List.append_nil]
    exact h
  | c :: t, w, st, h => by
    have hnext := (h.next c).foldl (t := t)
    rw [List.append_assoc] at hnext
    exact hnext

end Splits

/-- **The pieces of a text.** -/
theorem splitDefaultsOptions_pieces (raw : Str) : Pieces (splitDefaultsOptions raw) ∧
    ∀ t ∈ splitDefaultsOptions raw, t ≠ [] ∧ Trimmed t ∧ t <:+: raw := by
  have h : Splits raw _ := splits_init.foldl
  unfold splitDefaultsOptions
  generalize raw.foldl SplitState.next _ = st at h
  have hlast : ∀ t, t = trim st.buffer → (scan start t).isSome = true := by
    rintro t rfl
    obtain ⟨e, he⟩ := scan_trim h.buffer
    rw [he]
    rfl
  have hold : ∀ t ∈ st.options, t ≠ [] ∧ Trimmed t ∧ t <:+: raw := fun t ht => (h.options t ht).2
  change Pieces (if trim st.buffer = [] then st.options else st.options ++ [trim st.buffer]) ∧
    ∀ t ∈ (if trim st.buffer = [] then st.options else st.options ++ [trim st.buffer]), _
  split
  · exact ⟨pieces_of_closed fun t ht => (h.options t ht).1, hold⟩
  · next hne =>
    refine ⟨pieces_concat (fun t ht => (h.options t ht).1) (hlast _ rfl), fun t ht => ?_⟩
    rcases List.mem_append.mp ht with ht | ht
    · exact hold t ht
    · rw [List.mem_singleton.mp ht]
      exact ⟨hne, trimmed_trim _, (infix_trim _).trans h.suffix.isInfix⟩

/-! ## Joining and splitting again -/

/-- Whether the character after a text is escaped. -/
def escapedAfter : Bool → Str → Bool
  | e, [] => e
  | e, c :: t => escapedAfter (!e && c == '\\') t

theorem scan_escaped : ∀ {t : Str} {m m' : Mode}, scan m t = some m' → m'.2 = escapedAfter m.2 t
  | [], _, _, h => by
    rw [← Option.some.inj h]
    rfl
  | c :: t, m, m', h => by
    obtain ⟨m₁, hc, ht⟩ := Option.bind_eq_some_iff.mp h
    have hm₁ : m₁.2 = (!m.2 && c == '\\') := by
      obtain ⟨q, e⟩ := m
      unfold scanChar at hc
      cases e with
      | true =>
        obtain rfl := Option.some.inj hc
        rfl
      | false =>
        simp only [Bool.false_eq_true, if_false] at hc
        split at hc
        · next hslash =>
          obtain rfl := Option.some.inj hc
          rw [hslash]
          rfl
        · next hslash =>
          have hfalse : (!false && c == '\\') = false := by simpa using hslash
          rw [hfalse]
          cases q with
          | some q =>
            obtain rfl := Option.some.inj hc
            rfl
          | none =>
            dsimp only at hc
            split at hc
            · obtain rfl := Option.some.inj hc
              rfl
            · split at hc
              · cases hc
              · obtain rfl := Option.some.inj hc
                rfl
    rw [scan_escaped ht, hm₁]
    rfl

/-- The texts as the splitter sees them after they are joined: one that leaves an escape open takes the next one with
it. `b` is what was taken so far. -/
def glue (b : Str) : List Str → List Str
  | [] => []
  | [t] => [b ++ t]
  | t :: t' :: ts => if escapedAfter false t then glue (b ++ t ++ [',']) (t' :: ts) else (b ++ t) :: glue [] (t' :: ts)

theorem trimmed_append {b t : Str} (hb : ∀ x, b.head? = some x → isspace x = false) (ht : Trimmed t) (hne : t ≠ []) :
    Trimmed (b ++ t) := by
  refine ⟨fun x hx => ?_, fun x hx => ht.2 x ?_⟩
  · cases b with
    | nil => exact ht.1 x hx
    | cons y b => exact hb x hx
  · rwa [List.getLast?_append_of_ne_nil _ hne] at hx

theorem foldl_join : ∀ {ts : List Str} {opts : List Str} {b : Str}, ts ≠ [] → Pieces ts →
    (∀ t ∈ ts, t ≠ [] ∧ Trimmed t) → (∀ x, b.head? = some x → isspace x = false) →
      (([','].intercalate ts).foldl SplitState.next ⟨opts, b, none, false⟩).push.options = opts ++ glue b ts
  | [], _, _, hne, _, _, _ => absurd rfl hne
  | [t], opts, b, _, hp, ht, hb => by
    obtain ⟨⟨q, e⟩, hscan⟩ : ∃ m, scan start t = some m := by
      cases hp with
      | last h => exact Option.isSome_iff_exists.mp h
    obtain ⟨hne, htrim⟩ := ht t List.mem_cons_self
    have htrim' := trimmed_append hb htrim hne
    have hjoin : [','].intercalate [t] = t := by simp [List.intercalate]
    have hfold := @foldl_next_scan t ⟨opts, b, none, false⟩ q e hscan
    rw [hjoin, hfold]
    simp [SplitState.push, trim_of_trimmed htrim', hne, glue]
  | t :: t' :: ts, opts, b, _, hp, ht, hb => by
    obtain ⟨⟨e, hscan⟩, hrest⟩ : Closed t ∧ Pieces (t' :: ts) := by
      cases hp with
      | cons h hs => exact ⟨h, hs⟩
    obtain ⟨hne, htrim⟩ := ht t List.mem_cons_self
    have htrim' := trimmed_append hb htrim hne
    have hjoin : [','].intercalate (t :: t' :: ts) = t ++ ',' :: [','].intercalate (t' :: ts) := by
      simp [List.intercalate]
    have hfold := @foldl_next_scan t ⟨opts, b, none, false⟩ none e hscan
    have hesc : e = escapedAfter false t := scan_escaped hscan
    rw [hjoin, List.foldl_append, hfold, List.foldl_cons, next_eq]
    unfold glue
    cases e with
    | true =>
      have hhead : ∀ x, (b ++ t ++ [',']).head? = some x → isspace x = false := by
        intro x hx
        rw [List.append_assoc] at hx
        cases b with
        | nil =>
          cases t with
          | nil => exact absurd rfl hne
          | cons y t => exact htrim.1 x hx
        | cons y b => exact hb x hx
      rw [if_pos hesc.symm]
      exact foldl_join (List.cons_ne_nil _ _) hrest (fun u hu => ht u (List.mem_cons_of_mem t hu)) hhead
    | false =>
      have ih := @foldl_join (t' :: ts) (opts ++ [b ++ t]) [] (List.cons_ne_nil _ _) hrest
        (fun u hu => ht u (List.mem_cons_of_mem t hu)) (by simp)
      rw [if_neg (by rw [← hesc]; exact Bool.false_ne_true)]
      have hpush : (match scanChar (none, false) ',' with
          | some (q, e) => (⟨opts, b ++ t ++ [','], q, e⟩ : SplitState)
          | none => SplitState.push ⟨opts, b ++ t, none, false⟩) = ⟨opts ++ [b ++ t], [], none, false⟩ := by
        have hcomma : scanChar (none, false) ',' = none := by decide
        rw [hcomma]
        simp [SplitState.push, trim_of_trimmed htrim', hne]
      rw [List.append_assoc] at ih
      exact (congrArg (fun st : SplitState => (([','].intercalate (t' :: ts)).foldl SplitState.next st).push.options)
        hpush).trans ih

/-- **Joined texts, split again.** -/
theorem splitDefaultsOptions_join {ts : List Str} (hne : ts ≠ []) (hp : Pieces ts) (ht : ∀ t ∈ ts, t ≠ [] ∧ Trimmed t) :
    splitDefaultsOptions ([','].intercalate ts) = glue [] ts := by
  have h := @foldl_join ts [] [] hne hp ht (by simp)
  rwa [List.nil_append] at h

/-! ## The texts that are kept -/

/-- A character that means nothing to the splitter. -/
def Plain (c : Char) : Prop := isspace c = false ∧ c ≠ '\\' ∧ c ≠ '"' ∧ c ≠ '\'' ∧ c ≠ ',' ∧ c ≠ '=' ∧ c ≠ '#'

theorem plain_of_isWord {c : Char} (h : isWord c = true) : Plain c := by
  refine ⟨isspace_of_isWord h, ?_, ?_, ?_, ?_, ?_, ?_⟩ <;> rintro rfl <;> exact absurd h (by decide)

theorem plain_bang : Plain '!' := ⟨by decide, by decide, by decide, by decide, by decide, by decide, by decide⟩

/-- The characters of a flag. -/
theorem plain_of_isFlagToken {t : Str} (h : isFlagToken t = true) : ∀ c ∈ t, Plain c := by
  obtain ⟨-, hall⟩ := isFlagToken_iff.mp h
  rw [List.all_eq_true] at hall
  intro c hc
  cases t with
  | nil => cases hc
  | cons x r =>
    by_cases hx : x = '!'
    · subst hx
      rcases List.mem_cons.mp hc with rfl | hc
      · exact plain_bang
      · exact plain_of_isWord (hall c hc)
    · rw [stripBang_of_ne hx] at hall
      exact plain_of_isWord (hall c hc)

theorem ne_nil_of_isFlagToken {t : Str} (h : isFlagToken t = true) : t ≠ [] := by
  rintro rfl
  exact (isFlagToken_iff.mp h).1 rfl

theorem scan_plain : ∀ {t : Str}, (∀ c ∈ t, Plain c) → scan start t = some start
  | [], _ => rfl
  | c :: t, h => by
    obtain ⟨-, hslash, hdouble, hsingle, hcomma, -, -⟩ := h c List.mem_cons_self
    have hc : scanChar start c = some start := by simp [scanChar, hslash, hdouble, hsingle, hcomma]
    rw [scan, hc]
    exact scan_plain fun d hd => h d (List.mem_cons_of_mem c hd)

theorem trimmed_of_plain {t : Str} (h : ∀ c ∈ t, Plain c) : Trimmed t :=
  ⟨fun x hx => (h x (List.mem_of_mem_head? hx)).1, fun x hx => (h x (List.mem_of_getLast? hx)).1⟩

theorem closed_of_isFlagToken {t : Str} (h : isFlagToken t = true) : Closed t :=
  ⟨false, scan_plain (plain_of_isFlagToken h)⟩

/-- An option with a value has an equals sign. -/
theorem mem_of_isOperator {t : Str} (h : isOperator t = true) : '=' ∈ t := by
  obtain ⟨p, hp⟩ := Option.isSome_iff_exists.mp h
  unfold operatorSplit at hp
  dsimp only at hp
  split at hp
  · cases hp
  · obtain ⟨q, hq, -⟩ := Option.map_eq_some_iff.mp hp
    obtain ⟨happ, hmem⟩ := operatorAt_take hq
    have hin : '=' ∈ ((stripBang t).dropWhile isWord).dropWhile isspace := by
      rw [happ]
      exact List.mem_append_left _ hmem
    have hstrip := ((List.dropWhile_suffix _).trans (List.dropWhile_suffix _)).subset hin
    cases t with
    | nil => exact hstrip
    | cons x r =>
      by_cases hx : x = '!'
      · subst hx
        exact List.mem_cons_of_mem _ hstrip
      · rwa [stripBang_of_ne hx] at hstrip

theorem isOperator_of_isFlagToken {t : Str} (h : isFlagToken t = true) : isOperator t = false := by
  rw [Bool.eq_false_iff]
  exact fun hop => (plain_of_isFlagToken h _ (mem_of_isOperator hop)).2.2.2.2.2.1 rfl

/-- A flag alone. -/
theorem defaultsOptions_flag {t : Str} (h : isFlagToken t = true) : ∃ o, flagOption t = some o ∧
    defaultsOptions t = [o] := by
  have hwords : words nonBlank t = [t] := by
    have happ := @words_append nonBlank t [] (ne_nil_of_isFlagToken h)
      (fun x hx => by rw [nonBlank_test, (plain_of_isFlagToken h x hx).1]; rfl) (by simp)
    rw [List.append_nil] at happ
    exact happ
  have hflag := flagOption_eq t
  rw [if_pos h] at hflag
  refine ⟨_, hflag, ?_⟩
  rw [defaultsOptions_words (isOperator_of_isFlagToken h), hwords, List.filterMap_cons, hflag]
  rfl

theorem operatorAt_append {v : Str} (h : (operatorAt v).isSome = true) (u : Str) :
    (operatorAt (v ++ u)).isSome = true := by
  unfold operatorAt at h ⊢
  cases v with
  | nil => simp at h
  | cons x v =>
    rw [List.cons_append, List.head?_cons, List.tail_cons] at *
    split
    · rfl
    · next hx =>
      rw [if_neg hx] at h
      cases v with
      | nil => simp at h
      | cons y v =>
        split at h
        · next hy =>
          have hy' : (some x = some '+' ∨ some x = some '-') ∧ (y :: v ++ u).head? = some '=' := hy
          rw [if_pos hy']
          rfl
        · cases h

theorem dropWhile_append_of_ne_nil {p : Char → Bool} {s : Str} (h : s.dropWhile p ≠ []) (u : Str) :
    (s ++ u).dropWhile p = s.dropWhile p ++ u := by
  rw [List.dropWhile_append, if_neg (by simpa using h)]

/-- What comes after an operator does not matter. -/
theorem isOperator_append {t : Str} (h : isOperator t = true) (u : Str) : isOperator (t ++ u) = true := by
  unfold isOperator operatorSplit at h ⊢
  dsimp only at h ⊢
  have hstrip : t ≠ [] → stripBang (t ++ u) = stripBang t ++ u := by
    intro hne
    cases t with
    | nil => exact absurd rfl hne
    | cons x r =>
      by_cases hx : x = '!'
      · subst hx
        rfl
      · rw [List.cons_append, stripBang_of_ne hx, stripBang_of_ne hx, List.cons_append]
  have hne : t ≠ [] := by
    rintro rfl
    simp [stripBang] at h
  split at h
  · cases h
  · next hword =>
    rw [Option.isSome_map] at h
    have hrest : ((stripBang t).dropWhile isWord).dropWhile isspace ≠ [] := by
      intro hnil
      rw [hnil] at h
      cases h
    have hrest' : (stripBang t).dropWhile isWord ≠ [] := by
      intro hnil
      rw [hnil] at hrest
      exact hrest rfl
    have hword' : (stripBang t ++ u).takeWhile isWord ≠ [] := by
      cases hs : stripBang t with
      | nil =>
        rw [hs] at hword
        exact absurd rfl hword
      | cons y s =>
        have hy : isWord y = true := by
          by_contra hy
          rw [hs, List.takeWhile_cons_of_neg hy] at hword
          exact hword rfl
        rw [List.cons_append, List.takeWhile_cons_of_pos hy]
        exact List.cons_ne_nil _ _
    rw [hstrip hne, if_neg hword', Option.isSome_map, dropWhile_append_of_ne_nil hrest',
      dropWhile_append_of_ne_nil hrest]
    exact operatorAt_append h u

/-- Every option is the only one of its text. -/
theorem defaultsOptions_text {t : Str} {o : DefaultsOption} (h : o ∈ defaultsOptions t) :
    defaultsOptions o.text = [o] ∧ (isOperator t = true ∧ o.text = t ∧ o.operator.isSome = true ∨
      isOperator t = false ∧ isFlagToken o.text = true ∧ o.text ∈ words nonBlank t) := by
  cases hop : isOperator t with
  | true =>
    obtain ⟨name, operator, value, hopts⟩ := defaultsOptions_operator hop
    rw [hopts] at h
    obtain rfl := List.mem_singleton.mp h
    exact ⟨hopts, .inl ⟨rfl, rfl, rfl⟩⟩
  | false =>
    rw [defaultsOptions_words hop] at h
    obtain ⟨w, hw, hflag⟩ := List.mem_filterMap.mp h
    have hflag' := hflag
    rw [flagOption_eq] at hflag'
    split at hflag'
    · next htoken =>
      obtain rfl := Option.some.inj hflag'
      obtain ⟨o', ho', hopts⟩ := defaultsOptions_flag htoken
      rw [hflag] at ho'
      obtain rfl := Option.some.inj ho'
      exact ⟨hopts, .inr ⟨rfl, htoken, hw⟩⟩
    · cases hflag'

section Kept

variable {keep : DefaultsOption → Bool}

/-- The texts of the options that are kept. -/
def keptTexts (keep : DefaultsOption → Bool) (ts : List Str) : List Str :=
  ((ts.flatMap defaultsOptions).filter keep).map DefaultsOption.text

theorem keptTexts_cons (t : Str) (ts : List Str) :
    keptTexts keep (t :: ts) = ((defaultsOptions t).filter keep).map DefaultsOption.text ++ keptTexts keep ts := by
  rw [keptTexts, List.flatMap_cons, List.filter_append, List.map_append]
  rfl

/-- The options of the kept texts are the kept options. -/
theorem flatMap_keptTexts (ts : List Str) :
    (keptTexts keep ts).flatMap defaultsOptions = (ts.flatMap defaultsOptions).filter keep := by
  have hopts : ∀ {os : List DefaultsOption}, (∀ o ∈ os, ∃ t, o ∈ defaultsOptions t) →
      (os.map DefaultsOption.text).flatMap defaultsOptions = os := by
    intro os
    induction os with
    | nil => exact fun _ => rfl
    | cons o os ih =>
      intro h
      obtain ⟨t, ht⟩ := h o List.mem_cons_self
      rw [List.map_cons, List.flatMap_cons, (defaultsOptions_text ht).1, ih fun p hp => h p (List.mem_cons_of_mem o hp)]
      rfl
  refine hopts fun o ho => ?_
  obtain ⟨t, -, ht⟩ := List.mem_flatMap.mp (List.mem_filter.mp ho).1
  exact ⟨t, ht⟩

/-- A kept text is a flag, or the text of an option with a value. -/
theorem mem_keptTexts {ts : List Str} {u : Str} (h : u ∈ keptTexts keep ts) :
    isFlagToken u = true ∨ isOperator u = true ∧ u ∈ ts := by
  obtain ⟨o, ho, rfl⟩ := List.mem_map.mp h
  obtain ⟨t, ht, hot⟩ := List.mem_flatMap.mp (List.mem_filter.mp ho).1
  rcases (defaultsOptions_text hot).2 with ⟨hop, htext, -⟩ | ⟨-, hflag, -⟩
  · rw [htext]
    exact .inr ⟨hop, ht⟩
  · exact .inl hflag

theorem pieces_append : ∀ {us ts : List Str}, (∀ u ∈ us, Closed u) → Pieces ts → Pieces (us ++ ts)
  | [], _, _, h => h
  | [u], [], hu, _ => .last (hu u List.mem_cons_self).isSome
  | [u], _ :: _, hu, h => .cons (hu u List.mem_cons_self) h
  | u :: _ :: _, _, hu, h => .cons (hu u List.mem_cons_self)
      (pieces_append (fun v hv => hu v (List.mem_cons_of_mem u hv)) h)

theorem Pieces.tail {t : Str} {ts : List Str} (h : Pieces (t :: ts)) : Pieces ts := by
  cases h with
  | last h => exact .nil
  | cons h hs => exact hs

theorem Pieces.head {t : Str} {ts : List Str} (h : Pieces (t :: ts)) : (scan start t).isSome = true ∧
    (ts ≠ [] → Closed t) := by
  cases h with
  | last h => exact ⟨h, fun hne => absurd rfl hne⟩
  | cons h hs => exact ⟨h.isSome, fun _ => h⟩

/-- **The kept texts are pieces again.** -/
theorem pieces_keptTexts (hkeep : ∀ o : DefaultsOption, o.operator.isSome = true → keep o = true) :
    ∀ {ts : List Str}, Pieces ts → Pieces (keptTexts keep ts)
  | [], _ => .nil
  | t :: ts, h => by
    have ih := pieces_keptTexts hkeep h.tail
    rw [keptTexts_cons]
    cases hop : isOperator t with
    | true =>
      obtain ⟨name, operator, value, hopts⟩ := defaultsOptions_operator hop
      have htexts : ((defaultsOptions t).filter keep).map DefaultsOption.text = [t] := by
        rw [hopts, List.filter_cons_of_pos (hkeep _ rfl)]
        rfl
      rw [htexts]
      cases hrest : keptTexts keep ts with
      | nil => exact .last h.head.1
      | cons u us =>
        rw [hrest] at ih
        refine .cons (h.head.2 ?_) ih
        rintro rfl
        cases hrest
    | false =>
      refine pieces_append (fun u hu => ?_) ih
      obtain ⟨o, ho, rfl⟩ := List.mem_map.mp hu
      rcases (defaultsOptions_text (List.mem_filter.mp ho).1).2 with ⟨hop', -, -⟩ | ⟨-, hflag, -⟩
      · rw [hop] at hop'
        cases hop'
      · exact closed_of_isFlagToken hflag

end Kept

/-! ## The rewritten line -/

/-- The first word of the active text of a line. -/
def firstWord (line : Str) : Str := (entrySplit (active line)).1

/-- What follows it. -/
def rawOptions (line : Str) : Str := (entrySplit (active line)).2

/-- The flag that is removed. -/
def removes (flagName : Str) (wantNegated : Bool) (option : DefaultsOption) : Bool :=
  option.isFlag flagName && option.negated == wantNegated

/-- The texts that stay. -/
def keptTokens (line flagName : Str) (wantNegated : Bool) : List Str :=
  keptTexts (fun option => !removes flagName wantNegated option) (splitDefaultsOptions (rawOptions line))

/-- A line from its first word and the texts after it. -/
def joined (first : Str) (tokens : List Str) : Str := first ++ ' ' :: [','].intercalate tokens

theorem active_eq (line : Str) : trim (stripComment line) = active line := by rw [stripComment_eq, active]

theorem trim_active (line : Str) : trim (active line) = active line := trim_trim _

/-- What the active text of a line is parsed to. -/
def entryOf (line : Str) (scope : Scope) : DefaultsEntry :=
  { linePrefix := firstWord line
    scope := scope
    options := (splitDefaultsOptions (rawOptions line)).flatMap defaultsOptions }

theorem entryOf_options (line : Str) (scope : Scope) :
    (entryOf line scope).options = (splitDefaultsOptions (rawOptions line)).flatMap defaultsOptions := by rw [entryOf]

theorem entryOf_linePrefix (line : Str) (scope : Scope) :
    (entryOf line scope).linePrefix = firstWord line := by rw [entryOf]

theorem parseDefaultsEntry_active (line : Str) : parseDefaultsEntry (active line) =
    if rawOptions line = [] then none else (scopeOf (firstWord line)).map (entryOf line) := by
  rw [parseDefaultsEntry_eq, trim_active]
  rfl

/-- The texts that the function keeps. -/
theorem map_text_entryOf (line flagName : Str) (wantNegated : Bool) (scope : Scope) :
    ((entryOf line scope).options.filter fun option => !(option.isFlag flagName && option.negated == wantNegated)).map
      DefaultsOption.text = keptTokens line flagName wantNegated := by
  rw [entryOf_options, keptTokens, keptTexts]
  rfl

theorem append_blank_append (p q : Str) : p ++ " " ++ q = p ++ ' ' :: q := by
  rw [List.append_assoc]
  rfl

/-- **The rewritten line**: the texts that stay, joined by commas. -/
theorem rewrite_eq {line flagName : Str} {wantNegated : Bool} {new : Option Str}
    (h : rewriteDefaultsWithoutFlag line flagName wantNegated = (new, true)) :
    ∃ scope, scopeOf (firstWord line) = some scope ∧
      parseDefaultsEntry (active line) = some (entryOf line scope) ∧
      new = if keptTokens line flagName wantNegated = [] then none
        else some (joined (firstWord line) (keptTokens line flagName wantNegated)) := by
  unfold rewriteDefaultsWithoutFlag at h
  dsimp only at h
  rw [active_eq] at h
  split at h
  · cases h
  · have hparse := parseDefaultsEntry_active line
    split at hparse
    · rw [hparse] at h
      cases h
    · cases hscope : scopeOf (firstWord line) with
      | none =>
        rw [hscope, Option.map_none] at hparse
        rw [hparse] at h
        cases h
      | some scope =>
        rw [hscope, Option.map_some] at hparse
        rw [hparse] at h
        refine ⟨scope, rfl, hparse, ?_⟩
        dsimp only at h
        rw [map_text_entryOf, entryOf_linePrefix] at h
        split at h
        · cases h
        · split at h
          · next hnil =>
            rw [if_pos hnil]
            exact (Prod.mk.inj h).1.symm
          · next hnil =>
            rw [if_neg hnil, ← (Prod.mk.inj h).1, append_blank_append, joined]

/-- The first character of an option with a value. -/
theorem head_of_isOperator {t : Str} (h : isOperator t = true) : ∃ x r, t = x :: r ∧ Plain x := by
  unfold isOperator operatorSplit at h
  dsimp only at h
  split at h
  · cases h
  · next hword =>
    cases t with
    | nil => exact absurd rfl hword
    | cons x r =>
      refine ⟨x, r, rfl, ?_⟩
      by_cases hx : x = '!'
      · rw [hx]
        exact plain_bang
      · rw [stripBang_of_ne hx] at hword
        refine plain_of_isWord ?_
        by_contra hx'
        rw [List.takeWhile_cons_of_neg hx'] at hword
        exact hword rfl

theorem head_of_isFlagToken {t : Str} (h : isFlagToken t = true) : ∃ x r, t = x :: r ∧ Plain x := by
  cases t with
  | nil => exact absurd rfl (ne_nil_of_isFlagToken h)
  | cons x r => exact ⟨x, r, rfl, plain_of_isFlagToken h x List.mem_cons_self⟩

theorem intercalate_cons_cons (t t' : Str) (ts : List Str) :
    [','].intercalate (t :: t' :: ts) = t ++ ',' :: [','].intercalate (t' :: ts) := by simp [List.intercalate]

theorem intercalate_singleton (t : Str) : [','].intercalate [t] = t := by simp [List.intercalate]

theorem noComment_intercalate : ∀ {ts : List Str}, (∀ t ∈ ts, NoComment t) → NoComment ([','].intercalate ts)
  | [], _ => .nil
  | [t], h => by
    rw [intercalate_singleton]
    exact h t List.mem_cons_self
  | t :: t' :: ts, h => by
    have ih := noComment_intercalate fun u hu => h u (List.mem_cons_of_mem t hu)
    rw [intercalate_cons_cons]
    refine (h t List.mem_cons_self).append (ih.cons fun y _ hcomma => absurd hcomma (by decide)) fun x _ y hy _ => ?_
    obtain rfl : ',' = y := Option.some.inj hy
    decide

theorem trimmed_intercalate : ∀ {ts : List Str}, (∀ t ∈ ts, t ≠ [] ∧ Trimmed t) → Trimmed ([','].intercalate ts)
  | [], _ => ⟨by simp, by simp⟩
  | [t], h => by
    rw [intercalate_singleton]
    exact (h t List.mem_cons_self).2
  | t :: t' :: ts, h => by
    have ih := trimmed_intercalate fun u hu => h u (List.mem_cons_of_mem t hu)
    obtain ⟨hne, htrim⟩ := h t List.mem_cons_self
    rw [intercalate_cons_cons]
    refine ⟨fun x hx => ?_, fun x hx => ?_⟩
    · cases t with
      | nil => exact absurd rfl hne
      | cons y t => exact htrim.1 x hx
    · rw [List.getLast?_append_of_ne_nil _ (List.cons_ne_nil _ _), List.getLast?_cons] at hx
      cases hlast : ([','].intercalate (t' :: ts)).getLast? with
      | none =>
        rw [hlast] at hx
        rw [← Option.some.inj hx]
        decide
      | some y =>
        rw [hlast] at hx
        exact ih.2 x (by rw [hlast, ← Option.some.inj hx]; rfl)

/-- The items of `defaults[@:!>]`. -/
def scopedItems : List Pattern.Item :=
  ("defaults".toList.map fun c => .single (.lit c) .one) ++
    [.single (.set false [.lit '@', .lit ':', .lit '!', .lit '>']) .one]

theorem compile_scoped : compile "defaults[@:!>]" = scopedItems := rfl

/-- The first word of a `Defaults` line begins with a letter. -/
theorem head_of_scopeOf {p : Str} {scope : Scope} (h : scopeOf p = some scope) :
    ∃ x r, p = x :: r ∧ isspace x = false ∧ x ≠ '#' ∧ x ≠ '@' := by
  have hmatch : isMatch (lower p) "^defaults[@:!>]" = (matchRest scopedItems (lower p) []).isSome :=
    isMatch_anchored rfl compile_scoped rfl
  unfold scopeOf at h
  rw [hmatch] at h
  cases p with
  | nil => cases scope <;> exact absurd h (by decide)
  | cons x r =>
    have hx : lowerChar x = 'd' := by
      split at h
      · next heq => exact (List.cons.inj heq).1
      · split at h
        · next hsome =>
          by_contra hne
          have hnone : matchRest scopedItems (lower (x :: r)) [] = none := if_neg fun htest => hne (lit_test.mp htest)
          rw [hnone] at hsome
          cases hsome
        · cases h
    refine ⟨x, r, rfl, ?_, ?_, ?_⟩
    · rw [Bool.eq_false_iff]
      intro hspace
      have hmem := isspace_cases hspace
      simp only [List.mem_cons, List.not_mem_nil, or_false] at hmem
      rcases hmem with rfl | rfl | rfl | rfl | rfl | rfl <;> exact absurd hx (by decide)
    · rintro rfl
      exact absurd hx (by decide)
    · rintro rfl
      exact absurd hx (by decide)

section Joined

variable {first : Str} {tokens : List Str} {scope : Scope}

/-- A line that is put together has the parts it was put together from. -/
theorem entrySplit_joined (hfirst : ∀ x ∈ first, isspace x = false) (htrim : Trimmed ([','].intercalate tokens)) :
    entrySplit (joined first tokens) = (first, [','].intercalate tokens) := by
  have hpos : ∀ x ∈ first, (!isspace x) = true := fun x hx => by rw [hfirst x hx]; rfl
  have hrest : ([','].intercalate tokens).dropWhile isspace = [','].intercalate tokens := by
    generalize [','].intercalate tokens = u at htrim
    cases u with
    | nil => rfl
    | cons y u => rw [List.dropWhile_cons_of_neg (by rw [htrim.1 y rfl]; exact Bool.false_ne_true)]
  have htake : (joined first tokens).takeWhile (fun x => !isspace x) = first := by
    rw [joined, List.takeWhile_append_of_pos hpos, List.takeWhile_cons_of_neg (by decide), List.append_nil]
  have hdrop : (joined first tokens).dropWhile (fun x => !isspace x) = ' ' :: [','].intercalate tokens := by
    rw [joined, List.dropWhile_append_of_pos hpos, List.dropWhile_cons_of_neg (by decide)]
  rw [entrySplit, htake, hdrop, List.dropWhile_cons_of_pos (by decide), hrest]

theorem trimmed_joined (hscope : scopeOf first = some scope) (hne : [','].intercalate tokens ≠ [])
    (htrim : Trimmed ([','].intercalate tokens)) : Trimmed (joined first tokens) := by
  obtain ⟨x, r, rfl, hx, -, -⟩ := head_of_scopeOf hscope
  refine ⟨fun y hy => ?_, fun y hy => htrim.2 y ?_⟩
  · rw [← Option.some.inj hy]
    exact hx
  · rw [joined, List.getLast?_append_of_ne_nil _ (List.cons_ne_nil _ _), List.getLast?_cons] at hy
    rw [← hy]
    cases hlast : ([','].intercalate tokens).getLast? with
    | none => exact absurd (List.getLast?_eq_none_iff.mp hlast) hne
    | some z => rfl

/-- A line that is put together has no comment. -/
theorem noComment_joined (hfirst : ∀ x ∈ first, isspace x = false) (htokens : ∀ t ∈ tokens, NoComment t)
    (hhead : ([','].intercalate tokens).head? ≠ some '#') : NoComment (joined first tokens) := by
  have hword : ∀ {s : Str}, (∀ x ∈ s, isspace x = false) → NoComment s := by
    intro s
    induction s with
    | nil => exact fun _ => .nil
    | cons x s ih =>
      intro h
      refine (ih fun y hy => h y (List.mem_cons_of_mem x hy)).cons fun y _ hx => ?_
      rw [h x List.mem_cons_self] at hx
      cases hx
  refine (hword hfirst).append ((noComment_intercalate htokens).cons fun y hy _ heq => ?_) fun x hx y _ hblank => ?_
  · rw [heq] at hy
    exact hhead hy
  · rw [hfirst x (List.mem_of_getLast? hx)] at hblank
    cases hblank

/-- **What a line that is put together is parsed to.** -/
theorem parseDefaultsEntry_joined (hfirst : ∀ x ∈ first, isspace x = false) (hscope : scopeOf first = some scope)
    (hne : tokens ≠ []) (hpieces : Pieces tokens) (htokens : ∀ t ∈ tokens, t ≠ [] ∧ Trimmed t) :
    parseDefaultsEntry (joined first tokens) =
      some { linePrefix := first, scope := scope, options := (glue [] tokens).flatMap defaultsOptions } := by
  have htrim := trimmed_intercalate htokens
  have hjoin : [','].intercalate tokens ≠ [] := by
    cases tokens with
    | nil => exact absurd rfl hne
    | cons t ts =>
      have ht := (htokens t List.mem_cons_self).1
      cases ts with
      | nil =>
        rw [intercalate_singleton]
        exact ht
      | cons t' ts =>
        rw [intercalate_cons_cons]
        simp
  rw [parseDefaultsEntry_eq, trim_of_trimmed (trimmed_joined hscope hjoin htrim), entrySplit_joined hfirst htrim,
    if_neg hjoin, hscope, splitDefaultsOptions_join hne hpieces htokens]
  rfl

end Joined

section Tokens

variable (line flagName : Str) (wantNegated : Bool)

theorem noComment_active : NoComment (active line) := noComment_within (infix_trim _) (cutComment_noComment line)

theorem infix_rawOptions : rawOptions line <:+: active line :=
  ((List.dropWhile_suffix _).trans (List.dropWhile_suffix _)).isInfix

theorem firstWord_nonblank : ∀ x ∈ firstWord line, isspace x = false := by
  intro x hx
  simpa using List.mem_takeWhile_imp hx

theorem removes_operator {o : DefaultsOption} (h : o.operator.isSome = true) :
    (!removes flagName wantNegated o) = true := by
  have hnone : o.operator.isNone = false := by
    rw [← Option.not_isSome, h]
    rfl
  rw [removes, DefaultsOption.isFlag, hnone]
  rfl

/-- **The texts that stay are pieces again**, without blanks at their ends and without comments. -/
theorem keptTokens_pieces : Pieces (keptTokens line flagName wantNegated) := by
  unfold keptTokens
  exact pieces_keptTexts (fun o ho => removes_operator flagName wantNegated ho)
    (splitDefaultsOptions_pieces (rawOptions line)).1

theorem mem_keptTokens {t : Str} (ht : t ∈ keptTokens line flagName wantNegated) :
    (t ≠ [] ∧ Trimmed t) ∧ NoComment t ∧ ∃ x r, t = x :: r ∧ Plain x := by
  have hsplit := (splitDefaultsOptions_pieces (rawOptions line)).2
  rcases mem_keptTexts ht with hflag | ⟨hop, hmem⟩
  · have hplain := plain_of_isFlagToken hflag
    exact ⟨⟨ne_nil_of_isFlagToken hflag, trimmed_of_plain hplain⟩,
      noComment_of_not_mem fun hhash => (hplain _ hhash).2.2.2.2.2.2 rfl, head_of_isFlagToken hflag⟩
  · obtain ⟨hne, htrim, hin⟩ := hsplit t hmem
    exact ⟨⟨hne, htrim⟩, noComment_within (hin.trans (infix_rawOptions line)) (noComment_active line),
      head_of_isOperator hop⟩

/-- The line that is put together from them. -/
theorem parseDefaultsEntry_kept {scope : Scope} (hscope : scopeOf (firstWord line) = some scope)
    (hne : keptTokens line flagName wantNegated ≠ []) :
    parseDefaultsEntry (joined (firstWord line) (keptTokens line flagName wantNegated)) =
      some { linePrefix := firstWord line, scope := scope,
             options := (glue [] (keptTokens line flagName wantNegated)).flatMap defaultsOptions } := by
  have hpieces := keptTokens_pieces line flagName wantNegated
  have htokens := fun t ht => (@mem_keptTokens line flagName wantNegated t ht).1
  exact parseDefaultsEntry_joined (firstWord_nonblank line) hscope hne hpieces htokens

end Tokens

/-! ## What is lost -/

/-- The parts of an option that count. -/
def DefaultsOption.key (o : DefaultsOption) : Str × Bool × Option Str × Option Str :=
  (o.name, o.negated, o.operator, o.value)

/-- What should stay of a piece: itself if it has a value, or its words that are not the flag. -/
def pieceRemainder (flagName : Str) (wantNegated : Bool) (t : Str) : List Str :=
  if isOperator t then [t] else (words nonBlank t).filter fun w => !(flagOption w).any (removes flagName wantNegated)

/-- What should stay of a text. -/
def remainder (text flagName : Str) (wantNegated : Bool) : List Str :=
  (splitDefaultsOptions (entrySplit text).2).flatMap (pieceRemainder flagName wantNegated)

/-- The rewritten line keeps everything of a text but the flag: it is parsed to the same first word and the other
options, and has every character of what should stay; if there is no line, nothing should stay. -/
def KeepsText (text flagName : Str) (wantNegated : Bool) : Option Str → Prop
  | some new => ∃ before after, parseDefaultsEntry text = some before ∧ parseDefaultsEntry new = some after ∧
      after.linePrefix = before.linePrefix ∧ after.options.map DefaultsOption.key =
        (before.options.filter fun o => !removes flagName wantNegated o).map DefaultsOption.key ∧
      (((entrySplit text).1 ++ (remainder text flagName wantNegated).flatten).filter fun x => !isspace x).Sublist new
  | none => remainder text flagName wantNegated = []

/-- Every word without a value is a flag, and of the texts that stay only the last may leave an escape open. -/
def Rejoins (text flagName : Str) (wantNegated : Bool) : Prop :=
  (∀ t ∈ splitDefaultsOptions (entrySplit text).2, isOperator t = false →
    ∀ w ∈ words nonBlank t, isFlagToken w = true) ∧
  ∀ t ∈ (remainder text flagName wantNegated).dropLast, escapedAfter false t = false

section Lost

variable {line flagName : Str} {wantNegated : Bool}

theorem glue_of_not_escaped : ∀ {ts : List Str}, (∀ t ∈ ts.dropLast, escapedAfter false t = false) → glue [] ts = ts
  | [], _ => rfl
  | [_], _ => rfl
  | t :: t' :: ts, h => by
    have ht : escapedAfter false t = false := h t List.mem_cons_self
    rw [glue, if_neg (by rw [ht]; exact Bool.false_ne_true),
      glue_of_not_escaped fun u hu => h u (List.mem_cons_of_mem t hu)]
    rfl

theorem glue_length : ∀ {ts : List Str} (b : Str), (glue b ts).length ≤ ts.length ∧
    ((glue b ts).length = ts.length → ∀ t ∈ ts.dropLast, escapedAfter false t = false)
  | [], _ => ⟨Nat.le_refl _, fun _ t ht => absurd ht List.not_mem_nil⟩
  | [_], _ => ⟨Nat.le_refl _, fun _ t ht => absurd ht List.not_mem_nil⟩
  | t :: t' :: ts, b => by
    unfold glue
    split
    · have ih := (@glue_length (t' :: ts) (b ++ t ++ [','])).1
      rw [List.length_cons] at ih ⊢
      exact ⟨by rw [List.length_cons]; omega, fun heq => by rw [List.length_cons] at heq; omega⟩
    · next hesc =>
      obtain ⟨hle, heq⟩ := @glue_length (t' :: ts) []
      refine ⟨by rw [List.length_cons, List.length_cons]; omega, fun hlen u hu => ?_⟩
      rw [List.length_cons, List.length_cons] at hlen
      rcases List.mem_cons.mp hu with rfl | hu
      · exact Bool.eq_false_iff.mpr hesc
      · exact heq (by omega) u hu

/-- A text that took others with it has a value. -/
theorem mem_glue : ∀ {ts : List Str} {b g : Str}, (∀ t ∈ ts, isFlagToken t = true ∨ isOperator t = true) →
    b = [] ∨ isOperator b = true → g ∈ glue b ts → g ∈ ts ∨ isOperator g = true
  | [], _, _, _, _, hg => absurd hg List.not_mem_nil
  | [t], b, g, _, hb, hg => by
    rw [List.mem_singleton.mp hg]
    rcases hb with rfl | hb
    · exact .inl List.mem_cons_self
    · exact .inr (isOperator_append hb t)
  | t :: t' :: ts, b, g, ht, hb, hg => by
    have htail : ∀ u ∈ t' :: ts, isFlagToken u = true ∨
      isOperator u = true := fun u hu => ht u (List.mem_cons_of_mem t hu)
    unfold glue at hg
    split at hg
    · next hesc =>
      have hop : isOperator (b ++ t ++ [',']) = true := by
        refine isOperator_append ?_ [',']
        rcases hb with rfl | hb
        · rcases ht t List.mem_cons_self with hflag | hop
          · have hfalse := scan_escaped (scan_plain (plain_of_isFlagToken hflag))
            rw [hesc] at hfalse
            cases hfalse
          · exact hop
        · exact isOperator_append hb t
      exact (mem_glue htail (.inr hop) hg).imp (List.mem_cons_of_mem t) id
    · rcases List.mem_cons.mp hg with rfl | hg
      · rcases hb with rfl | hb
        · exact .inl List.mem_cons_self
        · exact .inr (isOperator_append hb t)
      · exact (mem_glue htail (.inl rfl) hg).imp (List.mem_cons_of_mem t) id

theorem flagOption_isSome (w : Str) : (flagOption w).isSome = isFlagToken w := by
  rw [flagOption_eq]
  cases isFlagToken w <;> rfl

theorem flagOption_text {w : Str} {o : DefaultsOption} (h : flagOption w = some o) : o.text = w := by
  rw [flagOption_eq] at h
  split at h
  · rw [← Option.some.inj h]
  · cases h

/-- Of the words that should stay, the flags do. -/
theorem keptFlags_eq (ws : List Str) :
    ((ws.filterMap flagOption).filter fun o => !removes flagName wantNegated o).map DefaultsOption.text =
      (ws.filter fun w => !(flagOption w).any (removes flagName wantNegated)).filter isFlagToken := by
  induction ws with
  | nil => rfl
  | cons w ws ih =>
    have hsome := flagOption_isSome w
    cases hflag : flagOption w with
    | none =>
      rw [hflag] at hsome
      rw [List.filterMap_cons_none hflag, ih, List.filter_cons_of_pos (by rw [hflag]; rfl),
        List.filter_cons_of_neg (by rw [← hsome]; exact Bool.false_ne_true)]
    | some o =>
      rw [hflag] at hsome
      rw [List.filterMap_cons_some hflag]
      cases hrem : removes flagName wantNegated o with
      | true =>
        rw [List.filter_cons_of_neg (by rw [hrem]; exact Bool.false_ne_true), ih,
          List.filter_cons_of_neg (by rw [hflag, Option.any_some, hrem]; exact Bool.false_ne_true)]
      | false =>
        rw [List.filter_cons_of_pos (by rw [hrem]; rfl), List.map_cons, ih, flagOption_text hflag,
          List.filter_cons_of_pos (by rw [hflag, Option.any_some, hrem]; rfl),
          List.filter_cons_of_pos (by rw [← hsome]; rfl)]

/-- What does stay of a piece. -/
theorem keptPiece_eq (t : Str) :
    ((defaultsOptions t).filter fun o => !removes flagName wantNegated o).map DefaultsOption.text =
      if isOperator t then pieceRemainder flagName wantNegated t
      else (pieceRemainder flagName wantNegated t).filter isFlagToken := by
  unfold pieceRemainder
  cases hop : isOperator t with
  | true =>
    obtain ⟨name, operator, value, hopts⟩ := defaultsOptions_operator hop
    rw [hopts, List.filter_cons_of_pos (by exact removes_operator flagName wantNegated rfl)]
    rfl
  | false =>
    rw [defaultsOptions_words hop, keptFlags_eq]
    rfl

/-- If every word is a flag, what should stay does. -/
theorem keptTexts_eq_remainder : ∀ {ts : List Str},
    (∀ t ∈ ts, isOperator t = false → ∀ w ∈ words nonBlank t, isFlagToken w = true) →
      keptTexts (fun o => !removes flagName wantNegated o) ts = ts.flatMap (pieceRemainder flagName wantNegated)
  | [], _ => rfl
  | t :: ts, h => by
    have ih := keptTexts_eq_remainder fun u hu => h u (List.mem_cons_of_mem t hu)
    rw [keptTexts_cons, ih, keptPiece_eq, List.flatMap_cons]
    cases hop : isOperator t with
    | true => rfl
    | false =>
      have hall : (pieceRemainder flagName wantNegated t).filter isFlagToken =
        pieceRemainder flagName wantNegated t := by
        refine List.filter_eq_self.mpr fun w hw => h t List.mem_cons_self hop w ?_
        rw [pieceRemainder, if_neg (by rw [hop]; exact Bool.false_ne_true)] at hw
        exact (List.mem_filter.mp hw).1
      rw [if_neg Bool.false_ne_true, hall]

theorem count_intercalate {c : Char} (hc : c ≠ ',') : ∀ ts :
    List Str, ([','].intercalate ts).count c = ts.flatten.count c
  | [] => rfl
  | [t] => by rw [intercalate_singleton, List.flatten_cons, List.flatten_nil, List.append_nil]
  | t :: t' :: ts => by
    have ih := count_intercalate hc (t' :: ts)
    have hflat : (t :: t' :: ts).flatten = t ++ (t' :: ts).flatten := rfl
    rw [intercalate_cons_cons, List.count_append, List.count_cons_of_ne hc.symm, ih, hflat, List.count_append]

theorem flatten_sublist_intercalate : ∀ ts : List Str, ts.flatten.Sublist ([','].intercalate ts)
  | [] => .slnil
  | [t] => by
    rw [intercalate_singleton, List.flatten_cons, List.flatten_nil, List.append_nil]
  | t :: t' :: ts => by
    rw [intercalate_cons_cons, List.flatten_cons]
    exact (List.Sublist.refl t).append ((flatten_sublist_intercalate (t' :: ts)).cons ',')

theorem count_filter_flatten_le (c : Char) (p : Str → Bool) : ∀ ws :
    List Str, (ws.filter p).flatten.count c ≤ ws.flatten.count c
  | [] => Nat.le_refl _
  | w :: ws => by
    have ih := count_filter_flatten_le c p ws
    rw [List.filter_cons, List.flatten_cons, List.count_append]
    split
    · rw [List.flatten_cons, List.count_append]
      omega
    · omega

theorem count_filter_flatten_lt {c : Char} {p : Str → Bool} {w : Str} (hp : p w = false) (hc : c ∈ w) :
    ∀ {ws : List Str},
    w ∈ ws → (ws.filter p).flatten.count c < ws.flatten.count c
  | v :: ws, hw => by
    have hle := count_filter_flatten_le c p ws
    have hpos := List.count_pos_iff.mpr hc
    rw [List.filter_cons, List.flatten_cons, List.count_append]
    rcases List.mem_cons.mp hw with rfl | hw
    · rw [if_neg (by rw [hp]; exact Bool.false_ne_true)]
      omega
    · have ih := count_filter_flatten_lt hp hc hw
      split
      · rw [List.flatten_cons, List.count_append]
        omega
      · omega

/-- A piece with a comma in it has a quote or an escape. -/
theorem special_of_comma : ∀ {t : Str}, (scan start t).isSome = true → ',' ∈ t → ∃ c ∈ t, c = '\\' ∨ c = '"' ∨ c = '\''
  | c :: t, h, hmem => by
    by_cases hc : c = '\\' ∨ c = '"' ∨ c = '\''
    · exact ⟨c, List.mem_cons_self, hc⟩
    · have hstep : scanChar start c = if c = ',' then none else some start := by
        have hslash : c ≠ '\\' := fun h => hc (.inl h)
        have hquote : ¬ (c = '"' ∨ c = '\'') := fun h => hc (.inr h)
        simp [scanChar, hslash, hquote]
      rw [scan, hstep] at h
      split at h
      · cases h
      · next hcomma =>
        have hmem' : ',' ∈ t := (List.mem_cons.mp hmem).resolve_left fun heq => hcomma heq.symm
        obtain ⟨d, hd, hspecial⟩ := special_of_comma h hmem'
        exact ⟨d, List.mem_cons_of_mem c hd, hspecial⟩

/-- A piece with a word that is no flag loses a character that is no comma. -/
theorem lost_character {t w : Str} (hscan : (scan start t).isSome = true) (hop : isOperator t = false)
    (hw : w ∈ words nonBlank t) (hflag : isFlagToken w = false) :
    ∃ c, isspace c = false ∧ c ≠ ',' ∧
      ((pieceRemainder flagName wantNegated t).filter isFlagToken).flatten.count c <
        (pieceRemainder flagName wantNegated t).flatten.count c := by
  have hlost : ∀ {v c}, v ∈ words nonBlank t → isFlagToken v = false → c ∈ v → c ≠ ',' → ∃ c, isspace c = false ∧
    c ≠ ',' ∧
      ((pieceRemainder flagName wantNegated t).filter isFlagToken).flatten.count c <
        (pieceRemainder flagName wantNegated t).flatten.count c := by
    intro v c hv hvflag hc hcomma
    refine ⟨c, by simpa using mem_words hv c hc, hcomma, count_filter_flatten_lt hvflag hc ?_⟩
    have hnone : flagOption v = none := by
      rw [flagOption_eq, if_neg (by rw [hvflag]; exact Bool.false_ne_true)]
    rw [pieceRemainder, if_neg (by rw [hop]; exact Bool.false_ne_true)]
    exact List.mem_filter.mpr ⟨hv, by rw [hnone]; rfl⟩
  obtain ⟨hne, hsub⟩ := words_spec hw
  by_cases hcommas : ∃ c ∈ w, c ≠ ','
  · obtain ⟨c, hc, hcomma⟩ := hcommas
    exact hlost hw hflag hc hcomma
  · -- the commas do not separate, so there is a quote or an escape, which is in no flag
    obtain ⟨c, hc⟩ := List.exists_mem_of_ne_nil w hne
    obtain rfl : c = ',' := by
      by_contra hcomma
      exact hcommas ⟨c, hc, hcomma⟩
    obtain ⟨d, hd, hspecial⟩ := special_of_comma hscan (hsub _ hc)
    have hnonblank : nonBlank.test d = true := by rcases hspecial with rfl | rfl | rfl <;> rfl
    obtain ⟨v, hv, hdv⟩ := exists_word hnonblank hd
    have hvflag : isFlagToken v = false := by
      rw [Bool.eq_false_iff]
      intro hvflag
      obtain ⟨-, hslash, hdouble, hsingle, -⟩ := plain_of_isFlagToken hvflag d hdv
      rcases hspecial with h | h | h
      · exact hslash h
      · exact hdouble h
      · exact hsingle h
    exact hlost hv hvflag hdv (by rcases hspecial with rfl | rfl | rfl <;> decide)

theorem count_kept_le (c : Char) : ∀ ts : List Str,
    (keptTexts (fun o => !removes flagName wantNegated o) ts).flatten.count c ≤
      (ts.flatMap (pieceRemainder flagName wantNegated)).flatten.count c
  | [] => Nat.le_refl _
  | t :: ts => by
    have ih := count_kept_le c ts
    have hle := count_filter_flatten_le c isFlagToken (pieceRemainder flagName wantNegated t)
    rw [keptTexts_cons, keptPiece_eq, List.flatMap_cons, List.flatten_append, List.flatten_append, List.count_append,
      List.count_append]
    split <;> omega

theorem count_kept_lt {c : Char} {t : Str} (hop : isOperator t = false)
    (hc : ((pieceRemainder flagName wantNegated t).filter isFlagToken).flatten.count c <
      (pieceRemainder flagName wantNegated t).flatten.count c) : ∀ {ts : List Str}, t ∈ ts →
    (keptTexts (fun o => !removes flagName wantNegated o) ts).flatten.count c <
      (ts.flatMap (pieceRemainder flagName wantNegated)).flatten.count c
  | u :: ts, ht => by
    have hle := @count_kept_le flagName wantNegated c ts
    have hle' := count_filter_flatten_le c isFlagToken (pieceRemainder flagName wantNegated u)
    rw [keptTexts_cons, keptPiece_eq, List.flatMap_cons, List.flatten_append, List.flatten_append, List.count_append,
      List.count_append]
    rcases List.mem_cons.mp ht with rfl | ht
    · rw [if_neg (by rw [hop]; exact Bool.false_ne_true)]
      omega
    · have ih := count_kept_lt hop hc ht
      split <;> omega

theorem scan_of_pieces : ∀ {ts : List Str}, Pieces ts → ∀ t ∈ ts, (scan start t).isSome = true
  | _ :: _, h, t, ht => by
    rcases List.mem_cons.mp ht with rfl | ht
    · exact h.head.1
    · exact scan_of_pieces h.tail t ht

/-- A line that keeps its characters has flags for words. -/
theorem flags_of_sublist (h : ((firstWord line ++ (remainder (active line) flagName wantNegated).flatten).filter fun x
    =>
      !isspace x).Sublist (joined (firstWord line) (keptTokens line flagName wantNegated))) :
    ∀ t ∈ splitDefaultsOptions (rawOptions line), isOperator t = false →
      ∀ w ∈ words nonBlank t, isFlagToken w = true := by
  intro t ht hop w hw
  by_contra hflag
  have hscan := scan_of_pieces (splitDefaultsOptions_pieces (rawOptions line)).1 t ht
  obtain ⟨c, hblank, hcomma, hlt⟩ :=
    @lost_character flagName wantNegated t w hscan hop hw (Bool.eq_false_iff.mpr hflag)
  have hlt' := count_kept_lt hop hlt ht
  have hcount := h.count_le c
  have hne : ' ' ≠ c := by
    rintro rfl
    exact absurd hblank (by decide)
  rw [List.count_filter (by rw [hblank]; rfl), List.count_append, joined, List.count_append, List.count_cons_of_ne hne,
    count_intercalate hcomma] at hcount
  exact absurd hlt' (Nat.not_lt.mpr (Nat.le_of_add_le_add_left hcount))

theorem flatMap_length_of_one {ts : List Str} (h : ∀ t ∈ ts, ∃ o, defaultsOptions t = [o]) :
    (ts.flatMap defaultsOptions).length = ts.length := by
  induction ts with
  | nil => rfl
  | cons t ts ih =>
    obtain ⟨o, ho⟩ := h t List.mem_cons_self
    rw [List.flatMap_cons, ho, List.length_append, ih fun u hu => h u (List.mem_cons_of_mem t hu),
      List.length_singleton,
      List.length_cons, Nat.add_comm]

/-- Every text that stays, and every text that took others with it, has one option. -/
theorem one_option {g : Str} (hg : g ∈ glue [] (keptTokens line flagName wantNegated)) :
    ∃ o, defaultsOptions g = [o] := by
  have hkinds : ∀ t ∈ keptTokens line flagName wantNegated, isFlagToken t = true ∨ isOperator t = true :=
    fun t ht => (mem_keptTexts ht).imp id And.left
  have hone : isFlagToken g = true ∨ isOperator g = true := by
    rcases mem_glue hkinds (.inl rfl) hg with hmem | hop
    · exact hkinds g hmem
    · exact .inr hop
  rcases hone with hflag | hop
  · obtain ⟨o, -, ho⟩ := defaultsOptions_flag hflag
    exact ⟨o, ho⟩
  · obtain ⟨name, operator, value, ho⟩ := defaultsOptions_operator hop
    exact ⟨_, ho⟩

theorem keptTokens_length : (keptTokens line flagName wantNegated).length =
    (((splitDefaultsOptions (rawOptions line)).flatMap defaultsOptions).filter fun o =>
      !removes flagName wantNegated o).length := by
  rw [keptTokens, keptTexts, List.length_map]

/-- The options after the change are as many as the texts that stay only if none took another with it. -/
theorem not_escaped_of_keys (hkeys : ((glue [] (keptTokens line flagName wantNegated)).flatMap defaultsOptions).map
      DefaultsOption.key = (((splitDefaultsOptions (rawOptions line)).flatMap defaultsOptions).filter fun o =>
        !removes flagName wantNegated o).map DefaultsOption.key) :
    ∀ t ∈ (keptTokens line flagName wantNegated).dropLast, escapedAfter false t = false := by
  have hone := flatMap_length_of_one fun g hg => @one_option line flagName wantNegated g hg
  have hlen := congrArg List.length hkeys
  rw [List.length_map, List.length_map, hone, ← keptTokens_length] at hlen
  exact (glue_length []).2 hlen

end Lost

/-- **Of the text that the code takes for the line, nothing else is removed exactly if** every word without a value is a
flag, and of the texts that stay only the last may leave an escape open. -/
theorem keepsText_iff {line flagName : Str} {wantNegated : Bool} {new : Option Str}
    (h : rewriteDefaultsWithoutFlag line flagName wantNegated = (new, true)) :
    KeepsText (active line) flagName wantNegated new ↔ Rejoins (active line) flagName wantNegated := by
  obtain ⟨scope, hscope, hparse, hnew⟩ := rewrite_eq h
  have hkept : (∀ t ∈ splitDefaultsOptions (rawOptions line), isOperator t = false → ∀ w ∈ words nonBlank t,
      isFlagToken w = true) → keptTokens line flagName wantNegated = remainder (active line) flagName wantNegated :=
    fun hflags => keptTexts_eq_remainder hflags
  by_cases hnil : keptTokens line flagName wantNegated = []
  · rw [if_pos hnil] at hnew
    subst hnew
    constructor
    · intro hrest
      change remainder (active line) flagName wantNegated = [] at hrest
      refine ⟨fun t ht hop w hw => ?_, fun t ht => ?_⟩
      · by_contra hflag
        have hmem : w ∈ remainder (active line) flagName wantNegated := by
          refine List.mem_flatMap.mpr ⟨t, ht, ?_⟩
          rw [pieceRemainder, if_neg (by rw [hop]; exact Bool.false_ne_true)]
          refine List.mem_filter.mpr ⟨hw, ?_⟩
          rw [flagOption_eq, if_neg hflag]
          rfl
        rw [hrest] at hmem
        cases hmem
      · rw [hrest] at ht
        cases ht
    · rintro ⟨hflags, -⟩
      exact (hkept hflags).symm.trans hnil
  · rw [if_neg hnil] at hnew
    subst hnew
    have hparse' := parseDefaultsEntry_kept line flagName wantNegated hscope hnil
    constructor
    · rintro ⟨before, after, hbefore, hafter, -, hkeys, hchars⟩
      have hflags := flags_of_sublist hchars
      refine ⟨hflags, ?_⟩
      obtain rfl := Option.some.inj (hparse.symm.trans hbefore)
      obtain rfl := Option.some.inj (hparse'.symm.trans hafter)
      dsimp only at hkeys
      rw [entryOf_options] at hkeys
      rw [← hkept hflags]
      exact @not_escaped_of_keys line flagName wantNegated hkeys
    · rintro ⟨hflags, hescaped⟩
      rw [← hkept hflags] at hescaped
      refine ⟨_, _, hparse, hparse', (entryOf_linePrefix line scope).symm, ?_, ?_⟩
      · rw [entryOf_options, glue_of_not_escaped hescaped, keptTokens, flatMap_keptTexts]
      · rw [← hkept hflags]
        refine List.filter_sublist.trans ((List.Sublist.refl _).append ?_)
        exact (flatten_sublist_intercalate _).cons ' '

end Sudoers
end Seharden
