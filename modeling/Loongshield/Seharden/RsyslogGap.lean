import Loongshield.Seharden.RsyslogLine

/-!
# Blanks in a line of an rsyslog configuration

What a line assigns depends on the blanks in it only where a value reaches across them.

- `assigns_gap`: blanks between two texts are of no account if no value reaches across;
- `inspectLine_iff`: the probe notes remote input on the lines that are remote input;
- `remoteLine_gap`: blanks behind the parenthesis of a statement do not change what a line is.
-/

namespace Seharden

open Lua Pattern

namespace Rsyslog

/-! ## Blanks in a text -/

/-- Two values that are the same, or that are both no word. -/
def Alike (o o' : Option Str) : Prop :=
  o = o' ∨ ∃ v v', o = some v ∧ o' = some v' ∧ (∃ x ∈ v, isalpha x = false) ∧ ∃ x ∈ v', isalpha x = false

theorem Alike.or {a a' b b' : Option Str} (ha : Alike a a') (hb : Alike b b') : Alike (a.or b) (a'.or b') := by
  rcases ha with rfl | ⟨v, v', rfl, rfl, hv⟩
  · cases a with
    | none => exact hb
    | some v => exact .inl rfl
  · exact .inr ⟨v, v', rfl, rfl, hv⟩

/-- A text has a character that is neither a letter nor a blank in front of the mark where it first stands. -/
def FencedAhead (q : Char) (s : Str) : Prop :=
  ∀ v r, s = v ++ q :: r → q ∉ v → ∃ x ∈ v, isalpha x = false ∧ isspace x = false

/-- A text has a character that is neither a letter nor a blank behind the mark where it last stands. -/
def FencedBehind (q : Char) (s : Str) : Prop :=
  ∀ r v, s = r ++ q :: v → q ∉ v → ∃ x ∈ v, isalpha x = false ∧ isspace x = false

/-- A text does not end in a word that is assigned. -/
def Unassigned (s : Str) : Prop :=
  ∀ r b v, s = r ++ '=' :: (b ++ v) → (∀ x ∈ b, isspace x = true) → v ≠ [] →
    (∀ x ∈ v, isspace x = false) → ∃ x ∈ v, isalpha x = false

section Gap

variable {a b g g' key : Str} {read : Str → Option Str}

theorem firstValue_cons (x : Char) (s : Str) :
    firstValue read key (x :: s) = ((behindKey key (x :: s)).bind read).or (firstValue read key s) := by
  unfold firstValue
  rw [List.tails, List.findSome?_cons]
  cases (behindKey key (x :: s)).bind read <;> rfl

theorem not_isspace_of_isalpha {x : Char} (h : isalpha x = true) : isspace x = false := by
  simp only [isalpha, Bool.or_eq_true, Bool.and_eq_true, decide_eq_true_eq] at h
  have hnat : 65 ≤ x.toNat := by
    rcases h with ⟨h, -⟩ | ⟨h, -⟩
    · exact Nat.le_trans (by decide) (show 97 ≤ x.toNat from h)
    · exact h
  have hne : x ≠ ' ' := by
    rintro rfl
    exact absurd hnat (by decide)
  rw [isspace, beq_false_of_ne hne, Bool.false_or, Bool.and_eq_false_iff, decide_eq_false_iff_not,
    decide_eq_false_iff_not]
  omega

theorem behindKey_blank (hkey : ∀ x ∈ key, isalpha x = true) (hne : key ≠ []) {x : Char} (hx : isspace x = true)
    (s : Str) : behindKey key (x :: s) = none := by
  refine if_neg fun h => ?_
  obtain ⟨k, key, rfl⟩ := List.exists_cons_of_ne_nil hne
  obtain ⟨rfl, -⟩ := List.cons_prefix_cons.mp h.1
  have hblank := not_isspace_of_isalpha (hkey k List.mem_cons_self)
  rw [hx] at hblank
  cases hblank

theorem firstValue_blanks (hkey : ∀ x ∈ key, isalpha x = true) (hne : key ≠ []) (hg : ∀ x ∈ g, isspace x = true)
    (s : Str) : firstValue read key (g ++ s) = firstValue read key s := by
  induction g with
  | nil => rfl
  | cons x g ih =>
    rw [List.cons_append, firstValue_cons, behindKey_blank hkey hne (hg x List.mem_cons_self),
      ih fun y hy => hg y (List.mem_cons_of_mem x hy)]
    rfl

/-- The key stands wholly in front of the blanks. -/
theorem key_front (hkey : ∀ x ∈ key, isalpha x = true) (hg : ∀ x ∈ g, isspace x = true) (ha : a ≠ [])
    (hword : g = [] → ∀ x y, a.getLast? = some x → b.head? = some y → isalpha x = true → isalpha y = false)
    (h : key <+: a ++ (g ++ b)) : key <+: a := by
  rcases List.prefix_or_prefix_of_prefix h (List.prefix_append a (g ++ b)) with h' | ⟨k, rfl⟩
  · exact h'
  cases k with
  | nil => rw [List.append_nil]
  | cons y k =>
    have hy : isalpha y = true := hkey y (by simp)
    obtain ⟨r, hr⟩ := (List.prefix_append_right_inj a).mp h
    exfalso
    cases g with
    | nil =>
      have hlast : a.getLast? = some (a.getLast ha) := List.getLast?_eq_some_getLast ha
      have hhead : b.head? = some y := by rw [← List.nil_append b, ← hr]; rfl
      have hx := hkey _ (List.mem_append_left _ (List.getLast_mem ha))
      rw [hword rfl _ y hlast hhead hx] at hy
      cases hy
    | cons x g =>
      obtain rfl : y = x := (List.cons.inj hr).1
      have hblank := not_isspace_of_isalpha hy
      rw [hg y List.mem_cons_self] at hblank
      cases hblank

/-- What is left of a text without the blanks in front, if other blanks and a text follow. -/
theorem dropWhile_gap (c : Str) : (∀ {f : Str}, (∀ x ∈ f, isspace x = true) →
      (c ++ (f ++ b)).dropWhile isspace = b.dropWhile isspace) ∨
    ∃ d x e, c = d ++ x :: e ∧ (∀ x ∈ d, isspace x = true) ∧ ∀ s : Str, (c ++ s).dropWhile isspace = x :: (e ++ s) := by
  cases h : c.dropWhile isspace with
  | nil =>
    have hc := List.dropWhile_eq_nil_iff.mp h
    refine .inl fun hf => ?_
    rw [List.dropWhile_append_of_pos hc, List.dropWhile_append_of_pos hf]
  | cons x e =>
    have hx : isspace x = false := by
      have := List.head?_dropWhile_not isspace c
      rw [h] at this
      exact this
    have hc : c = c.takeWhile isspace ++ x :: e := by rw [← h, List.takeWhile_append_dropWhile]
    refine .inr ⟨_, x, e, hc, fun y hy => List.mem_takeWhile_imp hy, fun s => ?_⟩
    rw [hc, List.append_assoc, List.dropWhile_append_of_pos fun y hy => List.mem_takeWhile_imp hy, List.cons_append,
      List.dropWhile_cons, if_neg (by rw [hx]; exact Bool.false_ne_true)]

/-- **A value is read alike when the blanks behind a piece of the text change.** -/
theorem behindKey_gap (hkey : ∀ x ∈ key, isalpha x = true) (ha : a ≠ []) (hg : ∀ x ∈ g, isspace x = true)
    (hg' : ∀ x ∈ g', isspace x = true)
    (hword : g = [] ∨ g' = [] → ∀ x y, a.getLast? = some x → b.head? = some y → isalpha x = true → isalpha y = false)
    (hread : ∀ r b' v, a = r ++ '=' :: (b' ++ v) → (∀ x ∈ b', isspace x = true) → v ≠ [] →
      Alike (read (v ++ (g ++ b))) (read (v ++ (g' ++ b)))) :
    Alike ((behindKey key (a ++ (g ++ b))).bind read) ((behindKey key (a ++ (g' ++ b))).bind read) := by
  by_cases hpre : key <+: a
  · have hpre' : ∀ s, key <+: a ++ s := fun s => hpre.trans (List.prefix_append a s)
    obtain ⟨c, rfl⟩ := hpre
    have hdrop : ∀ s : Str, (key ++ c ++ s).drop key.length = c ++ s := fun s => by
      rw [List.append_assoc, List.drop_left]
    unfold behindKey
    simp only [hpre', true_and, hdrop]
    rcases @dropWhile_gap b c with hskip | ⟨d, x, e, rfl, hd, hdropped⟩
    · rw [hskip hg, hskip hg']
      exact .inl rfl
    · rw [hdropped, hdropped]
      by_cases hx : x = '='
      · subst hx
        rw [if_pos (List.head?_cons ..), if_pos (List.head?_cons ..), List.tail_cons, List.tail_cons]
        rcases @dropWhile_gap b e with hskip | ⟨d', y, v, rfl, hd', hdropped'⟩
        · rw [hskip hg, hskip hg']
          exact .inl rfl
        · rw [hdropped', hdropped']
          exact hread (key ++ d) d' (y :: v) (List.append_assoc key d _).symm hd' (List.cons_ne_nil y v)
      · have hno : ∀ s : Str, (x :: s).head? ≠ some '=' := fun s h => hx (Option.some.inj h)
        rw [if_neg (hno _), if_neg (hno _)]
        exact .inl rfl
  · have hnone : ∀ {f : Str}, (∀ x ∈ f, isspace x = true) → (f = [] → g = [] ∨ g' = []) →
        behindKey key (a ++ (f ++ b)) = none := by
      intro f hf hnil
      exact if_neg fun h => hpre (key_front hkey hf ha (fun h => hword (hnil h)) h.1)
    rw [hnone hg .inl, hnone hg' .inr]
    exact .inl rfl

theorem firstValue_gap (hkey : ∀ x ∈ key, isalpha x = true) (hne : key ≠ []) (hg : ∀ x ∈ g, isspace x = true)
    (hg' : ∀ x ∈ g', isspace x = true) : ∀ {a : Str},
    (g = [] ∨ g' = [] → ∀ x y, a.getLast? = some x → b.head? = some y → isalpha x = true → isalpha y = false) →
    (∀ r b' v, a = r ++ '=' :: (b' ++ v) → (∀ x ∈ b', isspace x = true) → v ≠ [] →
      Alike (read (v ++ (g ++ b))) (read (v ++ (g' ++ b)))) →
    Alike (firstValue read key (a ++ (g ++ b))) (firstValue read key (a ++ (g' ++ b)))
  | [], _, _ => by
    rw [List.nil_append, List.nil_append, firstValue_blanks hkey hne hg, firstValue_blanks hkey hne hg']
    exact .inl rfl
  | x :: a, hword, hread => by
    have hhere := behindKey_gap hkey (List.cons_ne_nil x a) hg hg' hword hread
    rw [List.cons_append, List.cons_append, firstValue_cons, firstValue_cons]
    refine hhere.or (firstValue_gap hkey hne hg hg' (fun hnil y z hy => ?_) fun r b' v ha => ?_)
    · refine hword hnil y z ?_
      rw [List.getLast?_cons, hy]
      rfl
    · exact hread (x :: r) b' v (by rw [ha]; rfl)

theorem ne_of_not_mem {v : Str} {q : Char} (h : q ∉ v) : ∀ x ∈ v, (x != q) = true := by
  intro x hx
  have hne : x ≠ q := by
    rintro rfl
    exact h hx
  simpa using hne

theorem takeWhile_ne {v w : Str} {q : Char} (h : q ∉ v) : (v ++ q :: w).takeWhile (· != q) = v := by
  rw [List.takeWhile_append_of_pos (ne_of_not_mem h), List.takeWhile_cons]
  simp

theorem not_mem_blanks {q : Char} (hq : isspace q = false) (hg : ∀ x ∈ g, isspace x = true) : q ∉ g := by
  intro hmem
  rw [hg q hmem] at hq
  cases hq

theorem quotedValue_gap {q : Char} (hq : isspace q = false) (hg : ∀ x ∈ g, isspace x = true)
    (hg' : ∀ x ∈ g', isspace x = true) (hfence : FencedBehind q a ∨ FencedAhead q b) {r v : Str}
    (ha : a = r ++ v) (hv : v ≠ []) : Alike (quotedValue q (v ++ (g ++ b))) (quotedValue q (v ++ (g' ++ b))) := by
  obtain ⟨c, v, rfl⟩ := List.exists_cons_of_ne_nil hv
  rw [List.cons_append, List.cons_append, quotedValue, quotedValue]
  by_cases hc : c = q
  · subst hc
    by_cases hmem : c ∈ v
    · -- the value ends in front of the blanks
      obtain ⟨u, w, rfl, hu⟩ := List.eq_append_cons_of_mem hmem
      have htake : ∀ s : Str, (u ++ c :: w ++ s).takeWhile (· != c) = u := fun s => by
        rw [List.append_assoc, List.cons_append, takeWhile_ne hu]
      simp only [htake, List.mem_append, List.mem_cons, true_or, or_true, true_and]
      exact .inl rfl
    · by_cases hb : c ∈ b
      · -- the value reaches across the blanks
        obtain ⟨u, w, rfl, hu⟩ := List.eq_append_cons_of_mem hb
        obtain ⟨x, hx, hstop⟩ : ∃ x ∈ v ++ u, isalpha x = false := by
          rcases hfence with h | h
          · obtain ⟨x, hx, hstop, -⟩ := h r v ha hmem
            exact ⟨x, List.mem_append_left _ hx, hstop⟩
          · obtain ⟨x, hx, hstop, -⟩ := h u w rfl hu
            exact ⟨x, List.mem_append_right _ hx, hstop⟩
        have hvalue : ∀ {f : Str}, (∀ x ∈ f, isspace x = true) →
            ∃ t, quotedValue c (c :: (v ++ (f ++ (u ++ c :: w)))) = some t ∧ ∃ x ∈ t, isalpha x = false := by
          intro f hf
          have hno : c ∉ v ++ f ++ u := by
            simp only [List.mem_append, not_or]
            exact ⟨⟨hmem, not_mem_blanks hq hf⟩, hu⟩
          have hsplit : v ++ (f ++ (u ++ c :: w)) = v ++ f ++ u ++ c :: w := by simp
          have hx' : x ∈ v ++ f ++ u := by
            simp only [List.mem_append] at hx ⊢
            exact hx.imp_left .inl
          rw [hsplit, quotedValue, takeWhile_ne hno]
          exact ⟨_, if_pos ⟨rfl, by simp, List.ne_nil_of_mem hx'⟩, x, hx', hstop⟩
        obtain ⟨t, ht, hx⟩ := hvalue hg
        obtain ⟨t', ht', hx'⟩ := hvalue hg'
        exact .inr ⟨t, t', ht, ht', hx, hx'⟩
      · have hnone : ∀ {f : Str}, (∀ x ∈ f, isspace x = true) → c ∉ v ++ (f ++ b) := by
          intro f hf
          simp only [List.mem_append, not_or]
          exact ⟨hmem, not_mem_blanks hq hf, hb⟩
        rw [if_neg fun h => hnone hg h.2.1, if_neg fun h => hnone hg' h.2.1]
        exact .inl rfl
  · rw [if_neg fun h => hc h.1, if_neg fun h => hc h.1]
    exact .inl rfl

theorem plainValue_gap (hg : ∀ x ∈ g, isspace x = true) (hg' : ∀ x ∈ g', isspace x = true)
    (hword : b = [] ∨ Unassigned a) {r b' v : Str} (ha : a = r ++ '=' :: (b' ++ v)) (hb' : ∀ x ∈ b', isspace x = true)
    (hv : v ≠ []) : Alike (plainValue (v ++ (g ++ b))) (plainValue (v ++ (g' ++ b))) := by
  unfold plainValue
  by_cases hplain : ∀ x ∈ v, isplain x = true
  · have htake : ∀ s : Str, (v ++ s).takeWhile isplain =
        v ++ s.takeWhile isplain := fun s => List.takeWhile_append_of_pos hplain
    have hne : ∀ s : Str, v ++ s ≠ [] := fun s h => hv (List.append_eq_nil_iff.mp h).1
    simp only [htake, if_pos (hne _)]
    rcases hword with rfl | hword
    · have hnil : ∀ {f : Str}, (∀ x ∈ f, isspace x = true) →
          (f ++ []).takeWhile isplain = [] := by
        intro f hf
        cases f with
        | nil => rfl
        | cons x f =>
          rw [List.cons_append, List.takeWhile_cons, if_neg]
          simp [isplain, hf x List.mem_cons_self]
      rw [hnil hg, hnil hg']
      exact .inl rfl
    · obtain ⟨x, hx, hstop⟩ := hword r b' v ha hb' hv fun x hx => by
        have := hplain x hx
        simp only [isplain, Bool.not_eq_true', Bool.or_eq_false_iff] at this
        exact this.1.1
      exact .inr ⟨_, _, rfl, rfl, ⟨x, List.mem_append_left _ hx, hstop⟩, x, List.mem_append_left _ hx, hstop⟩
  · have htake : ∀ s : Str, (v ++ s).takeWhile isplain =
        v.takeWhile isplain := by
      intro s
      rw [List.takeWhile_append, if_neg]
      intro hlen
      have hself : v.takeWhile isplain = v := (List.takeWhile_prefix _).eq_of_length hlen
      refine hplain fun x hx => ?_
      rw [← hself] at hx
      exact List.mem_takeWhile_imp hx
    simp only [htake]
    exact .inl rfl

/-- Blanks may stand or not between two texts. -/
structure Gap (a b g : Str) : Prop where
  blank : ∀ x ∈ g, isspace x = true
  word : g = [] → ∀ x y, a.getLast? = some x → b.head? = some y → isalpha x = true → isalpha y = false

/-- The blanks between two texts are of no account: no value reaches across them. -/
structure Free (a b : Str) : Prop where
  double : FencedBehind '"' a ∨ FencedAhead '"' b
  single : FencedBehind (Char.ofNat 39) a ∨ FencedAhead (Char.ofNat 39) b
  plain : b = [] ∨ Unassigned a

theorem assigned_gap (hkey : ∀ x ∈ key, isalpha x = true) (hne : key ≠ []) (hfree : Free a b) (hg : Gap a b g)
    (hg' : Gap a b g') : Alike (assigned key (a ++ (g ++ b))) (assigned key (a ++ (g' ++ b))) := by
  have hword : g = [] ∨ g' = [] →
      ∀ x y, a.getLast? = some x → b.head? = some y → isalpha x = true → isalpha y = false :=
    fun h => h.elim hg.word hg'.word
  have hdouble : Alike (firstValue (quotedValue '"') key (a ++ (g ++ b)))
      (firstValue (quotedValue '"') key (a ++ (g' ++ b))) :=
    firstValue_gap hkey hne hg.blank hg'.blank hword fun r b' v ha _ hv =>
      quotedValue_gap rfl hg.blank hg'.blank hfree.double (r := r ++ '=' :: b') (by rw [ha]; simp) hv
  have hsingle : Alike (firstValue (quotedValue (Char.ofNat 39)) key (a ++ (g ++ b)))
      (firstValue (quotedValue (Char.ofNat 39)) key (a ++ (g' ++ b))) :=
    firstValue_gap hkey hne hg.blank hg'.blank hword fun r b' v ha _ hv =>
      quotedValue_gap rfl hg.blank hg'.blank hfree.single (r := r ++ '=' :: b') (by rw [ha]; simp) hv
  have hplain : Alike (firstValue plainValue key (a ++ (g ++ b))) (firstValue plainValue key (a ++ (g' ++ b))) :=
    firstValue_gap hkey hne hg.blank hg'.blank hword fun r b' v ha hb' hv =>
      plainValue_gap hg.blank hg'.blank hfree.plain ha hb' hv
  exact hdouble.or (hsingle.or hplain)

end Gap

/-! ## Remote input -/

section Remote

variable {a b g g' key keyword s : Str}

theorem Alike.assigns {o o' : Option Str} (h : Alike o o') :
    (∃ v, o = some v ∧ lower v = "imtcp") ↔ ∃ v, o' = some v ∧ lower v = "imtcp" := by
  have hletters : ∀ {v : Str}, lower v = "imtcp" → ∀ x ∈ v, isalpha x = true := by
    intro v hv x hx
    have hmem : lowerChar x ∈ lower v := List.mem_map_of_mem hx
    have hall : ∀ y ∈ "imtcp".toList, isalpha y = true := List.all_eq_true.mp rfl
    cases hx' : isalpha x with
    | true => rfl
    | false =>
      rw [(lowerChar_eq_iff hx').mpr rfl, hv] at hmem
      exact hx'.symm.trans (hall x hmem)
  rcases h with rfl | ⟨v, v', rfl, rfl, ⟨x, hx, hno⟩, x', hx', hno'⟩
  · exact Iff.rfl
  · refine iff_of_false ?_ ?_
    · rintro ⟨u, hu, hlower⟩
      obtain rfl := Option.some.inj hu
      rw [hletters hlower x hx] at hno
      cases hno
    · rintro ⟨u, hu, hlower⟩
      obtain rfl := Option.some.inj hu
      rw [hletters hlower x' hx'] at hno'
      cases hno'

/-- **What a text assigns to a key does not depend on free blanks.** -/
theorem assigns_gap (hkey : ∀ x ∈ key, isalpha x = true) (hne : key ≠ []) (hfree : Free a b) (hg : Gap a b g)
    (hg' : Gap a b g') : Assigns key (a ++ (g ++ b)) ↔ Assigns key (a ++ (g' ++ b)) :=
  (assigned_gap hkey hne hfree hg hg').assigns

theorem gap_nil_left (hg : ∀ x ∈ g, isspace x = true) : Gap [] b g :=
  ⟨hg, fun _ x y hx => by cases hx⟩

theorem gap_nil_right (hg : ∀ x ∈ g, isspace x = true) : Gap a [] g :=
  ⟨hg, fun _ x y _ hy => by cases hy⟩

theorem free_nil_left : Free [] b where
  double := .inl fun r v h => by cases r <;> cases h
  single := .inl fun r v h => by cases r <;> cases h
  plain := .inr fun r b v h => by cases r <;> cases h

theorem free_nil_right : Free a [] where
  double := .inr fun v r h => by cases v <;> cases h
  single := .inr fun v r h => by cases v <;> cases h
  plain := .inl rfl

theorem assigns_blanks (hkey : ∀ x ∈ key, isalpha x = true) (hne : key ≠ []) (hg : ∀ x ∈ g, isspace x = true)
    (hg' : ∀ x ∈ g', isspace x = true) : Assigns key (g ++ (s ++ g')) ↔ Assigns key s := by
  have hnone : ∀ x ∈ ([] : Str), isspace x = true := fun x hx => absurd hx List.not_mem_nil
  have hleft := assigns_gap (a := []) hkey hne free_nil_left (gap_nil_left hg) (gap_nil_left (b := s ++ g') hnone)
  have hright := assigns_gap (b := []) hkey hne free_nil_right (gap_nil_right hg') (gap_nil_right (a := s) hnone)
  simp only [List.append_nil, List.nil_append] at hleft hright
  exact hleft.trans hright

theorem words_trim (s : Str) : words nonBlank (trim s) = words nonBlank s := by
  rw [trim_eq, words_rdropWhile]
  conv_rhs => rw [← List.takeWhile_append_dropWhile (p := isspace) (l := s)]
  exact (words_blanks _ fun x hx => List.mem_takeWhile_imp hx).symm

theorem words_within (hg : ∀ x ∈ g, isspace x = true) (hg' : ∀ x ∈ g', isspace x = true) :
    words nonBlank (g ++ (s ++ g')) = words nonBlank s := by
  rw [← words_trim, trim_blanks_append hg, trim_append_blanks hg', words_trim]

theorem dropWhile_blanks (hg : ∀ x ∈ g, isspace x = true) {x : Char} (hx : isspace x = false) (s : Str) :
    (g ++ x :: s).dropWhile isspace = x :: s := by
  rw [List.dropWhile_append_of_pos hg, List.dropWhile_cons, if_neg (by rw [hx]; exact Bool.false_ne_true)]

theorem begins_blanks {k : Char} (hk : isspace k = false) (hg : ∀ x ∈ g, isspace x = true)
    (hg' : ∀ x ∈ g', isspace x = true) : Begins (k :: keyword) (g ++ (s ++ g')) ↔ Begins (k :: keyword) s := by
  constructor
  · rintro ⟨b, c, r, heq, hb, hc⟩
    have hdrop := congrArg (List.dropWhile isspace) heq
    rw [List.dropWhile_append_of_pos hg, List.cons_append, dropWhile_blanks hb hk] at hdrop
    rcases @dropWhile_gap g' s with hblank | ⟨d, x, e, rfl, hd, hdropped⟩
    · have hnil := hblank (f := []) fun x hx => absurd hx List.not_mem_nil
      rw [List.nil_append, hdrop, List.dropWhile_eq_nil_iff.mpr hg'] at hnil
      cases hnil
    · rw [hdropped] at hdrop
      -- the parenthesis stands in front of the last blanks
      have hparen : k :: (keyword ++ (c ++ ['('])) <+: x :: e := by
        have hpre : k :: (keyword ++ (c ++ ['('])) <+: x :: e ++ g' := by
          refine ⟨r, ?_⟩
          rw [List.cons_append, List.cons_append, hdrop]
          simp
        rcases List.prefix_or_prefix_of_prefix hpre (List.prefix_append (x :: e) g') with h | ⟨m, hm⟩
        · exact h
        · rcases List.eq_nil_or_concat m with rfl | ⟨m, y, rfl⟩
          · rw [List.append_nil] at hm
            rw [hm]
          · exfalso
            have hlast := congrArg List.getLast? hm
            have hleft : (x :: e ++ m.concat y).getLast? = some y := by
              rw [List.concat_eq_append, ← List.append_assoc, List.getLast?_concat]
            have hright : (k :: (keyword ++ (c ++ ['(']))).getLast? = some '(' := by
              rw [← List.append_assoc, ← List.cons_append, List.getLast?_concat]
            rw [hleft, hright] at hlast
            obtain rfl := Option.some.inj hlast
            rw [← hm, List.prefix_append_right_inj] at hpre
            have hmem : '(' ∈ m.concat '(' := by simp
            have hblank := hg' _ (hpre.subset hmem)
            exact absurd hblank (by decide)
      obtain ⟨r', hr'⟩ := hparen
      exact ⟨d, c, r', by rw [← hr']; simp, hd, hc⟩
  · rintro ⟨b, c, r, rfl, hb, hc⟩
    refine ⟨g ++ b, c, r ++ g', by simp, fun x hx => ?_, hc⟩
    exact (List.mem_append.mp hx).elim (hg x) (hb x)

/-- The blanks around a text are of no account. -/
theorem remoteText_blanks (hg : ∀ x ∈ g, isspace x = true) (hg' : ∀ x ∈ g', isspace x = true) :
    RemoteText (g ++ (s ++ g')) ↔ RemoteText s := by
  have hmodule : Begins "module" (g ++ (s ++ g')) ↔ Begins "module" s := begins_blanks rfl hg hg'
  have hinput : Begins "input" (g ++ (s ++ g')) ↔ Begins "input" s := begins_blanks rfl hg hg'
  unfold RemoteText Directive
  rw [words_within hg hg', hmodule, hinput,
    assigns_blanks (List.all_eq_true.mp rfl) (by decide) hg hg',
    assigns_blanks (List.all_eq_true.mp rfl) (by decide) hg hg']

theorem isMatch_begins {pat : Str} (hs : ∀ x, s.head? = some x → isspace x = false)
    (hmatch : isMatch s pat = (matchRest ((spelling keyword).map (.single · .one) ++
      (.single blank .star :: ((spelling "(").map (.single · .one) ++ []))) s []).isSome) :
    isMatch s pat = true ↔ Begins keyword s := by
  rw [hmatch, match_spelling]
  constructor
  · rintro ⟨r, rfl, hrest⟩
    obtain ⟨c, r', rfl, hc, hparen⟩ := of_match_blankStar hrest
    obtain ⟨r, rfl, -⟩ := (match_spelling _).mp hparen
    exact ⟨[], c, r, rfl, fun x hx => absurd hx List.not_mem_nil, hc⟩
  · rintro ⟨b, c, r, rfl, hb, hc⟩
    have hnil : b = [] := by
      cases b with
      | nil => rfl
      | cons x b =>
        have hx := hs x rfl
        rw [hb x List.mem_cons_self] at hx
        cases hx
    subst hnil
    refine ⟨_, rfl, ?_⟩
    have hparen : matchRest ((spelling "(").map (.single · .one) ++ []) ('(' :: r) [] = some (r, []) := rfl
    rw [matchRest, longest_run (fun x hx => ?_) hparen hc]
    · rfl
    · obtain rfl := Option.some.inj hx
      rfl

end Remote

theorem isspace_lowerChar {c : Char} (h : isspace (lowerChar c) = true) : isspace c = true := by
  by_cases hc : 'A' ≤ c ∧ c ≤ 'Z'
  · have halpha := not_isspace_of_isalpha (isalpha_lowerChar hc)
    rw [h] at halpha
    cases halpha
  · have hself : lowerChar c = c := if_neg hc
    rwa [hself] at h

theorem isspace_lower {b : Str} (hb : ∀ x ∈ b, isspace x = true) : ∀ x ∈ lower b, isspace x = true := by
  intro x hx
  obtain ⟨c, hc, rfl⟩ := List.mem_map.mp hx
  have hno : isalpha c = false := by
    cases h : isalpha c with
    | false => rfl
    | true =>
      have hblank := not_isspace_of_isalpha h
      rw [hb c hc] at hblank
      cases hblank
  rw [(lowerChar_eq_iff hno).mpr rfl]
  exact hb c hc

/-- A normal line begins with no blank. -/
theorem head_normal (line : Str) : ∀ x, (normal line).head? = some x → isspace x = false := by
  intro x hx
  rw [normal, lower, List.head?_map] at hx
  obtain ⟨c, hc, rfl⟩ := Option.map_eq_some_iff.mp hx
  cases h : isspace (lowerChar c) with
  | false => rfl
  | true =>
    have hfalse := head_trim hc
    rw [isspace_lowerChar h] at hfalse
    cases hfalse

theorem remoteInputType_iff {s : Str} (hs : ∀ x, s.head? = some x → isspace x = false) :
    (remoteInputType s).isSome = true ↔ RemoteText s := by
  have hvalue : ∀ {name : Str}, (name.all fun x => !isMagic x) = true →
      (parseNamedArg s name = some "imtcp".toList ↔ Assigns name s) := by
    intro name hname
    rw [parseNamedArg_eq (by simpa using hname), Option.map_eq_some_iff]
    rfl
  have hinput := @isMatch_begins "input" s "^input%s*%(" hs (isMatch_anchored rfl rfl rfl)
  have hmodule := @isMatch_begins "module" s "^module%s*%(" hs (isMatch_anchored rfl rfl rfl)
  unfold RemoteText Directive remoteInputType
  rw [← isMatch_modload hs, ← isMatch_inputtcpserverrun hs, ← hinput, ← hmodule,
    ← @hvalue "load" rfl, ← @hvalue "type" rfl]
  split
  · next h => exact iff_of_true rfl (.inl (.inl h))
  · next hload =>
    split
    · next h => exact iff_of_true rfl (.inl (.inr h))
    · next hserver =>
      split
      · next h => exact iff_of_true rfl (.inr (.inr h))
      · next hin =>
        split
        · next h => exact iff_of_true rfl (.inr (.inl h))
        · next hmod =>
          refine iff_of_false Bool.false_ne_true ?_
          rintro ((h | h) | h | h)
          · exact hload h
          · exact hserver h
          · exact hmod h
          · exact hin h

theorem remoteLine_iff (line : Str) : RemoteLine line ↔ RemoteText (lower (stripInlineComment false false line)) := by
  have hvisible : Visible none line (stripInlineComment false false line) := visible_stripInlineComment line (.inl rfl)
  constructor
  · rintro ⟨text, htext, h⟩
    rwa [htext.unique hvisible] at h
  · exact fun h => ⟨_, hvisible, h⟩

/-- **`inspect_line` notes remote input on the lines that are remote input.** -/
theorem inspectLine_iff (line : Str) : (inspectLine line).remoteInputType.isSome = true ↔ RemoteLine line := by
  have hnormal : RemoteLine line ↔ RemoteText (normal line) := by
    obtain ⟨b, b', hb, hb', hs⟩ := exists_trim (stripInlineComment false false line)
    have hlower : lower (stripInlineComment false false line) = lower b ++ (normal line ++ lower b') := by
      conv_lhs => rw [hs]
      simp [lower, normal]
    rw [remoteLine_iff, hlower]
    exact remoteText_blanks (isspace_lower hb) (isspace_lower hb')
  rw [hnormal, ← remoteInputType_iff (head_normal line)]
  unfold inspectLine
  dsimp only
  split
  · next hnil =>
    rw [hnil]
    exact iff_of_false Bool.false_ne_true (by decide +kernel)
  · exact Iff.rfl

/-! ## Blanks in a line -/

section Lower

variable {a b g s v r : Str} {q : Char}

theorem lower_split (hq : isalpha q = false) (h : lower s = v ++ q :: r) :
    ∃ v' r', s = v' ++ q :: r' ∧ lower v' = v ∧ lower r' = r := by
  obtain ⟨v', w, rfl, hv, hw⟩ := List.map_eq_append_iff.mp h
  obtain ⟨c, r', rfl, hc, hr⟩ := List.map_eq_cons_iff.mp hw
  obtain rfl := (lowerChar_eq_iff hq).mp hc
  exact ⟨v', r', rfl, hv, hr⟩

theorem mem_lower {x : Char} (hx : isalpha x = false) : x ∈ lower s ↔ x ∈ s := by
  constructor
  · intro h
    obtain ⟨c, hc, hcx⟩ := List.mem_map.mp h
    rwa [(lowerChar_eq_iff hx).mp hcx] at hc
  · intro h
    exact List.mem_map.mpr ⟨x, h, (lowerChar_eq_iff hx).mpr rfl⟩

theorem FencedAhead.lower (hq : isalpha q = false) (h : FencedAhead q s) : FencedAhead q (lower s) := by
  intro v r hs hv
  obtain ⟨v', r', rfl, rfl, rfl⟩ := lower_split hq hs
  obtain ⟨x, hx, hstop⟩ := h v' r' rfl fun hmem => hv ((mem_lower hq).mpr hmem)
  exact ⟨x, (mem_lower hstop.1).mpr hx, hstop⟩

theorem FencedBehind.lower (hq : isalpha q = false) (h : FencedBehind q s) : FencedBehind q (lower s) := by
  intro r v hs hv
  obtain ⟨r', v', rfl, rfl, rfl⟩ := lower_split hq hs
  obtain ⟨x, hx, hstop⟩ := h r' v' rfl fun hmem => hv ((mem_lower hq).mpr hmem)
  exact ⟨x, (mem_lower hstop.1).mpr hx, hstop⟩

theorem isspace_of_lower (h : ∀ x ∈ lower s, isspace x = true) : ∀ x ∈ s, isspace x = true :=
  fun _ hx => isspace_lowerChar (h _ (List.mem_map_of_mem hx))

theorem Unassigned.lower (h : Unassigned s) : Unassigned (lower s) := by
  intro r b v hs hb hv hblank
  obtain ⟨r', w, rfl, -, hw⟩ := lower_split (show isalpha '=' = false from rfl) hs
  obtain ⟨b', v', rfl, rfl, rfl⟩ := List.map_eq_append_iff.mp hw
  have hne : v' ≠ [] := by
    rintro rfl
    exact hv rfl
  obtain ⟨x, hx, hstop⟩ := h r' b' v' rfl (isspace_of_lower hb) hne fun x hx => by
    cases hx' : isspace x with
    | false => rfl
    | true =>
      have hmem := isspace_lower (b := [x]) (fun y hy => by rwa [List.mem_singleton.mp hy]) (lowerChar x)
        List.mem_cons_self
      rw [hblank _ (List.mem_map_of_mem hx)] at hmem
      cases hmem
  exact ⟨x, (mem_lower hstop).mpr hx, hstop⟩

theorem FencedAhead.front (h : FencedAhead q (s ++ r)) : FencedAhead q s := by
  intro v w hs hv
  exact h v (w ++ r) (by rw [hs]; simp) hv

theorem Free.lower (h : Free a (b ++ r)) : Free (lower a) (lower b) where
  double := h.double.imp (FencedBehind.lower rfl) fun h => h.front.lower rfl
  single := h.single.imp (FencedBehind.lower rfl) fun h => h.front.lower rfl
  plain := h.plain.imp (fun h => by rw [(List.append_eq_nil_iff.mp h).1]; rfl) Unassigned.lower

theorem isalpha_of_lowerChar {c : Char} (h : isalpha (lowerChar c) = true) : isalpha c = true := by
  cases hc : isalpha c with
  | true => rfl
  | false => rw [(lowerChar_eq_iff hc).mpr rfl, hc] at h; cases h

theorem Gap.lower (h : Gap a (b ++ r) g) : Gap (lower a) (lower b) (lower g) where
  blank := isspace_lower h.blank
  word := by
    intro hnil x y hx hy hletter
    rw [Lua.lower, List.getLast?_map] at hx
    rw [Lua.lower, List.head?_map] at hy
    obtain ⟨c, hc, rfl⟩ := Option.map_eq_some_iff.mp hx
    obtain ⟨d, hd, rfl⟩ := Option.map_eq_some_iff.mp hy
    have hno := h.word (List.map_eq_nil_iff.mp hnil) c d hc (by rw [List.head?_append, hd]; rfl)
      (isalpha_of_lowerChar hletter)
    rw [(lowerChar_eq_iff hno).mpr rfl]
    exact hno

end Lower

/-- What is left of a line without its comment. -/
theorem stripInlineComment_initial : ∀ (inSingleQuote inDoubleQuote : Bool) (line : Str),
    stripInlineComment inSingleQuote inDoubleQuote line <+: line
  | _, _, [] => List.nil_prefix
  | inSingleQuote, inDoubleQuote, c :: r => by
    rw [stripInlineComment]
    split
    · exact List.cons_prefix_cons.mpr ⟨rfl, stripInlineComment_initial _ _ r⟩
    · split
      · exact List.cons_prefix_cons.mpr ⟨rfl, stripInlineComment_initial _ _ r⟩
      · split
        · exact List.nil_prefix
        · exact List.cons_prefix_cons.mpr ⟨rfl, stripInlineComment_initial _ _ r⟩

/-- A comment in front of the rest of a line, or none. -/
theorem stripInlineComment_append : ∀ (inSingleQuote inDoubleQuote : Bool) (a : Str),
    (∀ s, stripInlineComment inSingleQuote inDoubleQuote (a ++ s) = stripInlineComment inSingleQuote inDoubleQuote a) ∨
      ∃ inSingleQuote' inDoubleQuote', ∀ s, stripInlineComment inSingleQuote inDoubleQuote (a ++ s) =
        a ++ stripInlineComment inSingleQuote' inDoubleQuote' s
  | inSingleQuote, inDoubleQuote, [] => .inr ⟨inSingleQuote, inDoubleQuote, fun _ => rfl⟩
  | inSingleQuote, inDoubleQuote, c :: a => by
    have hrest : ∀ inSingleQuote inDoubleQuote : Bool,
        (∀ s, c :: stripInlineComment inSingleQuote inDoubleQuote (a ++ s) =
          c :: stripInlineComment inSingleQuote inDoubleQuote a) ∨
        ∃ inSingleQuote' inDoubleQuote', ∀ s, c :: stripInlineComment inSingleQuote inDoubleQuote (a ++ s) =
          c :: (a ++ stripInlineComment inSingleQuote' inDoubleQuote' s) := by
      intro inSingleQuote inDoubleQuote
      rcases stripInlineComment_append inSingleQuote inDoubleQuote a with h | ⟨q, q', h⟩
      · exact .inl fun s => by rw [h]
      · exact .inr ⟨q, q', fun s => by rw [h]⟩
    simp only [List.cons_append, stripInlineComment]
    split
    · exact hrest _ _
    · split
      · exact hrest _ _
      · split
        · exact .inl fun _ => rfl
        · exact hrest _ _

theorem stripInlineComment_blanks {g : Str} (hg : ∀ x ∈ g, isspace x = true) (inSingleQuote inDoubleQuote : Bool)
    (s : Str) : stripInlineComment inSingleQuote inDoubleQuote (g ++ s) =
      g ++ stripInlineComment inSingleQuote inDoubleQuote s := by
  induction g with
  | nil => rfl
  | cons x g ih =>
    have hne : ∀ {q : Char}, isspace q = false → x ≠ q := by
      rintro q hq rfl
      rw [hg x List.mem_cons_self] at hq
      cases hq
    rw [List.cons_append, stripInlineComment, if_neg fun h => hne rfl h.1, if_neg fun h => hne rfl h.1,
      if_neg fun h => hne rfl h.1, ih fun y hy => hg y (List.mem_cons_of_mem x hy)]
    rfl

/-- The text does not begin like a directive. -/
def Undirected (s : Str) : Prop := (s.dropWhile isspace).head? ≠ some '$'

section Line

variable {a b g g' keyword s : Str}

theorem Undirected.of_append (h : Undirected (a ++ b)) : Undirected a := by
  intro hhead
  refine h ?_
  rw [List.dropWhile_append]
  split
  · next hnil =>
    rw [List.isEmpty_iff.mp hnil] at hhead
    cases hhead
  · rw [List.head?_append, hhead]
    rfl

theorem Undirected.append (ha : Undirected a) (hb : Undirected b) : Undirected (a ++ b) := by
  intro hhead
  rw [List.dropWhile_append] at hhead
  split at hhead
  · exact hb hhead
  · next hne =>
    refine ha ?_
    rw [List.head?_append] at hhead
    cases hdrop : a.dropWhile isspace with
    | nil =>
      rw [hdrop] at hne
      exact absurd rfl hne
    | cons x t =>
      rw [hdrop] at hhead
      exact hhead

/-- What begins with no dollar sign is no directive. -/
theorem Undirected.not_directive (h : Undirected s) : ¬Directive (lower s) := by
  intro hdir
  obtain ⟨b, r, hs, hb⟩ : ∃ b r, lower s = b ++ '$' :: r ∧ ∀ x ∈ b, isspace x = true := by
    rcases hdir with hwords | ⟨port, rest, hwords⟩
    · obtain ⟨b, r, hs, hb, -⟩ := words_eq_cons_iff.mp hwords
      exact ⟨b, _, hs, hb⟩
    · obtain ⟨b, r, hs, hb, -⟩ := words_eq_cons_iff.mp hwords
      exact ⟨b, _, hs, hb⟩
  obtain ⟨b', r', rfl, rfl, -⟩ := lower_split rfl hs
  refine h ?_
  rw [dropWhile_blanks (isspace_of_lower hb) rfl]
  rfl

theorem Undirected.front {x : Char} (hx : x ∈ a) (hblank : isspace x = false) (h : Undirected a) (s : Str) :
    Undirected (a ++ s) := by
  intro hhead
  refine h ?_
  rw [List.dropWhile_append] at hhead
  split at hhead
  · next hnil =>
    have hall := List.dropWhile_eq_nil_iff.mp (List.isEmpty_iff.mp hnil) x hx
    rw [hblank] at hall
    cases hall
  · next hne =>
    obtain ⟨y, t, ht⟩ := List.exists_cons_of_ne_nil fun h => hne (List.isEmpty_iff.mpr h)
    rw [ht] at hhead ⊢
    exact hhead

/-- The text up to a parenthesis says whether a statement begins. -/
theorem begins_front (hkeyword : '(' ∉ keyword) (hparen : '(' ∈ a) : Begins keyword (a ++ s) ↔ Begins keyword a := by
  constructor
  · rintro ⟨b, c, r, heq, hb, hc⟩
    obtain ⟨u, w, rfl, hu⟩ := List.eq_append_cons_of_mem hparen
    have hfront : '(' ∉ b ++ (keyword ++ c) := by
      simp only [List.mem_append, not_or]
      exact ⟨not_mem_blanks rfl hb, hkeyword, not_mem_blanks rfl hc⟩
    have hsplit : u ++ '(' :: (w ++ s) = b ++ (keyword ++ c) ++ '(' :: r := by
      rw [List.append_assoc, List.cons_append] at heq
      rw [heq]
      simp
    have hsame := congrArg (List.takeWhile (· != '(')) hsplit
    rw [takeWhile_ne hu, takeWhile_ne hfront] at hsame
    exact ⟨b, c, w, by rw [hsame]; simp, hb, hc⟩
  · rintro ⟨b, c, r, rfl, hb, hc⟩
    exact ⟨b, c, r ++ s, by simp, hb, hc⟩

/-- **Blanks behind the parenthesis of a statement do not change what a line is if no value reaches across them.** -/
theorem remoteLine_gap (hparen : '(' ∈ a) (hdir : Undirected a) (hfree : Free a b) (hg : Gap a b g)
    (hg' : Gap a b g') : RemoteLine (a ++ (g ++ b)) ↔ RemoteLine (a ++ (g' ++ b)) := by
  rw [remoteLine_iff, remoteLine_iff]
  rcases stripInlineComment_append false false a with h | ⟨q, q', h⟩
  · rw [h, h]
  · obtain ⟨r, hr⟩ := stripInlineComment_initial q q' b
    rw [h, h, stripInlineComment_blanks hg.blank, stripInlineComment_blanks hg'.blank]
    generalize stripInlineComment q q' b = b' at hr
    subst hr
    have hno : ∀ s, ¬Directive (lower (a ++ s)) := fun s => (hdir.front hparen rfl s).not_directive
    have hlower : ∀ f : Str, lower (a ++ (f ++ b')) = lower a ++ (lower f ++ lower b') := fun f => by simp [lower]
    have hbegins : ∀ {keyword : Str}, '(' ∉ keyword → ∀ f : Str,
        (Begins keyword (lower (a ++ (f ++ b'))) ↔ Begins keyword (lower a)) := by
      intro keyword hkeyword f
      rw [hlower]
      exact begins_front hkeyword ((mem_lower rfl).mpr hparen)
    have hassigns : ∀ {key : Str}, (∀ x ∈ key, isalpha x = true) → key ≠ [] →
        (Assigns key (lower (a ++ (g ++ b'))) ↔ Assigns key (lower (a ++ (g' ++ b')))) := by
      intro key hkey hne
      rw [hlower, hlower]
      exact assigns_gap hkey hne hfree.lower hg.lower hg'.lower
    unfold RemoteText
    rw [hbegins (by decide), hbegins (by decide), hbegins (by decide), hbegins (by decide),
      hassigns (List.all_eq_true.mp rfl) (by decide), hassigns (List.all_eq_true.mp rfl) (by decide)]
    exact or_congr_left (iff_of_false (hno _) (hno _))

end Line

end Rsyslog

end Seharden
