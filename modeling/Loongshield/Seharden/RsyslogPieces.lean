import Loongshield.Seharden.RsyslogGap

/-!
# The pieces of rsyslog statements

Names, marks, texts in quotation marks, comments and remarks, with blanks between them.

- `Token`, `Piece`: what statements are written with;
- `quiet_written`: no line of pieces is remote input on its own;
- `remoteLine_written`: the blanks in front of the pieces of a line do not change whether it is remote input.
-/

namespace Seharden

open Lua Pattern

namespace Rsyslog

/-! ## Tokens -/

/-- A piece of a statement. -/
inductive Token
  | word (text : Str)
  | quoted (text : Str)
  | mark (c : Char)
  | comment (text : Str)
  | remark (text : Str)
  deriving DecidableEq

namespace Token

/-- The piece as it is written. -/
def text : Token → Str
  | .word text => text
  | .quoted text => '"' :: (text ++ ['"'])
  | .mark c => [c]
  | .comment text => '#' :: text
  | .remark text => '/' :: '*' :: (text ++ ['*', '/'])

def isCode : Token → Bool
  | .comment _ => false
  | .remark _ => false
  | _ => true

/-- A quoted text has quotation marks only behind a backslash, which takes the next character with it. -/
def escapes : Str → Bool
  | [] => true
  | '\\' :: _ :: r => escapes r
  | c :: r => c != '"' && c != '\\' && escapes r

/-- Names, texts in quotation marks on one line, the marks between them, comments to the end of the line, and remarks
between slashes and asterisks. -/
def Proper : Token → Prop
  | .word text => text ≠ [] ∧ ∀ x ∈ text, isalnum x = true ∨ x ∈ ['.', '_', '-']
  | .quoted text => escapes text = true ∧ '\n' ∉ text
  | .mark c => c ∈ ['=', ',', '[', ']']
  | .comment text => '\n' ∉ text
  | .remark text => '\n' ∉ text ∧ ¬['*', '/'] <:+: text

end Token

/-- A piece of a row of statements: one of a statement, or a closing parenthesis with the text behind it. -/
inductive Piece
  | token (t : Token)
  | turn (text : Str)

namespace Piece

def text : Piece → Str
  | .token t => t.text
  | .turn text => ')' :: text

def isWord : Piece → Bool
  | .token (.word _) => true
  | _ => false

def isQuoted : Piece → Bool
  | .token (.quoted _) => true
  | _ => false

def isComment : Piece → Bool
  | .token (.comment _) => true
  | _ => false

/-- A piece may stand behind another: a quoted text behind no word and no quoted text, no word behind an equals sign,
and behind the end of a statement the next one. -/
structure Follows (p q : Piece) : Prop where
  quoted : q.isQuoted = true → p.isWord = false ∧ p.isQuoted = false
  value : p = .token (.mark '=') → q.isWord = false
  turn : ∀ text, p = .turn text → text.getLast? = some '('

end Piece

/-- The text of pieces, each behind its blanks. -/
def written (body : List (Str × Piece)) : Str := body.flatMap fun p => p.1 ++ p.2.text

/-- Two words are kept apart, and a comment ends its line. -/
def Apart (p q : Str × Piece) : Prop :=
  (p.2.isWord = true → q.2.isWord = true → q.1 ≠ []) ∧ (p.2.isComment = true → q.1.head? = some '\n')

/-! ## Characters that keep values apart -/

section Fence

variable {a m r s : Str} {q x : Char}

theorem fencedAhead_of_not_mem (h : q ∉ s) : FencedAhead q s := by
  rintro v r rfl
  exact absurd (by simp) h

theorem fencedAhead_cons (hx : isalpha x = false ∧ isspace x = false) (hne : x ≠ q) (s : Str) :
    FencedAhead q (x :: s) := by
  intro v r hs hv
  cases v with
  | nil => exact absurd (List.cons.inj hs).1 hne
  | cons y v =>
    obtain rfl := (List.cons.inj hs).1
    exact ⟨x, List.mem_cons_self, hx⟩

theorem FencedAhead.append (ha : FencedAhead q a) (hr : FencedAhead q r) : FencedAhead q (a ++ r) := by
  intro v w hs hv
  rcases List.append_eq_append_iff.mp hs with ⟨c, rfl, hc⟩ | ⟨c, rfl, hc⟩
  · obtain ⟨x, hx, hstop⟩ := hr c w hc fun h => hv (List.mem_append_right a h)
    exact ⟨x, List.mem_append_right a hx, hstop⟩
  · cases c with
    | nil =>
      obtain ⟨x, hx, -⟩ := hr [] w hc.symm List.not_mem_nil
      cases hx
    | cons y c =>
      obtain rfl := (List.cons.inj hc).1
      exact ha v c rfl hv

theorem FencedBehind.append (ha : FencedBehind q a) (hm : q ∉ m) : FencedBehind q (a ++ m) := by
  intro r v hs hv
  rcases List.append_eq_append_iff.mp hs with ⟨c, rfl, rfl⟩ | ⟨c, rfl, hc⟩
  · exact absurd (by simp) hm
  · cases c with
    | nil =>
      rw [List.nil_append] at hc
      exact absurd (by rw [← hc]; exact List.mem_cons_self) hm
    | cons y c =>
      obtain ⟨rfl, rfl⟩ := List.cons.inj hc
      obtain ⟨x, hx, hstop⟩ := ha r c rfl fun h => hv (List.mem_append_left m h)
      exact ⟨x, List.mem_append_left m hx, hstop⟩

theorem fencedBehind_concat (hx : isalpha x = false ∧ isspace x = false) (hne : x ≠ q) (s : Str) :
    FencedBehind q (s ++ [x]) := by
  intro r v hs hv
  rcases List.eq_nil_or_concat v with rfl | ⟨v, y, rfl⟩
  · exact absurd (List.append_inj_right' hs rfl) (by simpa using hne)
  · rw [List.concat_eq_append] at hs ⊢
    have hlast : [x] = [y] := List.append_inj_right' (hs.trans (by simp : _ = (r ++ q :: v) ++ [y])) rfl
    obtain rfl := (List.cons.inj hlast).1
    exact ⟨x, by simp, hx⟩

theorem unassigned_concat (hx : isalpha x = false) (s : Str) : Unassigned (s ++ [x]) := by
  intro r b v hs _ hv _
  rcases List.eq_nil_or_concat v with rfl | ⟨v, y, rfl⟩
  · exact absurd rfl hv
  · rw [List.concat_eq_append] at hs ⊢
    have hlast : [x] = [y] := List.append_inj_right' (hs.trans (by simp : _ = (r ++ '=' :: (b ++ v)) ++ [y])) rfl
    obtain rfl := (List.cons.inj hlast).1
    exact ⟨x, by simp, hx⟩

end Fence

/-! ## Pieces -/

theorem isspace_of_isalnum {x : Char} (h : isalnum x = true) : isspace x = false := by
  simp only [isalnum, isalpha, isdigit, Bool.or_eq_true, Bool.and_eq_true, decide_eq_true_eq] at h
  have hnat : 48 ≤ x.toNat := by
    rcases h with (⟨h, -⟩ | ⟨h, -⟩) | ⟨h, -⟩
    · exact Nat.le_trans (by decide) (show 97 ≤ x.toNat from h)
    · exact Nat.le_trans (by decide) (show 65 ≤ x.toNat from h)
    · exact h
  have hne : x ≠ ' ' := by
    rintro rfl
    exact absurd hnat (by decide)
  rw [isspace, beq_false_of_ne hne, Bool.false_or, Bool.and_eq_false_iff, decide_eq_false_iff_not,
    decide_eq_false_iff_not]
  omega

namespace Piece

/-- The piece is well formed, and stands on one line. -/
def Proper : Piece → Prop
  | .token t => t.Proper
  | .turn text => '\n' ∉ text

/-- Marks that are in no word. -/
def separators : List Char := ['"', Char.ofNat 39, '(', '=', '$', '\n']

theorem word_char {text : Str} (h : Proper (.token (.word text))) : ∀ x ∈ text, isspace x = false ∧ x ∉ separators := by
  intro x hx
  rcases h.2 x hx with halnum | hmem
  · refine ⟨isspace_of_isalnum halnum, fun hmem => ?_⟩
    have hno : separators.all (fun c => !isalnum c) = true := by decide
    have hfalse := List.all_eq_true.mp hno x hmem
    rw [halnum] at hfalse
    cases hfalse
  · simp only [List.mem_cons, List.not_mem_nil, or_false] at hmem
    rcases hmem with rfl | rfl | rfl <;> decide

/-- What is no word begins with a mark. -/
theorem exists_head {p : Piece} (h : p.Proper) (hword : p.isWord = false) : ∃ x s, p.text = x :: s ∧
    (isalpha x = false ∧ isspace x = false) ∧ x ≠ '(' ∧ x ≠ '$' ∧ (p.isQuoted = false → x ≠ '"') := by
  cases p with
  | turn text => exact ⟨')', text, rfl, by decide, by decide, by decide, fun _ => by decide⟩
  | token t =>
    cases t with
    | word text => cases hword
    | quoted text => exact ⟨'"', _, rfl, by decide, by decide, by decide, fun h => by cases h⟩
    | mark c =>
      have hc : c = '=' ∨ c = ',' ∨ c = '[' ∨ c = ']' := by simpa [Proper, Token.Proper] using h
      refine ⟨c, [], rfl, ?_⟩
      rcases hc with rfl | rfl | rfl | rfl <;> exact ⟨by decide, by decide, by decide, fun _ => by decide⟩
    | comment text => exact ⟨'#', text, rfl, by decide, by decide, by decide, fun _ => by decide⟩
    | remark text => exact ⟨'/', _, rfl, by decide, by decide, by decide, fun _ => by decide⟩

/-- Every piece stands on one line. -/
theorem line {p : Piece} (h : p.Proper) : '\n' ∉ p.text := by
  cases p with
  | turn text =>
    have hline : '\n' ∉ text := h
    simp [Piece.text, hline]
  | token t =>
    cases t with
    | word text => exact fun hmem => absurd (word_char h _ hmem).2 (by decide)
    | quoted text =>
      have hline : '\n' ∉ text := h.2
      simp [Piece.text, Token.text, hline]
    | mark c =>
      have hc : c = '=' ∨ c = ',' ∨ c = '[' ∨ c = ']' := by simpa [Proper, Token.Proper] using h
      rcases hc with rfl | rfl | rfl | rfl <;> decide
    | comment text =>
      have hline : '\n' ∉ text := h
      simp [Piece.text, Token.text, hline]
    | remark text =>
      have hline : '\n' ∉ text := h.1
      simp [Piece.text, Token.text, hline]

end Piece

/-! ## Lines of a text -/

section Lines

variable {a r : Str}

theorem lines_newline (r : Str) : ('\n' :: r).splitOn '\n' = [] :: r.splitOn '\n' := by
  rw [List.splitOn_eq_splitOnP, List.splitOn_eq_splitOnP, List.splitOnP_cons_eq_if_modifyHead, if_pos (by decide)]

theorem lines_cons {c : Char} (hc : c ≠ '\n') (r : Str) :
    (c :: r).splitOn '\n' = (r.splitOn '\n').modifyHead (List.cons c) := by
  rw [List.splitOn_eq_splitOnP, List.splitOn_eq_splitOnP, List.splitOnP_cons_eq_if_modifyHead,
    if_neg (by simpa using hc)]

/-- A text without a line end goes to the first line. -/
theorem lines_append (ha : '\n' ∉ a) (r : Str) : (a ++ r).splitOn '\n' = (r.splitOn '\n').modifyHead (a ++ ·) := by
  induction a with
  | nil =>
    cases h : r.splitOn '\n' with
    | nil => exact h
    | cons x l => exact h
  | cons c a ih =>
    rw [List.mem_cons, not_or] at ha
    rw [List.cons_append, lines_cons (Ne.symm ha.1), ih ha.2, List.modifyHead_modifyHead]
    rfl

/-- A line that is no remote input, and none either behind or before another such text. -/
structure Quiet (s : Str) : Prop where
  shut : FencedAhead '(' s
  undirected : Undirected s

theorem Quiet.append (ha : Quiet a) (hr : Quiet r) : Quiet (a ++ r) :=
  ⟨ha.shut.append hr.shut, ha.undirected.append hr.undirected⟩

theorem quiet_nil : Quiet [] := ⟨fencedAhead_of_not_mem List.not_mem_nil, fun h => by cases h⟩

theorem Quiet.front (h : Quiet (a ++ r)) : Quiet a := ⟨h.shut.front, h.undirected.of_append⟩

theorem quiet_lines_append (ha : '\n' ∉ a) (hq : Quiet a) (hr : ∀ x ∈ r.splitOn '\n', Quiet x) :
    ∀ x ∈ (a ++ r).splitOn '\n', Quiet x := by
  rw [lines_append ha]
  cases h : r.splitOn '\n' with
  | nil => exact fun x hx => absurd hx List.not_mem_nil
  | cons head tail =>
    rw [h] at hr
    intro x hx
    rcases List.mem_cons.mp hx with rfl | hx
    · exact hq.append (hr head List.mem_cons_self)
    · exact hr x (List.mem_cons_of_mem _ hx)

theorem quiet_blank {c : Char} (hc : isspace c = true) : Quiet [c] := by
  refine ⟨fencedAhead_of_not_mem fun h => ?_, fun h => ?_⟩
  · rw [← List.mem_singleton.mp h] at hc
    exact absurd hc (by decide)
  · rw [List.dropWhile_cons, if_pos hc] at h
    cases h

theorem quiet_lines_gap (ha : ∀ x ∈ a, isspace x = true) (hr : ∀ x ∈ r.splitOn '\n', Quiet x) :
    ∀ x ∈ (a ++ r).splitOn '\n', Quiet x := by
  induction a with
  | nil => exact hr
  | cons c a ih =>
    have htail := ih fun x hx => ha x (List.mem_cons_of_mem c hx)
    by_cases hc : c = '\n'
    · subst hc
      rw [List.cons_append, lines_newline]
      intro x hx
      rcases List.mem_cons.mp hx with rfl | hx
      · exact quiet_nil
      · exact htail x hx
    · exact quiet_lines_append (a := [c]) (fun h => hc (List.mem_singleton.mp h).symm)
        (quiet_blank (ha c List.mem_cons_self)) htail

theorem undirected_cons {x : Char} (hblank : isspace x = false) (hx : x ≠ '$') (s : Str) : Undirected (x :: s) := by
  intro h
  rw [List.dropWhile_cons, if_neg (by rw [hblank]; exact Bool.false_ne_true)] at h
  exact hx (Option.some.inj h)

theorem Piece.Proper.quiet {p : Piece} (h : p.Proper) : Quiet p.text := by
  cases hword : p.isWord with
  | false =>
    obtain ⟨x, s, hs, hstop, hparen, hdollar, -⟩ := Piece.exists_head h hword
    rw [hs]
    exact ⟨fencedAhead_cons hstop hparen s, undirected_cons hstop.2 hdollar s⟩
  | true =>
    obtain ⟨text, rfl⟩ : ∃ text, p = .token (.word text) := by
      rcases p with (_ | _ | _ | _ | _) | _ <;> first | exact ⟨_, rfl⟩ | cases hword
    have hchar := Piece.word_char h
    obtain ⟨x, s, rfl⟩ := List.exists_cons_of_ne_nil h.1
    refine ⟨fencedAhead_of_not_mem fun hmem => absurd (hchar _ hmem).2 (by decide), ?_⟩
    refine undirected_cons (hchar x List.mem_cons_self).1 ?_ s
    rintro rfl
    exact absurd (hchar _ List.mem_cons_self).2 (by decide)

/-- **Every line of the pieces is quiet.** -/
theorem quiet_written : ∀ {body : List (Str × Piece)}, (∀ p ∈ body, p.2.Proper) →
    (∀ p ∈ body, ∀ x ∈ p.1, isspace x = true) → ∀ x ∈ (written body).splitOn '\n', Quiet x
  | [], _, _ => by
    intro x hx
    rw [List.mem_singleton.mp hx]
    exact quiet_nil
  | p :: body, hproper, hblank => by
    have hrest := quiet_written (fun q hq => hproper q (List.mem_cons_of_mem p hq)) fun q hq =>
      hblank q (List.mem_cons_of_mem p hq)
    have hhere := hproper p List.mem_cons_self
    rw [written, List.flatMap_cons, List.append_assoc]
    exact quiet_lines_gap (hblank p List.mem_cons_self) (quiet_lines_append (Piece.line hhere) hhere.quiet hrest)

/-- A quiet line is no remote input. -/
theorem Quiet.not_remote (h : Quiet a) : ¬RemoteLine a := by
  rw [remoteLine_iff]
  obtain ⟨r, hr⟩ := stripInlineComment_initial false false a
  generalize stripInlineComment false false a = t at hr
  subst hr
  have hno : ∀ {keyword : Str}, (∀ x ∈ keyword, isalpha x = true) → ¬Begins keyword (lower t) := by
    rintro keyword hkeyword ⟨b, c, w, heq, hb, hc⟩
    have hparen : '(' ∉ b ++ (keyword ++ c) := by
      simp only [List.mem_append, not_or]
      exact ⟨not_mem_blanks rfl hb, fun hmem => absurd (hkeyword _ hmem) (by decide), not_mem_blanks rfl hc⟩
    obtain ⟨x, hx, hletter, hblank⟩ := h.front.shut.lower rfl (b ++ (keyword ++ c)) w (by rw [heq]; simp) hparen
    rcases List.mem_append.mp hx with hx | hx
    · rw [hb x hx] at hblank
      cases hblank
    · rcases List.mem_append.mp hx with hx | hx
      · rw [hkeyword x hx] at hletter
        cases hletter
      · rw [hc x hx] at hblank
        cases hblank
  rintro (hdir | ⟨hmodule, -⟩ | ⟨hinput, -⟩)
  · exact h.front.undirected.not_directive hdir
  · exact hno (List.all_eq_true.mp rfl) hmodule
  · exact hno (List.all_eq_true.mp rfl) hinput

end Lines

/-! ## Blanks between pieces -/

section Between

variable {a g r : Str} {p q : Piece} {body : List (Str × Piece)}

/-- The text up to the end of a piece, behind which blanks are of no account. -/
structure Ready (a : Str) (p : Piece) : Prop where
  single : FencedBehind (Char.ofNat 39) a
  double : p.isWord = false → p.isQuoted = false → FencedBehind '"' a
  plain : Unassigned a
  last : ∃ a' x, a = a' ++ [x] ∧ isspace x = false ∧ (p.isWord = false → isalpha x = false) ∧
    (p ≠ .token (.mark '=') → x ≠ '=')

theorem ready_concat {x : Char} (hx : isalpha x = false ∧ isspace x = false) (hsingle : x ≠ Char.ofNat 39)
    (hdouble : p.isQuoted = false → x ≠ '"') (hvalue : p ≠ .token (.mark '=') → x ≠ '=') (a : Str) :
    Ready (a ++ [x]) p where
  single := fencedBehind_concat hx hsingle a
  double := fun _ hquoted => fencedBehind_concat hx (hdouble hquoted) a
  plain := unassigned_concat hx.1 a
  last := ⟨a, x, rfl, hx.2, fun _ => hx.1, hvalue⟩

/-- What an equals sign and blanks end in. -/
theorem last_assigned {b : Str} (hb : ∀ x ∈ b, isspace x = true) {c x : _} (h : r ++ '=' :: b = c ++ [x]) :
    x = '=' ∨ isspace x = true := by
  rcases List.eq_nil_or_concat b with rfl | ⟨b, y, rfl⟩
  · exact .inl (List.cons.inj (List.append_inj_right' h rfl)).1.symm
  · rw [List.concat_eq_append] at h hb
    have hsplit : (r ++ '=' :: b) ++ [y] = c ++ [x] := by rw [← h]; simp
    obtain rfl := (List.cons.inj (List.append_inj_right' hsplit rfl)).1
    exact .inr (hb y (by simp))

/-- A word behind what is no equals sign is not assigned. -/
theorem unassigned_word {x : Char} {text : Str} (hx : isspace x = false) (hne : x ≠ '=')
    (htext : ∀ y ∈ text, isspace y = false ∧ y ≠ '=') (a : Str) : Unassigned (a ++ [x] ++ ([' '] ++ text)) := by
  intro r b v hs hb hv hblank
  exfalso
  have hsplit : (a ++ [x] ++ [' ']) ++ text = (r ++ '=' :: b) ++ v := by
    rw [List.append_assoc, hs]
    simp
  -- the text in front of the blank does not end in an equals sign
  have hspace : r ++ '=' :: b ≠ a ++ [x] ++ [' '] := by
    intro h
    rcases List.eq_nil_or_concat b with rfl | ⟨b, y, rfl⟩
    · exact absurd (List.cons.inj (List.append_inj_right' h rfl)).1 (by decide)
    · rw [List.concat_eq_append] at h hb
      have h' : (r ++ '=' :: b) ++ [y] = (a ++ [x]) ++ [' '] := by rw [← h]; simp
      rcases last_assigned (fun z hz => hb z (by simp [hz])) (List.append_inj_left' h' rfl) with heq | hspace
      · exact hne heq
      · rw [hx] at hspace
        cases hspace
  rcases List.append_eq_append_iff.mp hsplit with ⟨c, hc, rfl⟩ | ⟨c, hc, rfl⟩
  · rcases List.eq_nil_or_concat c with rfl | ⟨c, y, rfl⟩
    · exact hspace (by rw [hc, List.append_nil])
    · rw [List.concat_eq_append, ← List.append_assoc] at hc
      have hy := htext y (by simp)
      rcases last_assigned hb hc with heq | hblank
      · exact hy.2 heq
      · rw [hy.1] at hblank
        cases hblank
  · rcases List.eq_nil_or_concat c with rfl | ⟨c, y, rfl⟩
    · exact hspace (by rw [hc, List.append_nil])
    · rw [List.concat_eq_append, ← List.append_assoc] at hc
      obtain rfl := (List.cons.inj (List.append_inj_right' hc rfl)).1
      exact absurd (hblank ' ' (by simp)) (by decide)

/-- **One more piece.** -/
theorem Ready.step (h : Ready a p) (hpq : p.Follows q) (hq : q.Proper) (hcomment : q.isComment = false)
    (hturn : ∀ text, q = .turn text → text.getLast? = some '(') : Ready (a ++ ([' '] ++ q.text)) q := by
  rcases q with (text | text | c | text | text) | text
  · have hchar := Piece.word_char hq
    obtain ⟨a', x, rfl, hx, -, hvalue⟩ := h.last
    have hne : x ≠ '=' := hvalue fun hp => by cases hpq.value hp
    have hplain : ∀ y ∈ text, isspace y = false ∧ y ≠ '=' := by
      intro y hy
      refine ⟨(hchar y hy).1, ?_⟩
      rintro rfl
      exact absurd (hchar _ hy).2 (by decide)
    have hquote : Char.ofNat 39 ∉ [' '] ++ text := by
      rw [List.mem_append, not_or]
      exact ⟨by decide, fun hy => absurd (hchar _ hy).2 (by decide)⟩
    obtain ⟨t, y, rfl⟩ := (List.eq_nil_or_concat text).resolve_left hq.1
    rw [List.concat_eq_append] at *
    have hy := hplain y (by simp)
    exact {
      single := h.single.append hquote
      double := fun hword => by cases hword
      plain := unassigned_word hx hne hplain a'
      last := ⟨a' ++ [x] ++ ([' '] ++ t), y, by simp [Piece.text, Token.text], hy.1, (fun hword => by cases hword),
        fun _ => hy.2⟩ }
  · have hlast : a ++ ([' '] ++ Piece.text (.token (.quoted text))) = (a ++ ([' '] ++ '"' :: text)) ++ ['"'] := by
      simp [Piece.text, Token.text]
    rw [hlast]
    exact ready_concat (by decide) (by decide) (fun h => by cases h) (fun _ => by decide) _
  · have hc : c = '=' ∨ c = ',' ∨ c = '[' ∨ c = ']' := by simpa [Piece.Proper, Token.Proper] using hq
    have hlast : a ++ ([' '] ++ Piece.text (.token (.mark c))) = (a ++ [' ']) ++ [c] := by
      simp [Piece.text, Token.text]
    rw [hlast]
    rcases hc with rfl | rfl | rfl | rfl
    · exact ready_concat (by decide) (by decide) (fun _ => by decide) (fun h => absurd rfl h) _
    · exact ready_concat (by decide) (by decide) (fun _ => by decide) (fun _ => by decide) _
    · exact ready_concat (by decide) (by decide) (fun _ => by decide) (fun _ => by decide) _
    · exact ready_concat (by decide) (by decide) (fun _ => by decide) (fun _ => by decide) _
  · cases hcomment
  · have hlast : a ++ ([' '] ++ Piece.text (.token (.remark text))) =
        (a ++ ([' '] ++ '/' :: '*' :: (text ++ ['*']))) ++ ['/'] := by
      simp [Piece.text, Token.text]
    rw [hlast]
    exact ready_concat (by decide) (by decide) (fun _ => by decide) (fun _ => by decide) _
  · obtain ⟨t, rfl⟩ := List.getLast?_eq_some_iff.mp (hturn text rfl)
    have hlast : a ++ ([' '] ++ Piece.text (.turn (t ++ ['(']))) = (a ++ ([' '] ++ ')' :: t)) ++ ['('] := by
      simp [Piece.text]
    rw [hlast]
    exact ready_concat (by decide) (by decide) (fun _ => by decide) (fun _ => by decide) _

theorem fencedAhead_written (hg : ∀ x ∈ g, isspace x = true) : ∀ {body : List (Str × Piece)} {q : Piece},
    (q :: body.map Prod.snd).IsChain Piece.Follows → q.Proper → (∀ p ∈ body, p.2.Proper) →
    (∀ p ∈ body, ∀ x ∈ p.1, isspace x = true) → q.isQuoted = false →
      FencedAhead '"' (q.text ++ (written body ++ g))
  | body, q, hchain, hq, hproper, hblank, hquoted => by
    cases hword : q.isWord with
    | false =>
      obtain ⟨x, s, hs, hstop, -, -, hne⟩ := Piece.exists_head hq hword
      rw [hs]
      exact fencedAhead_cons hstop (hne hquoted) _
    | true =>
      obtain ⟨text, rfl⟩ : ∃ text, q = .token (.word text) := by
        rcases q with (_ | _ | _ | _ | _) | _ <;> first | exact ⟨_, rfl⟩ | cases hword
      have hno : '"' ∉ text := fun hmem => absurd (Piece.word_char hq _ hmem).2 (by decide)
      refine (fencedAhead_of_not_mem hno).append ?_
      cases body with
      | nil => exact fencedAhead_of_not_mem (not_mem_blanks rfl hg)
      | cons p body =>
        obtain ⟨hfollows, hrest⟩ := List.isChain_cons_cons.mp hchain
        have hunquoted : p.2.isQuoted = false := by
          cases hp : p.2.isQuoted with
          | false => rfl
          | true => cases (hfollows.quoted hp).1
        rw [written, List.flatMap_cons, List.append_assoc, List.append_assoc]
        exact (fencedAhead_of_not_mem (not_mem_blanks rfl (hblank p List.mem_cons_self))).append
          (fencedAhead_written hg hrest (hproper p List.mem_cons_self)
            (fun p' hp => hproper p' (List.mem_cons_of_mem _ hp)) (fun p' hp => hblank p' (List.mem_cons_of_mem _ hp))
            hunquoted)

/-- No value reaches across the blanks between two pieces. -/
theorem Ready.free (h : Ready a p) (hg : ∀ x ∈ g, isspace x = true)
    (hchain : (p :: q :: body.map Prod.snd).IsChain Piece.Follows) (hq : q.Proper) (hproper : ∀ p ∈ body, p.2.Proper)
    (hblank : ∀ p ∈ body, ∀ x ∈ p.1, isspace x = true) : Free a (q.text ++ (written body ++ g)) where
  double := by
    obtain ⟨hfollows, hrest⟩ := List.isChain_cons_cons.mp hchain
    cases hquoted : q.isQuoted with
    | true =>
      obtain ⟨hword, hno⟩ := hfollows.quoted hquoted
      exact .inl (h.double hword hno)
    | false => exact .inr (fencedAhead_written hg hrest hq hproper hblank hquoted)
  single := .inl h.single
  plain := .inr h.plain

theorem Ready.gap {f : Str} (h : Ready a p) (hf : ∀ x ∈ f, isspace x = true) (hq : q.Proper)
    (hapart : p.isWord = true → q.isWord = true → f ≠ []) (s : Str) : Gap a (q.text ++ s) f where
  blank := hf
  word := by
    intro hnil x y hx hy hletter
    obtain ⟨a', z, rfl, -, hnoword, -⟩ := h.last
    rw [List.getLast?_concat] at hx
    obtain rfl := Option.some.inj hx
    cases hp : p.isWord with
    | false =>
      rw [hnoword hp] at hletter
      cases hletter
    | true =>
      cases hword : q.isWord with
      | true => exact absurd hnil (hapart hp hword)
      | false =>
        obtain ⟨w, s', hs, hstop, -⟩ := Piece.exists_head hq hword
        rw [hs] at hy
        obtain rfl := Option.some.inj hy
        exact hstop.1

/-- The pieces with one blank in front of each. -/
def spaced (ps : List Piece) : List (Str × Piece) := ps.map (Prod.mk [' '])

/-- **The blanks in front of the pieces of a line do not change whether it is remote input.** -/
theorem remoteLine_written (hg : ∀ x ∈ g, isspace x = true) : ∀ {body : List (Str × Piece)} {a f : Str} {p : Piece},
    ((f, p) :: body).IsChain Apart → (p :: body.map Prod.snd).IsChain Piece.Follows → (∀ q ∈ body, q.2.Proper) →
    (∀ q ∈ body, (∀ x ∈ q.1, isspace x = true) ∧ '\n' ∉ q.1) → '(' ∈ a → Undirected a → (body ≠ [] → Ready a p) →
      (RemoteLine (a ++ (written body ++ g)) ↔ RemoteLine (a ++ written (spaced (body.map Prod.snd))))
  | [], a, f, p, _, _, _, _, hparen, hdir, _ => by
    have hend := remoteLine_gap (b := []) hparen hdir free_nil_right (gap_nil_right hg)
      (gap_nil_right (g := []) fun x hx => absurd hx List.not_mem_nil)
    rw [List.append_nil, List.append_nil] at hend
    exact hend
  | (f', q) :: body, a, f, p, hapart, hchain, hproper, hblank, hparen, hdir, hready => by
    obtain ⟨hapart, hrest⟩ := List.isChain_cons_cons.mp hapart
    obtain ⟨hfollows, hnext⟩ := List.isChain_cons_cons.mp hchain
    have hhead : Ready a p := hready (List.cons_ne_nil _ _)
    have hq := hproper _ List.mem_cons_self
    have hproper' : ∀ p ∈ body, p.2.Proper := fun p hp => hproper p (List.mem_cons_of_mem _ hp)
    have hblank' : ∀ p ∈ body, (∀ x ∈ p.1, isspace x = true) ∧ '\n' ∉ p.1 := fun p hp =>
      hblank p (List.mem_cons_of_mem _ hp)
    -- the blanks in front of this piece
    have hhere : RemoteLine (a ++ (f' ++ (q.text ++ (written body ++ g)))) ↔
        RemoteLine (a ++ ([' '] ++ (q.text ++ (written body ++ g)))) :=
      remoteLine_gap hparen hdir (hhead.free hg hchain hq hproper' fun p hp => (hblank' p hp).1)
        (hhead.gap (hblank _ List.mem_cons_self).1 hq hapart.1 _)
        (hhead.gap (List.forall_mem_singleton.mpr rfl) hq (fun _ _ => List.cons_ne_nil _ _) _)
    -- the blanks behind it
    have hbehind := remoteLine_written hg (a := a ++ ([' '] ++ q.text)) hrest hnext hproper' hblank'
      (List.mem_append_left _ hparen) (hdir.front hparen rfl _) fun hne => by
        obtain ⟨⟨f'', q'⟩, body, rfl⟩ := List.exists_cons_of_ne_nil hne
        refine hhead.step hfollows hq ?_ (List.isChain_cons_cons.mp hnext).1.turn
        cases hcomment : q.isComment with
        | false => rfl
        | true =>
          have hhead := (List.isChain_cons_cons.mp hrest).1.2 hcomment
          exact absurd (List.mem_of_mem_head? hhead) (hblank' _ List.mem_cons_self).2
    have hleft : a ++ (written ((f', q) :: body) ++ g) = a ++ (f' ++ (q.text ++ (written body ++ g))) := by
      simp [written]
    have hright : a ++ written (spaced (((f', q) :: body).map Prod.snd)) =
        a ++ ([' '] ++ q.text) ++ written (spaced (body.map Prod.snd)) := by
      simp [written, spaced]
    have hmiddle : a ++ ([' '] ++ (q.text ++ (written body ++ g))) = a ++ ([' '] ++ q.text) ++ (written body ++ g) := by
      simp
    rw [hleft, hright, hhere, hmiddle]
    exact hbehind

end Between

end Rsyslog

end Seharden
