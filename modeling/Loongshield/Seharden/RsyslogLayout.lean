import Loongshield.Seharden.RsyslogPieces

/-!
# Layouts of rsyslog statements

A `module(...)` or `input(...)` statement may be broken anywhere between its parentheses, with comments in it, and other
text and other statements may stand behind it on its last line. The probe sees such a row in its first line only.

- `Statement`, `Row`, `Layout`: statements, what stands on their lines, and a way to write it;
- `Layout.quiet_rest`: no line but the first is remote input;
- `shown_iff`: when the first line of some layout is remote input.
-/

namespace Seharden

open Lua Pattern

namespace Rsyslog

/-! ## Statements -/

/-- A statement: the text in front of it on its line, its keyword, and what stands between the parentheses. -/
structure Statement where
  front : Str
  keyword : Str
  blanks : Str
  tokens : List Token
  front_line : '\n' ∉ front
  front_visible : Visible none front front
  known : lower keyword = "module" ∨ lower keyword = "input"
  blank : ∀ x ∈ blanks, isspace x = true ∧ x ≠ '\n'
  proper : ∀ t ∈ tokens, t.Proper
  follows : (tokens.map Piece.token).IsChain Piece.Follows

namespace Statement

/-- The line up to the parenthesis. -/
def opening (s : Statement) : Str := s.front ++ (s.keyword ++ (s.blanks ++ ['(']))

/-- The pieces that are neither comments nor remarks. -/
def code (s : Statement) : List Token := s.tokens.filter Token.isCode

/-- The statement loads `imtcp`, or starts a TCP input. -/
def Remote (s : Statement) : Prop :=
  ∃ before name value after, s.code = before ++ [.word name, .mark '=', .quoted value] ++ after ∧
    lower value = "imtcp" ∧
    (lower s.keyword = "module" ∧ lower name = "load" ∨ lower s.keyword = "input" ∧ lower name = "type")

end Statement

/-- A text begins neither a directive nor a statement, and ends in no letter. -/
structure Silent (front : Str) : Prop where
  directive : Undirected front
  statement : ¬Begins "module" (lower front) ∧ ¬Begins "input" (lower front)
  letter : ∀ x, front.getLast? = some x → isalpha x = false

/-- Statements, each behind the end of the one before, and the text behind the last of them. -/
structure Row where
  first : Statement
  more : List Statement
  tail : Str
  silent : Silent first.front
  tail_line : '\n' ∉ tail

/-- The ends of statements, each with the next statement. -/
def turns (tail : Str) : List Statement → List Piece
  | [] => [.turn tail]
  | s :: more => .turn s.opening :: (s.tokens.map .token ++ turns tail more)

namespace Row

/-- The pieces of a row behind its first parenthesis. -/
def pieces (r : Row) : List Piece := r.first.tokens.map .token ++ turns r.tail r.more

/-- A statement of the row loads `imtcp`, or starts a TCP input. -/
def Remote (r : Row) : Prop := ∃ s ∈ r.first :: r.more, s.Remote

end Row

/-- A way to write a row: what stands in front of each piece. Only there may be line ends. -/
structure Layout (r : Row) where
  body : List (Str × Piece)
  body_pieces : body.map Prod.snd = r.pieces
  blank : ∀ p ∈ body, ∀ x ∈ p.1, isspace x = true
  apart : body.IsChain Apart

namespace Layout

variable {r : Row}

def text (l : Layout r) : Str := r.first.opening ++ written l.body

/-- The lines. -/
def lines (l : Layout r) : List Str := l.text.splitOn '\n'

def firstLine (l : Layout r) : Str := l.lines.headD []

end Layout

/-- A beginning of the row, up to a place where the line may end, is remote input when it is written with a blank in
front of each piece. -/
def Row.Shown (r : Row) : Prop :=
  ∃ ps, ps <+: r.pieces ∧ ps.IsChain (fun p _ => p.isComment = false) ∧
    RemoteLine (r.first.opening ++ written (spaced ps))

/-! ## Rows -/

/-- A keyword begins with a letter. -/
theorem Statement.head_keyword (s : Statement) : ∃ x k, s.keyword = x :: k ∧ isspace x = false ∧ x ≠ '$' ∧
    isalpha x = true ∧ '\n' ∉ s.keyword ∧ '=' ∉ s.keyword := by
  have hletters : ∀ x ∈ s.keyword, isalpha x = true := by
    intro x hx
    have hmem : lowerChar x ∈ lower s.keyword := List.mem_map_of_mem hx
    have hall : ∀ y ∈ lower s.keyword, isalpha y = true := by
      rcases s.known with h | h
      · rw [h]
        exact List.all_eq_true.mp rfl
      · rw [h]
        exact List.all_eq_true.mp rfl
    exact isalpha_of_lowerChar (hall _ hmem)
  cases hk : s.keyword with
  | nil => rcases s.known with h | h <;> (rw [hk] at h; cases h)
  | cons x k =>
    rw [hk] at hletters
    have hx := hletters x List.mem_cons_self
    refine ⟨x, k, rfl, not_isspace_of_isalpha hx, ?_, hx, fun h => ?_, fun h => ?_⟩
    · rintro rfl
      exact absurd hx (by decide)
    · exact absurd (hletters _ h) (by decide)
    · exact absurd (hletters _ h) (by decide)

/-- The line up to the parenthesis ends nowhere else. -/
theorem Statement.opening_line (s : Statement) : '\n' ∉ s.opening := by
  obtain ⟨x, k, -, -, -, -, hline, -⟩ := s.head_keyword
  unfold opening
  simp only [List.mem_append, not_or]
  exact ⟨s.front_line, hline, fun h => (s.blank _ h).2 rfl, by decide⟩

theorem Statement.opening_concat (s : Statement) : s.opening = s.front ++ (s.keyword ++ s.blanks) ++ ['('] := by
  simp [Statement.opening]

theorem follows_turn (p : Piece) (hp : ∀ text, p ≠ .turn text) (text : Str) : p.Follows (.turn text) :=
  ⟨(fun h => by cases h), fun _ => rfl, fun t ht => absurd ht (hp t)⟩

theorem follows_opening (s : Statement) (q : Piece) : (Piece.turn s.opening).Follows q where
  quoted := fun _ => ⟨rfl, rfl⟩
  value := fun h => by cases h
  turn := by
    intro text htext
    rw [← Piece.turn.inj htext, s.opening_concat, List.getLast?_concat]

/-- The pieces of a statement, and what ends it. -/
theorem follows_tokens (s : Statement) {ps : List Piece} (hps : ps.IsChain Piece.Follows)
    (hhead : ∀ p ∈ ps.head?, ∃ text, p = .turn text) : (s.tokens.map Piece.token ++ ps).IsChain Piece.Follows := by
  refine s.follows.append hps fun p hp q hq => ?_
  obtain ⟨text, rfl⟩ := hhead q hq
  refine follows_turn p (fun t ht => ?_) text
  obtain ⟨token, -, rfl⟩ := List.mem_map.mp (List.mem_of_mem_getLast? hp)
  cases ht

theorem head_turns (tail : Str) (more : List Statement) : ∀ p ∈ (turns tail more).head?, ∃ text, p = .turn text := by
  intro p hp
  cases more with
  | nil => exact ⟨tail, (Option.some.inj hp).symm⟩
  | cons s more => exact ⟨s.opening, (Option.some.inj hp).symm⟩

theorem follows_turns (tail : Str) : ∀ more : List Statement, (turns tail more).IsChain Piece.Follows
  | [] => List.isChain_singleton _
  | s :: more => List.isChain_cons.mpr
    ⟨fun q _ => follows_opening s q, follows_tokens s (follows_turns tail more) (head_turns tail more)⟩

theorem proper_turns {tail : Str} (htail : '\n' ∉ tail) : ∀ more : List Statement, ∀ p ∈ turns tail more, p.Proper
  | [], p, hp => by
    rw [List.mem_singleton.mp hp]
    exact htail
  | s :: more, p, hp => by
    rcases List.mem_cons.mp hp with rfl | hp
    · exact s.opening_line
    · rcases List.mem_append.mp hp with hp | hp
      · obtain ⟨t, ht, rfl⟩ := List.mem_map.mp hp
        exact s.proper t ht
      · exact proper_turns htail more p hp

namespace Row

variable (r : Row)

theorem proper : ∀ p ∈ r.pieces, p.Proper := by
  intro p hp
  rcases List.mem_append.mp hp with hp | hp
  · obtain ⟨t, ht, rfl⟩ := List.mem_map.mp hp
    exact r.first.proper t ht
  · exact proper_turns r.tail_line r.more p hp

theorem follows : (Piece.turn r.first.opening :: r.pieces).IsChain Piece.Follows :=
  List.isChain_cons.mpr ⟨fun q _ => follows_opening r.first q,
    follows_tokens r.first (follows_turns r.tail r.more) (head_turns r.tail r.more)⟩

theorem ready : Ready r.first.opening (.turn r.first.opening) := by
  have h := ready_concat (p := .turn r.first.opening) (x := '(') (by decide) (by decide) (fun _ => by decide)
    (fun _ => by decide) (r.first.front ++ (r.first.keyword ++ r.first.blanks))
  rwa [← r.first.opening_concat] at h

theorem undirected : Undirected r.first.opening := by
  obtain ⟨x, k, hk, hblank, hdollar, -⟩ := r.first.head_keyword
  refine r.silent.directive.append ?_
  rw [hk]
  exact undirected_cons hblank hdollar _

theorem parenthesis : '(' ∈ r.first.opening := by
  rw [r.first.opening_concat]
  exact List.mem_append_right _ List.mem_cons_self

end Row

/-! ## First lines -/

theorem headD_modifyHead {f : Str → Str} {l : List Str} (hl : l ≠ []) : (l.modifyHead f).headD [] = f (l.headD []) := by
  obtain ⟨x, l, rfl⟩ := List.exists_cons_of_ne_nil hl
  rfl

/-- The first line of pieces ends in the blanks in front of one of them. -/
theorem headD_written : ∀ {body : List (Str × Piece)}, (∀ p ∈ body, p.2.Proper) →
    (∀ p ∈ body, ∀ x ∈ p.1, isspace x = true) → ∃ front rest g, body = front ++ rest ∧ (∀ p ∈ front, '\n' ∉ p.1) ∧
      (∀ x ∈ g, isspace x = true) ∧ ((written body).splitOn '\n').headD [] = written front ++ g
  | [], _, _ => ⟨[], [], [], rfl, fun p hp => absurd hp List.not_mem_nil, fun x hx => absurd hx List.not_mem_nil, rfl⟩
  | p :: body, hproper, hblank => by
    have hp := hblank p List.mem_cons_self
    have htext : written (p :: body) = p.1 ++ (p.2.text ++ written body) := by simp [written]
    rw [htext]
    by_cases hline : '\n' ∈ p.1
    · obtain ⟨u, w, hsplit, hu⟩ := List.eq_append_cons_of_mem hline
      refine ⟨[], p :: body, u, rfl, fun p hp => absurd hp List.not_mem_nil, fun x hx => hp x (by simp [hsplit, hx]),
        ?_⟩
      rw [hsplit, List.append_assoc, lines_append hu, List.cons_append, lines_newline]
      exact List.append_nil u
    · obtain ⟨front, rest, g, rfl, hfront, hg, hhead⟩ :=
        headD_written (fun q hq => hproper q (List.mem_cons_of_mem p hq))
        fun q hq => hblank q (List.mem_cons_of_mem p hq)
      refine ⟨p :: front, rest, g, rfl, fun q hq => ?_, hg, ?_⟩
      · rcases List.mem_cons.mp hq with rfl | hq
        · exact hline
        · exact hfront q hq
      · have hno : '\n' ∉ p.1 ++ p.2.text := by
          rw [List.mem_append, not_or]
          exact ⟨hline, Piece.line (hproper p List.mem_cons_self)⟩
        rw [← List.append_assoc, lines_append hno, headD_modifyHead (List.splitOn_ne_nil _ _), hhead]
        simp [written]

namespace Layout

variable {r : Row} (l : Layout r)

theorem proper : ∀ p ∈ l.body, p.2.Proper := by
  intro p hp
  refine r.proper p.2 ?_
  rw [← l.body_pieces]
  exact List.mem_map_of_mem hp

/-- **No line but the first is remote input.** -/
theorem quiet_rest : ∃ rest, l.lines = l.firstLine :: rest ∧ ∀ x ∈ rest, Quiet x := by
  have hsplit : l.lines = ((written l.body).splitOn '\n').modifyHead (r.first.opening ++ ·) :=
    lines_append r.first.opening_line _
  have hquiet := quiet_written l.proper l.blank
  unfold firstLine
  rw [hsplit]
  cases h : (written l.body).splitOn '\n' with
  | nil => exact absurd h (List.splitOn_ne_nil _ _)
  | cons x rest =>
    rw [h] at hquiet
    exact ⟨rest, rfl, fun y hy => hquiet y (List.mem_cons_of_mem _ hy)⟩

theorem firstLine_eq : ∃ front rest g, l.body = front ++ rest ∧ (∀ p ∈ front, '\n' ∉ p.1) ∧
    (∀ x ∈ g, isspace x = true) ∧ l.firstLine = r.first.opening ++ (written front ++ g) := by
  obtain ⟨front, rest, g, hbody, hfront, hg, hhead⟩ := headD_written l.proper l.blank
  refine ⟨front, rest, g, hbody, hfront, hg, ?_⟩
  rw [← hhead, firstLine, lines, text, lines_append r.first.opening_line,
    headD_modifyHead (List.splitOn_ne_nil _ _)]

/-- On one line no comment stands in front of another piece. -/
theorem uncommented {p q : Str × Piece} (h : Apart p q) (hq : '\n' ∉ q.1) : p.2.isComment = false := by
  cases hcomment : p.2.isComment with
  | false => rfl
  | true => exact absurd (List.mem_of_mem_head? (h.2 hcomment)) hq

/-- A beginning of the row that is the first line of a layout. -/
theorem shown_of_firstLine (h : RemoteLine l.firstLine) : r.Shown := by
  obtain ⟨front, rest, g, hbody, hfront, hg, hline⟩ := l.firstLine_eq
  have hpieces : front.map Prod.snd <+: r.pieces := by
    rw [← l.body_pieces, hbody, List.map_append]
    exact List.prefix_append _ _
  have hmem : ∀ p ∈ front, p ∈ l.body := fun p hp => by
    rw [hbody]
    exact List.mem_append_left _ hp
  have hapart : front.IsChain Apart := by
    have := l.apart
    rw [hbody] at this
    exact this.left_of_append
  refine ⟨front.map Prod.snd, hpieces, ?_, ?_⟩
  · rw [List.isChain_map]
    exact hapart.imp_of_mem_tail_imp fun p q _ hq h => uncommented h (hfront q (List.mem_of_mem_tail hq))
  · have hopening : (([], Piece.turn r.first.opening) :: front).IsChain Apart :=
      List.isChain_cons.mpr ⟨fun q _ => ⟨(fun h => by cases h), fun h => by cases h⟩, hapart⟩
    have hfollows : (Piece.turn r.first.opening :: front.map Prod.snd).IsChain Piece.Follows :=
      r.follows.prefix (List.cons_prefix_cons.mpr ⟨rfl, hpieces⟩)
    rw [hline] at h
    exact (remoteLine_written hg hopening hfollows (fun p hp => l.proper p (hmem p hp))
      (fun p hp => ⟨l.blank p (hmem p hp), hfront p hp⟩) r.parenthesis r.undirected fun _ => r.ready).mp h

end Layout

/-- Behind a line end. -/
theorem apart_newline (p : Str × Piece) (q : Piece) : Apart p (['\n'], q) :=
  ⟨fun _ _ => List.cons_ne_nil _ _, fun _ => rfl⟩

theorem apart_spaced {ps : List Piece} (h : ps.IsChain fun p _ => p.isComment = false) :
    (spaced ps).IsChain Apart := by
  refine (List.isChain_map _).mpr (h.imp fun p q hp => ⟨fun _ _ => List.cons_ne_nil _ _, fun hcomment => ?_⟩)
  rw [hp] at hcomment
  cases hcomment

theorem line_spaced {ps : List Piece} (h : ∀ p ∈ ps, p.Proper) : '\n' ∉ written (spaced ps) := by
  intro hmem
  obtain ⟨p, hp, hin⟩ := List.mem_flatMap.mp hmem
  obtain ⟨q, hq, rfl⟩ := List.mem_map.mp hp
  rcases List.mem_append.mp hin with hin | hin
  · cases List.mem_singleton.mp hin
  · exact Piece.line (h q hq) hin

/-- A beginning of a row on the first line, and every other piece on a line of its own. -/
def Row.cut (r : Row) (ps qs : List Piece) (h : r.pieces = ps ++ qs) (hps : ps.IsChain fun p _ => p.isComment = false) :
    Layout r where
  body := spaced ps ++ qs.map (Prod.mk ['\n'])
  body_pieces := by
    rw [List.map_append, spaced, List.map_map, List.map_map, h]
    exact congrArg₂ _ (List.map_id _) (List.map_id _)
  blank := by
    intro p hp x hx
    rcases List.mem_append.mp hp with hp | hp
    · obtain ⟨q, -, rfl⟩ := List.mem_map.mp hp
      rw [List.mem_singleton.mp hx]
      rfl
    · obtain ⟨q, -, rfl⟩ := List.mem_map.mp hp
      rw [List.mem_singleton.mp hx]
      rfl
  apart := by
    refine (apart_spaced hps).append ?_ fun p _ q hq => ?_
    · exact (List.isChain_map _).mpr (List.Pairwise.isChain (List.pairwise_of_forall fun p q => apart_newline _ q))
    · obtain ⟨q', -, rfl⟩ := List.mem_map.mp (List.mem_of_mem_head? hq)
      exact apart_newline p q'

theorem firstLine_cut {r : Row} {ps qs : List Piece} (h : r.pieces = ps ++ qs)
    (hps : ps.IsChain fun p _ => p.isComment = false) :
    (r.cut ps qs h hps).firstLine = r.first.opening ++ written (spaced ps) := by
  have hproper : ∀ p ∈ ps, p.Proper := fun p hp => r.proper p (by rw [h]; exact List.mem_append_left _ hp)
  have hrest : ((written (qs.map (Prod.mk ['\n']))).splitOn '\n').headD [] = [] := by
    cases qs with
    | nil => rfl
    | cons q qs =>
      have htext : written ((q :: qs).map (Prod.mk ['\n'])) =
          '\n' :: (q.text ++ written (qs.map (Prod.mk ['\n']))) := by
        simp [written]
      rw [htext, lines_newline]
      rfl
  have htext : (r.cut ps qs h hps).text =
      (r.first.opening ++ written (spaced ps)) ++ written (qs.map (Prod.mk ['\n'])) := by
    simp [Layout.text, Row.cut, written]
  have hline : '\n' ∉ r.first.opening ++ written (spaced ps) := by
    rw [List.mem_append, not_or]
    exact ⟨r.first.opening_line, line_spaced hproper⟩
  rw [Layout.firstLine, Layout.lines, htext, lines_append hline, headD_modifyHead (List.splitOn_ne_nil _ _), hrest,
    List.append_nil]

/-- **Some layout of a row is remote input in its first line exactly if a beginning of the row is.** -/
theorem shown_iff (r : Row) : r.Shown ↔ ∃ l : Layout r, RemoteLine l.firstLine := by
  constructor
  · rintro ⟨ps, ⟨qs, h⟩, hps, hremote⟩
    refine ⟨r.cut ps qs h.symm hps, ?_⟩
    rwa [firstLine_cut]
  · rintro ⟨l, h⟩
    exact l.shown_of_firstLine h

/-- The row broken behind its first parenthesis, and everywhere else. -/
def Row.broken (r : Row) : Layout r := r.cut [] r.pieces rfl (List.isChain_nil)

/-- A silent text in front of a word begins no statement. -/
theorem not_begins {f w keyword : Str} {y : Char} (hnot : ¬Begins keyword f) (hne : ¬∀ x ∈ f, isspace x = true)
    (hlast : ∀ x, f.getLast? = some x → isalpha x = false) (hy : isalpha y = true)
    (hkeyword : ∀ x ∈ keyword, isalpha x = true) : ¬Begins keyword (f ++ y :: w) := by
  rintro ⟨b, c, r, heq, hb, hc⟩
  rcases List.append_eq_append_iff.mp heq with ⟨d, rfl, -⟩ | ⟨d, rfl, hd⟩
  · exact hne fun x hx => hb x (List.mem_append_left d hx)
  · rcases List.append_eq_append_iff.mp hd with ⟨e, rfl, he⟩ | ⟨e, rfl, -⟩
    · -- the keyword stands in the text
      rcases List.append_eq_append_iff.mp he with ⟨u, rfl, hu⟩ | ⟨u, rfl, hu⟩
      · cases u with
        | nil =>
          obtain rfl := (List.cons.inj hu).1
          exact absurd hy (by decide)
        | cons z u =>
          obtain rfl := (List.cons.inj hu).1
          exact hnot ⟨b, c, u, rfl, hb, hc⟩
      · have hblank : y = '(' ∨ isspace y = true := by
          cases u with
          | nil => exact .inl (List.cons.inj hu).1
          | cons z u => exact .inr (hc y (by rw [(List.cons.inj hu).1]; simp))
        rcases hblank with rfl | hblank
        · exact absurd hy (by decide)
        · rw [not_isspace_of_isalpha hy] at hblank
          cases hblank
    · -- the text ends in a part of the keyword
      rcases List.eq_nil_or_concat d with rfl | ⟨d, z, rfl⟩
      · exact hne (by rwa [List.append_nil])
      · have hletter := hkeyword z (by simp)
        rw [hlast z (by rw [List.concat_eq_append, ← List.append_assoc, List.getLast?_concat])] at hletter
        cases hletter

theorem not_assigns {key s : Str} (h : '=' ∉ s) : ¬Assigns key s := by
  rintro ⟨v, hv, -⟩
  have hnone : ∀ read, firstValue read key s = none := by
    intro read
    refine List.findSome?_eq_none_iff.mpr fun t ht => ?_
    have hkey : behindKey key t = none := if_neg fun hin => by
      have hmem := List.mem_of_mem_head? hin.2
      have hsub := (List.dropWhile_sublist isspace).subset hmem
      exact h (((List.mem_tails t s).mp ht).subset (List.mem_of_mem_drop hsub))
    rw [hkey]
    rfl
  rw [assigned, hnone, hnone, hnone] at hv
  cases hv

/-- Its first line is no remote input. -/
theorem broken_hidden (r : Row) : ¬RemoteLine r.broken.firstLine := by
  have hline : r.broken.firstLine = r.first.opening := by
    rw [Row.broken, firstLine_cut]
    exact List.append_nil _
  obtain ⟨x, k, hk, -, -, hletter, -, heq⟩ := r.first.head_keyword
  rw [hline, remoteLine_iff]
  obtain ⟨t, ht⟩ := stripInlineComment_initial false false r.first.opening
  generalize stripInlineComment false false r.first.opening = u at ht
  have hundirected : Undirected u := Undirected.of_append (b := t) (by rw [ht]; exact r.undirected)
  by_cases hblank : ∀ x ∈ r.first.front, isspace x = true
  · -- nothing is assigned in front of the parenthesis
    have hno : '=' ∉ lower u := by
      rw [mem_lower rfl]
      intro hmem
      have hmem : '=' ∈ r.first.opening := by
        rw [← ht]
        exact List.mem_append_left t hmem
      simp only [Statement.opening, List.mem_append, List.mem_singleton] at hmem
      rcases hmem with h | h | h | h
      · exact not_mem_blanks rfl hblank h
      · exact heq h
      · exact not_mem_blanks rfl (fun y hy => (r.first.blank y hy).1) h
      · cases h
    rintro (hdir | ⟨-, h⟩ | ⟨-, h⟩)
    · exact hundirected.not_directive hdir
    · exact not_assigns hno h
    · exact not_assigns hno h
  · -- no statement begins at the front of the line
    have hno : ∀ {keyword : Str}, (∀ x ∈ keyword, isalpha x = true) → ¬Begins keyword (lower r.first.front) →
        ¬Begins keyword (lower u) := by
      rintro keyword hkeyword hnot ⟨b, c, w, hu, hb, hc⟩
      have hlast : ∀ z, (lower r.first.front).getLast? = some z → isalpha z = false := by
        intro z hz
        rw [lower, List.getLast?_map] at hz
        obtain ⟨d, hd, rfl⟩ := Option.map_eq_some_iff.mp hz
        have hletter := r.silent.letter d hd
        rw [(lowerChar_eq_iff hletter).mpr rfl]
        exact hletter
      have hlower : lower r.first.opening =
          lower r.first.front ++ lowerChar x :: lower (k ++ (r.first.blanks ++ ['('])) := by
        rw [Statement.opening, hk]
        simp [lower]
      have hopening : Begins keyword (lower r.first.opening) :=
        ⟨b, c, w ++ lower t, by rw [← ht]; simp [lower] at hu ⊢; simp [hu], hb, hc⟩
      rw [hlower] at hopening
      refine not_begins hnot (fun h => hblank (isspace_of_lower h)) hlast ?_ hkeyword hopening
      by_cases hupper : 'A' ≤ x ∧ x ≤ 'Z'
      · exact isalpha_lowerChar hupper
      · rw [lowerChar, if_neg hupper]
        exact hletter
    rintro (hdir | ⟨h, -⟩ | ⟨h, -⟩)
    · exact hundirected.not_directive hdir
    · exact hno (List.all_eq_true.mp rfl) r.silent.statement.1 h
    · exact hno (List.all_eq_true.mp rfl) r.silent.statement.2 h

end Rsyslog

end Seharden
