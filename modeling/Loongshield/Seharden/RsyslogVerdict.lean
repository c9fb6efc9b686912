import Mathlib.Algebra.Order.BigOperators.Group.List
import Loongshield.Seharden.RsyslogLayout

/-!
# The verdict on remote input, in every layout

- `Config`: files made of rows of statements and of other lines;
- `LayoutFree`: the verdict is the same for every layout, and no remote input is missed;
- `layout_verdict_iff`: when the verdict is about the statements.
-/

namespace Seharden

open Lua Pattern

namespace Rsyslog

/-! ## Configurations -/

/-- A line outside the rows, or a row that is written somehow. -/
inductive Entry
  | line (text : Str)
  | row (r : Row) (l : Layout r)

namespace Entry

/-- The entry without its layout. -/
def item : Entry → Str ⊕ Row
  | .line text => .inl text
  | .row r _ => .inr r

def lines : Entry → List Str
  | .line text => [text]
  | .row _ l => l.lines

/-- The entry is active remote input: a directive in front of its comment, or a statement. -/
def Remote : Entry → Prop
  | .line text => ∃ visible, Visible none text visible ∧ Directive (lower visible)
  | .row r _ => r.Remote

end Entry

/-- The files there are, or the errors of `io.open`. -/
abbrev Config := Str → Except Str (List Entry)

/-- What the probe sees of the files. -/
def Config.view (config : Config) (view : View) : View :=
  { view with lines := fun path => (config path).map (List.flatMap Entry.lines) }

/-- The two configurations differ in the layout of their rows only. -/
def Config.Reflows (config config' : Config) : Prop :=
  ∀ path, (config' path).map (List.map Entry.item) = (config path).map (List.map Entry.item)

/-- An entry of a file. -/
def Config.Has (config : Config) (files : List Str) (e : Entry) : Prop :=
  ∃ path ∈ files, ∃ entries, config path = .ok entries ∧ e ∈ entries

/-- All files can be read. -/
def Config.Readable (config : Config) (files : List Str) : Prop := ∀ path ∈ files, ∃ entries, config path = .ok entries

/-- The verdict on remote input is the same for every layout, and nothing remote is active if it finds none. -/
def LayoutFree (view : View) (config : Config) (params : Params) : Prop :=
  (∀ config', config.Reflows config' →
    (inspectRsyslogEffectiveConfig (config'.view view) params).map Report.verdict =
      (inspectRsyslogEffectiveConfig (config.view view) params).map Report.verdict) ∧
  ∀ report files, inspectRsyslogEffectiveConfig (config.view view) params = .ok report →
    expandConfigPaths view params.paths = .ok files → report.available = true → report.remoteInputEnabled = false →
    ∀ e, config.Has files e → ¬e.Remote

/-- No beginning of a row is remote input, and a remote statement in one stands beside a line that is. -/
def RowsHidden (view : View) (config : Config) (params : Params) : Prop :=
  ∀ files, expandConfigPaths view params.paths = .ok files → config.Readable files →
    (∀ r l, config.Has files (.row r l) → ¬r.Shown) ∧
    ((∃ r l, config.Has files (.row r l) ∧ r.Remote) → ∃ text, config.Has files (.line text) ∧ RemoteLine text)

/-! ## What the files show -/

/-- What an entry shows. -/
def entryInputs (path : Str) (e : Entry) : List (Str × Str) :=
  e.lines.filterMap fun line => (inspectLine line).remoteInputType.map (Prod.mk path)

theorem remoteInput_eq_none_iff {line : Str} : (inspectLine line).remoteInputType = none ↔ ¬RemoteLine line := by
  rw [← inspectLine_iff, Bool.not_eq_true, Option.isSome_eq_false_iff, Option.isNone_iff_eq_none]

/-- **What a written row shows is what its first line shows.** -/
theorem entryInputs_row (path : Str) {r : Row} (l : Layout r) : entryInputs path (.row r l) =
    ((inspectLine l.firstLine).remoteInputType.map (Prod.mk path)).toList := by
  obtain ⟨rest, hlines, hquiet⟩ := l.quiet_rest
  have hrest : rest.filterMap (fun line => (inspectLine line).remoteInputType.map (Prod.mk path)) = [] := by
    rw [List.filterMap_eq_nil_iff]
    intro x hx
    rw [remoteInput_eq_none_iff.mpr (hquiet x hx).not_remote]
    rfl
  show l.lines.filterMap (fun line => (inspectLine line).remoteInputType.map (Prod.mk path)) = _
  rw [hlines, List.filterMap_cons, hrest]
  cases (inspectLine l.firstLine).remoteInputType with
  | none => rfl
  | some t => rfl

theorem entryInputs_hidden {path : Str} {r : Row} {l : Layout r} (h : ¬RemoteLine l.firstLine) :
    entryInputs path (.row r l) = [] := by
  rw [entryInputs_row, remoteInput_eq_none_iff.mpr h]
  rfl

theorem entryInputs_line {path text : Str} : entryInputs path (.line text) ≠ [] ↔ RemoteLine text := by
  rw [← not_iff_not, not_not, ← remoteInput_eq_none_iff]
  show ([text].filterMap fun line => (inspectLine line).remoteInputType.map (Prod.mk path)) = [] ↔ _
  rw [List.filterMap_cons]
  cases (inspectLine text).remoteInputType with
  | none => exact iff_of_true rfl rfl
  | some t => exact iff_of_false (List.cons_ne_nil _ _) (Option.some_ne_none t)

theorem fileInputs_view (config : Config) (view : View) (path : Str) : fileInputs (config.view view) path =
    (config path).toOption.map (List.flatMap (entryInputs path)) := by
  show ((config path).map (List.flatMap Entry.lines)).toOption.map _ = _
  cases config path with
  | error err => rfl
  | ok entries => exact congrArg some (List.filterMap_flatMap ..)

theorem expandConfigPaths_view (config : Config) (view : View) (paths : Option (List Str)) :
    expandConfigPaths (config.view view) paths = expandConfigPaths view paths := by
  unfold expandConfigPaths
  rw [@expandFiles_congr (config.view view) view rfl rfl]

/-- The entries of a file, if it can be read. -/
def Config.entries (config : Config) (path : Str) : List Entry := (config path).toOption.getD []

section Shown

variable {config config' : Config} {view : View} {files : List Str}

theorem shown_of_readable (h : config.Readable files) (hne : files ≠ []) : shownInputs (config.view view) files =
    some (files.flatMap fun path => (config.entries path).flatMap (entryInputs path)) := by
  have hmap : ∀ files : List Str, config.Readable files → files.mapM (fileInputs (config.view view)) =
      some (files.map fun path => (config.entries path).flatMap (entryInputs path)) := by
    intro files
    induction files with
    | nil => exact fun _ => rfl
    | cons path files ih =>
      intro h
      obtain ⟨entries, hentries⟩ := h path List.mem_cons_self
      rw [List.mapM_cons, fileInputs_view, hentries, ih fun p hp => h p (List.mem_cons_of_mem path hp), List.map_cons,
        Config.entries, hentries]
      rfl
  rw [shownInputs, if_neg hne, hmap files h]
  exact congrArg some (List.flatMap_def ..).symm

theorem shown_of_unreadable (h : ¬config.Readable files) : shownInputs (config.view view) files = none := by
  have hmap : ∀ files : List Str, ¬config.Readable files → files.mapM (fileInputs (config.view view)) = none := by
    intro files
    induction files with
    | nil => exact fun h => absurd (fun p hp => absurd hp List.not_mem_nil) h
    | cons path files ih =>
      intro h
      rw [List.mapM_cons, fileInputs_view]
      cases hpath : config path with
      | error err => rfl
      | ok entries =>
        rw [ih]
        · rfl
        · intro hread
          refine h fun p hp => ?_
          rcases List.mem_cons.mp hp with rfl | hp
          · exact ⟨entries, hpath⟩
          · exact hread p hp
  unfold shownInputs
  split
  · rfl
  · rw [hmap files h]
    rfl

/-- The files that a reflowed configuration has. -/
theorem Config.Reflows.ok (h : config.Reflows config') {path : Str} {entries' : List Entry}
    (hpath : config' path = .ok entries') :
    ∃ entries, config path = .ok entries ∧ entries'.map Entry.item = entries.map Entry.item := by
  have hitems := h path
  rw [hpath] at hitems
  cases hconfig : config path with
  | error err =>
    rw [hconfig] at hitems
    cases hitems
  | ok entries =>
    rw [hconfig] at hitems
    exact ⟨entries, rfl, Except.ok.inj hitems⟩

theorem Config.Reflows.entries (h : config.Reflows config') (path : Str) :
    (config'.entries path).map Entry.item = (config.entries path).map Entry.item := by
  have hitems := h path
  unfold Config.entries
  cases hpath' : config' path with
  | error err' =>
    cases hpath : config path with
    | error err => rfl
    | ok entries =>
      rw [hpath', hpath] at hitems
      cases hitems
  | ok entries' =>
    obtain ⟨entries, hentries, hsame⟩ := h.ok hpath'
    rw [hentries]
    exact hsame

theorem Config.Reflows.readable (h : config.Reflows config') (hread : config.Readable files) :
    config'.Readable files := by
  intro path hpath
  obtain ⟨entries, hentries⟩ := hread path hpath
  have hitems := h path
  rw [hentries] at hitems
  cases hconfig : config' path with
  | error err =>
    rw [hconfig] at hitems
    cases hitems
  | ok entries' => exact ⟨entries', rfl⟩

/-- Every entry of a configuration written another way. -/
def Config.rewrite (config : Config) (f : Entry → Entry) : Config := fun path => (config path).map (List.map f)

theorem reflows_rewrite {f : Entry → Entry} (hf : ∀ e, (f e).item = e.item) (config : Config) :
    config.Reflows (config.rewrite f) := by
  intro path
  unfold Config.rewrite
  cases config path with
  | error err => rfl
  | ok entries =>
    refine congrArg Except.ok ?_
    rw [List.map_map]
    exact List.map_congr_left fun e _ => hf e

theorem entries_rewrite (f : Entry → Entry) (config : Config) (path : Str) :
    (config.rewrite f).entries path = (config.entries path).map f := by
  show ((config path).map (List.map f)).toOption.getD [] = ((config path).toOption.getD []).map f
  cases config path <;> rfl

end Shown

/-! ## The verdict on every layout -/

/-- The entry with every row broken. -/
def Entry.broken : Entry → Entry
  | .line text => .line text
  | .row r _ => .row r r.broken

section Verdict

variable {view : View} {config : Config} {params : Params} {files : List Str}

/-- The verdict on a configuration. -/
theorem verdict_eq (hfiles : expandConfigPaths view params.paths = .ok files) (config : Config) :
    (inspectRsyslogEffectiveConfig (config.view view) params).map Report.verdict =
      .ok (verdictOf (shownInputs (config.view view) files)) := by
  rw [remote_verdict, expandConfigPaths_view, hfiles]
  rfl

theorem verdictOf_some_inj {inputs inputs' : List (Str × Str)}
    (h : verdictOf (some inputs) = verdictOf (some inputs')) :
    inputs = inputs' := congrArg Verdict.remoteInputs h

theorem mem_entries {path : Str} {entries : List Entry} (h : config path = .ok entries) :
    config.entries path = entries := by
  rw [Config.entries, h]
  rfl

/-- More is shown where one entry shows more and none shows less. -/
theorem shown_lt {f g : Entry → Entry} (hle : ∀ path e,
      (entryInputs path (f e)).length ≤ (entryInputs path (g e)).length)
    {e : Entry} (hhas : config.Has files e)
    (hlt : ∀ path, (entryInputs path (f e)).length < (entryInputs path (g e)).length) :
    (files.flatMap fun path => ((config.rewrite f).entries path).flatMap (entryInputs path)).length <
      (files.flatMap fun path => ((config.rewrite g).entries path).flatMap (entryInputs path)).length := by
  have hfile : ∀ (h : Entry → Entry) path, (((config.rewrite h).entries path).flatMap (entryInputs path)).length =
      ((config.entries path).map fun e => (entryInputs path (h e)).length).sum := by
    intro h path
    rw [entries_rewrite, List.flatMap_map, List.length_flatMap]
  obtain ⟨path, hpath, entries, hentries, hmem⟩ := hhas
  rw [List.length_flatMap, List.length_flatMap]
  simp only [hfile]
  refine List.sum_lt_sum _ _ (fun p _ => List.sum_le_sum fun e _ => hle p e) ⟨path, hpath, ?_⟩
  refine List.sum_lt_sum _ _ (fun e _ => hle path e) ⟨e, ?_, hlt path⟩
  rw [mem_entries hentries]
  exact hmem

/-- A row that is remote input in a first line: it is shown in one of the layouts and hidden in another. -/
theorem hidden_of_layoutFree (hfiles : expandConfigPaths view params.paths = .ok files) (hread : config.Readable files)
    (hfree : LayoutFree view config params) {r : Row} {l : Layout r} (hhas : config.Has files (.row r l)) :
    ¬r.Shown := by
  intro hshown
  obtain ⟨l', hl'⟩ := (shown_iff r).mp hshown
  have hne : files ≠ [] := by
    obtain ⟨path, hpath, -⟩ := hhas
    exact List.ne_nil_of_mem hpath
  have hbroken : ∀ e : Entry, e.broken.item = e.item := by
    intro e
    cases e <;> rfl
  -- this row written so that its first line shows
  obtain ⟨shown, hself, hother⟩ : ∃ shown : Entry → Entry, (∀ l : Layout r, shown (.row r l) = .row r l') ∧
      ∀ e, e.item ≠ .inr r → shown e = e.broken := by
    classical
    exact ⟨fun e => if e.item = .inr r then .row r l' else e.broken, fun l => if_pos rfl, fun e he => if_neg he⟩
  have hitem : ∀ e, (shown e).item = e.item := by
    intro e
    by_cases he : e.item = .inr r
    · cases e with
      | line text => cases he
      | row r' l'' =>
        obtain rfl := Sum.inr.inj he
        rw [hself]
        rfl
    · rw [hother e he, hbroken]
  have hzero : ∀ path (r : Row), (entryInputs path (.row r r.broken)).length = 0 := by
    intro path r
    rw [entryInputs_hidden (broken_hidden r)]
    rfl
  have hle : ∀ path e, (entryInputs path (Entry.broken e)).length ≤ (entryInputs path (shown e)).length := by
    intro path e
    cases e with
    | line text => rw [hother _ (fun h => by cases h)]
    | row r' l'' =>
      have h := hzero path r'
      rw [Entry.broken]
      omega
  have hlt : ∀ path, (entryInputs path (Entry.broken (.row r l))).length <
    (entryInputs path (shown (.row r l))).length := by
    intro path
    have h := hzero path r
    obtain ⟨t, ht⟩ := Option.isSome_iff_exists.mp ((inspectLine_iff l'.firstLine).mpr hl')
    rw [Entry.broken, hself, entryInputs_row path l', ht, h]
    exact Nat.one_pos
  have hverdict := (hfree.1 _ (reflows_rewrite hitem config)).trans (hfree.1 _ (reflows_rewrite hbroken config)).symm
  rw [verdict_eq hfiles, verdict_eq hfiles, shown_of_readable ((reflows_rewrite hitem config).readable hread) hne,
    shown_of_readable ((reflows_rewrite hbroken config).readable hread) hne] at hverdict
  have hsame := verdictOf_some_inj (Except.ok.inj hverdict)
  have hcount := shown_lt hle hhas hlt
  rw [hsame] at hcount
  exact Nat.lt_irrefl _ hcount

/-- Where no row shows, what is shown is the other lines. -/
theorem shown_iff_line (hread : config.Readable files) (hhidden : ∀ r l, config.Has files (.row r l) → ¬r.Shown) :
    (files.flatMap fun path => (config.entries path).flatMap (entryInputs path)) ≠ [] ↔
      ∃ text, config.Has files (.line text) ∧ RemoteLine text := by
  simp only [ne_eq, List.flatMap_eq_nil_iff, not_forall]
  constructor
  · rintro ⟨path, hpath, e, he, hshown⟩
    obtain ⟨entries, hentries⟩ := hread path hpath
    rw [mem_entries hentries] at he
    have hhas : config.Has files e := ⟨path, hpath, entries, hentries, he⟩
    cases e with
    | line text => exact ⟨text, hhas, entryInputs_line.mp hshown⟩
    | row r l =>
      refine absurd (entryInputs_hidden fun h => ?_) hshown
      exact hhidden r l hhas ((shown_iff r).mpr ⟨l, h⟩)
  · rintro ⟨text, ⟨path, hpath, entries, hentries, he⟩, hremote⟩
    refine ⟨path, hpath, .line text, ?_, entryInputs_line.mpr hremote⟩
    rwa [mem_entries hentries]

/-- The same entries show the same if no row shows. -/
theorem entries_congr {path : Str} : ∀ {entries entries' : List Entry},
    entries'.map Entry.item = entries.map Entry.item → (∀ r l, .row r l ∈ entries → ¬r.Shown) →
    entries'.flatMap (entryInputs path) = entries.flatMap (entryInputs path)
  | [], [], _, _ => rfl
  | [], _ :: _, h, _ => by cases h
  | _ :: _, [], h, _ => by cases h
  | e :: entries, e' :: entries', h, hno => by
    obtain ⟨hitem, hrest⟩ := List.cons.inj h
    have hhere : entryInputs path e' = entryInputs path e := by
      cases e with
      | line text =>
        cases e' with
        | line text' =>
          cases hitem
          rfl
        | row r' l' => cases hitem
      | row r l =>
        cases e' with
        | line text' => cases hitem
        | row r' l' =>
          cases hitem
          have hnone : ∀ l : Layout r, ¬RemoteLine l.firstLine := fun l' h =>
            hno r l List.mem_cons_self ((shown_iff r).mpr ⟨l', h⟩)
          rw [entryInputs_hidden (hnone l), entryInputs_hidden (hnone l')]
    rw [List.flatMap_cons, List.flatMap_cons, hhere,
      entries_congr hrest fun r l hmem => hno r l (List.mem_cons_of_mem e hmem)]

end Verdict

/-- **The verdict on remote input is about the statements, however they are written, exactly if no beginning of a row is
remote input and a remote statement stands beside a line that is.** -/
theorem layout_verdict_iff (view : View) (config : Config) (params : Params) :
    LayoutFree view config params ↔ RowsHidden view config params := by
  constructor
  · intro hfree files hfiles hread
    have hhidden : ∀ r l, config.Has files (.row r l) → ¬r.Shown := fun r l hhas =>
      hidden_of_layoutFree hfiles hread hfree hhas
    refine ⟨hhidden, ?_⟩
    rintro ⟨r, l, hhas, hremote⟩
    have hne : files ≠ [] := by
      obtain ⟨path, hpath, -⟩ := hhas
      exact List.ne_nil_of_mem hpath
    by_contra hno
    have hverdict := verdict_eq hfiles config
    rw [shown_of_readable hread hne, not_ne_iff.mp fun h => hno ((shown_iff_line hread hhidden).mp h)] at hverdict
    cases hreport : inspectRsyslogEffectiveConfig (config.view view) params with
    | error err =>
      rw [hreport] at hverdict
      cases hverdict
    | ok report =>
      rw [hreport] at hverdict
      have hv : report.verdict = verdictOf (some []) := Except.ok.inj hverdict
      exact hfree.2 report files hreport hfiles (congrArg Verdict.available hv)
        (congrArg Verdict.remoteInputEnabled hv) _ hhas hremote
  · intro hhidden
    cases hfiles : expandConfigPaths view params.paths with
    | error err =>
      refine ⟨fun config' _ => ?_, fun report files _ h => ?_⟩
      · rw [remote_verdict, remote_verdict, expandConfigPaths_view, expandConfigPaths_view, hfiles]
        rfl
      · rw [hfiles] at h
        cases h
    | ok files =>
      by_cases hread : config.Readable files
      · obtain ⟨hno, hline⟩ := hhidden files hfiles hread
        refine ⟨fun config' hflow => ?_, fun report files' hreport hfiles' _ hdisabled e hhas hremote => ?_⟩
        · rw [verdict_eq hfiles, verdict_eq hfiles]
          by_cases hnil : files = []
          · rw [shownInputs, shownInputs, if_pos hnil, if_pos hnil]
          · rw [shown_of_readable hread hnil, shown_of_readable (hflow.readable hread) hnil]
            have hsame : ∀ path ∈ files, (config'.entries path).flatMap (entryInputs path) =
                (config.entries path).flatMap (entryInputs path) := by
              intro path hpath
              refine entries_congr (hflow.entries path) fun r l hmem => ?_
              obtain ⟨entries, hentries⟩ := hread path hpath
              rw [mem_entries hentries] at hmem
              exact hno r l ⟨path, hpath, entries, hentries, hmem⟩
            rw [List.flatMap_congr hsame]
        · obtain rfl := Except.ok.inj (hfiles.symm.trans hfiles')
          have hne : files ≠ [] := by
            obtain ⟨path, hpath, -⟩ := hhas
            exact List.ne_nil_of_mem hpath
          have hverdict := verdict_eq hfiles config
          rw [hreport, shown_of_readable hread hne] at hverdict
          have henabled := congrArg Verdict.remoteInputEnabled (Except.ok.inj hverdict)
          have hsome : ∃ text, config.Has files (.line text) ∧ RemoteLine text := by
            cases e with
            | line text =>
              obtain ⟨visible, hvisible, hdir⟩ := hremote
              exact ⟨text, hhas, visible, hvisible, .inl hdir⟩
            | row r l => exact hline ⟨r, l, hhas, hremote⟩
          have hshown := (shown_iff_line hread hno).mpr hsome
          have hdisabled : report.verdict.remoteInputEnabled = false := hdisabled
          rw [henabled] at hdisabled
          refine hshown (List.isEmpty_iff.mp ?_)
          exact Bool.not_eq_false' .. ▸ hdisabled
      · refine ⟨fun config' hflow => ?_, fun report files' hreport hfiles' havailable => ?_⟩
        · have hread' : ¬config'.Readable files := by
            intro h
            refine hread fun path hpath => ?_
            obtain ⟨entries', hentries'⟩ := h path hpath
            obtain ⟨entries, hentries, -⟩ := hflow.ok hentries'
            exact ⟨entries, hentries⟩
          rw [verdict_eq hfiles, verdict_eq hfiles, shown_of_unreadable hread, shown_of_unreadable hread']
        · have hverdict := verdict_eq hfiles config
          rw [hreport, shown_of_unreadable hread] at hverdict
          have hfalse : report.available = false := congrArg Verdict.available (Except.ok.inj hverdict)
          rw [havailable] at hfalse
          cases hfalse

/-- `module(load="imtcp")`. -/
def imtcp : Row where
  first := {
    front := []
    keyword := "module"
    blanks := []
    tokens := [.word "load", .mark '=', .quoted "imtcp"]
    front_line := List.not_mem_nil
    front_visible := by
      refine .inr ⟨rfl, ?_⟩
      rintro a ⟨-, r, h⟩
      cases a <;> cases h
    known := .inl rfl
    blank := fun x hx => absurd hx List.not_mem_nil
    proper := by
      intro t ht
      simp only [List.mem_cons, List.not_mem_nil, or_false] at ht
      rcases ht with rfl | rfl | rfl
      · exact ⟨by decide, fun x hx => .inl (List.all_eq_true.mp (show "load".toList.all isalnum = true by decide) x hx)⟩
      · exact List.mem_cons_self
      · exact ⟨by decide, by decide⟩
    follows := by
      have hname : (Piece.token (.word "load")).Follows (.token (.mark '=')) :=
        ⟨(fun h => by cases h), (fun h => by cases h), fun _ h => by cases h⟩
      have hvalue : (Piece.token (.mark '=')).Follows (.token (.quoted "imtcp")) :=
        ⟨fun _ => ⟨rfl, rfl⟩, fun _ => rfl, fun _ h => by cases h⟩
      exact .cons_cons hname (.cons_cons hvalue (.singleton _)) }
  more := []
  tail := []
  silent := {
    directive := fun h => by cases h
    statement := by
      constructor <;> rintro ⟨b, c, r, h, -⟩ <;> cases b <;> cases h
    letter := fun x hx => by cases hx }
  tail_line := List.not_mem_nil

/-- On one line. -/
def imtcpLine : Layout imtcp where
  body := imtcp.pieces.map (Prod.mk [])
  body_pieces := rfl
  blank := by
    intro p hp x hx
    obtain ⟨t, -, rfl⟩ := List.mem_map.mp hp
    cases hx
  apart := by
    have hapart : ∀ {p q : Piece}, (p.isWord && q.isWord) = false → p.isComment = false → Apart ([], p) ([], q) := by
      intro p q hword hcomment
      refine ⟨fun hp hq => ?_, fun hp => ?_⟩
      · rw [show p.isWord = true from hp, show q.isWord = true from hq] at hword
        cases hword
      · rw [show p.isComment = true from hp] at hcomment
        cases hcomment
    exact .cons_cons (hapart rfl rfl) (.cons_cons (hapart rfl rfl) (.cons_cons (hapart rfl rfl) (.singleton _)))

/-- One file. -/
def oneFile : View where
  mode _ := some "file".toList
  names _ := .ok []
  lines _ := .ok []

/-- A statement that loads `imtcp` is reported when it is written on one line, and not when it is broken. -/
theorem layout_verdict_imtcp : ¬∀ (view : View) (config : Config) (params : Params), LayoutFree view config params := by
  intro h
  have hverdict := (h oneFile (fun _ => .ok [.row imtcp imtcpLine]) ⟨some ["/a".toList], .nil, true⟩).1
    (fun _ => .ok [.row imtcp imtcp.broken]) fun path => rfl
  have hfiles : expandConfigPaths oneFile (some ["/a".toList]) = .ok ["/a".toList] := by decide +kernel
  rw [verdict_eq hfiles, verdict_eq hfiles] at hverdict
  revert hverdict
  decide +kernel

end Rsyslog

end Seharden
