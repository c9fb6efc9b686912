import Loongshield.Seharden.SudoersComment
import Loongshield.Seharden.SudoersLoad

/-!
# What the loader covers

The include tree of `SudoersLoad` with the two things a path and a pattern do not show: which file a path names, and
where a comment begins.

- `shownLine`: what a line shows; `shownLine_eq_iff` is when the loader has the same;
- `Expands.transfer`: one tree read with two texts for its lines;
- `load_covers_iff`: when the loader covers exactly the include tree.
-/

namespace Seharden
namespace Sudoers

open Lua Pattern

/-! ## Lines -/

/-- A line of options: its first word is `Defaults`, or `Defaults` for some host, user, command or runas. -/
def IsDefaults (line : Str) : Prop := (scopeOf (leading line)).isSome = true

instance (line : Str) : Decidable (IsDefaults line) := inferInstanceAs (Decidable (_ = _))

/-- A line without its comment. In a line of options a `#` between quotes begins none. -/
def shownText (line : Str) : Str :=
  if (trim line).head? = some '#' then [] else if IsDefaults line then activeText line else active line

/-- What a line of the file `path` shows. -/
def shownLine (path line : Str) : List ActiveLine :=
  if shownText line = [] then [] else [{ path := path, text := shownText line }]

theorem trim_ne_nil {s : Str} {x : Char} (hx : x ∈ s) (hspace : isspace x = false) : trim s ≠ [] := by
  intro hnil
  obtain ⟨b, b', hb, hb', hs⟩ := exists_trim s
  rw [hnil, List.nil_append] at hs
  have hblank : isspace x = true := by
    rw [hs] at hx
    rcases List.mem_append.mp hx with hx | hx
    · exact hb x hx
    · exact hb' x hx
  rw [hspace] at hblank
  cases hblank

/-- What the loader takes of a line. -/
theorem activeLine_text (p line : Str) : activeLine p line =
    if (trim line).head? = some '#' ∨ active line = [] then [] else [{ path := p, text := active line }] := by
  unfold activeLine appendActiveLine
  dsimp only
  by_cases hhash : (trim line).head? = some '#'
  · rw [if_pos hhash, ite_self, if_pos (.inl hhash)]
  · have htrim : trim line = [] → active line = [] := by
      intro hnil
      rw [← active_trim hhash, hnil]
      rfl
    rw [if_neg hhash, active_eq, active_trim hhash]
    by_cases hnil : active line = []
    · rw [if_pos hnil, ite_self, if_pos (.inr hnil)]
    · rw [if_neg hnil, if_neg fun h => hnil (htrim h), if_neg fun h => h.elim hhash hnil]
      rfl

section Options

variable {line : Str} (h : IsDefaults line)

include h

/-- A line of options has a word in front of its comment. -/
theorem leading_ne_nil : ∃ x ∈ leading line, isspace x = false ∧ (trim line).head? = some x ∧ x ≠ '#' := by
  obtain ⟨scope, hscope⟩ := Option.isSome_iff_exists.mp h
  obtain ⟨x, r, hword, hspace, hhash, -⟩ := head_of_scopeOf hscope
  refine ⟨x, by rw [hword]; exact List.mem_cons_self, hspace, ?_, hhash⟩
  have hsplit : leading line ++ behind line = trim line := List.takeWhile_append_dropWhile
  rw [← hsplit, hword]
  rfl

theorem head_options : (trim line).head? ≠ some '#' := by
  obtain ⟨x, -, -, hhead, hhash⟩ := leading_ne_nil h
  rw [hhead]
  exact fun heq => hhash (Option.some.inj heq)

theorem texts_ne_nil : active line ≠ [] ∧ activeText line ≠ [] := by
  obtain ⟨x, hx, hspace, -⟩ := leading_ne_nil h
  rw [active_behind (head_options h)]
  exact ⟨trim_ne_nil (List.mem_append_left _ hx) hspace, trim_ne_nil (List.mem_append_left _ hx) hspace⟩

/-- **The code takes the active text** iff it cuts the comment. -/
theorem activeText_eq_iff : activeText line = active line ↔ CutsComment line := by
  have hcut : CutsComment line ↔ uncomment start (behind line) = cutComment (behind line) :=
    (uncomment_eq_iff (behind line) start).symm
  have hactive := active_behind (head_options h)
  rw [hcut]
  constructor
  · intro heq
    rcases uncomment_cases (behind line) quoted_start with hsame | ⟨b, post, hmore⟩
    · exact hsame
    · have hne := (texts_ne_nil h).1
      rw [hactive] at hne
      obtain ⟨b', post', htext⟩ := trim_hash hne b post
      rw [List.append_assoc, ← hmore, ← hactive, ← activeText, heq] at htext
      have hlength := congrArg List.length htext
      rw [List.length_append, List.length_append, List.length_cons] at hlength
      omega
  · intro heq
    rw [activeText, heq, hactive]

theorem shownLine_options (p : Str) : shownLine p line = [{ path := p, text := activeText line }] ∧
    activeLine p line = [{ path := p, text := active line }] := by
  obtain ⟨hactive, htext⟩ := texts_ne_nil h
  rw [activeLine_text, shownLine, shownText, if_neg (head_options h), if_pos h, if_neg htext,
    if_neg fun h' => h'.elim (head_options h) hactive]
  exact ⟨rfl, rfl⟩

end Options

/-- Any other line shows what the loader takes of it. -/
theorem shownLine_plain {line : Str} (h : ¬IsDefaults line) (p : Str) : shownLine p line = activeLine p line := by
  rw [activeLine_text, shownLine, shownText, if_neg h]
  by_cases hhash : (trim line).head? = some '#'
  · rw [if_pos hhash, if_pos rfl, if_pos (.inl hhash)]
  · by_cases hnil : active line = []
    · rw [if_neg hhash, if_pos hnil, if_pos (.inr hnil)]
    · rw [if_neg hhash, if_neg hnil, if_neg fun h => h.elim hhash hnil]

/-- **The loader has what a line shows** iff in a line of options no quote is open where it cuts the comment. -/
theorem shownLine_eq_iff (p line : Str) : shownLine p line = activeLine p line ↔
    (IsDefaults line → CutsComment line) := by
  by_cases hoptions : IsDefaults line
  · obtain ⟨hshown, hactive⟩ := shownLine_options hoptions p
    rw [hshown, hactive, ← activeText_eq_iff hoptions]
    exact ⟨fun heq _ => (ActiveLine.mk.inj (List.cons.inj heq).1).2, fun heq => by rw [heq hoptions]⟩
  · exact iff_of_true (shownLine_plain hoptions p) fun h => absurd h hoptions

theorem length_shownLine (p line : Str) : (shownLine p line).length = (activeLine p line).length := by
  by_cases hoptions : IsDefaults line
  · obtain ⟨hshown, hactive⟩ := shownLine_options hoptions p
    rw [hshown, hactive]
    rfl
  · rw [shownLine_plain hoptions]

/-! ## The lines of a tree -/

section Lines

variable {view : View} {hostname : Option Str} {text text' : Str → Str → List ActiveLine}

/-- A line of the file `p` without a directive. -/
def OnLine (view : View) (hostname : Option Str) (p line : Str) : Prop :=
  ∃ lines, view.lines p = .ok lines ∧ line ∈ lines ∧ directive hostname p line = none

/-- A line of a file below the file `q`. -/
def BelowFile (view : View) (hostname : Option Str) (q p line : Str) : Prop :=
  (∃ d, Reaches view hostname q d p) ∧ OnLine view hostname p line

/-- The line `line` of the file `p` is in the expansion of a part. -/
def Part.Shows (view : View) (hostname : Option Str) : Part → Str → Str → Prop
  | .file q, p, line => BelowFile view hostname q p line
  | .lines q ls, p, line => (p = q ∧ line ∈ ls ∧ directive hostname q line = none) ∨
      ∃ l ∈ ls, ∃ r k, IncludesBy view hostname q l r k ∧ BelowFile view hostname r p line
  | .files qs, p, line => ∃ q ∈ qs, BelowFile view hostname q p line

theorem belowFile_iff {q p line : Str} {lines : List Str} (h : view.lines q = .ok lines) :
    BelowFile view hostname q p line ↔ (Part.lines q lines).Shows view hostname p line := by
  constructor
  · rintro ⟨⟨d, hr⟩, hline⟩
    cases hr with
    | refl =>
      obtain ⟨lines', h', hmem, hdir⟩ := hline
      obtain rfl := Except.ok.inj (h.symm.trans h')
      exact .inl ⟨rfl, hmem, hdir⟩
    | step hinc hr =>
      obtain ⟨lines', h', l, hl, hby⟩ := hinc
      obtain rfl := Except.ok.inj (h.symm.trans h')
      exact .inr ⟨l, hl, _, _, hby, ⟨_, hr⟩, hline⟩
  · rintro (⟨rfl, hmem, hdir⟩ | ⟨l, hl, r, k, hby, ⟨d, hr⟩, hline⟩)
    · exact ⟨⟨0, .refl p⟩, lines, h, hmem, hdir⟩
    · exact ⟨⟨k + d, .step ⟨lines, h, l, hl, hby⟩ hr⟩, hline⟩

/-- The lines of a file, from what its first line includes. -/
theorem shows_cons_iff {q p l line : Str} {lines : List Str} : (Part.lines q (l :: lines)).Shows view hostname p line ↔
    (p = q ∧ line = l ∧ directive hostname q l = none ∨
      ∃ r k, IncludesBy view hostname q l r k ∧ BelowFile view hostname r p line) ∨
      (Part.lines q lines).Shows view hostname p line := by
  constructor
  · rintro (⟨rfl, hmem, hdir⟩ | ⟨l', hl', h⟩)
    · rcases List.mem_cons.mp hmem with rfl | hmem
      · exact .inl (.inl ⟨rfl, rfl, hdir⟩)
      · exact .inr (.inl ⟨rfl, hmem, hdir⟩)
    · rcases List.mem_cons.mp hl' with rfl | hl'
      · exact .inl (.inr h)
      · exact .inr (.inr ⟨l', hl', h⟩)
  · rintro ((⟨rfl, rfl, hdir⟩ | h) | (⟨rfl, hmem, hdir⟩ | ⟨l', hl', h⟩))
    · exact .inl ⟨rfl, List.mem_cons_self, hdir⟩
    · exact .inr ⟨l, List.mem_cons_self, h⟩
    · exact .inl ⟨rfl, List.mem_cons_of_mem l hmem, hdir⟩
    · exact .inr ⟨l', List.mem_cons_of_mem l hl', h⟩

/-- What the first line includes: nothing without a directive, a file, or the files of a directory. -/
theorem includesBy_none {q l r : Str} {k : Nat} (hdir : directive hostname q l = none) :
    ¬IncludesBy view hostname q l r k := by
  intro h
  cases h with
  | file h => cases hdir.symm.trans h
  | member h _ _ => cases hdir.symm.trans h

theorem includesBy_file {q l r r' : Str} {k : Nat} (hdir : directive hostname q l = some (.include_, .ok r)) :
    IncludesBy view hostname q l r' k ↔ r' = r ∧ k = 1 := by
  constructor
  · intro h
    cases h with
    | file h =>
      obtain rfl := Except.ok.inj (Prod.mk.inj (Option.some.inj (hdir.symm.trans h))).2
      exact ⟨rfl, rfl⟩
    | member h _ _ => cases (Prod.mk.inj (Option.some.inj (hdir.symm.trans h))).1
  · rintro ⟨rfl, rfl⟩
    exact .file hdir

theorem includesBy_directory {q l dir r : Str} {files : List Str} {k : Nat}
    (hdir : directive hostname q l = some (.includedir, .ok dir)) (hfiles : directoryFiles view dir = some files) :
    IncludesBy view hostname q l r k ↔ r ∈ files ∧ k = 2 := by
  constructor
  · intro h
    cases h with
    | file h => cases (Prod.mk.inj (Option.some.inj (hdir.symm.trans h))).1
    | member h hfiles' hr =>
      obtain rfl := Except.ok.inj (Prod.mk.inj (Option.some.inj (hdir.symm.trans h))).2
      obtain rfl := Option.some.inj (hfiles.symm.trans hfiles')
      exact ⟨hr, rfl⟩
  · rintro ⟨hr, rfl⟩
    exact .member hdir hfiles hr

/-- Two texts for the lines of a part: the expansions are as long as each other, and the same iff the texts are. -/
def Transfers (view : View) (hostname : Option Str) (text text' : Str → Str → List ActiveLine) (part : Part)
    (es : List ActiveLine) : Prop :=
  ∃ es', Expands text' view hostname part es' ∧ es'.length = es.length ∧
    (es' = es ↔ ∀ p line, part.Shows view hostname p line → text' p line = text p line)

theorem append_eq_append_iff_of_length {a a' b b' : List ActiveLine} (h : a'.length = a.length) :
    a' ++ b' = a ++ b ↔ a' = a ∧ b' = b :=
  ⟨fun heq => List.append_inj heq h, fun heq => by rw [heq.1, heq.2]⟩

/-- Two parts one after the other. -/
theorem forall_or_iff {P Q R : Str → Str → Prop} (h : ∀ p line, P p line ↔ Q p line ∨ R p line) {S : Str → Str → Prop} :
    (∀ p line, P p line → S p line) ↔ (∀ p line, Q p line → S p line) ∧ ∀ p line, R p line → S p line := by
  simp only [h, or_imp, forall_and]

/-- **A tree read with another text for its lines.** -/
theorem Expands.transfer (hlength : ∀ p line, (text' p line).length = (text p line).length) {part : Part}
    {es : List ActiveLine} (h : Expands text view hostname part es) :
    Transfers view hostname text text' part es := by
  induction h with
  | file hlines _ ih =>
    obtain ⟨es', hes', hlen, hiff⟩ := ih
    exact ⟨es', .file hlines hes', hlen, hiff.trans (forall₂_congr fun p line =>
      imp_congr_left (belowFile_iff hlines).symm)⟩
  | done =>
    refine ⟨[], .done, rfl, iff_of_true rfl ?_⟩
    rintro p line (⟨-, hmem, -⟩ | ⟨l, hl, -⟩)
    · cases hmem
    · cases hl
  | @line q l lines es hdir _ ih =>
    obtain ⟨es', hes', hlen, hiff⟩ := ih
    refine ⟨text' q l ++ es', .line hdir hes', by rw [List.length_append, List.length_append, hlength, hlen], ?_⟩
    rw [append_eq_append_iff_of_length (hlength q l), hiff, forall_or_iff fun p line => shows_cons_iff]
    refine and_congr_left fun _ => ⟨fun heq p line hline => ?_, fun hall => hall q l (.inl ⟨rfl, rfl, hdir⟩)⟩
    rcases hline with ⟨rfl, rfl, -⟩ | ⟨r, k, hby, -⟩
    · exact heq
    · exact absurd hby (includesBy_none hdir)
  | @included q l r lines es es' hdir _ _ ihfile ih =>
    obtain ⟨fs, hfs, hlen, hiff⟩ := ihfile
    obtain ⟨fs', hfs', hlen', hiff'⟩ := ih
    refine ⟨fs ++ fs', .included hdir hfs hfs', by rw [List.length_append, List.length_append, hlen, hlen'], ?_⟩
    rw [append_eq_append_iff_of_length hlen, hiff, hiff', forall_or_iff fun p line => shows_cons_iff]
    refine and_congr_left fun _ => forall₂_congr fun p line => imp_congr_left ⟨fun hbelow => ?_, ?_⟩
    · exact .inr ⟨r, 1, .file hdir, hbelow⟩
    · rintro (⟨-, -, hnone⟩ | ⟨r', k, hby, hbelow⟩)
      · cases hdir.symm.trans hnone
      · rwa [((includesBy_file hdir).mp hby).1] at hbelow
  | @directory q l dir lines files es es' hdir hfiles _ _ ihfiles ih =>
    obtain ⟨fs, hfs, hlen, hiff⟩ := ihfiles
    obtain ⟨fs', hfs', hlen', hiff'⟩ := ih
    refine ⟨fs ++ fs', .directory hdir hfiles hfs hfs', by rw [List.length_append, List.length_append, hlen, hlen'], ?_⟩
    rw [append_eq_append_iff_of_length hlen, hiff, hiff', forall_or_iff fun p line => shows_cons_iff]
    refine and_congr_left fun _ => forall₂_congr fun p line => imp_congr_left ⟨?_, ?_⟩
    · rintro ⟨r, hr, hbelow⟩
      exact .inr ⟨r, 2, .member hdir hfiles hr, hbelow⟩
    · rintro (⟨-, -, hnone⟩ | ⟨r, k, hby, hbelow⟩)
      · cases hdir.symm.trans hnone
      · exact ⟨r, ((includesBy_directory hdir hfiles).mp hby).1, hbelow⟩
  | none =>
    refine ⟨[], .none, rfl, iff_of_true rfl ?_⟩
    rintro p line ⟨q, hq, -⟩
    cases hq
  | @next q qs es es' _ _ ihfile ihfiles =>
    obtain ⟨fs, hfs, hlen, hiff⟩ := ihfile
    obtain ⟨fs', hfs', hlen', hiff'⟩ := ihfiles
    refine ⟨fs ++ fs', .next hfs hfs', by rw [List.length_append, List.length_append, hlen, hlen'], ?_⟩
    rw [append_eq_append_iff_of_length hlen, hiff, hiff', ← forall_or_iff fun p line => ?_]
    exact List.exists_mem_cons_iff _ q qs

end Lines

/-! ## Files -/

section Files

variable {F : Type} (file : Str → F) (view : View) (hostname errorContext : Option Str) (maxDepth : Nat)
  (roots : List Str)

/-- The path `p` is below one of the roots. -/
def Reached (p : Str) : Prop := ∃ root ∈ roots, ∃ d, Reaches view hostname root d p

/-- The tree can be loaded: everything in it can be read, it nests no deeper than the limit, and no file includes itself
directly or indirectly. `file` says which file a path names. -/
def TreeLoads : Prop :=
  ∀ root ∈ roots, ∀ d p, Reaches view hostname root d p → FileGood view hostname p ∧ d < maxDepth ∧
    ∀ n q, Reaches view hostname p n q → file q = file p → n = 0

/-- Every file is reached under one path. -/
def OnePath : Prop := ∀ p q, Reached view hostname roots p → Reached view hostname roots q → file p = file q → p = q

/-- The loader covers exactly the include tree: it returns for a tree that can be loaded, lists each of its files once,
and has its textual expansion. -/
structure Covers : Prop where
  returns : (∃ st, load view hostname errorContext maxDepth roots = .ok st) ↔
    TreeLoads file view hostname maxDepth roots
  nodup : ∀ st, load view hostname errorContext maxDepth roots = .ok st → (st.files.map file).Nodup
  files : ∀ st, load view hostname errorContext maxDepth roots = .ok st →
    ∀ f, f ∈ st.files.map file ↔ ∃ p, Reached view hostname roots p ∧ file p = f
  lines : ∀ st, load view hostname errorContext maxDepth roots = .ok st →
    ∀ es, Expands shownLine view hostname (.files roots) es ↔ es = st.lines

variable {view hostname maxDepth roots}

theorem Reaches.trans {p q r : Str} {m n : Nat} (h : Reaches view hostname p m q) (h' : Reaches view hostname q n r) :
    ∃ d, Reaches view hostname p d r := by
  induction h with
  | refl => exact ⟨n, h'⟩
  | step hinc _ ih =>
    obtain ⟨d, hd⟩ := ih h'
    exact ⟨_ + d, .step hinc hd⟩

theorem reached_step {p q : Str} {n : Nat} (hp : Reached view hostname roots p) (hr : Reaches view hostname p n q) :
    Reached view hostname roots q := by
  obtain ⟨root, hroot, d, hreach⟩ := hp
  exact ⟨root, hroot, hreach.trans hr⟩

theorem loadable_of_treeLoads : TreeLoads file view hostname maxDepth roots →
    Loadable view hostname maxDepth roots :=
  fun h root hroot d p hr => by
    obtain ⟨hgood, hdepth, hcycle⟩ := h root hroot d p hr
    exact ⟨hgood, hdepth, fun n hn => hcycle n p hn rfl⟩

/-- Where every file has one path, a file that includes itself does so under that path. -/
theorem treeLoads_of_onePath (hpath : OnePath file view hostname roots) (h : Loadable view hostname maxDepth roots) :
    TreeLoads file view hostname maxDepth roots := by
  intro root hroot d p hr
  obtain ⟨hgood, hdepth, hcycle⟩ := h root hroot d p hr
  refine ⟨hgood, hdepth, fun n q hq hsame => hcycle n ?_⟩
  have hp : Reached view hostname roots p := ⟨root, hroot, d, hr⟩
  rwa [hpath q p (reached_step hp hq) hp hsame] at hq

/-- A line of the tree. -/
theorem shows_roots_iff {p line : Str} : (Part.files roots).Shows view hostname p line ↔
    Reached view hostname roots p ∧ OnLine view hostname p line := by
  constructor
  · rintro ⟨root, hroot, ⟨d, hr⟩, hline⟩
    exact ⟨⟨root, hroot, d, hr⟩, hline⟩
  · rintro ⟨⟨root, hroot, d, hr⟩, hline⟩
    exact ⟨root, hroot, ⟨d, hr⟩, hline⟩

/-- **The loader covers exactly the include tree iff**, where the tree can be loaded, every file is reached under one
path, and in every line of options no quote is open where the comment is cut. -/
theorem load_covers_iff : Covers file view hostname errorContext maxDepth roots ↔
    (Loadable view hostname maxDepth roots → OnePath file view hostname roots ∧
      ∀ p line, Reached view hostname roots p → OnLine view hostname p line → IsDefaults line → CutsComment line) := by
  obtain ⟨hreturns, hstate⟩ := load_covers_tree view hostname errorContext maxDepth roots
  have hexpand : ∀ st, load view hostname errorContext maxDepth roots = .ok st →
      ((∀ es, Expands shownLine view hostname (.files roots) es ↔ es = st.lines) ↔
        ∀ p line, Reached view hostname roots p → OnLine view hostname p line → IsDefaults line →
        CutsComment line) := by
    intro st hst
    obtain ⟨es', hes', -, hiff⟩ := Expands.transfer length_shownLine (((hstate st hst).2.2 st.lines).mpr rfl)
    have hlines : es' = st.lines ↔ ∀ p line, Reached view hostname roots p → OnLine view hostname p line →
        IsDefaults line → CutsComment line := by
      rw [hiff]
      simp only [shows_roots_iff, shownLine_eq_iff, and_imp]
    rw [← hlines]
    refine ⟨fun h => (h es').mp hes', fun heq es => ?_⟩
    rw [← heq]
    exact ⟨fun hes => hes.unique hes', fun hes => hes ▸ hes'⟩
  have hreached : ∀ st, load view hostname errorContext maxDepth roots = .ok st →
      ∀ p, p ∈ st.files ↔ Reached view hostname roots p := fun st hst => (hstate st hst).2.1
  constructor
  · intro h hload
    obtain ⟨st, hst⟩ := hreturns.mpr hload
    refine ⟨fun p q hp hq hsame => ?_, (hexpand st hst).mp (h.lines st hst)⟩
    exact List.inj_on_of_nodup_map (h.nodup st hst) ((hreached st hst p).mpr hp) ((hreached st hst q).mpr hq) hsame
  · intro h
    have hcond := fun st hst => h (hreturns.mp ⟨st, hst⟩)
    refine ⟨⟨fun hload => ?_, fun htree => hreturns.mpr (loadable_of_treeLoads file htree)⟩, fun st hst => ?_,
      fun st hst f => ?_, fun st hst => (hexpand st hst).mpr (hcond st hst).2⟩
    · have hloadable := hreturns.mp hload
      exact treeLoads_of_onePath file (h hloadable).1 hloadable
    · have hpath := (hcond st hst).1
      refine (hstate st hst).1.map_on fun p hp q hq hsame => ?_
      exact hpath p q ((hreached st hst p).mp hp) ((hreached st hst q).mp hq) hsame
    · rw [List.mem_map]
      exact exists_congr fun p => and_congr_left fun _ => hreached st hst p

end Files

/-- The names in a path; slashes next to each other are one. -/
def pathNames (path : Str) : List Str := (path.splitOn '/').filter (· ≠ [])

/-- A file for each of the given names, with its lines. -/
def viewOf (files : List (List Str × List Str)) : View where
  mode path := (files.lookup (pathNames path)).map fun _ => "file".toList
  names path := .error ("cannot open " ++ path)
  lines path := match files.lookup (pathNames path) with
    | some lines => .ok lines
    | none => .error (path ++ ": No such file or directory")

/-- A file that is included under two spellings of its path. -/
def spelledView : View := viewOf
  [(["etc".toList, "sudoers".toList], ["@include /etc/sudoers.d/a".toList, "@include /etc//sudoers.d/a".toList]),
   (["etc".toList, "sudoers.d".toList, "a".toList], [])]

/-- **The file is listed twice.** -/
theorem spelled_twice :
    (load spelledView none none defaultMaxDepth ["/etc/sudoers"]).toOption.map State.files =
      some ["/etc/sudoers".toList, "/etc/sudoers.d/a".toList, "/etc//sudoers.d/a".toList] ∧
    pathNames "/etc//sudoers.d/a" = pathNames "/etc/sudoers.d/a" ∧
    ¬ Covers pathNames spelledView none none defaultMaxDepth ["/etc/sudoers"] := by
  have hfiles : (load spelledView none none defaultMaxDepth ["/etc/sudoers"]).toOption.map State.files =
      some ["/etc/sudoers".toList, "/etc/sudoers.d/a".toList, "/etc//sudoers.d/a".toList] := by decide +kernel
  have hsame : pathNames "/etc//sudoers.d/a" = pathNames "/etc/sudoers.d/a" := by decide +kernel
  refine ⟨hfiles, hsame, fun h => ?_⟩
  cases hload : load spelledView none none defaultMaxDepth ["/etc/sudoers"] with
  | error e =>
    rw [hload] at hfiles
    cases hfiles
  | ok st =>
    rw [hload] at hfiles
    have hnodup := h.nodup st hload
    rw [show st.files = _ from Option.some.inj hfiles] at hnodup
    exact absurd hnodup (by decide +kernel)

/-- A line of options with a `#` in a value. -/
def quotedView : View := viewOf
  [(["etc".toList, "sudoers".toList], ["Defaults badpass_message=\"Try # again\"".toList])]

/-- **The rest of the value is not loaded.** -/
theorem quoted_text_lost :
    (load quotedView none none defaultMaxDepth ["/etc/sudoers"]).toOption.map State.lines =
      some [⟨"/etc/sudoers".toList, "Defaults badpass_message=\"Try".toList⟩] ∧
    ¬ Covers pathNames quotedView none none defaultMaxDepth ["/etc/sudoers"] := by
  have hlines : (load quotedView none none defaultMaxDepth ["/etc/sudoers"]).toOption.map State.lines =
      some [⟨"/etc/sudoers".toList, "Defaults badpass_message=\"Try".toList⟩] := by decide +kernel
  have hread : quotedView.lines "/etc/sudoers" = .ok ["Defaults badpass_message=\"Try # again\"".toList] := by
    decide +kernel
  have hexpands : Expands shownLine quotedView none (.files ["/etc/sudoers"])
      (shownLine "/etc/sudoers" "Defaults badpass_message=\"Try # again\"" ++ [] ++ []) :=
    .next (.file hread (.line (by decide +kernel) .done)) .none
  refine ⟨hlines, fun h => ?_⟩
  cases hload : load quotedView none none defaultMaxDepth ["/etc/sudoers"] with
  | error e =>
    rw [hload] at hlines
    cases hlines
  | ok st =>
    rw [hload] at hlines
    have hall := (h.lines st hload _).mp hexpands
    rw [show st.lines = _ from Option.some.inj hlines] at hall
    exact absurd hall (by decide +kernel)

end Sudoers
end Seharden
