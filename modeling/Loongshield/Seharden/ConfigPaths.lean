import Loongshield.Seharden.View

/-!
# `shared/config_paths.lua`

Drop-in files are collected from several directories, the first of them with the highest precedence. A file is known by
its name; a name that was taken from a directory is not taken from a later one.

- `sortedUniqueFiles`: the files;
- `FollowsMasking`: what the files should be, where an entry of any kind hides those of later directories;
- `sorted_unique_files_masks_iff`: when they are.
-/

namespace Seharden

open Lua

section ConfigPaths

variable (view : View)

/-- `join_path`. -/
def joinLeaf (base : Str) : Option Str → Str
  | none => base
  | some leaf => if leaf = [] then base else base ++ "/" ++ leaf

/-- `name_pattern == nil or name:match(name_pattern)`. -/
def nameMatches (namePattern : Option Str) (name : Str) : Except Err Bool :=
  match namePattern with
  | none => .ok true
  | some pattern => (strMatch name pattern).map Option.isSome

/-- The loop of `sorted_unique_files` over the names of a directory; `selected` is the table of names and paths. -/
def selectNames (namePattern : Option Str) (scanDir : Str) : List Str → List (Str × Str) → Except Err (List (Str × Str))
  | [], selected => .ok selected
  | name :: names, selected => do
    if name = ".".toList ∨ name = "..".toList then selectNames namePattern scanDir names selected
    else if (← nameMatches namePattern name) && (selected.lookup name).isNone &&
        view.mode (scanDir ++ "/" ++ name) == some "file".toList then
      selectNames namePattern scanDir names (selected ++ [(name, scanDir ++ "/" ++ name)])
    else selectNames namePattern scanDir names selected

/-- The loop of `sorted_unique_files` over the directories. -/
def selectDirs (namePattern : Option Str) : List Str → List (Str × Str) → Except Err (List (Str × Str))
  | [], selected => .ok selected
  | scanDir :: dirs, selected =>
    if view.mode scanDir = some "directory".toList then do
      let selected ← selectNames view namePattern scanDir (← view.names scanDir) selected
      selectDirs namePattern dirs selected
    else selectDirs namePattern dirs selected

/-- `sorted_unique_files`. -/
def sortedUniqueFiles (baseDirs : List Str) (relativeDir namePattern : Option Str) : Except Err (List Str) := do
  let selected ← selectDirs view namePattern (baseDirs.map (joinLeaf · relativeDir)) []
  return (sortStrs (selected.map Prod.fst)).filterMap fun name => selected.lookup name

end ConfigPaths

/-! ## What is selected -/

section Select

variable {view : View} {namePattern : Option Str}

/-- A name that is looked for. -/
def Wanted (namePattern : Option Str) (name : Str) : Prop :=
  name ≠ ".".toList ∧ name ≠ "..".toList ∧ nameMatches namePattern name = .ok true

/-- A directory has an entry of a name. -/
def HasEntry (view : View) (dir name : Str) : Prop :=
  view.mode dir = some "directory".toList ∧ ∃ names, view.names dir = .ok names ∧ name ∈ names

/-- The path of an entry is a regular file. -/
def IsRegular (view : View) (dir name : Str) : Prop := view.mode (dir ++ "/" ++ name) = some "file".toList

/-- The first of the directories with a property. -/
def FirstWith (P : Str → Prop) (dirs : List Str) (dir : Str) : Prop :=
  ∃ before after, dirs = before ++ dir :: after ∧ (∀ d ∈ before, ¬P d) ∧ P dir

/-- A table of names and paths without a name twice. -/
def Keyed (selected : List (Str × Str)) : Prop := (selected.map Prod.fst).Nodup

theorem lookup_eq_none {selected : List (Str × Str)} {name : Str} :
    (selected.lookup name).isNone = true ↔ name ∉ selected.map Prod.fst := by
  induction selected with
  | nil => simp
  | cons p selected ih =>
    obtain ⟨n, path⟩ := p
    rw [List.lookup_cons, List.map_cons, List.mem_cons, not_or]
    by_cases hn : name = n
    · subst hn
      simp
    · rw [beq_eq_false_iff_ne.mpr hn]
      simp only
      rw [ih, and_iff_right hn]

theorem lookup_of_mem {selected : List (Str × Str)} (h : Keyed selected) {name path : Str} :
    selected.lookup name = some path ↔ (name, path) ∈ selected := by
  induction selected with
  | nil => simp
  | cons p selected ih =>
    obtain ⟨n, q⟩ := p
    unfold Keyed at h ih
    rw [List.map_cons, List.nodup_cons] at h
    rw [List.lookup_cons]
    by_cases hn : name = n
    · subst hn
      simp only [beq_self_eq_true, Option.some.injEq, List.mem_cons, Prod.mk.injEq, true_and]
      constructor
      · exact fun hq => .inl hq.symm
      · rintro (hq | hmem)
        · exact hq.symm
        · exact absurd (List.mem_map_of_mem hmem) h.1
    · rw [beq_eq_false_iff_ne.mpr hn]
      simp only [List.mem_cons, Prod.mk.injEq, hn, false_and, false_or]
      exact ih h.2

theorem mem_keys {selected : List (Str × Str)} {name : Str} :
    name ∈ selected.map Prod.fst ↔ ∃ path, (name, path) ∈ selected := by
  simp

theorem keyed_append {selected : List (Str × Str)} (h : Keyed selected) {name : Str}
    (hname : name ∉ selected.map Prod.fst) (path : Str) : Keyed (selected ++ [(name, path)]) := by
  unfold Keyed
  rw [List.map_append, List.nodup_append]
  refine ⟨h, List.nodup_singleton name, fun a ha b hb hab => ?_⟩
  obtain rfl : b = name := List.mem_singleton.mp hb
  exact hname (hab ▸ ha)

/-- **The names of a directory**: what is new, wanted and regular is selected. -/
theorem selectNames_spec {scanDir : Str} : ∀ {names : List Str} {selected selected' : List (Str × Str)},
    Keyed selected → selectNames view namePattern scanDir names selected = .ok selected' → Keyed selected' ∧
      ∀ name path, (name, path) ∈ selected' ↔ (name, path) ∈ selected ∨ (name ∉ selected.map Prod.fst ∧
        name ∈ names ∧ path = scanDir ++ "/" ++ name ∧ Wanted namePattern name ∧ IsRegular view scanDir name)
  | [], selected, selected', hkeyed, h => by
    cases h
    exact ⟨hkeyed, fun name path => by simp⟩
  | n :: names, selected, selected', hkeyed, h => by
    rw [selectNames] at h
    by_cases hdot : n = ".".toList ∨ n = "..".toList
    · rw [if_pos hdot] at h
      obtain ⟨hkeyed', hmem⟩ := selectNames_spec hkeyed h
      refine ⟨hkeyed', fun name path => (hmem name path).trans ?_⟩
      have hnot : ∀ m, Wanted namePattern m → m ≠ n := by
        rintro m hm rfl
        exact hdot.elim hm.1 hm.2.1
      refine or_congr_right (and_congr_right fun _ => ?_)
      refine ⟨fun ⟨hin, hrest⟩ => ⟨List.mem_cons_of_mem n hin, hrest⟩, fun ⟨hin, hrest⟩ => ⟨?_, hrest⟩⟩
      exact (List.mem_cons.mp hin).resolve_left (hnot name hrest.2.1)
    · rw [if_neg hdot] at h
      cases hmatch : nameMatches namePattern n with
      | error e =>
        rw [hmatch] at h
        cases h
      | ok matched =>
        rw [hmatch] at h
        dsimp only [bind, Except.bind] at h
        have hwanted : Wanted namePattern n ↔ matched = true := by
          unfold Wanted
          rw [hmatch, Except.ok.injEq]
          exact ⟨fun hw => hw.2.2, fun hm => ⟨fun he => hdot (.inl he), fun he => hdot (.inr he), hm⟩⟩
        have hregular : (view.mode (scanDir ++ "/" ++ n) == some "file".toList) = true ↔ IsRegular view scanDir n :=
          beq_iff_eq
        by_cases htake : (matched && (selected.lookup n).isNone &&
            view.mode (scanDir ++ "/" ++ n) == some "file".toList) = true
        · rw [if_pos htake] at h
          rw [Bool.and_eq_true, Bool.and_eq_true, ← hwanted, lookup_eq_none, hregular] at htake
          obtain ⟨⟨hw, hnew⟩, hreg⟩ := htake
          obtain ⟨hkeyed', hmem⟩ := selectNames_spec (keyed_append hkeyed hnew _) h
          refine ⟨hkeyed', fun name path => (hmem name path).trans ?_⟩
          simp only [List.mem_append, Prod.mk.injEq, List.map_append, List.map_cons, List.map_nil,
            List.mem_cons, not_or]
          by_cases hname : name = n
          · subst hname
            simp [hw, hreg, hnew]
          · simp [hname]
        · rw [if_neg htake] at h
          rw [Bool.and_eq_true, Bool.and_eq_true, ← hwanted, lookup_eq_none, hregular] at htake
          obtain ⟨hkeyed', hmem⟩ := selectNames_spec hkeyed h
          refine ⟨hkeyed', fun name path => (hmem name path).trans (or_congr_right (and_congr_right fun hnew => ?_))⟩
          refine ⟨fun ⟨hin, hrest⟩ => ⟨List.mem_cons_of_mem n hin, hrest⟩,
            fun ⟨hin, hpath, hw, hreg⟩ => ⟨?_, hpath, hw, hreg⟩⟩
          refine (List.mem_cons.mp hin).resolve_left ?_
          rintro rfl
          exact htake ⟨⟨hw, hnew⟩, hreg⟩

/-- A regular file of a directory that is wanted. -/
def Offers (view : View) (namePattern : Option Str) (name dir : Str) : Prop :=
  HasEntry view dir name ∧ Wanted namePattern name ∧ IsRegular view dir name

theorem firstWith_cons {P : Str → Prop} {d dir : Str} {dirs : List Str} :
    FirstWith P (d :: dirs) dir ↔ (P d ∧ dir = d) ∨ (¬P d ∧ FirstWith P dirs dir) := by
  constructor
  · rintro ⟨before, after, heq, hbefore, hdir⟩
    cases before with
    | nil =>
      obtain ⟨rfl, rfl⟩ := List.cons.inj heq
      exact .inl ⟨hdir, rfl⟩
    | cons b before =>
      obtain ⟨rfl, rfl⟩ := List.cons.inj heq
      exact .inr ⟨hbefore d List.mem_cons_self, before, after, rfl,
        fun e he => hbefore e (List.mem_cons_of_mem d he), hdir⟩
  · rintro (⟨hd, rfl⟩ | ⟨hd, before, after, rfl, hbefore, hdir⟩)
    · exact ⟨[], dirs, rfl, nofun, hd⟩
    · refine ⟨d :: before, after, rfl, fun e he => ?_, hdir⟩
      rcases List.mem_cons.mp he with rfl | he
      · exact hd
      · exact hbefore e he

/-- **All directories**: a name is taken from the first of them that offers it. -/
theorem selectDirs_spec : ∀ {dirs : List Str} {selected selected' : List (Str × Str)}, Keyed selected →
    selectDirs view namePattern dirs selected = .ok selected' → Keyed selected' ∧
      ∀ name path, (name, path) ∈ selected' ↔ (name, path) ∈ selected ∨ (name ∉ selected.map Prod.fst ∧
        ∃ dir, FirstWith (Offers view namePattern name) dirs dir ∧ path = dir ++ "/" ++ name)
  | [], selected, selected', hkeyed, h => by
    cases h
    refine ⟨hkeyed, fun name path => ⟨.inl, fun hmem => hmem.resolve_right ?_⟩⟩
    rintro ⟨-, dir, ⟨before, after, heq, -⟩, -⟩
    cases before <;> cases heq
  | scanDir :: dirs, selected, selected', hkeyed, h => by
    rw [selectDirs] at h
    by_cases hmode : view.mode scanDir = some "directory".toList
    · rw [if_pos hmode] at h
      cases hnames : view.names scanDir with
      | error e =>
        rw [hnames] at h
        cases h
      | ok names =>
        rw [hnames] at h
        dsimp only [bind, Except.bind] at h
        cases hsel : selectNames view namePattern scanDir names selected with
        | error e =>
          rw [hsel] at h
          cases h
        | ok selected₁ =>
          rw [hsel] at h
          dsimp only at h
          obtain ⟨hkeyed₁, hmem₁⟩ := selectNames_spec hkeyed hsel
          obtain ⟨hkeyed', hmem⟩ := selectDirs_spec hkeyed₁ h
          have hentry : ∀ name, HasEntry view scanDir name ↔ name ∈ names := by
            intro name
            refine ⟨fun ⟨_, names', hnames', hin⟩ => ?_, fun hin => ⟨hmode, names, hnames, hin⟩⟩
            rw [hnames] at hnames'
            cases hnames'
            exact hin
          have hkey₁ : ∀ name, name ∈ selected₁.map Prod.fst ↔
              name ∈ selected.map Prod.fst ∨ Offers view namePattern name scanDir := by
            intro name
            rw [mem_keys, mem_keys]
            simp only [hmem₁, Offers, hentry]
            constructor
            · rintro ⟨path, hin | ⟨-, hin, -, hw, hreg⟩⟩
              · exact .inl ⟨path, hin⟩
              · exact .inr ⟨hin, hw, hreg⟩
            · rintro (⟨path, hin⟩ | ⟨hin, hw, hreg⟩)
              · exact ⟨path, .inl hin⟩
              · by_cases hold : name ∈ selected.map Prod.fst
                · obtain ⟨path, hpath⟩ := mem_keys.mp hold
                  exact ⟨path, .inl hpath⟩
                · exact ⟨_, .inr ⟨hold, hin, rfl, hw, hreg⟩⟩
          refine ⟨hkeyed', fun name path => (hmem name path).trans ?_⟩
          rw [hmem₁, hkey₁, not_or, or_assoc, and_assoc, ← and_or_left]
          refine or_congr_right (and_congr_right fun _ => ?_)
          simp only [firstWith_cons]
          constructor
          · rintro (⟨hin, rfl, hw, hreg⟩ | ⟨hno, dir, hfirst, rfl⟩)
            · exact ⟨scanDir, .inl ⟨⟨(hentry name).mpr hin, hw, hreg⟩, rfl⟩, rfl⟩
            · exact ⟨dir, .inr ⟨hno, hfirst⟩, rfl⟩
          · rintro ⟨dir, ⟨hoff, rfl⟩ | ⟨hno, hfirst⟩, rfl⟩
            · exact .inl ⟨(hentry name).mp hoff.1, rfl, hoff.2.1, hoff.2.2⟩
            · exact .inr ⟨hno, dir, hfirst, rfl⟩
    · rw [if_neg hmode] at h
      have hno : ∀ name, ¬Offers view namePattern name scanDir := fun name hoff => hmode hoff.1.1
      obtain ⟨hkeyed', hmem⟩ := selectDirs_spec hkeyed h
      refine ⟨hkeyed', fun name path => (hmem name path).trans ?_⟩
      simp only [firstWith_cons, hno name, false_and, false_or, not_false_eq_true, true_and]

/-! ## The list of files -/

/-- The files are the ones that are chosen, one for each name, in the order of the names. -/
structure Selects (chosen : Str → Str → Prop) (files : List Str) : Prop where
  exists_names : ∃ (names : List Str) (dirOf : Str → Str), names.Pairwise (· < ·) ∧
    files = names.map (fun name => dirOf name ++ "/" ++ name) ∧ (∀ name ∈ names, chosen name (dirOf name)) ∧
    ∀ name dir, chosen name dir → name ∈ names

theorem FirstWith.unique {P : Str → Prop} : ∀ {dirs : List Str} {d d' : Str}, FirstWith P dirs d → FirstWith P dirs d' →
    d = d'
  | [], _, _, ⟨before, _, heq, _⟩, _ => by cases before <;> cases heq
  | e :: dirs, d, d', h, h' => by
    rcases firstWith_cons.mp h with ⟨he, rfl⟩ | ⟨he, h⟩
    · rcases firstWith_cons.mp h' with ⟨-, rfl⟩ | ⟨hne, -⟩
      · rfl
      · exact absurd he hne
    · rcases firstWith_cons.mp h' with ⟨he', -⟩ | ⟨-, h'⟩
      · exact absurd he' he
      · exact h.unique h'

/-- Where a name has one directory at most, the list is determined. -/
theorem Selects.unique {chosen : Str → Str → Prop} (hfun : ∀ name d d', chosen name d → chosen name d' → d = d')
    {files files' : List Str} (h : Selects chosen files) (h' : Selects chosen files') : files = files' := by
  obtain ⟨names, dirOf, hsorted, rfl, hchosen, hall⟩ := h.exists_names
  obtain ⟨names', dirOf', hsorted', rfl, hchosen', hall'⟩ := h'.exists_names
  have hmem : ∀ name, name ∈ names ↔ name ∈ names' := fun name =>
    ⟨fun hn => hall' name _ (hchosen name hn), fun hn => hall name _ (hchosen' name hn)⟩
  have hperm : names.Perm names' :=
    (List.perm_ext_iff_of_nodup (hsorted.imp fun h => ne_of_lt h) (hsorted'.imp fun h => ne_of_lt h)).mpr hmem
  obtain rfl : names = names' :=
    hperm.eq_of_pairwise (fun a b _ _ hab hba => absurd hab (lt_asymm hba)) hsorted hsorted'
  refine List.map_congr_left fun name hn => ?_
  rw [hfun name _ _ (hchosen name hn) (hchosen' name hn)]

theorem sortedUniqueFiles_selects {baseDirs : List Str} {relativeDir : Option Str} {files : List Str}
    (h : sortedUniqueFiles view baseDirs relativeDir namePattern = .ok files) :
    Selects (fun name => FirstWith (Offers view namePattern name) (baseDirs.map (joinLeaf · relativeDir))) files := by
  unfold sortedUniqueFiles at h
  cases hsel : selectDirs view namePattern (baseDirs.map (joinLeaf · relativeDir)) [] with
  | error e =>
    rw [hsel] at h
    cases h
  | ok selected =>
    rw [hsel] at h
    cases h
    obtain ⟨hkeyed, hmem⟩ := selectDirs_spec (show Keyed [] from List.nodup_nil) hsel
    replace hmem : ∀ name path, (name, path) ∈ selected ↔ ∃ dir,
        FirstWith (Offers view namePattern name) (baseDirs.map (joinLeaf · relativeDir)) dir ∧
          path = dir ++ "/" ++ name := by
      intro name path
      simpa using hmem name path
    have hdir : ∀ name, ∃ dir, name ∈ selected.map Prod.fst →
        FirstWith (Offers view namePattern name) (baseDirs.map (joinLeaf · relativeDir)) dir ∧
          selected.lookup name = some (dir ++ "/" ++ name) := by
      intro name
      by_cases hname : name ∈ selected.map Prod.fst
      · obtain ⟨path, hpath⟩ := mem_keys.mp hname
        obtain ⟨dir, hfirst, rfl⟩ := (hmem name path).mp hpath
        exact ⟨dir, fun _ => ⟨hfirst, (lookup_of_mem hkeyed).mpr hpath⟩⟩
      · exact ⟨[], fun h => absurd h hname⟩
    choose dirOf hdirOf using hdir
    have hsorted : (sortStrs (selected.map Prod.fst)).Pairwise (· < ·) := by
      have hle : (sortStrs (selected.map Prod.fst)).Pairwise (· ≤ ·) := List.pairwise_insertionSort _ _
      have hne : (sortStrs (selected.map Prod.fst)).Pairwise (· ≠ ·) :=
        (List.perm_insertionSort _ _).nodup_iff.mpr hkeyed
      exact hle.imp₂ (fun a b => lt_of_le_of_ne) hne
    refine ⟨⟨sortStrs (selected.map Prod.fst), dirOf, hsorted, ?_, fun name hname => ?_, fun name dir hfirst => ?_⟩⟩
    · have hpath : ∀ name ∈ sortStrs (selected.map Prod.fst),
          selected.lookup name = (some ∘ fun name => dirOf name ++ "/" ++ name) name :=
        fun name hname => (hdirOf name (mem_sortStrs.mp hname)).2
      rw [List.filterMap_congr hpath, List.filterMap_eq_map]
    · exact (hdirOf name (mem_sortStrs.mp hname)).1
    · exact mem_sortStrs.mpr (mem_keys.mpr ⟨_, (hmem name _).mpr ⟨dir, hfirst, rfl⟩⟩)

/-! ## Masking -/

/-- What should be chosen for a name: the first directory that has an entry of the name, if that is a regular file. -/
def Takes (view : View) (namePattern : Option Str) (dirs : List Str) (name dir : Str) : Prop :=
  FirstWith (HasEntry view · name) dirs dir ∧ Wanted namePattern name ∧ IsRegular view dir name

/-- **The masking rule**: one path for each name at most, in the order of the names, and from the first directory with
an entry of the name. -/
def FollowsMasking (view : View) (namePattern : Option Str) (dirs files : List Str) : Prop :=
  Selects (Takes view namePattern dirs) files

/-- An entry that is no regular file, in the first directory with such a name, has no regular file behind it. -/
def NothingUnmasked (view : View) (namePattern : Option Str) (dirs : List Str) : Prop :=
  ∀ name dir, Wanted namePattern name → FirstWith (HasEntry view · name) dirs dir → ¬IsRegular view dir name →
    ∀ d ∈ dirs, HasEntry view d name → ¬IsRegular view d name

theorem exists_firstWith {P : Str → Prop} : ∀ {dirs : List Str}, (∃ d ∈ dirs, P d) → ∃ d, FirstWith P dirs d
  | [], ⟨_, hmem, _⟩ => by cases hmem
  | e :: dirs, ⟨d, hmem, hd⟩ => by
    by_cases he : P e
    · exact ⟨e, firstWith_cons.mpr (.inl ⟨he, rfl⟩)⟩
    · have htail : d ∈ dirs := (List.mem_cons.mp hmem).resolve_left fun h => he (h ▸ hd)
      obtain ⟨d', hd'⟩ := exists_firstWith ⟨d, htail, hd⟩
      exact ⟨d', firstWith_cons.mpr (.inr ⟨he, hd'⟩)⟩

theorem FirstWith.mem {P : Str → Prop} {dirs : List Str} {d : Str} (h : FirstWith P dirs d) : d ∈ dirs ∧ P d := by
  obtain ⟨before, after, rfl, -, hd⟩ := h
  exact ⟨by simp, hd⟩

/-- What is first with a property is first with a weaker one, if nothing before it has that. -/
theorem FirstWith.imp {P Q : Str → Prop} {dirs : List Str} {d e : Str} (hPQ : ∀ x, P x → Q x) (h : FirstWith P dirs d)
    (hQ : FirstWith Q dirs e) (he : P e) : d = e := by
  refine h.unique ?_
  obtain ⟨before, after, rfl, hbefore, -⟩ := hQ
  exact ⟨before, after, rfl, fun x hx hp => hbefore x hx (hPQ x hp), he⟩

/-- Where nothing is unmasked, the first directory that offers a name is the first that has it. -/
theorem offers_iff_takes {dirs : List Str} (h : NothingUnmasked view namePattern dirs) (name dir : Str) :
    FirstWith (Offers view namePattern name) dirs dir ↔ Takes view namePattern dirs name dir := by
  constructor
  · intro hoff
    obtain ⟨hmem, hentry, hwanted, hregular⟩ := hoff.mem
    obtain ⟨e, hfirst⟩ := exists_firstWith (P := (HasEntry view · name)) ⟨dir, hmem, hentry⟩
    have hreg : IsRegular view e name := by
      by_contra hno
      exact h name e hwanted hfirst hno dir hmem hentry hregular
    obtain rfl := hoff.imp (fun _ hx => hx.1) hfirst ⟨hfirst.mem.2, hwanted, hreg⟩
    exact ⟨hfirst, hwanted, hregular⟩
  · rintro ⟨⟨before, after, rfl, hbefore, hentry⟩, hwanted, hregular⟩
    exact ⟨before, after, rfl, fun x hx hoff => hbefore x hx hoff.1, hentry, hwanted, hregular⟩

/-- What `readdir` gives: names without a slash. -/
def View.ProperNames (view : View) : Prop :=
  ∀ dir names, view.names dir = .ok names → ∀ name ∈ names, name ≠ [] ∧ '/' ∉ name

theorem View.ProperNames.inj (h : view.ProperNames) {d d' n n' : Str} (hn : HasEntry view d n)
    (hn' : HasEntry view d' n') (heq : d ++ "/" ++ n = d' ++ "/" ++ n') : d = d' ∧ n = n' := by
  obtain ⟨-, names, hnames, hmem⟩ := hn
  obtain ⟨-, names', hnames', hmem'⟩ := hn'
  obtain ⟨hne, hslash⟩ := h d names hnames n hmem
  obtain ⟨hne', hslash'⟩ := h d' names' hnames' n' hmem'
  have hsplit : (d, n) = (d', n') := by
    rw [← splitPath_slash hne hslash, ← splitPath_slash hne' hslash']
    exact congrArg splitPath (by simpa using heq)
  exact ⟨(Prod.mk.inj hsplit).1, (Prod.mk.inj hsplit).2⟩

/-- A list that is right both ways leaves nothing unmasked. -/
theorem nothingUnmasked_of_selects (hproper : view.ProperNames) {dirs files : List Str}
    (hcode : Selects (fun name => FirstWith (Offers view namePattern name) dirs) files)
    (hmask : FollowsMasking view namePattern dirs files) : NothingUnmasked view namePattern dirs := by
  intro name dir hwanted hfirst hno d hd hentry hregular
  obtain ⟨names, dirOf, -, hfiles, hchosen, hall⟩ := hcode.exists_names
  obtain ⟨names', dirOf', -, hfiles', hchosen', -⟩ := hmask.exists_names
  obtain ⟨e, he⟩ := exists_firstWith (P := Offers view namePattern name) ⟨d, hd, hentry, hwanted, hregular⟩
  have hname := hall name e he
  have hpath : dirOf name ++ "/" ++ name ∈ files := by
    rw [hfiles]
    exact List.mem_map_of_mem (f := fun name => dirOf name ++ "/" ++ name) hname
  rw [hfiles'] at hpath
  obtain ⟨n, hn, heq⟩ := List.mem_map.mp hpath
  obtain ⟨hfirst', -, hregular'⟩ := hchosen' n hn
  obtain ⟨hdir, rfl⟩ := hproper.inj hfirst'.mem.2 (hchosen name hname).mem.2.1 heq
  rw [hfirst'.unique hfirst] at hregular'
  exact hno hregular'

/-- Views with the same kinds of paths and the same entries, in any order. -/
structure SameEntries (view view' : View) : Prop where
  mode : view'.mode = view.mode
  names : ∀ dir names, view.names dir = .ok names → ∃ names', view'.names dir = .ok names' ∧ ∀ n, n ∈ names' ↔ n ∈ names

theorem selectNames_total (hpattern : ∀ name, ∃ b, nameMatches namePattern name = .ok b) {scanDir : Str} :
    ∀ (names : List Str) (selected : List (Str × Str)),
      ∃ selected', selectNames view namePattern scanDir names selected = .ok selected'
  | [], selected => ⟨selected, rfl⟩
  | name :: names, selected => by
    obtain ⟨b, hb⟩ := hpattern name
    rw [selectNames, hb]
    dsimp only [bind, Except.bind]
    split
    · exact selectNames_total hpattern names selected
    · split
      · exact selectNames_total hpattern names _
      · exact selectNames_total hpattern names selected

theorem selectDirs_total (hpattern : ∀ name, ∃ b, nameMatches namePattern name = .ok b) :
    ∀ {dirs : List Str} (selected : List (Str × Str)),
      (∀ d ∈ dirs, view.mode d = some "directory".toList → ∃ names, view.names d = .ok names) →
      ∃ selected', selectDirs view namePattern dirs selected = .ok selected'
  | [], selected, _ => ⟨selected, rfl⟩
  | d :: dirs, selected, h => by
    have htail : ∀ e ∈ dirs, view.mode e = some "directory".toList → ∃ names, view.names e = .ok names :=
      fun e he => h e (List.mem_cons_of_mem d he)
    rw [selectDirs]
    split
    · next hmode =>
      obtain ⟨names, hnames⟩ := h d List.mem_cons_self hmode
      obtain ⟨selected₁, hsel⟩ := @selectNames_total view namePattern hpattern d names selected
      rw [hnames]
      dsimp only [bind, Except.bind]
      rw [hsel]
      exact selectDirs_total hpattern selected₁ htail
    · exact selectDirs_total hpattern selected htail

theorem sortedUniqueFiles_total (hpattern : ∀ name, ∃ b, nameMatches namePattern name = .ok b) {baseDirs : List Str}
    {relativeDir : Option Str} (h : ∀ d ∈ baseDirs.map (joinLeaf · relativeDir), view.mode d = some "directory".toList →
      ∃ names, view.names d = .ok names) :
    ∃ files, sortedUniqueFiles view baseDirs relativeDir namePattern = .ok files := by
  obtain ⟨selected, hsel⟩ := selectDirs_total hpattern [] h
  unfold sortedUniqueFiles
  rw [hsel]
  exact ⟨_, rfl⟩

theorem SameEntries.offers {view' : View} (h : SameEntries view view') {name dir : Str}
    (hread : view.mode dir = some "directory".toList → ∃ names, view.names dir = .ok names) :
    Offers view' namePattern name dir ↔ Offers view namePattern name dir := by
  unfold Offers HasEntry IsRegular
  rw [h.mode]
  refine and_congr_left fun _ => and_congr_right fun hmode => ?_
  obtain ⟨names, hnames⟩ := hread hmode
  obtain ⟨names', hnames', hmem⟩ := h.names dir names hnames
  rw [hnames, hnames']
  simp [hmem]

theorem firstWith_congr {P Q : Str → Prop} {dirs : List Str} (h : ∀ d ∈ dirs, (P d ↔ Q d)) {dir : Str} :
    FirstWith P dirs dir ↔ FirstWith Q dirs dir := by
  induction dirs with
  | nil =>
    constructor <;>
      · rintro ⟨before, after, heq, -⟩
        cases before <;> cases heq
  | cons d dirs ih =>
    rw [firstWith_cons, firstWith_cons, h d List.mem_cons_self, ih fun e he => h e (List.mem_cons_of_mem d he)]

end Select

/-- **The effective files**: whatever the order of the entries, the files are the same; and they follow the masking rule
exactly where no regular file stands behind an entry of another kind. -/
theorem sorted_unique_files_masks_iff (view : View) (baseDirs : List Str) (relativeDir namePattern : Option Str)
    (hproper : view.ProperNames) (hpattern : ∀ name, ∃ b, nameMatches namePattern name = .ok b)
    (hread : ∀ d ∈ baseDirs.map (joinLeaf · relativeDir), view.mode d = some "directory".toList →
      ∃ names, view.names d = .ok names) :
    ∃ files, sortedUniqueFiles view baseDirs relativeDir namePattern = .ok files ∧
      (∀ view', SameEntries view view' → sortedUniqueFiles view' baseDirs relativeDir namePattern = .ok files) ∧
      (FollowsMasking view namePattern (baseDirs.map (joinLeaf · relativeDir)) files ↔
        NothingUnmasked view namePattern (baseDirs.map (joinLeaf · relativeDir))) := by
  obtain ⟨files, hfiles⟩ := sortedUniqueFiles_total hpattern hread
  have hcode := sortedUniqueFiles_selects hfiles
  refine ⟨files, hfiles, fun view' hsame => ?_, fun hmask => nothingUnmasked_of_selects hproper hcode hmask,
    fun hnone => ?_⟩
  · have hread' : ∀ d ∈ baseDirs.map (joinLeaf · relativeDir), view'.mode d = some "directory".toList →
        ∃ names, view'.names d = .ok names := by
      intro d hd hmode
      rw [hsame.mode] at hmode
      obtain ⟨names, hnames⟩ := hread d hd hmode
      obtain ⟨names', hnames', -⟩ := hsame.names d names hnames
      exact ⟨names', hnames'⟩
    obtain ⟨files', hfiles'⟩ := sortedUniqueFiles_total hpattern hread'
    have hcode' := sortedUniqueFiles_selects hfiles'
    have hchosen : (fun name => FirstWith (Offers view' namePattern name) (baseDirs.map (joinLeaf · relativeDir))) =
        fun name => FirstWith (Offers view namePattern name) (baseDirs.map (joinLeaf · relativeDir)) := by
      funext name dir
      exact propext (firstWith_congr fun d hd => hsame.offers (hread d hd))
    rw [hchosen] at hcode'
    rw [hfiles', hcode'.unique (fun _ _ _ h h' => h.unique h') hcode]
  · have hchosen : (fun name => FirstWith (Offers view namePattern name) (baseDirs.map (joinLeaf · relativeDir))) =
        Takes view namePattern (baseDirs.map (joinLeaf · relativeDir)) := by
      funext name dir
      exact propext (offers_iff_takes hnone name dir)
    rw [hchosen] at hcode
    exact hcode

/-! ## A mask -/

/-- Two directories with the entry `50.conf`: the first one has a link to `/dev/null` or a file, as `kind` says. -/
def sysctlDirs (kind : Str) : View where
  mode path :=
    if path = "/etc/sysctl.d".toList ∨ path = "/usr/lib/sysctl.d".toList then some "directory".toList
    else if path = "/etc/sysctl.d/50.conf".toList then some kind
    else if path = "/usr/lib/sysctl.d/50.conf".toList then some "file".toList
    else none
  names _ := .ok [".".toList, "..".toList, "50.conf".toList]
  lines _ := .ok []

theorem sysctlDirs_entry {kind dir name : Str} {names : List Str} (h : (sysctlDirs kind).names dir = .ok names)
    (hname : name ∈ names) : name = ".".toList ∨ name = "..".toList ∨ name = "50.conf".toList := by
  cases h
  simpa using hname

theorem sysctlDirs_properNames (kind : Str) : (sysctlDirs kind).ProperNames := by
  intro dir names hnames name hmem
  rcases sysctlDirs_entry hnames hmem with rfl | rfl | rfl <;> decide

theorem firstWith_head {P : Str → Prop} {d : Str} {dirs : List Str} (h : P d) : FirstWith P (d :: dirs) d :=
  ⟨[], dirs, rfl, nofun, h⟩

theorem sysctl_files_masked :
    ∃ files, sortedUniqueFiles (sysctlDirs "file".toList) ["/etc".toList, "/usr/lib".toList] (some "sysctl.d".toList)
        none = .ok files ∧
      (∀ view', SameEntries (sysctlDirs "file".toList) view' →
        sortedUniqueFiles view' ["/etc".toList, "/usr/lib".toList] (some "sysctl.d".toList) none = .ok files) ∧
      FollowsMasking (sysctlDirs "file".toList) none ["/etc/sysctl.d".toList, "/usr/lib/sysctl.d".toList] files := by
  obtain ⟨files, hfiles, hsame, hiff⟩ := sorted_unique_files_masks_iff (sysctlDirs "file".toList)
    ["/etc".toList, "/usr/lib".toList] (some "sysctl.d".toList) none (sysctlDirs_properNames _) (fun _ => ⟨true, rfl⟩)
    (fun _ _ _ => ⟨_, rfl⟩)
  refine ⟨files, hfiles, hsame, hiff.mpr ?_⟩
  intro name dir hwanted hfirst hno
  obtain ⟨hmem, -, names, hnames, hname⟩ := hfirst.mem
  have hdir : dir = "/etc/sysctl.d".toList ∨ dir = "/usr/lib/sysctl.d".toList := by simpa [joinLeaf] using hmem
  rcases sysctlDirs_entry hnames hname with rfl | rfl | rfl
  · exact absurd rfl hwanted.1
  · exact absurd rfl hwanted.2.1
  · rcases hdir with rfl | rfl <;> exact absurd rfl hno

/-- A link to `/dev/null` hides nothing: the file behind it is listed. -/
theorem sysctl_mask_ignored :
    ∃ files, sortedUniqueFiles (sysctlDirs "char device".toList) ["/etc".toList, "/usr/lib".toList]
        (some "sysctl.d".toList) none = .ok files ∧
      ¬FollowsMasking (sysctlDirs "char device".toList) none ["/etc/sysctl.d".toList, "/usr/lib/sysctl.d".toList]
        files := by
  refine ⟨["/usr/lib/sysctl.d/50.conf".toList], by decide +kernel, fun h => ?_⟩
  obtain ⟨names, dirOf, -, hfiles, hchosen, -⟩ := h.exists_names
  cases names with
  | nil => cases hfiles
  | cons name names =>
    obtain ⟨hfirst, hwanted, hregular⟩ := hchosen name List.mem_cons_self
    obtain ⟨-, names, hnames, hname⟩ := hfirst.mem.2
    rcases sysctlDirs_entry hnames hname with rfl | rfl | rfl
    · exact absurd rfl hwanted.1
    · exact absurd rfl hwanted.2.1
    · have hetc : FirstWith (HasEntry (sysctlDirs "char device".toList) · "50.conf".toList)
          ["/etc/sysctl.d".toList, "/usr/lib/sysctl.d".toList] "/etc/sysctl.d".toList :=
        firstWith_head ⟨rfl, _, rfl, by decide⟩
      rw [hfirst.unique hetc] at hregular
      unfold IsRegular at hregular
      exact absurd hregular (by decide)

end Seharden
