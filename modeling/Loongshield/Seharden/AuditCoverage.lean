import Loongshield.Seharden.AuditProbe

/-!
# The order of the lines, and further lines

What `find_syscall_rule_in_lines` makes of its buckets depends only on which lines count for which exit value, which
architectures they name and which system calls they list.

- `Counts`, `Active`, `Covers`: a line counts for an exit value; an architecture has a counted line; a counted line of
  an architecture lists a system call;
- `missesSyscall_iff`: the three ways to decide that a system call is missing, in these terms;
- `syscall_coverage_order_free`: the order of the lines does not matter; a further line can only make more system calls
  missing if it is the first one of its architecture and changes the way to decide.
-/

namespace Seharden

open Lua

/-! ## Buckets -/

namespace Buckets

/-- The bucket of an architecture and an exit key holds a system call. -/
def Holds (b : Buckets) (arch exitKey syscall : Str) : Prop := ∃ found, b.bucket arch exitKey = some found ∧
    syscall ∈ found

/-- Only architectures with an entry have buckets. -/
def WellFormed (b : Buckets) : Prop := ∀ arch exitKey, b.bucket arch exitKey ≠ none → arch ∈ b.arches

variable {b : Buckets} {arch exitKey a e s : Str} {found : List Str}

theorem mem_arches_add : a ∈ (b.add arch exitKey found).arches ↔ a ∈ b.arches ∨ a = arch := mem_appendUnique

theorem holds_add : (b.add arch exitKey found).Holds a e s ↔
    b.Holds a e s ∨ (a = arch ∧ e = exitKey ∧ s ∈ found) := by
  unfold Holds add
  dsimp only
  split
  · next h =>
    obtain ⟨rfl, rfl⟩ := h
    cases hb : b.bucket a e <;> simp
  · next h =>
    refine ⟨.inl, fun h' => h'.elim id fun ⟨ha, he, _⟩ => absurd ⟨ha, he⟩ h⟩

theorem wellFormed_add (h : b.WellFormed) : (b.add arch exitKey found).WellFormed := by
  intro a e hne
  rw [mem_arches_add]
  unfold add at hne
  dsimp only at hne
  split at hne
  · next hae => exact .inr hae.1
  · exact .inl (h a e hne)

end Buckets

/-! ## The lines that count -/

section Coverage

variable (params : Value) (auidMin : Option Flt)

/-- The line counts for an exit value. -/
def Counts (line : Str) (exitValue : Value) : Prop := lineMatchesSyscallFilters line params auidMin exitValue = .ok true

/-- The required system calls that are names, and that the line lists. -/
def listed (line : Str) : List Str :=
  ((params.field "syscalls").ipairs.filterMap keyText).filter fun s => (collectSyscalls line).contains s

variable {params auidMin}

/-- The loop over the exit values returns iff every check does. -/
theorem collectExits_returns {line : Str} : ∀ {exits : List ExitRequirement} {b : Buckets},
    (∃ b', collectExits params auidMin line exits b = .ok b') ↔
      ∀ e ∈ exits, ∃ r, lineMatchesSyscallFilters line params auidMin e.value = .ok r
  | [], b => by simp [collectExits]
  | e :: exits, b => by
    unfold collectExits
    cases h : lineMatchesSyscallFilters line params auidMin e.value with
    | error err => simp [bind, Except.bind, h]
    | ok r =>
      simp only [bind, Except.bind, List.forall_mem_cons, h, Except.ok.injEq, exists_eq', true_and]
      split <;> exact collectExits_returns

theorem collectExits_spec {line : Str} : ∀ {exits : List ExitRequirement} {b b' : Buckets},
    collectExits params auidMin line exits b = .ok b' → b.WellFormed → b'.WellFormed ∧
      (∀ a, a ∈ b'.arches ↔ a ∈ b.arches ∨ ∃ e ∈ exits, Counts params auidMin line e.value ∧ archKey line = a) ∧
      ∀ a k s, b'.Holds a k s ↔ b.Holds a k s ∨
        ∃ e ∈ exits, Counts params auidMin line e.value ∧ archKey line = a ∧ e.key = k ∧ s ∈ listed params line
  | [], b, b', h, hwf => by
    cases h
    simp [hwf]
  | e :: exits, b, b', h, hwf => by
    unfold collectExits at h
    obtain ⟨r, hr, h⟩ := bind_ok.mp h
    cases r with
    | false =>
      obtain ⟨hwf', harch, hholds⟩ := collectExits_spec h hwf
      have hno : ¬ Counts params auidMin line e.value := by
        rw [Counts, hr]
        simp
      refine ⟨hwf', fun a => ?_, fun a k s => ?_⟩
      · rw [harch]
        simp [hno]
      · rw [hholds]
        simp [hno]
    | true =>
      obtain ⟨hwf', harch, hholds⟩ := collectExits_spec h (Buckets.wellFormed_add hwf)
      have hyes : Counts params auidMin line e.value := hr
      refine ⟨hwf', fun a => ?_, fun a k s => ?_⟩
      · rw [harch, Buckets.mem_arches_add, List.exists_mem_cons_iff, or_assoc]
        simp only [hyes, true_and, eq_comm]
      · rw [hholds, Buckets.holds_add, List.exists_mem_cons_iff, or_assoc]
        simp only [hyes, true_and, eq_comm, listed]

/-- The loop over the lines returns iff every check of every line does. -/
theorem collectBuckets_returns {exits : List ExitRequirement} : ∀ {lines : List Str} {b : Buckets},
    (∃ b', collectBuckets params auidMin exits lines b = .ok b') ↔
      ∀ line ∈ lines, ∀ e ∈ exits, ∃ r, lineMatchesSyscallFilters line params auidMin e.value = .ok r
  | [], b => by simp [collectBuckets]
  | line :: lines, b => by
    rw [List.forall_mem_cons, ← @collectExits_returns params auidMin line exits b]
    unfold collectBuckets
    cases h : collectExits params auidMin line exits b with
    | error err => simp [bind, Except.bind]
    | ok b' =>
      simp only [bind, Except.bind, Except.ok.injEq, exists_eq', true_and]
      exact collectBuckets_returns

theorem collectBuckets_spec {exits : List ExitRequirement} : ∀ {lines : List Str} {b b' : Buckets},
    collectBuckets params auidMin exits lines b = .ok b' → b.WellFormed → b'.WellFormed ∧
      (∀ a, a ∈ b'.arches ↔ a ∈ b.arches ∨
        ∃ line ∈ lines, ∃ e ∈ exits, Counts params auidMin line e.value ∧ archKey line = a) ∧
      ∀ a k s, b'.Holds a k s ↔ b.Holds a k s ∨ ∃ line ∈ lines, ∃ e ∈ exits,
        Counts params auidMin line e.value ∧ archKey line = a ∧ e.key = k ∧ s ∈ listed params line
  | [], b, b', h, hwf => by
    cases h
    simp [hwf]
  | line :: lines, b, b', h, hwf => by
    unfold collectBuckets at h
    obtain ⟨b₁, h₁, h⟩ := bind_ok.mp h
    obtain ⟨hwf₁, harch₁, hholds₁⟩ := collectExits_spec h₁ hwf
    obtain ⟨hwf', harch, hholds⟩ := collectBuckets_spec h hwf₁
    refine ⟨hwf', fun a => ?_, fun a k s => ?_⟩
    · rw [harch, harch₁, List.exists_mem_cons_iff, or_assoc]
    · rw [hholds, hholds₁, List.exists_mem_cons_iff, or_assoc]

variable (params auidMin)

/-- An architecture has a line that counts. -/
def Active (exits : List ExitRequirement) (lines : List Str) (arch : Str) : Prop :=
  arch ≠ "*".toList ∧ ∃ line ∈ lines, ∃ e ∈ exits, Counts params auidMin line e.value ∧ archKey line = arch

/-- A line of the architecture counts for the exit value and lists the system call. -/
def Covers (lines : List Str) (arch : Str) (e : ExitRequirement) (syscall : Value) : Prop :=
  ∃ line ∈ lines, archKey line = arch ∧ Counts params auidMin line e.value ∧
    ∃ s, syscall = .str s ∧ s ∈ collectSyscalls line

/-- A system call is missing. With required architectures, one of them lacks it for some exit value; lines without an
architecture help a single required one as long as no line that counts has one. Otherwise the lines without an
architecture have to list it, or together with them the lines of every architecture that has some. -/
def Misses (requiredArches : Option (List Str)) (exits : List ExitRequirement) (lines : List Str) (syscall : Value) :
    Prop :=
  match requiredArches with
  | some arches => ∃ a ∈ arches, ∃ e ∈ exits, ¬ Covers params auidMin lines a e syscall ∧
      ¬ (arches.length = 1 ∧ (∀ a', ¬ Active params auidMin exits lines a') ∧ Covers params auidMin lines "*" e syscall)
  | none =>
    ((∀ a, ¬ Active params auidMin exits lines a) ∧ ∃ e ∈ exits, ¬ Covers params auidMin lines "*" e syscall) ∨
      ∃ a, Active params auidMin exits lines a ∧ ∃ e ∈ exits, ¬ Covers params auidMin lines "*" e syscall ∧
        ¬ Covers params auidMin lines a e syscall

variable {params auidMin}

/-- The exit requirements have different keys. -/
def DistinctKeys (exits : List ExitRequirement) : Prop := ∀ e ∈ exits, ∀ e' ∈ exits, e.key = e'.key → e = e'

theorem distinctKeys_uniqueExits : ∀ {values : List Value} {normalized : List ExitRequirement},
    DistinctKeys normalized → DistinctKeys (uniqueExits values normalized)
  | [], _, h => h
  | value :: values, normalized, h => by
    unfold uniqueExits
    split
    · exact distinctKeys_uniqueExits h
    · next hno =>
      have hnew : ∀ e ∈ normalized, e.key ≠ value.tostring := by simpa using hno
      refine distinctKeys_uniqueExits fun e he e' he' hkey => ?_
      rcases List.mem_append.mp he with he | he <;> rcases List.mem_append.mp he' with he' | he'
      · exact h e he e' he' hkey
      · rw [List.mem_singleton.mp he'] at hkey
        exact absurd hkey (hnew e he)
      · rw [List.mem_singleton.mp he] at hkey
        exact absurd hkey.symm (hnew e' he')
      · rw [List.mem_singleton.mp he, List.mem_singleton.mp he']

theorem distinctKeys_of_normalize {exits : Value} {required : List ExitRequirement}
    (h : normalizeExitRequirements exits = .ok required) : DistinctKeys required := by
  unfold normalizeExitRequirements at h
  split at h
  · cases h
    simp [DistinctKeys]
  · split at h
    · cases h
    · cases h
      exact distinctKeys_uniqueExits (by simp [DistinctKeys])

section Decision

variable {exits : List ExitRequirement} {lines : List Str} {b : Buckets} {syscall : Value}

theorem mem_listed {line s : Str} : s ∈ listed params line ↔
    .str s ∈ (params.field "syscalls").ipairs ∧ s ∈ collectSyscalls line := by
  have hkey : ∀ v, keyText v = some s ↔ v = .str s := fun v => by cases v <;> simp [keyText]
  simp only [listed, List.mem_filter, List.mem_filterMap, List.contains_iff_mem, hkey, exists_eq_right]

theorem lacks_iff (hb : collectBuckets params auidMin exits lines .empty = .ok b) (hkeys : DistinctKeys exits)
    (hsyscall : syscall ∈ (params.field "syscalls").ipairs) {e : ExitRequirement} (he : e ∈ exits) (a : Str) :
    lacks (b.bucket a e.key) syscall = true ↔ ¬ Covers params auidMin lines a e syscall := by
  have hholds := (collectBuckets_spec hb (by simp [Buckets.WellFormed, Buckets.empty])).2.2 a e.key
  have hiff : (∃ s, syscall = .str s ∧ b.Holds a e.key s) ↔ Covers params auidMin lines a e syscall := by
    constructor
    · rintro ⟨s, rfl, hs⟩
      rcases (hholds s).mp hs with ⟨found, hfound, -⟩ | ⟨line, hline, e', he', hcounts, harch, hkey, hmem⟩
      · cases hfound
      · rw [hkeys e' he' e he hkey] at hcounts
        exact ⟨line, hline, harch, hcounts, s, rfl, (mem_listed.mp hmem).2⟩
    · rintro ⟨line, hline, harch, hcounts, s, rfl, hs⟩
      exact ⟨s, rfl, (hholds s).mpr (.inr ⟨line, hline, e, he, hcounts, harch, rfl, mem_listed.mpr ⟨hsyscall, hs⟩⟩)⟩
  rw [← hiff]
  unfold lacks Buckets.Holds
  cases hbucket : b.bucket a e.key with
  | none => simp
  | some found => cases syscall <;> simp

theorem mem_arches_iff (hb : collectBuckets params auidMin exits lines .empty = .ok b) (a : Str) :
    a ∈ b.arches.filter (· ≠ "*".toList) ↔ Active params auidMin exits lines a := by
  have harch := (collectBuckets_spec hb (by simp [Buckets.WellFormed, Buckets.empty])).2.1 a
  rw [List.mem_filter, harch, Active]
  simp [Buckets.empty, and_comm]

theorem isEmpty_arches_iff (hb : collectBuckets params auidMin exits lines .empty = .ok b) :
    (b.arches.filter (· ≠ "*".toList)).isEmpty = true ↔ ∀ a, ¬ Active params auidMin exits lines a := by
  rw [List.isEmpty_iff, List.eq_nil_iff_forall_not_mem]
  exact forall_congr' fun a => not_congr (mem_arches_iff hb a)

/-- The bucket that is looked at for a required architecture. -/
theorem lacks_fallback_iff (hb : collectBuckets params auidMin exits lines .empty = .ok b) (hkeys : DistinctKeys exits)
    (hsyscall : syscall ∈ (params.field "syscalls").ipairs) {e : ExitRequirement} (he : e ∈ exits) (a : Str)
    (single : Bool) :
    lacks (if (b.bucket a e.key).isNone && (single && (b.arches.filter (· ≠ "*".toList)).isEmpty)
      then b.bucket "*" e.key
        else b.bucket a e.key) syscall = true ↔
      ¬ Covers params auidMin lines a e syscall ∧
        ¬ (single = true ∧ (∀ a', ¬ Active params auidMin exits lines a') ∧
        Covers params auidMin lines "*" e syscall) := by
  have hlacks := lacks_iff hb hkeys hsyscall he
  rw [← isEmpty_arches_iff hb]
  by_cases hfallback : single = true ∧ (b.arches.filter (· ≠ "*".toList)).isEmpty = true
  · obtain ⟨hsingle, hempty⟩ := hfallback
    rw [hempty, hsingle]
    cases hbucket : b.bucket a e.key with
    | none =>
      have hnone := hlacks a
      rw [hbucket] at hnone
      simp only [Option.isNone_none, Bool.and_self, ↓reduceIte, hlacks, true_and]
      exact ⟨fun h => ⟨hnone.mp rfl, h⟩, And.right⟩
    | some found =>
      -- a bucket with no active architecture is the one of the lines without an architecture
      have hmem : a ∈ b.arches := (collectBuckets_spec hb (by simp [Buckets.WellFormed, Buckets.empty])).1 a e.key
        (by simp [hbucket])
      have hstar : a = "*".toList := by
        by_contra hne
        have hfilter : a ∈ b.arches.filter (· ≠ "*".toList) := List.mem_filter.mpr ⟨hmem, by simpa using hne⟩
        rw [List.isEmpty_iff.mp hempty] at hfilter
        exact absurd hfilter List.not_mem_nil
      have hfound := hlacks a
      rw [hbucket] at hfound
      simp only [Option.isNone_some, Bool.and_self, Bool.and_true, Bool.false_eq_true, ↓reduceIte, hfound, true_and]
      rw [hstar]
      exact ⟨fun h => ⟨h, h⟩, And.left⟩
  · have hoff : (single && (b.arches.filter (· ≠ "*".toList)).isEmpty) = false := by
      rw [Bool.and_eq_false_iff]
      by_cases hsingle : single = true
      · exact .inr (by simpa [hsingle] using hfallback)
      · exact .inl (by simpa using hsingle)
    rw [hoff, Bool.and_false, if_neg Bool.false_ne_true, hlacks a]
    exact ⟨fun h => ⟨h, fun h' => hfallback ⟨h'.1, h'.2.1⟩⟩, And.left⟩

/-- **The decision on the buckets**, in terms of the lines. -/
theorem missesSyscall_iff (hb : collectBuckets params auidMin exits lines .empty = .ok b) (hkeys : DistinctKeys exits)
    (hsyscall : syscall ∈ (params.field "syscalls").ipairs) (requiredArches : Option (List Str)) :
    missesSyscall requiredArches exits b syscall = true ↔
      Misses params auidMin requiredArches exits lines syscall := by
  have hlacks : ∀ e ∈ exits, ∀ a, lacks (b.bucket a e.key) syscall = true ↔ ¬ Covers params auidMin lines a e syscall :=
    fun e he => lacks_iff hb hkeys hsyscall he
  cases requiredArches with
  | some arches =>
    simp only [missesSyscall, Misses, List.any_eq_true]
    refine exists_congr fun a => and_congr_right fun _ => exists_congr fun e => and_congr_right fun he => ?_
    rw [lacks_fallback_iff hb hkeys hsyscall he a (arches.length == 1), beq_iff_eq]
  | none =>
    simp only [missesSyscall, Misses]
    have hany : (exits.any fun e => lacks (b.bucket "*" e.key) syscall) = true ↔
        ∃ e ∈ exits, ¬ Covers params auidMin lines "*" e syscall := by
      rw [List.any_eq_true]
      exact exists_congr fun e => and_congr_right fun he => hlacks e he "*"
    by_cases hempty : (b.arches.filter (· ≠ "*".toList)).isEmpty = true
    · rw [if_pos hempty, hany]
      have hinactive := (isEmpty_arches_iff hb).mp hempty
      exact ⟨fun h => .inl ⟨hinactive, h⟩, fun h => h.elim And.right fun h => h.elim fun a h =>
        absurd h.1 (hinactive a)⟩
    · rw [if_neg hempty, List.any_eq_true]
      have hactive := mt (isEmpty_arches_iff hb).mpr hempty
      have hboth : ∀ a, (exits.any fun e => lacks (b.bucket "*" e.key) syscall && lacks (b.bucket a e.key) syscall) =
        true ↔
          ∃ e ∈ exits, ¬ Covers params auidMin lines "*" e syscall ∧ ¬ Covers params auidMin lines a e syscall := by
        intro a
        rw [List.any_eq_true]
        refine exists_congr fun e => and_congr_right fun he => ?_
        rw [Bool.and_eq_true, hlacks e he "*", hlacks e he a]
      simp only [mem_arches_iff hb, hboth]
      exact ⟨.inr, fun h => h.elim (fun h => absurd h.1 hactive) id⟩

end Decision

/-! ## Other orders, and further lines -/

/-- Only the set of the lines matters. -/
theorem misses_congr {lines lines' : List Str} (h : ∀ line, line ∈ lines ↔ line ∈ lines')
    (requiredArches : Option (List Str)) (exits : List ExitRequirement) (syscall : Value) :
    Misses params auidMin requiredArches exits lines syscall ↔
      Misses params auidMin requiredArches exits lines' syscall := by
  have hactive : Active params auidMin exits lines = Active params auidMin exits lines' := by
    funext a
    simp only [Active, h]
  have hcovers : Covers params auidMin lines = Covers params auidMin lines' := by
    funext a e v
    simp only [Covers, h]
  simp only [Misses, hactive, hcovers]

section Added

variable (params auidMin) (requiredArches : Option (List Str)) (exits : List ExitRequirement) (lines : List Str)
  (line : Str)

/-- The line is the first one of its architecture that counts, and changes the way to decide: without required
architectures there are others to which it is added, with a single one the lines without an architecture no longer
help. -/
def Switches : Prop :=
  archKey line ≠ "*".toList ∧ (∃ e ∈ exits, Counts params auidMin line e.value) ∧
    ¬ Active params auidMin exits lines (archKey line) ∧
    match requiredArches with
    | some arches => arches.length = 1 ∧ "*".toList ∉ arches ∧ ∀ a, ¬ Active params auidMin exits lines a
    | none => ∃ a, Active params auidMin exits lines a

/-- The line lists a system call itself for all exit values, as far as it is needed. -/
def ListsAlone (syscall : Value) : Prop :=
  match requiredArches with
  | some arches => archKey line ∈ arches ∧ ∀ e ∈ exits, Covers params auidMin [line] (archKey line) e syscall
  | none => ∀ e ∈ exits, Covers params auidMin lines "*" e syscall ∨
      Covers params auidMin [line] (archKey line) e syscall

variable {params auidMin requiredArches exits lines line} {syscall : Value}

theorem active_cons {a : Str} : Active params auidMin exits (line :: lines) a ↔ Active params auidMin exits lines a ∨
    (a ≠ "*".toList ∧ (∃ e ∈ exits, Counts params auidMin line e.value) ∧ archKey line = a) := by
  unfold Active
  rw [List.exists_mem_cons_iff, and_or_left, or_comm]
  refine or_congr_right (and_congr_right fun _ => ?_)
  exact ⟨fun ⟨e, he, hc, ha⟩ => ⟨⟨e, he, hc⟩, ha⟩, fun ⟨⟨e, he, hc⟩, ha⟩ => ⟨e, he, hc, ha⟩⟩

theorem covers_cons {a : Str} {e : ExitRequirement} : Covers params auidMin (line :: lines) a e syscall ↔
    Covers params auidMin lines a e syscall ∨ Covers params auidMin [line] a e syscall := by
  unfold Covers
  rw [List.exists_mem_cons_iff, or_comm]
  simp

/-- A line that covers a system call makes its architecture active. -/
theorem Covers.active {a : Str} {e : ExitRequirement} (he : e ∈ exits) (ha : a ≠ "*".toList)
    (h : Covers params auidMin lines a e syscall) : Active params auidMin exits lines a := by
  obtain ⟨line, hline, harch, hcounts, -⟩ := h
  exact ⟨ha, line, hline, e, he, hcounts, harch⟩

theorem Covers.archKey_eq {a : Str} {e : ExitRequirement} (h : Covers params auidMin [line] a e syscall) :
    archKey line = a := by
  obtain ⟨l, hl, harch, -⟩ := h
  rw [← harch, List.mem_singleton.mp hl]

/-- A line that does not change the way to decide makes nothing missing. -/
theorem misses_of_not_switches (hno : ¬ Switches params auidMin requiredArches exits lines line)
    (h : Misses params auidMin requiredArches exits (line :: lines) syscall) :
    Misses params auidMin requiredArches exits lines syscall := by
  cases requiredArches with
  | some arches =>
    obtain ⟨a, ha, e, he, hcovers, hglobal⟩ := h
    refine ⟨a, ha, e, he, fun hc => hcovers (covers_cons.mpr (.inl hc)), ?_⟩
    rintro ⟨hlen, hinactive, hstar⟩
    refine hglobal ⟨hlen, fun a' hactive => ?_, covers_cons.mpr (.inl hstar)⟩
    -- the line made an architecture active, so it switches unless the required one is that of the bare lines
    rcases active_cons.mp hactive with hactive | ⟨hne, hcounts, harch⟩
    · exact hinactive a' hactive
    · refine hno ⟨harch ▸ hne, hcounts, hinactive _, hlen, fun hmem => ?_, hinactive⟩
      obtain ⟨r, rfl⟩ := List.length_eq_one_iff.mp hlen
      rw [List.mem_singleton.mp ha, ← List.mem_singleton.mp hmem] at hcovers
      exact hcovers (covers_cons.mpr (.inl hstar))
  | none =>
    rcases h with ⟨hinactive, e, he, hcovers⟩ | ⟨a, hactive, e, he, hstar, hcovers⟩
    · exact .inl ⟨fun a ha => hinactive a (active_cons.mpr (.inl ha)), e, he,
        fun hc => hcovers (covers_cons.mpr (.inl hc))⟩
    · have hstar' : ¬ Covers params auidMin lines "*" e syscall := fun hc => hstar (covers_cons.mpr (.inl hc))
      rcases active_cons.mp hactive with hactive | ⟨hne, hcounts, harch⟩
      · exact .inr ⟨a, hactive, e, he, hstar', fun hc => hcovers (covers_cons.mpr (.inl hc))⟩
      · by_cases hsome : ∃ a, Active params auidMin exits lines a
        · by_cases hold : Active params auidMin exits lines (archKey line)
          · exact .inr ⟨a, harch ▸ hold, e, he, hstar', fun hc => hcovers (covers_cons.mpr (.inl hc))⟩
          · exact absurd ⟨harch ▸ hne, hcounts, hold, hsome⟩ hno
        · exact .inl ⟨fun a ha => hsome ⟨a, ha⟩, e, he, hstar'⟩

/-- A line that changes it keeps a system call found if it lists it itself. -/
theorem not_misses_of_listsAlone (hswitch : Switches params auidMin requiredArches exits lines line)
    (halone : ListsAlone params auidMin requiredArches exits lines line syscall)
    (hfound : ¬ Misses params auidMin requiredArches exits lines syscall) :
    ¬ Misses params auidMin requiredArches exits (line :: lines) syscall := by
  obtain ⟨hne, hcounts, hnew, hmode⟩ := hswitch
  cases requiredArches with
  | some arches =>
    obtain ⟨hlen, -, -⟩ := hmode
    obtain ⟨hmem, hlists⟩ := halone
    rintro ⟨a, ha, e, he, hcovers, -⟩
    obtain ⟨r, rfl⟩ := List.length_eq_one_iff.mp hlen
    rw [List.mem_singleton.mp ha, ← List.mem_singleton.mp hmem] at hcovers
    exact hcovers (covers_cons.mpr (.inr (hlists e he)))
  | none =>
    obtain ⟨a₀, ha₀⟩ := hmode
    rintro (⟨hinactive, -⟩ | ⟨a, hactive, e, he, hstar, hcovers⟩)
    · exact hinactive a₀ (active_cons.mpr (.inl ha₀))
    · rcases active_cons.mp hactive with hactive | ⟨-, -, rfl⟩
      · exact hfound (.inr ⟨a, hactive, e, he, fun hc => hstar (covers_cons.mpr (.inl hc)),
          fun hc => hcovers (covers_cons.mpr (.inl hc))⟩)
      · rcases halone e he with hc | hc
        · exact hstar (covers_cons.mpr (.inl hc))
        · exact hcovers (covers_cons.mpr (.inr hc))

/-- And only then. -/
theorem listsAlone_of_not_misses (hswitch : Switches params auidMin requiredArches exits lines line)
    (hfound : ¬ Misses params auidMin requiredArches exits (line :: lines) syscall) :
    ListsAlone params auidMin requiredArches exits lines line syscall := by
  obtain ⟨hne, hcounts, hnew, hmode⟩ := hswitch
  have hactive : Active params auidMin exits (line :: lines) (archKey line) :=
    active_cons.mpr (.inr ⟨hne, hcounts, rfl⟩)
  cases requiredArches with
  | some arches =>
    obtain ⟨hlen, hstar, hinactive⟩ := hmode
    obtain ⟨r, rfl⟩ := List.length_eq_one_iff.mp hlen
    have hr : r ≠ "*".toList := fun h => hstar (by simp [h])
    have hcovers : ∀ e ∈ exits, Covers params auidMin [line] r e syscall := by
      intro e he
      by_contra hno
      refine hfound ⟨r, List.mem_singleton_self r, e, he, fun hc => ?_, fun h => h.2.1 _ hactive⟩
      rcases covers_cons.mp hc with hc | hc
      · exact hinactive r (hc.active he hr)
      · exact hno hc
    obtain ⟨e₀, he₀, -⟩ := hcounts
    have harch : archKey line = r := (hcovers e₀ he₀).archKey_eq
    exact ⟨by simp [harch], fun e he => harch ▸ hcovers e he⟩
  | none =>
    intro e he
    by_contra hno
    rw [not_or] at hno
    refine hfound (.inr ⟨archKey line, hactive, e, he, fun hc => ?_, fun hc => ?_⟩)
    · rcases covers_cons.mp hc with hc | hc
      · exact hno.1 hc
      · exact hne hc.archKey_eq
    · rcases covers_cons.mp hc with hc | hc
      · exact hnew (hc.active he hne)
      · exact hno.2 hc

end Added

/-! ## The result -/

theorem map_str_filterMap : ∀ {values : List Value}, (values.all fun v => (keyText v).isSome) = true →
    (values.filterMap keyText).map .str = values
  | [], _ => rfl
  | v :: values, h => by
    rw [List.all_cons, Bool.and_eq_true] at h
    cases v with
    | str s =>
      rw [List.filterMap_cons_some (show keyText (.str s) = some s from rfl), List.map_cons, map_str_filterMap h.2]
    | _ => cases h.1

theorem map_ofDouble_mapM : ∀ {values : List Value} {xs : List Flt}, values.mapM Value.double = some xs →
    xs.map Value.ofDouble = values
  | [], xs, h => by
    cases h
    rfl
  | v :: values, xs, h => by
    rw [List.mapM_cons] at h
    obtain ⟨x, hx, h⟩ := Option.bind_eq_some_iff.mp h
    obtain ⟨rest, hrest, hxs⟩ := Option.bind_eq_some_iff.mp h
    cases hxs
    rw [List.map_cons, map_ofDouble_mapM hrest, Value.ofDouble_double hx]

/-- Sorting keeps the values. -/
theorem sortValues_perm {values sorted : List Value} (h : sortValues values = .ok sorted) : sorted.Perm values := by
  unfold sortValues at h
  split at h
  · cases h
    exact .refl _
  · split at h
    · next hstr =>
      cases h
      have hperm := (List.perm_insertionSort (· ≤ ·) (values.filterMap keyText)).map Value.str
      rwa [map_str_filterMap hstr] at hperm
    · split at h
      · next xs hxs =>
        cases h
        have hperm := (List.perm_insertionSort (fun x y => x.le y = true) xs).map Value.ofDouble
        rwa [map_ofDouble_mapM hxs] at hperm
      · cases h

variable (params)

/-- The required architectures, of parameters in which they are valid. -/
def requiredArchesOf : Option (List Str) :=
  match normalizeRequiredArches (params.field "required_arches") with
  | .ok arches => arches
  | .error _ => none

/-- The required exit values, of parameters in which they are valid. -/
def requiredExitsOf : List ExitRequirement :=
  match normalizeExitRequirements (params.field "exits") with
  | .ok exits => exits
  | .error _ => []

variable {params}

/-- A result: the checks of the lines return, and the missing system calls are those of `Misses`. -/
theorem findSyscallRule_found {lines : List Str} {r : MissingSyscalls}
    (h : findSyscallRuleInLines lines params auidMin = .ok (.ok r)) (syscall : Value) :
    syscall ∈ r.details ↔ syscall ∈ (params.field "syscalls").ipairs ∧
      Misses params auidMin (requiredArchesOf params) (requiredExitsOf params) lines syscall := by
  unfold findSyscallRuleInLines at h
  unfold requiredArchesOf requiredExitsOf
  cases harches : normalizeRequiredArches (params.field "required_arches") with
  | error err =>
    rw [harches] at h
    cases h
  | ok arches =>
    cases hexits : normalizeExitRequirements (params.field "exits") with
    | error err =>
      rw [harches, hexits] at h
      cases h
    | ok exits =>
      rw [harches, hexits] at h
      obtain ⟨b, hb, h⟩ := bind_ok.mp h
      obtain ⟨details, hdetails, h⟩ := bind_ok.mp h
      cases h
      rw [(sortValues_perm hdetails).mem_iff, List.mem_filter]
      exact and_congr_right fun hmem => missesSyscall_iff hb (distinctKeys_of_normalize hexits) hmem arches

/-- The result in another order of the lines. -/
theorem findSyscallRule_perm {lines lines' : List Str} (hperm : lines.Perm lines')
    {res : Except Str MissingSyscalls} (h : findSyscallRuleInLines lines params auidMin = .ok res) :
    findSyscallRuleInLines lines' params auidMin = .ok res := by
  unfold findSyscallRuleInLines at h ⊢
  cases harches : normalizeRequiredArches (params.field "required_arches") with
  | error err =>
    rw [harches] at h
    exact h
  | ok arches =>
    cases hexits : normalizeExitRequirements (params.field "exits") with
    | error err =>
      rw [harches, hexits] at h
      exact h
    | ok exits =>
      rw [harches, hexits] at h
      obtain ⟨b, hb, h⟩ := bind_ok.mp h
      have hreturns := collectBuckets_returns.mp ⟨b, hb⟩
      obtain ⟨b', hb'⟩ := (@collectBuckets_returns params auidMin exits lines' .empty).mpr fun line hline =>
        hreturns line (hperm.mem_iff.mpr hline)
      have hkeys := distinctKeys_of_normalize hexits
      have hmissing : (params.field "syscalls").ipairs.filter (missesSyscall arches exits b') =
          (params.field "syscalls").ipairs.filter (missesSyscall arches exits b) := by
        refine List.filter_congr fun v hv => Bool.eq_iff_iff.mpr ?_
        rw [missesSyscall_iff hb' hkeys hv, missesSyscall_iff hb hkeys hv]
        exact (misses_congr (fun line => hperm.mem_iff) arches exits v).symm
      refine bind_ok.mpr ⟨b', hb', ?_⟩
      rw [hmissing]
      exact h

end Coverage

/-- **The order of the lines does not matter, and a further line makes no system call missing unless it changes the way
to decide**: it is the first line of its architecture that counts, there are others (or, with a single required
architecture, none so far), and it does not itself list what was found before. -/
theorem syscall_coverage_order_free (lines : List Str) (params : Value) (auidMin : Option Flt) :
    (∀ lines' res, lines.Perm lines' → findSyscallRuleInLines lines params auidMin = .ok res →
      findSyscallRuleInLines lines' params auidMin = .ok res) ∧
    ∀ line r r', findSyscallRuleInLines lines params auidMin = .ok (.ok r) →
      findSyscallRuleInLines (line :: lines) params auidMin = .ok (.ok r') →
      ((∀ syscall ∈ r'.details, syscall ∈ r.details) ↔
        (Switches params auidMin (requiredArchesOf params) (requiredExitsOf params) lines line →
          ∀ syscall ∈ (params.field "syscalls").ipairs, syscall ∉ r.details →
            ListsAlone params auidMin (requiredArchesOf params) (requiredExitsOf params) lines line syscall)) := by
  refine ⟨fun lines' res hperm h => findSyscallRule_perm hperm h, fun line r r' h h' => ?_⟩
  have hr := findSyscallRule_found h
  have hr' := findSyscallRule_found h'
  constructor
  · intro hmono hswitch syscall hmem hfound
    refine listsAlone_of_not_misses hswitch fun hmiss => hfound (hmono syscall ?_)
    exact (hr' syscall).mpr ⟨hmem, hmiss⟩
  · intro halone syscall hmissing
    obtain ⟨hmem, hmiss⟩ := (hr' syscall).mp hmissing
    by_contra hfound
    have hnot : ¬ Misses params auidMin (requiredArchesOf params) (requiredExitsOf params) lines syscall :=
      fun hmiss' => hfound ((hr syscall).mpr ⟨hmem, hmiss'⟩)
    by_cases hswitch : Switches params auidMin (requiredArchesOf params) (requiredExitsOf params) lines line
    · exact not_misses_of_listsAlone hswitch (halone hswitch syscall hmem hfound) hnot hmiss
    · exact hnot (misses_of_not_switches hswitch hmiss)

/-- The system calls of a requirement without architectures, user ids and keys. -/
def unlinkParams : Value :=
  .record 1 [("syscalls", .list 2 [.str "unlink", .str "rename"]), ("require_auid_unset_exclusion", .bool false),
    ("require_key", .bool false)]

/-- The names of the missing system calls, of a search that returned. -/
def missingNames : Except Err (Except Str MissingSyscalls) → Option (List (Option Str))
  | .ok (.ok r) => some (r.details.map keyText)
  | _ => none

theorem exists_of_missingNames {res : Except Err (Except Str MissingSyscalls)} {names : List (Option Str)}
    (h : missingNames res = some names) : ∃ r, res = .ok (.ok r) ∧ r.details.map keyText = names := by
  match res, h with
  | .ok (.ok r), h => exact ⟨r, rfl, Option.some_inj.mp h⟩

/-- A line for a second architecture makes a system call missing that was found before. -/
theorem further_line_hides_syscall :
    ¬ ∀ lines params auidMin line r r', findSyscallRuleInLines lines params auidMin = .ok (.ok r) →
      findSyscallRuleInLines (line :: lines) params auidMin = .ok (.ok r') →
      ∀ syscall ∈ r'.details, syscall ∈ r.details := by
  intro hmono
  have hbefore : missingNames (findSyscallRuleInLines ["-a always,exit -F arch=b64 -S unlink,rename".toList]
      unlinkParams none) = some [] := by decide +kernel
  have hafter : missingNames (findSyscallRuleInLines ["-a always,exit -F arch=b32 -S unlink".toList,
      "-a always,exit -F arch=b64 -S unlink,rename".toList] unlinkParams none) = some [some "rename".toList] := by
    decide +kernel
  obtain ⟨r, hr, hnone⟩ := exists_of_missingNames hbefore
  obtain ⟨r', hr', hone⟩ := exists_of_missingNames hafter
  obtain ⟨syscall, hsyscall, -⟩ : ∃ v ∈ r'.details, keyText v = some "rename".toList :=
    List.mem_map.mp (hone ▸ List.mem_singleton_self _)
  have hmem := hmono _ _ _ _ r r' hr hr' syscall hsyscall
  rw [List.map_eq_nil_iff.mp hnone] at hmem
  exact absurd hmem List.not_mem_nil

/-! ## Paths that are executed -/

/-- A line that records the execution of a path gives what it watches, and that is the path. -/
theorem pathExecLine_sound {params : Value} {auidMin : Option Flt} {line : Str} {r : FoundRule}
    (h : pathExecLine params auidMin line = some r) :
    (∃ rest, extractWatchTarget line = some (r.path, rest)) ∧
      normalizeAuditPath r.path = normalizeAuditPath (params.field "path").tostring := by
  unfold pathExecLine at h
  split at h
  · cases h
  · next watched rest htarget =>
    obtain ⟨hall, hr⟩ := Option.ite_none_right_eq_some.mp h
    cases hr
    simp only [Bool.and_eq_true, beq_iff_eq] at hall
    obtain ⟨⟨⟨⟨-, hpath⟩, -⟩, -⟩, -⟩ := hall
    exact ⟨⟨rest, htarget⟩, hpath⟩

/-- A path is found iff some line records its execution: neither the order of the lines nor their number matters. -/
theorem findPathExecRule_isSome_iff (lines : List Str) (params : Value) (auidMin : Option Flt) :
    (findPathExecRuleInLines lines params auidMin).isSome = true ↔
      ∃ line ∈ lines, (pathExecLine params auidMin line).isSome = true :=
  List.findSome?_isSome_iff

/-- **A further line hides no path**, unlike a system call. -/
theorem findPathExecRule_mono {lines lines' : List Str} {params : Value} {auidMin : Option Flt}
    (hlines : ∀ line ∈ lines, line ∈ lines') (h : (findPathExecRuleInLines lines params auidMin).isSome = true) :
    (findPathExecRuleInLines lines' params auidMin).isSome = true := by
  obtain ⟨line, hmem, hline⟩ := (findPathExecRule_isSome_iff lines params auidMin).mp h
  exact (findPathExecRule_isSome_iff lines' params auidMin).mpr ⟨line, hlines line hmem, hline⟩

/-- What is found is what a line of the file watches. -/
theorem findPathExecRule_sound {lines : List Str} {params : Value} {auidMin : Option Flt} {r : FoundRule}
    (h : findPathExecRuleInLines lines params auidMin = some r) :
    ∃ line ∈ lines, (∃ rest, extractWatchTarget line = some (r.path, rest)) ∧
      normalizeAuditPath r.path = normalizeAuditPath (params.field "path").tostring := by
  obtain ⟨line, hmem, hline⟩ := List.exists_of_findSome?_eq_some h
  exact ⟨line, hmem, pathExecLine_sound hline⟩

end Seharden
