import Mathlib.Data.List.Basic

/-!
# Trees of named nodes

A tree is a leaf, or a directory of named trees. `put` places a leaf at a path and makes the directories on the way;
it fails when the way leads through a leaf. `find` follows a path.

* `find_put_self`, `find_put_of_incomparable`: what is found after a leaf was placed.
* `leaf_of_put`: a leaf that is found afterwards is the new one or was there before.
* `exists_build`, `Holds.apart`: placing a list of leaves succeeds and keeps all of them exactly if no path leads
  through another and equal paths hold equal leaves.
-/

namespace PathTree

/-- A leaf, or a directory. -/
inductive Node (κ β : Type)
  | leaf (content : β)
  | dir (entries : List (κ × Node κ β))

variable {κ β : Type}

/-- Neither path leads through the other. -/
def Incomparable (p q : List κ) : Prop := ¬ p <+: q ∧ ¬ q <+: p

theorem Incomparable.tail {name : κ} {p q : List κ} (h : Incomparable (name :: p) (name :: q)) : Incomparable p q :=
  ⟨fun hpq => h.1 (List.cons_prefix_cons.mpr ⟨rfl, hpq⟩), fun hqp => h.2 (List.cons_prefix_cons.mpr ⟨rfl, hqp⟩)⟩

theorem Incomparable.ne_nil {p q : List κ} (h : Incomparable p q) : q ≠ [] := by
  rintro rfl
  exact h.2 (List.nil_prefix)

variable [DecidableEq κ]

/-- The entries with one of them replaced. -/
def set (entries : List (κ × Node κ β)) (name : κ) (node : Node κ β) : List (κ × Node κ β) :=
  (name, node) :: entries.filter fun e => e.1 != name

/-- Place a leaf at a path. The empty path places nothing. -/
def put (content : β) : List κ → Node κ β → Option (Node κ β)
  | [], node => some node
  | _ :: _, .leaf _ => none
  | [name], .dir entries => some (.dir (set entries name (.leaf content)))
  | name :: next :: path, .dir entries =>
    (put content (next :: path) ((entries.lookup name).getD (.dir []))).map fun child => .dir (set entries name child)

/-- The node at a path. -/
def find : List κ → Option (Node κ β) → Option (Node κ β)
  | [], node => node
  | name :: path, some (.dir entries) => find path (entries.lookup name)
  | _ :: _, _ => none

/-! ## One entry -/

theorem lookup_set_self (entries : List (κ × Node κ β)) (name : κ) (node : Node κ β) :
    (set entries name node).lookup name = some node := by
  simp [set]

theorem lookup_set_of_ne (entries : List (κ × Node κ β)) {name other : κ} (node : Node κ β) (h : other ≠ name) :
    (set entries name node).lookup other = entries.lookup other := by
  have hfilter : ∀ es : List (κ × Node κ β), (es.filter fun e => e.1 != name).lookup other = es.lookup other := by
    intro es
    induction es with
    | nil => rfl
    | cons e es ih =>
      obtain ⟨key, child⟩ := e
      by_cases hkey : key = name
      · have hne : (other == key) = false := by simpa [hkey] using h
        simp [hkey, List.lookup_cons, ih, hkey ▸ hne]
      · simp [hkey, List.lookup_cons, ih]
  rw [set, List.lookup_cons, beq_false_of_ne h]
  exact hfilter entries

/-! ## Paths -/

theorem find_none (path : List κ) : find path (none : Option (Node κ β)) = none := by
  cases path <;> rfl

theorem find_append : ∀ (p q : List κ) (node : Option (Node κ β)), find (p ++ q) node = find q (find p node)
  | [], _, _ => rfl
  | _ :: _, q, none => (find_none q).symm
  | _ :: _, q, some (.leaf _) => (find_none q).symm
  | name :: p, q, some (.dir entries) => find_append p q (entries.lookup name)

/-- Nothing is below a leaf. -/
theorem find_below_leaf {p q : List κ} {node : Option (Node κ β)} {content : β} (h : find p node = some (.leaf content))
    (hq : q ≠ []) : find (p ++ q) node = none := by
  rw [find_append, h]
  cases q with
  | nil => exact absurd rfl hq
  | cons name q => rfl

/-- A missing directory reads like an empty one. -/
theorem find_getD {path : List κ} (h : path ≠ []) (node : Option (Node κ β)) :
    find path (some (node.getD (.dir []))) = find path node := by
  cases path with
  | nil => exact absurd rfl h
  | cons name path =>
    cases node with
    | none => exact find_none path
    | some node => rfl

/-- What `put` does in a directory, when more of the path follows. -/
theorem put_cons {content : β} {name : κ} {path : List κ} (hpath : path ≠ []) {entries : List (κ × Node κ β)}
    {node' : Node κ β} : put content (name :: path) (.dir entries) = some node' ↔
      ∃ child, put content path ((entries.lookup name).getD (.dir [])) = some child ∧
      node' = .dir (set entries name child) := by
  cases path with
  | nil => exact absurd rfl hpath
  | cons next path =>
    rw [put, Option.map_eq_some_iff]
    simp only [eq_comm]

/-- The new leaf is found. -/
theorem find_put_self {content : β} : ∀ {path : List κ} {node node' : Node κ β}, path ≠ [] →
    put content path node = some node' → find path (some node') = some (.leaf content)
  | [], _, _, hpath, _ => absurd rfl hpath
  | _ :: _, .leaf _, _, _, h => by cases h
  | [name], .dir entries, node', _, h => by
    obtain rfl : _ = node' := Option.some.inj h
    rw [find, lookup_set_self]
    rfl
  | name :: next :: path, .dir entries, node', _, h => by
    obtain ⟨child, hchild, rfl⟩ := (put_cons (List.cons_ne_nil next path)).mp h
    rw [find, lookup_set_self]
    exact find_put_self (List.cons_ne_nil next path) hchild

/-- A path that neither leads through the new one nor is on its way keeps what it has. -/
theorem find_put_of_incomparable {content : β} : ∀ {p q : List κ} {node node' : Node κ β}, Incomparable p q →
    put content p node = some node' → find q (some node') = find q (some node)
  | [], _, _, _, h, _ => absurd List.nil_prefix h.1
  | _, [], _, _, h, _ => absurd List.nil_prefix h.2
  | _ :: _, _, .leaf _, _, _, h => by cases h
  | [name], other :: q, .dir entries, node', hpq, h => by
    obtain rfl : _ = node' := Option.some.inj h
    have hne : other ≠ name := by
      rintro rfl
      exact hpq.1 (List.cons_prefix_cons.mpr ⟨rfl, List.nil_prefix⟩)
    rw [find, find, lookup_set_of_ne entries _ hne]
  | name :: next :: p, other :: q, .dir entries, node', hpq, h => by
    obtain ⟨child, hchild, rfl⟩ := (put_cons (List.cons_ne_nil next p)).mp h
    rw [find, find]
    by_cases hname : other = name
    · subst hname
      rw [lookup_set_self, find_put_of_incomparable hpq.tail hchild, find_getD hpq.tail.ne_nil]
    · rw [lookup_set_of_ne entries _ hname]

/-- A leaf that is found after `put` is the new one, or it was there. -/
theorem leaf_of_put {content c : β} : ∀ {p q : List κ} {node node' : Node κ β}, put content p node = some node' →
    find q (some node') = some (.leaf c) → q = p ∨ find q (some node) = some (.leaf c)
  | [], _, _, _, h, hq => by
    cases h
    exact .inr hq
  | _ :: _, _, .leaf _, _, h, _ => by cases h
  | [name], [], .dir entries, node', h, hq => by
    cases h
    cases hq
  | [name], other :: q, .dir entries, node', h, hq => by
    obtain rfl : _ = node' := Option.some.inj h
    rw [find] at hq
    by_cases hname : other = name
    · subst hname
      rw [lookup_set_self] at hq
      cases q with
      | nil => exact .inl rfl
      | cons next q => cases hq
    · rw [lookup_set_of_ne entries _ hname] at hq
      exact .inr hq
  | name :: next :: p, [], .dir entries, node', h, hq => by
    obtain ⟨child, -, rfl⟩ := (put_cons (List.cons_ne_nil next p)).mp h
    cases hq
  | name :: next :: p, other :: q, .dir entries, node', h, hq => by
    obtain ⟨child, hchild, rfl⟩ := (put_cons (List.cons_ne_nil next p)).mp h
    rw [find] at hq
    by_cases hname : other = name
    · subst hname
      rw [lookup_set_self] at hq
      rcases leaf_of_put hchild hq with rfl | hold
      · exact .inl rfl
      · refine .inr ?_
        cases q with
        | nil =>
          rw [find, find]
          cases hlookup : entries.lookup other with
          | none =>
            rw [hlookup] at hold
            cases hold
          | some node =>
            rw [hlookup] at hold
            exact hold
        | cons next' q =>
          rw [find_getD (List.cons_ne_nil next' q)] at hold
          exact hold
    · rw [lookup_set_of_ne entries _ hname] at hq
      exact .inr hq

/-- A leaf can be placed where no leaf is on the way. -/
theorem exists_put (content : β) : ∀ (path : List κ) (node : Node κ β),
    (∀ p q, p ++ q = path → q ≠ [] → ∀ c, find p (some node) ≠ some (.leaf c)) →
    ∃ node', put content path node = some node'
  | [], node, _ => ⟨node, rfl⟩
  | name :: path, .leaf c, h => absurd rfl (h [] (name :: path) rfl (List.cons_ne_nil _ _) c)
  | [name], .dir entries, _ => ⟨_, rfl⟩
  | name :: next :: path, .dir entries, h => by
    have hway : ∀ p q, p ++ q = next :: path → q ≠ [] → ∀ c,
        find p (some ((entries.lookup name).getD (.dir []))) ≠ some (.leaf c) := by
      intro p q hpq hq c hleaf
      refine h (name :: p) q (by rw [List.cons_append, hpq]) hq c ?_
      rw [find]
      cases p with
      | nil =>
        cases hlookup : entries.lookup name with
        | none =>
          rw [hlookup] at hleaf
          cases hleaf
        | some node =>
          rw [hlookup] at hleaf
          exact hleaf
      | cons name' p =>
        rw [find_getD (List.cons_ne_nil name' p)] at hleaf
        exact hleaf
    obtain ⟨child, hchild⟩ := exists_put content (next :: path) _ hway
    exact ⟨_, (put_cons (List.cons_ne_nil next path)).mpr ⟨child, hchild, rfl⟩⟩

/-! ## A list of leaves -/

/-- Place every leaf of a list. -/
def build (node : Node κ β) (leaves : List (List κ × β)) : Option (Node κ β) :=
  leaves.foldlM (fun node leaf => put leaf.2 leaf.1 node) node

/-- No path leads through another, and equal paths hold equal leaves. -/
def Apart (leaves : List (List κ × β)) : Prop :=
  ∀ a ∈ leaves, ∀ b ∈ leaves, a.1 <+: b.1 → a = b

/-- Every leaf of the tree is one of the list. -/
def Only (leaves : List (List κ × β)) (node : Node κ β) : Prop :=
  ∀ path c, find path (some node) = some (.leaf c) → path ∈ leaves.map Prod.fst

/-- Every leaf of the list is in the tree. -/
def Holds (leaves : List (List κ × β)) (node : Node κ β) : Prop :=
  ∀ leaf ∈ leaves, find leaf.1 (some node) = some (.leaf leaf.2)

theorem only_put {leaves : List (List κ × β)} {leaf : List κ × β} {node node' : Node κ β} (h : Only leaves node)
    (hput : put leaf.2 leaf.1 node = some node') : Only (leaves ++ [leaf]) node' := by
  intro path c hfind
  rw [List.map_append, List.mem_append]
  rcases leaf_of_put hput hfind with rfl | hold
  · exact .inr List.mem_cons_self
  · exact .inl (h path c hold)

/-- Whatever is placed, only what was placed is a leaf. -/
theorem only_build : ∀ {rest leaves : List (List κ × β)} {node node' : Node κ β}, Only leaves node →
    build node rest = some node' → Only (leaves ++ rest) node'
  | [], leaves, node, node', h, hbuild => by
    cases hbuild
    rwa [List.append_nil]
  | leaf :: rest, leaves, node, node', h, hbuild => by
    obtain ⟨node₁, hput, hbuild⟩ := Option.bind_eq_some_iff.mp hbuild
    have := only_build (only_put h hput) hbuild
    rwa [List.append_assoc] at this

/-- One more leaf, apart from those that are there. -/
theorem holds_put {leaves : List (List κ × β)} {leaf : List κ × β} {node node' : Node κ β}
    (hapart : Apart (leaves ++ [leaf])) (hleaf : leaf.1 ≠ []) (h : Holds leaves node)
    (hput : put leaf.2 leaf.1 node = some node') : Holds (leaves ++ [leaf]) node' := by
  have hnew : leaf ∈ leaves ++ [leaf] := List.mem_append_right _ List.mem_cons_self
  intro other hother
  by_cases heq : other = leaf
  · rw [heq]
    exact find_put_self hleaf hput
  · have hmem : other ∈ leaves := by
      rcases List.mem_append.mp hother with hmem | hmem
      · exact hmem
      · exact absurd (List.mem_singleton.mp hmem) heq
    have hinc : Incomparable leaf.1 other.1 :=
      ⟨fun hp => heq (hapart leaf hnew other hother hp).symm, fun hp => heq (hapart other hother leaf hnew hp)⟩
    rw [find_put_of_incomparable hinc hput]
    exact h other hmem

theorem build_holds : ∀ {rest leaves : List (List κ × β)} {node : Node κ β}, Apart (leaves ++ rest) →
    (∀ leaf ∈ rest, leaf.1 ≠ []) → Only leaves node → Holds leaves node →
    ∃ node', build node rest = some node' ∧ Holds (leaves ++ rest) node'
  | [], leaves, node, _, _, _, h => ⟨node, rfl, by rwa [List.append_nil]⟩
  | leaf :: rest, leaves, node, hapart, hne, honly, h => by
    have hall : leaves ++ leaf :: rest = leaves ++ [leaf] ++ rest := by rw [List.append_assoc]; rfl
    rw [hall] at hapart ⊢
    have hnew : leaf ∈ leaves ++ [leaf] ++ rest := by simp
    -- A leaf on the way would be one of the list, and lead to the new path.
    have hway : ∀ p q, p ++ q = leaf.1 → q ≠ [] → ∀ c, find p (some node) ≠ some (.leaf c) := by
      intro p q hpq hq c hfind
      obtain ⟨other, hother, rfl⟩ := List.mem_map.mp (honly p c hfind)
      have heq : other = leaf := hapart other (by simp [hother]) leaf hnew (hpq ▸ List.prefix_append _ _)
      rw [heq] at hpq
      exact hq (List.append_right_eq_self.mp hpq)
    obtain ⟨node₁, hput⟩ := exists_put leaf.2 leaf.1 node hway
    have hapart₁ : Apart (leaves ++ [leaf]) := fun a ha b hb =>
      hapart a (List.mem_append_left _ ha) b (List.mem_append_left _ hb)
    obtain ⟨node', hbuild, hholds⟩ := build_holds hapart (fun l hl => hne l (List.mem_cons_of_mem _ hl))
      (only_put honly hput) (holds_put hapart₁ (hne leaf List.mem_cons_self) h hput)
    exact ⟨node', Option.bind_eq_some_iff.mpr ⟨node₁, hput, hbuild⟩, hholds⟩

theorem only_nil : Only ([] : List (List κ × β)) (.dir []) := by
  intro path c hfind
  cases path with
  | nil => cases hfind
  | cons name path =>
    have hnone : find (name :: path) (some (.dir [] : Node κ β)) = none := find_none path
    rw [hnone] at hfind
    cases hfind

/-- Leaves that all are found are apart. -/
theorem Holds.apart {leaves : List (List κ × β)} {node : Node κ β} (h : Holds leaves node) : Apart leaves := by
  rintro a ha b hb ⟨q, hq⟩
  have hfind := h b hb
  by_cases hnil : q = []
  · rw [hnil, List.append_nil] at hq
    rw [← hq, h a ha] at hfind
    exact Prod.ext hq (Node.leaf.inj (Option.some.inj hfind))
  · rw [← hq, find_below_leaf (h a ha) hnil] at hfind
    cases hfind

/-- **Leaves that are apart are all found** after they were placed. -/
theorem exists_build {leaves : List (List κ × β)} (hapart : Apart leaves) (hne : ∀ leaf ∈ leaves, leaf.1 ≠ []) :
    ∃ node, build (.dir []) leaves = some node ∧ Holds leaves node :=
  @build_holds _ _ _ leaves [] _ hapart hne only_nil fun leaf hleaf => by cases hleaf

theorem put_dir {content : β} : ∀ {path : List κ} {entries : List (κ × Node κ β)} {node : Node κ β},
    put content path (.dir entries) = some node → ∃ entries', node = .dir entries'
  | [], entries, _, h => ⟨entries, (Option.some.inj h).symm⟩
  | [_], _, _, h => ⟨_, (Option.some.inj h).symm⟩
  | _ :: next :: path, _, _, h => by
    obtain ⟨child, -, rfl⟩ := (put_cons (List.cons_ne_nil next path)).mp h
    exact ⟨_, rfl⟩

/-- The root stays a directory. -/
theorem build_dir : ∀ {leaves : List (List κ × β)} {entries : List (κ × Node κ β)} {node : Node κ β},
    build (.dir entries) leaves = some node → ∃ entries', node = .dir entries'
  | [], entries, _, h => ⟨entries, (Option.some.inj h).symm⟩
  | leaf :: leaves, entries, node, h => by
    obtain ⟨node₁, hput, h⟩ := Option.bind_eq_some_iff.mp h
    obtain ⟨entries₁, rfl⟩ := put_dir hput
    exact build_dir h

/-! ## All leaves -/

mutual

/-- The paths of the leaves. -/
def paths : Node κ β → List (List κ)
  | .leaf _ => [[]]
  | .dir entries => pathsBelow entries

/-- The paths of the leaves below the entries of a directory. -/
def pathsBelow : List (κ × Node κ β) → List (List κ)
  | [] => []
  | entry :: entries => pathsAt entry ++ pathsBelow entries

/-- The paths of the leaves below an entry. -/
def pathsAt : κ × Node κ β → List (List κ)
  | (name, node) => (paths node).map (name :: ·)

end

theorem mem_pathsBelow {name : κ} {path : List κ} {child : Node κ β} (h : path ∈ paths child) :
    ∀ {entries : List (κ × Node κ β)}, entries.lookup name = some child → name :: path ∈ pathsBelow entries
  | [], hlookup => by cases hlookup
  | (key, node) :: entries, hlookup => by
    rw [pathsBelow, List.mem_append]
    rw [List.lookup_cons] at hlookup
    by_cases hkey : name = key
    · subst hkey
      rw [beq_self_eq_true] at hlookup
      obtain rfl := Option.some.inj hlookup
      rw [pathsAt]
      exact .inl (List.mem_map_of_mem h)
    · rw [beq_false_of_ne hkey] at hlookup
      exact .inr (mem_pathsBelow h hlookup)

/-- A leaf that is found is listed. -/
theorem mem_paths_of_find {content : β} : ∀ {path : List κ} {node : Node κ β},
    find path (some node) = some (.leaf content) → path ∈ paths node
  | [], .leaf c, _ => by
    rw [paths]
    exact List.mem_singleton_self _
  | [], .dir _, h => by cases h
  | _ :: _, .leaf _, h => by cases h
  | name :: path, .dir entries, h => by
    rw [paths]
    rw [find] at h
    cases hlookup : entries.lookup name with
    | none =>
      rw [hlookup, find_none] at h
      cases h
    | some child =>
      rw [hlookup] at h
      exact mem_pathsBelow (mem_paths_of_find h) hlookup

end PathTree
