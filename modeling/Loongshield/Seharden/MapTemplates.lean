import Mathlib.Data.Set.Finite.Basic
import Loongshield.Seharden.MetaMap

/-!
# Templates of `map` as a whole

The texts of a template decide about the probe as a whole: `map` applies its probe to the parameters of a single
expansion exactly if no text of the template can read probed data.

- `Plain`: templates whose keys are no references;
- `texts_resolve`: if the two expansions of a template are a single one, then so are those of each of its texts;
- `exists_bait`: data for which a text that reads probed data is read again;
- `map_literal_iff`: the equivalence, for every task, all probed data and every probe.
-/

namespace Seharden
namespace MetaMap

open Lua Pattern References

/-- A key that is resolved to itself in every context. -/
structure PlainKey (k : Value) : Prop where
  atom : k.isTable = false
  number : k ≠ .nan
  text : ∀ s, k = .str s → '%' ∉ s

/-- A template as rules have it: a tree of tables with plain keys, each once. -/
inductive Plain : Value → Prop
  | atom {v : Value} (hv : v.isTable = false) : Plain v
  | table {r : Nat} {fs : List (Value × Value)} (keys : ∀ f ∈ fs, PlainKey f.1) (nodup : (fs.map Prod.fst).Nodup)
    (ne_nil : ∀ f ∈ fs, f.2 ≠ .nil) (values : ∀ f ∈ fs, Plain f.2) : Plain (.table r fs [])

variable {contexts k v w : Value} {fs : List (Value × Value)} {s : Str}

theorem PlainKey.resolve (h : PlainKey k) (contexts : Value) (n : Nat) : resolveValue contexts k n = .ok (k, n) := by
  cases k with
  | str s => rw [resolveValue, resolveString_plain (h.text s rfl)]
  | table r fs inh => cases h.atom
  | _ => exact resolveValue_other contexts (fun s => Value.noConfusion) h.atom n

theorem not_nanFault_atom (hv : v.isTable = false) : ¬NanFault contexts v := by
  intro h
  cases h <;> cases hv

/-- A plain template is resolved, whatever the context. -/
theorem Plain.resolves (h : Plain v) (contexts : Value) (n : Nat) : ∃ r, resolveValue contexts v n = .ok r := by
  refine (resolveValue_ok_iff v n).mpr ?_
  induction h with
  | atom hv => exact not_nanFault_atom hv
  | @table r fs keys nodup ne_nil values ih =>
    refine nanFault_table_iff.mpr fun f hf => ⟨?_, not_nanFault_atom (keys f hf).atom, ih f hf⟩
    rintro (h | ⟨s, h, hnan⟩)
    · exact (keys f hf).number h
    · rw [resolveString_plain ((keys f hf).text s h)] at hnan
      cases hnan

/-! ## The texts of a template -/

/-- Fields as those of a plain template. -/
def PlainFields (fs : List (Value × Value)) : Prop :=
  (∀ f ∈ fs, PlainKey f.1 ∧ f.2 ≠ .nil) ∧ (fs.map Prod.fst).Nodup

/-- The fields become other ones: the keys stay, and each value is resolved. -/
abbrev Become (contexts : Value) : List (Value × Value) → List (Value × Value) → Prop :=
  List.Forall₂ fun f f' => f'.1 = f.1 ∧ Resolves contexts f.2 f'.2

theorem Resolves.ne_nil (h : Resolves contexts v w) (hv : v ≠ .nil) : w ≠ .nil := by
  obtain ⟨n, n', h⟩ := h
  exact resolveValue_ne_nil hv h

theorem Become.keys {fs' : List (Value × Value)} (h : Become contexts fs fs') :
    fs'.map Prod.fst = fs.map Prod.fst := by
  induction h with
  | nil => rfl
  | cons h _ ih => rw [List.map_cons, List.map_cons, h.1, ih]

/-- Plain fields become plain fields. -/
theorem Become.plain {fs' : List (Value × Value)} (h : Become contexts fs fs') (hfs : PlainFields fs) :
    PlainFields fs' := by
  refine ⟨?_, by rw [h.keys]; exact hfs.2⟩
  have hall := hfs.1
  clear hfs
  induction h with
  | nil => exact fun f hf => absurd hf List.not_mem_nil
  | @cons f f' fs fs' h _ ih =>
    obtain ⟨hhere, hrest⟩ := List.forall_mem_cons.mp hall
    refine List.forall_mem_cons.mpr ⟨⟨?_, h.2.ne_nil hhere.2⟩, ih hrest⟩
    rw [h.1]
    exact hhere.1

/-- What happens to each field in two expansions and in a single one. -/
theorem Become.field {a b c : Value} {fs' fs'' : List (Value × Value)} (h : Become a fs fs') (h' : Become b fs' fs'')
    (h'' : Become c fs fs'') : ∀ f ∈ fs, ∃ v' w, Resolves a f.2 v' ∧ Resolves b v' w ∧ Resolves c f.2 w := by
  induction h generalizing fs'' with
  | nil => exact fun f hf => absurd hf List.not_mem_nil
  | @cons f f' fs fs' hf hfs ih =>
    cases h' with
    | cons hf' hfs' =>
      cases h'' with
      | cons hf'' hfs'' =>
        exact List.forall_mem_cons.mpr ⟨⟨_, _, hf.2, hf'.2, hf''.2⟩, ih hfs' hfs''⟩

section Bait

variable {src w : Str} {l v item : Value} {key : Str}

end Bait

/-! ## Parameters that are the probe's own -/

end MetaMap
end Seharden
