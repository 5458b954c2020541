/-
# Indices in the order of first request

A registry only grows at its end, so an index that was given out stays as it is
(`index_of_grown`), and no two labels share one (`eq_of_index_eq`).  What a
sequence of requests leaves is a function of the sequence: each label at the
place of its first request (`keys_assignAll`).
-/

import Mathlib.Data.List.Induction
import Mathlib.Data.List.Nodup
import StructuredFlow.Registry

namespace StructuredFlow
namespace Registry

variable {r r' : Registry} {function label f l : Nat} {key : Nat × Nat}

/-- The registry after requests, in order. -/
def assignAll (r : Registry) (keys : List (Nat × Nat)) : Registry :=
  keys.foldl (fun r key => r.assign key.1 key.2) r

@[simp] theorem assignAll_nil (r : Registry) : r.assignAll [] = r := rfl

@[simp] theorem assignAll_singleton (r : Registry) (key : Nat × Nat) :
    r.assignAll [key] = r.assign key.1 key.2 := rfl

@[simp] theorem assignAll_append (r : Registry) (keys keys' : List (Nat × Nat)) :
    r.assignAll (keys ++ keys') = (r.assignAll keys).assignAll keys' :=
  List.foldl_append

/-- A label that is new is added at the end. -/
theorem keys_assign (r : Registry) (key : Nat × Nat) :
    (r.assign key.1 key.2).keys = r.keys ++ if key ∈ r.keys then [] else [key] := by
  unfold assign
  by_cases h : key ∈ r.keys
  · rw [dif_pos h, if_pos h, List.append_nil]
  · rw [dif_neg h, if_neg h]

/-- What is assigned is put behind what was there. -/
theorem prefix_assignAll (r : Registry) (keys : List (Nat × Nat)) :
    r.keys <+: (r.assignAll keys).keys := by
  induction keys generalizing r with
  | nil => exact List.prefix_rfl
  | cons key keys ih =>
    refine List.IsPrefix.trans ?_ (ih (r.assign key.1 key.2))
    rw [keys_assign]
    exact List.prefix_append _ _

/-- After requests those labels have indices that had them, and those asked for. -/
theorem mem_assignAll {keys : List (Nat × Nat)} :
    key ∈ (r.assignAll keys).keys ↔ key ∈ r.keys ∨ key ∈ keys := by
  induction keys generalizing r with
  | nil => simp
  | cons first keys ih =>
    change key ∈ ((r.assign first.1 first.2).assignAll keys).keys ↔ _
    rw [ih, mem_assign, List.mem_cons, or_assoc]

/-- Requests for indices that were given out leave a registry as it is. -/
theorem assignAll_of_mem {keys : List (Nat × Nat)} (h : ∀ key ∈ keys, key ∈ r.keys) :
    r.assignAll keys = r := by
  induction keys with
  | nil => rfl
  | cons key keys ih =>
    obtain ⟨hkey, hkeys⟩ := List.forall_mem_cons.mp h
    change (r.assign key.1 key.2).assignAll keys = r
    rw [assign, dif_pos hkey, ih hkeys]

/-- **An index that was given out never changes.** -/
theorem index_of_grown (h : r.keys <+: r'.keys) (hmem : (f, l) ∈ r.keys) :
    r'.index f l = r.index f l := by
  obtain ⟨rest, hrest⟩ := h
  rw [index, index, ← hrest, List.idxOf_append_of_mem hmem]

/-- A label has an index exactly if it is one of the keys. -/
theorem isSome_get?_iff : (r.get? f l).isSome = true ↔ (f, l) ∈ r.keys := by
  rw [get?]
  split
  next h => simp [h]
  next h => simp [h]

/-- An index does not change when labels are added. -/
theorem get?_of_grown (h : r.keys <+: r'.keys) (hmem : (f, l) ∈ r.keys) :
    r'.get? f l = r.get? f l := by
  rw [get?, get?, if_pos (h.subset hmem), if_pos hmem, index_of_grown h hmem]

/-- The index that a label is given out stays its index. -/
theorem index_of_assign_grown (h : (r.assign function label).keys <+: r'.keys) :
    r'.index function label = r.index function label := by
  rw [index_of_grown h (mem_assign.mpr (Or.inr rfl)), index_assign (Or.inr rfl)]

/-- **No two labels share an index.** -/
theorem eq_of_index_eq (hmem : (f, l) ∈ r.keys) (h : r.index f l = r.index function label) :
    (f, l) = (function, label) := (List.idxOf_inj hmem).mp h

/-- **The indices are the numbers below the size**, given out in this order. -/
theorem map_index_keys (r : Registry) :
    r.keys.map (fun key => r.index key.1 key.2) = List.range r.size := by
  refine List.ext_getElem (by simp [size]) fun i hi _ => ?_
  rw [List.getElem_map, List.getElem_range]
  exact r.nodup.idxOf_getElem i (by simpa using hi)

/-- The index that is found is that of a key. -/
theorem get?_eq_some_iff {i : Nat} :
    r.get? f l = some i ↔ (f, l) ∈ r.keys ∧ r.index f l = i := by
  rw [get?]
  split
  next h => simp [h]
  next h => simp [h]

/-- **The indices are those of the labels in the order of their first requests.** -/
theorem keys_assignAll (keys : List (Nat × Nat)) :
    (empty.assignAll keys).keys = keys.eraseDups := by
  induction keys using List.reverseRecOn with
  | nil => rfl
  | append_singleton keys key ih =>
    have hmem : key ∈ keys.eraseDups ↔ key ∈ keys := List.mem_eraseDups
    rw [assignAll_append, assignAll_singleton, keys_assign, ih, List.eraseDups_append]
    congr 1
    by_cases h : key ∈ keys
    · rw [if_pos (hmem.mpr h)]
      simp [List.removeAll, h]
    · rw [if_neg (hmem.not.mpr h)]
      simp [List.removeAll, h, List.eraseDups_cons]

end Registry
end StructuredFlow
