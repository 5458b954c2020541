/-
# Dispatch indices of a module

A module that is compiled without a fault gives indices to the labels of its printed
dispatches, and to no others (`indexes_compile`).

| fact | because |
| --- | --- |
| a label has an index exactly if a printed dispatch holds it | nothing else is asked for |
| the indices are the numbers below the size, in the order of first request | the registry is the list of requests without repetitions |
| an index never changes | the registry only grows at its end |
| a printed dispatch is sound | no two labels share an index |

The functions of a module that is built by `add` have different ids, so labels of
different functions are different keys.
-/

import StructuredFlow.Proofs.Code.Printing
import StructuredFlow.Proofs.Compilation

namespace StructuredFlow

open Emission

/-! ### Modules built function by function -/

namespace Module

/-- Each function has its position as its id. -/
def Numbered (m : Module) : Prop := ∀ (i : Nat) (f : Function), m.functions[i]? = some f → f.id = i

/-- A module without functions is numbered. -/
theorem numbered_empty (types : TypeTable) : ({ types } : Module).Numbered :=
  fun i f h => absurd h (by simp)

/-- A function that is added gets its position as its id. -/
theorem Numbered.add {m : Module} (h : m.Numbered) (f : Function) : (m.add f).Numbered := by
  intro i g hg
  rw [Module.add, List.getElem?_append] at hg
  split at hg
  next => exact h i g hg
  next hge =>
    rw [List.getElem?_singleton] at hg
    split at hg
    next hi =>
      obtain rfl := Option.some.inj hg
      exact (Nat.le_antisymm (Nat.sub_eq_zero_iff_le.mp hi) (Nat.not_lt.mp hge)).symm
    next => exact absurd hg (by simp)

/-- In a numbered module a function is found at its id. -/
theorem Numbered.getElem?_eq_some_iff {m : Module} (h : m.Numbered) {i : Nat} {f : Function} :
    m.functions[i]? = some f ↔ f ∈ m.functions ∧ f.id = i := by
  constructor
  · exact fun hf => ⟨List.mem_of_getElem? hf, h i f hf⟩
  · rintro ⟨hf, rfl⟩
    obtain ⟨j, hj⟩ := List.mem_iff_getElem?.mp hf
    exact h j f hj ▸ hj

/-- **A module built by `add` is numbered.** -/
theorem Numbered.foldl_add {m : Module} (h : m.Numbered) (fs : List Function) :
    (fs.foldl Module.add m).Numbered := by
  induction fs generalizing m with
  | nil => exact h
  | cons f fs ih => exact ih (h.add f)

end Module

/-- The blocks of a function that are printed as dispatches, in order. -/
def Function.dispatchBlocks (f : Function) (config : Config) (types : TypeTable) : List BlockTree :=
  let p := f.prepare config types
  (p.source config types).dispatchBlocks p.structured.tree

/-- The indices of a compilation are those of the labels of its printed dispatches. -/
structure Compilation.Indexes (c : Compilation) (m : Module) (config : Config) : Prop where
  /-- A label has an index exactly if a block that is printed as a dispatch holds it. -/
  isSome_get?_iff : ∀ function a, (c.registry.get? function a).isSome = true ↔
    ∃ f, m.functions[function]? = some f ∧ ∃ b ∈ f.dispatchBlocks config m.types, a ∈ b.labels
  /-- The labels were given indices in the order of their first requests. -/
  keys_eq : c.registry.keys = (m.requests config).eraseDups
  /-- The indices are the numbers below the size, in this order. -/
  map_index_keys : c.registry.keys.map (fun key => c.registry.index key.1 key.2) =
    List.range c.registry.size
  /-- No two labels of the module share an index. -/
  get?_inj : ∀ function a function' a' i, c.registry.get? function a = some i →
    c.registry.get? function' a' = some i → function = function' ∧ a = a'
  /-- After any of the requests, what has been asked for has the index that it has at the
  end. -/
  get?_eq : ∀ requests, requests <+: m.requests config → ∀ key ∈ requests,
    (Registry.empty.assignAll requests).get? key.1 key.2 = c.registry.get? key.1 key.2
  /-- In the lines that are printed for a function one dispatch is read for each of its blocks
  that are printed as one, and it is sound. -/
  printed : List.Forall₂ (fun f compiled =>
      let p := f.prepare config m.types
      ∃ (code : FunctionCode) (script : Script) (before after : Registry),
        f.emit config m.types p.table p.labels p.structured.tree before = (.ok code, after) ∧
        before.keys <+: after.keys ∧ after.keys <+: c.registry.keys ∧
        Shows config.indent code.lines compiled.code ∧
        Script.read? config.dispatchVariable code.lines = some script ∧
        List.Forall₂ (SoundFor (p.source config m.types) (c.registry.index f.id))
          (f.dispatchBlocks config m.types) script.dispatches)
    m.functions c.functions

namespace Module

variable {m : Module} {config : Config}

/-- A label is asked for exactly if a function of its id asks for it. -/
theorem mem_requests {key : Nat × Nat} : key ∈ m.requests config ↔
    ∃ f ∈ m.functions, f.id = key.1 ∧
      key.2 ∈ ((f.prepare config m.types).source config m.types).requests
        (f.prepare config m.types).structured.tree := by
  rw [requests, List.mem_flatMap]
  refine exists_congr fun f => and_congr_right fun _ => ?_
  rw [Prepared.requests, List.mem_map]
  constructor
  · rintro ⟨a, ha, rfl⟩
    exact ⟨rfl, ha⟩
  · rintro ⟨hid, ha⟩
    exact ⟨key.2, ha, Prod.ext hid rfl⟩

/-- **The indices of a module that is compiled are sound.** -/
theorem indexes_compile (fs : List Function) (types : TypeTable) (config : Config)
    (hm : ∀ f ∈ (fs.foldl Module.add { types }).functions, f.validate = .ok () ∧ f.NoMarkers)
    (h : ((fs.foldl Module.add { types }).compile config).fault = none) :
    ((fs.foldl Module.add { types }).compile config).Indexes (fs.foldl Module.add { types })
      config := by
  have hnumbered := (numbered_empty types).foldl_add fs
  generalize fs.foldl Module.add { types } = m at hm h hnumbered
  obtain ⟨hregistry, hwritten⟩ := compile_of_fault_eq_none hm config h
  have hkeys : ∀ key, key ∈ (m.compile config).registry.keys ↔ key ∈ m.requests config := by
    intro key
    rw [hregistry, Registry.mem_assignAll]
    exact or_iff_right List.not_mem_nil
  constructor
  · intro function a
    rw [Registry.isSome_get?_iff, hkeys, mem_requests]
    refine exists_congr fun f => ?_
    rw [hnumbered.getElem?_eq_some_iff, and_assoc]
    refine and_congr_right fun hf => and_congr_right fun _ => ?_
    exact mem_requests_iff (writableBlock_prepare (hm f hf).1 (hm f hf).2 config m.types)
  · rw [hregistry, Registry.keys_assignAll]
  · exact Registry.map_index_keys _
  · intro function a function' a' i hi hi'
    obtain ⟨hmem, rfl⟩ := Registry.get?_eq_some_iff.mp hi
    obtain ⟨-, heq⟩ := Registry.get?_eq_some_iff.mp hi'
    exact Prod.mk.inj (Registry.eq_of_index_eq hmem heq.symm)
  · rintro requests ⟨rest, hrest⟩ key hkey
    have hmem : key ∈ (Registry.empty.assignAll requests).keys :=
      Registry.mem_assignAll.mpr (Or.inr hkey)
    refine (Registry.get?_of_grown ?_ hmem).symm
    rw [hregistry, ← hrest, Registry.assignAll_append]
    exact Registry.prefix_assignAll _ _
  · refine List.Forall₂.imp ?_ ((List.forall₂_and_left _ _).mpr ⟨fun f hf => hf, hwritten⟩)
    rintro f compiled ⟨hf, hcompiled⟩ p
    have hwritable := writableBlock_prepare (hm f hf).1 (hm f hf).2 config m.types
    obtain ⟨before, after, hemit, hbefore, hafter⟩ := hcompiled.emit_eq
    refine ⟨_, _, before, after, hemit, hbefore, hafter,
      hcompiled.code_eq ▸ FunctionCode.shows_text _ _,
      p.function.read?_written config m.types _ _ _ _ _ _, ?_⟩
    rw [dispatches_script, Script.dispatches, List.append_nil, dispatches_tree,
      List.forall₂_map_right_iff]
    refine List.forall₂_same.mpr fun b hb => ?_
    obtain ⟨hpreorder, hprints⟩ := mem_dispatchBlocks.mp hb
    refine soundFor_printed (hwritable b hpreorder) hprints ?_
    refine index_inj_of_requests hwritable (fun a ha => ?_) hb
    exact (hkeys _).mpr (mem_requests.mpr ⟨f, hf, rfl, ha⟩)

/-- In one dispatch the label that repeats itself and the label behind it both have indices. -/
theorem indexes_compile_repeating :
    let m := [Function.repeating].foldl Module.add {}
    (∀ f ∈ m.functions, f.validate = .ok () ∧ f.NoMarkers) ∧ (m.compile .flat).fault = none ∧
      (m.compile .flat).Indexes m .flat ∧
      ((m.compile .flat).registry.get? 0 0).isSome = true ∧
      ((m.compile .flat).registry.get? 0 1).isSome = true := by
  intro m
  have hfunctions : m.functions = [Function.repeating] := by decide
  have hm : ∀ f ∈ m.functions, f.validate = .ok () ∧ f.NoMarkers := by
    rw [hfunctions]
    intro f hf
    rw [List.mem_singleton.mp hf]
    exact ⟨Function.validate_repeating, Function.noMarkers_repeating⟩
  have hfault : (m.compile .flat).fault = none := by
    rw [fault_eq hm, Option.map_eq_none_iff, List.findSome?_eq_none_iff, hfunctions]
    intro f hf
    rw [List.mem_singleton.mp hf]
    exact (refusal?_prepare_eq_none_iff Function.validate_repeating .flat {}).mpr
      fun _ _ label hlabel => Function.not_refused_repeating label (List.mem_of_getElem? hlabel)
  have hindexes := indexes_compile [Function.repeating] {} .flat hm hfault
  have hblock : BlockTree.leaf .dispatch 0 [0, 1] .nil ∈
      Function.repeating.dispatchBlocks .flat {} := by
    refine mem_dispatchBlocks.mpr ⟨?_, rfl⟩
    have htree : (Structuring.flat Function.repeating.transfers 0).1.tree =
        .leaf .dispatch 0 [0, 1] .nil := by decide_cbv
    change _ ∈ (Structuring.flat Function.repeating.transfers 0).1.tree.preorder
    rw [htree]
    exact List.mem_singleton_self _
  have hsome : ∀ a ∈ [0, 1], ((m.compile .flat).registry.get? 0 a).isSome = true := fun a ha =>
    (hindexes.isSome_get?_iff 0 a).mpr ⟨_, rfl, _, hblock, ha⟩
  exact ⟨hm, hfault, hindexes, hsome 0 (by decide), hsome 1 (by decide)⟩

end Module
end StructuredFlow
