/-
# What a compilation reports

A module of validated functions without markers is compiled unless an instruction that
can be reached cannot be written, and then it stops at the first of these
(`fault_compile`): the functions are taken in order, and the labels of a function in
the order of the leaves of its tree.  No fault is about the structure of a function.

The registry afterwards is a function of what is asked for (`Prepared.requests`), and
what is written is the written form under its indices (`emit_eq_ok`).
-/

import Mathlib
import StructuredFlow.Compilation
import StructuredFlow.Proofs.Code.Writable
import StructuredFlow.Proofs.Text.Identifier

namespace StructuredFlow

open Structuring

/-- The first that is found depends on what is looked for in the list only. -/
theorem findSome?_congr {α β : Type} {l : List α} {f g : α → Option β} (h : ∀ a ∈ l, f a = g a) :
    l.findSome? f = l.findSome? g := by
  induction l with
  | nil => rfl
  | cons a l ih =>
    rw [List.findSome?_cons, List.findSome?_cons, h a List.mem_cons_self,
      ih fun b hb => h b (List.mem_cons_of_mem a hb)]

/-- Structuring a function that is prepared is a derivation for what its entry reaches. -/
theorem Function.structuresLive_prepare (f : Function) (hf : f.validate = .ok ())
    (config : Config) (types : TypeTable) :
    StructuresLive f.transfers f.entry
      ((f.prepare config types).structured, (f.prepare config types).events) := by
  have hentry : f.entry < f.transfers.length := by
    rw [Function.length_transfers]
    exact entry_lt_of_validate hf
  rw [Function.prepare]
  cases config.structured with
  | true => exact structuresLive_run hentry
  | false => exact structuresLive_flat hentry

namespace Prepared

/-- What the writing of a prepared function starts from. -/
def source (p : Prepared) (config : Config) (types : TypeTable) : Emission.Source :=
  p.function.source config types p.table p.labels

/-- Each label has an identifier. -/
theorem length_identifiers (p : Prepared) (config : Config) (types : TypeTable) :
    (p.source config types).identifiers.length = (p.source config types).labels.length :=
  (Identifier.length_distinct _).trans (List.length_map _)

/-- The labels whose indices a prepared function asks for, in order. -/
def requests (p : Prepared) (config : Config) (types : TypeTable) : List (Nat × Nat) :=
  ((p.source config types).requests p.structured.tree).map (Prod.mk p.function.id)

/-- Why a prepared function cannot be written: the first instruction of its leaves that
cannot. -/
def refusal? (p : Prepared) : Option StatementError :=
  p.structured.tree.leafLabels.findSome? fun id => (p.function.label? id).bind Label.refusal?

/-- The code of a prepared function when the index of each label is known. -/
def written (p : Prepared) (config : Config) (types : TypeTable) (index : Nat → Nat) :
    FunctionCode :=
  ⟨Identifier.ofGlobal p.function.name, p.function.params.map Identifier.ofLocal,
    Emission.Written.tree (p.source config types) index p.structured.tree⟩

end Prepared

/-- The code of a function is that of its tree. -/
theorem Function.emit_eq {f : Function} {config : Config} {types : TypeTable}
    {table : VariableTable} {labels : List Label} {tree : BlockTree} {r r' : Registry}
    {body : Except EmissionError Code}
    (h : (Emission.treeCode (f.source config types table labels) tree).run.run r = (body, r')) :
    f.emit config types table labels tree r =
      (body.map fun body => ⟨Identifier.ofGlobal f.name, f.params.map Identifier.ofLocal, body⟩,
        r') := by
  rw [emit, h]

/-- A prepared function is compiled by writing its code. -/
theorem Prepared.compile_eq {p : Prepared} {config : Config} {types : TypeTable} {r r' : Registry}
    {code : Except EmissionError FunctionCode}
    (h : p.function.emit config types p.table p.labels p.structured.tree r = (code, r')) :
    p.compile config types r =
      (code.map fun code => ⟨p.function, p.table, p.structured, code.text config.indent⟩, r') := by
  rw [compile, h]

section Preparing

variable {f : Function} (hf : f.validate = .ok ()) (hm : f.NoMarkers) (config : Config)
  (types : TypeTable)
include hf hm

/-- Every block of a prepared function can be written. -/
theorem writableBlock_prepare :
    let p := f.prepare config types
    ∀ b ∈ p.structured.tree.preorder, Emission.WritableBlock (p.source config types) b :=
  (f.structuresLive_prepare hf config types).writableBlock hf hm rfl
    (Prepared.length_identifiers _ config types)

/-- What the writing of a prepared function does. -/
theorem does_prepare :
    let p := f.prepare config types
    Emission.Does f.id ((p.source config types).requests p.structured.tree)
      (((p.source config types).refusal? p.structured.tree.leafLabels).map .statement)
      (fun index => Emission.Written.tree (p.source config types) index p.structured.tree)
      (Emission.treeCode (p.source config types) p.structured.tree) :=
  Emission.does_treeCode (Prepared.length_identifiers _ config types)
    (writableBlock_prepare hf hm config types)

omit hm in
/-- The targets that structuring exchanges do not matter to what cannot be written. -/
theorem refusal?_source_eq :
    let p := f.prepare config types
    (p.source config types).refusal? p.structured.tree.leafLabels = p.refusal? := by
  intro p
  have h : StructuresLive f.transfers f.entry (p.structured, p.events) :=
    f.structuresLive_prepare hf config types
  refine findSome?_congr fun a ha => ?_
  have hlt := h.lt_of_mem_leafLabels ha
  obtain ⟨label, body, last, t, g, hr⟩ := Function.exists_retargets hf h.marks hlt
  have hlabel : (p.source config types).label a = _ := Emission.Source.label_eq hr.getElem?_eq
  rw [hlabel, hr.refusal?_eq]
  exact (congrArg (fun l => l.bind Label.refusal?) hr.label_eq).symm

/-- The code of a prepared function is not written for its first instruction that cannot
be. -/
theorem emit_eq_error {error : StatementError} (h : (f.prepare config types).refusal? = some error)
    (r : Registry) :
    let p := f.prepare config types
    ∃ r', p.function.emit config types p.table p.labels p.structured.tree r =
      (.error (.statement error), r') := by
  intro p
  have hdoes := does_prepare hf hm config types r
  dsimp only at hdoes
  rw [refusal?_source_eq hf config types, h] at hdoes
  obtain ⟨r', hr'⟩ := hdoes
  exact ⟨r', Function.emit_eq hr'⟩

/-- **The code of a prepared function is written** if none of its instructions that are
reached is refused: all it asks for has an index then, and the code goes by these
indices, now and in every registry later. -/
theorem emit_eq_ok (h : (f.prepare config types).refusal? = none) (r : Registry) :
    let p := f.prepare config types
    ∃ code, p.function.emit config types p.table p.labels p.structured.tree r =
        (.ok code, r.assignAll (p.requests config types)) ∧
      ∀ r' : Registry, (r.assignAll (p.requests config types)).keys <+: r'.keys →
        code = p.written config types (r'.index f.id) := by
  intro p
  have hdoes := does_prepare hf hm config types r
  dsimp only at hdoes
  rw [refusal?_source_eq hf config types, h] at hdoes
  obtain ⟨body, hbody, hwritten⟩ := hdoes
  exact ⟨_, Function.emit_eq hbody, fun r' hr' => congrArg (FunctionCode.mk _ _) (hwritten r' hr')⟩

end Preparing

/-! ### Functions one after the other -/

/-- What a function is compiled to under the indices of a registry. -/
structure CompiledFunction.WrittenFrom (config : Config) (types : TypeTable) (r : Registry)
    (f : Function) (compiled : CompiledFunction) : Prop where
  /-- It is the function. -/
  function_eq : compiled.function = f
  /-- Its control flow is structured as the settings say. -/
  structured_eq : compiled.structured = (f.prepare config types).structured
  /-- Its code is the written form. -/
  code_eq : compiled.code =
    ((f.prepare config types).written config types (r.index f.id)).text config.indent
  /-- That is what was written when fewer labels had indices. -/
  emit_eq : let p := f.prepare config types
    ∃ before after : Registry,
      p.function.emit config types p.table p.labels p.structured.tree before =
        (.ok (p.written config types (r.index f.id)), after) ∧
      before.keys <+: after.keys ∧ after.keys <+: r.keys

/-- What is compiled is compiled from the functions, in their order. -/
theorem CompiledFunction.WrittenFrom.map_function_eq {config : Config} {types : TypeTable}
    {r : Registry} {fs : List Function} {compiled : List CompiledFunction}
    (h : List.Forall₂ (WrittenFrom config types r) fs compiled) :
    compiled.map CompiledFunction.function = fs := by
  induction h with
  | nil => rfl
  | cons hfirst _ ih => rw [List.map_cons, hfirst.function_eq, ih]

namespace Compilation

variable {config : Config} {types : TypeTable} {fs : List Function}
  (hfs : ∀ f ∈ fs, f.validate = .ok () ∧ f.NoMarkers) {c : Compilation}
include hfs

/-- The first instruction that cannot be written stops the writing. -/
theorem fault_writeAll (hc : c.fault = none) :
    (writeAll config types c (fs.map fun f => f.prepare config types)).fault =
      (fs.findSome? fun f => (f.prepare config types).refusal?).map
        fun error => .emission (.statement error) := by
  induction fs generalizing c with
  | nil => exact hc
  | cons f fs ih =>
    obtain ⟨hf, hm⟩ := hfs f List.mem_cons_self
    rw [List.map_cons, writeAll, List.findSome?_cons]
    cases hrefusal : (f.prepare config types).refusal? with
    | some error =>
      obtain ⟨r', hr'⟩ := emit_eq_error hf hm config types hrefusal c.registry
      rw [Prepared.compile_eq hr']
      rfl
    | none =>
      obtain ⟨code, hcode, -⟩ := emit_eq_ok hf hm config types hrefusal c.registry
      rw [Prepared.compile_eq hcode]
      exact ih (fun f hf => hfs f (List.mem_cons_of_mem _ hf)) hc

/-- **If nothing is refused every function is written**, and what they ask for has an
index, in the order in which it is asked for. -/
theorem writeAll_of_refusal?_eq_none (h : ∀ f ∈ fs, (f.prepare config types).refusal? = none) :
    let result := writeAll config types c (fs.map fun f => f.prepare config types)
    result.registry = c.registry.assignAll
        (fs.flatMap fun f => (f.prepare config types).requests config types) ∧
      ∃ compiled, result.functions = c.functions ++ compiled ∧
        List.Forall₂ (CompiledFunction.WrittenFrom config types result.registry) fs compiled := by
  induction fs generalizing c with
  | nil => exact ⟨rfl, [], (List.append_nil _).symm, .nil⟩
  | cons f fs ih =>
    obtain ⟨hf, hm⟩ := hfs f List.mem_cons_self
    let p := f.prepare config types
    obtain ⟨code, hfirst, hcode⟩ :=
      emit_eq_ok hf hm config types (h f List.mem_cons_self) c.registry
    let first : CompiledFunction := ⟨p.function, p.table, p.structured, code.text config.indent⟩
    rw [List.map_cons, writeAll, Prepared.compile_eq hfirst, Except.map]
    dsimp only
    obtain ⟨hregistry, compiled, hfunctions, hforall⟩ := ih
      (c := { c with functions := c.functions ++ [first]
                     registry := c.registry.assignAll (p.requests config types)
                     messages := c.messages ++ [first.message] })
      (fun f hf => hfs f (List.mem_cons_of_mem _ hf)) fun f hf => h f (List.mem_cons_of_mem _ hf)
    -- the code of the first function goes by the indices of the last registry too, which
    -- only adds to the one it was written under
    have hgrown := Registry.prefix_assignAll (c.registry.assignAll (p.requests config types))
      (fs.flatMap fun f => (f.prepare config types).requests config types)
    rw [← hregistry] at hgrown
    have hfinal := hcode _ hgrown
    refine ⟨?_, first :: compiled, ?_, .cons ⟨rfl, rfl, ?_, ?_⟩ hforall⟩
    · rw [hregistry, List.flatMap_cons, Registry.assignAll_append]
    · rw [hfunctions, List.append_assoc]
      rfl
    · exact congrArg (FunctionCode.text config.indent) hfinal
    · exact ⟨c.registry, _, hfinal ▸ hfirst, Registry.prefix_assignAll _ _, hgrown⟩

end Compilation

/-- The function over a label that repeats itself can be written. -/
theorem Function.not_refused_repeating :
    ∀ label ∈ repeating.labels, ∀ inst ∈ label.instructions, inst.refusal? = none := by decide

/-- A function that makes a cell to which no name is to point. -/
def Function.careless : Function :=
  .ofLabels "careless" []
    [("head", [{ action := .operation (.alloca (.int 32)) }, { action := .transfer (.ret none) }])]

/-- A function with the same instruction in a label that it does not reach. -/
def Function.cautious : Function :=
  .ofLabels "cautious" []
    [("head", [{ action := .transfer (.ret none) }]),
      ("lost", [{ action := .operation (.alloca (.int 32)) }, { action := .transfer (.ret none) }])]

/-! ### Modules -/

namespace Module

/-- A module is valid if its functions are. -/
theorem validate_eq_ok {m : Module} (h : ∀ f ∈ m.functions, f.validate = .ok ()) :
    m.validate = .ok () := by
  rw [validate]
  generalize m.functions = fs at h
  induction fs with
  | nil => rfl
  | cons f fs ih =>
    change (f.validate >>= fun _ => fs.forM Function.validate) = _
    rw [h f List.mem_cons_self]
    exact ih fun f hf => h f (List.mem_cons_of_mem _ hf)

/-- A module that meets the contract is compiled by writing its functions. -/
theorem compile_eq {m : Module} (h : ∀ f ∈ m.functions, f.validate = .ok ()) (config : Config) :
    ∃ messages, m.compile config = Compilation.writeAll config m.types { messages }
      (m.functions.map fun f => f.prepare config m.types) := by
  rw [compile, validate_eq_ok h]
  exact ⟨_, rfl⟩

/-- The indices that the functions of a module ask for, in order. -/
def requests (m : Module) (config : Config) : List (Nat × Nat) :=
  m.functions.flatMap fun f => (f.prepare config m.types).requests config m.types

section Writing

variable {m : Module} (hm : ∀ f ∈ m.functions, f.validate = .ok () ∧ f.NoMarkers) (config : Config)
include hm

/-- The fault of a compilation is the first refusal of a function. -/
theorem fault_eq : (m.compile config).fault =
    (m.functions.findSome? fun f => (f.prepare config m.types).refusal?).map
      fun error => .emission (.statement error) := by
  obtain ⟨messages, hcompile⟩ := compile_eq (fun f hf => (hm f hf).1) config
  rw [hcompile]
  exact Compilation.fault_writeAll hm rfl

/-- **Without a fault every function is written**, under the indices of all that is asked
for. -/
theorem compile_of_fault_eq_none (h : (m.compile config).fault = none) :
    (m.compile config).registry = Registry.empty.assignAll (m.requests config) ∧
      List.Forall₂ (CompiledFunction.WrittenFrom config m.types (m.compile config).registry)
        m.functions (m.compile config).functions := by
  rw [fault_eq hm config, Option.map_eq_none_iff, List.findSome?_eq_none_iff] at h
  obtain ⟨messages, hcompile⟩ := compile_eq (fun f hf => (hm f hf).1) config
  obtain ⟨hregistry, compiled, hfunctions, hforall⟩ :=
    Compilation.writeAll_of_refusal?_eq_none (c := { messages }) hm h
  rw [← hcompile] at hregistry hfunctions hforall
  rw [hfunctions]
  exact ⟨hregistry, hforall⟩

end Writing

/-- What is refused in a prepared function is refused in a label that is reached. -/
theorem refusal?_prepare_eq_none_iff {f : Function} (hf : f.validate = .ok ()) (config : Config)
    (types : TypeTable) : (f.prepare config types).refusal? = none ↔
      ∀ id, Relation.ReflTransGen (Transfers.Edge f.transfers) f.entry id →
        ∀ label, f.label? id = some label → ∀ inst ∈ label.instructions, inst.refusal? = none := by
  have hentry : f.entry < f.transfers.length := by
    rw [Function.length_transfers]
    exact Function.entry_lt_of_validate hf
  have hpart := (f.structuresLive_prepare hf config types).partitions hentry
  rw [Prepared.refusal?, List.findSome?_eq_none_iff]
  refine forall_congr' fun id => imp_congr (hpart.mem_leafLabels id) ?_
  change (f.label? id).bind _ = none ↔ _
  rw [Option.bind_eq_none_iff]
  exact forall_congr' fun label => imp_congr_right fun _ => Label.refusal?_eq_none_iff

/-- **A compilation stops only at an instruction that cannot be written**, the first of
those that are reached, and else it compiles every function. -/
theorem fault_compile (m : Module) (hm : ∀ f ∈ m.functions, f.validate = .ok () ∧ f.NoMarkers)
    (config : Config) :
    (m.compile config).fault =
        (m.functions.findSome? fun f => (f.prepare config m.types).refusal?).map
          (fun error => .emission (.statement error)) ∧
      ((m.compile config).fault = none ↔ ∀ f ∈ m.functions,
        ∀ id, Relation.ReflTransGen (Transfers.Edge f.transfers) f.entry id →
          ∀ label, f.label? id = some label → ∀ inst ∈ label.instructions, inst.refusal? = none) ∧
      ((m.compile config).fault = none →
        (m.compile config).functions.map CompiledFunction.function = m.functions) := by
  have hfault := fault_eq hm config
  refine ⟨hfault, ?_, fun h => ?_⟩
  · rw [hfault, Option.map_eq_none_iff, List.findSome?_eq_none_iff]
    exact forall_congr' fun f => forall_congr' fun hf =>
      refusal?_prepare_eq_none_iff (hm f hf).1 config m.types
  · exact CompiledFunction.WrittenFrom.map_function_eq (compile_of_fault_eq_none hm config h).2

/-- A module is compiled if the cell without a name is in no label that is reached, structured or
not, and else stops at it. -/
theorem fault_compile_careless :
    (∀ f ∈ [Function.repeating, .cautious, .careless], f.validate = .ok () ∧ f.NoMarkers) ∧
      (({ functions := [.repeating, .cautious] } : Module).compile {}).fault = none ∧
        (({ functions := [.repeating, .cautious] } : Module).compile .flat).functions.map
          CompiledFunction.function = [.repeating, .cautious] ∧
          (({ functions := [.repeating, .careless] } : Module).compile {}).fault =
            some (.emission (.statement .allocaWithoutResult)) := by
  have hm : ∀ f ∈ [Function.repeating, .cautious, .careless],
      f.validate = .ok () ∧ f.NoMarkers := by
    unfold Function.NoMarkers
    decide
  have hcautious : ∀ f ∈ ({ functions := [.repeating, .cautious] } : Module).functions,
      f.validate = .ok () ∧ f.NoMarkers := fun f hf =>
        hm f (List.mem_append_left [Function.careless] hf)
  have hcareless : ∀ f ∈ ({ functions := [.repeating, .careless] } : Module).functions,
      f.validate = .ok () ∧ f.NoMarkers := fun f hf =>
    hm f (List.Sublist.subset (List.Sublist.cons_cons _ (List.sublist_cons_self _ _)) hf)
  have hwritten : ∀ config : Config, config = {} ∨ config = .flat →
      (({ functions := [.repeating, .cautious] } : Module).compile config).fault = none := by
    intro config hconfig
    rw [(fault_compile _ hcautious config).1]
    rcases hconfig with rfl | rfl <;> decide_cbv
  have hrefused : (Function.careless.prepare {} {}).refusal? = some .allocaWithoutResult := by
    decide_cbv
  have hrepeating : ((Function.repeating.prepare {} {}).refusal?) = none := by decide_cbv
  refine ⟨hm, hwritten {} (Or.inl rfl), (fault_compile _ hcautious .flat).2.2
    (hwritten .flat (Or.inr rfl)), ?_⟩
  rw [(fault_compile _ hcareless {}).1]
  simp [hrepeating, hrefused]

end Module
end StructuredFlow
