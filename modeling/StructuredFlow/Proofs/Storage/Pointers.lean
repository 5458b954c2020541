/-
# What stands for a pointer in the code

A nativized pointer is bound to the value of its cell, so its name must be written only
where the cell is meant: as the pointer of a load or of a store, or as the base of a fused
load at the start.  Which uses keep a pointer from being nativized is counted by access;
what is written for an operand is a matter of the kind of the instruction.  Both agree:

| pointer | operands that name it | what is written for its cell |
| --- | --- | --- |
| nativized | pointers of loads and stores, starts of fused loads | the name |
| any other | any | `HEAP[..]` of the name |

`Instruction.throughPointer?` is the statement of a load or store through a name when the
text of the cell is known.  A name that is read in no other way is read by such
instructions alone, once in each (`Instruction.OnlyThrough.reads_through`), and the count of the
classification makes this so for all nativized names (`reads_nativized`).
-/

import Mathlib
import StructuredFlow.Code.Emission

namespace StructuredFlow

/-! ### Loads and stores through a name -/

/-- The statement of an instruction that reads or writes the cell that a name points to,
with the text of the cell; other instructions have none. -/
def Instruction.throughPointer? (inst : Instruction) (name cell : String) : Option String :=
  match inst.action with
  | .operation (.load _ (.ssa n)) =>
    if n = name then some (bindStatement inst.definedName? cell) else none
  | .operation (.store _ value (.ssa n)) =>
    if n = name then some s!"{cell} = {value.expression};" else none
  | .operation (.fusedLoad (.ssa n) indices) =>
    if n = name ∧ isStart indices = true then some (bindStatement inst.definedName? cell) else none
  | _ => none

/-- The text of the cell that a name points to is all that the storage of the name decides. -/
theorem Instruction.statement_of_throughPointer? {b : Bindings} {inst : Instruction}
    {text : String} (name : String)
    (h : inst.throughPointer? name (b.deref (.ssa name)) = some text) :
    inst.statement b = .ok text := by
  unfold throughPointer? at h
  split at h
  next n ha =>
    split at h
    next hn =>
      rw [statement, ha, ← Option.some.inj h, ← hn]
      rfl
    next => exact absurd h (by simp)
  next value n ha =>
    split at h
    next hn =>
      rw [statement, ha, ← Option.some.inj h, ← hn]
      rfl
    next => exact absurd h (by simp)
  next n indices ha =>
    split at h
    next hn =>
      rw [statement, ha, ← Option.some.inj h, ← hn.1]
      simp only [Operation.statement, if_pos hn.2]
    next => exact absurd h (by simp)
  next => exact absurd h (by simp)

/-- As values all operands are used, and in no other way. -/
theorem mem_asValues {access : Access} {operand : Operand} {operands : List Operand} :
    (access, operand) ∈ asValues operands ↔ access = .value ∧ operand ∈ operands := by
  simp only [asValues, List.mem_map, Prod.mk.injEq]
  constructor
  · rintro ⟨_, hm, rfl, rfl⟩
    exact ⟨rfl, hm⟩
  · rintro ⟨rfl, hm⟩
    exact ⟨_, hm, rfl, rfl⟩

/-- An instruction reads memory or writes memory through a name and does nothing else
with it. -/
def Instruction.OnlyThrough (inst : Instruction) (name : String) : Prop :=
  ∀ access, (access, Operand.ssa name) ∈ inst.action.accesses → access = .load ∨ access = .store

namespace Instruction.OnlyThrough

variable {inst : Instruction} {name : String}

/-- An operand that is used as a pointer only is no value. -/
theorem not_mem_asValues (h : inst.OnlyThrough name) {operands : List Operand}
    (hsub : ∀ use ∈ asValues operands, use ∈ inst.action.accesses) :
    Operand.ssa name ∉ operands := by
  intro hm
  have hvalue := hsub _ (mem_asValues.mpr ⟨rfl, hm⟩)
  rcases h _ hvalue with h | h <;> exact absurd h (by simp)

/-- **Such an instruction names the pointer once, and is a load or a store through it.** -/
theorem reads_through (h : inst.OnlyThrough name) (hread : Operand.ssa name ∈ inst.action.operands)
    (cell : String) : inst.action.operands.count (.ssa name) = 1 ∧
      ∃ text, inst.throughPointer? name cell = some text := by
  unfold throughPointer?
  have hvalues := @not_mem_asValues inst name h
  unfold OnlyThrough at h
  cases ha : inst.action with
  | transfer t =>
    rw [ha] at hread hvalues
    exact absurd hread (hvalues fun use hu => hu)
  | operation op =>
    rw [ha] at h hread hvalues
    cases op with
    | assign value => exact absurd hread (hvalues fun use hu => hu)
    | call callee args => exact absurd hread (hvalues fun use hu => hu)
    | compute op predicate operands => exact absurd hread (hvalues fun use hu => hu)
    | alloca ty => exact absurd hread List.not_mem_nil
    | bitcast value ty =>
      obtain rfl := List.mem_singleton.mp hread
      rcases h .derive List.mem_cons_self with h | h <;> exact absurd h (by simp)
    | elementPtr base indices =>
      rcases List.mem_cons.mp hread with rfl | hread
      · rcases h .derive List.mem_cons_self with h | h <;> exact absurd h (by simp)
      · exact absurd hread (hvalues fun use hu => List.mem_cons_of_mem _ hu)
    | load ty pointer =>
      obtain rfl := List.mem_singleton.mp hread
      exact ⟨by simp [Action.operands, Operation.operands], _, if_pos rfl⟩
    | store ty value pointer =>
      have hne : Operand.ssa name ∉ [value] := hvalues fun use hu => by
        rw [List.mem_singleton.mp hu]
        exact List.mem_cons_self
      have hpointer : Operand.ssa name = pointer := by
        simpa [Action.operands, Operation.operands] using
          (List.mem_cons.mp hread).resolve_left fun h => hne (List.mem_singleton.mpr h)
      subst hpointer
      refine ⟨?_, _, if_pos rfl⟩
      change ([value] ++ [Operand.ssa name]).count _ = 1
      rw [List.count_append, List.count_eq_zero_of_not_mem hne]
      simp
    | fusedLoad base indices =>
      have hne : Operand.ssa name ∉ indices := hvalues fun use hu => List.mem_cons_of_mem _ hu
      have hbase : Operand.ssa name = base := (List.mem_cons.mp hread).resolve_right hne
      subst hbase
      have hstart : isStart indices = true := by
        rcases h (if isStart indices then .load else .value) List.mem_cons_self with h | h <;>
          revert h <;> split <;> simp_all
      refine ⟨?_, _, if_pos ⟨rfl, hstart⟩⟩
      change (Operand.ssa name :: indices).count _ = 1
      rw [List.count_cons_self, List.count_eq_zero_of_not_mem hne]

end Instruction.OnlyThrough

/-! ### What the classification counts -/

/-- A table has the variables that it had, and the new one. -/
theorem VariableTable.mem_insert {v w : Variable} {table : VariableTable}
    (h : w ∈ table.insert v) : w = v ∨ w ∈ table := by
  induction table with
  | nil => exact Or.inl (List.mem_singleton.mp h)
  | cons u rest ih =>
    unfold insert at h
    split at h
    · exact List.mem_cons.mp h
    · split at h
      · exact (List.mem_cons.mp h).imp_right (List.mem_cons_of_mem _)
      · rcases List.mem_cons.mp h with rfl | h
        · exact Or.inr List.mem_cons_self
        · exact (ih h).imp_right (List.mem_cons_of_mem _)

/-- The variable that a table holds for a name is one of those it is made of. -/
theorem VariableTable.mem_of_get?_ofList {list : List Variable} {name : String} {v : Variable}
    (h : (ofList list).get? name = some v) : v ∈ list ∧ v.name = name := by
  have hmem : ∀ (list : List Variable) (table : VariableTable),
      v ∈ list.foldl (fun table v => insert v table) table → v ∈ list ∨ v ∈ table := by
    intro list
    induction list with
    | nil => exact fun table h => Or.inr h
    | cons w list ih =>
      intro table h
      rcases ih _ h with h | h
      · exact Or.inl (List.mem_cons_of_mem _ h)
      · rcases mem_insert h with rfl | h
        · exact Or.inl List.mem_cons_self
        · exact Or.inr h
  refine ⟨(hmem list [] (List.mem_of_find?_eq_some h)).resolve_right List.not_mem_nil, ?_⟩
  simpa using List.find?_some h

/-- A use that is no load and no store keeps the loads and stores from being all uses. -/
theorem countP_lt_uses {uses : List (Access × String)} {name : String} {access : Access}
    (h : (access, name) ∈ uses) (hload : access ≠ .load) (hstore : access ≠ .store) :
    uses.countP (fun use => use == (.load, name)) + uses.countP (fun use => use == (.store, name)) <
      uses.countP fun use => use.2 == name := by
  have hle : ∀ rest : List (Access × String),
      rest.countP (fun use => use == (.load, name)) +
        rest.countP (fun use => use == (.store, name)) ≤ rest.countP fun use => use.2 == name := by
    intro rest
    induction rest with
    | nil => simp
    | cons use rest ih =>
      obtain ⟨access, n⟩ := use
      simp only [List.countP_cons]
      by_cases hn : n = name
      · subst hn
        cases access <;> simp <;> omega
      · simp [hn, ih]
  obtain ⟨before, after, rfl⟩ := List.append_of_mem h
  have hbefore := hle before
  have hafter := hle after
  simp only [List.countP_append, List.countP_cons, beq_self_eq_true, beq_iff_eq, Prod.mk.injEq,
    hload, hstore, false_and, if_true, if_false]
  omega

section Classified

variable {f : Function} {types : TypeTable} {name : String}

/-- A variable that can do without its pointer is a pointer, and its loads and stores are all
its uses. -/
theorem Variable.uses_le_of_nativized {v : Variable} {action : Action}
    (h : v.chooseStorage types action = .nativized) :
    v.ty.depth ≠ 0 ∧ v.uses ≤ v.loads + v.stores := by
  unfold chooseStorage at h
  split at h
  next => exact absurd h (by simp)
  next =>
    split at h
    next => exact absurd h (by simp)
    next hdepth =>
      split at h
      next hcan =>
        refine ⟨hdepth, ?_⟩
        unfold canNativize at hcan
        split at hcan
        next =>
          simp only [Bool.and_eq_true, Bool.not_eq_true', valueTaken, decide_eq_false_iff_not,
            Nat.not_lt, otherUses, if_neg hdepth] at hcan
          omega
        next => exact absurd hcan (by simp)
      next => exact absurd h (by simp)

/-- A nativized name of a function serves for loads and stores alone. -/
theorem Function.uses_le_of_nativized {inst : Instruction} {v : Variable}
    (h : f.variableOf types inst = some v) (hv : v.storage = .nativized) :
    f.uses v.name ≤ f.usesAs .load v.name + f.usesAs .store v.name := by
  simp only [variableOf, Option.bind_eq_bind, Option.bind_eq_some_iff, Option.pure_def,
    Option.some.injEq] at h
  obtain ⟨⟨n, ty⟩, _, origin, _, rfl⟩ := h
  obtain ⟨hdepth, hle⟩ := Variable.uses_le_of_nativized hv
  simpa [hdepth] using hle

/-- What the code of a function is written with after its variables are classified. -/
theorem Function.table_source (f : Function) (config : Config) (types : TypeTable)
    (labels : List Label) : (f.source config types (f.variableTable types) labels).bindings.table =
      f.variableTable types := rfl

/-- **Every use of a nativized name is a load or a store through it.** -/
theorem Function.onlyThrough_of_nativized {b : Bindings} (hb : b.table = f.variableTable types)
    (h : b.storage name = .nativized) {inst : Instruction} (hinst : inst ∈ f.instructions) :
    inst.OnlyThrough name := by
  unfold Bindings.storage at h
  rw [hb] at h
  split at h
  next v hget =>
    obtain ⟨hmem, rfl⟩ := VariableTable.mem_of_get?_ofList hget
    obtain ⟨definer, _, hdefiner⟩ := List.mem_filterMap.mp hmem
    have hle := uses_le_of_nativized hdefiner h
    intro access haccess
    have huse : (access, v.name) ∈ f.accesses :=
      List.mem_flatMap.mpr ⟨inst, hinst, List.mem_filterMap.mpr ⟨_, haccess, rfl⟩⟩
    refine Decidable.or_iff_not_imp_left.mpr fun hload => Decidable.byContradiction fun hstore => ?_
    exact absurd (countP_lt_uses huse hload hstore) (Nat.not_lt.mpr hle)
  next => split at h <;> exact absurd h (by simp)

end Classified

/-! ### The code of pointers -/

/-- The number of slots of the cell for a value of a type, at least one. -/
def Bindings.slots (b : Bindings) (ty : Ty) : Nat := max ((b.types.flatSize ty).getD 1) 1

/-- What a nativized variable points to is the variable itself. -/
theorem Bindings.deref_of_nativized {b : Bindings} {name : String}
    (h : b.storage name = .nativized) : b.deref (.ssa name) = Identifier.ofLocal name := if_pos h

/-- What any other variable points to is in the heap. -/
theorem Bindings.deref_of_ne {b : Bindings} {name : String} (h : b.storage name ≠ .nativized) :
    b.deref (.ssa name) = s!"HEAP[{Identifier.ofLocal name}]" := if_neg h

/-- **A nativized pointer is written as its cell, and only where the cell is meant.**  With
the classified variables of a function, an instruction that reads a nativized name reads it
once, as the pointer of a load or of a store or as the base of a fused load at the start,
and is written with the bare name there; so no other instruction and no control transfer
reads it.  An `alloca` of any other name is written with a cell on the stack, and each load
and store through that name goes to the indexed store. -/
theorem reads_nativized (f : Function) (config : Config) (types : TypeTable)
    (labels : List Label) :
    let b := (f.source config types (f.variableTable types) labels).bindings
    (∀ name, b.storage name = .nativized → ∀ inst ∈ f.instructions,
      Operand.ssa name ∈ inst.action.operands →
        inst.action.operands.count (.ssa name) = 1 ∧
          ∃ text, inst.throughPointer? name (Identifier.ofLocal name) = some text ∧
            inst.statement b = .ok text) ∧
    ∀ name, b.storage name ≠ .nativized → ∀ definer ∈ f.instructions, ∀ ty,
      definer.action = .operation (.alloca ty) → definer.definedName? = some name →
        definer.statement b =
          .ok s!"var {Identifier.ofLocal name} = STACKTOP; STACKTOP += {b.slots ty};" ∧
        ∀ inst ∈ f.instructions, ∀ text,
          inst.throughPointer? name s!"HEAP[{Identifier.ofLocal name}]" = some text →
            inst.statement b = .ok text := by
  intro b
  refine ⟨fun name hname inst hinst hread => ?_, fun name hname definer _ ty ha hresult => ⟨?_, ?_⟩⟩
  · have honly := Function.onlyThrough_of_nativized (f.table_source config types labels) hname hinst
    obtain ⟨hcount, text, htext⟩ := honly.reads_through hread (Identifier.ofLocal name)
    refine ⟨hcount, text, htext, Instruction.statement_of_throughPointer? name ?_⟩
    rw [Bindings.deref_of_nativized hname]
    exact htext
  · rw [Instruction.statement, ha, hresult]
    simp only [Operation.statement, Bindings.allocaStatement, if_neg hname]
    rfl
  · intro inst _ text htext
    refine Instruction.statement_of_throughPointer? name ?_
    rw [Bindings.deref_of_ne hname]
    exact htext

/-- A function that writes a cell and reads it back, and hands the address of another to a
call before it writes there. -/
def cells : Function where
  name := "cells"
  labels := [⟨0, "entry", [
    { result := some ⟨"p", .ptr (.int 32)⟩, action := .operation (.alloca (.int 32)) },
    { result := some ⟨"q", .ptr (.int 32)⟩, action := .operation (.alloca (.int 32)) },
    { action := .operation (.store (.int 32) (.literal "5") (.ssa "p")) },
    { result := some ⟨"x", .int 32⟩, action := .operation (.load (.int 32) (.ssa "p")) },
    { action := .operation (.call (.symbol "sink") [.ssa "q"]) },
    { action := .operation (.store (.int 32) (.ssa "x") (.ssa "q")) },
    { action := .transfer (.ret (some (.ssa "x"))) }]⟩]

/-- The private cell of `cells` is read under its name, the one whose address is handed on
is made on the stack and written through the indexed store. -/
theorem reads_nativized_cells :
    let b := (cells.source {} {} (cells.variableTable {}) cells.labels).bindings
    (b.storage "p" = .nativized ∧ ∃ inst ∈ cells.instructions,
      inst.action.operands.count (.ssa "p") = 1 ∧ inst.statement b = .ok "var $x = $p;") ∧
    b.storage "q" ≠ .nativized ∧
      (∃ definer ∈ cells.instructions, definer.definedName? = some "q" ∧
        definer.statement b = .ok "var $q = STACKTOP; STACKTOP += 1;") ∧
      ∃ inst ∈ cells.instructions, inst.statement b = .ok "HEAP[$q] = $x;" := by
  intro b
  obtain ⟨hnativized, hothers⟩ := reads_nativized cells {} {} cells.labels
  have hp : b.storage "p" = .nativized := by decide_cbv
  have hq : b.storage "q" ≠ .nativized := by decide_cbv
  have hread : cells.instructions[3] ∈ cells.instructions := List.getElem_mem _
  have hdefiner : cells.instructions[1] ∈ cells.instructions := List.getElem_mem _
  have hwrite : cells.instructions[5] ∈ cells.instructions := List.getElem_mem _
  obtain ⟨hcount, text, htext, hstatement⟩ := hnativized "p" hp _ hread (by decide)
  have hbare : some text = some "var $x = $p;" := htext.symm.trans (by decide_cbv)
  obtain ⟨halloca, hthrough⟩ := hothers "q" hq _ hdefiner (.int 32) rfl rfl
  refine ⟨⟨hp, _, hread, hcount, Option.some.inj hbare ▸ hstatement⟩, hq, ⟨_, hdefiner, rfl, ?_⟩,
    _, hwrite, hthrough _ hwrite _ (by decide_cbv)⟩
  exact halloca.trans (congrArg Except.ok (by decide_cbv))

end StructuredFlow
