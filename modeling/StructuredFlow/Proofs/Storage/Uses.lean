/-
# The uses of a name and its storage

An occurrence of a name is an operand of an instruction that is this name, at its place
among the operands (`Function.occurrences`).  The place decides what the occurrence is
for: a load through the name, a store, another pointer or its value (`Action.accessAt`).

The counts of a classified variable are numbers of occurrences (`uses_eq_length`,
`usesAs_eq_count`), so those of loads and of stores never exceed that of all uses, and what is
left are the occurrences of other kinds.  The storage, which is decided on these numbers,
can therefore be read off the occurrences themselves (`classifies_variableTable`).
-/

import StructuredFlow.Proofs.Storage.Pointers
import StructuredFlow.Proofs.Ty.Layout

namespace StructuredFlow

/-! ### Occurrences -/

/-- What the operand at a place is for.  A store has the value first and then the pointer. -/
def Action.accessAt : Action → Nat → Access
  | .operation (.load ..), 0 => .load
  | .operation (.fusedLoad _ indices), 0 => if indices.all Operand.isZero then .load else .value
  | .operation (.store ..), 1 => .store
  | .operation (.elementPtr ..), 0 => .derive
  | .operation (.bitcast ..), 0 => .derive
  | _, _ => .value

/-- The operands of an instruction that are a name, by their places. -/
def Instruction.occurrences (inst : Instruction) (name : String) : List (Operand × Nat) :=
  inst.action.operands.zipIdx.filter fun operand => operand.1 == .ssa name

/-- What each occurrence of a name in a function is for, in program order. -/
def Function.occurrences (f : Function) (name : String) : List Access :=
  f.instructions.flatMap fun inst =>
    (inst.occurrences name).map fun operand => inst.action.accessAt operand.2

variable {f : Function} {types : TypeTable} {name : String} {inst : Instruction} {v : Variable}

/-- Where positions do not matter a list can be gone through without them. -/
theorem zipIdx_map_const {α β : Type} {l : List α} {start : Nat} {g : Nat → β} {b : β}
    (h : ∀ k, start ≤ k → g k = b) :
    (l.zipIdx start).map (fun x => (g x.2, x.1)) = l.map fun a => (b, a) := by
  induction l generalizing start with
  | nil => rfl
  | cons a l ih =>
    rw [List.zipIdx_cons, List.map_cons, List.map_cons, h start (Nat.le_refl _),
      ih fun k hk => h k (Nat.le_of_succ_le hk)]

/-- The accesses are those of the operands at their places. -/
theorem Action.accesses_eq_zipIdx (a : Action) :
    a.accesses = a.operands.zipIdx.map fun operand => (a.accessAt operand.2, operand.1) := by
  cases a with
  | transfer t => exact (zipIdx_map_const fun _ _ => rfl).symm
  | operation op =>
    cases op with
    | assign value => rfl
    | alloca ty => rfl
    | load ty pointer => rfl
    | store ty value pointer => rfl
    | bitcast value ty => rfl
    | call callee args => exact (zipIdx_map_const fun _ _ => rfl).symm
    | compute op predicate operands => exact (zipIdx_map_const fun _ _ => rfl).symm
    | elementPtr base indices =>
      refine congrArg _ (zipIdx_map_const fun k hk => ?_).symm
      obtain ⟨k, rfl⟩ := Nat.exists_eq_add_of_le' hk
      rfl
    | fusedLoad base indices =>
      refine congrArg _ (zipIdx_map_const fun k hk => ?_).symm
      obtain ⟨k, rfl⟩ := Nat.exists_eq_add_of_le' hk
      rfl

/-- The accesses to a name are what its occurrences are for. -/
theorem Function.map_fst_accesses (f : Function) (name : String) :
    (f.accesses.filter fun use => use.2 == name).map Prod.fst = f.occurrences name := by
  have hplaces : ∀ (g : Nat → Access) (places : List (Operand × Nat)),
      (((places.map fun x => (g x.2, x.1)).filterMap fun access =>
          access.2.ssa?.map fun n => (access.1, n)).filter fun use => use.2 == name).map Prod.fst =
        (places.filter fun x => x.1 == .ssa name).map fun x => g x.2 := by
    intro g places
    induction places with
    | nil => rfl
    | cons x places ih =>
      obtain ⟨operand, k⟩ := x
      cases operand with
      | ssa n => by_cases hn : n = name <;> simp_all [Operand.ssa?]
      | symbol n => simpa [Operand.ssa?] using ih
      | literal n => simpa [Operand.ssa?] using ih
  rw [accesses, List.filter_flatMap, List.map_flatMap]
  refine List.flatMap_congr fun inst _ => ?_
  rw [Action.accesses_eq_zipIdx]
  exact hplaces _ _

/-- A name is used as often as it occurs. -/
theorem Function.uses_eq_length (f : Function) (name : String) :
    f.uses name = (f.occurrences name).length := by
  rw [uses, ← f.map_fst_accesses, List.length_map, List.countP_eq_length_filter]

/-- It is used in one way as often as it occurs for that. -/
theorem Function.usesAs_eq_count (f : Function) (access : Access) (name : String) :
    f.usesAs access name = (f.occurrences name).count access := by
  rw [usesAs, ← f.map_fst_accesses, List.count, List.countP_map, List.countP_filter]
  refine List.countP_congr fun use _ => ?_
  obtain ⟨a, n⟩ := use
  simp

/-- Tests for an occurrence that is neither a load nor a store. -/
def Access.isOther : Access → Bool
  | .load | .store => false
  | .derive | .value => true

/-- Loads, stores and the others are all occurrences. -/
theorem length_eq_count_add (list : List Access) :
    list.length = list.count .load + list.count .store + list.countP Access.isOther := by
  induction list with
  | nil => rfl
  | cons access list ih =>
    rw [List.length_cons, ih, List.count_cons, List.count_cons, List.countP_cons]
    cases access <;> simp [Access.isOther] <;> omega

/-! ### The table of variables -/

namespace VariableTable

variable {table : VariableTable} {w : Variable}

/-- The first variable of a name is found. -/
theorem get?_cons (v : Variable) (table : VariableTable) (name : String) :
    get? (v :: table) name = if v.name = name then some v else table.get? name := by
  unfold get?
  by_cases h : v.name = name
  · rw [List.find?_cons_of_pos (by simpa using h), if_pos h]
  · rw [List.find?_cons_of_neg (by simpa using h), if_neg h]

/-- Inserted under its name, a variable is found there, and others where they were. -/
theorem get?_insert (v : Variable) (table : VariableTable) (name : String) :
    (table.insert v).get? name = if v.name = name then some v else table.get? name := by
  induction table with
  | nil => exact get?_cons v [] name
  | cons w rest ih =>
    unfold insert
    split
    next => exact get?_cons v _ name
    next =>
      split
      next hsame =>
        rw [get?_cons, get?_cons, ← hsame]
        split <;> rfl
      next hother =>
        rw [get?_cons, get?_cons, ih]
        by_cases hv : v.name = name
        · rw [if_neg fun hw => hother (hv.trans hw.symm), if_pos hv, if_pos hv]
        · rw [if_neg hv, if_neg hv]

/-- A table made of variables has one for each of their names. -/
theorem exists_get?_ofList_iff {list : List Variable} :
    (∃ v, (ofList list).get? name = some v) ↔ ∃ v ∈ list, v.name = name := by
  have hfold : ∀ (list : List Variable) (table : VariableTable),
      (∃ v, (list.foldl (fun table v => insert v table) table).get? name = some v) ↔
        (∃ v ∈ list, v.name = name) ∨ ∃ v, table.get? name = some v := by
    intro list
    induction list with
    | nil => simp
    | cons w list ih =>
      intro table
      rw [List.foldl_cons, ih, get?_insert]
      by_cases hw : w.name = name <;> simp [hw]
  exact (hfold list []).trans (or_iff_left (by simp [get?]))

/-- The names of a table ascend, so each occurs once. -/
def Ascends (table : VariableTable) : Prop := table.Pairwise fun v w => v.name < w.name

/-- A variable that is inserted keeps the order of names. -/
theorem Ascends.insert (h : table.Ascends) (v : Variable) : (table.insert v).Ascends := by
  induction table with
  | nil => exact List.pairwise_singleton _ _
  | cons w rest ih =>
    obtain ⟨hw, hrest⟩ := List.pairwise_cons.mp h
    unfold VariableTable.insert
    split
    next hlt =>
      refine List.pairwise_cons.mpr ⟨List.forall_mem_cons.mpr ⟨hlt, fun u hu => ?_⟩, h⟩
      exact hlt.trans (hw u hu)
    next hge =>
      split
      next hsame => exact List.pairwise_cons.mpr ⟨hsame ▸ hw, hrest⟩
      next hother =>
        refine List.pairwise_cons.mpr ⟨fun u hu => ?_, ih hrest⟩
        rcases mem_insert hu with rfl | hu
        · exact lt_of_le_of_ne (not_lt.mp hge) fun h => hother h.symm
        · exact hw u hu

/-- The names of a table that is made of variables ascend. -/
theorem ascends_ofList (list : List Variable) : (ofList list).Ascends := by
  have hfold : ∀ (list : List Variable) (table : VariableTable), table.Ascends →
      Ascends (list.foldl (fun table v => VariableTable.insert v table) table) := by
    intro list
    induction list with
    | nil => exact fun table h => h
    | cons v list ih => exact fun table h => ih _ (h.insert v)
  exact hfold list [] List.Pairwise.nil

end VariableTable

/-! ### The storage of a name -/

/-- The kinds of instruction that define variables. -/
def Opcode.definers : List Opcode :=
  [.assign, .alloca, .load, .call, .invoke, .bitcast, .compute, .elementPtr, .fusedLoad]

/-- The opcodes with an origin are those that define names. -/
theorem Opcode.isSome_origin?_iff (o : Opcode) : o.origin?.isSome = true ↔ o ∈ definers := by
  cases o <;> decide

/-- Only addresses inside an aggregate have this origin. -/
theorem Opcode.origin?_eq_elementPtr_iff (o : Opcode) :
    o.origin? = some .elementPtr ↔ o = .elementPtr := by
  cases o <;> decide

/-- What a variable records is what the occurrences of its name show. -/
structure Variable.Exact (f : Function) (types : TypeTable) (inst : Instruction) (v : Variable) :
    Prop where
  /-- It has the name and the type that the instruction defines. -/
  result : inst.result = some ⟨v.name, v.ty⟩
  /-- Its origin is that of the kind of the instruction. -/
  origin : inst.opcode.origin? = some v.origin
  /-- Its uses are the occurrences of the name. -/
  uses : v.uses = (f.occurrences v.name).length
  /-- The loads of a pointer are the occurrences as a pointer to load from. -/
  loads : v.depth ≠ 0 → v.loads = (f.occurrences v.name).count .load
  /-- The stores of a pointer are the occurrences as a pointer to store to. -/
  stores : v.depth ≠ 0 → v.stores = (f.occurrences v.name).count .store
  /-- Loads, stores and other uses of a pointer are all its uses. -/
  total : v.depth ≠ 0 → v.uses = v.loads + v.stores + v.otherUses
  /-- The value of a pointer is taken if some occurrence is of another kind. -/
  valueTaken : v.depth ≠ 0 →
    (v.valueTaken = true ↔ ∃ access ∈ f.occurrences v.name, access ≠ .load ∧ access ≠ .store)
  /-- The value of a pointer whose address is taken is taken. -/
  addressTaken : v.depth ≠ 0 → v.addressTaken = true → v.valueTaken = true
  /-- Native names are those of depth zero, element addresses apart. -/
  native : v.storage = .native ↔ inst.opcode ≠ .elementPtr ∧ v.depth = 0
  /-- Nativized names are pointers to private cells of at most one slot. -/
  nativized : v.storage = .nativized ↔
    (∃ ty n, inst.action = .operation (.alloca ty) ∧ types.flatSize ty = some n ∧ n ≤ 1) ∧
      v.depth = 1 ∧ ∀ access ∈ f.occurrences v.name, access = .load ∨ access = .store
  /-- Any other name is emulated. -/
  emulated : v.storage ≠ .native → v.storage ≠ .nativized → v.storage = .emulated

/-- What the variable of an instruction is made of. -/
theorem Function.variableOf_eq_some (h : f.variableOf types inst = some v) :
    inst.result = some ⟨v.name, v.ty⟩ ∧ inst.opcode.origin? = some v.origin ∧
      v.uses = f.uses v.name ∧
      v.loads = (if v.depth ≠ 0 then f.usesAs .load v.name else 0) ∧
      v.stores = (if v.depth ≠ 0 then f.usesAs .store v.name else 0) ∧
      v.addressTaken = (decide (v.depth ≠ 0) && decide (0 < f.usesAs .derive v.name)) ∧
      v.storage = v.chooseStorage types inst.action := by
  simp only [variableOf, Option.bind_eq_bind, Option.bind_eq_some_iff, Option.pure_def,
    Option.some.injEq] at h
  obtain ⟨⟨n, ty⟩, hresult, origin, horigin, rfl⟩ := h
  refine ⟨hresult, horigin, rfl, ?_, ?_, rfl, rfl⟩ <;>
    by_cases hdepth : ty.depth = 0 <;> simp [Variable.depth, hdepth]

namespace Variable

/-- The other uses of a pointer are its occurrences of other kinds. -/
theorem otherUses_eq_countP (hdepth : v.depth ≠ 0)
    (huses : v.uses = (f.occurrences v.name).length)
    (hloads : v.loads = (f.occurrences v.name).count .load)
    (hstores : v.stores = (f.occurrences v.name).count .store) :
    v.otherUses = (f.occurrences v.name).countP Access.isOther := by
  rw [otherUses, if_neg hdepth, huses, hloads, hstores, length_eq_count_add]
  omega

/-- A variable is native exactly if it is no address inside an aggregate and no pointer. -/
theorem chooseStorage_eq_native_iff {action : Action} :
    v.chooseStorage types action = .native ↔ v.origin ≠ .elementPtr ∧ v.depth = 0 := by
  unfold chooseStorage
  by_cases horigin : v.origin = .elementPtr <;> by_cases hdepth : v.depth = 0 <;>
    cases v.canNativize types action <;> simp [horigin, hdepth]

/-- A variable is nativized exactly if it is a pointer but no address inside an aggregate, and can
be. -/
theorem chooseStorage_eq_nativized_iff {action : Action} :
    v.chooseStorage types action = .nativized ↔
      v.origin ≠ .elementPtr ∧ v.depth ≠ 0 ∧ v.canNativize types action = true := by
  unfold chooseStorage
  by_cases horigin : v.origin = .elementPtr <;> by_cases hdepth : v.depth = 0 <;>
    cases v.canNativize types action <;> simp [horigin, hdepth]

/-- **When a pointer can be nativized**: it is made by an `alloca` of at most one slot, points to
no pointer, and neither its address nor its value is taken. -/
theorem canNativize_iff {action : Action} :
    v.canNativize types action = true ↔
      (∃ ty n, action = .operation (.alloca ty) ∧ types.flatSize ty = some n ∧ n ≤ 1) ∧
        v.depth = 1 ∧ v.addressTaken = false ∧ v.valueTaken = false := by
  unfold canNativize
  split
  next ty =>
    simp only [Bool.and_eq_true, beq_iff_eq, Bool.not_eq_true', TypeTable.isMultiField_eq_false_iff]
    constructor
    · rintro ⟨⟨⟨hdepth, n, hn⟩, haddress⟩, hvalue⟩
      exact ⟨⟨ty, n, rfl, hn⟩, hdepth, haddress, hvalue⟩
    · rintro ⟨⟨ty', n, hty, hn⟩, hdepth, haddress, hvalue⟩
      obtain rfl : ty = ty' := by simpa using hty
      exact ⟨⟨⟨hdepth, n, hn⟩, haddress⟩, hvalue⟩
  next hno =>
    refine iff_of_false (by simp) ?_
    rintro ⟨⟨ty, -, hty, -⟩, -⟩
    exact hno ty hty

end Variable

/-- **What the classification records of a name is what its occurrences show.** -/
theorem Function.exact_of_variableOf (h : f.variableOf types inst = some v) :
    v.Exact f types inst := by
  obtain ⟨hresult, horigin, huses, hloads, hstores, haddress, hstorage⟩ := variableOf_eq_some h
  rw [uses_eq_length] at huses
  simp only [usesAs_eq_count] at hloads hstores haddress
  have hother : v.depth ≠ 0 → v.otherUses = (f.occurrences v.name).countP Access.isOther := by
    intro hdepth
    rw [if_pos hdepth] at hloads hstores
    exact Variable.otherUses_eq_countP hdepth huses hloads hstores
  have htaken : v.depth ≠ 0 → (v.valueTaken = true ↔
      ∃ access ∈ f.occurrences v.name, access ≠ .load ∧ access ≠ .store) := by
    intro hdepth
    rw [Variable.valueTaken, decide_eq_true_iff, hother hdepth, List.countP_pos_iff]
    refine exists_congr fun access => and_congr_right fun _ => ?_
    cases access <;> decide
  have hderived : v.depth ≠ 0 → v.addressTaken = true → v.valueTaken = true := by
    intro hdepth htrue
    rw [haddress, Bool.and_eq_true, decide_eq_true_iff, decide_eq_true_iff,
      List.count_pos_iff] at htrue
    exact (htaken hdepth).mpr ⟨.derive, htrue.2, by decide, by decide⟩
  refine ⟨hresult, horigin, huses, fun hdepth => hloads.trans (if_pos hdepth),
    fun hdepth => hstores.trans (if_pos hdepth), fun hdepth => ?_, htaken, hderived, ?_, ?_, ?_⟩
  · rw [hother hdepth, huses, hloads, hstores, if_pos hdepth, if_pos hdepth, length_eq_count_add]
  · rw [hstorage, Variable.chooseStorage_eq_native_iff, Ne, Ne, ← Opcode.origin?_eq_elementPtr_iff,
      horigin, Option.some.injEq]
  · rw [hstorage, Variable.chooseStorage_eq_nativized_iff, Variable.canNativize_iff]
    have haccesses : v.depth = 1 → (v.valueTaken = false ↔
        ∀ access ∈ f.occurrences v.name, access = .load ∨ access = .store) := by
      intro hdepth
      rw [← Bool.not_eq_true, htaken (by omega)]
      push Not
      exact forall₂_congr fun access _ => or_iff_not_imp_left.symm
    constructor
    · rintro ⟨-, -, hcell, hdepth, -, hvalue⟩
      exact ⟨hcell, hdepth, (haccesses hdepth).mp hvalue⟩
    · rintro ⟨hcell, hdepth, hall⟩
      have hvalue := (haccesses hdepth).mpr hall
      have hne : v.depth ≠ 0 := by omega
      refine ⟨?_, hne, hcell, hdepth, ?_, hvalue⟩
      · -- A cell is no element address.
        obtain ⟨ty, n, halloca, -⟩ := hcell
        rw [Ne, ← Option.some.injEq, ← horigin, Opcode.origin?_eq_elementPtr_iff,
          Instruction.opcode, halloca]
        exact Opcode.noConfusion
      · rw [← Bool.not_eq_true]
        exact fun htrue => Bool.eq_false_iff.mp hvalue (hderived hne htrue)
  · intro hnative hnativized
    cases hs : v.storage <;> simp_all

/-- An instruction makes a variable of its name if its kind defines variables. -/
theorem Function.exists_variableOf_iff :
    (∃ v, f.variableOf types inst = some v ∧ v.name = name) ↔
      inst.definedName? = some name ∧ inst.opcode ∈ Opcode.definers := by
  rw [← Opcode.isSome_origin?_iff, Option.isSome_iff_exists]
  simp only [variableOf, Option.bind_eq_bind, Option.bind_eq_some_iff, Option.pure_def,
    Option.some.injEq, Instruction.definedName?, Option.map_eq_some_iff]
  constructor
  · rintro ⟨v, ⟨definition, hresult, origin, horigin, rfl⟩, hname⟩
    exact ⟨⟨definition, hresult, hname⟩, origin, horigin⟩
  · rintro ⟨⟨definition, hresult, hname⟩, origin, horigin⟩
    exact ⟨_, ⟨definition, hresult, origin, horigin, rfl⟩, hname⟩

/-- A name that is defined once is defined by one instruction. -/
theorem Function.definer_unique
    (hone : (f.instructions.filterMap Instruction.definedName?).Nodup) {other : Instruction}
    (hinst : inst ∈ f.instructions) (hname : inst.definedName? = some name)
    (hother : other ∈ f.instructions) (hsame : other.definedName? = some name) : other = inst := by
  have hpairs : f.instructions.Pairwise fun a b =>
      a.definedName? = some name → b.definedName? = some name → a = b := by
    refine (List.pairwise_filterMap.mp hone).imp fun hdistinct ha hb => ?_
    exact absurd rfl (hdistinct name ha name hb)
  have hflip := hpairs.imp fun {a b} h (hb : b.definedName? = some name) ha => (h ha hb).symm
  exact hpairs.forall_of_forall_of_flip (fun _ _ _ _ => rfl) hflip hother hinst hsame hname

/-- **The classification of a function that defines each name once has one entry for each name
that an instruction gives a variable, and the entry is exact.** -/
theorem Function.classifies_variableTable (f : Function) (types : TypeTable)
    (hone : (f.instructions.filterMap Instruction.definedName?).Nodup) :
    (f.variableTable types).Ascends ∧
      (∀ name, (∃ v, (f.variableTable types).get? name = some v) ↔
        ∃ inst ∈ f.instructions, inst.definedName? = some name ∧ inst.opcode ∈ Opcode.definers) ∧
      ∀ name v, (f.variableTable types).get? name = some v →
        ∀ inst ∈ f.instructions, inst.definedName? = some name →
          v.name = name ∧ v.Exact f types inst := by
  refine ⟨VariableTable.ascends_ofList _, fun name => ?_, fun name v hget inst hinst hname => ?_⟩
  · rw [variableTable, VariableTable.exists_get?_ofList_iff, definedVariables]
    constructor
    · rintro ⟨v, hmem, hname⟩
      obtain ⟨inst, hinst, hv⟩ := List.mem_filterMap.mp hmem
      exact ⟨inst, hinst, exists_variableOf_iff.mp ⟨v, hv, hname⟩⟩
    · rintro ⟨inst, hinst, hdefines⟩
      obtain ⟨v, hv, hname⟩ := exists_variableOf_iff.mpr hdefines
      exact ⟨v, List.mem_filterMap.mpr ⟨inst, hinst, hv⟩, hname⟩
  · obtain ⟨hmem, hvname⟩ := VariableTable.mem_of_get?_ofList hget
    obtain ⟨definer, hdefiner, hv⟩ := List.mem_filterMap.mp hmem
    obtain ⟨hdefined, -⟩ := exists_variableOf_iff.mp ⟨v, hv, hvname⟩
    obtain rfl := definer_unique hone hinst hname hdefiner hdefined
    exact ⟨hvname, exact_of_variableOf hv⟩

/-- In `cells` the loads and stores of the private cell are all its uses, so its name stands
for the value; the other cell is handed on, which is a use of another kind. -/
theorem classifies_variableTable_cells :
    (∃ v, (cells.variableTable {}).get? "p" = some v ∧ v.uses = 2 ∧ v.storage = .nativized) ∧
    ∃ v, (cells.variableTable {}).get? "q" = some v ∧
      v.uses = 2 ∧ v.valueTaken = true ∧ v.storage ≠ .nativized := by
  obtain ⟨-, hnames, hexact⟩ := Function.classifies_variableTable cells {} (by decide)
  have hp : cells.instructions[0] ∈ cells.instructions := List.getElem_mem _
  have hq : cells.instructions[1] ∈ cells.instructions := List.getElem_mem _
  obtain ⟨p, hpget⟩ := (hnames "p").mpr ⟨_, hp, rfl, by decide⟩
  obtain ⟨q, hqget⟩ := (hnames "q").mpr ⟨_, hq, rfl, by decide⟩
  refine ⟨⟨p, hpget, ?_⟩, q, hqget, ?_⟩
  · obtain ⟨hname, hv⟩ := hexact "p" p hpget _ hp rfl
    have huses : cells.occurrences p.name = [.store, .load] := by rw [hname]; decide_cbv
    have hty : Ty.ptr (.int 32) = p.ty := congrArg Definition.ty (Option.some.inj hv.result)
    have hdepth : p.depth = 1 := by rw [Variable.depth, ← hty]; decide
    refine ⟨hv.uses.trans (congrArg List.length huses), hv.nativized.mpr ⟨?_, hdepth, ?_⟩⟩
    · exact ⟨.int 32, 1, rfl, by decide_cbv, by decide⟩
    · rw [huses]
      decide
  · obtain ⟨hname, hv⟩ := hexact "q" q hqget _ hq rfl
    have huses : cells.occurrences q.name = [.value, .store] := by rw [hname]; decide_cbv
    have hty : Ty.ptr (.int 32) = q.ty := congrArg Definition.ty (Option.some.inj hv.result)
    have hdepth : q.depth ≠ 0 := by rw [Variable.depth, ← hty]; decide
    refine ⟨hv.uses.trans (congrArg List.length huses), (hv.valueTaken hdepth).mpr ?_, fun h => ?_⟩
    · exact ⟨.value, by simp [huses], by decide, by decide⟩
    · have hall := (hv.nativized.mp h).2.2 .value (by simp [huses])
      exact absurd hall (by decide)

end StructuredFlow
