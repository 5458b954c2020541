/-
# Storage of function-local names

Every name that an instruction defines is given a storage:

| storage | the name is bound to |
| --- | --- |
| `native` | its value |
| `nativized` | the value of the one cell it points to; the pointer disappears |
| `emulated` | an address in an indexed store |

The first rule that applies decides:

1. an element address is emulated;
2. a name whose type is no pointer is native;
3. the result of an `alloca` whose type is one pointer level deep is nativized if
   the cell is a single slot and the name serves for loads and stores alone;
4. any other name is emulated.
-/

import StructuredFlow.Storage.Access

namespace StructuredFlow

/-- What a name is bound to. -/
inductive Storage
  /-- Its value. -/
  | native
  /-- The value it points to. -/
  | nativized
  /-- An address. -/
  | emulated
deriving DecidableEq, Repr, Inhabited

/-- The name of a storage. -/
def Storage.name : Storage → String
  | .native => "native"
  | .nativized => "nativized"
  | .emulated => "emulated"

/-- The kinds of instruction that give names a storage. -/
inductive Origin
  | assign | alloca | load | call | bitcast | compute | elementPtr | fusedLoad
deriving DecidableEq, Repr, Inhabited

/-- The name of an origin. -/
def Origin.name : Origin → String
  | .assign => "assign" | .alloca => "alloca" | .load => "load" | .call => "call"
  | .bitcast => "bitcast" | .compute => "mathop" | .elementPtr => "getelementptr"
  | .fusedLoad => "fusedload"

/-- The origin of a name that a kind of instruction defines; an invoke defines
one as a call does. -/
def Opcode.origin? : Opcode → Option Origin
  | .assign => some .assign
  | .alloca => some .alloca
  | .load => some .load
  | .call | .invoke => some .call
  | .elementPtr => some .elementPtr
  | .fusedLoad => some .fusedLoad
  | .bitcast => some .bitcast
  | .compute => some .compute
  | .store | .branch | .condBranch | .switch | .ret | .unreachable => none

/-- A name that a function defines, how the function uses it, and its storage. -/
structure Variable where
  /-- The name, without sigil. -/
  name : String
  /-- The type of its value. -/
  ty : Ty
  /-- The kind of instruction that defines it. -/
  origin : Origin
  /-- The number of times the function reads it. -/
  uses : Nat
  /-- The number of loads through it, if it is a pointer. -/
  loads : Nat
  /-- The number of stores through it, if it is a pointer. -/
  stores : Nat
  /-- It is a pointer from which another is made. -/
  addressTaken : Bool
  /-- What it is bound to. -/
  storage : Storage
deriving DecidableEq, Repr, Inhabited

namespace Variable

/-- The number of pointer levels of its type. -/
def depth (v : Variable) : Nat := v.ty.depth

/-- The number of uses of a pointer that are neither loads nor stores. -/
def otherUses (v : Variable) : Nat := if v.depth = 0 then 0 else v.uses - v.loads - v.stores

/-- It is a pointer that serves for more than loads and stores. -/
def valueTaken (v : Variable) : Bool := decide (0 < v.otherUses)

/-- The facts that keep a pointer from being nativized, in messages. -/
def flagsText (v : Variable) : String :=
  match v.addressTaken, v.valueTaken with
  | false, false => "VariableFlags(0x0)"
  | true, false => "VariableFlags(ADDR_TAKEN)"
  | false, true => "VariableFlags(VALUE_TAKEN)"
  | true, true => "VariableFlags(ADDR_TAKEN | VALUE_TAKEN)"

/-- What is known of a variable of a function in one line. -/
def text (function : String) (v : Variable) : String :=
  s!"{function}::{v.name}: origin={v.origin.name} depth={v.depth} uses={v.uses} " ++
    s!"loads={v.loads} stores={v.stores} other={v.otherUses} flags={v.flagsText} -> " ++
    v.storage.name

/-- Tests whether a variable can do without its pointer: it points to one cell of
a single slot and serves for loads and stores alone. -/
def canNativize (types : TypeTable) (action : Action) (v : Variable) : Bool :=
  match action with
  | .operation (.alloca ty) =>
    v.depth == 1 && !types.isMultiField ty && !v.addressTaken && !v.valueTaken
  | _ => false

/-- The storage that a variable defined by an action is to have. -/
def chooseStorage (types : TypeTable) (action : Action) (v : Variable) : Storage :=
  if v.origin = .elementPtr then .emulated
  else if v.depth = 0 then .native
  else if v.canNativize types action then .nativized
  else .emulated

end Variable

namespace Function

/-- The variable that an instruction defines, if it defines one. -/
def variableOf (f : Function) (types : TypeTable) (inst : Instruction) : Option Variable := do
  let ⟨name, ty⟩ ← inst.result
  let origin ← inst.opcode.origin?
  let isPointer := decide (ty.depth ≠ 0)
  let v : Variable := {
    name, ty, origin
    uses := f.uses name
    loads := if isPointer then f.usesAs .load name else 0
    stores := if isPointer then f.usesAs .store name else 0
    addressTaken := isPointer && decide (0 < f.usesAs .derive name)
    storage := .emulated }
  return { v with storage := v.chooseStorage types inst.action }

/-- The variables of a function in the order of their definitions; a name that is
defined again occurs again. -/
def definedVariables (f : Function) (types : TypeTable) : List Variable :=
  f.instructions.filterMap (f.variableOf types)

end Function

/-- Variables in the order of their names, each name at most once. -/
abbrev VariableTable := List Variable

namespace VariableTable

/-- Adds a variable, in place of one of the same name. -/
def insert (v : Variable) : VariableTable → VariableTable
  | [] => [v]
  | w :: rest =>
    if v.name < w.name then v :: w :: rest
    else if v.name = w.name then v :: rest
    else w :: insert v rest

/-- The variables of a list, of two of the same name the later. -/
def ofList (list : List Variable) : VariableTable :=
  list.foldl (fun table v => insert v table) []

/-- The variable of a name. -/
def get? (table : VariableTable) (name : String) : Option Variable :=
  table.find? fun v => v.name == name

end VariableTable

/-- The classified variables of a function. -/
def Function.variableTable (f : Function) (types : TypeTable) : VariableTable :=
  .ofList (f.definedVariables types)

end StructuredFlow
