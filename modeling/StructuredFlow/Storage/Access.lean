/-
# How instructions use names

Each operand of an instruction is used in one of four ways:

| access | operand |
| --- | --- |
| `load` | the pointer of a load; the base of a fused load whose indices are all `0` |
| `store` | the pointer of a store |
| `derive` | the base of an element address, the value of a bitcast |
| `value` | any other |

`accesses` lists the operands of an instruction with their accesses; leaving the
accesses out gives `operands` back.
-/

import StructuredFlow.Function

namespace StructuredFlow

/-- The way an operand is used. -/
inductive Access
  /-- Memory is read through it. -/
  | load
  /-- Memory is written through it. -/
  | store
  /-- Another pointer is made from it. -/
  | derive
  /-- It is read for what it is. -/
  | value
deriving DecidableEq, Repr, Inhabited

/-- Tests whether indices lead to the start of what they index. -/
def isStart (indices : List Operand) : Bool := indices.all Operand.isZero

/-- The operands read, each as a mere value. -/
def asValues (operands : List Operand) : List (Access × Operand) :=
  operands.map fun operand => (.value, operand)

/-- The operands of an operation and how each is used. -/
def Operation.accesses : Operation → List (Access × Operand)
  | .assign value => asValues [value]
  | .alloca _ => []
  | .load _ pointer => [(.load, pointer)]
  | .store _ value pointer => [(.value, value), (.store, pointer)]
  | .call callee args => asValues (callee :: args)
  | .elementPtr base indices => (.derive, base) :: asValues indices
  | .fusedLoad base indices =>
    (if isStart indices then .load else .value, base) :: asValues indices
  | .bitcast value _ => [(.derive, value)]
  | .compute _ _ operands => asValues operands

/-- The operands of an action and how each is used. -/
def Action.accesses : Action → List (Access × Operand)
  | .operation op => op.accesses
  | .transfer t => asValues t.operands

/-- The function-local names that a function reads, one entry per occurrence, and
how each is used. -/
def Function.accesses (f : Function) : List (Access × String) :=
  f.instructions.flatMap fun inst =>
    inst.action.accesses.filterMap fun (access, operand) => operand.ssa?.map fun name =>
      (access, name)

/-- The number of times a function reads a name. -/
def Function.uses (f : Function) (name : String) : Nat :=
  f.accesses.countP fun use => use.2 == name

/-- The number of times a function reads a name in one way. -/
def Function.usesAs (f : Function) (access : Access) (name : String) : Nat :=
  f.accesses.countP fun use => use == (access, name)

end StructuredFlow
