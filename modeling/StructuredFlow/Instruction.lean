/-
# Instructions

An instruction either performs an operation or transfers control.  It knows its
place in the listing and the label and function it belongs to, and it may define
one function-local name.
-/

import StructuredFlow.Instruction.Operator
import StructuredFlow.Instruction.Transfer
import StructuredFlow.Ty

namespace StructuredFlow

/-- What an instruction computes or does to memory. -/
inductive Operation
  /-- Copies a value. -/
  | assign (value : Operand)
  /-- Makes a stack cell for a value of a type; the defined name points to it. -/
  | alloca (ty : Ty)
  /-- Reads through a pointer. -/
  | load (ty : Ty) (pointer : Operand)
  /-- Writes through a pointer. -/
  | store (ty : Ty) (value pointer : Operand)
  /-- Calls a function. -/
  | call (callee : Operand) (args : List Operand)
  /-- Computes an address inside an aggregate. -/
  | elementPtr (base : Operand) (indices : List Operand)
  /-- Reads at an address inside an aggregate. -/
  | fusedLoad (base : Operand) (indices : List Operand)
  /-- Takes a value as one of another type. -/
  | bitcast (value : Operand) (ty : Ty)
  /-- Applies an operator, a comparison under a predicate. -/
  | compute (op : Operator) (predicate : Option Comparison) (operands : List Operand)
deriving DecidableEq, Repr, Inhabited

/-- The operands read, in the order of the notation. -/
def Operation.operands : Operation → List Operand
  | .assign value => [value]
  | .alloca _ => []
  | .load _ pointer => [pointer]
  | .store _ value pointer => [value, pointer]
  | .call callee args => callee :: args
  | .elementPtr base indices => base :: indices
  | .fusedLoad base indices => base :: indices
  | .bitcast value _ => [value]
  | .compute _ _ operands => operands

/-- The kinds of instruction. -/
inductive Opcode
  | assign | alloca | load | store | call | elementPtr | fusedLoad | bitcast | compute
  | branch | condBranch | switch | invoke | ret | unreachable
deriving DecidableEq, Repr, Inhabited

/-- The name of a kind of instruction. -/
def Opcode.name : Opcode → String
  | .assign => "assign" | .alloca => "alloca" | .load => "load" | .store => "store"
  | .call => "call" | .elementPtr => "getelementptr" | .fusedLoad => "fusedload"
  | .bitcast => "bitcast" | .compute => "mathop" | .branch => "branch"
  | .condBranch => "condbranch" | .switch => "switch" | .invoke => "invoke" | .ret => "return"
  | .unreachable => "unreachable"

/-- What an instruction does. -/
inductive Action
  /-- An operation, after which control goes on to the next instruction. -/
  | operation (op : Operation)
  /-- A control transfer. -/
  | transfer (t : Transfer)
deriving DecidableEq, Repr, Inhabited

namespace Action

/-- The kind of an action. -/
def opcode : Action → Opcode
  | .operation (.assign ..) => .assign
  | .operation (.alloca ..) => .alloca
  | .operation (.load ..) => .load
  | .operation (.store ..) => .store
  | .operation (.call ..) => .call
  | .operation (.elementPtr ..) => .elementPtr
  | .operation (.fusedLoad ..) => .fusedLoad
  | .operation (.bitcast ..) => .bitcast
  | .operation (.compute ..) => .compute
  | .transfer (.branch ..) => .branch
  | .transfer (.condBranch ..) => .condBranch
  | .transfer (.switch ..) => .switch
  | .transfer (.invoke ..) => .invoke
  | .transfer (.ret ..) => .ret
  | .transfer .unreachable => .unreachable

/-- The control transfer, if the action is one. -/
def transfer? : Action → Option Transfer
  | .operation _ => none
  | .transfer t => some t

/-- The operands read, in the order of the notation. -/
def operands : Action → List Operand
  | .operation op => op.operands
  | .transfer t => t.operands

/-- The targets of a control transfer; an operation has none. -/
def targets : Action → List Target
  | .operation _ => []
  | .transfer t => t.targets

/-- Applies a function to every target. -/
def mapTargets (f : Target → Target) : Action → Action
  | .operation op => .operation op
  | .transfer t => .transfer (t.mapTargets f)

end Action

/-- A function-local name and the type of its value. -/
structure Definition where
  /-- The name, without sigil. -/
  name : String
  /-- The type of the value. -/
  ty : Ty
deriving DecidableEq, Repr, Inhabited

/-- One instruction of a function. -/
structure Instruction where
  /-- The place in the listing of the function, counted over all labels. -/
  position : Nat := 0
  /-- The id of the label it belongs to. -/
  label : Nat := 0
  /-- The id of the function it belongs to. -/
  function : Nat := 0
  /-- The name it defines. -/
  result : Option Definition := none
  /-- What it does. -/
  action : Action
deriving DecidableEq, Repr, Inhabited

namespace Instruction

/-- The kind of an instruction. -/
def opcode (inst : Instruction) : Opcode := inst.action.opcode

/-- The control transfer of an instruction, if it is one. -/
def transfer? (inst : Instruction) : Option Transfer := inst.action.transfer?

/-- Tests for a control transfer. -/
def isTransfer (inst : Instruction) : Bool := inst.transfer?.isSome

/-- The name an instruction defines. -/
def definedName? (inst : Instruction) : Option String := inst.result.map Definition.name

/-- The function-local names read, one entry per occurrence. -/
def ssaReads (inst : Instruction) : List String := inst.action.operands.filterMap Operand.ssa?

end Instruction
end StructuredFlow
