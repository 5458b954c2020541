/-
# Control transfers

A control transfer ends a label and names its successors.  A successor is either
another label of the function, by its position, or one of three markers that
stand for an edge already expressed by nesting:

| target | meaning |
| --- | --- |
| `label t` | a jump to label `t` |
| `breakOf e` | leave the construct entered at `e` |
| `continueOf e` | start the loop entered at `e` again |
| `nop` | fall through to whatever follows |

Only `label` targets are edges of the branch graph.
-/

import StructuredFlow.Instruction.Operand

namespace StructuredFlow

/-- Where a control transfer leads. -/
inductive Target
  /-- A jump to a label. -/
  | label (id : Nat)
  /-- Leaving the construct entered at a label. -/
  | breakOf (entry : Nat)
  /-- Starting the loop entered at a label again. -/
  | continueOf (entry : Nat)
  /-- Falling through. -/
  | nop
deriving DecidableEq, Repr, Inhabited

namespace Target

/-- The label of a jump. -/
def label? : Target → Option Nat
  | .label id => some id
  | _ => none

/-- Tests for the markers, which are no edges. -/
def isMarker : Target → Bool
  | .label _ => false
  | _ => true

/-- Puts `new` in the place of `old` and leaves other targets alone. -/
def replace (old new target : Target) : Target := if target = old then new else target

end Target

/-- The instruction that ends a label. -/
inductive Transfer
  /-- A jump. -/
  | branch (target : Target)
  /-- A choice by a truth value. -/
  | condBranch (condition : Operand) (ifTrue ifFalse : Target)
  /-- A choice by equality with literals, the first match counting. -/
  | switch (scrutinee : Operand) (default : Target) (cases : List (String × Target))
  /-- A call with a successor for its return and one for its unwinding. -/
  | invoke (callee : Operand) (args : List Operand) (normal unwind : Target)
  /-- The end of the function. -/
  | ret (value : Option Operand)
  /-- A point that control does not reach. -/
  | unreachable
deriving DecidableEq, Repr, Inhabited

namespace Transfer

/-- The targets: true before false, default before cases, normal before unwind. -/
def targets : Transfer → List Target
  | .branch target => [target]
  | .condBranch _ ifTrue ifFalse => [ifTrue, ifFalse]
  | .switch _ default cases => default :: cases.map Prod.snd
  | .invoke _ _ normal unwind => [normal, unwind]
  | .ret _ | .unreachable => []

/-- Applies a function to every target. -/
def mapTargets (f : Target → Target) : Transfer → Transfer
  | .branch target => .branch (f target)
  | .condBranch condition ifTrue ifFalse => .condBranch condition (f ifTrue) (f ifFalse)
  | .switch scrutinee default cases =>
    .switch scrutinee (f default) (cases.map fun (value, target) => (value, f target))
  | .invoke callee args normal unwind => .invoke callee args (f normal) (f unwind)
  | .ret value => .ret value
  | .unreachable => .unreachable

/-- The labels jumped to, in the order of the targets and with repetitions. -/
def realTargets (t : Transfer) : List Nat := t.targets.filterMap Target.label?

/-- The operands read, in the order of the notation. -/
def operands : Transfer → List Operand
  | .condBranch condition _ _ => [condition]
  | .switch scrutinee _ _ => [scrutinee]
  | .invoke callee args _ _ => callee :: args
  | .ret value => value.toList
  | .branch _ | .unreachable => []

/-- Tests for the end of the function. -/
def isReturn : Transfer → Bool
  | .ret _ => true
  | _ => false

@[simp] theorem targets_mapTargets (f : Target → Target) (t : Transfer) :
    (t.mapTargets f).targets = t.targets.map f := by
  cases t <;> simp [mapTargets, targets]

@[simp] theorem operands_mapTargets (f : Target → Target) (t : Transfer) :
    (t.mapTargets f).operands = t.operands := by
  cases t <;> rfl

end Transfer
end StructuredFlow
