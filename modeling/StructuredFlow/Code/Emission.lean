/-
# Code of a structured function

`emit` turns the blocks of a function into code.

| block | code |
| --- | --- |
| `leaf .simple` | the statements of the label |
| `leaf .dispatch` | the same for a single label without jumps, else a dispatch |
| `loop` | `loop` around both parts |
| `cond` | the code of the check, then a conditional; one that is breaking inside `once` |

The control transfer of a label becomes jumps: a marker leaves or starts again the
construct of its label, and `nop` goes on with what follows, which in a dispatch
takes a jump out of it.  A jump to a label is possible to a member of the same
dispatch only; it goes by the index of the label in the registry.  The indices are
asked for in the order in which the code is written, and those given out before an
error stay given out.

A construct is called after the identifier of its entry, which no other label of
the function has: `L_` and the identifier, and `D_` for a dispatch.
-/

import StructuredFlow.BlockTree
import StructuredFlow.Code
import StructuredFlow.Code.Expression
import StructuredFlow.Config
import StructuredFlow.LabelSet
import StructuredFlow.Registry

namespace StructuredFlow

/-- Why a structured function has no code. -/
inductive EmissionError
  /-- A block or a target names a position without a label. -/
  | missingLabel (id : Nat)
  /-- A jump to a label stands outside a dispatch over it. -/
  | escapingBranch (label : String)
  /-- An instruction cannot be written. -/
  | statement (error : StatementError)
deriving DecidableEq, Repr

/-- What an error of emission reports. -/
def EmissionError.message : EmissionError → String
  | .missingLabel id => s!"label {labelText id} is not part of the function"
  | .escapingBranch label => s!"branch to {label} escapes its structured block"
  | .statement error => error.message

/-- A result that draws on the registry, or an error. -/
abbrev Emission := ExceptT EmissionError (StateM Registry)

/-- A dispatch with labels that jump to each other. -/
structure Dispatch where
  /-- The name of the construct. -/
  name : String
  /-- The labels. -/
  members : List Nat
deriving DecidableEq, Repr, Inhabited

namespace Dispatch

/-- Looks for an id among the `size` ids from position `base` on, which are halved
until one is left. -/
def holdsFrom (members : List Nat) (id base size : Nat) : Bool :=
  if size ≤ 1 then members.getD base 0 == id
  else
    let middle := base + size / 2
    holdsFrom members id (if id < members.getD middle 0 then base else middle) (size - size / 2)
termination_by size
decreasing_by omega

/-- Looks for an id among the members by halving, which finds every one if they
ascend. -/
def holds (d : Dispatch) (id : Nat) : Bool :=
  !d.members.isEmpty && holdsFrom d.members id 0 d.members.length

end Dispatch

namespace Emission

/-- What a function brings to the writing of its code. -/
structure Source where
  /-- The settings. -/
  config : Config
  /-- What its names stand for. -/
  bindings : Bindings
  /-- The id of the function. -/
  function : Nat
  /-- The labels as structuring left them. -/
  labels : List Label
  /-- The identifier of each label. -/
  identifiers : List String

/-- The index of a label in the registry, given out if need be. -/
def requestIndex (s : Source) (id : Nat) : Emission Nat := do
  let registry ← get
  set (registry.assign s.function id)
  return registry.index s.function id

/-- The label at a position. -/
def labelAt (s : Source) (id : Nat) : Emission Label :=
  match s.labels[id]? with
  | some label => return label
  | none => throw (.missingLabel id)

/-- The identifier of the label at a position. -/
def identifierAt (s : Source) (id : Nat) : Emission String :=
  match s.identifiers[id]? with
  | some identifier => return identifier
  | none => throw (.missingLabel id)

/-- The name of the construct entered at a label. -/
def constructName (s : Source) (entry : Nat) : Emission String :=
  return "L_" ++ (← identifierAt s entry)

/-- The name of the dispatch entered at a label. -/
def dispatchName (s : Source) (entry : Nat) : Emission String :=
  return "D_" ++ (← identifierAt s entry)

/-- The statement of an instruction. -/
def statementText (s : Source) (inst : Instruction) : Emission String :=
  match inst.statement s.bindings with
  | .ok text => return text
  | .error error => throw (.statement error)

/-- The jump to a label, possible to the members of the dispatch around it. -/
def jumpToLabel (s : Source) (around : Option Dispatch) (id : Nat) : Emission (Option Jump) :=
  match around.filter fun d => d.holds id with
  | some d => return some (.redirect s.config.dispatchVariable (← requestIndex s id) d.name)
  | none => do throw (.escapingBranch (← labelAt s id).name)

/-- The jump to a target, if it takes one. -/
def jumpTo (s : Source) (around : Option Dispatch) : Target → Emission (Option Jump)
  | .label id => jumpToLabel s around id
  | .breakOf entry => return some (.leave (← constructName s entry))
  | .continueOf entry => return some (.restart (← constructName s entry))
  | .nop => return around.map fun d => .leave d.name

/-- The jump of one of two targets. -/
def twoWay (test : Test) : Option Jump → Option Jump → List Statement
  | none, none => []
  | some first, fallback => [.choice [(test, some first)] fallback]
  | none, some second => [.choice [(test.not, some second)] none]

/-- The jump of the first arm whose test holds, or else the last. -/
def manyWay (arms : List (Test × Option Jump)) (fallback : Option Jump) : List Statement :=
  if fallback.isNone && arms.all fun arm => arm.2.isNone then []
  else if arms.isEmpty then (fallback.map Statement.jump).toList
  else [.choice arms fallback]

/-- The arms of a choice by equality. -/
def caseArms (s : Source) (around : Option Dispatch) (scrutinee : String) :
    List (String × Target) → Emission (List (Test × Option Jump))
  | [] => return []
  | (value, target) :: rest => do
    let jump ← jumpTo s around target
    return (⟨s!"{scrutinee} == {value}", false⟩, jump) :: (← caseArms s around scrutinee rest)

/-- The statements of a control transfer. -/
def transferStatements (s : Source) (around : Option Dispatch) (inst : Instruction) :
    Transfer → Emission (List Statement)
  | .branch target => return ((← jumpTo s around target).map Statement.jump).toList
  | .condBranch condition ifTrue ifFalse => do
    let first ← jumpTo s around ifTrue
    let second ← jumpTo s around ifFalse
    return twoWay ⟨condition.expression, false⟩ first second
  | .switch scrutinee default cases => do
    let arms ← caseArms s around scrutinee.expression cases
    return manyWay arms (← jumpTo s around default)
  | .invoke _ _ normal unwind => do
    let call ← statementText s inst
    let first ← jumpTo s around normal
    let second ← jumpTo s around unwind
    return .action call :: twoWay ⟨"!" ++ s.config.exceptionFlag, false⟩ first second
  | .ret value => return [.ret (value.map Operand.expression)]
  | .unreachable => return []

/-- The statements of an instruction. -/
def instructionStatements (s : Source) (around : Option Dispatch) (inst : Instruction) :
    Emission (List Statement) :=
  match inst.action with
  | .operation _ => return [.action (← statementText s inst)]
  | .transfer t => transferStatements s around inst t

/-- The statements of instructions one after the other. -/
def bodyStatements (s : Source) (around : Option Dispatch) :
    List Instruction → Emission (List Statement)
  | [] => return []
  | inst :: rest => do
    let statements ← instructionStatements s around inst
    return statements ++ (← bodyStatements s around rest)

/-- The statements of the label at a position. -/
def labelStatements (s : Source) (around : Option Dispatch) (id : Nat) :
    Emission (List Statement) := do
  let label ← labelAt s id
  let body ← bodyStatements s around label.instructions
  return if s.config.annotate && around.isNone then .comment label.name :: body else body

/-- The cases of labels of a dispatch. -/
def dispatchCases (s : Source) (d : Dispatch) : List Nat → Emission (List Case)
  | [] => return []
  | id :: rest => do
    let index ← requestIndex s id
    let body ← labelStatements s (some d) id
    let note := if s.config.annotate then (s.labels[id]?).map Label.name else none
    return ⟨index, note, body⟩ :: (← dispatchCases s d rest)

/-- The dispatch over labels. -/
def dispatchCode (s : Source) (entry : Nat) (labels : List Nat) : Emission Code := do
  let start ← requestIndex s entry
  let name ← dispatchName s entry
  let cases ← dispatchCases s ⟨name, labels⟩ labels
  return .dispatch name s.config.dispatchVariable start cases .done

/-- Tests whether a dispatch over labels has nowhere to jump. -/
def isLone (s : Source) (entry : Nat) (labels : List Nat) : Emission Bool := do
  if labels.length = 1 then return (← labelAt s entry).realTargets.isEmpty
  else return false

/-- The code of a block without parts. -/
def leafCode (s : Source) (kind : LeafKind) (entry : Nat) (labels : List Nat) : Emission Code := do
  let flat ← match kind with
    | .simple => pure true
    | .dispatch => isLone s entry labels
  if flat then return .statements (← labelStatements s none entry) .done
  else dispatchCode s entry labels

/-- A conditional over the code of its arms. -/
def conditional (test : Condition) (ifFalse : BlockTree) (first second : Code) : Code :=
  let test : Test := ⟨test.value.expression, test.negated⟩
  if ifFalse.isNil then .ifThen test first .done else .ifThenElse test first second .done

/-- The code of a chain of blocks. -/
def treeCode (s : Source) : BlockTree → Emission Code
  | .nil => return .done
  | .leaf kind entry labels next => do
    let first ← leafCode s kind entry labels
    return first ++ (← treeCode s next)
  | .loop entry _ inc rest next => do
    let name ← constructName s entry
    let first ← treeCode s inc
    let second ← treeCode s rest
    return .loop name (first ++ second) (← treeCode s next)
  | .cond _ _ false test check ifTrue ifFalse next => do
    let before ← treeCode s check
    let first ← treeCode s ifTrue
    let second ← treeCode s ifFalse
    return before ++ conditional test ifFalse first second ++ (← treeCode s next)
  | .cond entry _ true test check ifTrue ifFalse next => do
    let before ← treeCode s check
    let name ← constructName s entry
    let first ← treeCode s ifTrue
    let second ← treeCode s ifFalse
    return before ++ .once name (conditional test ifFalse first second) .done ++
      (← treeCode s next)

end Emission

/-- What a classified function brings to the writing of its code, its labels as
structuring left them. -/
def Function.source (f : Function) (config : Config) (types : TypeTable)
    (table : VariableTable) (labels : List Label) : Emission.Source where
  config := config
  bindings := { table, params := f.params, types, exceptionFlag := config.exceptionFlag }
  function := f.id
  labels := labels
  identifiers := Identifier.distinct (labels.map Label.name)

/-- The code of a function from its blocks, and the registry afterwards. -/
def Function.emit (f : Function) (config : Config) (types : TypeTable) (table : VariableTable)
    (labels : List Label) (tree : BlockTree) (registry : Registry) :
    Except EmissionError FunctionCode × Registry :=
  let source := f.source config types table labels
  let (body, registry) := (Emission.treeCode source tree).run.run registry
  (body.map fun body => ⟨Identifier.ofGlobal f.name, f.params.map Identifier.ofLocal, body⟩,
    registry)

end StructuredFlow
