/-
# The contract of a function

The stages after reading expect a function that meets `Function.Contract`: it
has labels and an entry among them, its labels are numbered by position, each
ends in its only control transfer, every instruction names its owners, no name
is defined twice, and every jump leads to a label.  `Function.validate` checks
the parts in that order, label by label, and reports the first that fails.
-/

import StructuredFlow.Function
import StructuredFlow.LabelSet

namespace StructuredFlow

/-- How a function violates its contract.  `function` and `label` are names. -/
inductive ContractError
  /-- There is no label. -/
  | noLabels (function : String)
  /-- The entry is no position of a label. -/
  | entryOutside (function : String) (entry count : Nat)
  /-- A label carries an id other than its position. -/
  | misnumbered (label function : String) (id position : Nat)
  /-- A label has no instruction. -/
  | emptyLabel (label function : String)
  /-- A label ends in an operation. -/
  | unterminated (label function : String)
  /-- A label transfers control before its end. -/
  | earlyTransfer (label function : String) (opcode : Opcode)
  /-- An instruction names another label or function as its owner. -/
  | strayOwner (position : Nat) (label function : String) (ownerLabel ownerFunction : Nat)
  /-- A name is defined in two instructions, whose labels are given. -/
  | redefined (name function : String) (first second : Nat)
  /-- A label jumps to a position without a label. -/
  | missingTarget (label function : String) (target : Nat)
deriving DecidableEq, Repr

/-- What a violation reports. -/
def ContractError.message : ContractError → String
  | .noLabels f => s!"Function '{f}' has no labels"
  | .entryOutside f entry count =>
    s!"Function '{f}' has entry {labelText entry} outside its {count} labels"
  | .misnumbered l f id position =>
    s!"Label '{l}' of '{f}' has id {labelText id} at position {position}"
  | .emptyLabel l f => s!"Label '{l}' of '{f}' is empty"
  | .unterminated l f => s!"Label '{l}' of '{f}' does not end in a terminator"
  | .earlyTransfer l f opcode => s!"Label '{l}' of '{f}' has a {opcode.name} before its end"
  | .strayOwner position l f ownerLabel ownerFunction =>
    s!"Instruction {position} in label '{l}' of '{f}' carries owner {labelText ownerLabel}/" ++
      s!"F{ownerFunction}"
  | .redefined name f first second =>
    s!"SSA name '{name}' of '{f}' defined in {labelText first} and again in {labelText second}"
  | .missingTarget l f target =>
    s!"Label '{l}' of '{f}' branches to missing label {labelText target}"

namespace Function

/-- Checks one instruction of a label; `seen` holds the names defined before it
and the labels that define them. -/
def checkInstruction (f : Function) (label : Label) (seen : List (String × Nat))
    (inst : Instruction) : Except ContractError (List (String × Nat)) :=
  if inst.label ≠ label.id ∨ inst.function ≠ f.id then
    .error (.strayOwner inst.position label.name f.name inst.label inst.function)
  else
    match inst.definedName? with
    | none => .ok seen
    | some name =>
      match seen.lookup name with
      | some first => .error (.redefined name f.name first label.id)
      | none => .ok ((name, label.id) :: seen)

/-- Checks that a label is numbered by its position and ends in its only control
transfer. -/
def checkShape (f : Function) (position : Nat) (label : Label) : Except ContractError Unit :=
  if label.id ≠ position then
    .error (.misnumbered label.name f.name label.id position)
  else
    match label.instructions.getLast? with
    | none => .error (.emptyLabel label.name f.name)
    | some last =>
      if !last.isTransfer then .error (.unterminated label.name f.name)
      else
        match label.instructions.dropLast.find? Instruction.isTransfer with
        | some inner => .error (.earlyTransfer label.name f.name inner.opcode)
        | none => .ok ()

/-- Checks that every jump of a label leads to a label. -/
def checkTargets (f : Function) (label : Label) : Except ContractError Unit :=
  match label.realTargets.find? fun target => decide (f.labels.length ≤ target) with
  | some target => .error (.missingTarget label.name f.name target)
  | none => .ok ()

/-- Checks one label and returns the names defined up to its end. -/
def checkLabel (f : Function) (seen : List (String × Nat)) (label : Label × Nat) :
    Except ContractError (List (String × Nat)) := do
  checkShape f label.2 label.1
  let seen ← label.1.instructions.foldlM (checkInstruction f label.1) seen
  checkTargets f label.1
  return seen

/-- Checks the contract of a function and reports its first violation. -/
def validate (f : Function) : Except ContractError Unit := do
  if f.labels.isEmpty then throw (.noLabels f.name)
  if f.labels.length ≤ f.entry then throw (.entryOutside f.name f.entry f.labels.length)
  let _ ← f.labels.zipIdx.foldlM (checkLabel f) []

/-- What the later stages expect of a function. -/
structure Contract (f : Function) : Prop where
  /-- The entry is one of the labels. -/
  entry_lt : f.entry < f.labels.length
  /-- A label's id is its position. -/
  id_eq : ∀ (i : Nat) (label : Label), f.labels[i]? = some label → label.id = i
  /-- The last instruction of a label is its only control transfer. -/
  terminated : ∀ label ∈ f.labels, ∃ body last, label.instructions = body ++ [last] ∧
    last.isTransfer = true ∧ ∀ inst ∈ body, inst.isTransfer = false
  /-- An instruction names the label and function it is in. -/
  owned : ∀ label ∈ f.labels, ∀ inst ∈ label.instructions,
    inst.label = label.id ∧ inst.function = f.id
  /-- No name is defined by two instructions. -/
  nodup_defined : (f.instructions.filterMap Instruction.definedName?).Nodup
  /-- A jump leads to a label. -/
  target_lt : ∀ label ∈ f.labels, ∀ target ∈ label.realTargets, target < f.labels.length

/-- The control transfers of a function hold no markers. -/
def NoMarkers (f : Function) : Prop :=
  ∀ label ∈ f.labels, ∀ t, label.transfer? = some t → ∀ target ∈ t.targets, ¬target.isMarker

end Function
end StructuredFlow
