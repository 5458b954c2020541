/-
# Functions and modules

A function is a list of labels in program order, one of which is entered first;
a label is a named run of instructions.  Branch targets and the entry name
labels by their position in that list.  A label also carries an id of its own,
and each instruction the ids of its label and function; `assignOwners` makes the
latter agree and numbers the instructions through.

A module is a list of functions, numbered in order, that share one table of
struct layouts.
-/

import StructuredFlow.Instruction
import StructuredFlow.Ty.Layout

namespace StructuredFlow

/-- A named run of instructions, the last of which is to transfer control. -/
structure Label where
  /-- The id that the label itself carries. -/
  id : Nat
  /-- The name, without sigil. -/
  name : String
  /-- The instructions in program order. -/
  instructions : List Instruction
deriving DecidableEq, Repr, Inhabited

namespace Label

/-- The control transfer that ends the label, if its last instruction is one. -/
def transfer? (label : Label) : Option Transfer :=
  label.instructions.getLast?.bind Instruction.transfer?

/-- The labels its control transfer jumps to, with repetitions. -/
def realTargets (label : Label) : List Nat := (label.transfer?.map Transfer.realTargets).getD []

/-- The label with another control transfer in the place of its own; a label
without one stays as it is. -/
def withTransfer (label : Label) (t : Transfer) : Label :=
  match label.instructions.getLast? with
  | none => label
  | some last =>
    if last.isTransfer then
      { label with
        instructions := label.instructions.dropLast ++ [{ last with action := .transfer t }] }
    else label

/-- The label with its instructions given to `function` and to itself, and
numbered from `start`. -/
def placed (function start : Nat) (label : Label) : Label :=
  { label with
    instructions := label.instructions.zipIdx start |>.map fun (inst, position) =>
      { inst with position, label := label.id, function } }

end Label

/-- A function. -/
structure Function where
  /-- The id of the function in its module. -/
  id : Nat := 0
  /-- The name, without sigil. -/
  name : String
  /-- The names of the parameters, without sigil. -/
  params : List String := []
  /-- The labels in program order. -/
  labels : List Label
  /-- The position of the label that control enters first. -/
  entry : Nat := 0
deriving DecidableEq, Repr, Inhabited

namespace Function

/-- The labels placed one after the other, instructions numbered from `start`. -/
def placeLabels (function : Nat) : Nat → List Label → List Label
  | _, [] => []
  | start, label :: rest =>
    label.placed function start ::
      placeLabels function (start + label.instructions.length) rest

/-- The function under a new id, with the owners and positions of all
instructions set anew. -/
def assignOwners (f : Function) (id : Nat) : Function :=
  { f with id, labels := placeLabels id 0 f.labels }

/-- A function with labels numbered from zero, entered at the first. -/
def ofLabels (name : String) (params : List String) (labels : List (String × List Instruction)) :
    Function :=
  assignOwners
    { name, params
      labels := labels.zipIdx.map fun ((label, instructions), id) => ⟨id, label, instructions⟩ }
    0

/-- The label at a position. -/
def label? (f : Function) (id : Nat) : Option Label := f.labels[id]?

/-- The id of the first label of a name. -/
def labelId? (f : Function) (name : String) : Option Nat :=
  (f.labels.find? fun label => label.name == name).map Label.id

/-- Every instruction in program order. -/
def instructions (f : Function) : List Instruction := f.labels.flatMap Label.instructions

/-- The control transfer of each label, by position. -/
def transfers (f : Function) : List (Option Transfer) := f.labels.map Label.transfer?

end Function

/-- Functions and the struct layouts they share. -/
structure Module where
  /-- The functions in order. -/
  functions : List Function := []
  /-- The struct layouts. -/
  types : TypeTable := {}
deriving DecidableEq, Repr, Inhabited

namespace Module

/-- The module with one more function, whose id is its position. -/
def add (m : Module) (f : Function) : Module :=
  { m with functions := m.functions ++ [f.assignOwners m.functions.length] }

/-- The first function of a name. -/
def function? (m : Module) (name : String) : Option Function :=
  m.functions.find? fun f => f.name == name

end Module
end StructuredFlow
