/-
# Branch relations of a label

A `Flow` records how one label is connected to the others of a set: the labels
it jumps to and those that jump to it, the labels it reaches and those that
reach it, and the labels that lie on every path from it to an end of control.
-/

import StructuredFlow.LabelSet

namespace StructuredFlow

/-- A list of label ids in messages: `[L1, L2]`. -/
def labelsText (ids : List Nat) : String :=
  "[" ++ String.intercalate ", " (ids.map labelText) ++ "]"

/-- The branch relations of one label. -/
structure Flow where
  /-- The successors, in the order of the control transfer, each once. -/
  outLabels : List Nat
  /-- The predecessors, ascending. -/
  inLabels : List Nat
  /-- The labels reached by one jump or more. -/
  allOut : LabelSet
  /-- The labels that reach this one by one jump or more. -/
  allIn : LabelSet
  /-- The other labels on every path from this one to an end. -/
  mustGetTo : LabelSet
  /-- The label ends in a return. -/
  hasReturn : Bool
  /-- The control transfer holds a marker. -/
  hasMarker : Bool
deriving DecidableEq

namespace Flow

/-- The record without relations, over `capacity` labels. -/
def fresh (capacity : Nat) : Flow where
  outLabels := []
  inLabels := []
  allOut := .empty capacity
  allIn := .empty capacity
  mustGetTo := .empty capacity
  hasReturn := false
  hasMarker := false

/-- The record with every relation removed and the capacities kept. -/
def reset (flow : Flow) : Flow where
  outLabels := []
  inLabels := []
  allOut := flow.allOut.clear
  allIn := flow.allIn.clear
  mustGetTo := flow.mustGetTo.clear
  hasReturn := false
  hasMarker := false

/-- Tests whether paths end here: the label returns, or leaves through markers
alone. -/
def isPathEnd (flow : Flow) : Bool :=
  flow.hasReturn || (flow.hasMarker && flow.outLabels.isEmpty)

/-- The relations of a label in one line. -/
def text (id : Nat) (flow : Flow) : String :=
  s!"{labelText id}: out={labelsText flow.outLabels} in={labelsText flow.inLabels} " ++
    s!"all_out={flow.allOut.text} all_in={flow.allIn.text} must_get_to={flow.mustGetTo.text}"

end Flow
end StructuredFlow
