/-
# The branch graph of a function

A `Transfers` table holds the control transfer of each label by position, `none`
for a label that has none.  Its real targets are the edges of the branch graph.
Structuring changes a function only by exchanging targets in this table, one
function applied to the targets of all labels that a test selects.

`reach` collects what can be reached from a stack of ids; each round either
drops an id or adds one to the set, so the room left in the set and the length
of the stack bound the search.
-/

import StructuredFlow.Function
import StructuredFlow.LabelSet

namespace StructuredFlow

/-- The control transfer of each label, by position. -/
abbrev Transfers := List (Option Transfer)

namespace Transfers

/-- The control transfer of a label. -/
def at? (ts : Transfers) (id : Nat) : Option Transfer := ts.getD id none

/-- The targets of a label. -/
def targets (ts : Transfers) (id : Nat) : List Target :=
  ((ts.at? id).map Transfer.targets).getD []

/-- The labels that a label jumps to, each once, in the order of the targets. -/
def realTargets (ts : Transfers) (id : Nat) : List Nat :=
  ((ts.targets id).filterMap Target.label?).eraseDups

/-- Applies `f` to the targets of the labels that `p` selects. -/
def retarget (p : Nat → Bool) (f : Target → Target) (ts : Transfers) : Transfers :=
  ts.mapIdx fun id t => if p id then t.map (Transfer.mapTargets f) else t

/-- Applies `f` to the targets of one label. -/
def retargetAt (id : Nat) (f : Target → Target) (ts : Transfers) : Transfers :=
  ts.retarget (fun i => i == id) f

@[simp] theorem length_retarget (p : Nat → Bool) (f : Target → Target) (ts : Transfers) :
    (ts.retarget p f).length = ts.length := by
  simp [retarget]

/-- The entry of a label after the labels with `p` were retargeted. -/
theorem getElem?_retarget (p : Nat → Bool) (f : Target → Target) (ts : Transfers) (id : Nat) :
    (ts.retarget p f)[id]? =
      ts[id]?.map fun t => if p id then t.map (Transfer.mapTargets f) else t := by
  simp [retarget]

end Transfers

/-- Adds to `seen` the ids of the stack and what `next` leads to from them. -/
def reach (next : Nat → List Nat) (stack : List Nat) (seen : LabelSet) : LabelSet :=
  match stack with
  | [] => seen
  | id :: rest =>
    if _h : id < seen.capacity ∧ id ∉ seen then reach next (next id ++ rest) (seen.insert id)
    else reach next rest seen
termination_by (seen.room, stack.length)
decreasing_by
  · exact Prod.Lex.left _ _ (LabelSet.room_insert_lt _h.1 _h.2)
  · exact Prod.Lex.right _ (by simp)

/-- The labels that can be reached from the entry along jumps. -/
def Transfers.live (ts : Transfers) (entry : Nat) : LabelSet :=
  reach ts.realTargets [entry] (.empty ts.length)

/-- The labels of the function with the control transfers of the table. -/
def Function.withTransfers (f : Function) (ts : Transfers) : List Label :=
  f.labels.mapIdx fun id label =>
    match ts.at? id with
    | some t => label.withTransfer t
    | none => label

end StructuredFlow
