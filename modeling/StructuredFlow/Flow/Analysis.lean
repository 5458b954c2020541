/-
# Branch analysis of a set of labels

`Flow.analyze` derives the relations of the labels of a set from their control
transfers.  Only jumps between members count as edges, so the same function can
be looked at region by region.

| relation | equation |
| --- | --- |
| all successors | `closure n = direct n ∪ ⋃ closure s` over the successors `s` of `n` |
| all predecessors | the same over the predecessors |
| post-dominators | `{t}` for a label `t` that ends paths |
|  | `{n} ∪ ⋂ postDominators s` over the successors `s` of `n` that can end |

A label can end if it ends paths or reaches a label that does.  The labels that
every path from `n` to an end passes are the post-dominators of `n` without `n`;
a label that cannot end has none.  Both tables are fixed points found by a
worklist, the closures from below and the post-dominators from above.  All three
worklists begin with the last label, since jumps mostly lead to later labels; the
order in which they are drained does not matter to the result.
-/

import StructuredFlow.Flow
import StructuredFlow.Flow.Worklist
import StructuredFlow.Transfers

namespace StructuredFlow
namespace Flow

/-- The members of a set that are positions below `count`. -/
def members (set : LabelSet) (count : Nat) : List Nat :=
  set.toList.filter fun id => decide (id < count)

/-- The members of a set that a control transfer jumps to, each once, in the
order of its targets. -/
def successors (set : LabelSet) (t : Option Transfer) : List Nat :=
  (((t.map Transfer.realTargets).getD []).filter set.contains).eraseDups

/-- Tests for a return. -/
def returns (t : Option Transfer) : Bool := (t.map Transfer.isReturn).getD false

/-- Tests for a marker among the targets. -/
def marks (t : Option Transfer) : Bool := ((t.map Transfer.targets).getD []).any Target.isMarker

/-- Tests whether a label with this control transfer ends paths in a set. -/
def endsPaths (set : LabelSet) (t : Option Transfer) : Bool :=
  returns t || (marks t && (successors set t).isEmpty)

/-- The edges between members of a set; a label outside has none. -/
def outEdges (ts : Transfers) (set : LabelSet) : Edges :=
  ts.zipIdx.map fun (t, id) => if set.contains id then successors set t else []

/-- The same edges seen from their ends, sources ascending. -/
def reverseEdges (edges : Edges) : Edges :=
  (List.range edges.length).map fun id =>
    edges.zipIdx.filterMap fun (targets, source) =>
      if targets.contains id then some source else none

/-- The neighbours of a label and what the table knows of theirs. -/
def closureStep (direct : Edges) (table : SetTable) (id : Nat) : LabelSet :=
  (direct.at id).foldl (fun acc next => if next = id then acc else acc.union (table.at next))
    (table.at id)

/-- Each label's own neighbours, with the members queued in the order given. -/
def closureStart (queue : List Nat) (direct : Edges) : Worklist where
  table := direct.map (LabelSet.ofIds direct.length)
  queue := queue

/-- The labels that each label reaches by one edge or more; `queue` lists the
members in the order in which they are looked at first. -/
def closure (queue : List Nat) (direct reverse : Edges) : SetTable :=
  ((closureStart queue direct).drain (closureStep direct) reverse.at
    (Worklist.stepBound direct.length)).table

/-- The members that end paths or reach one that does. -/
def exits (members : List Nat) (capacity : Nat) (ends : LabelSet) (allOut : SetTable) : LabelSet :=
  .ofIds capacity <|
    members.filter fun id => ends.contains id || !(allOut.at id).disjoint ends

/-- What the successors that can end have in common, and the label itself. -/
def postDominatorStep (out : Edges) (exits : LabelSet) (table : SetTable) (id : Nat) : LabelSet :=
  let common :=
    match (out.at id).filter exits.contains with
    | [] => LabelSet.empty out.length
    | next :: rest => rest.foldl (fun acc s => acc.inter (table.at s)) (table.at next)
  common.insert id

/-- The predecessors of a label that can end and do not end paths. -/
def postDominatorDependents (into : Edges) (exits ends : LabelSet) (id : Nat) : List Nat :=
  (into.at id).filter fun source => exits.contains source && !ends.contains source

/-- Every label that can end starts from all of them, except that one that ends
paths has itself alone; the others are queued, the last first. -/
def postDominatorStart (out : Edges) (exits ends : LabelSet) : Worklist where
  table := (List.range out.length).map fun id =>
    if !exits.contains id then .empty out.length
    else if ends.contains id then (LabelSet.empty out.length).insert id
    else exits
  queue := (exits.toList.filter fun id => !ends.contains id).reverse

/-- The labels on every path from each label to an end, the label included. -/
def postDominators (out into : Edges) (exits ends : LabelSet) : SetTable :=
  ((postDominatorStart out exits ends).drain (postDominatorStep out exits)
    (postDominatorDependents into exits ends) (Worklist.stepBound out.length)).table

/-- The other labels on every path from each label to an end. -/
def mustGetToTable (out into : Edges) (exits ends : LabelSet) : SetTable :=
  (postDominators out into exits ends).zipIdx.map fun (set, id) =>
    if exits.contains id then set.erase id else set

/-- The relations of every member of a set; a label outside has the fresh
record. -/
def analyze (ts : Transfers) (set : LabelSet) : List Flow :=
  let count := ts.length
  let members := members set count
  let out := outEdges ts set
  let into := reverseEdges out
  let allOut := closure members.reverse out into
  let allIn := closure members.reverse into out
  let ends := LabelSet.ofIds count <|
    members.filter fun id => endsPaths set (ts.at? id)
  let must := mustGetToTable out into (exits members count ends allOut) ends
  ts.zipIdx.map fun (t, id) =>
    if set.contains id then
      { outLabels := out.at id
        inLabels := into.at id
        allOut := allOut.at id
        allIn := allIn.at id
        mustGetTo := must.at id
        hasReturn := returns t
        hasMarker := marks t }
    else fresh count

/-- A jump between members of a set that leads to no label; no relation can be
recorded for its end. -/
structure DanglingTarget where
  /-- The number of labels. -/
  count : Nat
  /-- The member that is no position of a label. -/
  target : Nat
deriving DecidableEq, Repr

/-- The end of the first jump, in label order, between members of a set that
leads to no label. -/
def danglingTarget? (ts : Transfers) (set : LabelSet) : Option Nat :=
  (outEdges ts set).flatten.find? fun id => decide (ts.length ≤ id)

/-- The records of all labels after the members of a set are analyzed anew;
labels outside keep theirs. -/
def refresh (ts : Transfers) (set : LabelSet) (flows : List Flow) :
    Except DanglingTarget (List Flow) :=
  match danglingTarget? ts set with
  | some target => .error ⟨ts.length, target⟩
  | none =>
    let table := analyze ts set
    .ok (flows.zipIdx.map fun (old, id) => if set.contains id then table.getD id old else old)

end Flow
end StructuredFlow
