/-
# Worklists over tables of label sets

A table gives each label a set, and each set is to equal what `recompute` makes
of the table.  The ids whose set may be out of date wait in a queue.  Processing
an id takes it out of the queue and recomputes its set; if that changes the
table, the ids that depend on it join the queue, those already in it apart.  At
an empty queue every equation holds.

`process` takes the id as a parameter, so it describes a step of any order;
`drain` always takes the first.
-/

import StructuredFlow.LabelSet

namespace StructuredFlow

/-- Lists of neighbours, by label position. -/
abbrev Edges := List (List Nat)

/-- The neighbours of a label; a position without an entry has none. -/
def Edges.at (edges : Edges) (id : Nat) : List Nat := edges.getD id []

/-- A set for each label, by position. -/
abbrev SetTable := List LabelSet

/-- The set of a label; a position without an entry has the empty one. -/
def SetTable.at (table : SetTable) (id : Nat) : LabelSet := table.getD id (LabelSet.empty 0)

/-- A table under repair. -/
structure Worklist where
  /-- The sets as far as they are known. -/
  table : SetTable
  /-- The ids to look at again. -/
  queue : List Nat
deriving DecidableEq

namespace Worklist

/-- Appends the ids that are not in the queue. -/
def enqueue (queue ids : List Nat) : List Nat :=
  ids.foldl (fun q id => if q.contains id then q else q ++ [id]) queue

/-- Recomputes the set of one id and queues its dependents if it changed. -/
def process (recompute : SetTable → Nat → LabelSet) (dependents : Nat → List Nat) (w : Worklist)
    (id : Nat) : Worklist :=
  let queue := w.queue.erase id
  let value := recompute w.table id
  if value = w.table.at id then { w with queue }
  else { table := w.table.set id value, queue := enqueue queue (dependents id) }

/-- Processes the queue from its front, at most `fuel` times. -/
def drain (recompute : SetTable → Nat → LabelSet) (dependents : Nat → List Nat) :
    Nat → Worklist → Worklist
  | 0, w => w
  | fuel + 1, w =>
    match w.queue with
    | [] => w
    | id :: _ => drain recompute dependents fuel (w.process recompute dependents id)

/-- A bound on the steps to an empty queue over `n` labels: each of `n` sets of at
most `n` members changes at most `n` times in one direction, and a change queues
at most `n` ids. -/
def stepBound (n : Nat) : Nat := (n + 1) * (n + 1) * (n + 1)

end Worklist
end StructuredFlow
