/-
# Running a tree of blocks

A run visits labels as the code of a tree does.  Each visited label takes the
target that the next choice picks, and the target says how control leaves it:

| target | exit | caught by |
| --- | --- | --- |
| `nop` | `falls` | what follows |
| `breakOf e` | `breaks e` | the loop entered at `e`, or the breaking conditional whose arm it leaves |
| `continueOf e` | `continues e` | the loop entered at `e` |
| `label t` | `jumps t` | a dispatch that holds `t` |
| none | `returns` | nothing |

A conditional goes by the target that its check picked last, the first one being
the one for true; it catches breaks out of its arms, not out of its check.  A run also
ends when it has visited `limit` labels.

Every block that is entered takes a unit of fuel.  In a tree whose loops visit a
label each time around no more than `size` blocks are entered between two visits,
so `run` has fuel enough.
-/

import StructuredFlow.BlockTree
import StructuredFlow.Walk

namespace StructuredFlow

/-- How control leaves a label or a chain of blocks. -/
inductive Exit
  /-- It goes on with what follows. -/
  | falls
  /-- It leaves the construct entered at a label. -/
  | breaks (entry : Nat)
  /-- It starts the loop entered at a label again. -/
  | continues (entry : Nat)
  /-- It jumps to a label. -/
  | jumps (target : Nat)
  /-- It leaves the function. -/
  | returns
  /-- The run ends here. -/
  | stops
deriving DecidableEq, Repr, Inhabited

/-- The exit through a target. -/
def Target.exit : Target → Exit
  | .label id => .jumps id
  | .breakOf entry => .breaks entry
  | .continueOf entry => .continues entry
  | .nop => .falls

/-- What a run has done so far. -/
structure RunState where
  /-- The labels visited, in order. -/
  visited : List Nat := []
  /-- The number of the target picked last. -/
  slot : Nat := 0
deriving DecidableEq, Repr, Inhabited

/-- The control transfers, choices and limit of a run. -/
structure RunInput where
  /-- The control transfers. -/
  transfers : Transfers
  /-- The choice at each visited label, by its place among those visited. -/
  choices : Nat → Nat
  /-- The greatest number of labels to visit. -/
  limit : Nat

/-- Visits a label. -/
def RunInput.visit (run : RunInput) (id : Nat) (s : RunState) : Exit × RunState :=
  let position := s.visited.length
  if position = run.limit then (.stops, s)
  else
    let visited := s.visited ++ [id]
    match run.transfers.pick? (run.choices position) id with
    | none => (.returns, { s with visited })
    | some target =>
      (target.exit, ⟨visited, run.choices position % (run.transfers.targets id).length⟩)

/-- Goes on if control falls through. -/
def andThen (r : Exit × RunState) (next : RunState → Exit × RunState) : Exit × RunState :=
  if r.1 = .falls then next r.2 else r

/-- Lets an exit fall through. -/
def catchExit (exit : Exit) (r : Exit × RunState) : Exit × RunState :=
  if r.1 = exit then (.falls, r.2) else r

namespace BlockTree

/-- Runs a dispatch over labels from one of them on. -/
def runDispatch (run : RunInput) (labels : List Nat) : Nat → Nat → RunState → Exit × RunState
  | 0, _, s => (.stops, s)
  | fuel + 1, id, s =>
    match run.visit id s with
    | (.jumps target, s) =>
      if labels.contains target then runDispatch run labels fuel target s else (.jumps target, s)
    | r => r

/-- Runs a chain of blocks. -/
def runWithin (run : RunInput) : Nat → BlockTree → RunState → Exit × RunState
  | 0, _, s => (.stops, s)
  | _ + 1, .nil, s => (.falls, s)
  | fuel + 1, .leaf .simple entry _ next, s =>
    andThen (run.visit entry s) (runWithin run fuel next)
  | fuel + 1, .leaf .dispatch entry labels next, s =>
    andThen (runDispatch run labels fuel entry s) (runWithin run fuel next)
  | fuel + 1, .loop entry labels inc rest next, s =>
    let body := andThen (runWithin run fuel inc s) (runWithin run fuel rest)
    match catchExit (.continues entry) body with
    | (.falls, s) => runWithin run fuel (.loop entry labels inc rest next) s
    | (.breaks e, s) => if e = entry then runWithin run fuel next s else (.breaks e, s)
    | r => r
  | fuel + 1, .cond entry _ breaking test check ifTrue ifFalse next, s =>
    let checked := andThen (runWithin run fuel check s) fun s =>
      let arm := runWithin run fuel (if s.slot = test.negated.toNat then ifTrue else ifFalse) s
      if breaking then catchExit (.breaks entry) arm else arm
    andThen checked (runWithin run fuel next)

/-- Runs a tree over control transfers: the exit and the labels visited. -/
def run (t : BlockTree) (ts : Transfers) (choices : Nat → Nat) (limit : Nat) : Exit × List Nat :=
  let fuel := (limit + 1) * (t.size + 1)
  let (exit, s) := runWithin ⟨ts, choices, limit⟩ fuel t {}
  (exit, s.visited)

end BlockTree
end StructuredFlow
