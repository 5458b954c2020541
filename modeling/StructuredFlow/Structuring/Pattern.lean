/-
# The patterns of structuring

`choosePattern` looks at a region, a set of labels with an entry, and says how
its first block is made.  The patterns are tried in this order:

| pattern | when it fits |
| --- | --- |
| `simple` | nothing leads to the entry and it leads to at most one label |
| `loop` | the entry reaches itself, and some label can follow the loop |
| `cond` | the entry chooses between two labels and its arms stay apart |
| `dispatch` | always |

A loop consists of the labels that reach the entry (its core) and of those
outside that a jump out of the core leads to before it comes to the pivot, the
label that is to follow the loop.  A candidate can be the pivot if it does not
lead back to any of the latter.  The labels that every label of the core must get
to come first among the candidates, then the other labels that jumps out of the
core lead to; within each group the one that must get to most labels comes first,
and of those alike the one with the least id.

The arms of a conditional are what its two targets reach without passing the
join, the label that follows it.  If one target must get to the other, the latter
is the join and there is a single arm; else it is the label both must get to that
must get to most labels itself, if there is one.
-/

import StructuredFlow.BlockTree
import StructuredFlow.Structuring.Event

namespace StructuredFlow
namespace Structuring

/-- The relations of a label; a position without a record has none. -/
def flowAt (flows : List Flow) (id : Nat) : Flow := flows.getD id (.fresh 0)

/-- How a loop is to be made. -/
structure LoopPlan where
  /-- The labels of the loop. -/
  body : LabelSet
  /-- The label that follows it, if control can leave it for another. -/
  pivot : Option Nat
  /-- The labels left for what follows. -/
  after : LabelSet
deriving DecidableEq

/-- How a conditional is to be made. -/
structure CondPlan where
  /-- What is tested, and whether the first arm runs when it is false. -/
  test : Condition
  /-- The target when the value is true. -/
  onTrue : Nat
  /-- The target when the value is false. -/
  onFalse : Nat
  /-- The entry of the first arm. -/
  firstArm : Nat
  /-- The labels of the first arm. -/
  firstRegion : LabelSet
  /-- The entry and the labels of the second arm. -/
  second : Option (Nat × LabelSet)
  /-- The label that follows. -/
  join : Option Nat
  /-- The labels of both arms. -/
  regions : LabelSet
  /-- The labels left for what follows. -/
  rest : LabelSet
  /-- Ends of arms keep their breaks. -/
  crowded : Bool
deriving DecidableEq

/-- How the first block of a region is to be made. -/
inductive Pattern
  /-- The entry alone, and what it leads to. -/
  | simple (next : Option Nat)
  /-- A loop. -/
  | loop (plan : LoopPlan)
  /-- A conditional. -/
  | cond (plan : CondPlan)
  /-- A dispatch over the whole region. -/
  | dispatch
deriving DecidableEq

/-- The labels of `within` that lie ahead of `starts` when `avoid` is not to be
passed. -/
def reachAvoiding (flows : List Flow) (capacity : Nat) (starts : List Nat) (within : LabelSet)
    (avoid : Nat) : LabelSet :=
  let allowed := fun id => id != avoid && within.contains id
  reach (fun id => (flowAt flows id).outLabels.filter allowed) (starts.filter allowed)
    (.empty capacity)

/-- The label that the entry leads to when the entry is a block of its own; the
outer `none` says that it is not. -/
def simpleNext? (flows : List Flow) (set : LabelSet) (entry : Nat) : Option (Option Nat) :=
  let flow := flowAt flows entry
  if !flow.inLabels.isEmpty then none
  else
    match flow.outLabels with
    | [] => if (set.erase entry).isEmpty then some none else none
    | [next] => some (some next)
    | _ => none

/-- The number of labels that a label must get to. -/
def mustCount (flows : List Flow) (id : Nat) : Nat := (flowAt flows id).mustGetTo.size

/-- The order of candidates: first the one that must get to more labels, then the
one with the lesser id. -/
def comesBefore (flows : List Flow) (a b : Nat) : Bool :=
  decide (mustCount flows b < mustCount flows a) ||
    (mustCount flows a == mustCount flows b && decide (a ≤ b))

/-- The labels of a region that reach its entry, the entry included. -/
def loopCore (flows : List Flow) (set : LabelSet) (entry : Nat) : LabelSet :=
  .ofIds set.capacity <|
    set.toList.filter fun id => id == entry || (flowAt flows id).allOut.contains entry

/-- The labels outside the core that jumps out of it lead to. -/
def loopExits (flows : List Flow) (core outsiders : LabelSet) : LabelSet :=
  .ofIds core.capacity <|
    core.toList.flatMap fun id => (flowAt flows id).outLabels.filter outsiders.contains

/-- The labels that may follow a loop, in the order in which they are tried. -/
def pivotCandidates (flows : List Flow) (core outsiders exits : LabelSet) : List Nat :=
  let forced := outsiders.toList.filter fun outsider =>
    core.toList.all fun id => (flowAt flows id).mustGetTo.contains outsider
  let others := exits.toList.filter fun exit => !forced.contains exit
  forced.mergeSort (comesBefore flows) ++ others.mergeSort (comesBefore flows)

/-- The first candidate that does not lead back to the labels that the loop takes
in on its account, with those labels, and the candidates that do. -/
def choosePivot (flows : List Flow) (outsiders exits : LabelSet) :
    List Nat → Option (Nat × LabelSet) × List Event
  | [] => (none, [])
  | pivot :: others =>
    let extension := reachAvoiding flows outsiders.capacity exits.toList outsiders pivot
    if (flowAt flows pivot).allOut.disjoint extension then (some (pivot, extension), [])
    else
      let (found, events) := choosePivot flows outsiders exits others
      (found, .pivotReaches pivot extension :: events)

/-- The loop that the entry heads, if it does. -/
def loopPlan? (flows : List Flow) (set : LabelSet) (entry : Nat) :
    Option LoopPlan × List Event :=
  if !(flowAt flows entry).allIn.contains entry then (none, [])
  else
    let core := loopCore flows set entry
    let outsiders := set.diff core
    let exits := loopExits flows core outsiders
    if exits.isEmpty then (some ⟨core, none, outsiders⟩, [])
    else
      match choosePivot flows outsiders exits (pivotCandidates flows core outsiders exits) with
      | (none, events) => (none, events ++ [.loopRejected entry])
      | (some (pivot, extension), events) =>
        (some ⟨core.union extension, some pivot, outsiders.diff extension⟩, events)

/-- The two targets of a choice by a truth value between labels. -/
def choice? : Option Transfer → Option (Operand × Nat × Nat)
  | some (.condBranch condition (.label onTrue) (.label onFalse)) =>
    some (condition, onTrue, onFalse)
  | _ => none

/-- The label that comes first in the order of candidates. -/
def firstCandidate? (flows : List Flow) : List Nat → Option Nat
  | [] => none
  | id :: ids => some (ids.foldl (fun best a => if comesBefore flows best a then best else a) id)

/-- The entries of the arms, the join, and whether the first arm runs when the
tested value is false. -/
def chooseArms (flows : List Flow) (onTrue onFalse : Nat) :
    Nat × Option Nat × Option Nat × Bool :=
  let mustTrue := (flowAt flows onTrue).mustGetTo
  let mustFalse := (flowAt flows onFalse).mustGetTo
  if mustFalse.contains onTrue then (onFalse, none, some onTrue, true)
  else if mustTrue.contains onFalse then (onTrue, none, some onFalse, false)
  else (onTrue, some onFalse, firstCandidate? flows (mustTrue.inter mustFalse).toList, false)

/-- Tests whether a conditional has a single arm and more than two other labels
lead to its join. -/
def isCrowded (flows : List Flow) (second join : Option Nat) : Bool :=
  match second, join with
  | none, some join =>
    decide (2 < ((flowAt flows join).allIn.toList.filter fun id => id != join).length)
  | _, _ => false

/-- The join of a conditional, if it has one, and what that leads to. -/
def beyondJoin (flows : List Flow) (capacity : Nat) : Option Nat → LabelSet
  | some join => ((LabelSet.empty capacity).union (flowAt flows join).allOut).insert join
  | none => .empty capacity

/-- The conditional that the entry heads, if it does. -/
def condPlan? (flows : List Flow) (ts : Transfers) (set : LabelSet) (entry : Nat) :
    Option CondPlan × List Event :=
  let flow := flowAt flows entry
  if flow.outLabels.length ≠ 2 || flow.allIn.contains entry then (none, [])
  else
    match choice? (ts.at? entry) with
    | none => (none, [])
    | some (condition, onTrue, onFalse) =>
      let (firstArm, secondArm, join, negated) := chooseArms flows onTrue onFalse
      let region := fun arm =>
        reachAvoiding flows ts.length [arm] set (join.getD entry)
      let firstRegion := region firstArm
      let second := secondArm.map fun arm => (arm, region arm)
      let after := beyondJoin flows ts.length join
      let secondRegion := (second.map Prod.snd).getD (.empty ts.length)
      let regions := firstRegion.union secondRegion
      let rest := (set.erase entry).diff regions
      if !secondRegion.disjoint firstRegion || regions.contains entry || !regions.disjoint after then
        (none, [.armsOverlap entry])
      else if join.isNone && !rest.isEmpty then (none, [.noJoin entry rest])
      else
        let plan := {
          test := ⟨condition, negated⟩
          onTrue, onFalse, firstArm, firstRegion, second, join, regions, rest
          crowded := isCrowded flows secondArm join }
        (some plan, [])

/-- The pattern of the first block of a region, and what is reported on the way
to it. -/
def choosePattern (ts : Transfers) (set : LabelSet) (entry : Nat) : Pattern × List Event :=
  let flows := Flow.analyze ts set
  match simpleNext? flows set entry with
  | some next => (.simple next, [])
  | none =>
    match loopPlan? flows set entry with
    | (some plan, events) => (.loop plan, events)
    | (none, events) =>
      match condPlan? flows ts set entry with
      | (some plan, more) => (.cond plan, events ++ more)
      | (none, more) => (.dispatch, events ++ more)

end Structuring
end StructuredFlow
