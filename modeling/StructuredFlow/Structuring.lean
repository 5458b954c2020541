/-
# Structuring a branch graph

`Structuring.run` turns the branch graph of a function into a tree of blocks.
Labels that the entry does not reach are left out, and all their targets become
`nop`.  The rest is a region; the pattern chosen for a region makes its first
block, and the labels that are left over make the blocks behind it.

Before the parts of a block are structured in their turn, the jumps that the
block expresses are turned into markers, so that each part is a region that no
jump leaves:

| pattern | what is turned |
| --- | --- |
| `simple` | the jump of the entry to what follows, to `nop` |
| `loop` | in the body, jumps to the pivot to `breakOf`, jumps to the entry to `continueOf` |
|  | the one jump of the entry into the body that is left, to `nop` |
| `cond` | in the arms, jumps to the join to `breakOf`; the jumps of the entry, to `nop` |

Afterwards, where control falls off the end of a loop body or of an arm anyway,
the `continueOf` or `breakOf` of that construct becomes `nop`; the arms of a
crowded conditional keep theirs.

The parts and the remainder of a region are smaller than it, and the entry on its
own, which may be the whole region, is then left without jumps and ends the
search at once.  So a depth of two more than there are labels is never used up.
-/

import StructuredFlow.BlockTree.Traversal
import StructuredFlow.Structuring.Pattern

namespace StructuredFlow

/-- The outcome of structuring a function. -/
structure Structured where
  /-- The control transfers, jumps expressed by nesting turned into markers. -/
  transfers : Transfers
  /-- The blocks. -/
  tree : BlockTree
  /-- The labels that the entry does not reach, ascending. -/
  pruned : List Nat
deriving DecidableEq, Inhabited

namespace Structuring

/-- What structuring a region makes of it. -/
structure Outcome where
  /-- The blocks of the region. -/
  tree : BlockTree
  /-- The control transfers of the whole function afterwards. -/
  transfers : Transfers
  /-- What was reported. -/
  events : List Event
deriving DecidableEq, Inhabited

/-- Makes nothing. -/
def Outcome.none (ts : Transfers) : Outcome := ⟨.nil, ts, []⟩

/-- The outcome with something reported before it. -/
def Outcome.after (events : List Event) (outcome : Outcome) : Outcome :=
  { outcome with events := events ++ outcome.events }

@[simp] theorem Outcome.tree_after (events : List Event) (outcome : Outcome) :
    (outcome.after events).tree = outcome.tree := rfl

@[simp] theorem Outcome.transfers_after (events : List Event) (outcome : Outcome) :
    (outcome.after events).transfers = outcome.transfers := rfl

/-- One dispatch over a set of labels. -/
def dispatchLeaf (set : LabelSet) (entry : Nat) (next : BlockTree) : BlockTree :=
  .leaf .dispatch entry set.toList next

/-- What becomes of a target in the body of a loop. -/
def loopTarget (entry : Nat) (pivot : Option Nat) : Target → Target
  | .label id =>
    if some id = pivot then .breakOf entry
    else if id = entry then .continueOf entry
    else .label id
  | target => target

/-- What becomes of a target in the arms of a conditional. -/
def armTarget (entry : Nat) (join : Option Nat) : Target → Target
  | .label id => if some id = join then .breakOf entry else .label id
  | target => target

/-- What becomes of a target of the entry of a conditional. -/
def checkTarget (onTrue onFalse : Nat) : Target → Target
  | .label id => if id = onTrue || id = onFalse then .nop else .label id
  | target => target

/-- Structures what follows a block, if anything does. -/
def follow (build : Transfers → LabelSet → Nat → Outcome) (ts : Transfers)
    (request : Option (LabelSet × Nat)) : Outcome :=
  match request with
  | none => .none ts
  | some (set, entry) =>
    if set.contains entry then build ts set entry
    else ⟨.nil, ts, [.nextOutside set entry]⟩

/-- Lets the entry fall through to the label it leads to. -/
def fallInto (ts : Transfers) (entry : Nat) : Option Nat → Transfers
  | some next => ts.retargetAt entry (Target.replace (.label next) .nop)
  | none => ts

/-- Structures the body of a loop: a chain for the entry, then one for the rest of
the body. -/
def loopParts (build : Transfers → LabelSet → Nat → Outcome) (ts : Transfers) (body : LabelSet)
    (entry : Nat) : Outcome × Outcome :=
  let alone := LabelSet.single ts.length entry
  match ts.realTargets entry with
  | [] =>
    let inc := build ts alone entry
    (inc, .none inc.transfers)
  | [next] =>
    let inc := build (fallInto ts entry (some next)) alone entry
    let remainder := body.erase entry
    (inc, if remainder.contains next then build inc.transfers remainder next
      else .none inc.transfers)
  | successors =>
    (⟨dispatchLeaf body entry .nil, ts, [.bodyDispatched entry successors.length]⟩, .none ts)

/-- The entry as a block of its own and the blocks behind it put together. -/
def simpleOutcome (entry : Nat) (next : Option Nat) (rest : Outcome) : Outcome :=
  ⟨.leaf .simple entry [entry] rest.tree, rest.transfers, .simple entry next :: rest.events⟩

@[simp] theorem tree_simpleOutcome (entry : Nat) (next : Option Nat) (rest : Outcome) :
    (simpleOutcome entry next rest).tree = .leaf .simple entry [entry] rest.tree := rfl

/-- Makes the entry a block of its own, and structures what follows. -/
def structureSimple (build : Transfers → LabelSet → Nat → Outcome) (ts : Transfers)
    (set : LabelSet) (entry : Nat) (next : Option Nat) : Outcome :=
  let rest := follow build (fallInto ts entry next) (next.map fun next => (set.erase entry, next))
  simpleOutcome entry next rest

/-- Marks the jumps of a loop body to the pivot and to the entry. -/
def markLoop (ts : Transfers) (entry : Nat) (plan : LoopPlan) : Transfers :=
  ts.retarget plan.body.contains (loopTarget entry plan.pivot)

/-- Lets the labels at the end of a loop body fall through instead of starting the
loop again. -/
def relaxLoop (ts : Transfers) (entry : Nat) (inc body : BlockTree) : Transfers :=
  let trailing := (if body.isNil then inc else body).trailingLabels
  ts.retarget trailing.contains (Target.replace (.continueOf entry) .nop)

/-- A loop, the chains of its body and the blocks behind it put together. -/
def loopOutcome (entry : Nat) (plan : LoopPlan) (inc body rest : Outcome) : Outcome :=
  ⟨.loop entry plan.body.toList inc.tree body.tree rest.tree, rest.transfers,
    .loop entry plan.body plan.pivot :: inc.events ++ body.events ++ rest.events⟩

@[simp] theorem tree_loopOutcome (entry : Nat) (plan : LoopPlan) (inc body rest : Outcome) :
    (loopOutcome entry plan inc body rest).tree =
      .loop entry plan.body.toList inc.tree body.tree rest.tree := rfl

/-- Makes a loop of the entry, and structures what follows. -/
def structureLoop (build : Transfers → LabelSet → Nat → Outcome) (ts : Transfers) (entry : Nat)
    (plan : LoopPlan) : Outcome :=
  let (inc, body) := loopParts build (markLoop ts entry plan) plan.body entry
  let rest := follow build (relaxLoop body.transfers entry inc.tree body.tree)
    (plan.pivot.map fun pivot => (plan.after, pivot))
  loopOutcome entry plan inc body rest

/-- Marks the jumps of the arms of a conditional to the join, and lets its entry fall
through. -/
def markCond (ts : Transfers) (entry : Nat) (plan : CondPlan) : Transfers :=
  (ts.retarget plan.regions.contains (armTarget entry plan.join)).retargetAt entry
    (checkTarget plan.onTrue plan.onFalse)

/-- Lets the labels at the ends of the arms fall through instead of breaking, unless
the conditional is crowded. -/
def relaxCond (ts : Transfers) (entry : Nat) (plan : CondPlan) (first second : BlockTree) :
    Transfers :=
  let trailing := first.trailingLabels ++ second.trailingLabels
  if plan.crowded then ts
  else ts.retarget trailing.contains (Target.replace (.breakOf entry) .nop)

/-- Tests whether the arms of a conditional leave it by breaks. -/
def isBreaking (ts : Transfers) (entry : Nat) (plan : CondPlan) : Bool :=
  plan.crowded || plan.regions.toList.any fun id => (ts.targets id).contains (.breakOf entry)

/-- A conditional, the chains of its parts and the blocks behind it put together. -/
def condOutcome (entry : Nat) (plan : CondPlan) (breaking : Bool)
    (check first second rest : Outcome) : Outcome :=
  ⟨.cond entry (plan.regions.insert entry).toList breaking plan.test check.tree first.tree
      second.tree rest.tree,
    rest.transfers,
    check.events ++ first.events ++ second.events ++
      [.conditional entry breaking plan.firstArm (plan.second.map Prod.fst) plan.join] ++
      rest.events⟩

@[simp] theorem tree_condOutcome (entry : Nat) (plan : CondPlan) (breaking : Bool)
    (check first second rest : Outcome) :
    (condOutcome entry plan breaking check first second rest).tree =
      .cond entry (plan.regions.insert entry).toList breaking plan.test check.tree first.tree
        second.tree rest.tree := rfl

@[simp] theorem transfers_condOutcome (entry : Nat) (plan : CondPlan) (breaking : Bool)
    (check first second rest : Outcome) :
    (condOutcome entry plan breaking check first second rest).transfers = rest.transfers := rfl

/-- Structures the second arm of a conditional, if there is one. -/
def secondArm (build : Transfers → LabelSet → Nat → Outcome) (ts : Transfers) :
    Option (Nat × LabelSet) → Outcome
  | some (arm, region) => build ts region arm
  | none => .none ts

/-- Makes a conditional of the entry, and structures what follows. -/
def structureCond (build : Transfers → LabelSet → Nat → Outcome) (ts : Transfers) (entry : Nat)
    (plan : CondPlan) : Outcome :=
  let check := build (markCond ts entry plan) (.single ts.length entry) entry
  let first := build check.transfers plan.firstRegion plan.firstArm
  let second := secondArm build first.transfers plan.second
  let relaxed := relaxCond second.transfers entry plan first.tree second.tree
  let rest := follow build relaxed (plan.join.map fun join => (plan.rest, join))
  condOutcome entry plan (isBreaking relaxed entry plan) check first second rest

/-- Makes the first block of a region after a pattern, and structures what follows. -/
def structureBy (build : Transfers → LabelSet → Nat → Outcome) (ts : Transfers) (set : LabelSet)
    (entry : Nat) : Pattern → Outcome
  | .simple next => structureSimple build ts set entry next
  | .loop plan => structureLoop build ts entry plan
  | .cond plan => structureCond build ts entry plan
  | .dispatch => ⟨dispatchLeaf set entry .nil, ts, [.dispatch set entry]⟩

/-- Structures a region into the blocks of its entry and of all that follows. -/
def structureRegion : Nat → Transfers → LabelSet → Nat → Outcome
  | 0, ts, set, entry => ⟨dispatchLeaf set entry .nil, ts, [.dispatch set entry]⟩
  | depth + 1, ts, set, entry =>
    let (pattern, found) := choosePattern ts set entry
    (structureBy (structureRegion depth) ts set entry pattern).after (.region set entry ts :: found)

/-- The labels below `count` that are not members of a set. -/
def unreached (live : LabelSet) (count : Nat) : List Nat :=
  (List.range count).filter fun id => !live.contains id

/-- What is reported about labels left out. -/
def pruneEvents (pruned : List Nat) : List Event :=
  if pruned.isEmpty then [] else [.pruned pruned]

/-- Structures the labels that the entry reaches; `build` makes blocks of them. -/
def structureLive (build : Transfers → LabelSet → Nat → Outcome) (ts : Transfers) (entry : Nat) :
    Structured × List Event :=
  let live := ts.live entry
  let pruned := unreached live ts.length
  let ts := ts.retarget (fun id => !live.contains id) fun _ => .nop
  let outcome := if live.contains entry then build ts live entry else .none ts
  (⟨outcome.transfers, outcome.tree, pruned⟩, pruneEvents pruned ++ outcome.events)

/-- Structures a branch graph into nested blocks. -/
def run (ts : Transfers) (entry : Nat) : Structured × List Event :=
  structureLive (structureRegion (ts.length + 2)) ts entry

/-- Puts every label that the entry reaches into one dispatch. -/
def flat (ts : Transfers) (entry : Nat) : Structured × List Event :=
  structureLive (fun ts set entry => ⟨dispatchLeaf set entry .nil, ts, []⟩) ts entry

end Structuring
end StructuredFlow
