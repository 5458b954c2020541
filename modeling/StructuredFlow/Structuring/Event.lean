/-
# What structuring reports

Structuring leaves a list of events behind: every region it takes up, with its
entry and the control transfers at that moment, and every decision about it.
Each event is reported at a level, in one line or, for a region, in one line for
each of its labels.
-/

import StructuredFlow.Flow.Analysis

namespace StructuredFlow

/-- How much detail a message gives. -/
inductive Level
  | warn
  | debug
  | trace
deriving DecidableEq, Repr, Inhabited

/-- The name of a level. -/
def Level.name : Level → String
  | .warn => "warn"
  | .debug => "debug"
  | .trace => "trace"

/-- The place of a level, more detail coming later. -/
def Level.rank : Level → Nat
  | .warn => 0
  | .debug => 1
  | .trace => 2

/-- A line reported at a level. -/
structure Message where
  /-- The level. -/
  level : Level
  /-- The line. -/
  text : String
deriving DecidableEq, Repr, Inhabited

namespace Structuring

/-- A step of structuring. -/
inductive Event
  /-- The labels that the entry does not reach are left out. -/
  | pruned (ids : List Nat)
  /-- A region is taken up while the control transfers stand as given. -/
  | region (set : LabelSet) (entry : Nat) (transfers : Transfers)
  /-- A chain is to go on at an entry outside what is left. -/
  | nextOutside (set : LabelSet) (entry : Nat)
  /-- The entry becomes a block of its own. -/
  | simple (entry : Nat) (next : Option Nat)
  /-- A candidate for the label after a loop leads back into the loop. -/
  | pivotReaches (pivot : Nat) (extension : LabelSet)
  /-- No label can follow the loop. -/
  | loopRejected (entry : Nat)
  /-- The entry heads a loop. -/
  | loop (entry : Nat) (body : LabelSet) (pivot : Option Nat)
  /-- The entry of a loop leads to several labels of the body. -/
  | bodyDispatched (entry ways : Nat)
  /-- The arms of a conditional meet, or lead to what follows it. -/
  | armsOverlap (entry : Nat)
  /-- Labels are left over and no label follows the conditional. -/
  | noJoin (entry : Nat) (rest : LabelSet)
  /-- The entry heads a conditional. -/
  | conditional (entry : Nat) (breaking : Bool) (first : Nat) (second join : Option Nat)
  /-- No pattern fits the region. -/
  | dispatch (set : LabelSet) (entry : Nat)
deriving DecidableEq

/-- The relations of each label of a region, one line for each. -/
def regionLines (set : LabelSet) (ts : Transfers) : List String :=
  let flows := Flow.analyze ts set
  (Flow.members set ts.length).map fun id => (flows.getD id (.fresh 0)).text id

/-- A label that may be missing, in messages: `L4` or `none`. -/
def labelOrNone : Option Nat → String
  | some id => labelText id
  | none => "none"

/-- A label that may be missing, in messages: `Some(L4)` or `None`. -/
def optionalLabel : Option Nat → String
  | some id => s!"Some({labelText id})"
  | none => "None"

/-- What an event reports. -/
def Event.messages : Event → List Message
  | .pruned ids => [⟨.debug, s!"pruned {ids.length} unreachable labels: {labelsText ids}"⟩]
  | .region set _ ts => (regionLines set ts).map (Message.mk .trace)
  | .nextOutside set entry =>
    [⟨.debug, s!"next entry {labelText entry} outside its label set {set.text}"⟩]
  | .simple entry none => [⟨.debug, s!"simple block at {labelText entry}"⟩]
  | .simple entry (some next) =>
    [⟨.debug, s!"simple block at {labelText entry}, next {labelText next}"⟩]
  | .pivotReaches pivot extension =>
    [⟨.trace, s!"pivot {labelText pivot} reaches {extension.text}"⟩]
  | .loopRejected entry =>
    [⟨.warn,
      s!"loop at {labelText entry} rejected: no exit separates it from its successors"⟩]
  | .loop entry body pivot =>
    [⟨.debug, s!"loop at {labelText entry}: body {body.text}, pivot {labelOrNone pivot}"⟩]
  | .bodyDispatched entry ways =>
    [⟨.debug,
      s!"loop at {labelText entry} branches into its body {ways} ways; body emulated"⟩]
  | .armsOverlap entry =>
    [⟨.warn, s!"conditional at {labelText entry} rejected: its arms overlap"⟩]
  | .noJoin entry rest =>
    [⟨.warn, s!"conditional at {labelText entry} rejected: {rest.text} follow neither arm"⟩]
  | .conditional entry breaking first second join =>
    let kind := if breaking then "breaking if" else "if"
    [⟨.debug, s!"{kind} at {labelText entry}: " ++
      s!"arms {labelText first}/{optionalLabel second}, join {labelOrNone join}"⟩]
  | .dispatch set entry => [⟨.debug, s!"emulated block at {labelText entry} over {set.text}"⟩]

/-- The region, entry and control transfers of the event, if a region is taken
up. -/
def Event.region? : Event → Option (LabelSet × Nat × Transfers)
  | .region set entry ts => some (set, entry, ts)
  | _ => none

end Structuring
end StructuredFlow
