/-
# Trees of blocks

A function is structured into a chain of blocks that run one after the other.

| block | contents |
| --- | --- |
| `leaf .simple` | one label, which falls through or leaves |
| `leaf .dispatch` | labels that jump among each other, run by a dispatch |
| `loop` | a chain `inc` for the entry and a chain `rest` for the other labels |
| `cond` | a chain `check` for the entry and a chain for each arm |

`BlockTree` is such a chain: `nil` is the end of one, and every other constructor
holds a block and the chain behind it.  Each block names its entry and the
labels it holds, those of its parts included.
-/

import StructuredFlow.Instruction.Operand

namespace StructuredFlow

/-- The two kinds of block without parts. -/
inductive LeafKind
  /-- One label. -/
  | simple
  /-- Labels among which a dispatch jumps. -/
  | dispatch
deriving DecidableEq, Repr, Inhabited

/-- What a conditional tests. -/
structure Condition where
  /-- The tested value. -/
  value : Operand
  /-- The first arm runs when the value is false. -/
  negated : Bool
deriving DecidableEq, Repr, Inhabited

/-- A chain of blocks. -/
inductive BlockTree
  /-- The empty chain. -/
  | nil
  /-- A block of labels. -/
  | leaf (kind : LeafKind) (entry : Nat) (labels : List Nat) (next : BlockTree)
  /-- A loop without a condition of its own, left by `breakOf entry`. -/
  | loop (entry : Nat) (labels : List Nat) (inc rest next : BlockTree)
  /-- A conditional; the arms of a breaking one may leave by `breakOf entry`. -/
  | cond (entry : Nat) (labels : List Nat) (breaking : Bool) (test : Condition)
      (check ifTrue ifFalse next : BlockTree)
deriving DecidableEq, Repr, Inhabited

namespace BlockTree

/-- Tests for the empty chain. -/
def isNil : BlockTree → Bool
  | .nil => true
  | _ => false

/-- The chain behind the first block. -/
def next : BlockTree → BlockTree
  | .nil => .nil
  | .leaf _ _ _ next => next
  | .loop _ _ _ _ next => next
  | .cond _ _ _ _ _ _ _ next => next

/-- The entry of the first block. -/
def entry? : BlockTree → Option Nat
  | .nil => none
  | .leaf _ entry _ _ => some entry
  | .loop entry _ _ _ _ => some entry
  | .cond entry _ _ _ _ _ _ _ => some entry

/-- The labels of the first block. -/
def labels : BlockTree → List Nat
  | .nil => []
  | .leaf _ _ labels _ => labels
  | .loop _ labels _ _ _ => labels
  | .cond _ labels _ _ _ _ _ _ => labels

/-- The name of the kind of the first block. -/
def kindName : BlockTree → String
  | .nil => "none"
  | .leaf .simple _ _ _ => "simple"
  | .leaf .dispatch _ _ _ => "emulated"
  | .loop .. => "loop"
  | .cond _ _ false _ _ _ _ _ => "if"
  | .cond _ _ true _ _ _ _ _ => "breaking_if"

/-- The chains that are parts of the first block. -/
def children : BlockTree → List BlockTree
  | .nil | .leaf .. => []
  | .loop _ _ inc rest _ => [inc, rest].filter fun t => !t.isNil
  | .cond _ _ _ _ check ifTrue ifFalse _ => [check, ifTrue, ifFalse].filter fun t => !t.isNil

/-- The number of blocks, and one for each end of a chain. -/
def size : BlockTree → Nat
  | .nil => 1
  | .leaf _ _ _ next => next.size + 1
  | .loop _ _ inc rest next => inc.size + rest.size + next.size + 1
  | .cond _ _ _ _ check ifTrue ifFalse next =>
    check.size + ifTrue.size + ifFalse.size + next.size + 1

/-- The blocks of a chain without their parts, each with what follows it. -/
def chain : BlockTree → List BlockTree
  | .nil => []
  | .leaf kind entry labels next => .leaf kind entry labels next :: next.chain
  | .loop entry labels inc rest next => .loop entry labels inc rest next :: next.chain
  | .cond entry labels breaking test check ifTrue ifFalse next =>
    .cond entry labels breaking test check ifTrue ifFalse next :: next.chain

/-- The last block of a chain. -/
def last : BlockTree → BlockTree
  | .nil => .nil
  | .leaf kind entry labels next =>
    if next.isNil then .leaf kind entry labels next else next.last
  | .loop entry labels inc rest next =>
    if next.isNil then .loop entry labels inc rest next else next.last
  | .cond entry labels breaking test check ifTrue ifFalse next =>
    if next.isNil then .cond entry labels breaking test check ifTrue ifFalse next else next.last

end BlockTree
end StructuredFlow
