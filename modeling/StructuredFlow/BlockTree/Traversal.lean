/-
# Walking through a tree of blocks

`descendants` lists every block of a tree: a block comes first, then its parts
in order, then what follows it.  It keeps a stack of chains still to visit; the
next chain of a block goes below its parts.  `preorder` says the same by
recursion on the tree.

`trailingLabels` lists the labels after which control has left the tree when
they fall through: the label of a last block that holds just one, and those of
both arms when the last block is a conditional.  It too keeps a stack, on which
the second arm ends above the first; `fallThroughLabels` is its recursion.
-/

import StructuredFlow.BlockTree

namespace StructuredFlow
namespace BlockTree

/-- The number of blocks and chain ends on a stack. -/
def stackSize : List BlockTree → Nat
  | [] => 0
  | t :: rest => t.size + stackSize rest

/-- Sizes of stacks add up. -/
theorem stackSize_append (a b : List BlockTree) :
    stackSize (a ++ b) = stackSize a + stackSize b := by
  induction a with
  | nil => simp [stackSize]
  | cons t rest ih => simp only [List.cons_append, stackSize, ih, Nat.add_assoc]

/-- The children of a block and what follows it are smaller than the chain. -/
theorem stackSize_children_lt {t : BlockTree} (h : ¬t.isNil) :
    stackSize t.children + t.next.size < t.size := by
  cases t with
  | nil => simp [isNil] at h
  | leaf => simp [children, next, stackSize, size]
  | loop _ _ inc rest next =>
    simp only [children, BlockTree.next, size, List.filter_cons, List.filter_nil]
    split <;> split <;> simp only [stackSize] <;> omega
  | cond _ _ _ _ check ifTrue ifFalse next =>
    simp only [children, BlockTree.next, size, List.filter_cons, List.filter_nil]
    split <;> split <;> split <;> simp only [stackSize] <;> omega

/-- Each chain has an end. -/
theorem size_pos (t : BlockTree) : 0 < t.size := by cases t <;> simp [size]

/-- The blocks of the chains on a stack, from the top down. -/
def visit (stack : List BlockTree) : List BlockTree :=
  match stack with
  | [] => []
  | t :: rest =>
    if _h : t.isNil then visit rest else t :: visit (t.children ++ t.next :: rest)
termination_by stackSize stack
decreasing_by
  · have := size_pos t
    simp only [stackSize]
    omega
  · have := stackSize_children_lt _h
    simp only [stackSize_append, stackSize] at this ⊢
    omega

/-- Every block of a tree, each with its parts and what follows it. -/
def descendants (t : BlockTree) : List BlockTree := visit [t]

/-- Every block of a tree, by recursion on it. -/
def preorder : BlockTree → List BlockTree
  | .nil => []
  | .leaf kind entry labels next => .leaf kind entry labels next :: next.preorder
  | .loop entry labels inc rest next =>
    .loop entry labels inc rest next :: (inc.preorder ++ rest.preorder ++ next.preorder)
  | .cond entry labels breaking test check ifTrue ifFalse next =>
    .cond entry labels breaking test check ifTrue ifFalse next ::
      (check.preorder ++ ifTrue.preorder ++ ifFalse.preorder ++ next.preorder)

/-- The labels of a block without parts; a block with parts holds none itself. -/
def ownLabels : BlockTree → List Nat
  | .leaf _ _ labels _ => labels
  | _ => []

/-- The labels of the leaves of a tree, in the order of `descendants`. -/
def leafLabels (t : BlockTree) : List Nat := t.descendants.flatMap ownLabels

/-- What the last block of a chain adds to its trailing labels by itself. -/
def lastLabels : BlockTree → List Nat
  | .leaf .simple entry _ _ => [entry]
  | .leaf .dispatch entry labels _ => if labels.length = 1 then [entry] else []
  | _ => []

/-- The arms of a conditional, the second first. -/
def armsReversed : BlockTree → List BlockTree
  | .cond _ _ _ _ _ ifTrue ifFalse _ => if ifFalse.isNil then [ifTrue] else [ifFalse, ifTrue]
  | _ => []

/-- The last block of a chain is no larger than the chain. -/
theorem size_last_le : ∀ t : BlockTree, t.last.size ≤ t.size
  | .nil => Nat.le_refl _
  | .leaf _ _ _ next => by
    have := size_last_le next
    simp only [last]
    split <;> simp only [size] <;> omega
  | .loop _ _ _ _ next => by
    have := size_last_le next
    simp only [last]
    split <;> simp only [size] <;> omega
  | .cond _ _ _ _ _ _ _ next => by
    have := size_last_le next
    simp only [last]
    split <;> simp only [size] <;> omega

/-- The arms of a block are smaller than the chain. -/
theorem stackSize_armsReversed_lt (t : BlockTree) : stackSize t.armsReversed < t.size := by
  cases t with
  | cond _ _ _ _ check ifTrue ifFalse next =>
    have := size_pos check
    have := size_pos next
    simp only [armsReversed, size]
    split <;> simp only [stackSize] <;> omega
  | _ => simp [armsReversed, stackSize, size]

/-- The trailing labels of the chains on a stack, from the top down. -/
def visitTrailing (stack : List BlockTree) : List Nat :=
  match stack with
  | [] => []
  | t :: rest => t.last.lastLabels ++ visitTrailing (t.last.armsReversed ++ rest)
termination_by stackSize stack
decreasing_by
  have h₁ := stackSize_armsReversed_lt t.last
  have h₂ := size_last_le t
  simp only [stackSize_append, stackSize]
  omega

/-- The labels whose fall-through leaves the tree. -/
def trailingLabels (t : BlockTree) : List Nat := visitTrailing [t]

/-- The labels whose fall-through leaves the tree, by recursion on it. -/
def fallThroughLabels : BlockTree → List Nat
  | .nil => []
  | .leaf kind entry labels next =>
    if next.isNil then lastLabels (.leaf kind entry labels .nil) else next.fallThroughLabels
  | .loop _ _ _ _ next => if next.isNil then [] else next.fallThroughLabels
  | .cond _ _ _ _ _ ifTrue ifFalse next =>
    if next.isNil then ifTrue.fallThroughLabels ++ ifFalse.fallThroughLabels
    else next.fallThroughLabels

end BlockTree
end StructuredFlow
