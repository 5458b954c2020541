/-
# Relaxing keeps the runs of a block

When a loop or a conditional has been put together, markers at the ends of its parts become
fall-throughs (`relaxLoop`, `relaxCond`).  The block runs as before, whatever markers are left
in the table at that time.  All that is asked of the tree is that each label has its place in
it (`BlockTree.WellFormed`), and every tree that structuring makes is such a tree
(`Builds.wellFormed`).
-/

import StructuredFlow.Proofs.BlockTree.Trailing
import StructuredFlow.Proofs.Structuring.Builds

namespace StructuredFlow
namespace Structuring

open BlockTree

variable {ts : Transfers} {request : Option (LabelSet × Nat)} {outcome : Outcome}

/-- A leaf is a block. -/
theorem MakesLeaf.isNil_tree {set : LabelSet} {entry : Nat} (h : MakesLeaf ts set entry outcome) :
    outcome.tree.isNil = false := by
  obtain ⟨kind, htree, _⟩ := h.tree_eq
  rw [htree]
  rfl

/-- In a leaf there is nothing that would have to begin with a block. -/
theorem MakesLeaf.headed {set : LabelSet} {entry : Nat} (h : MakesLeaf ts set entry outcome) :
    outcome.tree.Headed := by
  obtain ⟨kind, htree, _⟩ := h.tree_eq
  rw [htree]
  trivial

/-- Loops and conditionals that are built begin with a block. -/
theorem Builds.headed (h : Builds ts request outcome) : outcome.tree.Headed := by
  induction h with
  | nothing => trivial
  | leaf hleaf => exact hleaf.headed
  | simple _ _ _ _ ih => exact ih
  | loop _ _ _ _ hinc _ _ ihBody ihRest => exact ⟨hinc.isNil_tree, hinc.headed, ihBody, ihRest⟩
  | cond _ _ _ hcheck _ _ _ ihFirst ihSecond ihRest =>
    exact ⟨hcheck.isNil_tree, hcheck.headed, ihFirst, ihSecond, ihRest⟩

/-- **In a tree that structuring makes each label has its place.** -/
theorem Builds.wellFormed (h : Builds ts request outcome) : outcome.tree.WellFormed :=
  ⟨h.headed, h.entriesHeld, leavesApart_of_nodup h.nodup_leafLabels⟩

variable {choices : Nat → Nat} {limit entry : Nat} {labels : List Nat} {test : Condition}
  {inc body check first second next : BlockTree}

/-- A loop runs as before when the continues at the end of its body are relaxed. -/
theorem run_relaxLoop (ht : (loop entry labels inc body next).WellFormed) :
    (loop entry labels inc body next).run (relaxLoop ts entry inc body) choices limit =
      (loop entry labels inc body next).run ts choices limit :=
  ht.run_relaxes (.loop fun _ => List.contains_iff_mem.mp)

/-- A breaking conditional runs as before when the breaks at the ends of its arms are relaxed. -/
theorem run_relaxCond (ht : (cond entry labels true test check first second next).WellFormed)
    (plan : CondPlan) :
    (cond entry labels true test check first second next).run
        (relaxCond ts entry plan first second) choices limit =
      (cond entry labels true test check first second next).run ts choices limit := by
  rw [relaxCond]
  split
  · rfl
  · exact ht.run_relaxes (.cond fun _ => List.contains_iff_mem.mp)

end Structuring
end StructuredFlow
