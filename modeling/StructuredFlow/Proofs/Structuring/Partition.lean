/-
# The blocks partition the labels

Structuring neither loses nor doubles a label (`Partitions`): the leaves of the
tree hold each label that the entry reaches once, the labels left out are all
others, and within the tree the labels of a block are those of its parts and none
of what follows it (`BlockPartitions`).

This needs no contract.  Jumps to positions without a label are no edges, here as
in the search for live labels.
-/

import StructuredFlow.Proofs.Function.Validation
import StructuredFlow.Proofs.Structuring.Builds

namespace StructuredFlow

open Relation

namespace Transfers

variable {ts : Transfers} {entry a : Nat}

/-- An edge of the branch graph between labels that exist. -/
def Edge (ts : Transfers) (a b : Nat) : Prop := b ∈ ts.realTargets a ∧ b < ts.length

/-- A label that edges lead to from the entry. -/
def Reaches (ts : Transfers) (entry a : Nat) : Prop :=
  a < ts.length ∧ ReflTransGen ts.Edge entry a

/-- An edge is a jump to a label of the table. -/
theorem edge_iff {b : Nat} : ts.Edge a b ↔ ts.Jumps a b ∧ b < ts.length := by
  rw [Edge, mem_realTargets]

/-- A position without a label has no edges. -/
theorem Edge.lt_length {b : Nat} (h : ts.Edge a b) : a < ts.length := by
  by_contra hlen
  have hnone : ts.at? a = none := by
    rw [at?, List.getD_eq_getElem?_getD, List.getElem?_eq_none (Nat.not_lt.mp hlen)]
    rfl
  have htarget := (edge_iff.mp h).1
  rw [Jumps, targets, hnone] at htarget
  exact absurd htarget List.not_mem_nil

/-- What the entry reaches is what edges lead to from it. -/
theorem mem_live_iff_edges :
    a ∈ ts.live entry ↔ entry < ts.length ∧ ReflTransGen ts.Edge entry a := by
  have hedge : (fun a b => ts.Jumps a b ∧ b < ts.length) = ts.Edge := by
    funext a b
    exact propext edge_iff.symm
  rw [mem_live, hedge]

/-- **The live labels are those that the entry reaches.** -/
theorem mem_live_iff_reaches : a ∈ ts.live entry ↔ ts.Reaches entry a := by
  rw [mem_live_iff_edges]
  constructor
  · rintro ⟨hentry, hw⟩
    rcases hw.cases_tail with rfl | ⟨_, _, hstep⟩
    · exact ⟨hentry, hw⟩
    · exact ⟨hstep.2, hw⟩
  · rintro ⟨ha, hw⟩
    rcases hw.cases_head with rfl | ⟨_, hstep, _⟩
    · exact ⟨ha, hw⟩
    · exact ⟨hstep.lt_length, hw⟩

end Transfers

namespace BlockTree

/-- Leaving out empty chains leaves out no leaf label. -/
theorem flatMap_leafLabels_filter (ts : List BlockTree) :
    (ts.filter fun t => !t.isNil).flatMap leafLabels = ts.flatMap leafLabels := by
  induction ts with
  | nil => rfl
  | cons t ts ih =>
    rw [List.filter_cons, List.flatMap_cons, ← ih]
    cases t with
    | nil => simp [isNil]
    | _ => rfl

/-- The labels of a block are those of its parts, each in one of them, and none of
what follows the block. -/
structure BlockPartitions (b : BlockTree) : Prop where
  /-- The labels are in ascending order. -/
  pairwise_labels : b.labels.Pairwise (· < ·)
  /-- No label is in what follows. -/
  not_mem_next : ∀ a ∈ b.labels, a ∉ b.next.leafLabels
  /-- No label is in two parts, nor twice in one. -/
  nodup_children : (b.children.flatMap leafLabels).Nodup
  /-- The labels are those of the parts, if there are parts. -/
  mem_children : b.children ≠ [] → ∀ a, a ∈ b.labels ↔ a ∈ b.children.flatMap leafLabels

end BlockTree

/-- The blocks of a structured function and the labels left out partition its labels. -/
structure Structured.Partitions (ts : Transfers) (entry : Nat) (result : Structured) : Prop where
  /-- No label is in two leaves. -/
  nodup_leafLabels : result.tree.leafLabels.Nodup
  /-- The leaves hold what the entry reaches. -/
  mem_leafLabels : ∀ a, a ∈ result.tree.leafLabels ↔ ReflTransGen ts.Edge entry a
  /-- The labels left out are in ascending order. -/
  pairwise_pruned : result.pruned.Pairwise (· < ·)
  /-- They are all other labels. -/
  mem_pruned : ∀ a, a ∈ result.pruned ↔ a < ts.length ∧ ¬ReflTransGen ts.Edge entry a
  /-- Each block is partitioned into its parts. -/
  blocks : ∀ b ∈ result.tree.descendants, b.BlockPartitions

namespace Structuring

variable {ts : Transfers} {set : LabelSet} {entry : Nat} {request : Option (LabelSet × Nat)}
  {outcome : Outcome}

/-- A leaf holds its region, and its entry. -/
theorem MakesLeaf.blocks (h : MakesLeaf ts set entry outcome) :
    ∀ b ∈ outcome.tree.preorder, b.BlockPartitions := by
  obtain ⟨kind, htree, _⟩ := h.tree_eq
  rw [htree]
  intro b hb
  obtain rfl := List.mem_singleton.mp hb
  exact
    { pairwise_labels := LabelSet.pairwise_toList set
      not_mem_next := fun a _ => by simp [BlockTree.next]
      nodup_children := by simp [BlockTree.children]
      mem_children := fun h => absurd rfl h }

/-- The block of a loop and those of its parts, the latter given. -/
theorem blockPartitions_loop {headTs : Transfers} {head : LabelSet} {plan : LoopPlan}
    {start : Option Nat} {inc body rest : Outcome} (hr : Region ts set entry)
    (hs : LoopSplit ts set entry plan)
    (hhead : LoopHead (markLoop ts entry plan) plan.body entry headTs head start)
    (hinc : MakesLeaf headTs head entry inc)
    (hbody : Builds headTs (start.map fun next => (plan.body.erase entry, next)) body)
    (hrest : Builds (relaxLoop body.transfers entry inc.tree body.tree)
      (plan.pivot.map fun pivot => (plan.after, pivot)) rest)
    (hnodup : (loopOutcome entry plan inc body rest).tree.leafLabels.Nodup) :
    (loopOutcome entry plan inc body rest).tree.BlockPartitions where
  pairwise_labels := LabelSet.pairwise_toList plan.body
  not_mem_next a ha hb :=
    hs.not_inRequest (LabelSet.mem_toList.mp ha) ((hrest.mem_leafLabels a).mp hb)
  nodup_children := by
    rw [tree_loopOutcome, BlockTree.leafLabels_loop] at hnodup
    rw [tree_loopOutcome, BlockTree.children, BlockTree.flatMap_leafLabels_filter]
    simpa using hnodup.of_append_left
  mem_children _ a := by
    rw [tree_loopOutcome, BlockTree.children, BlockTree.flatMap_leafLabels_filter, BlockTree.labels,
      LabelSet.mem_toList, hhead.mem_iff (hs.region_body hr) a]
    simp [hinc.mem_leafLabels, hbody.mem_leafLabels]

/-- The block of a conditional, its parts given. -/
theorem blockPartitions_cond {plan : CondPlan} {breaking : Bool} {check first second rest : Outcome}
    {relaxed : Transfers} (hr : Region ts set entry) (hs : CondSplit ts set entry plan)
    (hcheck : MakesLeaf (markCond ts entry plan) (.single ts.length entry) entry check)
    (hfirst : Builds (markCond ts entry plan) (some (plan.firstRegion, plan.firstArm)) first)
    (hsecond : Builds first.transfers (plan.second.map fun arm => (arm.2, arm.1)) second)
    (hrest : Builds relaxed (plan.join.map fun join => (plan.rest, join)) rest)
    (hnodup : (condOutcome entry plan breaking check first second rest).tree.leafLabels.Nodup) :
    (condOutcome entry plan breaking check first second rest).tree.BlockPartitions := by
  have hlt : entry < plan.regions.capacity := hs.capacity_regions ▸ hr.lt_length entry hr.entry_mem
  have hmem : ∀ a, a ∈ (plan.regions.insert entry).toList ↔ a = entry ∨ a ∈ plan.regions := by
    intro a
    rw [LabelSet.mem_toList, LabelSet.mem_insert, and_iff_left hlt, or_comm]
  constructor
  · exact LabelSet.pairwise_toList _
  · intro a ha hb
    exact hs.not_inRequest_rest ((hmem a).mp ha) ((hrest.mem_leafLabels a).mp hb)
  · rw [tree_condOutcome, BlockTree.leafLabels_cond] at hnodup
    rw [tree_condOutcome, BlockTree.children, BlockTree.flatMap_leafLabels_filter]
    simpa using hnodup.of_append_left
  · intro _ a
    have hentry := (LabelSet.mem_single.mp hcheck.region.entry_mem).2
    rw [tree_condOutcome, BlockTree.children, BlockTree.flatMap_leafLabels_filter, BlockTree.labels,
      hmem, hs.mem_request_regions]
    simp [hcheck.mem_leafLabels, hfirst.mem_leafLabels, hsecond.mem_leafLabels, hentry, InRequest]

/-- Every block that a derivation makes is partitioned into its parts. -/
theorem Builds.blocks (h : Builds ts request outcome) :
    ∀ b ∈ outcome.tree.preorder, b.BlockPartitions := by
  induction h with
  | nothing ts => exact fun b hb => absurd hb List.not_mem_nil
  | leaf hleaf => exact hleaf.blocks
  | simple hr hs hfound hrest ih =>
    intro b hb
    rcases List.mem_cons.mp hb with rfl | hb
    · exact
        { pairwise_labels := List.pairwise_singleton _ _
          not_mem_next := fun a ha hnext => by
            obtain rfl := List.mem_singleton.mp ha
            exact not_inRequest_erase _ ((hrest.mem_leafLabels a).mp hnext)
          nodup_children := by simp [BlockTree.children]
          mem_children := fun h => absurd rfl h }
    · exact ih b hb
  | loop hr hs hfound hhead hinc hbody hrest ihBody ihRest =>
    intro b hb
    have hnodup := (Builds.loop hr hs hfound hhead hinc hbody hrest).nodup_leafLabels
    rcases List.mem_cons.mp hb with rfl | hb
    · exact blockPartitions_loop hr hs hhead hinc hbody hrest hnodup
    · rcases List.mem_append.mp hb with hb | hb
      · exact (List.mem_append.mp hb).elim (hinc.blocks b) (ihBody b)
      · exact ihRest b hb
  | cond hr hs hfound hcheck hfirst hsecond hrest ihFirst ihSecond ihRest =>
    intro b hb
    have hnodup := (Builds.cond hr hs hfound hcheck hfirst hsecond hrest).nodup_leafLabels
    rcases List.mem_cons.mp hb with rfl | hb
    · exact blockPartitions_cond hr hs hcheck hfirst hsecond hrest hnodup
    · rcases List.mem_append.mp hb with hb | hb
      · rcases List.mem_append.mp hb with hb | hb
        · exact (List.mem_append.mp hb).elim (hcheck.blocks b) (ihFirst b)
        · exact ihSecond b hb
      · exact ihRest b hb

/-- What is not reached are the other labels of the table. -/
theorem mem_unreached {a : Nat} :
    a ∈ unreached (ts.live entry) ts.length ↔ a < ts.length ∧ ¬ts.Reaches entry a := by
  rw [unreached, List.mem_filter, List.mem_range, ← Transfers.mem_live_iff_reaches]
  simp

/-- **Structuring divides up the labels**: those reached among the leaves, and the others
aside. -/
theorem StructuresLive.partitions {result : Structured × List Event}
    (h : StructuresLive ts entry result) (hentry : entry < ts.length) :
    result.1.Partitions ts entry := by
  have hlive : ∀ a, a ∈ ts.live entry ↔ ReflTransGen ts.Edge entry a := fun a => by
    rw [Transfers.mem_live_iff_edges, and_iff_right hentry]
  obtain ⟨outcome, hbuilds, htree, -, -⟩ := h.builds
  constructor
  · rw [htree]
    exact hbuilds.nodup_leafLabels
  · intro a
    rw [htree, hbuilds.mem_leafLabels, ← hlive]
    rfl
  · rw [h.pruned_eq]
    exact List.pairwise_lt_range.filter _
  · intro a
    rw [h.pruned_eq, mem_unreached]
    exact and_congr_right fun ha => not_congr (and_iff_right ha)
  · rw [htree, BlockTree.descendants_eq_preorder]
    exact hbuilds.blocks

/-- **No label is lost or doubled**: the leaves hold each label that the entry reaches
once, the labels left out are the others, and every block is made of its parts, whether
the function is structured or put into one dispatch. -/
theorem partitions_structured (f : Function) (entry : Nat) (hentry : entry < f.labels.length) :
    (run f.transfers entry).1.Partitions f.transfers entry ∧
      (flat f.transfers entry).1.Partitions f.transfers entry := by
  have hlt : entry < f.transfers.length := by rwa [Function.length_transfers]
  exact ⟨(structuresLive_run hlt).partitions hlt, (structuresLive_flat hlt).partitions hlt⟩

/-- The loop and the label behind it hold both labels, and none is left out. -/
theorem partitions_repeating : 0 < Function.repeating.labels.length ∧
    (run Function.repeating.transfers 0).1.Partitions Function.repeating.transfers 0 :=
  ⟨by decide, (partitions_structured Function.repeating 0 (by decide)).1⟩

end Structuring
end StructuredFlow
