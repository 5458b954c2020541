/-
# What is recorded depends on the members alone

A set of labels is analyzed by the transfers of its members, and by nothing else.  Two tables
may differ in their lengths and in all other labels; as long as they give the members the
same transfers, the records have the same edges, and sets with the same members
(`alike_analyze`).  The capacities of those sets come from the lengths of the tables and may
differ, and so records are compared by members (`Alike`).
-/

import StructuredFlow.Proofs.Flow.MustGetTo
import StructuredFlow.Proofs.LabelSet.SameMembers

namespace StructuredFlow

open LabelSet Structuring

namespace Flow

/-! ### Records -/

/-- Two records with the same edges and with sets of the same members. -/
structure Alike (flow flow' : Flow) : Prop where
  /-- The same successors, in order. -/
  outLabels_eq : flow.outLabels = flow'.outLabels
  /-- The same predecessors. -/
  inLabels_eq : flow.inLabels = flow'.inLabels
  /-- The same labels are reached. -/
  allOut : SameMembers flow.allOut flow'.allOut
  /-- The same labels lead here. -/
  allIn : SameMembers flow.allIn flow'.allIn
  /-- The same labels must be gotten to. -/
  mustGetTo : SameMembers flow.mustGetTo flow'.mustGetTo

/-- Records as they are before any analysis are alike. -/
theorem alike_fresh (c c' : Nat) : (fresh c).Alike (fresh c') :=
  ⟨rfl, rfl, .empty c c', .empty c c', .empty c c'⟩

section Analyze

variable {ts ts' : Transfers} {set set' : LabelSet} (hset : ∀ a ∈ set, a < ts.length)
  (hset' : ∀ a ∈ set', a < ts'.length) (hs : SameMembers set set')
  (hat : ∀ a ∈ set, ts.at? a = ts'.at? a)

include hs in
/-- The jumps of a control transfer within either set are the same. -/
theorem successors_eq (t : Option Transfer) : successors set t = successors set' t := by
  rw [successors, successors, hs.contains_eq]

include hs hat in
/-- The jumps within either set are the same. -/
theorem jumpsWithin_eq : ts.JumpsWithin set = ts'.JumpsWithin set' := by
  funext a b
  rw [Transfers.JumpsWithin, Transfers.JumpsWithin, ← hs a, ← hs b]
  refine propext (and_congr_right fun ha => and_congr_right fun _ => ?_)
  rw [Transfers.Jumps, Transfers.Jumps, Transfers.targets_eq_of_at? (hat a ha)]

include hset hset' hs hat

/-- The edges out of a label are the same. -/
theorem at_outEdges_eq (a : Nat) : (outEdges ts set).at a = (outEdges ts' set').at a := by
  rw [at_outEdges hset, at_outEdges hset']
  by_cases ha : a ∈ set
  · rw [if_pos ha, if_pos ((hs a).mp ha), hat a ha, successors_eq hs]
  · rw [if_neg ha, if_neg fun h => ha ((hs a).mpr h)]

/-- The edges into a label of the sets are the same. -/
theorem at_reverseEdges_eq {a : Nat} (ha : a ∈ set) :
    (reverseEdges (outEdges ts set)).at a = (reverseEdges (outEdges ts' set')).at a := by
  have hlt : a < (outEdges ts set).length := by
    rw [length_outEdges]
    exact hset a ha
  have hlt' : a < (outEdges ts' set').length := by
    rw [length_outEdges]
    exact hset' a ((hs a).mp ha)
  refine eq_of_pairwise_lt ?_ ?_ fun b => ?_
  · rw [at_reverseEdges hlt]
    exact List.pairwise_lt_range.filter _
  · rw [at_reverseEdges hlt']
    exact List.pairwise_lt_range.filter _
  · rw [mem_reverseEdges (target_lt_outEdges hset), mem_reverseEdges (target_lt_outEdges hset'),
      at_outEdges_eq hset hset' hs hat]

/-- The same walks within the set lead to an end. -/
theorem endingWalk_congr {a : Nat} (ha : a ∈ set) {walk : List Nat} :
    EndingWalk (ts.JumpsWithin set) (ts.EndsPaths set) a walk ↔
      EndingWalk (ts'.JumpsWithin set') (ts'.EndsPaths set') a walk := by
  have hends : ∀ b, b ∈ pathEnds ts set ↔ b ∈ pathEnds ts' set' := fun b => by
    rw [mem_pathEnds hset, mem_pathEnds hset', ← hs b]
    refine and_congr_right fun hb => ?_
    rw [hat b hb, endsPaths, endsPaths, successors_eq hs]
  rw [← endingWalk_iff hset ha, ← endingWalk_iff hset' ((hs a).mp ha), step_outEdges hset,
    step_outEdges hset', jumpsWithin_eq hs hat, funext fun b => propext (hends b)]

/-- **What is recorded of a label depends on the members of the set alone**, and on their
transfers. -/
theorem alike_analyze (a : Nat) :
    (flowAt (analyze ts set) a).Alike (flowAt (analyze ts' set') a) := by
  by_cases ha : a ∈ set
  · have ha' := (hs a).mp ha
    have hjumps := jumpsWithin_eq hs hat
    constructor
    · rw [flowAt_analyze ts ha (hset a ha), flowAt_analyze ts' ha' (hset' a ha')]
      exact at_outEdges_eq hset hset' hs hat a
    · rw [flowAt_analyze ts ha (hset a ha), flowAt_analyze ts' ha' (hset' a ha')]
      exact at_reverseEdges_eq hset hset' hs hat ha
    · intro b
      rw [mem_allOut hset ha, mem_allOut hset' ha', hjumps]
    · intro b
      rw [mem_allIn hset ha, mem_allIn hset' ha', hjumps]
    · intro b
      rw [mem_mustGetTo_analyze hset ha, mem_mustGetTo_analyze hset' ha']
      simp only [endingWalk_congr hset hset' hs hat ha]
  · obtain ⟨c, hc⟩ := flowAt_analyze_of_notMem ts ha
    obtain ⟨c', hc'⟩ := flowAt_analyze_of_notMem ts' fun h => ha ((hs a).mpr h)
    rw [hc, hc']
    exact alike_fresh c c'

end Analyze

end Flow
end StructuredFlow
