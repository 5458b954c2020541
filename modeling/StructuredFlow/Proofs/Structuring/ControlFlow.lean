/-
# Structuring keeps the control flow

A function whose control transfers hold no markers and jump only to labels is
resolved as it stands: every target is a jump that means its label
(`resolved_live`).  So the tree made of it realises its branch graph, with no label
in wait behind the tree and no marker that is caught outside it; and a run of the
tree is a walk through the branch graph.
-/

import StructuredFlow.Proofs.BlockTree.Simulation
import StructuredFlow.Proofs.Function.Validation
import StructuredFlow.Proofs.Structuring.Realisation

namespace StructuredFlow

/-- Whatever is chosen, running the tree visits what a walk from the entry visits, and
ends as the walk ends.  A jump that leaves its dispatch, a marker that nothing catches
and control that falls off the end would be exits of their own. -/
structure Structured.RunsLike (ts : Transfers) (entry : Nat) (result : Structured) : Prop where
  /-- The labels visited are those of the walk, in order. -/
  visited_eq : ∀ choices limit,
    (result.tree.run result.transfers choices limit).2 = ts.walk choices limit entry
  /-- The run ends at a label without targets, or when enough labels were visited. -/
  exit_eq : ∀ choices limit, (result.tree.run result.transfers choices limit).1 = .returns ∨
    (result.tree.run result.transfers choices limit).1 = .stops ∧
      (result.tree.run result.transfers choices limit).2.length = limit

namespace Structuring

open Transfers

variable {f : Function} {entry : Nat}

/-- The jumps of a function are resolved before anything is marked. -/
theorem resolved_live (hf : f.validate = .ok ()) (hm : f.NoMarkers) :
    Resolved f.transfers (liveTable f.transfers entry) .outermost (live f.transfers entry) where
  means a ha := by
    obtain ⟨ids, hids⟩ := f.exists_targets_eq hm a
    refine ⟨ids, hids, ?_⟩
    rw [targets_liveTable ha, hids, List.map_map]
    refine List.map_congr_left fun b hb => among_eq_some (LabelSet.mem_toList.mpr ?_)
    have hab : Jumps f.transfers a b := by
      rw [Jumps, hids]
      exact List.mem_map_of_mem hb
    obtain ⟨hlt, hw⟩ := mem_live.mp ha
    refine mem_live.mpr ⟨hlt, hw.tail ⟨hab, ?_⟩⟩
    rw [Function.length_transfers]
    exact Function.lt_of_jumps hf hab
  fresh _ _ := ⟨rfl, rfl⟩

/-- **What structuring makes of a validated function realises its control flow.** -/
theorem StructuresLive.realises {result : Structured × List Event}
    (h : StructuresLive f.transfers entry result) (hf : f.validate = .ok ()) (hm : f.NoMarkers) :
    result.1.tree.Realises f.transfers result.1.transfers .outermost (some entry) := by
  obtain ⟨outcome, hbuilds, htree, htransfers, -⟩ := h.builds
  rw [htree, htransfers]
  exact hbuilds.realises (resolved_live hf hm)

/-- **What structuring makes of a validated function runs like its branch graph.** -/
theorem StructuresLive.runsLike {result : Structured × List Event}
    (h : StructuresLive f.transfers entry result) (hf : f.validate = .ok ()) (hm : f.NoMarkers) :
    result.1.RunsLike f.transfers entry where
  visited_eq choices limit := ((h.realises hf hm).run_eq choices limit).1
  exit_eq choices limit := ((h.realises hf hm).run_eq choices limit).2

/-- **Structuring keeps the control flow.**  The tree of a validated function without
markers visits the labels that a walk through its branch graph visits, for any choices
and as far as wanted, whether the function is structured or put into one dispatch. -/
theorem runsLike_structured (f : Function) (hf : f.validate = .ok ()) (hm : f.NoMarkers)
    (entry : Nat) (hentry : entry < f.labels.length) :
    (run f.transfers entry).1.RunsLike f.transfers entry ∧
      (flat f.transfers entry).1.RunsLike f.transfers entry := by
  have hlt : entry < f.transfers.length := by rwa [Function.length_transfers]
  exact ⟨(structuresLive_run hlt).runsLike hf hm, (structuresLive_flat hlt).runsLike hf hm⟩

/-- The loop over the label that repeats itself runs like its branch graph. -/
theorem runsLike_repeating : Function.repeating.validate = .ok () ∧ Function.repeating.NoMarkers ∧
    (run Function.repeating.transfers 0).1.RunsLike Function.repeating.transfers 0 :=
  ⟨Function.validate_repeating, Function.noMarkers_repeating,
    (runsLike_structured Function.repeating Function.validate_repeating
      Function.noMarkers_repeating 0 (by decide)).1⟩

end Structuring
end StructuredFlow
