/-
# Markers stand where they are caught

In a structured function every break and continue stands inside the one block that
catches it, no jump leaves its dispatch, and a conditional is tagged as breaking just
if a break out of it is left (`Structured.Scoped`).

The first two hold of trees that realise a branch graph, with nothing around the tree.
The tag is decided before the regions around the conditional and behind it are
finished; it stays right because none of them touches breaks out of a conditional
whose entry is not theirs (`Builds.keepsBreaks`).
-/

import Mathlib.Data.List.Perm.Subperm
import StructuredFlow.Proofs.BlockTree.Scopes
import StructuredFlow.Proofs.Structuring.ControlFlow

namespace StructuredFlow

/-- Every marker, jump and tag of a structured function is in keeping with the blocks. -/
structure Structured.Scoped (result : Structured) : Prop where
  /-- A break or a continue stands inside a block that catches it. -/
  caught : ∀ a ∈ result.tree.leafLabels, ∀ marker ∈ result.transfers.targets a, ∀ e,
    marker = .breakOf e ∨ marker = .continueOf e →
      ∃ b ∈ result.tree.descendants, b.Catches marker a
  /-- No two loops or conditionals share an entry. -/
  nodup_constructEntries : result.tree.constructEntries.Nodup
  /-- A jump stays in its dispatch. -/
  leafClosed : ∀ b ∈ result.tree.descendants, b.LeafClosed result.transfers
  /-- The breaking conditionals are those that are left by breaks. -/
  breaksTagged : ∀ b ∈ result.tree.descendants, b.BreaksTagged result.transfers

namespace BlockTree

variable {ts ts' : Transfers}

/-- A tag stays right while breaks out of its conditional are kept. -/
theorem BreaksTagged.keeps {b : BlockTree} (h : b.BreaksTagged ts)
    (hkeeps : ∀ e, b.constructEntry? = some e → Structuring.KeepsBreaks e ts ts') :
    b.BreaksTagged ts' := by
  cases b with
  | cond entry labels breaking test check ifTrue ifFalse next =>
    refine Iff.trans h (exists_congr fun a => and_congr_right fun _ => ?_)
    exact (hkeeps entry rfl a).symm
  | _ => trivial

end BlockTree

namespace Structuring

open Transfers

variable {ts : Transfers} {set : LabelSet} {entry : Nat} {request : Option (LabelSet × Nat)}
  {outcome : Outcome}

/-! ### The entries of loops and conditionals -/

/-- There is no construct in a leaf. -/
theorem MakesLeaf.constructEntries_eq (h : MakesLeaf ts set entry outcome) :
    outcome.tree.constructEntries = [] := by
  obtain ⟨kind, htree, -⟩ := h.tree_eq
  rw [htree, BlockTree.constructEntries_leaf, BlockTree.constructEntries_nil]

/-- The entry of a loop or conditional is held by a leaf, and by a different one for
each of them. -/
theorem Builds.constructEntries_subperm (h : Builds ts request outcome) :
    outcome.tree.constructEntries.Subperm outcome.tree.leafLabels := by
  induction h with
  | nothing ts => simp [Outcome.none]
  | leaf hleaf => simp [hleaf.constructEntries_eq]
  | simple _ _ _ _ ih =>
    rw [Outcome.tree_after, tree_simpleOutcome, BlockTree.constructEntries_leaf,
      BlockTree.leafLabels_leaf]
    exact ih.trans (List.sublist_append_right _ _).subperm
  | loop _ _ _ _ hinc _ _ ihBody ihRest =>
    rw [Outcome.tree_after, tree_loopOutcome, BlockTree.constructEntries_loop,
      BlockTree.leafLabels_loop, hinc.constructEntries_eq]
    have hentry := hinc.mem_leafLabels.mpr hinc.region.entry_mem
    have hparts := (List.singleton_subperm_iff.mpr hentry).append (ihBody.append ihRest)
    simpa using hparts
  | cond _ _ _ hcheck _ _ _ ihFirst ihSecond ihRest =>
    rw [Outcome.tree_after, tree_condOutcome, BlockTree.constructEntries_cond,
      BlockTree.leafLabels_cond, hcheck.constructEntries_eq]
    have hentry := hcheck.mem_leafLabels.mpr hcheck.region.entry_mem
    have hparts := (List.singleton_subperm_iff.mpr hentry).append
      (ihFirst.append (ihSecond.append ihRest))
    simpa using hparts

/-- **No two constructs that are built have one entry.** -/
theorem Builds.nodup_constructEntries (h : Builds ts request outcome) :
    outcome.tree.constructEntries.Nodup := by
  obtain ⟨l, hperm, hsub⟩ := h.constructEntries_subperm
  exact hperm.nodup_iff.mp (hsub.nodup h.nodup_leafLabels)

/-- The loops and conditionals that are made are entered at labels of the request. -/
theorem Builds.inRequest_of_constructEntry (h : Builds ts request outcome) {b : BlockTree}
    (hb : b ∈ outcome.tree.preorder) {e : Nat} (he : b.constructEntry? = some e) :
    InRequest request e := by
  refine (h.mem_leafLabels e).mp (h.constructEntries_subperm.subset ?_)
  rw [BlockTree.constructEntries, BlockTree.descendants_eq_preorder]
  exact List.mem_filterMap.mpr ⟨b, hb, he⟩

/-! ### The tags of conditionals -/

/-- There is no break out of a leaf. -/
theorem MakesLeaf.breaksTagged (h : MakesLeaf ts set entry outcome) {ts' : Transfers} :
    ∀ b ∈ outcome.tree.preorder, b.BreaksTagged ts' := by
  obtain ⟨kind, htree, -⟩ := h.tree_eq
  rw [htree]
  intro b hb
  obtain rfl := List.mem_singleton.mp hb
  trivial

/-- A conditional that is crowded is left by a break: the jump of an arm to the join
has become one and is not relaxed. -/
theorem exists_break_of_crowded {plan : CondPlan} {first second : Outcome}
    (hs : CondSplit ts set entry plan)
    (hfirst : Builds (markCond ts entry plan) (some (plan.firstRegion, plan.firstArm)) first)
    (hsecond : Builds first.transfers (plan.second.map fun arm => (arm.2, arm.1)) second)
    (hcrowded : plan.crowded = true) : ∃ a ∈ plan.regions, Target.breakOf entry ∈
      (relaxCond second.transfers entry plan first.tree second.tree).targets a := by
  obtain ⟨a, ha, join, hjoin, hab⟩ := hs.crowded_jump hcrowded
  have hmarked : Target.breakOf entry ∈ (markCond ts entry plan).targets a := by
    rw [hs.targets_markCond ha]
    refine List.mem_map.mpr ⟨.label join, hab, ?_⟩
    rw [armTarget, if_pos hjoin.symm]
  have hnot := (hs.mem_request_regions entry).not.mp hs.entry_not_mem
  have hkeeps := (hfirst.keepsBreaks fun h => hnot (Or.inl h)).trans
    (hsecond.keepsBreaks fun h => hnot (Or.inr h))
  refine ⟨a, ha, ?_⟩
  rw [relaxCond, if_pos hcrowded]
  exact (hkeeps a).mpr hmarked

/-- The tag is right when it is decided. -/
theorem isBreaking_iff {plan : CondPlan} {first second : Outcome} (hs : CondSplit ts set entry plan)
    (hfirst : Builds (markCond ts entry plan) (some (plan.firstRegion, plan.firstArm)) first)
    (hsecond : Builds first.transfers (plan.second.map fun arm => (arm.2, arm.1)) second) :
    isBreaking (relaxCond second.transfers entry plan first.tree second.tree) entry plan = true ↔
      ∃ a ∈ plan.regions, Target.breakOf entry ∈
        (relaxCond second.transfers entry plan first.tree second.tree).targets a := by
  rw [isBreaking, Bool.or_eq_true, List.any_eq_true]
  constructor
  · rintro (hcrowded | ⟨a, ha, hbreak⟩)
    · exact exists_break_of_crowded hs hfirst hsecond hcrowded
    · exact ⟨a, LabelSet.mem_toList.mp ha, List.contains_iff_mem.mp hbreak⟩
  · rintro ⟨a, ha, hbreak⟩
    exact Or.inr ⟨a, LabelSet.mem_toList.mpr ha, List.contains_iff_mem.mpr hbreak⟩

/-- **Every conditional that is made is tagged right**, also when everything is done. -/
theorem Builds.breaksTagged (h : Builds ts request outcome) :
    ∀ b ∈ outcome.tree.preorder, b.BreaksTagged outcome.transfers := by
  induction h with
  | nothing ts => exact fun b hb => absurd hb List.not_mem_nil
  | leaf hleaf => exact hleaf.breaksTagged
  | simple _ _ _ _ ih =>
    intro b hb
    rcases List.mem_cons.mp hb with rfl | hb
    · trivial
    · exact ih b hb
  | @loop _ _ _ _ entry plan _ inc body _ _ hr hs _ hhead hinc hbody hrest ihBody ihRest =>
    intro b hb
    rcases List.mem_cons.mp hb with rfl | hb
    · trivial
    · rcases List.mem_append.mp hb with hb | hb
      · rcases List.mem_append.mp hb with hb | hb
        · exact hinc.breaksTagged b hb
        · refine (ihBody b hb).keeps fun e he => ?_
          have hmem : e ∈ plan.body := (hhead.mem_iff (hs.region_body hr) e).mpr
            (Or.inr (hbody.inRequest_of_constructEntry hb he))
          exact (KeepsBreaks.relaxLoop _ entry inc.tree body.tree).trans
            (hrest.keepsBreaks (hs.not_inRequest hmem))
      · exact ihRest b hb
  | @cond _ _ entry plan check first second rest _ hr hs _ hcheck hfirst hsecond hrest ihFirst
      ihSecond ihRest =>
    intro b hb
    -- what the arms break out of is kept by the relaxing of the arms and by what follows
    have hafter : ∀ e, e ∈ plan.regions → KeepsBreaks e second.transfers rest.transfers := by
      intro e he
      have hne : e ≠ entry := fun h => hs.entry_not_mem (h ▸ he)
      exact (KeepsBreaks.relaxCond hne _ plan first.tree second.tree).trans
        (hrest.keepsBreaks (hs.not_inRequest_rest (Or.inr he)))
    rcases List.mem_cons.mp hb with rfl | hb
    · refine (isBreaking_iff hs hfirst hsecond).trans (exists_congr fun a => ?_)
      have harms : a ∈ first.tree.leafLabels ++ second.tree.leafLabels ↔ a ∈ plan.regions := by
        rw [List.mem_append, hfirst.mem_leafLabels, hsecond.mem_leafLabels, hs.mem_request_regions]
        rfl
      rw [harms]
      refine and_congr_right fun ha => ?_
      rw [Outcome.transfers_after, transfers_condOutcome,
        hrest.marks.targets_eq (hs.not_inRequest_rest (Or.inr ha))]
    · rcases List.mem_append.mp hb with hb | hb
      · rcases List.mem_append.mp hb with hb | hb
        · rcases List.mem_append.mp hb with hb | hb
          · exact hcheck.breaksTagged b hb
          · refine (ihFirst b hb).keeps fun e he => ?_
            have hmem : e ∈ plan.firstRegion := hfirst.inRequest_of_constructEntry hb he
            exact (hsecond.keepsBreaks (hs.not_inRequest_second hmem)).trans
              (hafter e ((hs.mem_request_regions e).mpr (Or.inl hmem)))
        · refine (ihSecond b hb).keeps fun e he => ?_
          exact hafter e ((hs.mem_request_regions e).mpr
            (Or.inr (hsecond.inRequest_of_constructEntry hb he)))
      · exact ihRest b hb

/-! ### Structured functions -/

/-- **What structuring makes of a validated function is scoped.** -/
theorem StructuresLive.scoped {f : Function} {result : Structured × List Event}
    (h : StructuresLive f.transfers entry result) (hf : f.validate = .ok ()) (hm : f.NoMarkers) :
    result.1.Scoped := by
  have hrealises := h.realises hf hm
  obtain ⟨outcome, hbuilds, htree, htransfers, -⟩ := h.builds
  constructor
  · intro a ha marker hts e hmarker
    rw [BlockTree.descendants_eq_preorder]
    refine (hrealises.exists_catches hmarker ha hts).resolve_left ?_
    rintro ⟨id, hid⟩
    exact absurd hid (by simp)
  · rw [htree]
    exact hbuilds.nodup_constructEntries
  · rw [BlockTree.descendants_eq_preorder]
    exact hrealises.leafClosed fun _ => rfl
  · rw [BlockTree.descendants_eq_preorder, htree, htransfers]
    exact hbuilds.breaksTagged

/-- **Markers stand where they are caught**, jumps stay in their dispatch and tags are
right in whatever is made of a validated function without markers. -/
theorem scoped_run (f : Function) (hf : f.validate = .ok ()) (hm : f.NoMarkers) (entry : Nat) :
    (run f.transfers entry).1.Scoped := by
  by_cases hentry : entry < f.transfers.length
  · exact (structuresLive_run hentry).scoped hf hm
  · rw [run, structureLive_of_le (Nat.not_lt.mp hentry)]
    constructor <;> simp [BlockTree.descendants_eq_preorder, BlockTree.preorder]

/-- The label that repeats itself leaves its loop by a break, which the loop catches. -/
theorem scoped_repeating : Function.repeating.validate = .ok () ∧ Function.repeating.NoMarkers ∧
    (run Function.repeating.transfers 0).1.Scoped :=
  ⟨Function.validate_repeating, Function.noMarkers_repeating,
    scoped_run Function.repeating Function.validate_repeating Function.noMarkers_repeating 0⟩

end Structuring
end StructuredFlow
