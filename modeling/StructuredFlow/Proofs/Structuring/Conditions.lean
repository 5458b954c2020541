/-
# A conditional tests what its entry tests

The test of a conditional is the condition of the control transfer of its entry.  It is
that of the transfer when the conditional is made, and since then as before only targets
have been exchanged (`TestsEntry.of_marks`).
-/

import StructuredFlow.Proofs.Structuring.Builds

namespace StructuredFlow

/-- The first block, if it is a conditional, tests the condition by which its entry chooses
between two labels. -/
def BlockTree.TestsEntry (ts : Transfers) : BlockTree → Prop
  | .cond entry _ _ test _ _ _ _ => ∃ onTrue onFalse,
    ts.at? entry = some (.condBranch test.value (.label onTrue) (.label onFalse))
  | _ => True

/-- A test was there before targets were turned into markers. -/
theorem BlockTree.TestsEntry.of_marks {b : BlockTree} {ts ts' : Transfers} {p : Nat → Prop}
    (h : b.TestsEntry ts') (hmarks : Transfers.MarksWithin p ts ts') : b.TestsEntry ts := by
  cases b with
  | cond entry labels breaking test check ifTrue ifFalse next =>
    obtain ⟨onTrue, onFalse, hat⟩ := h
    obtain ⟨g, hg, heq⟩ := hmarks.marks entry
    rw [hat] at heq
    obtain ⟨t, ht, hmap⟩ := Option.map_eq_some_iff.mp heq.symm
    cases t with
    | condBranch condition ifTrue ifFalse =>
      obtain ⟨rfl, htrue, hfalse⟩ := Transfer.condBranch.inj hmap
      exact ⟨onTrue, onFalse, by rw [ht, hg.eq_of_label htrue, hg.eq_of_label hfalse]⟩
    | _ => exact absurd hmap (by simp [Transfer.mapTargets])
  | _ => trivial

namespace Structuring

variable {ts : Transfers} {set : LabelSet} {entry : Nat} {request : Option (LabelSet × Nat)}
  {outcome : Outcome}

/-- A leaf tests nothing. -/
theorem MakesLeaf.testsEntry (h : MakesLeaf ts set entry outcome) {ts' : Transfers} :
    ∀ b ∈ outcome.tree.preorder, b.TestsEntry ts' := by
  obtain ⟨kind, htree, -⟩ := h.tree_eq
  rw [htree]
  intro b hb
  obtain rfl := List.mem_singleton.mp hb
  trivial

/-- **Every conditional that is made tests what its entry tested at the start.** -/
theorem Builds.testsEntry (h : Builds ts request outcome) :
    ∀ b ∈ outcome.tree.preorder, b.TestsEntry ts := by
  induction h with
  | nothing ts => exact fun b hb => absurd hb List.not_mem_nil
  | leaf hleaf => exact hleaf.testsEntry
  | @simple ts _ entry next _ _ _ _ _ _ ih =>
    intro b hb
    rcases List.mem_cons.mp hb with rfl | hb
    · trivial
    · exact (ih b hb).of_marks (marks_fallInto ts entry next)
  | @loop ts _ _ _ entry plan _ _ _ _ _ hr hs _ hhead hinc hbody _ ihBody ihRest =>
    have hmarked := marks_markLoop ts entry plan
    intro b hb
    rcases List.mem_cons.mp hb with rfl | hb
    · trivial
    · rcases List.mem_append.mp hb with hb | hb
      · rcases List.mem_append.mp hb with hb | hb
        · exact hinc.testsEntry b hb
        · exact ((ihBody b hb).of_marks hhead.marks).of_marks hmarked
      · exact ((ihRest b hb).of_marks
          (Builds.marks_of_loop hr hs hhead hinc hbody hbody.marks)).of_marks hmarked
  | @cond ts _ entry plan _ _ _ _ _ hr hs _ hcheck hfirst hsecond _ ihFirst ihSecond ihRest =>
    have hmarked := marks_markCond ts entry plan
    intro b hb
    rcases List.mem_cons.mp hb with rfl | hb
    · exact ⟨plan.onTrue, plan.onFalse, hs.at?_entry⟩
    · rcases List.mem_append.mp hb with hb | hb
      · rcases List.mem_append.mp hb with hb | hb
        · rcases List.mem_append.mp hb with hb | hb
          · exact hcheck.testsEntry b hb
          · exact (ihFirst b hb).of_marks hmarked
        · exact ((ihSecond b hb).of_marks hfirst.marks).of_marks hmarked
      · exact ((ihRest b hb).of_marks
          (Builds.marks_of_cond hs hfirst hsecond hfirst.marks hsecond.marks)).of_marks hmarked

/-- **Each conditional tests what its entry does.** -/
theorem StructuresLive.testsEntry {result : Structured × List Event}
    (h : StructuresLive ts entry result) : ∀ b ∈ result.1.tree.preorder, b.TestsEntry ts := by
  obtain ⟨outcome, hbuilds, htree, -, -⟩ := h.builds
  rw [htree]
  exact fun b hb => (hbuilds.testsEntry b hb).of_marks (marks_liveTable ts entry)

end Structuring
end StructuredFlow
