/-
# Which structured programs need a dispatch

A conditional is recognised by the label that both its arms must get to.  In the body of a
loop or in an arm, what follows is expressed by nesting: a path ends where markers are all
that a label has left.  If the body ends in a loop, no path ends there, as this loop goes back
to its own label and only its label leads on.  Then nothing must be got to, the arms of a
conditional before the loop overlap, and the body is left to a dispatch.

`Program.joins` tests for this on the program.  That it is right is shown for every region
that holds a program, by induction on the program: the parts of a statement hold programs
again, with a marker behind them (`CondParts.hasDispatch`, `LoopParts.hasDispatch`).
-/

import StructuredFlow.Proofs.BlockTree.Leaves
import StructuredFlow.Proofs.Program.Conditionals
import StructuredFlow.Proofs.Program.Loops
import StructuredFlow.Proofs.Structuring.Depth

namespace StructuredFlow

open Structuring Transfers

namespace BlockTree

/-- Tests for a dispatch. -/
def isDispatch : BlockTree → Bool
  | .leaf .dispatch _ _ _ => true
  | _ => false

/-- Tests whether a block of a tree is a dispatch. -/
def hasDispatch (t : BlockTree) : Bool := t.descendants.any isDispatch

/-- Where there is no block there is no dispatch. -/
@[simp] theorem hasDispatch_nil : hasDispatch .nil = false := by
  rw [hasDispatch, descendants_eq_preorder]
  rfl

/-- A simple leaf is no dispatch, but one may follow it. -/
@[simp] theorem hasDispatch_simple (entry : Nat) (labels : List Nat) (next : BlockTree) :
    hasDispatch (.leaf .simple entry labels next) = next.hasDispatch := by
  simp [hasDispatch, descendants_eq_preorder, preorder, isDispatch]

/-- A dispatch is one. -/
@[simp] theorem hasDispatch_dispatch (entry : Nat) (labels : List Nat) (next : BlockTree) :
    hasDispatch (.leaf .dispatch entry labels next) = true := by
  simp [hasDispatch, descendants_eq_preorder, preorder, isDispatch]

/-- There is a dispatch in a loop if there is one in its parts or behind it. -/
@[simp] theorem hasDispatch_loop (entry : Nat) (labels : List Nat) (inc rest next : BlockTree) :
    hasDispatch (.loop entry labels inc rest next) =
      (inc.hasDispatch || rest.hasDispatch || next.hasDispatch) := by
  simp [hasDispatch, descendants_eq_preorder, preorder, isDispatch, Bool.or_assoc]

/-- There is a dispatch in a conditional if there is one in its check, its arms or behind it. -/
@[simp] theorem hasDispatch_cond (entry : Nat) (labels : List Nat) (breaking : Bool)
    (test : Condition) (check ifTrue ifFalse next : BlockTree) :
    hasDispatch (.cond entry labels breaking test check ifTrue ifFalse next) =
      (check.hasDispatch || ifTrue.hasDispatch || ifFalse.hasDispatch || next.hasDispatch) := by
  simp [hasDispatch, descendants_eq_preorder, preorder, isDispatch, Bool.or_assoc]

end BlockTree

variable {ts : Transfers} {set : LabelSet} {a : Nat} {after : Target} {ids : List Nat}
  {depth : Nat}

/-- A region that holds the program needs a dispatch exactly if a conditional cannot join. -/
def Program.Decides (p : Program) : Prop :=
  ∀ depth ts set a after ids, ProgramRegion ts set a p after ids → set.toFinset.card < depth →
    (structureRegion depth ts set a).tree.hasDispatch = !p.joins (!after.isMarker)

/-- A region has a label, so that the depth for its parts is not used up. -/
theorem exists_eq_succ_of_card_lt (hr : Region ts set a) (hcard : set.toFinset.card < depth + 1) :
    ∃ k, depth = k + 1 := by
  have hpos := Finset.card_pos.mpr ⟨a, LabelSet.mem_toFinset.mpr hr.entry_mem⟩
  exact ⟨depth - 1, by omega⟩

/-- An entry on its own is a simple leaf. -/
theorem tree_structureRegion_alone (k : Nat) (hr : Region ts set a) (hall : ∀ x ∈ set, x = a)
    (hself : ¬ts.Jumps a a) :
    (structureRegion (k + 1) ts set a).tree = .leaf .simple a [a] .nil := by
  rw [structureRegion, choosePattern_alone hr hall hself]
  rfl

/-- A region is structured by the pattern that is chosen for it. -/
theorem tree_structureRegion {pattern : Pattern}
    (h : (choosePattern ts set a).1 = pattern) :
    (structureRegion (depth + 1) ts set a).tree =
      (structureBy (structureRegion depth) ts set a pattern).tree := by
  rw [structureRegion, ← h]
  rfl

/-- An entry before a program needs a dispatch exactly if the program does. -/
theorem hasDispatch_next {p : Program} {s : Nat} (hp : p.Decides) (hr : Region ts set a)
    (hpattern : choosePattern ts set a = (.simple (some s), []))
    (h : ProgramRegion (fallInto ts a (some s)) (set.erase a) s p after ids)
    (hcard : set.toFinset.card < depth + 1) :
    (structureRegion (depth + 1) ts set a).tree.hasDispatch = !p.joins (!after.isMarker) := by
  have hsmall : (set.erase a).toFinset.card < depth :=
    card_lt_of_missing hr (Nat.le_of_lt_succ hcard) (fun x hx => (LabelSet.mem_erase.mp hx).1)
      fun hx => (LabelSet.mem_erase.mp hx).2 rfl
  rw [tree_structureRegion (congrArg Prod.fst hpattern), structureBy, structureSimple,
    tree_simpleOutcome, BlockTree.hasDispatch_simple, Option.map_some, follow,
    if_pos (LabelSet.contains_iff_mem.mpr h.region.entry_mem), hp _ _ _ _ _ _ h hsmall]

/-- What follows a block needs a dispatch exactly if the program there does. -/
theorem hasDispatch_follow {p : Program} (hp : p.Decides) {target : Option Nat} {part : LabelSet}
    (hnone : target = none → p = .done)
    (hsome : ∀ s, target = some s →
      (∃ ids, ProgramRegion ts part s p after ids) ∧ part.toFinset.card < depth) :
    (follow (structureRegion depth) ts (target.map fun s => (part, s))).tree.hasDispatch =
      !p.joins (!after.isMarker) := by
  cases target with
  | none =>
    rw [hnone rfl]
    exact BlockTree.hasDispatch_nil
  | some s =>
    obtain ⟨⟨ids, h⟩, hcard⟩ := hsome s rfl
    rw [Option.map_some, follow, if_pos (LabelSet.contains_iff_mem.mpr h.region.entry_mem)]
    exact hp _ _ _ _ _ _ h hcard

/-- A conditional needs a dispatch exactly if its parts do. -/
theorem CondParts.hasDispatch {plan : CondPlan} {first second next : Program}
    (h : CondParts ts set a plan first second next after) (hr : Region ts set a)
    (hfirst : first.Decides) (hsecond : second.Decides) (hnext : next.Decides)
    (hcard : set.toFinset.card < depth + 1) :
    (structureRegion (depth + 1) ts set a).tree.hasDispatch =
      !(first.joins false && second.joins false && next.joins (!after.isMarker)) := by
  have hs := h.split
  have hb := builder_structureRegion depth
  have hsmall : ∀ part : LabelSet, (∀ x ∈ part, x ∈ set) → a ∉ part → part.toFinset.card < depth :=
    fun part hsub hnot => card_lt_of_missing hr (Nat.le_of_lt_succ hcard) hsub hnot
  obtain ⟨k, rfl⟩ := exists_eq_succ_of_card_lt hr hcard
  have hcheck := tree_structureRegion_alone k (hs.region_entry hr)
    (fun x hx => (LabelSet.mem_single.mp hx).1) hs.not_jumps_of_entry
  have hregions : ∀ part : LabelSet, (∀ x ∈ part, x ∈ plan.regions) →
      part.toFinset.card < k + 1 := fun part hsub =>
    hsmall part (fun x hx => hs.mem_of_mem_regions (hsub x hx))
      fun hx => hs.entry_not_mem (hsub a hx)
  have hone : (structureRegion (k + 1) (markCond ts a plan) plan.firstRegion
      plan.firstArm).tree.hasDispatch = !first.joins false := by
    obtain ⟨marker, ids, hmarker, harm⟩ := h.onFirst
    have hcard := hregions plan.firstRegion fun x hx => (hs.mem_regions x).mpr (Or.inl hx)
    rw [hfirst _ _ _ _ _ _ harm hcard, hmarker]
    rfl
  have hother : ∀ ts', ts' = (structureRegion (k + 1) (markCond ts a plan) plan.firstRegion
      plan.firstArm).transfers →
      (secondArm (structureRegion (k + 1)) ts' plan.second).tree.hasDispatch =
        !second.joins false := by
    rintro ts' rfl
    cases hsec : plan.second with
    | none =>
      rw [h.second_eq hsec]
      exact BlockTree.hasDispatch_nil
    | some arm =>
      obtain ⟨marker, ids, hmarker, harm⟩ := h.onSecond arm.1 arm.2 hsec
      have hmarks := (hb.builds _ _ _ (hs.region_first hr)).marks
      have harm' := harm.marks hmarks fun x hx hfirst => hs.disjoint _ _ hsec x hfirst hx
      have hcard := hregions arm.2 fun x hx => hs.mem_regions_second hsec hx
      rw [secondArm, hsecond _ _ _ _ _ _ harm' hcard, hmarker]
      rfl
  have hrest : ∀ ts', MarksWithin (· ∈ plan.regions) (markCond ts a plan) ts' →
      (follow (structureRegion (k + 1)) ts'
        (plan.join.map fun join => (plan.rest, join))).tree.hasDispatch =
        !next.joins (!after.isMarker) := fun ts' hmarks =>
    hasDispatch_follow hnext h.next_eq fun join hj => by
      obtain ⟨ids, hregion⟩ := h.onRest join hj
      exact ⟨⟨ids, hregion.marks hmarks fun x hx => ((hs.mem_rest x).mp hx).2.2⟩,
        hsmall _ (fun x hx => ((hs.mem_rest x).mp hx).1) fun ha => ((hs.mem_rest a).mp ha).2.1 rfl⟩
  have hbuildsFirst := hb.builds _ _ _ (hs.region_first hr)
  have hbuildsSecond := builds_secondArm hb hr hs rfl
  rw [tree_structureRegion h.pattern_eq, structureBy]
  unfold structureCond
  dsimp only
  rw [(makesLeaf_check hb hr hs).transfers_eq, tree_condOutcome, BlockTree.hasDispatch_cond, hcheck,
    hone, hother _ rfl, hrest _ (Builds.marks_of_cond hs hbuildsFirst hbuildsSecond
      hbuildsFirst.marks hbuildsSecond.marks)]
  simp

/-- A loop needs a dispatch exactly if its body or what follows does. -/
theorem LoopParts.hasDispatch {plan : LoopPlan} {b : Nat} {body next : Program}
    (h : LoopParts ts set a plan b body next after) (hr : Region ts set a)
    (hbody : body.Decides) (hnext : next.Decides) (hcard : set.toFinset.card < depth + 1) :
    (structureRegion (depth + 1) ts set a).tree.hasDispatch =
      !(body.joins false && next.joins (!after.isMarker)) := by
  have hs := h.split
  have hb := builder_structureRegion depth
  have hsmall : ∀ part : LabelSet, (∀ x ∈ part, x ∈ set) → a ∉ part → part.toFinset.card < depth :=
    fun part hsub hnot => card_lt_of_missing hr (Nat.le_of_lt_succ hcard) hsub hnot
  obtain ⟨k, rfl⟩ := exists_eq_succ_of_card_lt hr hcard
  have hregion := hs.region_body hr
  have hno : ∀ x ∈ plan.body, ¬(markLoop ts a plan).Jumps x a := fun x hx =>
    LoopSplit.not_jumps_entry hx
  obtain ⟨marker, ids, hmarker, hinner⟩ := h.onBody
  have hsplit : SimpleSplit (markLoop ts a plan) plan.body a (some b) := by
    refine simpleSplit_of_jumps hregion hno (fun x _ => ?_) fun x hx => ?_
    · rw [← mem_realTargets, h.targets_eq, List.mem_singleton, Option.some.injEq, eq_comm]
    · obtain rfl := Option.some.inj hx
      exact (LabelSet.mem_erase.mp hinner.region.entry_mem).1
  have hleaf := makesLeaf_fallInto hb hregion hsplit (Or.inl rfl)
  have hinc := tree_structureRegion_alone k hleaf.region
    (fun x hx => (LabelSet.mem_single.mp hx).1)
    fun hself => hno a hs.entry_mem (jumps_fallInto.mp hself).1
  have hparts : loopParts (structureRegion (k + 1)) (markLoop ts a plan) plan.body a =
      (structureRegion (k + 1) (fallInto (markLoop ts a plan) a (some b))
          (.single (markLoop ts a plan).length a) a,
        structureRegion (k + 1) (fallInto (markLoop ts a plan) a (some b)) (plan.body.erase a)
          b) := by
    have hmem := LabelSet.contains_iff_mem.mpr hinner.region.entry_mem
    simp only [loopParts, h.targets_eq, if_pos hmem, hleaf.transfers_eq]
  obtain ⟨headTs, head, start, hhead, hmakes, hbuilds⟩ := builds_loopParts hb hregion hno
  have hmarks := Builds.marks_of_loop hr hs hhead hmakes hbuilds hbuilds.marks
  have hrest : ∀ ts', MarksWithin (· ∈ plan.body) (markLoop ts a plan) ts' →
      (follow (structureRegion (k + 1)) ts'
        (plan.pivot.map fun pivot => (plan.after, pivot))).tree.hasDispatch =
        !next.joins (!after.isMarker) := fun ts' hmarks =>
    hasDispatch_follow hnext h.next_eq fun pivot hp => by
      obtain ⟨ids, hregion⟩ := h.onRest pivot hp
      exact ⟨⟨ids, hregion.marks hmarks fun x hx hin => hs.not_mem_after x hin hx⟩,
        hsmall _ (fun x hx => hs.mem_of_mem_after hx) (hs.not_mem_after a hs.entry_mem)⟩
  have hin : (structureRegion (k + 1) (fallInto (markLoop ts a plan) a (some b))
      (plan.body.erase a) b).tree.hasDispatch = !body.joins false := by
    rw [hbody _ _ _ _ _ _ hinner (hsmall _
      (fun x hx => hs.mem_of_mem_body (LabelSet.mem_erase.mp hx).1)
      fun hx => (LabelSet.mem_erase.mp hx).2 rfl), hmarker]
    rfl
  rw [tree_structureRegion h.pattern_eq, structureBy]
  unfold structureLoop
  dsimp only
  rw [tree_loopOutcome, BlockTree.hasDispatch_loop, hrest _ hmarks, hparts, hin, hinc]
  simp

/-! ### Programs -/

/-- Without statements there is no dispatch. -/
theorem Program.decides_done : Program.done.Decides := by
  intro depth ts set a after ids h hcard
  obtain ⟨hall, hself⟩ := h.eq_entry_of_done
  obtain ⟨k, rfl⟩ := Nat.exists_eq_succ_of_ne_zero (Nat.ne_zero_of_lt hcard)
  rw [tree_structureRegion_alone k h.region hall hself]
  simp [Program.joins]

/-- **Whether a dispatch is needed can be told from the program.** -/
theorem Program.decides (p : Program) : p.Decides := by
  induction p with
  | done => exact decides_done
  | plain next ih =>
    intro depth ts set a after ids h hcard
    obtain ⟨k, rfl⟩ := Nat.exists_eq_succ_of_ne_zero (Nat.ne_zero_of_lt hcard)
    rcases h.plain with ⟨rfl, hall, hself⟩ | ⟨s, ids', hpattern, hnext⟩
    · rw [tree_structureRegion_alone k h.region hall hself]
      simp [Program.joins]
    · rw [hasDispatch_next ih h.region hpattern hnext hcard, Program.joins]
  | ifThen body next ihBody ihNext =>
    intro depth ts set a after ids h hcard
    obtain ⟨k, rfl⟩ := Nat.exists_eq_succ_of_ne_zero (Nat.ne_zero_of_lt hcard)
    rcases h.ifThen with ⟨rfl, hmarker, b, ids', hpattern, hbody⟩ | ⟨hjoin, plan, hparts⟩ |
      ⟨hjoin, hpattern⟩
    · rw [hasDispatch_next ihBody h.region hpattern hbody hcard, hmarker]
      simp [Program.joins, Program.canJoin, Program.isDone]
    · rw [hparts.hasDispatch h.region ihBody Program.decides_done ihNext hcard]
      simp [Program.joins, hjoin]
    · rw [tree_structureRegion hpattern]
      simp [Program.joins, hjoin, structureBy, dispatchLeaf]
  | ifThenElse first second next ihFirst ihSecond ihNext =>
    intro depth ts set a after ids h hcard
    obtain ⟨k, rfl⟩ := Nat.exists_eq_succ_of_ne_zero (Nat.ne_zero_of_lt hcard)
    rcases h.ifThenElse with ⟨hjoin, plan, hparts | hparts⟩ | ⟨hjoin, hpattern⟩
    · rw [hparts.hasDispatch h.region ihFirst ihSecond ihNext hcard]
      simp [Program.joins, hjoin]
    · rw [hparts.hasDispatch h.region ihSecond ihFirst ihNext hcard,
        Bool.and_comm (second.joins false)]
      simp [Program.joins, hjoin]
    · rw [tree_structureRegion hpattern]
      simp [Program.joins, hjoin, structureBy, dispatchLeaf]
  | whileLoop body next ihBody ihNext =>
    intro depth ts set a after ids h hcard
    obtain ⟨k, rfl⟩ := Nat.exists_eq_succ_of_ne_zero (Nat.ne_zero_of_lt hcard)
    obtain ⟨plan, b, hparts⟩ := h.whileLoop
    rw [hparts.hasDispatch h.region ihBody ihNext hcard, Program.joins]

section Run

variable {p : Program} {entry : Nat}

/-- The labels that the start of a program reaches are the program and what follows. -/
theorem programRegion_live {r : Nat} (h : Concludes ts p (.label r) (.label entry) ids)
    (hr : r < ts.length) :
    entry < ts.length ∧
      ProgramRegion (liveTable ts entry) (ts.live entry) entry p (.label r) ids := by
  have hlt : ∀ x, Onward ids (.label r) x → x < ts.length := by
    rintro x (hx | hx)
    · exact h.lowered.lt_length x hx
    · exact Target.label.inj hx ▸ hr
  have hentry := hlt entry h.onward_start
  have hmem : ∀ x, x ∈ ts.live entry ↔ Onward ids (.label r) x := by
    intro x
    rw [mem_live, and_iff_right hentry]
    constructor
    · intro hw
      induction hw with
      | refl => exact h.onward_start
      | tail _ hstep ih => exact h.onward_jumps ih hstep.1
    · rintro (hx | hx)
      · exact h.lowered.reached (fun _ _ y hy hxy => ⟨hxy, hlt y (Or.inl hy)⟩) entry rfl x hx
      · refine h.lowered.start_reaches hx (h.lowered.reaches hx fun y hy z hyz => ⟨hyz, ?_⟩) rfl
        exact hlt z (h.onward_jumps (Or.inl hy) hyz)
  refine ⟨hentry, region_live hentry, h.congr fun x hx => ?_, hmem⟩
  exact (marks_liveTable ts entry).at?_eq x (not_not_intro ((hmem x).mpr hx))

/-- A program that concludes at a label of the table has a dispatch exactly if a conditional of it
cannot join. -/
theorem Concludes.hasDispatch_eq {r : Nat} (h : Concludes ts p (.label r) (.label entry) ids)
    (hr : r < ts.length) : (run ts entry).1.tree.hasDispatch = !p.joins true := by
  obtain ⟨hentry, hregion⟩ := programRegion_live h hr
  have hcard : (ts.live entry).toFinset.card ≤ ts.length :=
    capacity_live ts entry ▸ LabelSet.card_le_capacity _
  have hdecided := p.decides (ts.length + 2) _ _ _ _ _ hregion (by omega)
  unfold run structureLive
  dsimp only
  rw [if_pos (LabelSet.contains_iff_mem.mpr hregion.region.entry_mem), ← liveTable]
  exact hdecided

/-- A lowered program that returns behind its last statement concludes there. -/
theorem Lowered.concludes {r : Nat} (h : Lowered ts p (.label r) (.label entry) ids)
    (hr : ts.Returns r) (hnodup : (r :: ids).Nodup) :
    Concludes ts p (.label r) (.label entry) ids where
  lowered := h
  nodup := hnodup.of_cons
  after_ne _ hx heq := (List.nodup_cons.mp hnodup).1 (Target.label.inj heq ▸ hx)
  returns _ hk := Target.label.inj hk ▸ hr

/-- **A structured program needs a dispatch exactly if a conditional cannot join**: one in a
loop or in an arm that something follows, and the last statement there cannot end. -/
theorem hasDispatch_run (ts : Transfers) (p : Program) (entry r : Nat) (ids : List Nat)
    (h : Lowered ts p (.label r) (.label entry) ids) (hr : ts.Returns r)
    (hnodup : (r :: ids).Nodup) : (run ts entry).1.tree.hasDispatch = !p.joins true := by
  obtain ⟨value, hret⟩ := hr
  exact (h.concludes ⟨value, hret⟩ hnodup).hasDispatch_eq (lt_length_of_at? hret)

/-- `while c { if d { x }; y }` and a return: the body ends at `y`, so the conditional can
join there. -/
def joiningLoop : Transfers :=
  [some (.condBranch (.ssa "c") (.label 1) (.label 4)),
    some (.condBranch (.ssa "d") (.label 2) (.label 3)), some (.branch (.label 3)),
    some (.branch (.label 0)), some (.ret none)]

/-- The loop with the joining conditional makes no dispatch. -/
theorem hasDispatch_joiningLoop :
    Lowered joiningLoop (.whileLoop (.ifThen (.plain .done) (.plain .done)) .done) (.label 4)
      (.label 0) [0, 1, 2, 3] ∧ joiningLoop.Returns 4 ∧ [4, 0, 1, 2, 3].Nodup ∧
    (run joiningLoop 0).1.tree.hasDispatch = false := by
  have hlowered : Lowered joiningLoop (.whileLoop (.ifThen (.plain .done) (.plain .done)) .done)
      (.label 4) (.label 0) [0, 1, 2, 3] := by
    exact .whileLoop (.done _) (by decide) (.ifThen (.plain (.done _) rfl) (by decide)
      (.plain (.done _) rfl) ⟨_, Or.inl rfl⟩) ⟨_, Or.inl rfl⟩
  exact ⟨hlowered, ⟨_, rfl⟩, by decide, hasDispatch_run _ _ _ _ _ hlowered ⟨_, rfl⟩ (by decide)⟩

/-- `while c { if d { x }; while e { y } }` and a return: the body ends in a loop, which goes
back to its own label. -/
def guardedLoop : Transfers :=
  [some (.condBranch (.ssa "c") (.label 1) (.label 5)),
    some (.condBranch (.ssa "d") (.label 2) (.label 3)), some (.branch (.label 3)),
    some (.condBranch (.ssa "e") (.label 4) (.label 0)), some (.branch (.label 3)),
    some (.ret none)]

/-- The body of the outer loop becomes a dispatch. -/
theorem hasDispatch_guardedLoop :
    Lowered guardedLoop
      (.whileLoop (.ifThen (.plain .done) (.whileLoop (.plain .done) .done)) .done) (.label 5)
      (.label 0) [0, 1, 2, 3, 4] ∧ guardedLoop.Returns 5 ∧ [5, 0, 1, 2, 3, 4].Nodup ∧
    (run guardedLoop 0).1.tree.hasDispatch = true := by
  have hlowered : Lowered guardedLoop
      (.whileLoop (.ifThen (.plain .done) (.whileLoop (.plain .done) .done)) .done) (.label 5)
      (.label 0) [0, 1, 2, 3, 4] := by
    exact .whileLoop (.done _) (by decide) (.ifThen (.whileLoop (.done _) (by decide)
      (.plain (.done _) rfl) ⟨_, Or.inl rfl⟩) (by decide) (.plain (.done _) rfl)
      ⟨_, Or.inl rfl⟩) ⟨_, Or.inl rfl⟩
  have hreturns : guardedLoop.Returns 5 := ⟨none, rfl⟩
  exact ⟨hlowered, hreturns, by decide,
    (hlowered.concludes hreturns (by decide)).hasDispatch_eq (by decide)⟩

end Run

end StructuredFlow
