/-
# Labels that are not reached do not matter

Structuring looks at a label only while it is in a region, and all regions lie within what
the entry reaches.  So two functions that reach the same labels, with the same transfers on
them, are structured into the same blocks and keep agreeing on those labels
(`sameOn_structured`), whatever stands in all other labels and however many there are.

The lengths of the tables enter only as capacities of sets.  Throughout, tables agree on the
labels that are reached (`AlikeOn`) and sets have the same members; the pattern is then the
same (`agrees_choosePattern`), and each part is made alike in turn (`alike_structureRegion`).
Only one of the two tables needs to be known to hold regions.  No contract is needed.
-/

import StructuredFlow.Proofs.Structuring.Agreement
import StructuredFlow.Proofs.Structuring.Depth
import StructuredFlow.Proofs.Structuring.Partition

namespace StructuredFlow

open LabelSet

namespace Transfers

/-- Two tables that have the labels with `p`, and give them the same transfers. -/
structure AlikeOn (p : Nat → Prop) (ts ts' : Transfers) : Prop where
  /-- The same transfers. -/
  at?_eq : ∀ a, p a → ts.at? a = ts'.at? a
  /-- They are labels of the one. -/
  lt_left : ∀ a, p a → a < ts.length
  /-- They are labels of the other. -/
  lt_right : ∀ a, p a → a < ts'.length

namespace AlikeOn

variable {p : Nat → Prop} {ts ts' : Transfers}

/-- Tables stay alike where the same targets are exchanged alike. -/
protected theorem retarget (h : ts.AlikeOn p ts') {q q' : Nat → Bool}
    (hq : ∀ a, p a → q a = q' a) (f : Target → Target) :
    (ts.retarget q f).AlikeOn p (ts'.retarget q' f) where
  at?_eq a ha := by rw [at?_retarget, at?_retarget, hq a ha, h.at?_eq a ha]
  lt_left a ha := by
    rw [length_retarget]
    exact h.lt_left a ha
  lt_right a ha := by
    rw [length_retarget]
    exact h.lt_right a ha

/-- Alike tables have the same targets. -/
theorem targets_eq (h : ts.AlikeOn p ts') {a : Nat} (ha : p a) : ts.targets a = ts'.targets a :=
  targets_eq_of_at? (h.at?_eq a ha)

/-- Alike tables have the same jumps. -/
theorem realTargets_eq (h : ts.AlikeOn p ts') {a : Nat} (ha : p a) :
    ts.realTargets a = ts'.realTargets a := by
  rw [realTargets, realTargets, h.targets_eq ha]

end AlikeOn

end Transfers

/-- Two results with the same blocks, which agree on the labels with `p`. -/
structure Structured.SameOn (p : Nat → Prop) (result result' : Structured) : Prop where
  /-- The same blocks. -/
  tree_eq : result.tree = result'.tree
  /-- The same transfers. -/
  at?_eq : ∀ a, p a → result.transfers.at? a = result'.transfers.at? a

namespace Structuring

open Transfers

/-- Two outcomes with the same blocks, in tables that are alike on the labels with `p`. -/
structure Outcome.AlikeOn (p : Nat → Prop) (outcome outcome' : Outcome) : Prop where
  /-- The same blocks. -/
  tree_eq : outcome.tree = outcome'.tree
  /-- The tables are alike. -/
  transfers : outcome.transfers.AlikeOn p outcome'.transfers

/-- Two functions make the same of regions that are alike. -/
def BuildAlike (p : Nat → Prop) (build build' : Transfers → LabelSet → Nat → Outcome) : Prop :=
  ∀ ts ts' set set' entry, Region ts set entry → (∀ a ∈ set, p a) → ts.AlikeOn p ts' →
    SameMembers set set' → (build ts set entry).AlikeOn p (build' ts' set' entry)

/-- The same entry is requested with the same members, or nothing is. -/
def RequestAlike : Option (LabelSet × Nat) → Option (LabelSet × Nat) → Prop :=
  Option.Rel fun region region' => SameMembers region.1 region'.1 ∧ region.2 = region'.2

/-- The labels and the entry of what is requested are given by the same label. -/
theorem requestAlike_map {set set' : LabelSet} (hs : SameMembers set set') (start : Option Nat) :
    RequestAlike (start.map fun next => (set, next)) (start.map fun next => (set', next)) := by
  cases start with
  | none => exact .none
  | some next => exact .some ⟨hs, rfl⟩

section Parts

variable {p : Nat → Prop} {build build' : Transfers → LabelSet → Nat → Outcome} {ts ts' : Transfers}
  {set set' : LabelSet} {entry : Nat}

/-! ### Passes over a table -/

/-- Tables stay alike when their entries fall into what follows. -/
theorem alike_fallInto (hts : ts.AlikeOn p ts') (entry : Nat) (next : Option Nat) :
    (fallInto ts entry next).AlikeOn p (fallInto ts' entry next) := by
  cases next with
  | none => exact hts
  | some next => exact hts.retarget (fun _ _ => rfl) _

/-- Tables stay alike when a loop is marked. -/
theorem alike_markLoop (hts : ts.AlikeOn p ts') {plan plan' : LoopPlan} (h : plan.Agrees plan')
    (entry : Nat) : (markLoop ts entry plan).AlikeOn p (markLoop ts' entry plan') := by
  rw [markLoop, markLoop, h.pivot_eq, h.body.contains_eq]
  exact hts.retarget (fun _ _ => rfl) _

/-- Tables stay alike when a loop is relaxed. -/
theorem alike_relaxLoop (hts : ts.AlikeOn p ts') (entry : Nat) (inc body : BlockTree) :
    (relaxLoop ts entry inc body).AlikeOn p (relaxLoop ts' entry inc body) :=
  hts.retarget (fun _ _ => rfl) _

/-- Tables stay alike when a conditional is marked. -/
theorem alike_markCond (hts : ts.AlikeOn p ts') {c c' : Nat} {plan plan' : CondPlan}
    (h : plan.Agrees c c' entry plan') :
    (markCond ts entry plan).AlikeOn p (markCond ts' entry plan') := by
  rw [markCond, markCond, h.join_eq, h.regions.contains_eq, h.onTrue_eq, h.onFalse_eq]
  exact (hts.retarget (fun _ _ => rfl) _).retarget (fun _ _ => rfl) _

/-- Tables stay alike when a conditional is relaxed. -/
theorem alike_relaxCond (hts : ts.AlikeOn p ts') {c c' : Nat} {plan plan' : CondPlan}
    (h : plan.Agrees c c' entry plan') (first second : BlockTree) :
    (relaxCond ts entry plan first second).AlikeOn p (relaxCond ts' entry plan' first second) := by
  rw [relaxCond, relaxCond, h.crowded_eq]
  split
  · exact hts
  · exact hts.retarget (fun _ _ => rfl) _

/-- In alike tables a conditional is breaking in both or in neither. -/
theorem isBreaking_congr (hts : ts.AlikeOn p ts') {c c' : Nat} {plan plan' : CondPlan}
    (h : plan.Agrees c c' entry plan') (hp : ∀ a ∈ plan.regions, p a) :
    isBreaking ts entry plan = isBreaking ts' entry plan' := by
  rw [isBreaking, isBreaking, h.crowded_eq, ← h.regions.toList_eq, Bool.eq_iff_iff,
    Bool.or_eq_true, Bool.or_eq_true, List.any_eq_true, List.any_eq_true]
  refine or_congr_right (exists_congr fun a => and_congr_right fun ha => ?_)
  rw [hts.targets_eq (hp a (mem_toList.mp ha))]

/-! ### Putting outcomes together -/

section Outcomes

variable {inc inc' body body' check check' first first' second second' rest rest' : Outcome}

/-- Loops with alike parts are alike. -/
theorem alike_loopOutcome {plan plan' : LoopPlan} (hplan : plan.Agrees plan')
    (hinc : inc.AlikeOn p inc') (hbody : body.AlikeOn p body') (hrest : rest.AlikeOn p rest') :
    (loopOutcome entry plan inc body rest).AlikeOn p
      (loopOutcome entry plan' inc' body' rest') where
  tree_eq := by
    rw [tree_loopOutcome, tree_loopOutcome, hinc.tree_eq, hbody.tree_eq, hrest.tree_eq,
      hplan.body.toList_eq]
  transfers := hrest.transfers

/-- Conditionals with alike parts are alike. -/
theorem alike_condOutcome {c c' : Nat} {plan plan' : CondPlan}
    (hplan : plan.Agrees c c' entry plan')
    {breaking breaking' : Bool} (hbreaking : breaking = breaking') (hcheck : check.AlikeOn p check')
    (hfirst : first.AlikeOn p first') (hsecond : second.AlikeOn p second')
    (hrest : rest.AlikeOn p rest') : (condOutcome entry plan breaking check first second
      rest).AlikeOn p (condOutcome entry plan' breaking' check' first' second' rest') where
  tree_eq := by
    rw [tree_condOutcome, tree_condOutcome, hcheck.tree_eq, hfirst.tree_eq, hsecond.tree_eq,
      hrest.tree_eq, hplan.test_eq, hplan.labels.toList_eq, hbreaking]
  transfers := hrest.transfers

end Outcomes

/-! ### What is requested -/

variable (hbuild : BuildAlike p build build')
include hbuild

/-- To go on with alike requests leads to alike outcomes. -/
theorem alike_follow (hts : ts.AlikeOn p ts') {request request' : Option (LabelSet × Nat)}
    (hreq : RequestAlike request request')
    (hr : ∀ set entry, request = some (set, entry) → Region ts set entry)
    (hp : ∀ a, InRequest request a → p a) :
    (follow build ts request).AlikeOn p (follow build' ts' request') := by
  cases hreq with
  | none => exact ⟨rfl, hts⟩
  | @some region region' h =>
    obtain ⟨set, entry⟩ := region
    obtain ⟨set', entry'⟩ := region'
    obtain ⟨hs, rfl⟩ := h
    have hmem := (hr set entry rfl).entry_mem
    rw [follow, follow, if_pos (contains_iff_mem.mpr hmem),
      if_pos (contains_iff_mem.mpr ((hs entry).mp hmem))]
    exact hbuild ts ts' set set' entry (hr set entry rfl) hp hts hs

/-- Simple entries of alike regions lead to alike outcomes. -/
theorem alike_structureSimple (hr : Region ts set entry) (hp : ∀ a ∈ set, p a)
    (hts : ts.AlikeOn p ts') (hset : SameMembers set set') {next : Option Nat}
    (hs : SimpleSplit ts set entry next) :
    (structureSimple build ts set entry next).AlikeOn p
      (structureSimple build' ts' set' entry next) := by
  have hrest := alike_follow hbuild (alike_fallInto hts entry next)
    (requestAlike_map (hset.erase entry) next) (fun _ _ h => hs.region_tail hr (Or.inl rfl) h)
    fun a ha => hp a ((hs.mem_request hr a).mpr (Or.inr ha))
  exact ⟨congrArg (BlockTree.leaf .simple entry [entry]) hrest.tree_eq, hrest.transfers⟩

/-- Alike bodies have alike parts. -/
theorem alike_loopParts (hb : Builder build) (hr : Region ts set entry)
    (hno : ∀ a ∈ set, ¬ts.Jumps a entry) (hp : ∀ a ∈ set, p a) (hts : ts.AlikeOn p ts')
    (hset : SameMembers set set') :
    (loopParts build ts set entry).1.AlikeOn p (loopParts build' ts' set' entry).1 ∧
      (loopParts build ts set entry).2.AlikeOn p (loopParts build' ts' set' entry).2 := by
  have hentry := hp entry hr.entry_mem
  have htargets := (hts.realTargets_eq hentry).symm
  rcases loopParts_cases hr hno with ⟨next, target, hs, -, htarget, heq⟩ | ⟨count, heq⟩
  · rw [heq build ts set rfl fun _ => Iff.rfl, heq build' ts' set' htargets hset]
    have hleaf := makesLeaf_fallInto hb hr hs htarget
    have hinc := hbuild _ _ _ _ entry hleaf.region
      (fun a ha => (mem_single.mp ha).1 ▸ hentry) (alike_fallInto hts entry target)
      (SameMembers.single (hts.lt_left entry hentry) (hts.lt_right entry hentry))
    refine ⟨hinc, alike_follow hbuild hinc.transfers (requestAlike_map (hset.erase entry) next)
      (fun _ _ h => ?_) fun a ha => hp a ((hs.mem_request hr a).mpr (Or.inr ha))⟩
    rw [hleaf.transfers_eq]
    exact hs.region_tail hr htarget h
  · rw [heq build ts set rfl, heq build' ts' set' htargets, dispatchLeaf, dispatchLeaf,
      hset.toList_eq]
    exact ⟨⟨rfl, hts⟩, ⟨rfl, hts⟩⟩

/-- Loops over alike regions lead to alike outcomes. -/
theorem alike_structureLoop (hb : Builder build) (hr : Region ts set entry) (hp : ∀ a ∈ set, p a)
    (hts : ts.AlikeOn p ts') {plan plan' : LoopPlan} (hplan : plan.Agrees plan')
    (hs : LoopSplit ts set entry plan) :
    (structureLoop build ts entry plan).AlikeOn p (structureLoop build' ts' entry plan') := by
  obtain ⟨hinc, hbody⟩ := alike_loopParts hbuild hb (hs.region_body hr)
    (fun a ha => LoopSplit.not_jumps_entry ha) (fun a ha => hp a (hs.mem_of_mem_body ha))
    (alike_markLoop hts hplan entry) hplan.body
  have hrelaxed := alike_relaxLoop hbody.transfers entry
    (loopParts build (markLoop ts entry plan) plan.body entry).1.tree
    (loopParts build (markLoop ts entry plan) plan.body entry).2.tree
  have hrest := alike_follow hbuild hrelaxed (requestAlike_map hplan.after plan.pivot)
    (fun _ _ h => region_behind_loop hb hr hs h)
    fun a ha => hp a ((hs.mem_request a).mpr (Or.inr ha))
  unfold structureLoop
  dsimp only
  rw [← hinc.tree_eq, ← hbody.tree_eq, ← hplan.pivot_eq]
  exact alike_loopOutcome hplan hinc hbody hrest

/-- Alike second arms lead to alike outcomes. -/
theorem alike_secondArm (hts : ts.AlikeOn p ts') {c c' : Nat}
    {second second' : Option (Nat × LabelSet)}
    (h : Option.Rel (ArmsAgree c c') second second')
    (hr : ∀ arm region, second = some (arm, region) → Region ts region arm)
    (hp : ∀ arm region, second = some (arm, region) → ∀ a ∈ region, p a) :
    (secondArm build ts second).AlikeOn p (secondArm build' ts' second') := by
  cases h with
  | none => exact ⟨rfl, hts⟩
  | @some arm arm' h =>
    obtain ⟨start, region⟩ := arm
    obtain ⟨start', region'⟩ := arm'
    obtain ⟨rfl, hregion, _, _⟩ := h
    exact hbuild _ _ _ _ _ (hr _ _ rfl) (hp _ _ rfl) hts hregion

/-- Conditionals over alike regions lead to alike outcomes. -/
theorem alike_structureCond (hb : Builder build) (hr : Region ts set entry) (hp : ∀ a ∈ set, p a)
    (hts : ts.AlikeOn p ts') {c c' : Nat} {plan plan' : CondPlan}
    (hplan : plan.Agrees c c' entry plan') (hs : CondSplit ts set entry plan) :
    (structureCond build ts entry plan).AlikeOn p (structureCond build' ts' entry plan') := by
  have hentry := hp entry hr.entry_mem
  have hregions : ∀ a ∈ plan.regions, p a := fun a ha => hp a (hs.mem_of_mem_regions ha)
  have hleaf := makesLeaf_check hb hr hs
  have hcheck := hbuild _ _ _ _ entry hleaf.region (fun a ha => (mem_single.mp ha).1 ▸ hentry)
    (alike_markCond hts hplan)
    (SameMembers.single (hts.lt_left entry hentry) (hts.lt_right entry hentry))
  have hmarked := hcheck.transfers
  rw [hleaf.transfers_eq] at hmarked
  have hfirst := hbuild _ _ _ _ plan.firstArm (hs.region_first hr)
    (fun a ha => hregions a ((hs.mem_request_regions a).mpr (Or.inl ha))) hmarked hplan.firstRegion
  have hsecond := alike_secondArm hbuild hfirst.transfers hplan.second
    (fun _ _ h => region_second_arm hb hr hs h)
    fun _ _ h a ha => hregions a (hs.mem_regions_second h ha)
  have hrelaxed := alike_relaxCond hsecond.transfers hplan
    (build (markCond ts entry plan) plan.firstRegion plan.firstArm).tree
    (secondArm build (build (markCond ts entry plan) plan.firstRegion plan.firstArm).transfers
      plan.second).tree
  have hrest := alike_follow hbuild hrelaxed (requestAlike_map hplan.rest plan.join)
    (fun _ _ h => region_behind_cond hb hr hs h)
    fun a ha => hp a ((hs.mem_request hr a).mpr (Or.inr (Or.inr ha)))
  unfold structureCond
  dsimp only
  rw [hleaf.transfers_eq, ← hplan.firstArm_eq, ← hfirst.tree_eq, ← hsecond.tree_eq, ← hplan.join_eq]
  exact alike_condOutcome hplan (isBreaking_congr hrelaxed hplan hregions) hcheck hfirst hsecond
    hrest

/-- **Patterns that agree make outcomes that are alike.** -/
theorem alike_structureBy (hb : Builder build) (hr : Region ts set entry) (hp : ∀ a ∈ set, p a)
    (hts : ts.AlikeOn p ts') (hset : SameMembers set set') {c c' : Nat}
    {pattern pattern' : Pattern} (hplan : pattern.Agrees c c' entry pattern')
    (hs : pattern.Splits ts set entry) :
    (structureBy build ts set entry pattern).AlikeOn p
      (structureBy build' ts' set' entry pattern') := by
  cases hplan with
  | simple next => exact alike_structureSimple hbuild hr hp hts hset hs
  | loop hplan => exact alike_structureLoop hbuild hb hr hp hts hplan hs
  | cond hplan => exact alike_structureCond hbuild hb hr hp hts hplan hs
  | dispatch =>
    refine ⟨?_, hts⟩
    rw [structureBy, structureBy, dispatchLeaf, dispatchLeaf, hset.toList_eq]

end Parts

/-- **Regions that are alike are structured alike**, at any depth. -/
theorem alike_structureRegion (p : Nat → Prop) (depth : Nat) :
    BuildAlike p (structureRegion depth) (structureRegion depth) := by
  induction depth with
  | zero =>
    intro ts ts' set set' entry _ _ hts hset
    refine ⟨?_, hts⟩
    rw [structureRegion, structureRegion, dispatchLeaf, dispatchLeaf, hset.toList_eq]
  | succ depth ih =>
    intro ts ts' set set' entry hr hp hts hset
    have hpattern := agrees_choosePattern hr.lt_length
      (fun a ha => hts.lt_right a (hp a ((hset a).mpr ha))) hset
      (fun a ha => hts.at?_eq a (hp a ha)) hr.entry_mem
    have houtcome := alike_structureBy ih (builder_structureRegion depth) hr hp hts hset hpattern
      (splits_choosePattern hr)
    rw [structureRegion, structureRegion]
    exact ⟨houtcome.tree_eq, houtcome.transfers⟩

/-! ### Functions that reach the same labels -/

section Live

variable {ts ts' : Transfers} {entry : Nat}
  (hreaches : ∀ a, ts.Reaches entry a ↔ ts'.Reaches entry a)
  (hat : ∀ a, ts.Reaches entry a → ts.at? a = ts'.at? a)

include hreaches

/-- From the entry the same labels are reached in both tables. -/
theorem sameMembers_live : SameMembers (ts.live entry) (ts'.live entry) := fun a => by
  rw [mem_live_iff_reaches, mem_live_iff_reaches, hreaches a]

include hat

/-- What the entry reaches is alike in both tables. -/
theorem alike_liveTable :
    (liveTable ts entry).AlikeOn (ts.Reaches entry) (liveTable ts' entry) := by
  have halike : ts.AlikeOn (ts.Reaches entry) ts' :=
    ⟨hat, fun a ha => ha.1, fun a ha => ((hreaches a).mp ha).1⟩
  refine halike.retarget (fun a _ => ?_) _
  rw [(sameMembers_live hreaches).contains_eq]

/-- Two functions are structured alike by whatever makes the same of regions that are alike. -/
theorem sameOn_structureLive {build build' : Transfers → LabelSet → Nat → Outcome}
    (hbuild : BuildAlike (ts.Reaches entry) build build') :
    (structureLive build ts entry).1.SameOn (ts.Reaches entry)
      (structureLive build' ts' entry).1 := by
  have hlive := sameMembers_live hreaches
  have htables := alike_liveTable hreaches hat
  by_cases hentry : entry < ts.length
  · have hr := region_live hentry
    have houtcome := hbuild _ _ _ _ entry hr (fun a ha => mem_live_iff_reaches.mp ha) htables hlive
    have hmem := hr.entry_mem
    unfold structureLive
    dsimp only
    rw [← liveTable, ← liveTable, if_pos (contains_iff_mem.mpr hmem),
      if_pos (contains_iff_mem.mpr ((hlive entry).mp hmem))]
    exact ⟨houtcome.tree_eq, houtcome.transfers.at?_eq⟩
  · have hentry' : ¬entry < ts'.length := fun h =>
      hentry ((hreaches entry).mpr ⟨h, Relation.ReflTransGen.refl⟩).1
    rw [structureLive_of_le (Nat.not_lt.mp hentry), structureLive_of_le (Nat.not_lt.mp hentry')]
    exact ⟨rfl, htables.at?_eq⟩

end Live

/-- **Labels that are not reached do not matter.**  Two functions that reach the same labels
from an entry, with the same transfers on them, are structured into the same blocks, with the
same transfers on those labels afterwards; and so they are when all labels are put into one
dispatch. -/
theorem sameOn_structured (f f' : Function) (entry : Nat)
    (hreaches : ∀ a, Transfers.Reaches f.transfers entry a ↔ Transfers.Reaches f'.transfers entry a)
    (hat : ∀ a, Transfers.Reaches f.transfers entry a →
      Transfers.at? f.transfers a = Transfers.at? f'.transfers a) :
    (run f.transfers entry).1.SameOn (Transfers.Reaches f.transfers entry)
        (run f'.transfers entry).1 ∧
      (flat f.transfers entry).1.SameOn (Transfers.Reaches f.transfers entry)
        (flat f'.transfers entry).1 := by
  constructor
  · have hdepth : f.transfers.length < max f.transfers.length f'.transfers.length + 1 :=
      Nat.lt_succ_of_le (Nat.le_max_left _ _)
    have hdepth' : f'.transfers.length < max f.transfers.length f'.transfers.length + 1 :=
      Nat.lt_succ_of_le (Nat.le_max_right _ _)
    rw [← run_eq_of_length_lt _ _ hdepth, ← run_eq_of_length_lt _ _ hdepth']
    exact sameOn_structureLive hreaches hat (alike_structureRegion _ _)
  · refine sameOn_structureLive hreaches hat fun ts ts' set set' start _ _ hts hset => ⟨?_, hts⟩
    dsimp only
    rw [dispatchLeaf, dispatchLeaf, hset.toList_eq]

/-- The same loop, with a label that nothing leads to and that leads into it. -/
def shadowed : Function :=
  .ofLabels "shadowed" ["n"]
    [("head", [{ action := .transfer (.condBranch (.ssa "n") (.label 0) (.label 1)) }]),
      ("exit", [{ action := .transfer (.ret none) }]),
      ("lost", [{ action := .transfer (.condBranch (.ssa "n") (.label 1) (.label 0)) }])]

/-- The label that is lost changes nothing about the loop. -/
theorem sameOn_shadowed :
    (∀ a, Transfers.Reaches Function.repeating.transfers 0 a ↔
      Transfers.Reaches shadowed.transfers 0 a) ∧
    (∀ a, Transfers.Reaches Function.repeating.transfers 0 a →
      Transfers.at? Function.repeating.transfers a = Transfers.at? shadowed.transfers a) ∧
    (run Function.repeating.transfers 0).1.SameOn (Transfers.Reaches Function.repeating.transfers 0)
      (run shadowed.transfers 0).1 := by
  have hlive : Transfers.live Function.repeating.transfers 0 = .ofIds 2 [0, 1] := by decide_cbv
  have hlive' : Transfers.live shadowed.transfers 0 = .ofIds 3 [0, 1] := by decide_cbv
  have hreaches : ∀ a, Transfers.Reaches Function.repeating.transfers 0 a ↔
      Transfers.Reaches shadowed.transfers 0 a := fun a => by
    rw [← mem_live_iff_reaches, ← mem_live_iff_reaches, hlive, hlive']
    exact SameMembers.ofIds (by decide) (by decide) a
  have hsame : ∀ a < 2, Transfers.at? Function.repeating.transfers a =
      Transfers.at? shadowed.transfers a := by decide
  have hat : ∀ a, Transfers.Reaches Function.repeating.transfers 0 a →
      Transfers.at? Function.repeating.transfers a = Transfers.at? shadowed.transfers a :=
    fun a ha => hsame a ha.1
  exact ⟨hreaches, hat, (sameOn_structured Function.repeating shadowed 0 hreaches hat).1⟩

end Structuring
end StructuredFlow
