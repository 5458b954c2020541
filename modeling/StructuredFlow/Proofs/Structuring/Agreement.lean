/-
# What a pattern is chosen by

The pattern of a region is chosen by what is recorded of its labels, and each choice looks at
edges and at members of sets alone.  So records that are alike lead to the same decisions,
with sets of the same members in them:

| choice | agrees by |
| --- | --- |
| the order of candidates | `comesBefore_congr` |
| the body of a loop and the label behind it | `agrees_loopPlan?` |
| the arms of a conditional and the join | `agrees_condPlan?` |
| the pattern | `agrees_choosePattern` |
-/

import StructuredFlow.Proofs.Flow.Agreement
import StructuredFlow.Proofs.Structuring.Choice

namespace StructuredFlow
namespace Structuring

open LabelSet Relation

/-- The records of all labels are alike. -/
def FlowsAlike (flows flows' : List Flow) : Prop :=
  ∀ a, (flowAt flows a).Alike (flowAt flows' a)

/-- The same label, with sets of the same members that have two given capacities. -/
structure ArmsAgree (c c' : Nat) (arm arm' : Nat × LabelSet) : Prop where
  /-- The same label. -/
  start_eq : arm.1 = arm'.1
  /-- The same members. -/
  labels : SameMembers arm.2 arm'.2
  /-- The one capacity. -/
  capacity_left : arm.2.capacity = c
  /-- The other capacity. -/
  capacity_right : arm'.2.capacity = c'

/-- Two plans of the same loop. -/
structure LoopPlan.Agrees (plan plan' : LoopPlan) : Prop where
  /-- The same labels make the body. -/
  body : SameMembers plan.body plan'.body
  /-- The same label follows. -/
  pivot_eq : plan.pivot = plan'.pivot
  /-- The same labels are left for it. -/
  after : SameMembers plan.after plan'.after

/-- Two plans of the same conditional at an entry. -/
structure CondPlan.Agrees (c c' entry : Nat) (plan plan' : CondPlan) : Prop where
  /-- The same test. -/
  test_eq : plan.test = plan'.test
  /-- The same target when the value is true. -/
  onTrue_eq : plan.onTrue = plan'.onTrue
  /-- The same target when the value is false. -/
  onFalse_eq : plan.onFalse = plan'.onFalse
  /-- The same first arm. -/
  firstArm_eq : plan.firstArm = plan'.firstArm
  /-- It has the same labels. -/
  firstRegion : SameMembers plan.firstRegion plan'.firstRegion
  /-- The same second arm with the same labels, or none. -/
  second : Option.Rel (ArmsAgree c c') plan.second plan'.second
  /-- The same label follows. -/
  join_eq : plan.join = plan'.join
  /-- The same labels are in the arms. -/
  regions : SameMembers plan.regions plan'.regions
  /-- The same labels make the block. -/
  labels : SameMembers (plan.regions.insert entry) (plan'.regions.insert entry)
  /-- The same labels are left for what follows. -/
  rest : SameMembers plan.rest plan'.rest
  /-- Both are crowded or neither is. -/
  crowded_eq : plan.crowded = plan'.crowded

/-- Two patterns for the same first block at an entry. -/
inductive Pattern.Agrees (c c' entry : Nat) : Pattern → Pattern → Prop
  | simple (next : Option Nat) : Agrees c c' entry (.simple next) (.simple next)
  | loop {plan plan' : LoopPlan} (h : plan.Agrees plan') :
      Agrees c c' entry (.loop plan) (.loop plan')
  | cond {plan plan' : CondPlan} (h : plan.Agrees c c' entry plan') :
      Agrees c c' entry (.cond plan) (.cond plan')
  | dispatch : Agrees c c' entry .dispatch .dispatch

section Choices

variable {flows flows' : List Flow} (hf : FlowsAlike flows flows') {set set' : LabelSet}
  (hs : SameMembers set set') {entry : Nat}

include hf

/-! ### The order of candidates -/

/-- Alike records count the same labels. -/
theorem mustCount_congr : mustCount flows = mustCount flows' := by
  funext a
  exact (hf a).mustGetTo.size_eq

/-- Alike records order candidates alike. -/
theorem comesBefore_congr : comesBefore flows = comesBefore flows' := by
  funext a b
  rw [comesBefore, comesBefore, mustCount_congr hf]

/-- From the same candidates alike records choose the same. -/
theorem firstCandidate?_congr {ids ids' : List Nat} (h : ids = ids') :
    firstCandidate? flows ids = firstCandidate? flows' ids' := by
  subst h
  cases ids with
  | nil => rfl
  | cons id ids => rw [firstCandidate?, firstCandidate?, comesBefore_congr hf]

/-! ### Searching with a label to avoid -/

/-- Around a label the same can be reached by alike records. -/
theorem sameMembers_reachAvoiding {capacity capacity' : Nat} {within within' : LabelSet}
    (hw : SameMembers within within') (hlt : ∀ a ∈ within, a < capacity)
    (hlt' : ∀ a ∈ within', a < capacity') (starts : List Nat) (avoid : Nat) :
    SameMembers (reachAvoiding flows capacity starts within avoid)
      (reachAvoiding flows' capacity' starts within' avoid) := by
  have hbound : ∀ ids : List Nat, ∀ b ∈ ids.filter fun id => id != avoid && within'.contains id,
      (b < capacity ↔ b < capacity') := fun ids b hb => by
    have hmem : b ∈ within' := (Bool.and_eq_true_iff.mp (List.mem_filter.mp hb).2).2
    exact iff_of_true (hlt b ((hw b).mpr hmem)) (hlt' b hmem)
  have hnext : (fun id => (flowAt flows id).outLabels.filter
      fun id => id != avoid && within.contains id) =
      fun id => (flowAt flows' id).outLabels.filter
        fun id => id != avoid && within'.contains id := by
    funext a
    rw [(hf a).outLabels_eq, hw.contains_eq]
  have hstep : StepBelow (fun id => (flowAt flows' id).outLabels.filter
      fun id => id != avoid && within'.contains id) capacity =
      StepBelow (fun id => (flowAt flows' id).outLabels.filter
        fun id => id != avoid && within'.contains id) capacity' := by
    funext a b
    exact propext (and_congr_right fun hb => hbound _ b hb)
  intro a
  rw [reachAvoiding, reachAvoiding, mem_reach_empty, mem_reach_empty, hnext, hstep, hw.contains_eq]
  exact exists_congr fun s => and_congr_right fun hmem => and_congr_left' (hbound _ s hmem)

/-! ### Blocks of their own -/

include hs

/-- Alike records agree on what follows a simple entry. -/
theorem simpleNext?_congr (entry : Nat) :
    simpleNext? flows set entry = simpleNext? flows' set' entry := by
  rw [simpleNext?, simpleNext?, (hf entry).inLabels_eq, (hf entry).outLabels_eq,
    (hs.erase entry).isEmpty_eq]

/-! ### Loops -/

/-- Alike records agree on the labels of a loop. -/
theorem sameMembers_loopCore (entry : Nat) :
    SameMembers (loopCore flows set entry) (loopCore flows' set' entry) := fun a => by
  rw [loopCore, loopCore, mem_ofIds, mem_ofIds, List.mem_filter, List.mem_filter, hs.toList_eq,
    (hf a).allOut.contains_eq]
  refine and_congr_right fun h => ?_
  have ha := mem_toList.mp h.1
  exact iff_of_true (lt_capacity_of_mem ((hs a).mpr ha)) (lt_capacity_of_mem ha)

omit hs in
/-- Alike records agree on where a loop is left. -/
theorem sameMembers_loopExits {core core' outsiders outsiders' : LabelSet}
    (hcore : SameMembers core core') (hout : SameMembers outsiders outsiders')
    (hlt : ∀ a ∈ outsiders, a < core.capacity) (hlt' : ∀ a ∈ outsiders', a < core'.capacity) :
    SameMembers (loopExits flows core outsiders) (loopExits flows' core' outsiders') := by
  have hids : (core.toList.flatMap fun id => (flowAt flows id).outLabels.filter
      outsiders.contains) = core'.toList.flatMap fun id => (flowAt flows' id).outLabels.filter
        outsiders'.contains := by
    rw [hcore.toList_eq, hout.contains_eq]
    exact List.flatMap_congr fun id _ => by rw [(hf id).outLabels_eq]
  have hmem : ∀ a ∈ core'.toList.flatMap fun id => (flowAt flows' id).outLabels.filter
      outsiders'.contains, a ∈ outsiders' := fun a ha => by
    obtain ⟨id, _, ha⟩ := List.mem_flatMap.mp ha
    exact (List.mem_filter.mp ha).2
  rw [loopExits, loopExits, hids]
  exact SameMembers.ofIds (fun a ha => hlt a ((hout a).mpr (hmem a ha)))
    fun a ha => hlt' a (hmem a ha)

omit hs in
/-- Alike records agree on the candidates for the pivot, in order. -/
theorem pivotCandidates_congr {core core' outsiders outsiders' exits exits' : LabelSet}
    (hcore : SameMembers core core') (hout : SameMembers outsiders outsiders')
    (hexits : SameMembers exits exits') :
    pivotCandidates flows core outsiders exits =
      pivotCandidates flows' core' outsiders' exits' := by
  have hforced : (outsiders.toList.filter fun outsider =>
      core.toList.all fun id => (flowAt flows id).mustGetTo.contains outsider) =
      outsiders'.toList.filter fun outsider =>
        core'.toList.all fun id => (flowAt flows' id).mustGetTo.contains outsider := by
    rw [hout.toList_eq, hcore.toList_eq]
    simp only [(hf _).mustGetTo.contains_eq]
  rw [pivotCandidates, pivotCandidates, hforced, hexits.toList_eq, comesBefore_congr hf]

omit hs in
/-- **Alike records agree on the pivot**, and on what is left of the exits. -/
theorem agrees_choosePivot {outsiders outsiders' exits exits' : LabelSet}
    (hout : SameMembers outsiders outsiders') (hexits : SameMembers exits exits')
    {candidates candidates' : List Nat} (h : candidates = candidates') :
    Option.Rel (ArmsAgree outsiders.capacity outsiders'.capacity)
      (choosePivot flows outsiders exits candidates).1
      (choosePivot flows' outsiders' exits' candidates').1 := by
  subst h
  induction candidates with
  | nil => exact .none
  | cons pivot others ih =>
    have hext : SameMembers _ _ := sameMembers_reachAvoiding hf hout
      (fun _ ha => lt_capacity_of_mem ha) (fun _ ha => lt_capacity_of_mem ha) exits.toList pivot
    rw [hexits.toList_eq] at hext
    have hback := (hf pivot).allOut.disjoint_eq hext
    rw [choosePivot, choosePivot]
    dsimp only
    rw [hexits.toList_eq, hback]
    split
    · exact .some ⟨rfl, hext, capacity_reachAvoiding .., capacity_reachAvoiding ..⟩
    · exact ih

/-- **Alike records agree on the plan of a loop.** -/
theorem agrees_loopPlan? (entry : Nat) : Option.Rel LoopPlan.Agrees
    (loopPlan? flows set entry).1 (loopPlan? flows' set' entry).1 := by
  have hcapacity : ∀ (flows : List Flow) (set : LabelSet),
      (loopCore flows set entry).capacity = set.capacity := fun flows set => capacity_ofIds _ _
  have hlt : ∀ (flows : List Flow) (set : LabelSet), ∀ a ∈ set.diff (loopCore flows set entry),
      a < (loopCore flows set entry).capacity := fun flows set a ha => by
    rw [hcapacity]
    exact lt_capacity_of_mem (mem_diff.mp ha).1
  have hcore := sameMembers_loopCore hf hs entry
  have hout := hs.diff hcore
  have hexits := sameMembers_loopExits hf hcore hout (hlt flows set) (hlt flows' set')
  have hchosen := agrees_choosePivot hf hout hexits (pivotCandidates_congr hf hcore hout hexits)
  rw [loopPlan?, loopPlan?]
  dsimp only
  rw [(hf entry).allIn.contains_eq, hexits.isEmpty_eq]
  split
  · exact .none
  · split
    · exact .some ⟨hcore, rfl, hout⟩
    · generalize choosePivot flows _ _ _ = chosen at hchosen ⊢
      generalize choosePivot flows' _ _ _ = chosen' at hchosen ⊢
      obtain ⟨found, events⟩ := chosen
      obtain ⟨found', events'⟩ := chosen'
      cases hchosen with
      | none => exact .none
      | @some arm arm' h =>
        obtain ⟨pivot, extension⟩ := arm
        obtain ⟨pivot', extension'⟩ := arm'
        obtain ⟨rfl, hext, hcap, hcap'⟩ := h
        refine .some ⟨hcore.union hext (fun a ha => ?_) fun a ha => ?_, rfl, hout.diff hext⟩
        · rw [hcapacity, ← capacity_diff, ← hcap]
          exact lt_capacity_of_mem ha
        · rw [hcapacity, ← capacity_diff, ← hcap']
          exact lt_capacity_of_mem ha

/-! ### Conditionals -/

omit hs in
/-- Alike records agree on the arms of a conditional. -/
theorem chooseArms_congr (onTrue onFalse : Nat) :
    chooseArms flows onTrue onFalse = chooseArms flows' onTrue onFalse := by
  have hcommon := (hf onTrue).mustGetTo.inter (hf onFalse).mustGetTo
  rw [chooseArms, chooseArms, (hf onTrue).mustGetTo.contains_eq, (hf onFalse).mustGetTo.contains_eq,
    firstCandidate?_congr hf hcommon.toList_eq]

omit hs in
/-- Alike records agree on whether the arms are crowded. -/
theorem isCrowded_congr (second join : Option Nat) :
    isCrowded flows second join = isCrowded flows' second join := by
  unfold isCrowded
  split
  next join => rw [(hf join).allIn.toList_eq]
  next => rfl

omit hs in
/-- Alike records agree on whether the arms reach beyond the join. -/
theorem disjoint_beyondJoin_congr {regions regions' : LabelSet} (hr : SameMembers regions regions')
    {c c' : Nat} (hlt : ∀ a ∈ regions, a < c) (hlt' : ∀ a ∈ regions', a < c') (join : Option Nat) :
    regions.disjoint (beyondJoin flows c join) = regions'.disjoint (beyondJoin flows' c' join) := by
  cases join with
  | none => exact hr.disjoint_eq (.empty c c')
  | some join =>
    rw [Bool.eq_iff_iff, disjoint_iff, disjoint_iff]
    refine forall_congr' fun a => ?_
    rw [← hr a]
    refine imp_congr_right fun ha => not_congr ?_
    rw [mem_beyondJoin_some (hlt a ha), mem_beyondJoin_some (hlt' a ((hr a).mp ha))]
    exact or_congr_left ((hf join).allOut a)

omit hf hs in
/-- The labels of a second arm, of which there are none without the arm. -/
theorem agrees_secondArm {region region' : Nat → LabelSet} {c c' : Nat}
    (h : ∀ arm, SameMembers (region arm) (region' arm)) (hcap : ∀ arm, (region arm).capacity = c)
    (hcap' : ∀ arm, (region' arm).capacity = c') (second : Option Nat) :
    Option.Rel (ArmsAgree c c') (second.map fun arm => (arm, region arm))
        (second.map fun arm => (arm, region' arm)) ∧
      SameMembers (((second.map fun arm => (arm, region arm)).map Prod.snd).getD (.empty c))
        (((second.map fun arm => (arm, region' arm)).map Prod.snd).getD (.empty c')) ∧
      (((second.map fun arm => (arm, region arm)).map Prod.snd).getD (.empty c)).capacity = c ∧
      (((second.map fun arm => (arm, region' arm)).map Prod.snd).getD (.empty c')).capacity =
        c' := by
  cases second with
  | none => exact ⟨.none, .empty c c', rfl, rfl⟩
  | some arm => exact ⟨.some ⟨rfl, h arm, hcap arm, hcap' arm⟩, h arm, hcap arm, hcap' arm⟩

/-- **Alike records agree on the plan of a conditional**, if the entry has the same control
transfer. -/
theorem agrees_condPlan? {ts ts' : Transfers} (hat : ts.at? entry = ts'.at? entry)
    (hlt : ∀ a ∈ set, a < ts.length) (hlt' : ∀ a ∈ set', a < ts'.length)
    (hentry : entry < ts.length) (hentry' : entry < ts'.length) :
    Option.Rel (CondPlan.Agrees ts.length ts'.length entry) (condPlan? flows ts set entry).1
      (condPlan? flows' ts' set' entry).1 := by
  unfold condPlan?
  dsimp only
  rw [(hf entry).outLabels_eq, (hf entry).allIn.contains_eq, hat]
  split
  · exact .none
  · cases choice? (ts'.at? entry) with
    | none => exact .none
    | some targets =>
      obtain ⟨condition, onTrue, onFalse⟩ := targets
      dsimp only
      rw [chooseArms_congr hf]
      obtain ⟨firstArm, secondArm, join, negated⟩ := chooseArms flows' onTrue onFalse
      dsimp only
      have hregion := fun arm => sameMembers_reachAvoiding hf hs hlt hlt' [arm] (join.getD entry)
      obtain ⟨hsecond, htwo, hcap, hcap'⟩ := agrees_secondArm hregion
        (fun arm => capacity_reachAvoiding ..) (fun arm => capacity_reachAvoiding ..) secondArm
      have hregions := (hregion firstArm).union htwo
        (fun a ha => by rw [capacity_reachAvoiding, ← hcap]; exact lt_capacity_of_mem ha)
        fun a ha => by rw [capacity_reachAvoiding, ← hcap']; exact lt_capacity_of_mem ha
      have hrest := (hs.erase entry).diff hregions
      have hbeyond := disjoint_beyondJoin_congr hf hregions (fun a ha => (mem_union.mp ha).1)
        (fun a ha => (mem_union.mp ha).1) join
      simp only [capacity_reachAvoiding] at hbeyond
      rw [htwo.disjoint_eq (hregion firstArm), hregions.contains_eq, hbeyond, hrest.isEmpty_eq]
      split
      · exact .none
      · split
        · exact .none
        · exact .some
            { test_eq := rfl
              onTrue_eq := rfl
              onFalse_eq := rfl
              firstArm_eq := rfl
              firstRegion := hregion firstArm
              second := hsecond
              join_eq := rfl
              regions := hregions
              labels := hregions.insert (by simpa) (by simpa)
              rest := hrest
              crowded_eq := isCrowded_congr hf _ _ }

end Choices

/-- **The pattern depends on the members of the region alone**, and on their transfers. -/
theorem agrees_choosePattern {ts ts' : Transfers} {set set' : LabelSet} {entry : Nat}
    (hlt : ∀ a ∈ set, a < ts.length) (hlt' : ∀ a ∈ set', a < ts'.length)
    (hs : SameMembers set set') (hat : ∀ a ∈ set, ts.at? a = ts'.at? a) (hentry : entry ∈ set) :
    Pattern.Agrees ts.length ts'.length entry (choosePattern ts set entry).1
      (choosePattern ts' set' entry).1 := by
  have hf : FlowsAlike (Flow.analyze ts set) (Flow.analyze ts' set') :=
    Flow.alike_analyze hlt hlt' hs hat
  have hloop := agrees_loopPlan? hf hs entry
  have hcond := agrees_condPlan? hf hs (hat entry hentry) hlt hlt' (hlt entry hentry)
    (hlt' entry ((hs entry).mp hentry))
  rw [choosePattern, choosePattern, simpleNext?_congr hf hs]
  cases simpleNext? (Flow.analyze ts' set') set' entry with
  | some next => exact .simple next
  | none =>
    generalize loopPlan? _ set entry = loop at hloop ⊢
    generalize loopPlan? _ set' entry = loop' at hloop ⊢
    obtain ⟨loop, events⟩ := loop
    obtain ⟨loop', events'⟩ := loop'
    cases hloop with
    | some hplan => exact .loop hplan
    | none =>
      generalize condPlan? _ ts set entry = cond at hcond ⊢
      generalize condPlan? _ ts' set' entry = cond' at hcond ⊢
      obtain ⟨cond, more⟩ := cond
      obtain ⟨cond', more'⟩ := cond'
      cases hcond with
      | some hplan => exact .cond hplan
      | none => exact .dispatch

end Structuring
end StructuredFlow
