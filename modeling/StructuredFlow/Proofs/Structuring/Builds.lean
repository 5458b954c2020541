/-
# Structuring as a derivation

`Builds ts request outcome` says that structuring what is requested, a region or
nothing, makes the outcome.  A derivation follows the blocks of the tree: it has
a case for each pattern, with a region and its split, and a derivation for each
part.  What holds of every outcome is proved by induction on derivations, without
looking at how patterns are chosen or at the depth.

The entry of a loop and of a conditional ends up in a single leaf (`MakesLeaf`):
on its own it has no jumps left, and if it leads to several labels of a loop body
the body is one dispatch.

| result | what holds of every outcome |
| --- | --- |
| `Builds.mem_leafLabels`, `Builds.nodup_leafLabels` | its leaves hold the region, once each |
| `Builds.marks` | only targets of members changed, to markers |
| `Builds.keepsBreaks` | breaks out of constructs outside the region are kept |
-/

import StructuredFlow.Proofs.BlockTree.Leaves
import StructuredFlow.Proofs.Structuring.Choice

namespace StructuredFlow
namespace Structuring

open Transfers

/-- The labels that are to be structured. -/
def InRequest : Option (LabelSet × Nat) → Nat → Prop
  | none, _ => False
  | some (set, _), a => a ∈ set

/-- No region is reported but one. -/
def Reports (ts : Transfers) (set : LabelSet) (entry : Nat) (events : List Event) : Prop :=
  ∀ event ∈ events, ∀ region, event.region? = some region → region = (set, entry, ts)

/-- A region that is put into a single leaf. -/
structure MakesLeaf (ts : Transfers) (set : LabelSet) (entry : Nat) (outcome : Outcome) :
    Prop where
  /-- The labels are a region. -/
  region : Region ts set entry
  /-- The leaf holds them; a simple one holds its entry alone, which then does not jump
  to itself. -/
  tree_eq : ∃ kind, outcome.tree = .leaf kind entry set.toList .nil ∧
    (kind = .simple → set.toList = [entry] ∧ ¬ts.Jumps entry entry)
  /-- No target changes. -/
  transfers_eq : outcome.transfers = ts
  /-- No other region is taken up. -/
  reports : Reports ts set entry outcome.events

/-- The labels that are structured with the entry of a loop, the table for it, and
where the rest of the body starts. -/
inductive LoopHead (ts : Transfers) (body : LabelSet) (entry : Nat) :
    Transfers → LabelSet → Option Nat → Prop
  /-- The body is one dispatch. -/
  | dispatched : LoopHead ts body entry ts body none
  /-- The entry is a block of its own; the label it falls through to may be none of
  the function. -/
  | split {next target : Option Nat} (hs : SimpleSplit ts body entry next)
      (htarget : target = next ∨ next = none ∧ ∃ t, target = some t ∧ ts.length ≤ t) :
      LoopHead ts body entry (fallInto ts entry target) (.single ts.length entry) next

/-- What structuring makes of a request. -/
inductive Builds : Transfers → Option (LabelSet × Nat) → Outcome → Prop
  /-- Nothing is left. -/
  | nothing (ts : Transfers) : Builds ts none (.none ts)
  /-- A single leaf. -/
  | leaf {ts : Transfers} {set : LabelSet} {entry : Nat} {outcome : Outcome}
      (hleaf : MakesLeaf ts set entry outcome) : Builds ts (some (set, entry)) outcome
  /-- The entry, and what it leads to. -/
  | simple {ts : Transfers} {set : LabelSet} {entry : Nat} {next : Option Nat} {rest : Outcome}
      {found : List Event} (hr : Region ts set entry) (hs : SimpleSplit ts set entry next)
      (hfound : Reports ts set entry found)
      (hrest : Builds (fallInto ts entry next) (next.map fun next => (set.erase entry, next))
        rest) :
      Builds ts (some (set, entry)) ((simpleOutcome entry next rest).after found)
  /-- A loop, and what is behind it. -/
  | loop {ts headTs : Transfers} {set head : LabelSet} {entry : Nat} {plan : LoopPlan}
      {start : Option Nat} {inc body rest : Outcome} {found : List Event}
      (hr : Region ts set entry) (hs : LoopSplit ts set entry plan)
      (hfound : Reports ts set entry found)
      (hhead : LoopHead (markLoop ts entry plan) plan.body entry headTs head start)
      (hinc : MakesLeaf headTs head entry inc)
      (hbody : Builds headTs (start.map fun next => (plan.body.erase entry, next)) body)
      (hrest : Builds (relaxLoop body.transfers entry inc.tree body.tree)
        (plan.pivot.map fun pivot => (plan.after, pivot)) rest) :
      Builds ts (some (set, entry)) ((loopOutcome entry plan inc body rest).after found)
  /-- A conditional, and what is behind it. -/
  | cond {ts : Transfers} {set : LabelSet} {entry : Nat} {plan : CondPlan}
      {check first second rest : Outcome} {found : List Event}
      (hr : Region ts set entry) (hs : CondSplit ts set entry plan)
      (hfound : Reports ts set entry found)
      (hcheck : MakesLeaf (markCond ts entry plan) (.single ts.length entry) entry check)
      (hfirst : Builds (markCond ts entry plan) (some (plan.firstRegion, plan.firstArm)) first)
      (hsecond : Builds first.transfers (plan.second.map fun arm => (arm.2, arm.1)) second)
      (hrest : Builds (relaxCond second.transfers entry plan first.tree second.tree)
        (plan.join.map fun join => (plan.rest, join)) rest) :
      Builds ts (some (set, entry)) ((condOutcome entry plan
        (isBreaking (relaxCond second.transfers entry plan first.tree second.tree) entry plan)
        check first second rest).after found)

/-! ### The members of the parts -/

section Members

variable {ts headTs : Transfers} {set head : LabelSet} {entry : Nat}

/-- A region with a simple entry is this entry and what follows it. -/
theorem SimpleSplit.mem_request {next : Option Nat} (hr : Region ts set entry)
    (hs : SimpleSplit ts set entry next) (a : Nat) :
    a ∈ set ↔ a = entry ∨ InRequest (next.map fun next => (set.erase entry, next)) a := by
  cases next with
  | none =>
    rw [Option.map_none, InRequest, or_false]
    exact ⟨hs.eq_entry rfl a, fun h => h ▸ hr.entry_mem⟩
  | some next =>
    rw [Option.map_some, InRequest, LabelSet.mem_erase]
    constructor
    · intro ha
      by_cases he : a = entry
      · exact Or.inl he
      · exact Or.inr ⟨ha, he⟩
    · rintro (rfl | ⟨ha, _⟩)
      · exact hr.entry_mem
      · exact ha

/-- The entry is not in what follows it. -/
theorem not_inRequest_erase (next : Option Nat) :
    ¬InRequest (next.map fun next => (set.erase entry, next)) entry := by
  cases next with
  | none => exact id
  | some next =>
    rw [Option.map_some, InRequest, LabelSet.mem_erase]
    exact fun h => h.2 rfl

/-- A region with a loop is the body and what follows it. -/
theorem LoopSplit.mem_request {plan : LoopPlan} (hs : LoopSplit ts set entry plan) (a : Nat) :
    a ∈ set ↔ a ∈ plan.body ∨ InRequest (plan.pivot.map fun pivot => (plan.after, pivot)) a := by
  rw [hs.mem_iff a]
  cases hp : plan.pivot with
  | none => exact or_congr_right ⟨hs.after_empty hp a, False.elim⟩
  | some pivot => exact Iff.rfl

/-- No label of the body is in what follows the loop. -/
theorem LoopSplit.not_inRequest {plan : LoopPlan} (hs : LoopSplit ts set entry plan) {a : Nat}
    (ha : a ∈ plan.body) : ¬InRequest (plan.pivot.map fun pivot => (plan.after, pivot)) a := by
  cases plan.pivot with
  | none => exact id
  | some pivot => exact hs.not_mem_after a ha

/-- The body is the head and what is structured after it. -/
theorem LoopHead.mem_iff {start : Option Nat} (hr : Region ts set entry)
    (hh : LoopHead ts set entry headTs head start) (a : Nat) :
    a ∈ set ↔ a ∈ head ∨ InRequest (start.map fun next => (set.erase entry, next)) a := by
  cases hh with
  | dispatched => exact (or_iff_left id).symm
  | split hs =>
    rw [hs.mem_request hr, LabelSet.mem_single]
    exact or_congr_left (and_iff_left (hr.lt_length entry hr.entry_mem)).symm

/-- No label of the head is in the rest of the body. -/
theorem LoopHead.not_inRequest {start : Option Nat} (hh : LoopHead ts set entry headTs head start)
    {a : Nat} (ha : a ∈ head) : ¬InRequest (start.map fun next => (set.erase entry, next)) a := by
  cases hh with
  | dispatched => exact id
  | split hs =>
    obtain ⟨rfl, _⟩ := LabelSet.mem_single.mp ha
    exact not_inRequest_erase _

/-- In the head only the targets of the entry are exchanged. -/
theorem LoopHead.marks {start : Option Nat} (hh : LoopHead ts set entry headTs head start) :
    MarksWithin (· = entry) ts headTs := by
  cases hh with
  | dispatched => exact MarksWithin.refl _ ts
  | split => exact marks_fallInto ts entry _

/-- In the head breaks are kept. -/
theorem LoopHead.keepsBreaks {start : Option Nat} (hh : LoopHead ts set entry headTs head start)
    (e : Nat) : KeepsBreaks e ts headTs := by
  cases hh with
  | dispatched => exact KeepsBreaks.refl e ts
  | split => exact KeepsBreaks.fallInto ts entry _

/-- The labels of the arms are those of the first and those of the second. -/
theorem CondSplit.mem_request_regions {plan : CondPlan} (hs : CondSplit ts set entry plan)
    (a : Nat) : a ∈ plan.regions ↔
      a ∈ plan.firstRegion ∨ InRequest (plan.second.map fun arm => (arm.2, arm.1)) a := by
  rw [hs.mem_regions a]
  refine or_congr_right ?_
  cases plan.second with
  | none => simp [InRequest]
  | some second =>
    obtain ⟨arm, region⟩ := second
    simp [InRequest]

/-- A region with a conditional is its entry, its arms and what follows them. -/
theorem CondSplit.mem_request {plan : CondPlan} (hr : Region ts set entry)
    (hs : CondSplit ts set entry plan) (a : Nat) : a ∈ set ↔ a = entry ∨ a ∈ plan.regions ∨
      InRequest (plan.join.map fun join => (plan.rest, join)) a := by
  rw [hs.mem_iff hr a]
  refine or_congr_right (or_congr_right ?_)
  cases hj : plan.join with
  | none => exact ⟨hs.rest_empty hj a, False.elim⟩
  | some join => exact Iff.rfl

/-- No label of the first arm is in the second. -/
theorem CondSplit.not_inRequest_second {plan : CondPlan} (hs : CondSplit ts set entry plan)
    {a : Nat} (ha : a ∈ plan.firstRegion) :
    ¬InRequest (plan.second.map fun arm => (arm.2, arm.1)) a := by
  cases hsec : plan.second with
  | none => exact id
  | some second => exact hs.disjoint second.1 second.2 hsec a ha

/-- Neither the entry nor a label of the arms is in what follows them. -/
theorem CondSplit.not_inRequest_rest {plan : CondPlan} (hs : CondSplit ts set entry plan) {a : Nat}
    (ha : a = entry ∨ a ∈ plan.regions) :
    ¬InRequest (plan.join.map fun join => (plan.rest, join)) a := by
  cases hj : plan.join with
  | none => exact id
  | some join =>
    intro h
    obtain ⟨_, hne, hn⟩ := (hs.mem_rest a).mp h
    exact ha.elim hne hn

end Members

/-! ### The leaves of an outcome -/

section Outcomes

variable {ts : Transfers} {set : LabelSet} {entry : Nat} {request : Option (LabelSet × Nat)}
  {outcome : Outcome}

/-- The labels of a leaf are the members of its region. -/
theorem MakesLeaf.leafLabels (h : MakesLeaf ts set entry outcome) :
    outcome.tree.leafLabels = set.toList := by
  obtain ⟨kind, htree, _⟩ := h.tree_eq
  rw [htree, BlockTree.leafLabels_leaf, BlockTree.leafLabels_nil, List.append_nil]

/-- A label is in a leaf exactly if it is in its region. -/
theorem MakesLeaf.mem_leafLabels (h : MakesLeaf ts set entry outcome) {a : Nat} :
    a ∈ outcome.tree.leafLabels ↔ a ∈ set := by
  rw [h.leafLabels, LabelSet.mem_toList]

/-- A leaf holds its entry. -/
theorem MakesLeaf.entriesHeld (h : MakesLeaf ts set entry outcome) : outcome.tree.EntriesHeld := by
  obtain ⟨kind, htree, hsimple⟩ := h.tree_eq
  rw [htree]
  cases kind with
  | simple => exact ⟨(hsimple rfl).1, trivial⟩
  | dispatch => exact ⟨LabelSet.mem_toList.mpr h.region.entry_mem, trivial⟩

namespace Builds

/-- **The leaves hold the labels of the request.** -/
theorem mem_leafLabels (h : Builds ts request outcome) (a : Nat) :
    a ∈ outcome.tree.leafLabels ↔ InRequest request a := by
  induction h with
  | nothing ts => simp [Outcome.none, InRequest]
  | leaf hleaf => exact hleaf.mem_leafLabels
  | simple hr hs _ _ ih =>
    rw [Outcome.tree_after, tree_simpleOutcome, BlockTree.leafLabels_leaf, List.mem_append, ih,
      List.mem_singleton, ← hs.mem_request hr a]
    rfl
  | loop hr hs _ hhead hinc _ _ ihBody ihRest =>
    rw [Outcome.tree_after, tree_loopOutcome, BlockTree.leafLabels_loop, List.mem_append,
      List.mem_append, hinc.mem_leafLabels, ihBody, ihRest, ← hhead.mem_iff (hs.region_body hr),
      ← hs.mem_request]
    rfl
  | @cond _ set entry _ _ _ _ _ _ hr hs _ hcheck _ _ _ ihFirst ihSecond ihRest =>
    have hset : InRequest (some (set, entry)) a ↔ _ := hs.mem_request hr a
    have hentry := (LabelSet.mem_single.mp hcheck.region.entry_mem).2
    rw [Outcome.tree_after, tree_condOutcome, BlockTree.leafLabels_cond, List.mem_append,
      List.mem_append, List.mem_append, hcheck.mem_leafLabels, ihFirst, ihSecond, ihRest, hset,
      hs.mem_request_regions a, LabelSet.mem_single, and_iff_left hentry, or_assoc, or_assoc,
      or_assoc]
    rfl

/-- **No label is in two leaves.** -/
theorem nodup_leafLabels (h : Builds ts request outcome) : outcome.tree.leafLabels.Nodup := by
  induction h with
  | nothing ts => simp [Outcome.none]
  | leaf hleaf =>
    rw [hleaf.leafLabels]
    exact LabelSet.nodup_toList _
  | simple hr hs _ hrest ih =>
    rw [Outcome.tree_after, tree_simpleOutcome, BlockTree.leafLabels_leaf, List.singleton_append,
      List.nodup_cons, hrest.mem_leafLabels]
    exact ⟨not_inRequest_erase _, ih⟩
  | loop hr hs _ hhead hinc hbody hrest ihBody ihRest =>
    rw [Outcome.tree_after, tree_loopOutcome, BlockTree.leafLabels_loop, List.nodup_append',
      List.nodup_append', List.disjoint_append_left, hinc.leafLabels]
    refine ⟨⟨LabelSet.nodup_toList _, ihBody, fun a ha hb => ?_⟩, ihRest, fun a ha hb => ?_,
      fun a ha hb => ?_⟩
    · exact hhead.not_inRequest (LabelSet.mem_toList.mp ha) ((hbody.mem_leafLabels a).mp hb)
    · have ha := (hhead.mem_iff (hs.region_body hr) a).mpr (Or.inl (LabelSet.mem_toList.mp ha))
      exact hs.not_inRequest ha ((hrest.mem_leafLabels a).mp hb)
    · have ha := (hhead.mem_iff (hs.region_body hr) a).mpr (Or.inr ((hbody.mem_leafLabels a).mp ha))
      exact hs.not_inRequest ha ((hrest.mem_leafLabels a).mp hb)
  | @cond ts _ entry plan _ _ _ _ _ hr hs _ hcheck hfirst hsecond hrest ihFirst ihSecond ihRest =>
    have hregions : ∀ a, a ∈ plan.regions ↔ a ∈ plan.firstRegion ∨ _ := hs.mem_request_regions
    rw [Outcome.tree_after, tree_condOutcome, BlockTree.leafLabels_cond, List.nodup_append',
      List.nodup_append', List.nodup_append', List.disjoint_append_left, List.disjoint_append_left,
      List.disjoint_append_left, hcheck.leafLabels]
    have hcheckLabels : ∀ a ∈ (LabelSet.single ts.length entry).toList, a = entry := fun a ha =>
      (LabelSet.mem_single.mp (LabelSet.mem_toList.mp ha)).1
    refine ⟨⟨⟨LabelSet.nodup_toList _, ihFirst, fun a ha hb => ?_⟩, ihSecond, fun a ha hb => ?_,
      fun a ha hb => ?_⟩, ihRest, ⟨fun a ha hb => ?_, fun a ha hb => ?_⟩, fun a ha hb => ?_⟩
    · obtain rfl := hcheckLabels a ha
      exact hs.entry_not_mem ((hregions a).mpr (Or.inl ((hfirst.mem_leafLabels a).mp hb)))
    · obtain rfl := hcheckLabels a ha
      exact hs.entry_not_mem ((hregions a).mpr (Or.inr ((hsecond.mem_leafLabels a).mp hb)))
    · exact hs.not_inRequest_second ((hfirst.mem_leafLabels a).mp ha)
        ((hsecond.mem_leafLabels a).mp hb)
    · obtain rfl := hcheckLabels a ha
      exact hs.not_inRequest_rest (Or.inl rfl) ((hrest.mem_leafLabels a).mp hb)
    · have ha := (hregions a).mpr (Or.inl ((hfirst.mem_leafLabels a).mp ha))
      exact hs.not_inRequest_rest (Or.inr ha) ((hrest.mem_leafLabels a).mp hb)
    · have ha := (hregions a).mpr (Or.inr ((hsecond.mem_leafLabels a).mp ha))
      exact hs.not_inRequest_rest (Or.inr ha) ((hrest.mem_leafLabels a).mp hb)

/-- **Each leaf that is built holds its entry.** -/
theorem entriesHeld (h : Builds ts request outcome) : outcome.tree.EntriesHeld := by
  induction h with
  | nothing => trivial
  | leaf hleaf => exact hleaf.entriesHeld
  | simple _ _ _ _ ih => exact ⟨rfl, ih⟩
  | loop _ _ _ _ hinc _ _ ihBody ihRest => exact ⟨hinc.entriesHeld, ihBody, ihRest⟩
  | cond _ _ _ hcheck _ _ _ ihFirst ihSecond ihRest =>
    exact ⟨hcheck.entriesHeld, ihFirst, ihSecond, ihRest⟩

/-- Control falls off the end of an outcome after one of its labels. -/
theorem inRequest_of_mem_trailingLabels (h : Builds ts request outcome) {a : Nat}
    (ha : a ∈ outcome.tree.trailingLabels) : InRequest request a :=
  (h.mem_leafLabels a).mp (BlockTree.mem_leafLabels_of_mem_trailingLabels h.entriesHeld ha)

/-- Between marking a loop and structuring what follows, only its body changes. -/
theorem marks_of_loop {headTs : Transfers} {head : LabelSet} {plan : LoopPlan} {start : Option Nat}
    {inc body : Outcome} (hr : Region ts set entry) (hs : LoopSplit ts set entry plan)
    (hhead : LoopHead (markLoop ts entry plan) plan.body entry headTs head start)
    (hinc : MakesLeaf headTs head entry inc)
    (hbody : Builds headTs (start.map fun next => (plan.body.erase entry, next)) body)
    (hmarks : MarksWithin (InRequest (start.map fun next => (plan.body.erase entry, next))) headTs
      body.transfers) :
    MarksWithin (· ∈ plan.body) (markLoop ts entry plan)
      (relaxLoop body.transfers entry inc.tree body.tree) := by
  have hmem := hhead.mem_iff (hs.region_body hr)
  have h₁ : MarksWithin (· ∈ plan.body) (markLoop ts entry plan) headTs :=
    hhead.marks.mono fun a ha => ha ▸ hs.entry_mem
  have h₂ : MarksWithin (· ∈ plan.body) headTs body.transfers :=
    hmarks.mono fun a ha => (hmem a).mpr (Or.inr ha)
  have h₃ : MarksWithin (· ∈ plan.body) body.transfers
      (relaxLoop body.transfers entry inc.tree body.tree) := by
    refine (marks_relaxLoop _ entry inc.tree body.tree).mono fun a ha => (hmem a).mpr ?_
    rw [loopTail] at ha
    split at ha
    · exact Or.inl (hinc.mem_leafLabels.mp
        (BlockTree.mem_leafLabels_of_mem_trailingLabels hinc.entriesHeld ha))
    · exact Or.inr (hbody.inRequest_of_mem_trailingLabels ha)
  exact (h₁.trans h₂).trans h₃

/-- Between marking a conditional and structuring what follows, only its arms change. -/
theorem marks_of_cond {plan : CondPlan} {first second : Outcome}
    (hs : CondSplit ts set entry plan)
    (hfirst : Builds (markCond ts entry plan) (some (plan.firstRegion, plan.firstArm)) first)
    (hsecond : Builds first.transfers (plan.second.map fun arm => (arm.2, arm.1)) second)
    (hmarks₁ : MarksWithin (InRequest (some (plan.firstRegion, plan.firstArm)))
      (markCond ts entry plan) first.transfers)
    (hmarks₂ : MarksWithin (InRequest (plan.second.map fun arm => (arm.2, arm.1))) first.transfers
      second.transfers) :
    MarksWithin (· ∈ plan.regions) (markCond ts entry plan)
      (relaxCond second.transfers entry plan first.tree second.tree) := by
  have hmem := hs.mem_request_regions
  have h₁ : MarksWithin (· ∈ plan.regions) (markCond ts entry plan) first.transfers :=
    hmarks₁.mono fun a ha => (hmem a).mpr (Or.inl ha)
  have h₂ : MarksWithin (· ∈ plan.regions) first.transfers second.transfers :=
    hmarks₂.mono fun a ha => (hmem a).mpr (Or.inr ha)
  have h₃ : MarksWithin (· ∈ plan.regions) second.transfers
      (relaxCond second.transfers entry plan first.tree second.tree) := by
    refine (marks_relaxCond _ entry plan first.tree second.tree).mono fun a ha => (hmem a).mpr ?_
    exact (List.mem_append.mp ha).imp hfirst.inRequest_of_mem_trailingLabels
      hsecond.inRequest_of_mem_trailingLabels
  exact (h₁.trans h₂).trans h₃

/-- **Only members of a region change, and only to markers.** -/
theorem marks (h : Builds ts request outcome) :
    MarksWithin (InRequest request) ts outcome.transfers := by
  induction h with
  | nothing ts => exact MarksWithin.refl _ ts
  | leaf hleaf =>
    rw [hleaf.transfers_eq]
    exact MarksWithin.refl _ _
  | @simple ts _ entry next _ _ hr hs _ _ ih =>
    have h₁ := (marks_fallInto ts entry next).mono fun a ha => (hs.mem_request hr a).mpr (Or.inl ha)
    exact h₁.trans (ih.mono fun a ha => (hs.mem_request hr a).mpr (Or.inr ha))
  | @loop ts _ _ _ entry plan _ _ _ _ _ hr hs _ hhead hinc hbody _ ihBody ihRest =>
    have h₁ := (marks_markLoop ts entry plan).trans (marks_of_loop hr hs hhead hinc hbody ihBody)
    have h₂ := h₁.mono fun a ha => (hs.mem_request a).mpr (Or.inl ha)
    exact h₂.trans (ihRest.mono fun a ha => (hs.mem_request a).mpr (Or.inr ha))
  | @cond ts _ entry plan _ _ _ _ _ hr hs _ _ hfirst hsecond _ ihFirst ihSecond ihRest =>
    have hmem := hs.mem_request hr
    have h₁ := (marks_markCond ts entry plan).mono fun a ha => (hmem a).mpr (ha.imp_right Or.inl)
    have h₂ := (marks_of_cond hs hfirst hsecond ihFirst ihSecond).mono fun a ha =>
      (hmem a).mpr (Or.inr (Or.inl ha))
    have h₃ := ihRest.mono fun a ha => (hmem a).mpr (Or.inr (Or.inr ha))
    exact (h₁.trans h₂).trans h₃

/-- **Breaks out of a construct whose entry is not structured are kept.** -/
theorem keepsBreaks (h : Builds ts request outcome) {e : Nat} (he : ¬InRequest request e) :
    KeepsBreaks e ts outcome.transfers := by
  induction h with
  | nothing ts => exact KeepsBreaks.refl e ts
  | leaf hleaf =>
    rw [hleaf.transfers_eq]
    exact KeepsBreaks.refl e _
  | simple hr hs _ _ ih =>
    exact (KeepsBreaks.fallInto _ _ _).trans
      (ih fun ha => he ((hs.mem_request hr e).mpr (Or.inr ha)))
  | @loop _ _ _ _ entry plan _ inc body _ _ hr hs _ hhead _ _ _ ihBody ihRest =>
    have hbody : e ∉ plan.body := fun ha => he ((hs.mem_request e).mpr (Or.inl ha))
    have hne : e ≠ entry := fun h => hbody (h ▸ hs.entry_mem)
    have hmem := (hhead.mem_iff (hs.region_body hr) e).not.mp hbody
    have h₁ := (KeepsBreaks.markLoop hne _ plan).trans (hhead.keepsBreaks e)
    have h₂ := (ihBody fun ha => hmem (Or.inr ha)).trans
      (KeepsBreaks.relaxLoop _ entry inc.tree body.tree)
    exact (h₁.trans h₂).trans (ihRest fun ha => he ((hs.mem_request e).mpr (Or.inr ha)))
  | @cond _ _ entry plan _ first second _ _ hr hs _ _ _ _ _ ihFirst ihSecond ihRest =>
    have hmem := (hs.mem_request hr e).not.mp he
    have hne : e ≠ entry := fun h => hmem (Or.inl h)
    have hregions := (hs.mem_request_regions e).not.mp fun h => hmem (Or.inr (Or.inl h))
    have h₁ := (KeepsBreaks.markCond hne _ plan).trans (ihFirst fun h => hregions (Or.inl h))
    have h₂ := (ihSecond fun h => hregions (Or.inr h)).trans
      (KeepsBreaks.relaxCond hne _ plan first.tree second.tree)
    exact (h₁.trans h₂).trans (ihRest fun h => hmem (Or.inr (Or.inr h)))

end Builds

end Outcomes

/-! ### Structuring makes derivations -/

/-- A function that structures every region, and puts a label without a jump to
itself into a leaf. -/
structure Builder (build : Transfers → LabelSet → Nat → Outcome) : Prop where
  /-- Every region has a derivation. -/
  builds : ∀ ts set entry, Region ts set entry → Builds ts (some (set, entry)) (build ts set entry)
  /-- A label on its own is put into a leaf. -/
  leaf : ∀ ts set entry, Region ts set entry → (∀ a ∈ set, a = entry) → ¬ts.Jumps entry entry →
    MakesLeaf ts set entry (build ts set entry)

/-- A set with one member lists it alone. -/
theorem toList_eq_singleton {set : LabelSet} {entry : Nat} (hmem : entry ∈ set)
    (hall : ∀ a ∈ set, a = entry) : set.toList = [entry] := by
  have hperm : set.toList.Perm [entry] := by
    refine (List.perm_ext_iff_of_nodup (LabelSet.nodup_toList set) (List.nodup_singleton entry)).mpr
      fun a => ?_
    rw [LabelSet.mem_toList, List.mem_singleton]
    exact ⟨hall a, fun h => h ▸ hmem⟩
  exact List.perm_singleton.mp hperm

section Building

variable {build : Transfers → LabelSet → Nat → Outcome} (hb : Builder build) {ts : Transfers}
  {set : LabelSet} {entry : Nat}

/-- A dispatch over a region is a leaf of it. -/
theorem makesLeaf_dispatch (hr : Region ts set entry) {events : List Event}
    (hevents : Reports ts set entry events) :
    MakesLeaf ts set entry ⟨dispatchLeaf set entry .nil, ts, events⟩ where
  region := hr
  tree_eq := ⟨.dispatch, rfl, fun h => absurd h (by simp)⟩
  transfers_eq := rfl
  reports := hevents

include hb

omit hb in
/-- What the entry leads to is a region once the entry falls through. -/
theorem SimpleSplit.region_tail {next target : Option Nat} (hr : Region ts set entry)
    (hs : SimpleSplit ts set entry next)
    (htarget : target = next ∨ next = none ∧ ∃ t, target = some t ∧ ts.length ≤ t)
    {rest : LabelSet} {start : Nat}
    (h : next.map (fun next => (set.erase entry, next)) = some (rest, start)) :
    Region (fallInto ts entry target) rest start := by
  obtain ⟨next, rfl, hrest⟩ := Option.map_eq_some_iff.mp h
  obtain ⟨rfl, rfl⟩ := Prod.mk.inj hrest
  rcases htarget with rfl | ⟨hnone, _⟩
  · exact hs.region_next hr
  · exact absurd hnone (by simp)

/-- To go on with a request builds it, if it is one for a region or for nothing. -/
theorem builds_follow {request : Option (LabelSet × Nat)}
    (h : ∀ set entry, request = some (set, entry) → Region ts set entry) :
    Builds ts request (follow build ts request) := by
  cases request with
  | none => exact Builds.nothing ts
  | some request =>
    obtain ⟨set, entry⟩ := request
    have hr := h set entry rfl
    rw [follow, if_pos (LabelSet.contains_iff_mem.mpr hr.entry_mem)]
    exact hb.builds ts set entry hr

/-- A simple entry and what follows it are built. -/
theorem builds_structureSimple (hr : Region ts set entry) {next : Option Nat}
    (hs : SimpleSplit ts set entry next) {found : List Event}
    (hfound : Reports ts set entry found) :
    Builds ts (some (set, entry)) ((structureSimple build ts set entry next).after found) := by
  exact Builds.simple hr hs hfound
    (builds_follow hb fun rest start h => hs.region_tail hr (Or.inl rfl) h)

omit hb in
/-- A region whose entry nothing jumps to, and which jumps to one member or none. -/
theorem simpleSplit_of_jumps (hr : Region ts set entry) (hno : ∀ a ∈ set, ¬ts.Jumps a entry)
    {next : Option Nat} (hjumps : ∀ b ∈ set, ts.Jumps entry b ↔ next = some b)
    (hmem : ∀ b, next = some b → b ∈ set) : SimpleSplit ts set entry next where
  no_jump := hno
  jumps_iff := hjumps
  next_mem b hb := by
    refine LabelSet.mem_erase.mpr ⟨hmem b hb, ?_⟩
    rintro rfl
    exact hno b hr.entry_mem ((hjumps b hr.entry_mem).mpr hb)
  eq_entry hnone := by
    refine hr.induct rfl fun a ha b hb hab ih => ?_
    subst ih
    exact absurd ((hjumps b hb).mp hab) (by simp [hnone])

omit hb in
/-- The entry of a loop body is split off, with what it leads to as the rest of the
body, or the body is one dispatch; which of them, the real targets of the entry tell and the
members of the body. -/
theorem loopParts_cases (hr : Region ts set entry) (hno : ∀ a ∈ set, ¬ts.Jumps a entry) :
    (∃ next target, SimpleSplit ts set entry next ∧ (∀ b, ts.Jumps entry b ↔ target = some b) ∧
      (target = next ∨ next = none ∧ ∃ t, target = some t ∧ ts.length ≤ t) ∧
      ∀ build ts' set', ts'.realTargets entry = ts.realTargets entry → (∀ a, a ∈ set ↔ a ∈ set') →
        loopParts build ts' set' entry =
          (build (fallInto ts' entry target) (.single ts'.length entry) entry,
            follow build (build (fallInto ts' entry target) (.single ts'.length entry)
              entry).transfers (next.map fun next => (set'.erase entry, next)))) ∨
    ∃ count, ∀ build ts' set', ts'.realTargets entry = ts.realTargets entry →
      loopParts build ts' set' entry =
        (⟨dispatchLeaf set' entry .nil, ts', [.bodyDispatched entry count]⟩, .none ts') := by
  have hself := hno entry hr.entry_mem
  have hreal : ∀ b, ts.Jumps entry b ↔ b ∈ ts.realTargets entry := fun b => mem_realTargets.symm
  cases htargets : ts.realTargets entry with
  | nil =>
    have hnone : ∀ b, ts.Jumps entry b ↔ none = some b := fun b => by
      rw [hreal, htargets]
      simp
    refine Or.inl ⟨none, none, ?_, hnone, Or.inl rfl, fun build ts' set' htargets' _ => ?_⟩
    · exact simpleSplit_of_jumps hr hno (fun b _ => hnone b) fun b hb => absurd hb (by simp)
    · simp only [loopParts, htargets']
      rfl
  | cons target targets =>
    cases targets with
    | cons target' targets =>
      refine Or.inr ⟨(target :: target' :: targets).length, fun build ts' set' htargets' => ?_⟩
      simp only [loopParts, htargets']
    | nil =>
      have hone : ∀ b, ts.Jumps entry b ↔ some target = some b := fun b => by
        rw [hreal, htargets, List.mem_singleton, eq_comm, Option.some.injEq]
      by_cases hmem : target ∈ set.erase entry
      · refine Or.inl ⟨some target, some target, ?_, hone, Or.inl rfl,
          fun build ts' set' htargets' hset => ?_⟩
        · exact simpleSplit_of_jumps hr hno (fun b _ => hone b)
            fun b hb => Option.some.inj hb ▸ (LabelSet.mem_erase.mp hmem).1
        · have hc : (set'.erase entry).contains target = true := LabelSet.contains_iff_mem.mpr
            (LabelSet.mem_erase.mpr ((LabelSet.mem_erase.mp hmem).imp_left (hset target).mp))
          simp only [loopParts, htargets', Option.map_some, follow, if_pos hc]
      · have hout : target ∉ set := fun h => hmem (LabelSet.mem_erase.mpr
          ⟨h, fun he => hself ((hone entry).mpr (congrArg some he))⟩)
        have hlen : ts.length ≤ target := by
          by_contra hlt
          exact hout (hr.closed entry hr.entry_mem target (Nat.lt_of_not_le hlt)
            ((hone target).mpr rfl))
        refine Or.inl ⟨none, some target, ?_, hone, Or.inr ⟨rfl, target, rfl, hlen⟩,
          fun build ts' set' htargets' hset => ?_⟩
        · refine simpleSplit_of_jumps hr hno (fun b hb => ?_) fun b hb => absurd hb (by simp)
          rw [hone]
          exact ⟨fun h => absurd (Option.some.inj h ▸ hb) hout, fun h => absurd h (by simp)⟩
        · have hc : ¬(set'.erase entry).contains target = true := fun h =>
            hout ((hset target).mpr (LabelSet.mem_erase.mp h).1)
          simp only [loopParts, htargets', Option.map_none, follow, if_neg hc]

/-- The entry that falls through is put into a leaf. -/
theorem makesLeaf_fallInto (hr : Region ts set entry) {next target : Option Nat}
    (hs : SimpleSplit ts set entry next)
    (htarget : target = next ∨ next = none ∧ ∃ t, target = some t ∧ ts.length ≤ t) :
    MakesLeaf (fallInto ts entry target) (.single ts.length entry) entry
      (build (fallInto ts entry target) (.single ts.length entry) entry) := by
  refine hb.leaf _ _ _ (hs.region_entry hr fun b h => ?_)
    (fun a ha => (LabelSet.mem_single.mp ha).1) fun h => ?_
  · rcases htarget with rfl | ⟨rfl, _⟩
    · exact h
    · exact absurd h (by simp)
  · exact hs.no_jump entry hr.entry_mem (jumps_fallInto.mp h).1

/-- The head of a loop body and the rest of it. -/
theorem builds_loopParts (hr : Region ts set entry) (hno : ∀ a ∈ set, ¬ts.Jumps a entry) :
    ∃ headTs head start, LoopHead ts set entry headTs head start ∧
      MakesLeaf headTs head entry (loopParts build ts set entry).1 ∧
      Builds headTs (start.map fun next => (set.erase entry, next))
        (loopParts build ts set entry).2 := by
  rcases loopParts_cases hr hno with ⟨next, target, hs, -, htarget, heq⟩ | ⟨count, heq⟩
  · have hinc := makesLeaf_fallInto hb hr hs htarget
    refine ⟨_, _, _, LoopHead.split hs htarget, ?_, ?_⟩
    · rw [heq build ts set rfl fun _ => Iff.rfl]
      exact hinc
    · rw [heq build ts set rfl fun _ => Iff.rfl]
      dsimp only
      rw [hinc.transfers_eq]
      exact builds_follow hb fun rest start h => hs.region_tail hr htarget h
  · refine ⟨_, _, _, LoopHead.dispatched, ?_, ?_⟩
    · rw [heq build ts set rfl]
      refine makesLeaf_dispatch hr fun event he region h => ?_
      rw [List.mem_singleton.mp he] at h
      exact absurd h (by simp [Event.region?])
    · rw [heq build ts set rfl]
      exact Builds.nothing ts

/-- What is behind a loop is a region when the loop is made. -/
theorem region_behind_loop (hr : Region ts set entry) {plan : LoopPlan}
    (hs : LoopSplit ts set entry plan) {after : LabelSet} {start : Nat}
    (h : plan.pivot.map (fun pivot => (plan.after, pivot)) = some (after, start)) :
    let parts := loopParts build (markLoop ts entry plan) plan.body entry
    Region (relaxLoop parts.2.transfers entry parts.1.tree parts.2.tree) after start := by
  obtain ⟨headTs, head, next, hhead, hinc, hbody⟩ := builds_loopParts hb (hs.region_body hr)
    fun a ha => LoopSplit.not_jumps_entry ha
  have hmarks := Builds.marks_of_loop hr hs hhead hinc hbody hbody.marks
  obtain ⟨pivot, hp, h⟩ := Option.map_eq_some_iff.mp h
  obtain ⟨rfl, rfl⟩ := Prod.mk.inj h
  exact (hs.region_after hr hp).marks hmarks fun a ha hbody => hs.not_mem_after a hbody ha

/-- **A loop and what follows it are built.** -/
theorem builds_structureLoop (hr : Region ts set entry) {plan : LoopPlan}
    (hs : LoopSplit ts set entry plan) {found : List Event} (hfound : Reports ts set entry found) :
    Builds ts (some (set, entry)) ((structureLoop build ts entry plan).after found) := by
  obtain ⟨headTs, head, start, hhead, hinc, hbody⟩ := builds_loopParts hb (hs.region_body hr)
    fun a ha => LoopSplit.not_jumps_entry ha
  exact Builds.loop hr hs hfound hhead hinc hbody
    (builds_follow hb fun after pivot h => region_behind_loop hb hr hs h)

/-- The entry of a conditional is put into a leaf. -/
theorem makesLeaf_check (hr : Region ts set entry) {plan : CondPlan}
    (hs : CondSplit ts set entry plan) :
    MakesLeaf (markCond ts entry plan) (.single ts.length entry) entry
      (build (markCond ts entry plan) (.single ts.length entry) entry) :=
  hb.leaf _ _ _ (hs.region_entry hr) (fun _ ha => (LabelSet.mem_single.mp ha).1)
    hs.not_jumps_of_entry

/-- The second arm is a region when the first one is made. -/
theorem region_second_arm (hr : Region ts set entry) {plan : CondPlan}
    (hs : CondSplit ts set entry plan) {arm : Nat} {region : LabelSet}
    (h : plan.second = some (arm, region)) :
    Region (build (markCond ts entry plan) plan.firstRegion plan.firstArm).transfers region
      arm := by
  have hfirst := hb.builds _ _ _ (hs.region_first hr)
  exact (hs.region_second hr h).marks hfirst.marks fun a ha hf => hs.disjoint arm region h a hf ha

/-- The second arm is built, if there is one. -/
theorem builds_secondArm (hr : Region ts set entry) {plan : CondPlan}
    (hs : CondSplit ts set entry plan) {ts' : Transfers}
    (hts : ts' = (build (markCond ts entry plan) plan.firstRegion plan.firstArm).transfers) :
    Builds ts' (plan.second.map fun arm => (arm.2, arm.1)) (secondArm build ts' plan.second) := by
  subst hts
  cases h : plan.second with
  | none => exact Builds.nothing _
  | some second => exact hb.builds _ _ _ (region_second_arm hb hr hs h)

/-- What is behind a conditional is a region when the conditional is made. -/
theorem region_behind_cond (hr : Region ts set entry) {plan : CondPlan}
    (hs : CondSplit ts set entry plan) {rest : LabelSet} {start : Nat}
    (h : plan.join.map (fun join => (plan.rest, join)) = some (rest, start)) :
    let first := build (markCond ts entry plan) plan.firstRegion plan.firstArm
    let second := secondArm build first.transfers plan.second
    Region (relaxCond second.transfers entry plan first.tree second.tree) rest start := by
  have hfirst := hb.builds _ _ _ (hs.region_first hr)
  have hsecond := builds_secondArm hb hr hs rfl
  obtain ⟨join, hj, h⟩ := Option.map_eq_some_iff.mp h
  obtain ⟨rfl, rfl⟩ := Prod.mk.inj h
  exact (hs.region_rest hr hj).marks
    (Builds.marks_of_cond hs hfirst hsecond hfirst.marks hsecond.marks)
    fun a ha hreg => ((hs.mem_rest a).mp ha).2.2 hreg

/-- **A conditional and what follows it are built.** -/
theorem builds_structureCond (hr : Region ts set entry) {plan : CondPlan}
    (hs : CondSplit ts set entry plan) {found : List Event} (hfound : Reports ts set entry found) :
    Builds ts (some (set, entry)) ((structureCond build ts entry plan).after found) := by
  have hcheck := makesLeaf_check hb hr hs
  unfold structureCond
  dsimp only
  rw [hcheck.transfers_eq]
  exact Builds.cond hr hs hfound hcheck (hb.builds _ _ _ (hs.region_first hr))
    (builds_secondArm hb hr hs rfl)
    (builds_follow hb fun rest join h => region_behind_cond hb hr hs h)

end Building

/-- What is reported when a region is taken up and its pattern is chosen. -/
theorem reports_choosePattern (ts : Transfers) (set : LabelSet) (entry : Nat) :
    Reports ts set entry (.region set entry ts :: (choosePattern ts set entry).2) := by
  intro event he region h
  rcases List.mem_cons.mp he with rfl | he
  · exact (Option.some.inj h).symm
  · rw [region?_of_mem_choosePattern he] at h
    exact absurd h (by simp)

/-- **Structuring makes a derivation for every region**, at any depth. -/
theorem builder_structureRegion (depth : Nat) : Builder (structureRegion depth) := by
  induction depth with
  | zero =>
    have hleaf : ∀ ts set entry, Region ts set entry →
        MakesLeaf ts set entry (structureRegion 0 ts set entry) := fun ts set entry hr =>
      makesLeaf_dispatch hr fun event he region h => by
        rw [List.mem_singleton.mp he] at h
        exact absurd h (by simp [Event.region?])
    exact ⟨fun ts set entry hr => Builds.leaf (hleaf ts set entry hr),
      fun ts set entry hr _ _ => hleaf ts set entry hr⟩
  | succ depth ih =>
    constructor
    · intro ts set entry hr
      have hsplit := splits_choosePattern hr
      have hfound := reports_choosePattern ts set entry
      rw [structureRegion]
      generalize choosePattern ts set entry = chosen at hsplit hfound
      obtain ⟨pattern, found⟩ := chosen
      cases pattern with
      | simple next => exact builds_structureSimple ih hr hsplit hfound
      | loop plan => exact builds_structureLoop ih hr hsplit hfound
      | cond plan => exact builds_structureCond ih hr hsplit hfound
      | dispatch =>
        refine Builds.leaf (makesLeaf_dispatch hr fun event he region h => ?_)
        rcases List.mem_append.mp he with he | he
        · exact hfound event he region h
        · rw [List.mem_singleton.mp he] at h
          exact absurd h (by simp [Event.region?])
    · intro ts set entry hr hall hno
      have hfound := reports_choosePattern ts set entry
      rw [structureRegion, choosePattern_alone hr hall hno]
      rw [choosePattern_alone hr hall hno] at hfound
      exact
        { region := hr
          tree_eq := ⟨.simple, by rw [toList_eq_singleton hr.entry_mem hall]; rfl,
            fun _ => ⟨toList_eq_singleton hr.entry_mem hall, hno⟩⟩
          transfers_eq := rfl
          reports := fun event he region h => by
            rcases List.mem_append.mp he with he | he
            · exact hfound event he region h
            · rw [List.mem_singleton.mp he] at h
              exact absurd h (by simp [Event.region?]) }

/-! ### Structuring a function -/

/-- The table in which the labels that the entry does not reach fall through. -/
def liveTable (ts : Transfers) (entry : Nat) : Transfers :=
  ts.retarget (fun id => !(ts.live entry).contains id) fun _ => .nop

section Live

variable {ts : Transfers} {entry : Nat}

/-- Only what the entry does not reach falls through instead of jumping. -/
theorem marks_liveTable (ts : Transfers) (entry : Nat) :
    MarksWithin (· ∉ ts.live entry) ts (liveTable ts entry) :=
  MarksWithin.retarget (onlyMarks_const rfl) (fun id h => by simpa using h) ts

/-- What the entry reaches keeps its targets. -/
theorem targets_liveTable {a : Nat} (ha : a ∈ ts.live entry) :
    (liveTable ts entry).targets a = ts.targets a :=
  (marks_liveTable ts entry).targets_eq (not_not_intro ha)

/-- The labels that the entry reaches are a region once the others fall through. -/
theorem region_live (hentry : entry < ts.length) :
    Region (liveTable ts entry) (ts.live entry) entry where
  capacity_eq := (capacity_live ts entry).trans (marks_liveTable ts entry).length_eq.symm
  entry_mem := mem_live.mpr ⟨hentry, Relation.ReflTransGen.refl⟩
  reached a ha := by
    obtain ⟨_, hw⟩ := mem_live.mp ha
    clear ha
    induction hw with
    | refl => exact Relation.ReflTransGen.refl
    | @tail b c hw hstep ih =>
      have hb : b ∈ ts.live entry := mem_live.mpr ⟨hentry, hw⟩
      have hc : c ∈ ts.live entry := mem_live.mpr ⟨hentry, hw.tail hstep⟩
      refine ih.tail ⟨hb, hc, ?_⟩
      rw [Jumps, targets_liveTable hb]
      exact hstep.1
  closed a ha b hb hab := by
    rw [(marks_liveTable ts entry).length_eq] at hb
    obtain ⟨_, hw⟩ := mem_live.mp ha
    exact mem_live.mpr ⟨hentry, hw.tail ⟨(marks_liveTable ts entry).jumps hab, hb⟩⟩
  isolated a ha b _ hab := by
    have hq : (!(ts.live entry).contains a) = true := by simpa using ha
    rw [liveTable, Jumps, targets_retarget, if_pos hq] at hab
    simp at hab

/-- Putting a region into one dispatch builds it. -/
theorem builder_dispatch : Builder fun ts set entry => ⟨dispatchLeaf set entry .nil, ts, []⟩ where
  builds _ _ _ hr := Builds.leaf (makesLeaf_dispatch hr fun _ he => absurd he List.not_mem_nil)
  leaf _ _ _ hr _ _ := makesLeaf_dispatch hr fun _ he => absurd he List.not_mem_nil

/-- An entry that is no label leaves nothing to structure. -/
theorem structureLive_of_le {build : Transfers → LabelSet → Nat → Outcome}
    (hentry : ts.length ≤ entry) : structureLive build ts entry =
      (⟨liveTable ts entry, .nil, unreached (ts.live entry) ts.length⟩,
        pruneEvents (unreached (ts.live entry) ts.length)) := by
  have hlive : ¬(ts.live entry).contains entry = true := fun h =>
    Nat.not_lt.mpr hentry (mem_live.mp (LabelSet.contains_iff_mem.mp h)).1
  unfold structureLive
  dsimp only
  rw [if_neg hlive, Outcome.none, List.append_nil, liveTable]

/-- What is known of the tree, the table and the events of a structured function. -/
structure StructuresLive (ts : Transfers) (entry : Nat) (result : Structured × List Event) :
    Prop where
  /-- The tree and the table have a derivation, and its events are the ones reported. -/
  builds : ∃ outcome, Builds (liveTable ts entry) (some (ts.live entry, entry)) outcome ∧
    result.1.tree = outcome.tree ∧ result.1.transfers = outcome.transfers ∧
    result.2 = pruneEvents result.1.pruned ++ outcome.events
  /-- The labels left out are those that the entry does not reach. -/
  pruned_eq : result.1.pruned = unreached (ts.live entry) ts.length

/-- What is reported about labels left out names no region. -/
theorem region?_of_mem_pruneEvents {pruned : List Nat} {event : Event}
    (h : event ∈ pruneEvents pruned) : event.region? = none := by
  rw [pruneEvents] at h
  split at h
  · exact absurd h List.not_mem_nil
  · rw [List.mem_singleton.mp h]
    rfl

/-- What the entry reaches is structured by any builder. -/
theorem structuresLive {build : Transfers → LabelSet → Nat → Outcome} (hb : Builder build)
    (hentry : entry < ts.length) : StructuresLive ts entry (structureLive build ts entry) where
  builds := by
    have hr := region_live hentry
    refine ⟨_, hb.builds _ _ _ hr, ?_⟩
    unfold structureLive
    dsimp only
    rw [if_pos (LabelSet.contains_iff_mem.mpr hr.entry_mem)]
    exact ⟨rfl, rfl, rfl⟩
  pruned_eq := rfl

/-- **Structuring a function is a derivation for the labels that the entry reaches.** -/
theorem structuresLive_run (hentry : entry < ts.length) : StructuresLive ts entry (run ts entry) :=
  structuresLive (builder_structureRegion _) hentry

/-- What the entry reaches is structured by putting it into one dispatch. -/
theorem structuresLive_flat (hentry : entry < ts.length) :
    StructuresLive ts entry (flat ts entry) :=
  structuresLive builder_dispatch hentry

end Live

end Structuring
end StructuredFlow
