/-
# Trees that realise a branch graph

Where control goes on after a label depends on what its targets mean at its place
in the tree.  A `Meaning` says that: for each target the label that comes next.
Blocks change it for their parts:

| part | meaning |
| --- | --- |
| before something | `before`: falling through leads there |
| the body of a loop | `inLoop`: falling through and continuing lead to its entry, |
| | breaking behind it |
| an arm of a conditional | `inArm`: falling through leads behind it, |
| | and so does breaking if it is a breaking one |
| a dispatch | `among`: jumps lead to its labels |

`t.Realises ts₀ ts m start` says that the targets in `ts` of each label of the tree
mean, at its place, the jumps in `ts₀` of that label, and that each part of the tree
is entered at the right label; `start` is where the tree is entered, or what follows
it if it is empty.

Two changes keep this: any change to labels of other trees (`Realises.congr`), and
the relaxing of the trailing labels, where a marker that means the same as falling
through becomes a fall-through (`Realises.relax`).
-/

import StructuredFlow.Proofs.BlockTree.Leaves
import StructuredFlow.Proofs.Transfers

namespace StructuredFlow

/-- The label that control goes on to through a target, if there is one. -/
abbrev Meaning := Target → Option Nat

namespace Meaning

/-- The meaning where falling through leads to `next`. -/
def before (m : Meaning) (next : Option Nat) : Meaning
  | .nop => next
  | target => m target

/-- The meaning in the body of a loop that is followed by `after`. -/
def inLoop (m : Meaning) (entry : Nat) (after : Option Nat) : Meaning
  | .label id => m (.label id)
  | .breakOf e => if e = entry then after else m (.breakOf e)
  | .continueOf e => if e = entry then some entry else m (.continueOf e)
  | .nop => some entry

/-- The meaning in an arm of a conditional that is followed by `after`. -/
def inArm (m : Meaning) (entry : Nat) (breaking : Bool) (after : Option Nat) : Meaning
  | .label id => m (.label id)
  | .breakOf e => if breaking = true ∧ e = entry then after else m (.breakOf e)
  | .continueOf e => m (.continueOf e)
  | .nop => after

/-- The meaning among labels that may jump to each other. -/
def among (m : Meaning) (labels : List Nat) : Meaning
  | .label id => if id ∈ labels then some id else none
  | target => m target

/-- The meaning in a tree that nothing is around and nothing follows. -/
def outermost : Meaning := fun _ => none

variable (m : Meaning) (entry e id : Nat) (breaking : Bool) (next after : Option Nat)
  (labels : List Nat)

@[simp] theorem outermost_apply (target : Target) : outermost target = none := rfl

@[simp] theorem before_nop : m.before next .nop = next := rfl
@[simp] theorem before_label : m.before next (.label id) = m (.label id) := rfl
@[simp] theorem before_breakOf : m.before next (.breakOf e) = m (.breakOf e) := rfl
@[simp] theorem before_continueOf : m.before next (.continueOf e) = m (.continueOf e) := rfl
@[simp] theorem inLoop_nop : m.inLoop entry after .nop = some entry := rfl
@[simp] theorem inLoop_label : m.inLoop entry after (.label id) = m (.label id) := rfl
@[simp] theorem inArm_nop : m.inArm entry breaking after .nop = after := rfl
@[simp] theorem inArm_label : m.inArm entry breaking after (.label id) = m (.label id) := rfl
@[simp] theorem among_nop : m.among labels .nop = m .nop := rfl
@[simp] theorem among_breakOf : m.among labels (.breakOf e) = m (.breakOf e) := rfl
@[simp] theorem among_continueOf : m.among labels (.continueOf e) = m (.continueOf e) := rfl

@[simp] theorem inArm_continueOf :
    m.inArm entry breaking after (.continueOf e) = m (.continueOf e) := rfl

@[simp] theorem among_label :
    m.among labels (.label id) = if id ∈ labels then some id else none := rfl

@[simp] theorem inLoop_breakOf :
    m.inLoop entry after (.breakOf e) = if e = entry then after else m (.breakOf e) := rfl

@[simp] theorem inLoop_continueOf : m.inLoop entry after (.continueOf e) =
    if e = entry then some entry else m (.continueOf e) := rfl

@[simp] theorem inArm_breakOf : m.inArm entry breaking after (.breakOf e) =
    if breaking = true ∧ e = entry then after else m (.breakOf e) := rfl

/-- In front of what a fall-through leads to anyway a target means the same. -/
@[simp] theorem before_self : m.before (m .nop) = m := by
  funext target
  cases target <;> rfl

section Congr

variable {m m' : Meaning} {target : Target} {entry : Nat} {breaking : Bool}
  {next after : Option Nat} {labels : List Nat} (h : m' target = m target)
include h

/-- In front of a chain a target means the same if it does around it. -/
theorem before_congr : m'.before next target = m.before next target := by
  cases target <;> simp [h]

/-- In a loop a target means the same if it does around it. -/
theorem inLoop_congr : m'.inLoop entry after target = m.inLoop entry after target := by
  cases target <;> simp [h]

/-- In an arm a target means the same if it does around it. -/
theorem inArm_congr :
    m'.inArm entry breaking after target = m.inArm entry breaking after target := by
  cases target <;> simp [h]

/-- In a dispatch a target means the same if it does around it. -/
theorem among_congr : m'.among labels target = m.among labels target := by
  cases target <;> simp [h]

end Congr

end Meaning

/-- The targets of a label mean the jumps that it has in the first table. -/
def Means (ts₀ ts : Transfers) (m : Meaning) (a : Nat) : Prop :=
  ∃ ids : List Nat, ts₀.targets a = ids.map Target.label ∧ (ts.targets a).map m = ids.map some

namespace Means

variable {ts₀ ts ts' : Transfers} {m m' : Meaning} {a : Nat}

/-- Each target of a label leads to a label. -/
theorem exists_of_mem (h : Means ts₀ ts m a) {target : Target} (ht : target ∈ ts.targets a) :
    ∃ id, m target = some id := by
  obtain ⟨ids, _, hm⟩ := h
  have hmem := List.mem_map_of_mem ht (f := m)
  rw [hm] at hmem
  obtain ⟨id, _, hid⟩ := List.mem_map.mp hmem
  exact ⟨id, hid.symm⟩

/-- Targets may be exchanged for others that mean the same. -/
theorem map (h : Means ts₀ ts m a) {f : Target → Target}
    (ht : ts'.targets a = (ts.targets a).map f)
    (hf : ∀ target ∈ ts.targets a, ∀ id, m target = some id → m' (f target) = some id) :
    Means ts₀ ts' m' a := by
  obtain ⟨ids, h₀, hm⟩ := id h
  refine ⟨ids, h₀, ?_⟩
  rw [ht, List.map_map, ← hm]
  refine List.map_congr_left fun target htarget => ?_
  obtain ⟨id, hid⟩ := h.exists_of_mem htarget
  rw [Function.comp_apply, hf target htarget id hid, hid]

/-- The targets of a label mean the same under any meaning that agrees on them. -/
theorem mono (h : Means ts₀ ts m a) (ht : ts'.targets a = ts.targets a)
    (hm : ∀ target ∈ ts.targets a, ∀ id, m target = some id → m' target = some id) :
    Means ts₀ ts' m' a :=
  h.map (f := id) (by rw [ht, List.map_id]) hm

/-- A marker that means the same as falling through may be relaxed. -/
theorem relax (h : Means ts₀ ts m a) {old : Target} {q : Nat → Bool}
    (hold : q a = true → m old = m .nop) :
    Means ts₀ (ts.retarget q (Target.replace old .nop)) m a := by
  by_cases hq : q a = true
  · refine h.map (f := Target.replace old .nop) ?_ fun target _ id hid => ?_
    · rw [Transfers.targets_retarget, if_pos hq]
    · rw [Target.replace]
      split
      next heq => rw [← hold hq, ← heq, hid]
      next => exact hid
  · exact h.mono (Transfers.targets_retarget_of_not (by simpa using hq) _) fun _ _ _ hid => hid

end Means

namespace BlockTree

/-- The tree, entered at `start`, does over `ts` what the branch graph of `ts₀` does. -/
def Realises (ts₀ ts : Transfers) : BlockTree → Meaning → Option Nat → Prop
  | .nil, m, start => start = m .nop
  | .leaf .simple entry labels next, m, start =>
    start = some entry ∧ labels = [entry] ∧
      ∃ mid, Means ts₀ ts (m.before mid) entry ∧ next.Realises ts₀ ts m mid
  | .leaf .dispatch entry labels next, m, start =>
    start = some entry ∧ entry ∈ labels ∧
      ∃ mid, (∀ a ∈ labels, Means ts₀ ts ((m.before mid).among labels) a) ∧
        next.Realises ts₀ ts m mid
  | .loop entry _ inc rest next, m, start =>
    start = some entry ∧ (∃ kind labels, inc = .leaf kind entry labels .nil) ∧
      ∃ mid after, inc.Realises ts₀ ts ((m.inLoop entry after).before mid) (some entry) ∧
        rest.Realises ts₀ ts (m.inLoop entry after) mid ∧ next.Realises ts₀ ts m after
  | .cond entry _ breaking test check ifTrue ifFalse next, m, start =>
    start = some entry ∧ (∃ kind, check = .leaf kind entry [entry] .nil) ∧
      ts.targets entry = [.nop, .nop] ∧
      ∃ onTrue onFalse after, ts₀.targets entry = [.label onTrue, .label onFalse] ∧
        ifTrue.Realises ts₀ ts (m.inArm entry breaking after)
          (some (if test.negated then onFalse else onTrue)) ∧
        ifFalse.Realises ts₀ ts (m.inArm entry breaking after)
          (some (if test.negated then onTrue else onFalse)) ∧
        next.Realises ts₀ ts m after

namespace Realises

variable {ts₀ ts ts' : Transfers} {m m' : Meaning} {start : Option Nat} {t : BlockTree}

/-- A tree that realises transfers holds its entries. -/
theorem entriesHeld (h : t.Realises ts₀ ts m start) : t.EntriesHeld := by
  induction t generalizing m start with
  | nil => trivial
  | leaf kind entry labels next ih =>
    cases kind with
    | simple =>
      obtain ⟨_, hlabels, _, _, hnext⟩ := h
      exact ⟨hlabels, ih hnext⟩
    | dispatch =>
      obtain ⟨_, hlabels, _, _, hnext⟩ := h
      exact ⟨hlabels, ih hnext⟩
  | loop entry labels inc rest next ihInc ihRest ihNext =>
    obtain ⟨_, _, _, _, hinc, hrest, hnext⟩ := h
    exact ⟨ihInc hinc, ihRest hrest, ihNext hnext⟩
  | cond entry labels breaking test check ifTrue ifFalse next _ ihTrue ihFalse ihNext =>
    obtain ⟨_, ⟨kind, rfl⟩, _, _, _, _, _, htrue, hfalse, hnext⟩ := h
    refine ⟨?_, ihTrue htrue, ihFalse hfalse, ihNext hnext⟩
    cases kind with
    | simple => exact ⟨rfl, trivial⟩
    | dispatch => exact ⟨List.mem_singleton_self entry, trivial⟩

/-- **Only the labels of the tree matter**, and of the meaning that of their targets
and of falling through. -/
theorem congr (h : t.Realises ts₀ ts m start) (hnop : m' .nop = m .nop)
    (hts : ∀ a ∈ t.leafLabels, ts'.targets a = ts.targets a)
    (hm : ∀ a ∈ t.leafLabels, ∀ target ∈ ts.targets a, m' target = m target) :
    t.Realises ts₀ ts' m' start := by
  induction t generalizing m m' start with
  | nil => exact Eq.trans h hnop.symm
  | leaf kind entry labels next ih =>
    rw [leafLabels_leaf] at hts hm
    have hnextTs : ∀ a ∈ next.leafLabels, ts'.targets a = ts.targets a := fun a ha =>
      hts a (List.mem_append_right _ ha)
    have hnextM : ∀ a ∈ next.leafLabels, ∀ target ∈ ts.targets a, m' target = m target :=
      fun a ha => hm a (List.mem_append_right _ ha)
    cases kind with
    | simple =>
      obtain ⟨hstart, rfl, mid, hmeans, hnext⟩ := h
      have hentry : entry ∈ [entry] ++ next.leafLabels := by simp
      refine ⟨hstart, rfl, mid, hmeans.mono (hts entry hentry) fun target ht id hid => ?_,
        ih hnext hnop hnextTs hnextM⟩
      exact (Meaning.before_congr (hm entry hentry target ht)).trans hid
    | dispatch =>
      obtain ⟨hstart, hmem, mid, hmeans, hnext⟩ := h
      refine ⟨hstart, hmem, mid, fun a ha => ?_, ih hnext hnop hnextTs hnextM⟩
      have ha' : a ∈ labels ++ next.leafLabels := List.mem_append_left _ ha
      refine (hmeans a ha).mono (hts a ha') fun target ht id hid => ?_
      exact (Meaning.among_congr (Meaning.before_congr (hm a ha' target ht))).trans hid
  | loop entry labels inc rest next ihInc ihRest ihNext =>
    rw [leafLabels_loop] at hts hm
    obtain ⟨hstart, hinc, mid, after, hinc', hrest, hnext⟩ := h
    refine ⟨hstart, hinc, mid, after, ihInc hinc' rfl (fun a ha => hts a (by simp [ha]))
      fun a ha target ht => ?_, ihRest hrest rfl (fun a ha => hts a (by simp [ha]))
      fun a ha target ht => ?_, ihNext hnext hnop (fun a ha => hts a (by simp [ha]))
      fun a ha => hm a (by simp [ha])⟩
    · exact Meaning.before_congr (Meaning.inLoop_congr (hm a (by simp [ha]) target ht))
    · exact Meaning.inLoop_congr (hm a (by simp [ha]) target ht)
  | cond entry labels breaking test check ifTrue ifFalse next _ ihTrue ihFalse ihNext =>
    rw [leafLabels_cond] at hts hm
    obtain ⟨hstart, ⟨kind, rfl⟩, hentry, onTrue, onFalse, after, htargets, htrue, hfalse,
      hnext⟩ := h
    refine ⟨hstart, ⟨kind, rfl⟩, ?_, onTrue, onFalse, after, htargets,
      ihTrue htrue rfl (fun a ha => hts a (by simp [ha])) fun a ha target ht => ?_,
      ihFalse hfalse rfl (fun a ha => hts a (by simp [ha])) fun a ha target ht => ?_,
      ihNext hnext hnop (fun a ha => hts a (by simp [ha])) fun a ha => hm a (by simp [ha])⟩
    · rw [hts entry (by simp), hentry]
    · exact Meaning.inArm_congr (hm a (by simp [ha]) target ht)
    · exact Meaning.inArm_congr (hm a (by simp [ha]) target ht)

/-- The table may change at labels of other trees. -/
theorem congr_table (h : t.Realises ts₀ ts m start)
    (hts : ∀ a ∈ t.leafLabels, ts'.targets a = ts.targets a) : t.Realises ts₀ ts' m start :=
  h.congr rfl hts fun _ _ _ _ => rfl

/-- An arm without breaks out of its conditional may be one of a conditional that is
not breaking. -/
theorem of_not_breaking {entry : Nat} {after : Option Nat}
    (h : t.Realises ts₀ ts (m.inArm entry true after) start)
    (hno : ∀ a ∈ t.leafLabels, .breakOf entry ∉ ts.targets a) :
    t.Realises ts₀ ts (m.inArm entry false after) start := by
  refine h.congr rfl (fun _ _ => rfl) fun a ha target ht => ?_
  cases target with
  | breakOf e =>
    have hne : e ≠ entry := fun he => hno a ha (he ▸ ht)
    simp [hne]
  | _ => rfl

/-! ### Relaxing the end of a tree -/

section Relax

variable {old : Target} {q : Nat → Bool}

/-- Labels that are not relaxed keep their targets, so their tree realises as before. -/
theorem retarget_of_not (h : t.Realises ts₀ ts m start) {f : Target → Target}
    (hq : ∀ a ∈ t.leafLabels, q a = false) : t.Realises ts₀ (ts.retarget q f) m start :=
  h.congr_table fun a ha => Transfers.targets_retarget_of_not (hq a ha) f

/-- In a leaf and behind it a marker may be relaxed that means what falling through means. -/
theorem relax_leaf {kind : LeafKind} {entry : Nat} {labels : List Nat} {next : BlockTree}
    (h : (leaf kind entry labels next).Realises ts₀ ts m start) (hold : m old = m .nop)
    (hmark : old.isMarker = true) (hown : next.isNil = false → ∀ a ∈ labels, q a = false)
    (hnext : ∀ {mid}, next.Realises ts₀ ts m mid →
      next.Realises ts₀ (ts.retarget q (Target.replace old .nop)) m mid) :
    (leaf kind entry labels next).Realises ts₀ (ts.retarget q (Target.replace old .nop)) m
      start := by
  -- a relaxed label stands at the end, where falling through means what it means for the tree
  have hfall : ∀ {mid}, next.Realises ts₀ ts m mid → ∀ a ∈ labels, q a = true →
      m.before mid old = m.before mid .nop := by
    intro mid hmid a ha hqa
    cases next with
    | nil =>
      obtain rfl : mid = m .nop := hmid
      simpa using hold
    | _ => exact absurd hqa (by simp [hown rfl a ha])
  cases kind with
  | simple =>
    obtain ⟨hstart, rfl, mid, hmeans, hmid⟩ := h
    exact ⟨hstart, rfl, mid, hmeans.relax (hfall hmid entry (List.mem_singleton_self entry)),
      hnext hmid⟩
  | dispatch =>
    obtain ⟨hstart, hmem, mid, hmeans, hmid⟩ := h
    refine ⟨hstart, hmem, mid, fun a ha => (hmeans a ha).relax fun hqa => ?_, hnext hmid⟩
    have := hfall hmid a ha hqa
    cases old with
    | label id => exact absurd hmark Bool.false_ne_true
    | _ => exact this

/-- In an arm, markers are relaxed only if nothing follows the conditional, and then
falling through means the same in the arm as for the conditional. -/
theorem relax_arm {arm next : BlockTree} {entry : Nat} {breaking : Bool} {after : Option Nat}
    (h : arm.Realises ts₀ ts (m.inArm entry breaking after) start)
    (hnext : next.Realises ts₀ ts m after) (hold : m old = m .nop) (hne : old ≠ .breakOf entry)
    (hq : ∀ a ∈ arm.leafLabels, q a = true → next.isNil = true)
    (hrelax : m.inArm entry breaking after old = m.inArm entry breaking after .nop →
      arm.Realises ts₀ (ts.retarget q (Target.replace old .nop)) (m.inArm entry breaking after)
        start) :
    arm.Realises ts₀ (ts.retarget q (Target.replace old .nop)) (m.inArm entry breaking after)
      start := by
  by_cases hnil : next.isNil = true
  · obtain rfl := isNil_iff.mp hnil
    obtain rfl : after = m .nop := hnext
    refine hrelax ?_
    cases old with
    | breakOf e =>
      have hee : e ≠ entry := fun he => hne (congrArg Target.breakOf he)
      simpa [hee] using hold
    | nop => rfl
    | _ => exact hold
  · exact h.retarget_of_not fun a ha => Bool.eq_false_iff.mpr fun hqa => hnil (hq a ha hqa)

/-- **A marker at the end of a tree that means the same as falling through may be
relaxed.** -/
theorem relax (h : t.Realises ts₀ ts m start) (hold : m old = m .nop) (hmark : old.isMarker = true)
    (hbreak : ∀ e ∈ t.leafLabels, old ≠ .breakOf e) (hnodup : t.leafLabels.Nodup)
    (hq : t.SelectsEnd q) :
    t.Realises ts₀ (ts.retarget q (Target.replace old .nop)) m start := by
  have hheld := h.entriesHeld
  induction t generalizing m start with
  | nil => exact h
  | leaf kind entry labels next ih =>
    have hheldNext : next.EntriesHeld := by cases kind <;> exact hheld.2
    obtain ⟨hown, hqNext⟩ := hq.of_leaf hheldNext (leavesApart_of_nodup hnodup)
    rw [leafLabels_leaf] at hbreak hnodup
    exact relax_leaf h hold hmark hown fun hmid => ih hmid hold
      (fun e he => hbreak e (List.mem_append_right _ he)) hnodup.of_append_right hqNext hheldNext
  | loop entry labels inc rest next _ _ ihNext =>
    obtain ⟨hstart, hinc, mid, after, hinc', hrest, hnext⟩ := h
    obtain ⟨_, _, hheldNext⟩ := hheld
    obtain ⟨hbody, hqNext⟩ := hq.of_loop hheldNext (leavesApart_of_nodup hnodup)
    rw [leafLabels_loop] at hbreak hnodup
    exact ⟨hstart, hinc, mid, after,
      hinc'.retarget_of_not fun a ha => hbody a (List.mem_append_left _ ha),
      hrest.retarget_of_not fun a ha => hbody a (List.mem_append_right _ ha),
      ihNext hnext hold (fun e he => hbreak e (List.mem_append_right _ he)) hnodup.of_append_right
        hqNext hheldNext⟩
  | cond entry labels breaking test check ifTrue ifFalse next _ ihTrue ihFalse ihNext =>
    obtain ⟨hstart, ⟨kind, rfl⟩, hentry, onTrue, onFalse, after, htargets, htrue, hfalse,
      hnext⟩ := h
    obtain ⟨_, hheldTrue, hheldFalse, hheldNext⟩ := hheld
    obtain ⟨hcheck, hnil, hqTrue, hqFalse, hqNext⟩ :=
      hq.of_cond hheldTrue hheldFalse hheldNext (leavesApart_of_nodup hnodup)
    rw [leafLabels_cond, leafLabels_leaf, leafLabels_nil, List.append_nil] at hbreak hnodup
    have hndArms := hnodup.of_append_left
    have hne := hbreak entry (by simp)
    refine ⟨hstart, ⟨kind, rfl⟩, ?_, onTrue, onFalse, after, htargets, ?_, ?_, ?_⟩
    · rw [Transfers.targets_retarget_of_not (hcheck entry (by simp)), hentry]
    · refine relax_arm htrue hnext hold hne (fun a ha => hnil a (by simp [ha])) fun harm => ?_
      exact ihTrue htrue harm (fun e he => hbreak e (by simp [he]))
        hndArms.of_append_left.of_append_right hqTrue hheldTrue
    · refine relax_arm hfalse hnext hold hne (fun a ha => hnil a (by simp [ha])) fun harm => ?_
      exact ihFalse hfalse harm (fun e he => hbreak e (by simp [he])) hndArms.of_append_right
        hqFalse hheldFalse
    · exact ihNext hnext hold (fun e he => hbreak e (by simp [he])) hnodup.of_append_right hqNext
        hheldNext

end Relax

end Realises
end BlockTree
end StructuredFlow
