/-
# What structuring makes realises the branch graph

If the targets of a region mean the jumps they had at first, those to members by
themselves and all others as markers (`Resolved`), then the tree made of the region
realises those jumps (`Builds.realises`).  The induction is on the derivation: for
each part the split says which jumps were marked, and the meaning at the part's place
gives the markers back the labels that the jumps led to.

A construct is free to give a meaning to its own markers, because where a region is
taken up no marker of a construct entered in it is in use (`Resolved.fresh`).
-/

import StructuredFlow.Proofs.BlockTree.Realises
import StructuredFlow.Proofs.Structuring.Builds

namespace StructuredFlow

/-- A meaning that gives a marker out of a construct the label that another one does. -/
def Meaning.Extends (m m' : Meaning) : Prop :=
  ∀ e id, (m (.breakOf e) = some id → m' (.breakOf e) = some id) ∧
    (m (.continueOf e) = some id → m' (.continueOf e) = some id)

namespace Meaning

variable {m m' : Meaning} {entry : Nat} {after : Option Nat}

/-- A meaning extends itself. -/
theorem extends_refl (m : Meaning) : m.Extends m := fun _ _ => ⟨id, id⟩

/-- In a loop the meaning around it is extended, if nothing around has its markers. -/
theorem extends_inLoop (h : m (.breakOf entry) = none ∧ m (.continueOf entry) = none) :
    m.Extends (m.inLoop entry after) := by
  intro e id
  by_cases he : e = entry
  · subst he
    simp [h.1, h.2]
  · simp [he]

/-- In an arm the meaning around it is extended, if nothing around has its break. -/
theorem extends_inArm (h : m (.breakOf entry) = none) (breaking : Bool) :
    m.Extends (m.inArm entry breaking after) := by
  intro e id
  by_cases he : e = entry
  · subst he
    simp [h]
  · simp [he]

end Meaning

namespace Structuring

open Transfers

variable {ts₀ ts ts' : Transfers} {set : LabelSet} {entry : Nat} {m : Meaning}

/-- The targets of a region mean their first jumps, those to members by themselves and
all others as markers. -/
structure Resolved (ts₀ ts : Transfers) (m : Meaning) (set : LabelSet) : Prop where
  /-- Each target has a meaning; falling through has none. -/
  means : ∀ a ∈ set, Means ts₀ ts ((m.before none).among set.toList) a
  /-- No marker of a member is in use. -/
  fresh : ∀ e ∈ set, m (.breakOf e) = none ∧ m (.continueOf e) = none

/-- What is requested is resolved. -/
def ResolvedRequest (ts₀ ts : Transfers) (m : Meaning) : Option (LabelSet × Nat) → Prop
  | none => True
  | some (set, _) => Resolved ts₀ ts m set

/-- Where a request starts: at the entry of the region, or behind it all. -/
def startOf (m : Meaning) : Option (LabelSet × Nat) → Option Nat
  | none => m .nop
  | some (_, entry) => some entry

/-- The targets of a member keep their meaning when they are exchanged for others, if
those in the place of jumps mean the labels jumped to. -/
theorem means_map {a : Nat} (h : Means ts₀ ts ((m.before none).among set.toList) a) {m' : Meaning}
    {f : Target → Target} (hts : ts'.targets a = (ts.targets a).map f)
    (hmarker : ∀ target, target.isMarker = true → f target = target) (hext : m.Extends m')
    (hlabel : ∀ b ∈ set, ts.Jumps a b → m' (f (.label b)) = some b) : Means ts₀ ts' m' a := by
  refine h.map hts fun target ht id hid => ?_
  cases target with
  | label b =>
    rw [Meaning.among_label] at hid
    split at hid
    next hb =>
      obtain rfl := Option.some.inj hid
      exact hlabel b (LabelSet.mem_toList.mp hb) ht
    next => exact absurd hid (by simp)
  | breakOf e =>
    rw [hmarker _ rfl]
    exact (hext e id).1 hid
  | continueOf e =>
    rw [hmarker _ rfl]
    exact (hext e id).2 hid
  | nop => exact absurd hid (by simp)

/-- The same where the targets stay. -/
theorem means_of_eq {a : Nat} (h : Means ts₀ ts ((m.before none).among set.toList) a) {m' : Meaning}
    (hts : ts'.targets a = ts.targets a) (hext : m.Extends m')
    (hlabel : ∀ b ∈ set, ts.Jumps a b → m' (.label b) = some b) : Means ts₀ ts' m' a :=
  means_map h (f := id) (by rw [hts, List.map_id]) (fun _ _ => rfl) hext hlabel

/-- Where labels are exchanged markers stay. -/
theorem replace_marker (id : Nat) (new : Target) (target : Target)
    (h : target.isMarker = true) : Target.replace (.label id) new target = target := by
  rw [Target.replace, if_neg]
  rintro rfl
  exact absurd h Bool.false_ne_true

/-- A member of a dispatch can be jumped to in it. -/
theorem among_eq_some {labels : List Nat} {b : Nat} (h : b ∈ labels) :
    m.among labels (.label b) = some b := by
  rw [Meaning.among_label, if_pos h]

/-- What no jump leaves remains resolved while other labels change. -/
theorem Resolved.part (h : Resolved ts₀ ts m set) {part : LabelSet} (hsub : ∀ a ∈ part, a ∈ set)
    (hts : ∀ a ∈ part, ts'.targets a = ts.targets a)
    (hclosed : ∀ a ∈ part, ∀ b ∈ set, ts.Jumps a b → b ∈ part) : Resolved ts₀ ts' m part where
  means a ha := means_of_eq (h.means a (hsub a ha)) (hts a ha) (Meaning.extends_refl m)
    fun b hb hab => among_eq_some (LabelSet.mem_toList.mpr (hclosed a ha b hb hab))
  fresh e he := h.fresh e (hsub e he)

/-! ### Leaves -/

/-- **A leaf realises its region**, as a simple one or as a dispatch. -/
theorem MakesLeaf.realises {outcome : Outcome} (h : MakesLeaf ts set entry outcome)
    (hmeans : ∀ a ∈ set, Means ts₀ ts (m.among set.toList) a) :
    outcome.tree.Realises ts₀ outcome.transfers m (some entry) := by
  obtain ⟨kind, htree, hsimple⟩ := h.tree_eq
  rw [htree, h.transfers_eq]
  cases kind with
  | simple =>
    obtain ⟨hlist, hself⟩ := hsimple rfl
    refine ⟨rfl, hlist, m .nop, ?_, rfl⟩
    rw [Meaning.before_self]
    refine (hmeans entry h.region.entry_mem).mono rfl fun target ht id hid => ?_
    cases target with
    | label b =>
      rw [hlist, Meaning.among_label] at hid
      split at hid
      next hb => exact absurd (List.mem_singleton.mp hb ▸ ht) hself
      next => exact absurd hid (by simp)
    | _ => exact hid
  | dispatch =>
    refine ⟨rfl, LabelSet.mem_toList.mpr h.region.entry_mem, m .nop, fun a ha => ?_, rfl⟩
    rw [Meaning.before_self]
    exact hmeans a (LabelSet.mem_toList.mp ha)

/-! ### Blocks of their own -/

/-- **A simple entry and what follows it realise their region.** -/
theorem realises_simple {next : Option Nat} {rest : Outcome} (hr : Region ts set entry)
    (hs : SimpleSplit ts set entry next) (hres : Resolved ts₀ ts m set)
    (hrest : Builds (fallInto ts entry next) (next.map fun next => (set.erase entry, next)) rest)
    (ih : ResolvedRequest ts₀ (fallInto ts entry next) m
        (next.map fun next => (set.erase entry, next)) →
      rest.tree.Realises ts₀ rest.transfers m
        (startOf m (next.map fun next => (set.erase entry, next)))) :
    (simpleOutcome entry next rest).tree.Realises ts₀ rest.transfers m (some entry) := by
  have hentry : rest.transfers.targets entry = (fallInto ts entry next).targets entry :=
    hrest.marks.targets_eq (not_inRequest_erase next)
  refine ⟨rfl, rfl, _, ?_, ih ?_⟩
  · cases next with
    | none =>
      refine means_of_eq (hres.means entry hr.entry_mem) hentry (Meaning.extends_refl m)
        fun b hb hab => ?_
      exact absurd ((hs.jumps_iff b hb).mp hab) (by simp)
    | some next =>
      rw [fallInto, targets_retargetAt, if_pos rfl] at hentry
      refine means_map (hres.means entry hr.entry_mem) hentry (replace_marker _ _)
        (Meaning.extends_refl m) fun b hb hab => ?_
      obtain rfl := Option.some.inj ((hs.jumps_iff b hb).mp hab)
      rw [Target.replace, if_pos rfl]
      rfl
  · cases next with
    | none => trivial
    | some next =>
      refine hres.part (fun a ha => (LabelSet.mem_erase.mp ha).1) (fun a ha => ?_)
        fun a ha b hb hab => LabelSet.mem_erase.mpr ⟨hb, fun he => ?_⟩
      · exact (marks_fallInto ts entry _).targets_eq (LabelSet.mem_erase.mp ha).2
      · exact hs.no_jump a (LabelSet.mem_erase.mp ha).1 (he ▸ hab)

/-! ### Loops -/

section Loops

variable {headTs : Transfers} {head : LabelSet} {plan : LoopPlan} {start : Option Nat}
  {inc body rest : Outcome}

/-- In the body of a loop the targets are those that the loop gives them. -/
theorem targets_markLoop {a : Nat} (ha : a ∈ plan.body) :
    (markLoop ts entry plan).targets a = (ts.targets a).map (loopTarget entry plan.pivot) := by
  rw [markLoop, targets_retarget, if_pos (LabelSet.contains_iff_mem.mpr ha)]

/-- The marked jumps of the body mean what they led to. -/
theorem LoopSplit.means_marked (hs : LoopSplit ts set entry plan) (hres : Resolved ts₀ ts m set)
    {a : Nat} (ha : a ∈ plan.body) : Means ts₀ (markLoop ts entry plan)
      (((m.inLoop entry (startOf m (plan.pivot.map fun pivot => (plan.after, pivot)))).before
        none).among plan.body.toList) a := by
  have hfresh := hres.fresh entry (hs.mem_of_mem_body hs.entry_mem)
  refine means_map (hres.means a (hs.mem_of_mem_body ha)) (targets_markLoop ha)
    (fun target ht => ?_) (Meaning.extends_inLoop hfresh) fun b hb hab => ?_
  · cases target with
    | label => exact absurd ht Bool.false_ne_true
    | _ => rfl
  · rw [loopTarget]
    split
    next hp => simp [← hp, startOf]
    next hp =>
      split
      next he => simp [he]
      next =>
        have hbody := (hs.body_jumps a ha b hb hab).resolve_right fun h => hp h.symm
        exact among_eq_some (LabelSet.mem_toList.mpr hbody)

/-- The head of the body, followed by the rest of it. -/
theorem LoopHead.means_head {m' : Meaning} (hr : Region ts set entry)
    (hhead : LoopHead ts set entry headTs head start)
    (hmeans : ∀ a ∈ set, Means ts₀ ts ((m'.before none).among set.toList) a) :
    ∀ a ∈ head, Means ts₀ headTs ((m'.before
      (startOf m' (start.map fun next => (set.erase entry, next)))).among head.toList) a := by
  intro a ha
  cases hhead with
  | dispatched =>
    exact means_of_eq (hmeans a ha) rfl (Meaning.extends_refl m') fun b hb _ =>
      among_eq_some (LabelSet.mem_toList.mpr hb)
  | @split _ target hs htarget =>
    obtain ⟨rfl, _⟩ := LabelSet.mem_single.mp ha
    have hentry := hmeans a hr.entry_mem
    cases target with
    | none =>
      refine means_of_eq hentry rfl (Meaning.extends_refl m') fun b hb hab => ?_
      rcases htarget with h | ⟨_, t, h, _⟩
      · exact absurd (h.symm ▸ (hs.jumps_iff b hb).mp hab) (by simp)
      · exact absurd h (by simp)
    | some target =>
      refine means_map hentry ?_ (replace_marker target .nop) (Meaning.extends_refl m')
        fun b hb hab => ?_
      · rw [fallInto, targets_retargetAt, if_pos rfl]
      · have hnext := (hs.jumps_iff b hb).mp hab
        rcases htarget with h | ⟨h, _⟩
        · obtain rfl : target = b := Option.some.inj (h.trans hnext)
          rw [Target.replace, if_pos rfl, hnext]
          rfl
        · exact absurd (h.symm.trans hnext) (by simp)

/-- The rest of the body is resolved once the head has been split off. -/
theorem LoopHead.resolved_tail {m' : Meaning} (hhead : LoopHead ts set entry headTs head start)
    (hmeans : ∀ a ∈ set, Means ts₀ ts ((m'.before none).among set.toList) a)
    (hfresh : ∀ e ∈ set, e ≠ entry → m' (.breakOf e) = none ∧ m' (.continueOf e) = none) :
    ResolvedRequest ts₀ headTs m' (start.map fun next => (set.erase entry, next)) := by
  cases start with
  | none => trivial
  | some next =>
    cases hhead with
    | split hs =>
      refine ⟨fun a ha => ?_, fun e he => ?_⟩
      · obtain ⟨has, hne⟩ := LabelSet.mem_erase.mp ha
        refine means_of_eq (hmeans a has) ((marks_fallInto ts entry _).targets_eq hne)
          (Meaning.extends_refl m') fun b hb hab => ?_
        exact among_eq_some (LabelSet.mem_toList.mpr (LabelSet.mem_erase.mpr
          ⟨hb, fun he => hs.no_jump a has (he ▸ hab)⟩))
      · obtain ⟨he, hne⟩ := LabelSet.mem_erase.mp he
        exact hfresh e he hne

/-- The head and the rest of a loop body after the continues at its end are relaxed. -/
theorem realises_relaxLoop {m' : Meaning} {mid : Option Nat}
    (hcont : m' (.continueOf entry) = m' .nop)
    (hinc : MakesLeaf headTs head entry inc)
    (hbody : Builds headTs (start.map fun next => (set.erase entry, next)) body)
    (hdisjoint : ∀ a ∈ head, ¬InRequest (start.map fun next => (set.erase entry, next)) a)
    (hincR : inc.tree.Realises ts₀ headTs (m'.before mid) (some entry))
    (hbodyR : body.tree.Realises ts₀ body.transfers m' mid) :
    inc.tree.Realises ts₀ (relaxLoop body.transfers entry inc.tree body.tree) (m'.before mid)
        (some entry) ∧
      body.tree.Realises ts₀ (relaxLoop body.transfers entry inc.tree body.tree) m' mid := by
  have hincBody : inc.tree.Realises ts₀ body.transfers (m'.before mid) (some entry) :=
    hincR.congr_table fun a ha => hbody.marks.targets_eq (hdisjoint a (hinc.mem_leafLabels.mp ha))
  unfold relaxLoop
  dsimp only
  cases hnil : body.tree.isNil with
  | true =>
    rw [if_pos rfl]
    rw [BlockTree.isNil_iff.mp hnil] at hbodyR ⊢
    obtain rfl : mid = m' .nop := hbodyR
    refine ⟨hincBody.relax hcont rfl (fun e _ => by simp) ?_ fun a _ hqa => ?_, rfl⟩
    · rw [hinc.leafLabels]
      exact LabelSet.nodup_toList head
    · exact BlockTree.mem_trailingLabels.mp (List.contains_iff_mem.mp hqa)
  | false =>
    rw [if_neg Bool.false_ne_true]
    refine ⟨hincBody.retarget_of_not fun a ha => ?_, hbodyR.relax hcont rfl (fun e _ => by simp)
      hbody.nodup_leafLabels fun a _ hqa => ?_⟩
    · refine Bool.eq_false_iff.mpr fun hqa => hdisjoint a (hinc.mem_leafLabels.mp ha) ?_
      exact hbody.inRequest_of_mem_trailingLabels (List.contains_iff_mem.mp hqa)
    · exact BlockTree.mem_trailingLabels.mp (List.contains_iff_mem.mp hqa)

/-- What is behind the pivot is resolved once the body is made. -/
theorem LoopSplit.resolved_after (hs : LoopSplit ts set entry plan) (hres : Resolved ts₀ ts m set)
    (hmarks : MarksWithin (· ∈ plan.body) (markLoop ts entry plan) ts') :
    ResolvedRequest ts₀ ts' m (plan.pivot.map fun pivot => (plan.after, pivot)) := by
  cases plan.pivot with
  | none => trivial
  | some pivot =>
    refine hres.part (fun a ha => hs.mem_of_mem_after ha) (fun a ha => ?_) hs.after_jumps
    have hout : a ∉ plan.body := fun h => hs.not_mem_after a h ha
    rw [hmarks.targets_eq hout, (marks_markLoop ts entry plan).targets_eq hout]

/-- **A loop and what follows it realise their region**: its markers mean the jumps that they
stand for. -/
theorem realises_loop (hr : Region ts set entry) (hs : LoopSplit ts set entry plan)
    (hres : Resolved ts₀ ts m set)
    (hhead : LoopHead (markLoop ts entry plan) plan.body entry headTs head start)
    (hinc : MakesLeaf headTs head entry inc)
    (hbody : Builds headTs (start.map fun next => (plan.body.erase entry, next)) body)
    (hrest : Builds (relaxLoop body.transfers entry inc.tree body.tree)
      (plan.pivot.map fun pivot => (plan.after, pivot)) rest)
    (ihBody : ∀ m', ResolvedRequest ts₀ headTs m'
        (start.map fun next => (plan.body.erase entry, next)) →
      body.tree.Realises ts₀ body.transfers m'
        (startOf m' (start.map fun next => (plan.body.erase entry, next))))
    (ihRest : ResolvedRequest ts₀ (relaxLoop body.transfers entry inc.tree body.tree) m
        (plan.pivot.map fun pivot => (plan.after, pivot)) →
      rest.tree.Realises ts₀ rest.transfers m
        (startOf m (plan.pivot.map fun pivot => (plan.after, pivot)))) :
    (loopOutcome entry plan inc body rest).tree.Realises ts₀ rest.transfers m (some entry) := by
  have hregion := hs.region_body hr
  have hmeans := fun a (ha : a ∈ plan.body) => hs.means_marked hres ha
  have hincR := hinc.realises (hhead.means_head hregion hmeans)
  rw [hinc.transfers_eq] at hincR
  have hbodyR := ihBody _ (hhead.resolved_tail hmeans fun e he hne => by
    simpa [hne] using hres.fresh e (hs.mem_of_mem_body he))
  have hrelaxed := realises_relaxLoop (by simp) hinc hbody (fun a ha => hhead.not_inRequest ha)
    hincR hbodyR
  -- what follows changes no label of the body
  have hkept : ∀ a, a ∈ plan.body → rest.transfers.targets a =
      (relaxLoop body.transfers entry inc.tree body.tree).targets a := fun a ha =>
    hrest.marks.targets_eq (hs.not_inRequest ha)
  obtain ⟨kind, htree, -⟩ := hinc.tree_eq
  refine ⟨rfl, ⟨kind, _, htree⟩, _, _, hrelaxed.1.congr_table fun a ha => hkept a ?_,
    hrelaxed.2.congr_table fun a ha => hkept a ?_, ihRest ?_⟩
  · exact (hhead.mem_iff hregion a).mpr (Or.inl (hinc.mem_leafLabels.mp ha))
  · exact (hhead.mem_iff hregion a).mpr (Or.inr ((hbody.mem_leafLabels a).mp ha))
  · exact hs.resolved_after hres (Builds.marks_of_loop hr hs hhead hinc hbody hbody.marks)

end Loops

/-! ### Conditionals -/

section Conditionals

variable {plan : CondPlan} {check first second rest : Outcome}

/-- In the arms the targets are those that the conditional gives them. -/
theorem CondSplit.targets_markCond (hs : CondSplit ts set entry plan) {a : Nat}
    (ha : a ∈ plan.regions) :
    (markCond ts entry plan).targets a = (ts.targets a).map (armTarget entry plan.join) := by
  have hne : a ≠ entry := fun h => hs.entry_not_mem (h ▸ ha)
  rw [markCond, targets_retargetAt, if_neg hne, targets_retarget,
    if_pos (LabelSet.contains_iff_mem.mpr ha)]

/-- The check falls through to whichever arm is chosen. -/
theorem CondSplit.targets_markCond_entry (hs : CondSplit ts set entry plan) :
    (markCond ts entry plan).targets entry = [.nop, .nop] := by
  rw [markCond, targets_retargetAt, if_pos rfl, targets_retarget_of_not
    (LabelSet.contains_eq_false_iff.mpr hs.entry_not_mem), hs.targets_entry]
  simp [checkTarget]

/-- An arm is resolved once its jumps to the join are marked. -/
theorem CondSplit.resolved_arm (hr : Region ts set entry) (hs : CondSplit ts set entry plan)
    (hres : Resolved ts₀ ts m set) {part : LabelSet} {arm : Nat}
    (harm : ArmRegion ts set plan.join part arm) (hsub : ∀ a ∈ part, a ∈ plan.regions)
    (hts : ∀ a ∈ part, ts'.targets a = (markCond ts entry plan).targets a) :
    Resolved ts₀ ts' (m.inArm entry true
      (startOf m (plan.join.map fun join => (plan.rest, join)))) part where
  means a ha := by
    have hfresh := (hres.fresh entry hr.entry_mem).1
    refine means_map (hres.means a (harm.subset a ha)) (f := armTarget entry plan.join) ?_
      (fun target ht => ?_) (Meaning.extends_inArm hfresh true) fun b hb hab => ?_
    · rw [hts a ha, hs.targets_markCond (hsub a ha)]
    · cases target with
      | label => exact absurd ht Bool.false_ne_true
      | _ => rfl
    · rw [armTarget]
      split
      next hj => simp [← hj, startOf]
      next hj =>
        have hpart := (harm.jumps a ha b hb hab).resolve_right fun h => hj h.symm
        exact among_eq_some (LabelSet.mem_toList.mpr hpart)
  fresh e he := by
    have hne : e ≠ entry := fun h => hs.entry_not_mem (h ▸ hsub e he)
    simpa [hne] using hres.fresh e (harm.subset e he)

/-- The arms after the breaks at their ends are relaxed. -/
theorem realises_relaxCond (hs : CondSplit ts set entry plan) {after start₁ start₂ : Option Nat}
    (hfirst : Builds (markCond ts entry plan) (some (plan.firstRegion, plan.firstArm)) first)
    (hsecond : Builds first.transfers (plan.second.map fun arm => (arm.2, arm.1)) second)
    (hfirstR : first.tree.Realises ts₀ first.transfers (m.inArm entry true after) start₁)
    (hsecondR : second.tree.Realises ts₀ second.transfers (m.inArm entry true after) start₂) :
    first.tree.Realises ts₀ (relaxCond second.transfers entry plan first.tree second.tree)
        (m.inArm entry true after) start₁ ∧
      second.tree.Realises ts₀ (relaxCond second.transfers entry plan first.tree second.tree)
        (m.inArm entry true after) start₂ := by
  have hdisjoint : ∀ a ∈ first.tree.leafLabels, a ∉ second.tree.leafLabels := fun a ha hb =>
    hs.not_inRequest_second ((hfirst.mem_leafLabels a).mp ha) ((hsecond.mem_leafLabels a).mp hb)
  have hfirstSecond : first.tree.Realises ts₀ second.transfers (m.inArm entry true after) start₁ :=
    hfirstR.congr_table fun a ha => hsecond.marks.targets_eq fun h =>
      hdisjoint a ha ((hsecond.mem_leafLabels a).mpr h)
  have hne : ∀ e, e ∈ plan.regions → Target.breakOf entry ≠ .breakOf e := by
    rintro e he h
    exact hs.entry_not_mem (Target.breakOf.inj h ▸ he)
  rw [relaxCond]
  split
  next => exact ⟨hfirstSecond, hsecondR⟩
  next =>
    refine ⟨hfirstSecond.relax (by simp) rfl (fun e he => hne e ?_) hfirst.nodup_leafLabels
      fun a ha hqa => ?_, hsecondR.relax (by simp) rfl (fun e he => hne e ?_)
      hsecond.nodup_leafLabels fun a ha hqa => ?_⟩
    · exact (hs.mem_request_regions e).mpr (Or.inl ((hfirst.mem_leafLabels e).mp he))
    · refine BlockTree.mem_trailingLabels.mp
        ((List.mem_append.mp (List.contains_iff_mem.mp hqa)).resolve_right fun h => ?_)
      exact hdisjoint a ha (BlockTree.mem_leafLabels_of_mem_trailingLabels hsecond.entriesHeld h)
    · exact (hs.mem_request_regions e).mpr (Or.inr ((hsecond.mem_leafLabels e).mp he))
    · refine BlockTree.mem_trailingLabels.mp
        ((List.mem_append.mp (List.contains_iff_mem.mp hqa)).resolve_left fun h => ?_)
      exact hdisjoint a (BlockTree.mem_leafLabels_of_mem_trailingLabels hfirst.entriesHeld h) ha

/-- Where a conditional is not breaking no label of its arms breaks out of it. -/
theorem not_mem_of_isBreaking_eq_false (h : isBreaking ts entry plan = false) {a : Nat}
    (ha : a ∈ plan.regions) : Target.breakOf entry ∉ ts.targets a := by
  intro hb
  have hany : isBreaking ts entry plan = true := by
    rw [isBreaking, Bool.or_eq_true, List.any_eq_true]
    exact Or.inr ⟨a, LabelSet.mem_toList.mpr ha, List.contains_iff_mem.mpr hb⟩
  exact absurd (h.symm.trans hany) Bool.false_ne_true

/-- An arm realises whether or not the conditional is tagged as breaking. -/
theorem realises_of_isBreaking {t : BlockTree} {after start : Option Nat}
    (h : t.Realises ts₀ ts (m.inArm entry true after) start)
    (hsub : ∀ a ∈ t.leafLabels, a ∈ plan.regions) :
    t.Realises ts₀ ts (m.inArm entry (isBreaking ts entry plan) after) start := by
  cases hb : isBreaking ts entry plan with
  | true => exact h
  | false =>
    exact h.of_not_breaking fun a ha => not_mem_of_isBreaking_eq_false hb (hsub a ha)

/-- The jumps of the entry of a conditional are those of the first table. -/
theorem CondSplit.targets_original (hr : Region ts set entry) (hs : CondSplit ts set entry plan)
    (hres : Resolved ts₀ ts m set) :
    ts₀.targets entry = [.label plan.onTrue, .label plan.onFalse] := by
  obtain ⟨ids, h₀, hmap⟩ := hres.means entry hr.entry_mem
  have hjumps : ∀ b, (Target.label b) ∈ ts.targets entry → b ∈ set.toList := fun b hb => by
    obtain ⟨id, hid⟩ := (hres.means entry hr.entry_mem).exists_of_mem hb
    rw [Meaning.among_label] at hid
    split at hid
    next h => exact h
    next => exact absurd hid (by simp)
  have ht := hjumps plan.onTrue (by simp [hs.targets_entry])
  have hf := hjumps plan.onFalse (by simp [hs.targets_entry])
  rw [hs.targets_entry, List.map_cons, List.map_cons, List.map_nil, among_eq_some ht,
    among_eq_some hf] at hmap
  have hids : ids = [plan.onTrue, plan.onFalse] :=
    List.map_injective_iff.mpr (Option.some_injective Nat) hmap.symm
  rw [h₀, hids]
  rfl

/-- The second arm is resolved once the first one is made. -/
theorem CondSplit.resolved_second (hr : Region ts set entry) (hs : CondSplit ts set entry plan)
    (hres : Resolved ts₀ ts m set)
    (hmarks : MarksWithin (· ∈ plan.firstRegion) (markCond ts entry plan) ts') :
    ResolvedRequest ts₀ ts'
      (m.inArm entry true (startOf m (plan.join.map fun join => (plan.rest, join))))
      (plan.second.map fun arm => (arm.2, arm.1)) := by
  cases hsec : plan.second with
  | none => trivial
  | some second =>
    exact hs.resolved_arm hr hres (hs.second _ _ hsec) (fun a ha => hs.mem_regions_second hsec ha)
      fun a ha => hmarks.targets_eq fun h => hs.disjoint _ _ hsec a h ha

/-- The second arm starts at the other target; without one that is the join. -/
theorem CondSplit.startOf_second (hs : CondSplit ts set entry plan) :
    startOf (m.inArm entry true (startOf m (plan.join.map fun join => (plan.rest, join))))
        (plan.second.map fun arm => (arm.2, arm.1)) =
      some (if plan.test.negated then plan.onTrue else plan.onFalse) := by
  have hother := hs.other_eq
  rw [← hother]
  cases hsec : plan.second with
  | none =>
    rw [hsec, Option.elim_none] at hother
    rw [hother]
    simp [startOf]
  | some second => rfl

/-- What is behind the join is resolved once the arms are made. -/
theorem CondSplit.resolved_rest (hs : CondSplit ts set entry plan) (hres : Resolved ts₀ ts m set)
    (hmarks : MarksWithin (· ∈ plan.regions) (markCond ts entry plan) ts') :
    ResolvedRequest ts₀ ts' m (plan.join.map fun join => (plan.rest, join)) := by
  cases plan.join with
  | none => trivial
  | some join =>
    refine hres.part (fun a ha => ((hs.mem_rest a).mp ha).1) (fun a ha => ?_) hs.rest_jumps
    obtain ⟨_, hne, hnreg⟩ := (hs.mem_rest a).mp ha
    rw [hmarks.targets_eq hnreg,
      (marks_markCond ts entry plan).targets_eq (not_or.mpr ⟨hne, hnreg⟩)]

/-- **A conditional and what follows it realise their region**: its check falls into the arms, and
these fall or break into what follows. -/
theorem realises_cond (hr : Region ts set entry) (hs : CondSplit ts set entry plan)
    (hres : Resolved ts₀ ts m set)
    (hcheck : MakesLeaf (markCond ts entry plan) (.single ts.length entry) entry check)
    (hfirst : Builds (markCond ts entry plan) (some (plan.firstRegion, plan.firstArm)) first)
    (hsecond : Builds first.transfers (plan.second.map fun arm => (arm.2, arm.1)) second)
    (hrest : Builds (relaxCond second.transfers entry plan first.tree second.tree)
      (plan.join.map fun join => (plan.rest, join)) rest)
    (ihFirst : ∀ m', ResolvedRequest ts₀ (markCond ts entry plan) m'
        (some (plan.firstRegion, plan.firstArm)) →
      first.tree.Realises ts₀ first.transfers m'
        (startOf m' (some (plan.firstRegion, plan.firstArm))))
    (ihSecond : ∀ m', ResolvedRequest ts₀ first.transfers m'
        (plan.second.map fun arm => (arm.2, arm.1)) →
      second.tree.Realises ts₀ second.transfers m'
        (startOf m' (plan.second.map fun arm => (arm.2, arm.1))))
    (ihRest : ResolvedRequest ts₀ (relaxCond second.transfers entry plan first.tree second.tree) m
        (plan.join.map fun join => (plan.rest, join)) →
      rest.tree.Realises ts₀ rest.transfers m
        (startOf m (plan.join.map fun join => (plan.rest, join)))) :
    (condOutcome entry plan
      (isBreaking (relaxCond second.transfers entry plan first.tree second.tree) entry plan)
      check first second rest).tree.Realises ts₀ rest.transfers m (some entry) := by
  have hfirstR := ihFirst _ (hs.resolved_arm hr hres hs.first
    (fun a ha => (hs.mem_regions a).mpr (Or.inl ha)) fun _ _ => rfl)
  have hsecondR := ihSecond _ (hs.resolved_second hr hres hfirst.marks)
  obtain ⟨hfirstRelaxed, hsecondRelaxed⟩ := realises_relaxCond hs hfirst hsecond hfirstR hsecondR
  have hmarks := Builds.marks_of_cond hs hfirst hsecond hfirst.marks hsecond.marks
  have hsubFirst : ∀ a ∈ first.tree.leafLabels, a ∈ plan.regions := fun a ha =>
    (hs.mem_request_regions a).mpr (Or.inl ((hfirst.mem_leafLabels a).mp ha))
  have hsubSecond : ∀ a ∈ second.tree.leafLabels, a ∈ plan.regions := fun a ha =>
    (hs.mem_request_regions a).mpr (Or.inr ((hsecond.mem_leafLabels a).mp ha))
  have hkept : ∀ a, a = entry ∨ a ∈ plan.regions → rest.transfers.targets a =
      (relaxCond second.transfers entry plan first.tree second.tree).targets a := fun a ha =>
    hrest.marks.targets_eq (hs.not_inRequest_rest ha)
  have hfirstStart : some plan.firstArm =
      some (if plan.test.negated then plan.onFalse else plan.onTrue) := congrArg some hs.firstArm_eq
  rw [hs.startOf_second] at hsecondRelaxed
  rw [startOf, hfirstStart] at hfirstRelaxed
  obtain ⟨kind, htree, -⟩ := hcheck.tree_eq
  have hlist : (LabelSet.single ts.length entry).toList = [entry] :=
    toList_eq_singleton hcheck.region.entry_mem fun a ha => (LabelSet.mem_single.mp ha).1
  refine ⟨rfl, ⟨kind, by rw [htree, hlist]⟩, ?_, plan.onTrue, plan.onFalse, _,
    hs.targets_original hr hres,
    (realises_of_isBreaking hfirstRelaxed hsubFirst).congr_table fun a ha =>
      hkept a (Or.inr (hsubFirst a ha)),
    (realises_of_isBreaking hsecondRelaxed hsubSecond).congr_table fun a ha =>
      hkept a (Or.inr (hsubSecond a ha)), ihRest ?_⟩
  · rw [hkept entry (Or.inl rfl), hmarks.targets_eq hs.entry_not_mem, hs.targets_markCond_entry]
  · exact hs.resolved_rest hres hmarks

end Conditionals

/-- **What structuring makes of a region realises the jumps that its targets mean.** -/
theorem Builds.realises {request : Option (LabelSet × Nat)} {outcome : Outcome}
    (h : Builds ts request outcome) (hres : ResolvedRequest ts₀ ts m request) :
    outcome.tree.Realises ts₀ outcome.transfers m (startOf m request) := by
  induction h generalizing m with
  | nothing ts => rfl
  | leaf hleaf =>
    refine hleaf.realises fun a ha => ?_
    exact means_of_eq (hres.means a ha) rfl (Meaning.extends_refl m) fun b hb _ =>
      among_eq_some (LabelSet.mem_toList.mpr hb)
  | simple hr hs _ hrest ih => exact realises_simple hr hs hres hrest ih
  | loop hr hs _ hhead hinc hbody hrest ihBody ihRest =>
    exact realises_loop hr hs hres hhead hinc hbody hrest (fun m' => @ihBody m') ihRest
  | cond hr hs _ hcheck hfirst hsecond hrest ihFirst ihSecond ihRest =>
    exact realises_cond hr hs hres hcheck hfirst hsecond hrest (fun m' => @ihFirst m')
      (fun m' => @ihSecond m') ihRest

end Structuring
end StructuredFlow
