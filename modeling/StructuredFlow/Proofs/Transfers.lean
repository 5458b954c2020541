/-
# Jumps of a table of transfers

`ts.Jumps a b` says that label `a` has label `b` among its targets: an edge of
the branch graph.  `ts.JumpsWithin set` keeps the edges between members of a set.

Structuring changes a table only through functions that leave a target as it is
or make a marker of it (`OnlyMarks`).  `MarksWithin p ts ts'` says that `ts'`
comes from `ts` that way and that only labels with `p` changed; edges can only
disappear (`MarksWithin.jumps`).
-/

import StructuredFlow.Proofs.Reach
import StructuredFlow.Structuring

namespace StructuredFlow

open Relation

/-- Without its repetitions a list has none. -/
theorem nodup_eraseDups (l : List Nat) : l.eraseDups.Nodup := by
  induction hn : l.length using Nat.strong_induction_on generalizing l with
  | _ n ih =>
    cases l with
    | nil => simp
    | cons a l =>
      rw [List.eraseDups_cons, List.nodup_cons]
      refine ⟨fun h => by simp at h, ih _ ?_ _ rfl⟩
      exact hn ▸ Nat.lt_succ_of_le (List.length_filter_le _ _)

/-- A function on targets that leaves a target as it is or makes a marker of it. -/
def OnlyMarks (f : Target → Target) : Prop := ∀ target, f target = target ∨ (f target).isMarker

/-- Leaving each target as it is makes no jumps. -/
theorem OnlyMarks.id : OnlyMarks fun target => target := fun _ => Or.inl rfl

/-- Functions that only mark may follow each other. -/
theorem OnlyMarks.comp {f g : Target → Target} (hg : OnlyMarks g) (hf : OnlyMarks f) :
    OnlyMarks (g ∘ f) := by
  intro target
  rw [Function.comp_apply]
  rcases hg (f target) with h | h
  · rw [h]
    exact hf target
  · exact Or.inr h

/-- Where a label is left it was there before. -/
theorem OnlyMarks.eq_of_label {f : Target → Target} (hf : OnlyMarks f) {target : Target} {id : Nat}
    (h : f target = .label id) : target = .label id := by
  rcases hf target with he | hm
  · exact he ▸ h
  · rw [h] at hm
    exact absurd hm Bool.false_ne_true

/-- Making a marker of each target only marks. -/
theorem onlyMarks_const {marker : Target} (h : marker.isMarker = true) :
    OnlyMarks fun _ => marker := fun _ => Or.inr h

/-- Putting a marker for a target only marks. -/
theorem onlyMarks_replace (old : Target) {marker : Target} (h : marker.isMarker = true) :
    OnlyMarks (Target.replace old marker) := by
  intro target
  unfold Target.replace
  split
  · exact Or.inr h
  · exact Or.inl rfl

/-- Targets changed twice are changed once by both functions. -/
theorem Transfer.mapTargets_mapTargets (f g : Target → Target) (t : Transfer) :
    (t.mapTargets f).mapTargets g = t.mapTargets (g ∘ f) := by
  cases t <;> simp [Transfer.mapTargets]

/-- Targets that are left alone leave the transfer. -/
theorem Transfer.mapTargets_id (t : Transfer) : t.mapTargets (fun target => target) = t := by
  cases t <;> simp [Transfer.mapTargets]

namespace Transfers

variable {ts ts' ts'' : Transfers} {p : Nat → Prop}

/-- An edge of the branch graph. -/
def Jumps (ts : Transfers) (a b : Nat) : Prop := Target.label b ∈ ts.targets a

/-- An edge between members of a set. -/
def JumpsWithin (ts : Transfers) (set : LabelSet) (a b : Nat) : Prop :=
  a ∈ set ∧ b ∈ set ∧ ts.Jumps a b

/-- The labels among some targets. -/
theorem mem_filterMap_label? {targets : List Target} {b : Nat} :
    b ∈ targets.filterMap Target.label? ↔ Target.label b ∈ targets := by
  rw [List.mem_filterMap]
  constructor
  · rintro ⟨target, hm, hl⟩
    cases target with
    | label id =>
      obtain rfl : id = b := Option.some.inj hl
      exact hm
    | _ => exact absurd hl (by simp [Target.label?])
  · intro h
    exact ⟨_, h, rfl⟩

/-- The real targets of a label are what it jumps to. -/
theorem mem_realTargets {a b : Nat} : b ∈ ts.realTargets a ↔ ts.Jumps a b := by
  rw [realTargets, List.mem_eraseDups, mem_filterMap_label?, Jumps]

/-! ### Targets after a change -/

/-- The transfer of a label after the labels of a set were retargeted. -/
theorem at?_retarget (q : Nat → Bool) (f : Target → Target) (ts : Transfers) (id : Nat) :
    (ts.retarget q f).at? id =
      if q id then (ts.at? id).map (Transfer.mapTargets f) else ts.at? id := by
  unfold at?
  rw [List.getD_eq_getElem?_getD, List.getD_eq_getElem?_getD, getElem?_retarget]
  cases ts[id]? with
  | none => simp
  | some t => rfl

/-- The targets of a label depend on its transfer only. -/
theorem targets_eq_of_at? {id : Nat} (h : ts'.at? id = ts.at? id) :
    ts'.targets id = ts.targets id := by
  unfold targets
  rw [h]

/-- The targets of a label after the labels of a set were retargeted. -/
theorem targets_retarget (q : Nat → Bool) (f : Target → Target) (ts : Transfers) (id : Nat) :
    (ts.retarget q f).targets id = if q id then (ts.targets id).map f else ts.targets id := by
  unfold targets
  rw [at?_retarget]
  split
  · cases ts.at? id with
    | none => rfl
    | some t => simp
  · rfl

/-- Outside the set the targets stay. -/
theorem targets_retarget_of_not {q : Nat → Bool} {id : Nat} (h : q id = false)
    (f : Target → Target) : (ts.retarget q f).targets id = ts.targets id := by
  rw [targets_retarget, h, if_neg Bool.false_ne_true]

/-- Retargeting one label changes its targets and no others. -/
theorem targets_retargetAt (id : Nat) (f : Target → Target) (ts : Transfers) (a : Nat) :
    (ts.retargetAt id f).targets a = if a = id then (ts.targets a).map f else ts.targets a := by
  rw [retargetAt, targets_retarget]
  simp

/-! ### Turning jumps into markers -/

/-- A table that comes from another by making markers of targets, at labels with
`p` only. -/
structure MarksWithin (p : Nat → Prop) (ts ts' : Transfers) : Prop where
  /-- No label comes or goes. -/
  length_eq : ts'.length = ts.length
  /-- Targets stay or become markers. -/
  marks : ∀ id, ∃ f, OnlyMarks f ∧ ts'.at? id = (ts.at? id).map (Transfer.mapTargets f)
  /-- Other labels keep their transfer. -/
  at?_eq : ∀ id, ¬p id → ts'.at? id = ts.at? id

namespace MarksWithin

/-- A table comes from itself. -/
protected theorem refl (p : Nat → Prop) (ts : Transfers) : MarksWithin p ts ts where
  length_eq := rfl
  marks id := ⟨_, OnlyMarks.id, by cases ts.at? id <;> simp [Transfer.mapTargets_id]⟩
  at?_eq _ _ := rfl

/-- Changes follow each other. -/
protected theorem trans (h : MarksWithin p ts ts') (h' : MarksWithin p ts' ts'') :
    MarksWithin p ts ts'' where
  length_eq := h'.length_eq.trans h.length_eq
  marks id := by
    obtain ⟨f, hf, he⟩ := h.marks id
    obtain ⟨g, hg, he'⟩ := h'.marks id
    refine ⟨g ∘ f, hg.comp hf, ?_⟩
    rw [he', he]
    cases ts.at? id <;> simp [Transfer.mapTargets_mapTargets]
  at?_eq id hid := (h'.at?_eq id hid).trans (h.at?_eq id hid)

/-- Changes of some labels are changes of more. -/
protected theorem mono {q : Nat → Prop} (h : MarksWithin p ts ts') (hpq : ∀ id, p id → q id) :
    MarksWithin q ts ts' where
  length_eq := h.length_eq
  marks := h.marks
  at?_eq id hid := h.at?_eq id fun hp => hid (hpq id hp)

/-- Retargeting a set marks within it. -/
protected theorem retarget {q : Nat → Bool} {f : Target → Target} (hf : OnlyMarks f)
    (hq : ∀ id, q id = true → p id) (ts : Transfers) : MarksWithin p ts (ts.retarget q f) where
  length_eq := length_retarget q f ts
  marks id := by
    rw [at?_retarget]
    split
    · exact ⟨f, hf, rfl⟩
    · exact (MarksWithin.refl p ts).marks id
  at?_eq id hid := by
    rw [at?_retarget, if_neg fun h => hid (hq id h)]

/-- Retargeting one label marks within any set that it belongs to. -/
protected theorem retargetAt {id : Nat} {f : Target → Target} (hf : OnlyMarks f) (hid : p id)
    (ts : Transfers) : MarksWithin p ts (ts.retargetAt id f) :=
  MarksWithin.retarget hf (fun a ha => by rwa [beq_iff_eq.mp ha]) ts

/-- The targets of a label outside stay. -/
theorem targets_eq (h : MarksWithin p ts ts') {id : Nat} (hid : ¬p id) :
    ts'.targets id = ts.targets id := targets_eq_of_at? (h.at?_eq id hid)

/-- Edges can only disappear. -/
theorem jumps (h : MarksWithin p ts ts') {a b : Nat} (hab : ts'.Jumps a b) : ts.Jumps a b := by
  obtain ⟨f, hf, he⟩ := h.marks a
  unfold Jumps targets at *
  rw [he] at hab
  cases hat : ts.at? a with
  | none => simp [hat] at hab
  | some t =>
    simp only [hat, Option.map_some, Option.getD_some, Transfer.targets_mapTargets] at hab ⊢
    obtain ⟨target, hm, hl⟩ := List.mem_map.mp hab
    exact hf.eq_of_label hl ▸ hm

end MarksWithin

/-! ### The labels that the entry reaches -/

/-- **The search for live labels finds what the entry reaches**, along jumps to
labels that exist. -/
theorem mem_live {entry a : Nat} : a ∈ ts.live entry ↔
    entry < ts.length ∧ ReflTransGen (fun a b => ts.Jumps a b ∧ b < ts.length) entry a := by
  have hstep : StepBelow ts.realTargets ts.length = fun a b => ts.Jumps a b ∧ b < ts.length := by
    funext a b
    rw [StepBelow, mem_realTargets]
  rw [live, mem_reach_empty, hstep]
  simp

/-- What is live is a set of the labels of the table. -/
@[simp] theorem capacity_live (ts : Transfers) (entry : Nat) :
    (ts.live entry).capacity = ts.length := capacity_reach _ _ _

end Transfers
end StructuredFlow
