/-
# Loops of a program

The label of a loop chooses between a program that leads back to it and what follows
(`Looped`).  The labels that lead to it are its own and the body, and they are left for what
follows alone, which therefore is the pivot, if it is a label (`Looped.exists_loopPlan`).
The body holds a program behind which is a marker (`LoopParts`).
-/

import StructuredFlow.Proofs.Program.Region

namespace StructuredFlow

open Relation Structuring Transfers

variable {ts ts' : Transfers} {set : LabelSet} {p : Program} {after start : Target}
  {ids : List Nat} {a b c s : Nat}

/-! ### The parts of a loop -/

/-- The body of a loop and what is behind it are programs; the jumps back are expressed by
nesting. -/
structure LoopParts (ts : Transfers) (set : LabelSet) (entry : Nat) (plan : LoopPlan) (head : Nat)
    (body next : Program) (after : Target) : Prop where
  /-- The pattern is the loop. -/
  pattern_eq : (choosePattern ts set entry).1 = .loop plan
  /-- The loop splits the region. -/
  split : LoopSplit ts set entry plan
  /-- The entry leads into the body. -/
  targets_eq : (markLoop ts entry plan).realTargets entry = [head]
  /-- What is behind the entry in the body. -/
  onBody : ∃ marker ids, marker.isMarker = true ∧
    ProgramRegion (fallInto (markLoop ts entry plan) entry (some head)) (plan.body.erase entry) head
      body marker ids
  /-- What is behind the pivot. -/
  onRest : ∀ pivot, plan.pivot = some pivot →
    ∃ ids, ProgramRegion (markLoop ts entry plan) plan.after pivot next after ids
  /-- Without a pivot there is nothing behind the loop. -/
  next_eq : plan.pivot = none → next = .done

/-- An entry that chooses between a program that leads back to it and what follows. -/
structure Looped (ts : Transfers) (set : LabelSet) (a b : Nat) (body next : Program)
    (after start : Target) (bodyIds ids : List Nat) : Prop where
  /-- The labels are a region. -/
  region : Region ts set a
  /-- The entry chooses between the body and what follows. -/
  chooses : ts.Chooses a (.label b) start
  /-- The body has a statement. -/
  body_ne : body ≠ .done
  /-- The body leads back to the entry. -/
  lowered : Lowered ts body (.label a) (.label b) bodyIds
  /-- What follows. -/
  next : Concludes ts next after start ids
  /-- The labels of the body differ. -/
  nodup_body : bodyIds.Nodup
  /-- The members are the entry and the labels of the two. -/
  mem_iff : ∀ x, x ∈ set ↔ x = a ∨ x ∈ bodyIds ∨ Onward ids after x
  /-- The entry is none of the latter. -/
  entry_apart : a ∉ bodyIds ∧ ¬Onward ids after a
  /-- No label is in the body and behind it. -/
  body_apart : ∀ x ∈ bodyIds, ¬Onward ids after x

namespace Looped

variable {body next : Program} {bodyIds : List Nat}

/-- The body starts at one of its labels. -/
theorem mem_body (h : Looped ts set a b body next after start bodyIds ids) : b ∈ bodyIds := by
  obtain ⟨x, hx, hbx⟩ := h.lowered.exists_start h.body_ne
  exact Target.label.inj hbx ▸ hx

/-- Where the loop continues is part of what follows. -/
theorem onward_start (h : Looped ts set a b body next after start bodyIds ids)
    (hs : start = .label s) : Onward ids after s := h.next.lowered.start_mem hs

/-- Each label of the body leads back to the entry. -/
theorem reaches_entry (h : Looped ts set a b body next after start bodyIds ids) :
    ∀ x ∈ bodyIds, ReflTransGen (ts.JumpsWithin set) x a := by
  have hset : ∀ x ∈ bodyIds, x ∈ set := fun x hx => (h.mem_iff x).mpr (Or.inr (Or.inl hx))
  refine h.lowered.reaches rfl fun x hx y hxy => ⟨hset x hx, ?_, hxy⟩
  rcases h.lowered.jumps_mem hx hxy with hy | hy
  · exact hset y hy
  · exact Target.label.inj hy ▸ h.region.entry_mem

/-- The entry leads back to itself. -/
theorem cycle (h : Looped ts set a b body next after start bodyIds ids) :
    TransGen (ts.JumpsWithin set) a a := by
  have hb : ts.JumpsWithin set a b := ⟨h.region.entry_mem,
    (h.mem_iff b).mpr (Or.inr (Or.inl h.mem_body)), h.chooses.mem_targets.mpr (Or.inl rfl)⟩
  exact TransGen.head' hb (h.reaches_entry b h.mem_body)

/-- The core of the loop is the entry and the body. -/
theorem mem_core (h : Looped ts set a b body next after start bodyIds ids) {x : Nat} :
    x ∈ loopCore (Flow.analyze ts set) set a ↔ x = a ∨ x ∈ bodyIds := by
  rw [mem_loopCore h.region]
  constructor
  · rintro ⟨hx, rfl | hw⟩
    · exact Or.inl rfl
    · refine or_assoc.mpr ((h.mem_iff x).mp hx) |>.resolve_right fun honward => ?_
      have hback : ∀ y, TransGen (ts.JumpsWithin set) x y → Onward ids after y := by
        intro y hy
        induction hy with
        | single hstep => exact h.next.onward_jumps honward hstep.2.2
        | tail _ hstep ih => exact h.next.onward_jumps ih hstep.2.2
      exact h.entry_apart.2 (hback a hw)
  · rintro (rfl | hx)
    · exact ⟨h.region.entry_mem, Or.inl rfl⟩
    · refine ⟨(h.mem_iff x).mpr (Or.inr (Or.inl hx)), Or.inr ?_⟩
      refine (reflTransGen_iff_eq_or_transGen.mp (h.reaches_entry x hx)).resolve_left ?_
      rintro rfl
      exact h.entry_apart.1 hx

/-- The core is left from the entry, for what follows. -/
theorem core_jumps (h : Looped ts set a b body next after start bodyIds ids) {x y : Nat}
    (hx : x = a ∨ x ∈ bodyIds) (hxy : ts.Jumps x y) :
    (y = a ∨ y ∈ bodyIds) ∨ start = .label y := by
  rcases hx with rfl | hx
  · rcases h.chooses.mem_targets.mp hxy with hy | hy
    · exact Or.inl (Or.inr (Target.label.inj hy ▸ h.mem_body))
    · exact Or.inr hy.symm
  · rcases h.lowered.jumps_mem hx hxy with hy | hy
    · exact Or.inl (Or.inr hy)
    · exact Or.inl (Or.inl (Target.label.inj hy).symm)

/-- **A loop fits**, with what follows as its pivot. -/
theorem exists_loopPlan (h : Looped ts set a b body next after start bodyIds ids) :
    ∃ plan, (choosePattern ts set a).1 = .loop plan ∧ plan.pivot = start.label? ∧
      ∀ x, x ∈ plan.body ↔ x = a ∨ x ∈ bodyIds := by
  have hr := h.region
  by_cases hmarker : start.isMarker = true
  · have hclosed := loopPlan?_closed hr h.cycle fun x hx y _ hxy => by
      rw [h.mem_core] at hx ⊢
      exact (h.core_jumps hx hxy).resolve_right (Target.ne_label hmarker y)
    exact ⟨_, congrArg Prod.fst (choosePattern_of_cycle hr h.cycle hclosed),
      (Target.label?_eq_none_iff.mpr hmarker).symm, fun x => h.mem_core⟩
  · obtain ⟨s, rfl⟩ := Target.exists_eq_label hmarker
    have honward := h.onward_start rfl
    obtain ⟨plan, hplan, hpivot, hbody⟩ := loopPlan?_left hr h.cycle
      ((h.mem_iff s).mpr (Or.inr (Or.inr honward)))
      (fun hin => (h.mem_core.mp hin).elim (fun hsa => h.entry_apart.2 (hsa ▸ honward))
        fun hin => h.body_apart s hin honward)
      (h.chooses.mem_targets.mpr (Or.inr rfl)) fun x hx y _ hxy => by
        rw [h.mem_core] at hx ⊢
        exact (h.core_jumps hx hxy).imp_right fun hy => (Target.label.inj hy).symm
    exact ⟨plan, congrArg Prod.fst (choosePattern_of_cycle hr h.cycle hplan), hpivot,
      fun x => (hbody x).trans h.mem_core⟩

/-- The body of the loop and what follows are the two programs. -/
theorem loopParts (h : Looped ts set a b body next after start bodyIds ids) {plan : LoopPlan}
    (hpattern : (choosePattern ts set a).1 = .loop plan) (hpivot : plan.pivot = start.label?)
    (hbody : ∀ x, x ∈ plan.body ↔ x = a ∨ x ∈ bodyIds) :
    LoopParts ts set a plan b body next after := by
  have hr := h.region
  have hs : LoopSplit ts set a plan := by
    have hsplit := splits_choosePattern hr
    rwa [hpattern] at hsplit
  have hstart : ∀ x, plan.pivot = some x ↔ start = .label x := fun x => by
    rw [hpivot, Target.label?_eq_some_iff]
  have hba : b ≠ a := fun heq => h.entry_apart.1 (heq ▸ h.mem_body)
  have hjumps : ∀ x, (markLoop ts a plan).Jumps a x ↔ x = b := by
    intro x
    rw [jumps_markLoop, Jumps, h.chooses.mem_targets, Target.label.injEq]
    constructor
    · rintro ⟨hx, hkept⟩
      exact hx.resolve_right fun hx => (hkept hs.entry_mem).1 ((hstart x).mpr hx.symm)
    · rintro rfl
      exact ⟨Or.inl rfl, fun _ => ⟨fun hp => h.body_apart x h.mem_body
        (h.onward_start ((hstart x).mp hp)), hba⟩⟩
  have htargets : (markLoop ts a plan).realTargets a = [b] := by
    refine List.perm_singleton.mp ((List.perm_ext_iff_of_nodup (nodup_eraseDups _)
      (List.nodup_singleton b)).mpr fun x => ?_)
    rw [← realTargets, mem_realTargets, hjumps, List.mem_singleton]
  have hkept : ∀ x ∈ bodyIds, loopTarget a plan.pivot (.label x) = .label x := by
    intro x hx
    rw [loopTarget, if_neg, if_neg]
    · rintro rfl
      exact h.entry_apart.1 hx
    · intro hp
      exact h.body_apart x hx (h.onward_start ((hstart x).mp hp.symm))
  have hback : loopTarget a plan.pivot (.label a) = .continueOf a := by
    rw [loopTarget, if_neg, if_pos rfl]
    intro hp
    exact h.entry_apart.2 (h.onward_start ((hstart a).mp hp.symm))
  have hlowered : Lowered (markLoop ts a plan) body _ _ bodyIds := h.lowered.map (fun x hx => by
    rw [markLoop, at?_retarget, if_pos (LabelSet.contains_iff_mem.mpr
      ((hbody x).mpr (Or.inr hx)))]) hkept
  rw [hback, hkept b h.mem_body] at hlowered
  have hconcludes : Concludes (markLoop ts a plan) body (.continueOf a) (.label b) bodyIds :=
    ⟨hlowered, h.nodup_body, by simp, by simp⟩
  refine
    { pattern_eq := hpattern
      split := hs
      targets_eq := htargets
      onBody := ⟨.continueOf a, bodyIds, rfl, (programRegion_next (hs.region_body hr) hconcludes
        (fun x => ?_) ?_ fun x _ => hjumps x).2⟩
      onRest := fun pivot hp => ?_
      next_eq := fun hnone => ?_ }
  · rw [hbody, Onward]
    simp
  · rintro (hin | hin)
    · exact h.entry_apart.1 hin
    · exact absurd hin (by simp)
  · obtain rfl := (hstart pivot).mp hp
    have hafter : ∀ x, x ∈ plan.after ↔ Onward ids after x := by
      intro x
      have hmem := (hs.mem_iff x).symm.trans (h.mem_iff x)
      rw [hbody, ← or_assoc] at hmem
      constructor
      · intro hx
        refine (hmem.mp (Or.inr hx)).resolve_left fun hin => ?_
        exact hs.not_mem_after x ((hbody x).mpr hin) hx
      · intro hx
        refine (hmem.mpr (Or.inr hx)).resolve_left ?_
        rintro (rfl | hin)
        · exact h.entry_apart.2 hx
        · exact h.body_apart x hin hx
    refine ⟨ids, hs.region_after hr hp, h.next.congr fun x hx => ?_, hafter⟩
    exact (marks_markLoop ts a plan).at?_eq x fun hin =>
      hs.not_mem_after x hin ((hafter x).mpr hx)
  · have hmarker := Target.label?_eq_none_iff.mp (hpivot.symm.trans hnone)
    exact (h.next.lowered.eq_done_of_isMarker hmarker).1

end Looped

/-- A loop is one, whatever follows. -/
theorem ProgramRegion.whileLoop {body next : Program}
    (h : ProgramRegion ts set a (.whileLoop body next) after ids) :
    ∃ plan b, LoopParts ts set a plan b body next after := by
  obtain ⟨hr, ⟨hl, hnodup, hne, hreturns⟩, hmem⟩ := h
  cases hl with
  | @whileLoop _ _ _ start head ids bodyIds _ hnext hbody hlowered hchooses =>
    obtain ⟨b, hb, rfl⟩ := hlowered.exists_start hbody
    simp only [List.forall_mem_cons, List.forall_mem_append] at hne
    rw [List.nodup_cons, List.mem_append, not_or, List.nodup_append'] at hnodup
    obtain ⟨⟨haBody, haIds⟩, hnodupBody, hnodupIds, hdisjoint⟩ := hnodup
    have hloop : Looped ts set a b body next after start bodyIds ids :=
      { region := hr
        chooses := hchooses
        body_ne := hbody
        lowered := hlowered
        next := ⟨hnext, hnodupIds, hne.2.2, hreturns⟩
        nodup_body := hnodupBody
        mem_iff := fun x => by
          rw [hmem]
          simp [Onward, or_assoc]
        entry_apart := ⟨haBody, fun h => h.elim haIds hne.1⟩
        body_apart := fun x hx h => h.elim (hdisjoint hx) (hne.2.1 x hx) }
    obtain ⟨plan, hpattern, hpivot, hmem⟩ := hloop.exists_loopPlan
    exact ⟨plan, b, hloop.loopParts hpattern hpivot hmem⟩

end StructuredFlow
