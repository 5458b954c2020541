/-
# Falling through at the end of a tree

A label at the end of a tree that falls through leaves the tree at once, through every
conditional around it.  So a marker there that means to start the loop around it again, or to
leave the conditional around it, may as well be a fall-through: the loop starts again, and
the conditional is left, all the same.

Both are facts about two runs of a tree that treat only labels at its end differently.  Where
no such label is visited, they are the same run; after the visit to one, what they
have come to goes out through breaking conditionals and nothing else.  A relation that holds at
the leaves and is kept there holds of the runs (`EndRelation.runWithin`).  It is applied to

* one run and itself, the relation being that nothing is visited after a fall-through at the end
  (`FallsOut`);
* a run and the one with the markers replaced, which falls through where the first
  takes the marker (`Relaxed`).
-/

import StructuredFlow.Proofs.BlockTree.Visits

namespace StructuredFlow
namespace BlockTree

variable {run run' : RunInput} {q : Nat → Bool} {fuel n : Nat} {s : RunState}
  {r r₀ r' : Exit × RunState} {labels : List Nat}

/-! ### Runs that differ at the end only -/

/-- A relation between what two runs come to from a state on that is kept outside the labels
selected, which the runs treat differently. -/
structure EndRelation (run run' : RunInput) (q : Nat → Bool)
    (R : RunState → Exit × RunState → Exit × RunState → Prop) : Prop where
  /-- Other labels are treated alike. -/
  agree : ∀ a, q a = false → run'.visit a = run.visit a
  /-- The runs of a leaf are related. -/
  leaf : ∀ fuel kind entry labels s, entry ∈ labels →
    R s (runLeaf run fuel kind entry labels s) (runLeaf run' fuel kind entry labels s)
  /-- A run that visits other labels only is related to itself. -/
  refl : ∀ {labels n s r}, (∀ a ∈ labels, q a = false) → Visits run labels n s r → R s r r
  /-- Other labels may have been visited before. -/
  prepend : ∀ {labels n s r₀ r r'}, (∀ a ∈ labels, q a = false) → Visits run labels n s r₀ →
    R r₀.2 r r' → R s r r'
  /-- Breaks may be caught. -/
  catchBreaks : ∀ entry {s r r'}, R s r r' →
    R s (catchExit (.breaks entry) r) (catchExit (.breaks entry) r')

namespace EndRelation

variable {R : RunState → Exit × RunState → Exit × RunState → Prop} {entry : Nat} {breaking : Bool}
  {test : Condition} {inc rest check ifTrue ifFalse next t : BlockTree}
  (hR : EndRelation run run' q R)
include hR

/-- Behind a run that visits other labels only, two runs are related if what follows them is. -/
theorem andThen {next next' : RunState → Exit × RunState} (hq : ∀ a ∈ labels, q a = false)
    (hv : Visits run labels n s r) (hnext : R r.2 (next r.2) (next' r.2)) :
    R s (StructuredFlow.andThen r next) (StructuredFlow.andThen r next') := by
  rw [StructuredFlow.andThen, StructuredFlow.andThen]
  split
  · exact hR.prepend hq hv hnext
  · exact hR.refl hq hv

/-- A tree without labels selected runs alike. -/
theorem runWithin_eq (ht : t.WellFormed) (hq : ∀ a ∈ t.leafLabels, q a = false) (fuel : Nat) :
    runWithin run' fuel t = runWithin run fuel t :=
  runWithin_congr fuel t ht fun a ha => hR.agree a (hq a ha)

/-- The labels selected are in the arms of a conditional. -/
theorem runCond (hcheck : check.WellFormed) (hq : ∀ a ∈ check.leafLabels, q a = false)
    (htrue : R (runWithin run fuel check s).2
      (runWithin run fuel ifTrue (runWithin run fuel check s).2)
      (runWithin run' fuel ifTrue (runWithin run fuel check s).2))
    (hfalse : R (runWithin run fuel check s).2
      (runWithin run fuel ifFalse (runWithin run fuel check s).2)
      (runWithin run' fuel ifFalse (runWithin run fuel check s).2)) :
    R s (runCond run fuel entry breaking test check ifTrue ifFalse s)
      (runCond run' fuel entry breaking test check ifTrue ifFalse s) := by
  unfold BlockTree.runCond
  rw [hR.runWithin_eq hcheck hq]
  refine hR.andThen hq (hcheck.visits run fuel s) ?_
  have harm : R (BlockTree.runWithin run fuel check s).2
      (BlockTree.runWithin run fuel
        (chosenArm test ifTrue ifFalse (BlockTree.runWithin run fuel check s).2)
        (BlockTree.runWithin run fuel check s).2)
      (BlockTree.runWithin run' fuel
        (chosenArm test ifTrue ifFalse (BlockTree.runWithin run fuel check s).2)
        (BlockTree.runWithin run fuel check s).2) := by
    rw [chosenArm]
    split
    · exact htrue
    · exact hfalse
  dsimp only
  split
  · exact hR.catchBreaks entry harm
  · exact harm

/-- **Runs of a tree are related if only labels at its end are selected.** -/
theorem runWithin (ht : t.WellFormed) (hq : t.SelectsEnd q) (hfuel : HasFuel run t fuel s) :
    R s (runWithin run fuel t s) (runWithin run' fuel t s) := by
  induction fuel generalizing t s with
  | zero => exact absurd hfuel.pos (Nat.lt_irrefl 0)
  | succ fuel ih =>
    cases t with
    | nil => exact hR.refl (List.forall_mem_nil _) (Visits.refl .falls)
    | leaf kind entry labels next =>
      obtain ⟨hentry, hnext⟩ := ht.of_leaf
      obtain ⟨hlabels, hqNext⟩ := hq.of_leaf hnext.entriesHeld ht.leavesApart
      have hv : Visits run labels 1 s (runLeaf run fuel kind entry labels s) :=
        visits_runLeaf fuel hentry
      have hfuelNext : HasFuel run next fuel _ := hfuel.part (by rw [size]; omega) hv
      rw [runWithin_leaf, runWithin_leaf]
      -- the runs differ in a leaf only if nothing follows it
      cases hnil : next.isNil with
      | true =>
        obtain rfl := isNil_iff.mp hnil
        obtain ⟨fuel, rfl⟩ := Nat.exists_eq_succ_of_ne_zero hfuelNext.pos.ne'
        rw [andThen_runWithin_nil, andThen_runWithin_nil]
        exact hR.leaf _ _ _ _ _ hentry
      | false =>
        have hlabels := hlabels hnil
        rw [runLeaf_congr (fun a ha => hR.agree a (hlabels a ha)) fuel hentry]
        exact hR.andThen hlabels hv (ih hnext hqNext hfuelNext)
    | loop entry labels inc rest next =>
      obtain ⟨-, hinc, hrest, hnext⟩ := ht.of_loop
      obtain ⟨hbody, hqNext⟩ := hq.of_loop hnext.entriesHeld ht.leavesApart
      have hv := ht.visits_body run fuel s
      obtain ⟨hincq, hrestq⟩ := List.forall_mem_append.mp hbody
      rw [runWithin_loop, runWithin_loop,
        runBody_congr (hR.runWithin_eq hinc hincq fuel) (hR.runWithin_eq hrest hrestq fuel)]
      dsimp only
      split
      next hturn =>
        refine hR.prepend hbody hv (ih ht hq (hfuel.again hv ?_))
        rcases hturn with h | h <;> simp [h]
      next =>
        split
        next => exact hR.prepend hbody hv (ih hnext hqNext (hfuel.part (by rw [size]; omega) hv))
        next => exact hR.refl hbody hv
    | cond entry labels breaking test check ifTrue ifFalse next =>
      obtain ⟨-, hcheck, htrue, hfalse, hnext⟩ := ht.of_cond
      obtain ⟨hcheckq, harms, hqTrue, hqFalse, hqNext⟩ :=
        hq.of_cond htrue.entriesHeld hfalse.entriesHeld hnext.entriesHeld ht.leavesApart
      have hv := ht.visits_cond run fuel s
      have hfuelNext : HasFuel run next fuel _ := hfuel.part (by rw [size]; omega) hv
      rw [runWithin_cond, runWithin_cond]
      -- and in the arms only if nothing follows the conditional
      cases hnil : next.isNil with
      | true =>
        obtain rfl := isNil_iff.mp hnil
        obtain ⟨fuel, rfl⟩ := Nat.exists_eq_succ_of_ne_zero hfuelNext.pos.ne'
        rw [andThen_runWithin_nil, andThen_runWithin_nil]
        have hvCheck := hcheck.visits run (fuel + 1) s
        exact hR.runCond hcheck hcheckq
          (ih htrue hqTrue (hfuel.part (by rw [size]; omega) hvCheck))
          (ih hfalse hqFalse (hfuel.part (by rw [size]; omega) hvCheck))
      | false =>
        have harms : ∀ a ∈ ifTrue.leafLabels ++ ifFalse.leafLabels, q a = false := fun a ha => by
          by_contra hqa
          exact absurd (harms a ha (by simpa using hqa)) (by simp [hnil])
        obtain ⟨htrueq, hfalseq⟩ := List.forall_mem_append.mp harms
        rw [runCond_congr (hR.runWithin_eq hcheck hcheckq fuel)
          (hR.runWithin_eq htrue htrueq fuel) (hR.runWithin_eq hfalse hfalseq fuel)]
        exact hR.andThen (List.forall_mem_append.mpr ⟨hcheckq, harms⟩) hv
          (ih hnext hqNext hfuelNext)

end EndRelation

/-! ### Falling through at the end -/

/-- From a state on a run adds to the labels visited, and a label selected that it falls through
from is the last. -/
structure FallsOut (run : RunInput) (q : Nat → Bool) (s : RunState) (r : Exit × RunState) :
    Prop where
  /-- The run adds to the labels visited. -/
  exists_append : ∃ ids, r.2.visited = s.visited ++ ids
  /-- After a fall-through from a label selected the run falls through. -/
  falls : ∀ i a, s.visited.length ≤ i → r.2.visited[i]? = some a → q a = true →
    run.transfers.pick? (run.choices i) a = some .nop → r.1 = .falls ∧ r.2.visited.length = i + 1

namespace FallsOut

/-- What has been visited until the run goes on did not fall through from a label selected. -/
theorem trans (happend : ∃ ids, r₀.2.visited = s.visited ++ ids)
    (hpassed : ∀ i a, s.visited.length ≤ i → r₀.2.visited[i]? = some a → q a = true →
      run.transfers.pick? (run.choices i) a ≠ some .nop)
    (h : FallsOut run q r₀.2 r) : FallsOut run q s r where
  exists_append := by
    obtain ⟨ids, hids⟩ := happend
    obtain ⟨ids', hids'⟩ := h.exists_append
    exact ⟨ids ++ ids', by rw [hids', hids, List.append_assoc]⟩
  falls i a hi ha hqa hnop := by
    by_cases hlt : i < r₀.2.visited.length
    · obtain ⟨ids, hids⟩ := h.exists_append
      rw [hids, List.getElem?_append_left hlt] at ha
      exact absurd hnop (hpassed i a hi ha hqa)
    · exact h.falls i a (Nat.not_lt.mp hlt) ha hqa hnop

/-- A run that visits other labels only falls through from none of those selected. -/
theorem of_visits (hq : ∀ a ∈ labels, q a = false) (hv : Visits run labels n s r) :
    FallsOut run q s r where
  exists_append := hv.exists_append.imp fun _ hids => hids.1
  falls _ a hi ha hqa _ := absurd (hq a (hv.mem_of_getElem? hi ha)) (by simp [hqa])

/-- Other labels may have been visited before. -/
theorem prepend (hq : ∀ a ∈ labels, q a = false) (hv : Visits run labels n s r₀)
    (h : FallsOut run q r₀.2 r) : FallsOut run q s r :=
  trans (hv.exists_append.imp fun _ hids => hids.1)
    (fun _ a hi ha hqa => absurd (hq a (hv.mem_of_getElem? hi ha)) (by simp [hqa])) h

/-- A visit that falls through is the last. -/
theorem visit (id : Nat) (s : RunState) : FallsOut run q s (run.visit id s) := by
  rw [RunInput.visit]
  dsimp only
  have hlast : ∀ i a, s.visited.length ≤ i → (s.visited ++ [id])[i]? = some a →
      i = s.visited.length ∧ a = id := fun i a hi ha => by
    rw [List.getElem?_append_right hi, List.getElem?_singleton] at ha
    split at ha
    next h => exact ⟨by omega, (Option.some.inj ha).symm⟩
    next => exact absurd ha (by simp)
  split
  next =>
    refine ⟨⟨[], (List.append_nil _).symm⟩, fun i a hi ha _ _ => ?_⟩
    exact absurd ha (by rw [List.getElem?_eq_none hi]; simp)
  next =>
    split
    next hnone =>
      refine ⟨⟨[id], rfl⟩, fun i a hi ha _ hnop => ?_⟩
      obtain ⟨rfl, rfl⟩ := hlast i a hi ha
      exact absurd (hnone.symm.trans hnop) (by simp)
    next target hpick =>
      refine ⟨⟨[id], rfl⟩, fun i a hi ha _ hnop => ?_⟩
      obtain ⟨rfl, rfl⟩ := hlast i a hi ha
      obtain rfl := Option.some.inj (hpick.symm.trans hnop)
      exact ⟨rfl, by simp⟩

/-- A dispatch goes on after a jump only. -/
theorem runDispatch (fuel id : Nat) (s : RunState) :
    FallsOut run q s (runDispatch run labels fuel id s) := by
  induction fuel generalizing id s with
  | zero => exact of_visits (List.forall_mem_nil _) (Visits.stops (n := 0))
  | succ fuel ih =>
    have hvisit : FallsOut run q s (run.visit id s) := visit id s
    rw [BlockTree.runDispatch]
    split
    next target s' hjumps =>
      rw [hjumps] at hvisit
      split
      next =>
        refine trans hvisit.exists_append (fun i a hi ha hqa hnop => ?_) (ih target s')
        exact absurd (hvisit.falls i a hi ha hqa hnop).1 (by simp)
      next => exact hvisit
    next => exact hvisit

/-- The last visit stays the last when a break is caught. -/
theorem catchBreaks (h : FallsOut run q s r) (entry : Nat) :
    FallsOut run q s (catchExit (.breaks entry) r) := by
  rw [catchExit]
  split
  next => exact ⟨h.exists_append, fun i a hi ha hqa hnop => ⟨rfl, (h.falls i a hi ha hqa hnop).2⟩⟩
  next => exact h

/-- A run has this relation to itself wherever the labels are not at the end. -/
theorem endRelation (run : RunInput) (q : Nat → Bool) :
    EndRelation run run q fun s r r' => r' = r ∧ FallsOut run q s r where
  agree _ _ := rfl
  leaf fuel kind entry _ s _ := by
    cases kind with
    | simple => exact ⟨rfl, visit entry s⟩
    | dispatch => exact ⟨rfl, runDispatch fuel entry s⟩
  refl hq hv := ⟨rfl, of_visits hq hv⟩
  prepend hq hv h := ⟨h.1, prepend hq hv h.2⟩
  catchBreaks entry _ _ _ h := ⟨by rw [h.1], h.2.catchBreaks entry⟩

end FallsOut

/-! ### Replacing markers at the end -/

/-- Where the first run leaves by a marker, the second falls through. -/
def Relaxed (mark : Target) (r r' : Exit × RunState) : Prop :=
  r' = r ∨ r.1 = mark.exit ∧ r' = (.falls, r.2)

/-- The run in which labels selected fall through instead of taking a marker. -/
def relaxedRun (run : RunInput) (q : Nat → Bool) (mark : Target) : RunInput :=
  { run with transfers := run.transfers.retarget q (Target.replace mark .nop) }

namespace Relaxed

variable {mark : Target}

/-- Labels that are not selected are visited alike. -/
theorem visit_of_not {id : Nat} (hq : q id = false) :
    (relaxedRun run q mark).visit id = run.visit id := by
  have htargets : (relaxedRun run q mark).transfers.targets id = run.transfers.targets id :=
    Transfers.targets_retarget_of_not hq _
  rw [relaxedRun] at htargets
  funext s
  simp only [RunInput.visit, relaxedRun, Transfers.pick?, htargets]

/-- Two visits are alike, or the marker of one is the fall-through of the other. -/
theorem visit (id : Nat) (s : RunState) :
    Relaxed mark (run.visit id s) ((relaxedRun run q mark).visit id s) := by
  cases hq : q id with
  | false => exact Or.inl (by rw [visit_of_not hq])
  | true =>
    have htargets := Transfers.targets_retarget q (Target.replace mark .nop) run.transfers id
    rw [if_pos hq] at htargets
    simp only [RunInput.visit, relaxedRun, Transfers.pick?, htargets, List.length_map,
      List.getElem?_map]
    split
    next => exact Or.inl rfl
    next =>
      cases (run.transfers.targets id)[
          run.choices s.visited.length % (run.transfers.targets id).length]? with
      | none => exact Or.inl rfl
      | some target =>
        by_cases hmark : target = mark
        · exact Or.inr ⟨by rw [hmark], by simp [Target.replace, hmark, Target.exit]⟩
        · exact Or.inl (by simp [Target.replace, hmark])

/-- A marker leaves a dispatch, as a fall-through does. -/
theorem runDispatch (hmark : mark.isMarker = true) (fuel id : Nat) (s : RunState) :
    Relaxed mark (runDispatch run labels fuel id s)
      (runDispatch (relaxedRun run q mark) labels fuel id s) := by
  induction fuel generalizing id s with
  | zero => exact Or.inl rfl
  | succ fuel ih =>
    rw [BlockTree.runDispatch, BlockTree.runDispatch]
    have hvisit : Relaxed mark (run.visit id s) ((relaxedRun run q mark).visit id s) := visit id s
    rcases hvisit with heq | ⟨hexit, heq⟩
    · rw [heq]
      split
      next target s' _ =>
        split
        · exact ih target s'
        · exact Or.inl rfl
      next => exact Or.inl rfl
    · rw [heq]
      refine Or.inr ?_
      split
      next target s' hjumps =>
        rw [hjumps] at hexit
        cases mark with
        | label => simp [Target.isMarker] at hmark
        | _ => simp [Target.exit] at hexit
      next => exact ⟨hexit, rfl⟩

/-- Two runs related stay so when a break is caught. -/
theorem catchBreaks {r r' : Exit × RunState} (h : Relaxed mark r r') (entry : Nat) :
    Relaxed mark (catchExit (.breaks entry) r) (catchExit (.breaks entry) r') := by
  rcases h with rfl | ⟨hexit, rfl⟩
  · exact Or.inl rfl
  · by_cases hcaught : r.1 = .breaks entry
    · exact Or.inl (by simp [catchExit, hcaught])
    · exact Or.inr (by simpa [catchExit, hcaught] using hexit)

/-- A run has this relation to the one with the markers replaced. -/
theorem endRelation (run : RunInput) (q : Nat → Bool) (hmark : mark.isMarker = true) :
    EndRelation run (relaxedRun run q mark) q fun _ => Relaxed mark where
  agree _ hq := visit_of_not hq
  leaf fuel kind entry _ s _ := by
    cases kind with
    | simple => exact visit entry s
    | dispatch => exact runDispatch hmark fuel entry s
  refl _ _ := Or.inl rfl
  prepend _ _ h := h
  catchBreaks entry _ _ _ h := h.catchBreaks entry

end Relaxed

/-! ### The construct that catches the marker -/

/-- A marker is replaced at labels that end what a loop or a conditional runs: the continue of a
loop at the end of the last part of its body, the break of a conditional at the ends of its
arms. -/
inductive Relaxes (q : Nat → Bool) : Target → BlockTree → Prop
  /-- The continue of a loop. -/
  | loop {entry : Nat} {labels : List Nat} {inc rest next : BlockTree}
      (hq : ∀ a, q a = true → a ∈ (if rest.isNil then inc else rest).trailingLabels) :
      Relaxes q (.continueOf entry) (.loop entry labels inc rest next)
  /-- The break of a conditional. -/
  | cond {entry : Nat} {labels : List Nat} {test : Condition}
      {check ifTrue ifFalse next : BlockTree}
      (hq : ∀ a, q a = true → a ∈ ifTrue.trailingLabels ++ ifFalse.trailingLabels) :
      Relaxes q (.breakOf entry) (.cond entry labels true test check ifTrue ifFalse next)

/-- A label is not selected if it is in a list apart from all that are. -/
theorem eq_false_of_disjoint {ids : List Nat} (hq : ∀ a, q a = true → a ∈ ids)
    (hd : labels.Disjoint ids) : ∀ a ∈ labels, q a = false := fun a ha => by
  by_contra hqa
  exact hd ha (hq a (by simpa using hqa))

section Constructs

variable {entry : Nat} {test : Condition} {inc rest check ifTrue ifFalse next : BlockTree}

/-- The body of a loop falls through where it continued. -/
theorem relaxed_runBody (ht : (loop entry labels inc rest next).WellFormed)
    (hq : ∀ a, q a = true → a ∈ (if rest.isNil then inc else rest).trailingLabels)
    (hfuel : HasFuel run (.loop entry labels inc rest next) (fuel + 1) s) :
    Relaxed (.continueOf entry) (runBody run fuel inc rest s)
      (runBody (relaxedRun run q (.continueOf entry)) fuel inc rest s) := by
  have hR : EndRelation run (relaxedRun run q (.continueOf entry)) q fun _ =>
    Relaxed (.continueOf entry) := Relaxed.endRelation run q rfl
  obtain ⟨-, hinc, hrest, -⟩ := ht.of_loop
  obtain ⟨-, -, -, hdRest, -⟩ := leavesApart_loop.mp ht.leavesApart
  have hv := hinc.visits run fuel s
  have hfuelInc : HasFuel run inc fuel s := hfuel.first (by rw [size]; omega)
  cases hnil : rest.isNil with
  | true =>
    obtain rfl := isNil_iff.mp hnil
    obtain ⟨fuel, rfl⟩ := Nat.exists_eq_succ_of_ne_zero hfuelInc.pos.ne'
    rw [runBody, runBody, andThen_runWithin_nil, andThen_runWithin_nil]
    exact hR.runWithin hinc (fun a _ hqa => mem_trailingLabels.mp (hq a hqa)) hfuelInc
  | false =>
    rw [hnil, if_neg Bool.false_ne_true] at hq
    have hincq := eq_false_of_disjoint
      (fun a hqa => mem_leafLabels_of_mem_trailingLabels hrest.entriesHeld (hq a hqa)) hdRest
    rw [runBody, runBody, hR.runWithin_eq hinc hincq]
    exact hR.andThen hincq hv (hR.runWithin hrest
      (fun a _ hqa => mem_trailingLabels.mp (hq a hqa)) (hfuel.part (by rw [size]; omega) hv))

/-- **A loop starts again, whether its body continues or falls through.** -/
theorem runWithin_relax_loop (ht : (loop entry labels inc rest next).WellFormed)
    (hq : ∀ a, q a = true → a ∈ (if rest.isNil then inc else rest).trailingLabels)
    (hfuel : HasFuel run (.loop entry labels inc rest next) fuel s) :
    runWithin (relaxedRun run q (.continueOf entry)) fuel (.loop entry labels inc rest next) s =
      runWithin run fuel (.loop entry labels inc rest next) s := by
  have hR : EndRelation run (relaxedRun run q (.continueOf entry)) q fun _ =>
    Relaxed (.continueOf entry) := Relaxed.endRelation run q rfl
  obtain ⟨-, hinc, hrest, hnext⟩ := ht.of_loop
  obtain ⟨-, -, -, -, hdNext⟩ := leavesApart_loop.mp ht.leavesApart
  have hnextq : ∀ a ∈ next.leafLabels, q a = false := by
    refine eq_false_of_disjoint (fun a hqa => ?_) hdNext.symm
    have ha := hq a hqa
    split at ha
    · exact List.mem_append_left _ (mem_leafLabels_of_mem_trailingLabels hinc.entriesHeld ha)
    · exact List.mem_append_right _ (mem_leafLabels_of_mem_trailingLabels hrest.entriesHeld ha)
  induction fuel generalizing s with
  | zero => rfl
  | succ fuel ih =>
    have hv := ht.visits_body run fuel s
    have hbody := relaxed_runBody ht hq hfuel
    rw [runWithin_loop, runWithin_loop, hR.runWithin_eq hnext hnextq]
    generalize runBody run fuel inc rest s = body at hv hbody
    rcases hbody with heq | ⟨hexit, heq⟩
    · rw [heq]
      dsimp only
      split
      next hturn =>
        refine ih (hfuel.again hv ?_)
        rcases hturn with h | h <;> simp [h]
      next => rfl
    · -- one body has fallen through and the other has continued
      rw [Target.exit] at hexit
      rw [heq]
      dsimp only
      rw [if_pos (Or.inl rfl), if_pos (Or.inr hexit)]
      exact ih (hfuel.again hv (by simp [hexit]))

/-- An arm that breaks and one that falls through come to the same where the break is caught. -/
theorem Relaxed.catchExit_eq (h : Relaxed (.breakOf entry) r r') :
    catchExit (.breaks entry) r' = catchExit (.breaks entry) r := by
  rcases h with rfl | ⟨hexit, rfl⟩
  · rfl
  · rw [Target.exit] at hexit
    simp [catchExit, hexit]

/-- **A breaking conditional is left, whether its arms break or fall through.** -/
theorem runWithin_relax_cond
    (ht : (cond entry labels true test check ifTrue ifFalse next).WellFormed)
    (hq : ∀ a, q a = true → a ∈ ifTrue.trailingLabels ++ ifFalse.trailingLabels)
    (hfuel : HasFuel run (.cond entry labels true test check ifTrue ifFalse next) fuel s) :
    runWithin (relaxedRun run q (.breakOf entry)) fuel
        (.cond entry labels true test check ifTrue ifFalse next) s =
      runWithin run fuel (.cond entry labels true test check ifTrue ifFalse next) s := by
  have hR : EndRelation run (relaxedRun run q (.breakOf entry)) q fun _ =>
    Relaxed (.breakOf entry) := Relaxed.endRelation run q rfl
  obtain ⟨-, hcheck, htrue, hfalse, hnext⟩ := ht.of_cond
  obtain ⟨-, -, -, -, hdCheck, hdArms, hdNext⟩ := leavesApart_cond.mp ht.leavesApart
  have hqArms : ∀ a, q a = true → a ∈ ifTrue.leafLabels ++ ifFalse.leafLabels := fun a hqa =>
    List.mem_append.mpr ((List.mem_append.mp (hq a hqa)).imp
      (mem_leafLabels_of_mem_trailingLabels htrue.entriesHeld)
      (mem_leafLabels_of_mem_trailingLabels hfalse.entriesHeld))
  have hcheckq := eq_false_of_disjoint hqArms hdCheck
  have hnextq : ∀ a ∈ next.leafLabels, q a = false := by
    refine eq_false_of_disjoint (fun a hqa => ?_) hdNext.symm
    rw [List.append_assoc]
    exact List.mem_append_right _ (hqArms a hqa)
  have hqTrue : ifTrue.SelectsEnd q := fun a ha hqa =>
    mem_trailingLabels.mp <| (List.mem_append.mp (hq a hqa)).resolve_right fun hmem =>
      hdArms ha (mem_leafLabels_of_mem_trailingLabels hfalse.entriesHeld hmem)
  have hqFalse : ifFalse.SelectsEnd q := fun a ha hqa =>
    mem_trailingLabels.mp <| (List.mem_append.mp (hq a hqa)).resolve_left fun hmem =>
      hdArms (mem_leafLabels_of_mem_trailingLabels htrue.entriesHeld hmem) ha
  cases fuel with
  | zero => rfl
  | succ fuel =>
    have hv := hcheck.visits run fuel s
    have harm : Relaxed (.breakOf entry)
        (runWithin run fuel (chosenArm test ifTrue ifFalse (runWithin run fuel check s).2)
          (runWithin run fuel check s).2)
        (runWithin (relaxedRun run q (.breakOf entry)) fuel
          (chosenArm test ifTrue ifFalse (runWithin run fuel check s).2)
          (runWithin run fuel check s).2) := by
      rw [chosenArm]
      split
      · exact hR.runWithin htrue hqTrue (hfuel.part (by rw [size]; omega) hv)
      · exact hR.runWithin hfalse hqFalse (hfuel.part (by rw [size]; omega) hv)
    have hcond : runCond (relaxedRun run q (.breakOf entry)) fuel entry true test check ifTrue
        ifFalse s = runCond run fuel entry true test check ifTrue ifFalse s := by
      rw [runCond, runCond, hR.runWithin_eq hcheck hcheckq, StructuredFlow.andThen,
        StructuredFlow.andThen]
      simp only [if_true, harm.catchExit_eq]
    rw [runWithin_cond, runWithin_cond, hR.runWithin_eq hnext hnextq, hcond]

end Constructs

section Runs

variable {ts : Transfers} {choices : Nat → Nat} {limit : Nat} {t : BlockTree}

/-- A run that has visited a label at the end of the tree and fallen through from it has ended. -/
theorem WellFormed.falls_of_nop (ht : t.WellFormed) {id i : Nat} (hid : id ∈ t.trailingLabels)
    (hi : (t.run ts choices limit).2[i]? = some id) (hnop : ts.pick? (choices i) id = some .nop) :
    (t.run ts choices limit).1 = .falls ∧ (t.run ts choices limit).2.length = i + 1 := by
  have hq : t.SelectsEnd (· == id) := fun a _ hqa =>
    mem_trailingLabels.mp (LawfulBEq.eq_of_beq hqa ▸ hid)
  have hfalls := ((FallsOut.endRelation _ _).runWithin ht hq
    (hasFuel_run t ts choices limit)).2
  exact hfalls.falls i id (Nat.zero_le i) hi BEq.rfl hnop

/-- **Markers at the end of a tree may be relaxed**: the tree runs as before. -/
theorem WellFormed.run_relaxes (ht : t.WellFormed) {mark : Target} (h : Relaxes q mark t) :
    t.run (ts.retarget q (Target.replace mark .nop)) choices limit = t.run ts choices limit := by
  have hfuel := hasFuel_run t ts choices limit
  cases h with
  | loop hq =>
    have hrun := runWithin_relax_loop ht hq hfuel
    rw [relaxedRun] at hrun
    rw [run, run, hrun]
  | cond hq =>
    have hrun := runWithin_relax_cond ht hq hfuel
    rw [relaxedRun] at hrun
    rw [run, run, hrun]

/-- **A label at the end of a tree that falls through leaves the tree, and a marker there that
means the same to the construct around may be replaced.**  A run that has visited such a label
and taken a fall-through there has ended by it; a loop and a breaking conditional run as
before when the continues at the end of the body, and the breaks at the ends of the arms, are
made to fall through. -/
theorem WellFormed.falls_and_relaxes (ht : t.WellFormed) (ts : Transfers) (choices : Nat → Nat)
    (limit : Nat) :
    (∀ id ∈ t.trailingLabels, ∀ i, (t.run ts choices limit).2[i]? = some id →
      ts.pick? (choices i) id = some .nop →
      (t.run ts choices limit).1 = .falls ∧ (t.run ts choices limit).2.length = i + 1) ∧
    ∀ q mark, Relaxes q mark t →
      t.run (ts.retarget q (Target.replace mark .nop)) choices limit = t.run ts choices limit :=
  ⟨fun _ hid _ hi hnop => ht.falls_of_nop hid hi hnop, fun _ _ h => ht.run_relaxes h⟩

end Runs

/-- A loop over a choice between two labels: the first one continues, the second one, alone in a
dispatch, leaves the choice by a break.  A last label follows the loop. -/
def choosing : BlockTree :=
  .loop 0 [0, 1, 2, 3] (.leaf .simple 0 [0] .nil)
    (.cond 1 [1, 2, 3] true ⟨.ssa "c", false⟩ (.leaf .simple 1 [1] .nil)
      (.leaf .simple 2 [2] .nil) (.leaf .dispatch 3 [3] .nil) .nil)
    (.leaf .simple 4 [4] .nil)

/-- The control transfers of the loop over a choice. -/
def choosingTransfers : Transfers :=
  [some (.condBranch (.ssa "d") .nop (.breakOf 0)), some (.condBranch (.ssa "c") .nop .nop),
    some (.branch (.continueOf 0)), some (.branch (.breakOf 1)), some (.branch .nop)]

/-- The loop goes around by way of both labels and is left, and the last label falls through.
It goes around in the same way when the first label falls through. -/
theorem falls_choosing :
    let run := choosing.run choosingTransfers (fun i => if i = 4 ∨ i = 6 then 1 else 0) 10
    choosing.WellFormed ∧ run.2 = [0, 1, 2, 0, 1, 3, 0, 4] ∧ run.1 = .falls ∧
      choosing.run (choosingTransfers.retarget (· == 2) (Target.replace (.continueOf 0) .nop))
        (fun i => if i = 4 ∨ i = 6 then 1 else 0) 10 = run := by
  intro run
  have ht : choosing.WellFormed :=
    ⟨by simp [choosing, Headed, isNil], by simp [choosing, EntriesHeld],
      leavesApart_of_nodup (by simp [choosing])⟩
  obtain ⟨hfalls, hrelaxes⟩ := ht.falls_and_relaxes choosingTransfers
    (fun i => if i = 4 ∨ i = 6 then 1 else 0) 10
  have hvisited : run.2 = [0, 1, 2, 0, 1, 3, 0, 4] := by decide +kernel
  refine ⟨ht, hvisited, ?_, hrelaxes (· == 2) (.continueOf 0) (.loop fun a ha => ?_)⟩
  · exact (hfalls 4 (mem_trailingLabels.mpr (by decide)) 7 (by rw [hvisited]; rfl) (by decide)).1
  · obtain rfl := LawfulBEq.eq_of_beq ha
    exact mem_trailingLabels.mpr (by decide)

end BlockTree
end StructuredFlow
