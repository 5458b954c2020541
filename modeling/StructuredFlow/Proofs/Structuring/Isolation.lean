/-
# Every region taken up is isolated

Whenever structuring takes up a region, its entry reaches all of it within the
region and no jump leads into the region or out of it.  In a derivation a region
is one up to jumps to positions without a label; a validated function has none,
and structuring makes no new jump (`Builds.region_of_event`).
-/

import Mathlib.Data.List.Permutation
import StructuredFlow.Proofs.Function.Validation
import StructuredFlow.Proofs.Structuring.Builds

namespace StructuredFlow
namespace Structuring

open Relation Transfers

/-- A jump between members of a set. -/
def StepWithin (ts : Transfers) (set : LabelSet) (a b : Nat) : Prop :=
  a ∈ set ∧ b ∈ set ∧ b ∈ ts.realTargets a

/-- A set of labels that its entry reaches and that no jump enters or leaves. -/
structure Isolated (ts : Transfers) (set : LabelSet) (entry : Nat) : Prop where
  /-- The entry is a member. -/
  entry_mem : entry ∈ set
  /-- No jump leaves the set. -/
  closed : ∀ a ∈ set, ∀ b ∈ ts.realTargets a, b ∈ set
  /-- Jumps within the set lead from the entry to each member. -/
  reached : ∀ a ∈ set, ReflTransGen (StepWithin ts set) entry a
  /-- No jump from outside enters the set. -/
  isolated : ∀ a, a ∉ set → ∀ b ∈ ts.realTargets a, b ∉ set

variable {ts : Transfers} {entry : Nat}

/-- A region of a table that no jump leaves is isolated. -/
theorem Region.isolated_of_lt {set : LabelSet} (hr : Region ts set entry)
    (hlt : ∀ a b, ts.Jumps a b → b < ts.length) : Isolated ts set entry where
  entry_mem := hr.entry_mem
  closed a ha b hb := by
    rw [mem_realTargets] at hb
    exact hr.closed a ha b (hlt a b hb) hb
  reached a ha := by
    refine ReflTransGen.mono (fun x y hxy => ?_) _ _ (hr.reached a ha)
    exact ⟨hxy.1, hxy.2.1, mem_realTargets.mpr hxy.2.2⟩
  isolated a ha b hb hbs := hr.isolated a ha b hbs (mem_realTargets.mp hb)

/-- A region is taken up while some targets of the table have become markers. -/
def TakenUp (ts : Transfers) (region : LabelSet × Nat × Transfers) : Prop :=
  Region region.2.2 region.1 region.2.1 ∧ MarksWithin (fun _ => True) ts region.2.2

/-- A region that is taken up in a table is taken up in the one that it comes from. -/
theorem TakenUp.of_marks {ts' : Transfers} {p : Nat → Prop} (hm : MarksWithin p ts ts')
    {region : LabelSet × Nat × Transfers} (h : TakenUp ts' region) : TakenUp ts region :=
  ⟨h.1, (hm.mono fun _ _ => trivial).trans h.2⟩

/-- The regions that are reported are taken up. -/
theorem Reports.takenUp {set : LabelSet} (hr : Region ts set entry) {events : List Event}
    (h : Reports ts set entry events) :
    ∀ event ∈ events, ∀ region, event.region? = some region → TakenUp ts region := by
  intro event he region hregion
  obtain rfl := h event he region hregion
  exact ⟨hr, MarksWithin.refl _ ts⟩

/-- A loop reports itself, and what its parts do. -/
theorem mem_events_loopOutcome {plan : LoopPlan} {inc body rest : Outcome} {event : Event} :
    event ∈ (loopOutcome entry plan inc body rest).events ↔
      event = .loop entry plan.body plan.pivot ∨ event ∈ inc.events ∨ event ∈ body.events ∨
        event ∈ rest.events := by
  simp [loopOutcome]

/-- A conditional reports itself, and what its parts do. -/
theorem mem_events_condOutcome {plan : CondPlan} {breaking : Bool}
    {check first second rest : Outcome} {event : Event} :
    event ∈ (condOutcome entry plan breaking check first second rest).events ↔
      event = .conditional entry breaking plan.firstArm (plan.second.map Prod.fst) plan.join ∨
        event ∈ check.events ∨ event ∈ first.events ∨ event ∈ second.events ∨
        event ∈ rest.events := by
  simp only [condOutcome, List.mem_append, List.mem_singleton]
  tauto

/-- **What a derivation reports to take up is a region.** -/
theorem Builds.region_of_event {request : Option (LabelSet × Nat)} {outcome : Outcome}
    (h : Builds ts request outcome) : ∀ event ∈ outcome.events, ∀ region,
      event.region? = some region → TakenUp ts region := by
  induction h with
  | nothing ts => exact fun event he => absurd he List.not_mem_nil
  | leaf hleaf => exact hleaf.reports.takenUp hleaf.region
  | simple hr hs hfound _ ih =>
    intro event he region hregion
    rcases List.mem_append.mp he with he | he
    · exact hfound.takenUp hr event he region hregion
    · rcases List.mem_cons.mp he with rfl | he
      · exact absurd hregion (by simp [Event.region?])
      · exact (ih event he region hregion).of_marks (marks_fallInto _ _ _)
  | @loop ts _ _ _ entry plan _ _ _ _ _ hr hs hfound hhead hinc hbody _ ihBody ihRest =>
    intro event he region hregion
    have hmarked := marks_markLoop ts entry plan
    rcases List.mem_append.mp he with he | he
    · exact hfound.takenUp hr event he region hregion
    · rcases mem_events_loopOutcome.mp he with rfl | he | he | he
      · exact absurd hregion (by simp [Event.region?])
      · have hinc' := hinc.reports.takenUp hinc.region event he region hregion
        exact (hinc'.of_marks hhead.marks).of_marks hmarked
      · exact ((ihBody event he region hregion).of_marks hhead.marks).of_marks hmarked
      · have hrelaxed := marks_of_loop hr hs hhead hinc hbody hbody.marks
        exact ((ihRest event he region hregion).of_marks hrelaxed).of_marks hmarked
  | @cond ts _ entry plan _ _ _ _ _ hr hs hfound hcheck hfirst hsecond _ ihFirst ihSecond ihRest =>
    intro event he region hregion
    have hmarked := marks_markCond ts entry plan
    rcases List.mem_append.mp he with he | he
    · exact hfound.takenUp hr event he region hregion
    · rcases mem_events_condOutcome.mp he with rfl | he | he | he | he
      · exact absurd hregion (by simp [Event.region?])
      · exact (hcheck.reports.takenUp hcheck.region event he region hregion).of_marks hmarked
      · exact (ihFirst event he region hregion).of_marks hmarked
      · exact ((ihSecond event he region hregion).of_marks hfirst.marks).of_marks hmarked
      · have hrelaxed := marks_of_cond hs hfirst hsecond hfirst.marks hsecond.marks
        exact ((ihRest event he region hregion).of_marks hrelaxed).of_marks hmarked

/-- **Whatever is taken up is a region**, for every table of transfers. -/
theorem takenUp_of_mem_run {set : LabelSet} {start : Nat} {ts' : Transfers}
    (h : .region set start ts' ∈ (run ts entry).2) : TakenUp ts (set, start, ts') := by
  by_cases hentry : entry < ts.length
  · obtain ⟨outcome, hbuilds, -, -, hevents⟩ := (structuresLive_run hentry).builds
    rw [hevents] at h
    have hmem : .region set start ts' ∈ outcome.events :=
      (List.mem_append.mp h).resolve_left fun h =>
        absurd (region?_of_mem_pruneEvents h) (by simp [Event.region?])
    exact (hbuilds.region_of_event _ hmem _ rfl).of_marks (marks_liveTable ts entry)
  · rw [run, structureLive_of_le (Nat.not_lt.mp hentry)] at h
    exact absurd (region?_of_mem_pruneEvents h) (by simp [Event.region?])

/-- The labels that the entry reaches are taken up. -/
theorem live_mem_run (hentry : entry < ts.length) :
    .region (ts.live entry) entry (liveTable ts entry) ∈ (run ts entry).2 := by
  have hlive := (region_live hentry).entry_mem
  unfold run structureLive
  dsimp only
  rw [if_pos (LabelSet.contains_iff_mem.mpr hlive), structureRegion, ← liveTable]
  exact List.mem_append_right _ (List.mem_append_left _ List.mem_cons_self)

/-- **Regions are isolated.**  Whenever structuring takes up a set with an entry, the
entry reaches all of the set within it, and no jump of the table at that moment leads
into the set or out of it. -/
theorem isolated_of_takenUp (f : Function) (hf : f.validate = .ok ()) (entry : Nat) (set : LabelSet)
    (start : Nat) (ts : Transfers) (h : .region set start ts ∈ (run f.transfers entry).2) :
    Isolated ts set start := by
  obtain ⟨hr, hmarks⟩ := takenUp_of_mem_run h
  refine hr.isolated_of_lt fun a b hab => ?_
  rw [hmarks.length_eq, Function.length_transfers]
  exact Function.lt_of_jumps hf (hmarks.jumps hab)

/-- A loop with two labels in its body: the head goes on to the body or leaves, and the first
label of the body goes on to the second or starts the loop again. -/
def polling : Function :=
  .ofLabels "polling" ["n", "m"]
    [("head", [{ action := .transfer (.condBranch (.ssa "n") (.label 1) (.label 3)) }]),
      ("body", [{ action := .transfer (.condBranch (.ssa "m") (.label 2) (.label 0)) }]),
      ("tail", [{ action := .transfer (.branch (.label 0)) }]),
      ("done", [{ action := .transfer (.ret none) }])]

/-- The transfers of this function when the body of its loop is taken up. -/
def pollingBody : Transfers :=
  [some (.condBranch (.ssa "n") .nop (.breakOf 0)),
    some (.condBranch (.ssa "m") (.label 2) (.continueOf 0)),
    some (.branch (.continueOf 0)), some (.ret none)]

/-- Both labels of the body are taken up together, the jump between them still in place and the
jumps back to the head turned into continues; the head stands alone before that. -/
theorem isolated_polling : polling.validate = .ok () ∧
    Event.region (.ofIds 4 [1, 2]) 1 pollingBody ∈ (run polling.transfers 0).2 ∧
      Transfers.Jumps pollingBody 1 2 ∧ Isolated pollingBody (.ofIds 4 [1, 2]) 1 ∧
        Event.region (.single 4 0) 0 pollingBody ∈ (run polling.transfers 0).2 ∧
          Isolated pollingBody (.single 4 0) 0 := by
  have hf : polling.validate = .ok () := by decide
  have hbody : Event.region (.ofIds 4 [1, 2]) 1 pollingBody ∈ (run polling.transfers 0).2 := by
    decide_cbv
  have hhead : Event.region (.single 4 0) 0 pollingBody ∈ (run polling.transfers 0).2 := by
    decide_cbv
  have hjump : Transfers.Jumps pollingBody 1 2 := List.mem_cons_self
  exact ⟨hf, hbody, hjump, isolated_of_takenUp polling hf 0 _ _ _ hbody,
    hhead, isolated_of_takenUp polling hf 0 _ _ _ hhead⟩

end Structuring
end StructuredFlow
