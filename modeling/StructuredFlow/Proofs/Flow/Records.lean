/-
# The records after a set is analyzed anew

`Flow.refresh` writes a record for each member of a set, from the transfers and the set
alone, and leaves the records of other labels as they are (`refresh_records`).  What is
recorded is said of the records themselves (`ExactRecords`): the edges are those that the
records hold, and everything else is about walks along them.

The successors stand in the order in which the targets of the transfer first name them,
which is what is left of the targets when markers, labels outside and repetitions go
(`pairwise_idxOf_eraseDups`).  The predecessors ascend.
-/

import StructuredFlow.Proofs.Flow.MustGetTo

namespace StructuredFlow

open Relation Structuring

/-- Ids taken from targets, each once, stand in the order in which the targets first name
them. -/
theorem pairwise_idxOf_eraseDups (targets : List Target) (p : Nat → Bool) :
    (((targets.filterMap Target.label?).filter p).eraseDups).Pairwise fun b c =>
      targets.idxOf (.label b) < targets.idxOf (.label c) := by
  induction targets generalizing p with
  | nil => simp
  | cons target targets ih =>
    -- a target that names none of the ids moves all of them one place on
    have hskip : ∀ q : Nat → Bool, (∀ b, q b = true → target ≠ .label b) →
        (((targets.filterMap Target.label?).filter q).eraseDups).Pairwise fun b c =>
          (target :: targets).idxOf (.label b) < (target :: targets).idxOf (.label c) := by
      intro q hq
      have hne : ∀ b ∈ ((targets.filterMap Target.label?).filter q).eraseDups,
          target ≠ .label b := fun b hb =>
        hq b (List.mem_filter.mp (List.mem_eraseDups.mp hb)).2
      refine (ih q).imp_of_mem fun {b c} hb hc hbc => ?_
      rw [List.idxOf_cons_ne _ (hne b hb), List.idxOf_cons_ne _ (hne c hc)]
      exact Nat.succ_lt_succ hbc
    cases target with
    | label id =>
      have hids : (Target.label id :: targets).filterMap Target.label? =
          id :: targets.filterMap Target.label? := rfl
      rw [hids, List.filter_cons]
      split
      next hid =>
        rw [List.eraseDups_cons, List.filter_filter, List.pairwise_cons]
        have hother : ∀ b, (!b == id && p b) = true → Target.label id ≠ .label b := by
          intro b hb heq
          obtain rfl := Target.label.inj heq
          simp at hb
        refine ⟨fun c hc => ?_, hskip _ hother⟩
        have hne := hother c (List.mem_filter.mp (List.mem_eraseDups.mp hc)).2
        rw [List.idxOf_cons_self, List.idxOf_cons_ne _ hne]
        exact Nat.succ_pos _
      next hid =>
        refine hskip p fun b hb heq => hid ?_
        rw [Target.label.inj heq]
        exact hb
    | _ => exact hskip p fun b _ heq => by simp at heq

namespace Flow

/-- An edge that the records of the members hold. -/
def Recorded (set : LabelSet) (flows : List Flow) (a b : Nat) : Prop :=
  a ∈ set ∧ b ∈ (flowAt flows a).outLabels

/-- Records that hold of every member just the edges between members and the walks along
them. -/
structure ExactRecords (ts : Transfers) (set : LabelSet) (flows : List Flow) : Prop where
  /-- The successors of a member are the members that its transfer jumps to. -/
  mem_outLabels : ∀ a ∈ set, ∀ b, b ∈ (flowAt flows a).outLabels ↔ b ∈ set ∧ ts.Jumps a b
  /-- They stand in the order in which the targets first name them. -/
  pairwise_outLabels : ∀ a ∈ set, (flowAt flows a).outLabels.Pairwise fun b c =>
    (ts.targets a).idxOf (.label b) < (ts.targets a).idxOf (.label c)
  /-- The predecessors of a member are those that have it as a successor. -/
  mem_inLabels : ∀ a ∈ set, ∀ b, b ∈ (flowAt flows a).inLabels ↔ Recorded set flows b a
  /-- They ascend. -/
  pairwise_inLabels : ∀ a ∈ set, (flowAt flows a).inLabels.Pairwise (· < ·)
  /-- A member reaches what walks of one recorded edge or more lead to. -/
  mem_allOut : ∀ a ∈ set, ∀ b, b ∈ (flowAt flows a).allOut ↔ TransGen (Recorded set flows) a b
  /-- It is reached by the members that reach it. -/
  mem_allIn : ∀ a ∈ set, ∀ b,
    b ∈ (flowAt flows a).allIn ↔ b ∈ set ∧ a ∈ (flowAt flows b).allOut

variable {ts : Transfers} {set : LabelSet}

section Members

variable (hset : ∀ id ∈ set, id < ts.length) {a : Nat}
include hset

/-- The labels that a label jumps to are listed in the order of its targets. -/
theorem pairwise_outLabels (ha : a ∈ set) :
    (flowAt (analyze ts set) a).outLabels.Pairwise fun b c =>
      (ts.targets a).idxOf (.label b) < (ts.targets a).idxOf (.label c) := by
  have hids : ((ts.at? a).map Transfer.realTargets).getD [] =
      (ts.targets a).filterMap Target.label? := by
    rw [Transfers.targets]
    cases ts.at? a <;> rfl
  rw [flowAt_analyze ts ha (hset a ha)]
  dsimp only
  rw [at_outEdges hset, if_pos ha, successors, hids]
  exact pairwise_idxOf_eraseDups (ts.targets a) set.contains

/-- The labels that jump to a label are listed in ascending order. -/
theorem pairwise_inLabels (ha : a ∈ set) :
    (flowAt (analyze ts set) a).inLabels.Pairwise (· < ·) := by
  have hlt : a < (outEdges ts set).length := length_outEdges ts set ▸ hset a ha
  rw [flowAt_analyze ts ha (hset a ha)]
  dsimp only
  rw [at_reverseEdges hlt]
  exact List.pairwise_lt_range.filter _

end Members

/-- Records that agree with those of the analysis on all members are exact. -/
theorem exactRecords_of_flowAt (hset : ∀ id ∈ set, id < ts.length) {flows : List Flow}
    (h : ∀ a ∈ set, flowAt flows a = flowAt (analyze ts set) a) : ExactRecords ts set flows := by
  have hedge : Recorded set flows = ts.JumpsWithin set := by
    funext a b
    refine propext ⟨fun ⟨ha, hb⟩ => ?_, fun hab => ⟨hab.1, ?_⟩⟩
    · exact (Flow.mem_outLabels hset ha).mp (h a ha ▸ hb)
    · exact h a hab.1 ▸ (Flow.mem_outLabels hset hab.1).mpr hab
  refine
    { mem_outLabels := fun a ha b => ?_
      pairwise_outLabels := fun a ha => h a ha ▸ pairwise_outLabels hset ha
      mem_inLabels := fun a ha b => ?_
      pairwise_inLabels := fun a ha => h a ha ▸ pairwise_inLabels hset ha
      mem_allOut := fun a ha b => ?_
      mem_allIn := fun a ha b => ?_ }
  · rw [h a ha, Flow.mem_outLabels hset ha]
    exact and_iff_right ha
  · rw [h a ha, hedge, Flow.mem_inLabels hset ha]
  · rw [h a ha, hedge, Flow.mem_allOut hset ha]
  · rw [h a ha, Flow.mem_allIn hset ha]
    constructor
    · intro hw
      have hb := (mem_of_transGen hw).1
      exact ⟨hb, h b hb ▸ (Flow.mem_allOut hset hb).mpr hw⟩
    · rintro ⟨hb, hw⟩
      exact (Flow.mem_allOut hset hb).mp (h b hb ▸ hw)

/-- The records of labels outside the set stay. -/
theorem getElem?_refresh_of_notMem {flows after : List Flow} (h : refresh ts set flows = .ok after)
    {a : Nat} (ha : a ∉ set) : after[a]? = flows[a]? := by
  unfold refresh at h
  split at h
  next => exact absurd h (by simp)
  next =>
    obtain rfl := Except.ok.inj h
    rw [List.getElem?_map, List.getElem?_zipIdx]
    cases flows[a]? <;> simp [LabelSet.contains_iff_mem, ha]

/-- A refresh keeps the number of records. -/
theorem length_refresh {flows after : List Flow} (h : refresh ts set flows = .ok after) :
    after.length = flows.length := by
  unfold refresh at h
  split at h
  next => exact absurd h (by simp)
  next =>
    obtain rfl := Except.ok.inj h
    simp

/-- **The records of a set are exact, and only they change.**  Analyzing a set of labels
anew succeeds; afterwards the members have exact records, whatever was recorded before, and
every other label has the record that it had.  The transfers are only read. -/
theorem refresh_records (ts : Transfers) (set : LabelSet) (hset : ∀ id ∈ set, id < ts.length)
    (flows : List Flow) (hlen : flows.length = ts.length) :
    ∃ after, refresh ts set flows = .ok after ∧ after.length = flows.length ∧
      ExactRecords ts set after ∧ (∀ a, a ∉ set → after[a]? = flows[a]?) ∧
        ∀ flows' after', flows'.length = ts.length → refresh ts set flows' = .ok after' →
          ∀ a ∈ set, flowAt after' a = flowAt after a := by
  have hrefresh : ∃ after, refresh ts set flows = .ok after := by
    rw [refresh, danglingTarget?_eq_none hset]
    exact ⟨_, rfl⟩
  obtain ⟨after, hafter⟩ := hrefresh
  have hflow : ∀ a ∈ set, flowAt after a = flowAt (analyze ts set) a := fun a ha =>
    flowAt_refresh hlen hafter ha (hset a ha)
  refine ⟨after, hafter, length_refresh hafter, exactRecords_of_flowAt hset hflow,
    fun a ha => getElem?_refresh_of_notMem hafter ha, fun flows' after' hlen' hafter' a ha => ?_⟩
  rw [hflow a ha]
  exact flowAt_refresh hlen' hafter' ha (hset a ha)

/-- A label that chooses between two others, itself and a label outside the set, which
leads back into it. -/
def crossing : Transfers :=
  [some (.switch (.ssa "x") (.label 2) [("1", .label 1), ("2", .label 2), ("3", .label 0),
      ("4", .nop), ("5", .label 3)]),
    some (.branch (.label 0)), some (.ret none), some (.branch (.label 0))]

/-- The label lies on a cycle through the second one, and the label outside, which it jumps
to, keeps a record that is out of date. -/
theorem records_crossing : (∀ id ∈ LabelSet.ofIds 70 [0, 1, 2], id < crossing.length) ∧
    [Flow.fresh 4, .fresh 4, .fresh 4, .fresh 9].length = crossing.length ∧
    ∃ after, refresh crossing (.ofIds 70 [0, 1, 2])
        [Flow.fresh 4, .fresh 4, .fresh 4, .fresh 9] = .ok after ∧
      TransGen (Recorded (.ofIds 70 [0, 1, 2]) after) 1 1 ∧ 1 ∈ (flowAt after 1).allOut ∧
      3 ∉ (flowAt after 0).outLabels ∧ after[3]? = some (.fresh 9) := by
  have hset : ∀ id ∈ LabelSet.ofIds 70 [0, 1, 2], id < crossing.length := by
    simp [crossing]
  obtain ⟨after, hafter, _, hexact, hframe, _⟩ :=
    refresh_records crossing (.ofIds 70 [0, 1, 2]) hset [.fresh 4, .fresh 4, .fresh 4, .fresh 9] rfl
  have hforth : Recorded (.ofIds 70 [0, 1, 2]) after 1 0 := by
    refine ⟨by simp, (hexact.mem_outLabels 1 (by simp) 0).mpr ⟨by simp, ?_⟩⟩
    simp [Transfers.Jumps, Transfers.targets, Transfers.at?, crossing, Transfer.targets]
  have hback : Recorded (.ofIds 70 [0, 1, 2]) after 0 1 := by
    refine ⟨by simp, (hexact.mem_outLabels 0 (by simp) 1).mpr ⟨by simp, ?_⟩⟩
    simp [Transfers.Jumps, Transfers.targets, Transfers.at?, crossing, Transfer.targets]
  have hcycle := TransGen.tail (TransGen.single hforth) hback
  refine ⟨hset, rfl, after, hafter, hcycle, (hexact.mem_allOut 1 (by simp) 1).mpr hcycle, ?_, ?_⟩
  · exact fun h => by simpa using ((hexact.mem_outLabels 0 (by simp) 3).mp h).1
  · rw [hframe 3 (by simp)]
    rfl

end Flow
end StructuredFlow
