/-
# What every path to an end passes

The labels that a label must get to are those that every walk from it to an end of
paths passes, provided that there is such a walk (`mem_mustGetTo_iff`).

| inclusion | why |
| --- | --- |
| what is recorded lies on every walk | the equations hold along the edges of a walk |
| what lies on every walk is recorded | the repair starts above that and never cuts below |

The equations alone do not give the second: round a cycle they also have solutions
that are too small.  That the table found is the greatest of them is an invariant of
the repair (`Covers`), whatever the order in which labels are looked at.
-/

import StructuredFlow.Proofs.Flow.Relations

namespace StructuredFlow

open Relation Structuring

/-- A walk along steps that stops where paths end.  It starts at the label given and
passes the labels listed, the first and the last of them included. -/
inductive EndingWalk (step : Nat → Nat → Prop) (ends : Nat → Prop) : Nat → List Nat → Prop
  /-- It stops at once. -/
  | stop {a : Nat} (h : ends a) : EndingWalk step ends a [a]
  /-- It takes a step. -/
  | step {a b : Nat} {walk : List Nat} (h : step a b) (hw : EndingWalk step ends b walk) :
      EndingWalk step ends a (a :: walk)

namespace EndingWalk

variable {step : Nat → Nat → Prop} {ends : Nat → Prop} {a b : Nat} {walk : List Nat}

/-- The part of a walk from a label on that it passes. -/
theorem of_mem (h : EndingWalk step ends a walk) (hb : b ∈ walk) :
    ∃ rest, EndingWalk step ends b rest := by
  induction h with
  | stop h =>
    obtain rfl := List.mem_singleton.mp hb
    exact ⟨_, stop h⟩
  | step h hw ih =>
    rcases List.mem_cons.mp hb with rfl | hb
    · exact ⟨_, EndingWalk.step h hw⟩
    · exact ih hb

/-- A walk to an end exists exactly if an end can be reached. -/
theorem exists_iff : (∃ walk, EndingWalk step ends a walk) ↔
    ∃ e, ends e ∧ ReflTransGen step a e := by
  constructor
  · rintro ⟨walk, h⟩
    induction h with
    | stop h => exact ⟨_, h, ReflTransGen.refl⟩
    | step h _ ih =>
      obtain ⟨e, he, hw⟩ := ih
      exact ⟨e, he, hw.head h⟩
  · rintro ⟨e, he, hw⟩
    induction hw using ReflTransGen.head_induction_on with
    | refl => exact ⟨_, stop he⟩
    | head h _ ih =>
      obtain ⟨walk, hwalk⟩ := ih
      exact ⟨_, EndingWalk.step h hwalk⟩

end EndingWalk

/-- Paths end at a label that returns, or that has a marker and no jump within the set. -/
def Transfers.EndsPaths (ts : Transfers) (set : LabelSet) (a : Nat) : Prop :=
  (∃ value, ts.at? a = some (.ret value)) ∨
    (∃ target ∈ ts.targets a, target.isMarker = true) ∧ ∀ b, ¬ts.JumpsWithin set a b

namespace Flow

/-! ### The table of post-dominators -/

section Table

variable {out into : Edges} {exits ends : LabelSet} {w : Worklist} {id a x : Nat}

/-- The exits are the labels from which a walk leads to an end. -/
theorem Ending.mem_exits_iff (h : Ending out into exits ends) :
    a ∈ exits ↔ ∃ walk, EndingWalk out.Step (· ∈ ends) a walk :=
  (h.mem_exits a).trans EndingWalk.exists_iff.symm

/-- A post-dominator lies on every walk to an end. -/
theorem mem_of_mem_postDominators (h : Ending out into exits ends) {walk : List Nat}
    (hw : EndingWalk out.Step (· ∈ ends) a walk)
    (hx : x ∈ (postDominators out into exits ends).at a) : x ∈ walk := by
  induction hw with
  | stop he => exact List.mem_singleton.mpr ((mem_postDominators_of_mem_ends h he).mp hx)
  | @step a b walk hab hw ih =>
    by_cases ha : a ∈ ends
    · exact List.mem_cons.mpr (Or.inl ((mem_postDominators_of_mem_ends h ha).mp hx))
    · have hb : b ∈ exits := h.mem_exits_iff.mpr ⟨walk, hw⟩
      have hae : a ∈ exits := h.mem_exits_iff.mpr ⟨_, EndingWalk.step hab hw⟩
      rcases (mem_postDominators h hae ha).mp hx with rfl | hall
      · exact List.mem_cons_self
      · exact List.mem_cons_of_mem _ (ih (hall b (mem_endingSuccessors.mpr ⟨hab, hb⟩)))

/-- A table that lies above what it should be: of a label that can end it records
everything that lies on every walk to an end. -/
def Covers (out : Edges) (exits ends : LabelSet) (table : SetTable) : Prop :=
  ∀ a ∈ exits, ∀ x, (∀ walk, EndingWalk out.Step (· ∈ ends) a walk → x ∈ walk) → x ∈ table.at a

/-- At the start no label is missing that every walk passes. -/
theorem covers_postDominatorStart (h : Ending out into exits ends) :
    Covers out exits ends (postDominatorStart out exits ends).table := by
  intro a ha x hx
  rw [mem_at_postDominatorStart h]
  refine ⟨ha, ?_⟩
  split
  next he => exact List.mem_singleton.mp (hx [a] (EndingWalk.stop he))
  next =>
    obtain ⟨walk, hwalk⟩ := h.mem_exits_iff.mp ha
    exact h.mem_exits_iff.mpr (hwalk.of_mem (hx walk hwalk))

/-- **A step never cuts below what lies on every walk.**  A walk from a successor is one
from the label with a step put before it. -/
theorem Covers.process (hc : Covers out exits ends w.table)
    (hw : PostDominatorInvariant out exits ends w) (h : Ending out into exits ends)
    (hid : id ∈ w.queue) : Covers out exits ends (w.process (postDominatorStep out exits)
      (postDominatorDependents into exits ends) id).table := by
  obtain ⟨hide, hidn⟩ := hw.queue_mem id hid
  intro a ha x hx
  rw [hw.proper.at_process (h.lt_of_mem hide)]
  split
  next he =>
    subst he
    refine (mem_postDominatorStep (hw.capacity_at h a) (h.lt_of_mem ha)).mpr ?_
    by_cases hxa : x = a
    · exact Or.inl hxa
    · obtain ⟨b, hb, hab⟩ := h.exists_step ha hidn
      refine Or.inr ⟨List.ne_nil_of_mem (mem_endingSuccessors.mpr ⟨hab, hb⟩), fun s hs => ?_⟩
      obtain ⟨has, hse⟩ := mem_endingSuccessors.mp hs
      exact hc s hse x fun walk hwalk =>
        (List.mem_cons.mp (hx _ (EndingWalk.step has hwalk))).resolve_left hxa
  next => exact hc a ha x hx

/-- Of the post-dominators no label is missing that every walk passes. -/
theorem covers_postDominators (h : Ending out into exits ends) :
    Covers out exits ends (postDominators out into exits ends) := by
  -- that no end of paths is queued belongs to the other invariant, so both are carried
  have hstep : ∀ w id, PostDominatorInvariant out exits ends w ∧ Covers out exits ends w.table →
      id ∈ w.queue →
        (PostDominatorInvariant out exits ends (w.process (postDominatorStep out exits)
            (postDominatorDependents into exits ends) id) ∧
          Covers out exits ends (w.process (postDominatorStep out exits)
            (postDominatorDependents into exits ends) id).table) ∧
        Worklist.potential (fun s => s.toFinset.card) out.length
            (w.process (postDominatorStep out exits)
              (postDominatorDependents into exits ends) id) <
          Worklist.potential (fun s => s.toFinset.card) out.length w := by
    rintro w id ⟨hw, hc⟩ hid
    obtain ⟨hw', hlt⟩ := hw.process_lt h hid
    exact ⟨⟨hw', hc.process hw h hid⟩, hlt⟩
  have hstart := And.intro (postDominatorInvariant_start h) (covers_postDominatorStart h)
  obtain ⟨⟨_, hcovers⟩, _⟩ :=
    Worklist.drain_spec hstep hstart (potential_postDominatorStart_le h)
  exact hcovers

/-- **The post-dominators of a label are what every walk to an end passes**, if there is
one. -/
theorem mem_postDominators_iff (h : Ending out into exits ends) :
    x ∈ (postDominators out into exits ends).at a ↔
      (∃ walk, EndingWalk out.Step (· ∈ ends) a walk) ∧
        ∀ walk, EndingWalk out.Step (· ∈ ends) a walk → x ∈ walk := by
  constructor
  · intro hx
    refine ⟨h.mem_exits_iff.mp ?_, fun walk hw => mem_of_mem_postDominators h hw hx⟩
    by_contra hn
    exact not_mem_postDominators h hn hx
  · rintro ⟨hwalk, hall⟩
    exact covers_postDominators h a (h.mem_exits_iff.mpr hwalk) x hall

end Table

/-! ### The records -/

variable {ts : Transfers} {set : LabelSet}

/-- The analysis finds the labels at which paths end. -/
theorem endsPaths_iff {a : Nat} (ha : a ∈ set) :
    endsPaths set (ts.at? a) = true ↔ ts.EndsPaths set a := by
  have hreturns : returns (ts.at? a) = true ↔ ∃ value, ts.at? a = some (.ret value) := by
    rw [returns]
    cases ts.at? a with
    | none => simp
    | some t => cases t <;> simp [Transfer.isReturn]
  have hmarks : marks (ts.at? a) = true ↔ ∃ target ∈ ts.targets a, target.isMarker = true := by
    rw [marks, List.any_eq_true, Transfers.targets]
  have hnone : (successors set (ts.at? a)).isEmpty = true ↔ ∀ b, ¬ts.JumpsWithin set a b := by
    rw [List.isEmpty_iff, List.eq_nil_iff_forall_not_mem]
    refine forall_congr' fun b => not_congr ?_
    rw [mem_successors, Transfers.JumpsWithin, and_iff_right ha]
    rfl
  rw [endsPaths, Bool.or_eq_true, Bool.and_eq_true, hreturns, hmarks, hnone, Transfers.EndsPaths]

/-- The walks that the analysis looks for, said without its tables. -/
theorem endingWalk_iff (hset : ∀ id ∈ set, id < ts.length) {a : Nat} (ha : a ∈ set)
    {walk : List Nat} : EndingWalk (outEdges ts set).Step (· ∈ pathEnds ts set) a walk ↔
      EndingWalk (ts.JumpsWithin set) (ts.EndsPaths set) a walk := by
  rw [step_outEdges hset]
  have hends : ∀ a ∈ set, a ∈ pathEnds ts set ↔ ts.EndsPaths set a := fun a ha => by
    rw [mem_pathEnds hset, and_iff_right ha, endsPaths_iff ha]
  constructor
  · intro h
    induction h with
    | stop h => exact EndingWalk.stop ((hends _ ha).mp h)
    | step h _ ih => exact EndingWalk.step h (ih h.2.1)
  · intro h
    induction h with
    | stop h => exact EndingWalk.stop ((hends _ ha).mpr h)
    | step h _ ih => exact EndingWalk.step h (ih h.2.1)

/-- **What the analysis records is what every walk to an end passes**, apart from the label
itself. -/
theorem mem_mustGetTo_analyze (hset : ∀ id ∈ set, id < ts.length) {a b : Nat} (ha : a ∈ set) :
    b ∈ (flowAt (analyze ts set) a).mustGetTo ↔ b ≠ a ∧
      (∃ walk, EndingWalk (ts.JumpsWithin set) (ts.EndsPaths set) a walk) ∧
        ∀ walk, EndingWalk (ts.JumpsWithin set) (ts.EndsPaths set) a walk → b ∈ walk := by
  have hend := ending_analyze hset
  have hlt : a < (outEdges ts set).length := length_outEdges ts set ▸ hset a ha
  rw [flowAt_analyze ts ha (hset a ha)]
  simp only [mem_mustGetToTable hend hlt, mem_postDominators_iff hend, endingWalk_iff hset ha]
  exact And.comm

/-- No jump between members leads past the labels. -/
theorem danglingTarget?_eq_none (hset : ∀ id ∈ set, id < ts.length) :
    danglingTarget? ts set = none := by
  refine List.find?_eq_none.mpr fun b hb => ?_
  obtain ⟨edges, hedges, hb⟩ := List.mem_flatten.mp hb
  obtain ⟨a, ha, rfl⟩ := List.getElem_of_mem hedges
  have hat : b ∈ (outEdges ts set).at a := by
    rwa [Edges.at, List.getD_eq_getElem?_getD, List.getElem?_eq_getElem ha, Option.getD_some]
  have := target_lt_outEdges hset a b hat
  rw [length_outEdges] at this
  simpa using this

/-- After a refresh a label of the set has the record of the analysis. -/
theorem flowAt_refresh {flows after : List Flow} (hlen : flows.length = ts.length)
    (h : refresh ts set flows = .ok after) {a : Nat} (ha : a ∈ set) (hlt : a < ts.length) :
    flowAt after a = flowAt (analyze ts set) a := by
  unfold refresh at h
  split at h
  next => exact absurd h (by simp)
  next =>
    obtain rfl := Except.ok.inj h
    have hanalyze : a < (analyze ts set).length := by simpa [analyze] using hlt
    simp [flowAt, List.getD_eq_getElem?_getD, hlen ▸ hlt, LabelSet.contains_iff_mem, ha, hanalyze]

/-- **A label must get to what every walk from it to an end passes.**  Analyzing a set of
labels succeeds, and afterwards it is recorded of a member exactly which other labels lie on
every walk within the set from it to an end of paths, and nothing if no walk ends.  A
label that has a marker but can go on within the set ends no path. -/
theorem mem_mustGetTo_iff (ts : Transfers) (set : LabelSet) (hset : ∀ id ∈ set, id < ts.length)
    (flows : List Flow) (hlen : flows.length = ts.length) :
    ∃ after, refresh ts set flows = .ok after ∧ ∀ a ∈ set, ∀ b,
      b ∈ (flowAt after a).mustGetTo ↔ b ≠ a ∧
        (∃ walk, EndingWalk (ts.JumpsWithin set) (ts.EndsPaths set) a walk) ∧
          ∀ walk, EndingWalk (ts.JumpsWithin set) (ts.EndsPaths set) a walk → b ∈ walk := by
  have hrefresh : ∃ after, refresh ts set flows = .ok after := by
    rw [refresh, danglingTarget?_eq_none hset]
    exact ⟨_, rfl⟩
  obtain ⟨after, hafter⟩ := hrefresh
  refine ⟨after, hafter, fun a ha b => ?_⟩
  rw [flowAt_refresh hlen hafter ha (hset a ha)]
  exact mem_mustGetTo_analyze hset ha

/-- Two labels, the first of which goes on to the second or falls through, while the second
leaves by a break. -/
def markedPair : Transfers :=
  [some (.condBranch (.ssa "c") (.label 1) .nop), some (.branch (.breakOf 0))]

/-- The first label must get to the second: its own marker ends no path. -/
theorem mustGetTo_markedPair : (∀ id ∈ LabelSet.ofIds 70 [0, 1], id < markedPair.length) ∧
    ∃ after, refresh markedPair (.ofIds 70 [0, 1]) [.fresh 2, .fresh 2] = .ok after ∧
      1 ∈ (flowAt after 0).mustGetTo := by
  have hset : ∀ id ∈ LabelSet.ofIds 70 [0, 1], id < markedPair.length := by
    simp [markedPair]
  obtain ⟨after, hafter, hmust⟩ :=
    mem_mustGetTo_iff markedPair (.ofIds 70 [0, 1]) hset [.fresh 2, .fresh 2] rfl
  have hstep : ∀ a b, markedPair.JumpsWithin (.ofIds 70 [0, 1]) a b → a = 0 ∧ b = 1 := by
    rintro a b ⟨ha, hb, hab⟩
    simp only [LabelSet.mem_ofIds, List.mem_cons, List.not_mem_nil, or_false] at ha hb
    obtain ⟨rfl | rfl, _⟩ := ha <;> obtain ⟨rfl | rfl, _⟩ := hb <;>
      revert hab <;> simp [Transfers.Jumps, Transfers.targets, Transfers.at?, markedPair,
        Transfer.targets]
  have hjump : markedPair.JumpsWithin (.ofIds 70 [0, 1]) 0 1 := by
    simp [Transfers.JumpsWithin, Transfers.Jumps, Transfers.targets, Transfers.at?, markedPair,
      Transfer.targets]
  have hend : markedPair.EndsPaths (.ofIds 70 [0, 1]) 1 :=
    Or.inr ⟨⟨.breakOf 0, by decide, rfl⟩, fun b hb => absurd (hstep 1 b hb).1 (by decide)⟩
  refine ⟨hset, after, hafter, (hmust 0 (by simp) 1).mpr ⟨by decide,
    ⟨_, EndingWalk.step hjump (EndingWalk.stop hend)⟩, fun walk hw => ?_⟩⟩
  cases hw with
  | stop h =>
    rcases h with ⟨value, h⟩ | ⟨_, h⟩
    · exact absurd h (by simp [Transfers.at?, markedPair])
    · exact absurd hjump (h 1)
  | step h hw =>
    obtain rfl := (hstep _ _ h).2
    cases hw <;> simp

end Flow
end StructuredFlow
