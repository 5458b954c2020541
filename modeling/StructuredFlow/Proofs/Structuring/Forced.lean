/-
# Choices among labels that must be gotten to are forced

Patterns choose by what labels must get to; of several candidates they take the one that
must get to most labels, or else the one with the lesser id.  As long as the candidates are
labels that must be gotten to, their ids never decide (`ForcedChoices`):

| choice | why it is forced |
| --- | --- |
| which target of a conditional joins the other | of two labels, only one must get to the other |
| the label at which two arms join | it is met first on every walk of both to an end |
| the order of labels behind a loop | each must get to all that come after it |

What a label must get to is a chain, so of two candidates one must get to the other, and
then it must get to more labels (`mustGetTo_of_comesBefore`).  No contract is needed.
-/

import StructuredFlow.Proofs.Flow.MustOrder
import StructuredFlow.Proofs.Structuring.Isolation

namespace StructuredFlow
namespace Structuring

open Relation

/-- It is recorded of a label that it must get to another. -/
def MustGetTo (flows : List Flow) (a b : Nat) : Prop := b ∈ (flowAt flows a).mustGetTo

/-- It is recorded of two labels that both must get to a third. -/
def Common (flows : List Flow) (a b c : Nat) : Prop := MustGetTo flows a c ∧ MustGetTo flows b c

/-- One of the labels that two labels must both get to comes before all others. -/
structure JoinsFirst (ts : Transfers) (set : LabelSet) (a b join : Nat) : Prop where
  /-- Both labels must get to it. -/
  common : Common (Flow.analyze ts set) a b join
  /-- It must get to all others, and to more labels than any of them. -/
  others : ∀ c, Common (Flow.analyze ts set) a b c → c ≠ join →
    MustGetTo (Flow.analyze ts set) join c ∧
      mustCount (Flow.analyze ts set) c < mustCount (Flow.analyze ts set) join
  /-- No walk of either label to an end meets another before it. -/
  met_first : ∀ arm, arm = a ∨ arm = b → ∀ walk,
    EndingWalk (ts.JumpsWithin set) (ts.EndsPaths set) arm walk →
      ∃ before rest, walk = before ++ join :: rest ∧
        ∀ c ∈ before, ¬Common (Flow.analyze ts set) a b c

/-- The choices that a pattern makes by what labels must get to leave nothing open. -/
structure ForcedChoices (ts : Transfers) (set : LabelSet) (entry : Nat) : Prop where
  /-- Of two labels that the entry leads to, at most one must get to the other. -/
  targets : ∀ a ∈ (flowAt (Flow.analyze ts set) entry).outLabels,
    ∀ b ∈ (flowAt (Flow.analyze ts set) entry).outLabels,
      ¬(MustGetTo (Flow.analyze ts set) a b ∧ MustGetTo (Flow.analyze ts set) b a)
  /-- The label at which two arms join comes before all others that it could be. -/
  join : ∀ condition onTrue onFalse first second join negated,
    choice? (ts.at? entry) = some (condition, onTrue, onFalse) →
    chooseArms (Flow.analyze ts set) onTrue onFalse = (first, some second, some join, negated) →
      JoinsFirst ts set onTrue onFalse join
  /-- The labels outside a loop that all its labels must get to are tried first; each of
  them must get to those after it, and to more labels than they. -/
  pivots : let flows := Flow.analyze ts set
    let core := loopCore flows set entry
    let outsiders := set.diff core
    ∃ forced others,
      pivotCandidates flows core outsiders (loopExits flows core outsiders) = forced ++ others ∧
      (∀ a, a ∈ forced ↔ a ∈ outsiders ∧ ∀ id ∈ core, MustGetTo flows id a) ∧
      forced.Pairwise fun a b => MustGetTo flows a b ∧ mustCount flows b < mustCount flows a

section Forced

variable {ts : Transfers} {set : LabelSet} {entry a b c : Nat}

/-- What is recorded is recorded of a member. -/
theorem mem_of_mustGetTo (h : MustGetTo (Flow.analyze ts set) a b) : a ∈ set := by
  by_contra ha
  obtain ⟨count, hflow⟩ := Flow.flowAt_analyze_of_notMem ts ha
  rw [MustGetTo, hflow] at h
  exact absurd h LabelSet.not_mem_empty

variable (hset : ∀ id ∈ set, id < ts.length)
include hset

/-- What is recorded must be passed. -/
theorem mustPass_of_mustGetTo (h : MustGetTo (Flow.analyze ts set) a b) :
    MustPass (ts.JumpsWithin set) (ts.EndsPaths set) a b :=
  (mem_mustGetTo_iff_mustPass hset (mem_of_mustGetTo h)).mp h

/-- What is recorded is a member. -/
theorem mem_of_mustGetTo_right (h : MustGetTo (Flow.analyze ts set) a b) : b ∈ set :=
  (Flow.mem_of_transGen (Flow.transGen_of_mem_mustGetTo hset (mem_of_mustGetTo h) h).1).2

/-- **Of two labels that a label must get to, the candidate that comes first must get to the
other**, and to more labels. -/
theorem mustGetTo_of_comesBefore (hb : MustGetTo (Flow.analyze ts set) a b)
    (hc : MustGetTo (Flow.analyze ts set) a c) (hne : b ≠ c)
    (hfirst : comesBefore (Flow.analyze ts set) b c = true) :
    MustGetTo (Flow.analyze ts set) b c ∧
      mustCount (Flow.analyze ts set) c < mustCount (Flow.analyze ts set) b := by
  have hbs := mem_of_mustGetTo_right hset hb
  have hcs := mem_of_mustGetTo_right hset hc
  rcases (mustPass_of_mustGetTo hset hb).total (mustPass_of_mustGetTo hset hc) hne with h | h
  · exact ⟨(mem_mustGetTo_iff_mustPass hset hbs).mpr h, mustCount_lt hset hbs hcs h⟩
  · rw [not_comesBefore_of_lt (mustCount_lt hset hcs hbs h)] at hfirst
    exact absurd hfirst Bool.false_ne_true

/-- **The first candidate for a join is the first label that both arms must pass.** -/
theorem joinsFirst_of_firstCandidate? {join : Nat}
    (h : firstCandidate? (Flow.analyze ts set) ((flowAt (Flow.analyze ts set) a).mustGetTo.inter
      (flowAt (Flow.analyze ts set) b).mustGetTo).toList = some join) :
    JoinsFirst ts set a b join := by
  have hmem : ∀ c, c ∈ ((flowAt (Flow.analyze ts set) a).mustGetTo.inter
      (flowAt (Flow.analyze ts set) b).mustGetTo).toList ↔ Common (Flow.analyze ts set) a b c :=
    fun c => by rw [LabelSet.mem_toList, LabelSet.mem_inter]; rfl
  have hjoin := (hmem join).mp (mem_of_firstCandidate? h)
  have hothers : ∀ c, Common (Flow.analyze ts set) a b c → c ≠ join →
      MustGetTo (Flow.analyze ts set) join c ∧
        mustCount (Flow.analyze ts set) c < mustCount (Flow.analyze ts set) join :=
    fun c hc hne => mustGetTo_of_comesBefore hset hjoin.1 hc.1 (Ne.symm hne)
      (comesBefore_of_firstCandidate? h c ((hmem c).mpr hc))
  refine ⟨hjoin, hothers, fun arm harm walk hwalk => ?_⟩
  have hpass : MustPass (ts.JumpsWithin set) (ts.EndsPaths set) arm join := by
    rcases harm with rfl | rfl
    · exact mustPass_of_mustGetTo hset hjoin.1
    · exact mustPass_of_mustGetTo hset hjoin.2
  exact hpass.exists_first_eq hjoin
    (fun c hc hne => mustPass_of_mustGetTo hset (hothers c hc hne).1) hwalk

/-- Labels that must be gotten to are sorted in the order in which they are passed. -/
theorem pairwise_mergeSort_of_mustGetTo {ids : List Nat} (hnodup : ids.Nodup)
    (hall : ∀ b ∈ ids, MustGetTo (Flow.analyze ts set) a b) :
    (ids.mergeSort (comesBefore (Flow.analyze ts set))).Pairwise fun b c =>
      MustGetTo (Flow.analyze ts set) b c ∧
        mustCount (Flow.analyze ts set) c < mustCount (Flow.analyze ts set) b := by
  have hsorted := pairwise_mergeSort_comesBefore (Flow.analyze ts set) ids
  have hdistinct : (ids.mergeSort (comesBefore (Flow.analyze ts set))).Nodup :=
    (List.mergeSort_perm ids _).nodup_iff.mpr hnodup
  refine (hsorted.and hdistinct).imp_of_mem fun {b c} hb hc hbc => ?_
  exact mustGetTo_of_comesBefore hset (hall b (List.mem_mergeSort.mp hb))
    (hall c (List.mem_mergeSort.mp hc)) hbc.2 hbc.1

/-- In a set of labels the choices are forced. -/
theorem forcedChoices_of_mem (hentry : entry ∈ set) : ForcedChoices ts set entry where
  targets a _ b _ h :=
    (mustPass_of_mustGetTo hset h.1).asymm (mustPass_of_mustGetTo hset h.2)
  join condition onTrue onFalse first second join negated _ harms := by
    unfold chooseArms at harms
    dsimp only at harms
    split at harms
    next => exact absurd (congrArg (·.2.1) harms) (by simp)
    next =>
      split at harms
      next => exact absurd (congrArg (·.2.1) harms) (by simp)
      next => exact joinsFirst_of_firstCandidate? hset (congrArg (·.2.2.1) harms)
  pivots := by
    dsimp only
    refine ⟨_, _, rfl, fun a => ?_, ?_⟩
    · rw [List.mem_mergeSort, List.mem_filter, LabelSet.mem_toList, List.all_eq_true]
      simp only [LabelSet.mem_toList]
      rfl
    · have hcore : entry ∈ loopCore (Flow.analyze ts set) set entry := by
        rw [loopCore, LabelSet.mem_ofIds, List.mem_filter, LabelSet.mem_toList]
        exact ⟨⟨hentry, by simp⟩, LabelSet.lt_capacity_of_mem hentry⟩
      refine pairwise_mergeSort_of_mustGetTo hset (a := entry)
        ((LabelSet.nodup_toList _).filter _) fun b hb => ?_
      have hall := List.all_eq_true.mp (List.mem_filter.mp hb).2
      exact hall entry (LabelSet.mem_toList.mpr hcore)

end Forced

/-- **The choices of structuring are forced.**  In every region that structuring takes up,
at most one target of a conditional must get to the other; the label at which two arms join
is met before all others that both must get to; and the labels behind a loop that all its
labels must get to are strictly ordered by how many labels they must get to.  None of these
choices is left to the lesser id. -/
theorem forcedChoices_of_takenUp (f : Function) (entry : Nat) (set : LabelSet) (start : Nat)
    (ts : Transfers) (h : .region set start ts ∈ (run f.transfers entry).2) :
    ForcedChoices ts set start := by
  obtain ⟨hr, -⟩ := takenUp_of_mem_run h
  exact forcedChoices_of_mem hr.lt_length hr.entry_mem

/-- A choice between two labels that both lead to a third and from there to the end. -/
def joining : Function :=
  .ofLabels "joining" ["c"]
    [("choose", [{ action := .transfer (.condBranch (.ssa "c") (.label 1) (.label 2)) }]),
      ("left", [{ action := .transfer (.branch (.label 3)) }]),
      ("right", [{ action := .transfer (.branch (.label 3)) }]),
      ("meet", [{ action := .transfer (.branch (.label 4)) }]),
      ("done", [{ action := .transfer (.ret none) }])]

/-- Both arms must get to the third label and to the end; they join at the third. -/
theorem forcedChoices_joining :
    .region (.full 5) 0 joining.transfers ∈ (run joining.transfers 0).2 ∧
    choice? (Transfers.at? joining.transfers 0) = some (.ssa "c", 1, 2) ∧
    chooseArms (Flow.analyze joining.transfers (.full 5)) 1 2 = (1, some 2, some 3, false) ∧
    JoinsFirst joining.transfers (.full 5) 1 2 3 := by
  have hlive : Transfers.live joining.transfers 0 = .full 5 := by decide_cbv
  have htable : liveTable joining.transfers 0 = joining.transfers := by decide_cbv
  have h : .region (.full 5) 0 joining.transfers ∈ (run joining.transfers 0).2 := by
    have hmem := @live_mem_run joining.transfers 0 (by decide)
    rwa [hlive, htable] at hmem
  have hchoice : choice? (Transfers.at? joining.transfers 0) = some (.ssa "c", 1, 2) := rfl
  have harms : chooseArms (Flow.analyze joining.transfers (.full 5)) 1 2 =
      (1, some 2, some 3, false) := by decide_cbv
  exact ⟨h, hchoice, harms, (forcedChoices_of_takenUp joining 0 (.full 5) 0 joining.transfers
    h).join _ _ _ _ _ _ _ hchoice harms⟩

end Structuring
end StructuredFlow
