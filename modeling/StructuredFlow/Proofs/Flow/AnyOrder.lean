/-
# Worklists drained in any order

Which of the waiting ids is processed next is free: `Turns` leads from a worklist to another
by processing, in each turn, some id that waits.  What one step preserves holds after any
number of turns, and what one step takes away bounds their number (`Turns.invariant`).  So
the facts about single steps settle how the tables of the analysis develop in any order
(`Repairs`):

| table | each set | equation of a label at the end |
| --- | --- | --- |
| closures | only grows | its neighbours, and what their sets hold |
| post-dominators | only shrinks | itself, and what the sets of all its successors that can end hold |

A recomputation replaces a set outright.  That it still moves one way only is the invariant of
each table: a closure adds to the set that was there, and the recomputed post-dominators of
a label lie within its set.
-/

import StructuredFlow.Proofs.Flow.Relations

namespace StructuredFlow

open Relation

namespace Worklist

/-! ### Turns -/

section Turns

variable {recompute : SetTable → Nat → LabelSet} {dependents : Nat → List Nat}
  {start w w' : Worklist} {n m : Nat}

/-- A number of turns, in each of which some id that waits is processed. -/
inductive Turns (recompute : SetTable → Nat → LabelSet) (dependents : Nat → List Nat) :
    Nat → Worklist → Worklist → Prop
  /-- No turn. -/
  | zero (w : Worklist) : Turns recompute dependents 0 w w
  /-- One turn more. -/
  | succ {n : Nat} {w w' : Worklist} {id : Nat} (h : Turns recompute dependents n w w')
      (hid : id ∈ w'.queue) :
      Turns recompute dependents (n + 1) w (w'.process recompute dependents id)

/-- Turns may be taken one run after the other. -/
theorem Turns.trans (h : Turns recompute dependents n start w)
    (h' : Turns recompute dependents m w w') : Turns recompute dependents (n + m) start w' := by
  induction h' with
  | zero => exact h
  | succ _ hid ih => exact .succ (ih h) hid

/-- A drained worklist has taken turns, always with the first id of its queue. -/
theorem exists_turns_drain (recompute : SetTable → Nat → LabelSet) (dependents : Nat → List Nat)
    (fuel : Nat) (w : Worklist) :
    ∃ n, Turns recompute dependents n w (drain recompute dependents fuel w) := by
  induction fuel generalizing w with
  | zero => exact ⟨0, .zero w⟩
  | succ fuel ih =>
    rw [drain]
    split
    next => exact ⟨0, .zero w⟩
    next id rest hqueue =>
      obtain ⟨n, hn⟩ := ih (w.process recompute dependents id)
      exact ⟨0 + 1 + n, (Turns.succ (.zero w) (hqueue ▸ List.mem_cons_self)).trans hn⟩

/-- **An invariant of every step holds after any number of turns**, and there are no more turns
than every step takes away from a measure. -/
theorem Turns.invariant {inv : Worklist → Prop} {measure : Worklist → Nat}
    (hstep : ∀ w id, inv w → id ∈ w.queue → inv (w.process recompute dependents id) ∧
      measure (w.process recompute dependents id) < measure w)
    (h : Turns recompute dependents n start w) (hstart : inv start) :
    inv w ∧ measure w + n ≤ measure start := by
  induction h with
  | zero => exact ⟨hstart, le_rfl⟩
  | succ _ hid ih =>
    obtain ⟨hinv, hmeasure⟩ := ih hstart
    obtain ⟨hinv', hlt⟩ := hstep _ _ hinv hid
    exact ⟨hinv', by omega⟩

/-- The table of a worklist is repaired in any order: a recomputation moves a set one way, each
set only moves that way, only so many turns can be taken, and the table is solved when
no id waits any more. -/
structure Repairs (recompute : SetTable → Nat → LabelSet) (dependents : Nat → List Nat)
    (start : Worklist) (moves : LabelSet → LabelSet → Prop) (solved : SetTable → Prop) : Prop where
  /-- A recomputation that changes a set moves it. -/
  strict : ∀ n w id, Turns recompute dependents n start w → id ∈ w.queue →
    recompute w.table id ≠ w.table.at id → moves (w.table.at id) (recompute w.table id)
  /-- Each set stays or moves, from the start and in between. -/
  monotone : ∀ n w m w', Turns recompute dependents n start w → Turns recompute dependents m w w' →
    ∀ a, w'.table.at a = w.table.at a ∨ moves (w.table.at a) (w'.table.at a)
  /-- The turns come to an end. -/
  bounded : ∀ n w, Turns recompute dependents n start w → n ≤ stepBound start.table.length
  /-- They can only end where the table is solved. -/
  solved_of_done : ∀ n w, Turns recompute dependents n start w → w.queue = [] → solved w.table
  /-- Processing the first id of the queue in each turn ends so within the bound. -/
  drained : ∃ n w, Turns recompute dependents n start w ∧ w.queue = [] ∧
    drain recompute dependents (stepBound start.table.length) start = w

/-- What an invariant of the steps says of every order. -/
theorem repairs_of_invariant {inv : Worklist → Prop} {measure : Worklist → Nat}
    {moves : LabelSet → LabelSet → Prop} {solved : SetTable → Prop} {count : Nat}
    (hproper : ∀ w, inv w → w.Proper count)
    (hstep : ∀ w id, inv w → id ∈ w.queue → inv (w.process recompute dependents id) ∧
      measure (w.process recompute dependents id) < measure w)
    (hmoves : ∀ w id, inv w → id ∈ w.queue → recompute w.table id ≠ w.table.at id →
      moves (w.table.at id) (recompute w.table id))
    (htrans : ∀ {s t u}, moves s t → moves t u → moves s u)
    (hsolved : ∀ w, inv w → w.queue = [] → solved w.table)
    (hstart : inv start) (hbound : measure start ≤ stepBound count) :
    Repairs recompute dependents start moves solved where
  strict n w id hn hid hne := hmoves w id (hn.invariant hstep hstart).1 hid hne
  monotone n w m w' hn hm a := by
    have hinv := (hn.invariant hstep hstart).1
    induction hm with
    | zero => exact Or.inl rfl
    | @succ m w w' id hm hid ih =>
      have hinv' := (hm.invariant hstep hinv).1
      rw [(hproper w' hinv').at_process ((hproper w' hinv').queue_lt id hid)]
      split
      next ha =>
        subst ha
        by_cases hne : recompute w'.table a = w'.table.at a
        · exact hne ▸ ih hn hinv
        · have hmove := hmoves w' a hinv' hid hne
          exact Or.inr ((ih hn hinv).elim (fun heq => heq ▸ hmove) fun h => htrans h hmove)
      next => exact ih hn hinv
  bounded n w hn := by
    have hle := (hn.invariant hstep hstart).2
    rw [(hproper start hstart).length_table]
    omega
  solved_of_done n w hn := hsolved w (hn.invariant hstep hstart).1
  drained := by
    rw [(hproper start hstart).length_table]
    obtain ⟨n, hn⟩ := exists_turns_drain recompute dependents (stepBound count) start
    exact ⟨n, _, hn, (drain_spec hstep hstart hbound).2, rfl⟩

/-- The first id of the queue in each turn is one of the orders. -/
theorem Repairs.solved_drain {moves : LabelSet → LabelSet → Prop} {solved : SetTable → Prop}
    (h : Repairs recompute dependents start moves solved) {count : Nat}
    (hlen : start.table.length = count) :
    solved (start.drain recompute dependents (stepBound count)).table := by
  obtain ⟨n, w, hn, hdone, rfl⟩ := h.drained
  exact hlen ▸ h.solved_of_done n _ hn hdone

end Turns

end Worklist

namespace Flow

variable {members : List Nat} {out into : Edges} {ends : LabelSet}

/-! ### The tables of the analysis -/

/-- Each set of the table holds the neighbours of its label and what their sets hold. -/
def ClosureEquations (direct : Edges) (table : SetTable) : Prop :=
  ∀ a x, x ∈ table.at a ↔ x ∈ direct.at a ∨ ∃ s ∈ direct.at a, x ∈ table.at s

/-- A walk leads from the label to one that ends paths. -/
def CanEnd (out : Edges) (ends : LabelSet) (a : Nat) : Prop :=
  ∃ e ∈ ends, ReflTransGen out.Step a e

/-- A label that ends paths has itself in its set; one that can end and does not end paths has
itself and what the sets of all its successors that can end hold. -/
structure PostDominatorEquations (out : Edges) (ends : LabelSet) (table : SetTable) : Prop where
  /-- The equation of a label that ends paths. -/
  of_mem_ends : ∀ a ∈ ends, ∀ x, x ∈ table.at a ↔ x = a
  /-- The equation of a label that can end. -/
  of_canEnd : ∀ a, CanEnd out ends a → a ∉ ends → ∀ x, x ∈ table.at a ↔ x = a ∨
    ∀ s ∈ out.at a, CanEnd out ends s → x ∈ table.at s

/-- At an empty queue a closure is what walks lead to, and so what its equation says. -/
theorem ClosureInvariant.equations {w : Worklist} (hw : ClosureInvariant out w)
    (h : Edges.Inverse out into) (hdone : w.queue = []) : ClosureEquations out w.table := by
  intro a x
  simp only [hw.mem_iff h hdone]
  constructor
  · intro hw
    obtain ⟨s, hs, hrest⟩ := TransGen.head'_iff.mp hw
    rcases reflTransGen_iff_eq_or_transGen.mp hrest with rfl | hrest
    · exact Or.inl hs
    · exact Or.inr ⟨s, hs, hrest⟩
  · rintro (hx | ⟨s, hs, hrest⟩)
    · exact TransGen.single hx
    · exact TransGen.head hs hrest

/-- Where the queue is empty the post-dominators solve their equations. -/
theorem PostDominatorInvariant.equations {exits : LabelSet} {w : Worklist}
    (hw : PostDominatorInvariant out exits ends w) (h : Ending out into exits ends)
    (hdone : w.queue = []) : PostDominatorEquations out ends w.table where
  of_mem_ends := hw.at_ends
  of_canEnd a ha hn x := by
    have hexit : ∀ b, b ∈ exits ↔ CanEnd out ends b := h.mem_exits
    have hae := (hexit a).mpr ha
    rw [← hw.settled a ⟨hae, hn⟩ (hdone ▸ List.not_mem_nil),
      mem_postDominatorStep (hw.capacity_at h a) (h.lt_of_mem hae)]
    obtain ⟨s, hs, hstep⟩ := h.exists_step hae hn
    have hne : endingSuccessors out exits a ≠ [] :=
      List.ne_nil_of_mem (mem_endingSuccessors.mpr ⟨hstep, hs⟩)
    rw [and_iff_right hne]
    refine or_congr_right ⟨fun hall s hs hcan => ?_, fun hall s hs => ?_⟩
    · exact hall s (mem_endingSuccessors.mpr ⟨hs, (hexit s).mpr hcan⟩)
    · obtain ⟨hstep, hse⟩ := mem_endingSuccessors.mp hs
      exact hall s hstep ((hexit s).mp hse)

/-- **A closure is repaired in any order**: each turn adds to a set, and what is left solves the
equations. -/
theorem repairs_closure {queue : List Nat} (h : Edges.Inverse out into) (hq : out.Queues queue) :
    Worklist.Repairs (closureStep out) into.at (closureStart queue out)
      (fun s t => s.toFinset ⊂ t.toFinset) (ClosureEquations out) :=
  Worklist.repairs_of_invariant (fun _ hw => hw.proper) (fun _ _ hw hid => hw.process_lt h hid)
    (fun _ _ _ _ hne => ssubset_closureStep hne) ssubset_trans
    (fun _ hw hdone => hw.equations h hdone) (closureInvariant_start h hq)
    (potential_closureStart_le h hq)

/-- **The post-dominators are repaired in any order**: each turn takes from a set, and what is
left solves the equations. -/
theorem repairs_postDominators {exits : LabelSet} (h : Ending out into exits ends) :
    Worklist.Repairs (postDominatorStep out exits) (postDominatorDependents into exits ends)
      (postDominatorStart out exits ends) (fun s t => t.toFinset ⊂ s.toFinset)
      (PostDominatorEquations out ends) :=
  Worklist.repairs_of_invariant (fun _ hw => hw.proper) (fun _ _ hw hid => hw.process_lt h hid)
    (fun _ id hw hid hne =>
      have hpath := hw.queue_mem id hid
      hw.ssubset_step h hpath.1 hpath.2 hne)
    (fun hst htu => ssubset_trans htu hst)
    (fun _ hw hdone => hw.equations h hdone) (postDominatorInvariant_start h)
    (potential_postDominatorStart_le h)

/-- **Both tables are repaired in any order**: closures only grow and post-dominators only
shrink, strictly with every change; there are only so many turns, and when they end, the
equation of every label holds.  The order of the analysis is one of them. -/
theorem repairs_inAnyOrder (h : Edges.Inverse out into) (hm : out.Queues members)
    (hends : ∀ e ∈ ends, e ∈ members) :
    let queue := members.reverse
    let canEnd := exits members out.length ends (closure queue out into)
    (Worklist.Repairs (closureStep out) into.at (closureStart queue out)
        (fun s t => s.toFinset ⊂ t.toFinset) (ClosureEquations out) ∧
      ClosureEquations out (closure queue out into)) ∧
    Worklist.Repairs (postDominatorStep out canEnd) (postDominatorDependents into canEnd ends)
        (postDominatorStart out canEnd ends) (fun s t => t.toFinset ⊂ s.toFinset)
        (PostDominatorEquations out ends) ∧
      PostDominatorEquations out ends (postDominators out into canEnd ends) := by
  intro queue canEnd
  have hclosure := repairs_closure h hm.reverse
  have hpost := repairs_postDominators (ending_exits h hm.reverse
    (fun a => List.mem_reverse.mp) fun e he => ⟨hends e he, hm.lt_length e (hends e he)⟩)
  exact ⟨⟨hclosure, hclosure.solved_drain (by simp [closureStart])⟩,
    hpost, hpost.solved_drain (by simp [postDominatorStart])⟩

/-- Three labels: the first goes on to itself, to the second and to the third, the second
to the first, and the third ends paths. -/
def retried : Edges := [[0, 1, 2], [0], []]

/-- The tables of the three labels are repaired in any order. -/
theorem repairs_retried :
    Worklist.Repairs (closureStep retried) (reverseEdges retried).at
        (closureStart [2, 1, 0] retried) (fun s t => s.toFinset ⊂ t.toFinset)
        (ClosureEquations retried) ∧
      PostDominatorEquations retried (.ofIds 3 [2])
        (postDominators retried (reverseEdges retried) (.ofIds 3 [0, 1, 2]) (.ofIds 3 [2])) := by
  have hedges : ∀ a < 3, a ∈ [0, 1, 2] ∧ ∀ b ∈ retried.at a, b < 3 := by decide
  have hlt : ∀ a b, b ∈ retried.at a → b < retried.length :=
    fun a b hb => (hedges a (Edges.lt_length_of_mem hb)).2 b hb
  have hinverse : Edges.Inverse retried (reverseEdges retried) :=
    ⟨hlt, fun _ _ => mem_reverseEdges hlt⟩
  have hqueues : retried.Queues [0, 1, 2] :=
    ⟨by decide, by decide, fun a _ hb => (hedges a (Edges.lt_length_of_mem hb)).1⟩
  have hends : ∀ e ∈ LabelSet.ofIds 3 [2], e ∈ [0, 1, 2] := by simp
  obtain ⟨⟨hclosure, _⟩, _, hpost⟩ := repairs_inAnyOrder hinverse hqueues hends
  exact ⟨hclosure, hpost⟩

end Flow
end StructuredFlow
