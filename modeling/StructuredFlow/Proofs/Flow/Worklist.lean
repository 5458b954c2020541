/-
# Draining a worklist

A step of a worklist takes an id out of the queue, puts the recomputed set in
the table and queues the dependents of the id if the table changed.  Three facts
about one step carry every use of it, whatever the id:

* `Proper.process`: the table keeps its shape and the queue has no repetition;
* `Settled.process`: an equation that is not queued holds, as long as the
  equations that read the set of an id are queued as its dependents;
* `Proper.potential_process_lt`: the potential, a weight of the sets that falls
  with every change and then the length of the queue, falls.

`drain_spec` turns facts about steps into facts about the drained worklist: the
invariant still holds and the queue is empty, once the fuel covers the
potential; `potential_le_stepBound` says that `stepBound` does.
-/

import StructuredFlow.Flow.Worklist
import StructuredFlow.Proofs.LabelSet.Members
import Mathlib.Algebra.BigOperators.Group.Finset.Basic
import Mathlib.Algebra.Order.BigOperators.Group.Finset
import Mathlib.Tactic.Ring

namespace StructuredFlow

/-- Setting one entry of a table changes no other. -/
theorem SetTable.at_set {table : SetTable} {id : Nat} (h : id < table.length) (s : LabelSet)
    (a : Nat) : SetTable.at (table.set id s) a = if a = id then s else table.at a := by
  unfold SetTable.at
  rw [List.getD_eq_getElem?_getD, List.getElem?_set]
  by_cases ha : id = a
  · subst ha
    simp [h]
  · simp [ha, Ne.symm ha, List.getD_eq_getElem?_getD]

/-- Setting an entry to what it is changes nothing. -/
theorem SetTable.set_at (table : SetTable) (id : Nat) : table.set id (table.at id) = table := by
  unfold SetTable.at
  by_cases h : id < table.length
  · rw [List.getD_eq_getElem?_getD, List.getElem?_eq_getElem h]
    exact List.set_getElem_self h
  · exact List.set_eq_of_length_le (Nat.not_lt.mp h)

namespace Worklist

/-! ### The queue -/

/-- A queue takes on the labels that it lacks. -/
theorem mem_enqueue {queue ids : List Nat} {a : Nat} :
    a ∈ enqueue queue ids ↔ a ∈ queue ∨ a ∈ ids := by
  unfold enqueue
  induction ids generalizing queue with
  | nil => simp
  | cons id ids ih =>
    rw [List.foldl_cons, ih]
    split
    next h =>
      rw [List.contains_iff_mem] at h
      constructor
      · rintro (hq | hi)
        · exact Or.inl hq
        · exact Or.inr (List.mem_cons_of_mem _ hi)
      · rintro (hq | hi)
        · exact Or.inl hq
        · rcases List.mem_cons.mp hi with rfl | hi
          · exact Or.inl h
          · exact Or.inr hi
    next h => simp [or_assoc]

/-- No label waits twice. -/
theorem nodup_enqueue {queue : List Nat} (h : queue.Nodup) (ids : List Nat) :
    (enqueue queue ids).Nodup := by
  unfold enqueue
  induction ids generalizing queue with
  | nil => exact h
  | cons id ids ih =>
    rw [List.foldl_cons]
    split
    next => exact ih h
    next hn =>
      rw [List.contains_iff_mem] at hn
      refine ih (List.nodup_append.mpr ⟨h, List.nodup_singleton id, fun a ha b hb he => hn ?_⟩)
      rw [← List.mem_singleton.mp hb, ← he]
      exact ha

/-! ### One step -/

section Step

variable (recompute : SetTable → Nat → LabelSet) (dependents : Nat → List Nat)

/-- A turn that finds nothing new takes its label from the queue. -/
theorem process_of_eq {w : Worklist} {id : Nat} (h : recompute w.table id = w.table.at id) :
    w.process recompute dependents id = ⟨w.table, w.queue.erase id⟩ := if_pos h

/-- A turn that finds something new stores it and has the dependents wait. -/
theorem process_of_ne {w : Worklist} {id : Nat} (h : recompute w.table id ≠ w.table.at id) :
    w.process recompute dependents id =
      ⟨w.table.set id (recompute w.table id), enqueue (w.queue.erase id) (dependents id)⟩ :=
  if_neg h

/-- After a turn the table holds what was computed. -/
theorem table_process (w : Worklist) (id : Nat) :
    (w.process recompute dependents id).table = w.table.set id (recompute w.table id) := by
  by_cases h : recompute w.table id = w.table.at id
  · rw [process_of_eq recompute dependents h, h, SetTable.set_at]
  · rw [process_of_ne recompute dependents h]

/-- What waits after a turn waited before, or depends on what has changed. -/
theorem mem_queue_process {w : Worklist} {id a : Nat} :
    a ∈ (w.process recompute dependents id).queue ↔
      a ∈ w.queue.erase id ∨ recompute w.table id ≠ w.table.at id ∧ a ∈ dependents id := by
  by_cases h : recompute w.table id = w.table.at id
  · rw [process_of_eq recompute dependents h]
    simp [h]
  · rw [process_of_ne recompute dependents h, mem_enqueue]
    simp [h]

end Step

/-- A worklist over `n` labels: a set of them for each, and a queue of labels
without repetition. -/
structure Proper (n : Nat) (w : Worklist) : Prop where
  /-- There is a set for each label. -/
  length_table : w.table.length = n
  /-- Each set is one of labels. -/
  capacity_at : ∀ id < n, (w.table.at id).capacity = n
  /-- No id waits twice. -/
  nodup_queue : w.queue.Nodup
  /-- Only labels wait. -/
  queue_lt : ∀ id ∈ w.queue, id < n

/-- The equations of the ids that `p` selects hold unless they are queued. -/
def Settled (recompute : SetTable → Nat → LabelSet) (p : Nat → Prop) (w : Worklist) : Prop :=
  ∀ id, p id → id ∉ w.queue → recompute w.table id = w.table.at id

/-- A weight of the sets, and the length of the queue where the weight stays. -/
def potential (weight : LabelSet → Nat) (n : Nat) (w : Worklist) : Nat :=
  (∑ id ∈ Finset.range n, weight (w.table.at id)) * (n + 1) + w.queue.length

section Step

variable {recompute : SetTable → Nat → LabelSet} {dependents : Nat → List Nat} {n : Nat}
  {w : Worklist} {id : Nat}

/-- A turn computes the entry of its label and leaves the others. -/
theorem Proper.at_process (hw : w.Proper n) (hid : id < n) (a : Nat) :
    (w.process recompute dependents id).table.at a =
      if a = id then recompute w.table id else w.table.at a := by
  rw [table_process, SetTable.at_set (hw.length_table.symm ▸ hid)]

/-- **A step keeps the shape of a worklist.** -/
theorem Proper.process (hw : w.Proper n) (hid : id < n)
    (hcap : (recompute w.table id).capacity = n) (hdep : ∀ a ∈ dependents id, a < n) :
    (w.process recompute dependents id).Proper n where
  length_table := by rw [table_process, List.length_set, hw.length_table]
  capacity_at a ha := by
    rw [hw.at_process hid]
    split
    · exact hcap
    · exact hw.capacity_at a ha
  nodup_queue := by
    have h := hw.nodup_queue.erase id
    by_cases hchange : recompute w.table id = w.table.at id
    · rw [process_of_eq recompute dependents hchange]
      exact h
    · rw [process_of_ne recompute dependents hchange]
      exact nodup_enqueue h _
  queue_lt a ha := by
    rcases (mem_queue_process recompute dependents).mp ha with ha | ⟨_, ha⟩
    · exact hw.queue_lt a (List.mem_of_mem_erase ha)
    · exact hdep a ha

/-- **A step keeps the equations that are not queued.**  An equation can fail
only if it reads the set that changed, and then it is queued. -/
theorem Settled.process {p : Nat → Prop} (hs : Settled recompute p w) (hw : w.Proper n)
    (hid : id < n)
    (hread : ∀ a, p a → a ∉ dependents id →
      recompute (w.table.set id (recompute w.table id)) a = recompute w.table a) :
    Settled recompute p (w.process recompute dependents id) := by
  intro a ha hq
  have hq' := mt (mem_queue_process recompute dependents).mpr hq
  rw [not_or] at hq'
  rw [hw.at_process hid, table_process]
  by_cases hchange : recompute w.table id = w.table.at id
  · rw [hchange, SetTable.set_at]
    split
    next he => rw [he, hchange]
    next he => exact hs a ha fun hm => hq'.1 ((List.mem_erase_of_ne he).mpr hm)
  · rw [hread a ha fun hd => hq'.2 ⟨hchange, hd⟩]
    split
    next he => rw [he]
    next he => exact hs a ha fun hm => hq'.1 ((List.mem_erase_of_ne he).mpr hm)

/-- No more labels wait than there are. -/
theorem Proper.length_queue_le (hw : w.Proper n) : w.queue.length ≤ n := by
  have h : w.queue.Subperm (List.range n) :=
    hw.nodup_queue.subperm fun a ha => List.mem_range.mpr (hw.queue_lt a ha)
  exact h.length_le.trans_eq List.length_range

/-- **A step lowers the potential**, provided that a change lowers the weight. -/
theorem Proper.potential_process_lt {weight : LabelSet → Nat} (hw : w.Proper n)
    (hw' : (w.process recompute dependents id).Proper n) (hid : id ∈ w.queue)
    (hweight : recompute w.table id ≠ w.table.at id →
      weight (recompute w.table id) < weight (w.table.at id)) :
    potential weight n (w.process recompute dependents id) < potential weight n w := by
  have hlt := hw.queue_lt id hid
  by_cases hchange : recompute w.table id = w.table.at id
  · have hpos : 0 < w.queue.length := List.length_pos_of_mem hid
    rw [process_of_eq recompute dependents hchange]
    simp only [potential, List.length_erase_of_mem hid]
    omega
  · have hsum : ∑ a ∈ Finset.range n, weight ((w.process recompute dependents id).table.at a) <
        ∑ a ∈ Finset.range n, weight (w.table.at a) := by
      refine Finset.sum_lt_sum (fun a _ => ?_) ⟨id, Finset.mem_range.mpr hlt, ?_⟩
      · rw [hw.at_process hlt]
        split
        next he => exact he ▸ (hweight hchange).le
        next => exact le_rfl
      · rw [hw.at_process hlt, if_pos rfl]
        exact hweight hchange
    have hmul := Nat.mul_le_mul_right (n + 1) (Nat.succ_le_of_lt hsum)
    rw [Nat.succ_mul] at hmul
    have := hw'.length_queue_le
    simp only [potential]
    omega

/-- The work left is bounded by the number of turns allowed. -/
theorem potential_le_stepBound {weight : LabelSet → Nat} (hw : w.Proper n)
    (hweight : ∀ id < n, weight (w.table.at id) ≤ n) : potential weight n w ≤ stepBound n := by
  have hsum : ∑ id ∈ Finset.range n, weight (w.table.at id) ≤ n * n := by
    have h := Finset.sum_le_card_nsmul (Finset.range n) _ n fun a ha =>
      hweight a (Finset.mem_range.mp ha)
    rwa [Finset.card_range] at h
  calc potential weight n w
      ≤ n * n * (n + 1) + n := Nat.add_le_add (Nat.mul_le_mul_right _ hsum) hw.length_queue_le
    _ ≤ (n + 1) * (n + 1) * (n + 1) := by
      have : (n + 1) * (n + 1) * (n + 1) = n * n * (n + 1) + n + (2 * n * n + 2 * n + 1) := by ring
      omega

end Step

/-- **An invariant of every step holds of the drained worklist, whose queue is
empty** if the fuel covers a quantity that every step lowers. -/
theorem drain_spec {recompute : SetTable → Nat → LabelSet} {dependents : Nat → List Nat}
    {inv : Worklist → Prop} {measure : Worklist → Nat}
    (hstep : ∀ w id, inv w → id ∈ w.queue → inv (w.process recompute dependents id) ∧
      measure (w.process recompute dependents id) < measure w)
    {fuel : Nat} {w : Worklist} (hw : inv w) (hfuel : measure w ≤ fuel) :
    inv (drain recompute dependents fuel w) ∧ (drain recompute dependents fuel w).queue = [] := by
  induction fuel generalizing w with
  | zero =>
    refine ⟨hw, List.eq_nil_iff_forall_not_mem.mpr fun id hid => ?_⟩
    have := (hstep w id hw hid).2
    omega
  | succ fuel ih =>
    rw [drain]
    split
    next h => exact ⟨hw, h⟩
    next id rest h =>
      obtain ⟨hinv, hlt⟩ := hstep w id hw (h ▸ List.mem_cons_self)
      exact ih hinv (by omega)

end Worklist
end StructuredFlow
