/-
# The closure of an edge table is reachability

`Flow.closure` repairs a table that starts with the direct neighbours of each
label.  While it works, a set holds only labels that a walk of one edge or more
leads to, it holds all direct neighbours, and it holds what its neighbours' sets
hold unless its label is queued.  Each change makes a set larger, so the room
left in the table is the potential.  At the empty queue the sets are closed
under taking an edge first, which gives every walk (`mem_closure`).
-/

import StructuredFlow.Flow.Analysis
import StructuredFlow.Proofs.Flow.Worklist
import Mathlib.Logic.Relation

namespace StructuredFlow

open Relation

/-- An edge of a table. -/
def Edges.Step (edges : Edges) (a b : Nat) : Prop := b ∈ edges.at a

/-- Only labels of the table have edges. -/
theorem Edges.lt_length_of_mem {edges : Edges} {a b : Nat} (h : b ∈ edges.at a) :
    a < edges.length := by
  by_contra hn
  rw [Edges.at, List.getD_eq_getElem?_getD, List.getElem?_eq_none (Nat.not_lt.mp hn)] at h
  exact absurd h List.not_mem_nil

/-- Two tables hold the same edges between labels, each seen from its own end. -/
structure Edges.Inverse (direct reverse : Edges) : Prop where
  /-- Edges lead to labels. -/
  target_lt : ∀ a, ∀ b ∈ direct.at a, b < direct.length
  /-- The one table lists the starts of the edges of the other. -/
  mem_reverse : ∀ a b, a ∈ reverse.at b ↔ b ∈ direct.at a

/-- A queue holds every label that an edge starts at, and no label twice. -/
structure Edges.Queues (direct : Edges) (queue : List Nat) : Prop where
  /-- No label waits twice. -/
  nodup : queue.Nodup
  /-- Only labels wait. -/
  lt_length : ∀ a ∈ queue, a < direct.length
  /-- Every start of an edge waits. -/
  mem_of_step : ∀ a b, direct.Step a b → a ∈ queue

/-- The order of a queue does not matter to what it holds. -/
theorem Edges.Queues.reverse {direct : Edges} {queue : List Nat} (h : direct.Queues queue) :
    direct.Queues queue.reverse where
  nodup := List.nodup_reverse.mpr h.nodup
  lt_length a ha := h.lt_length a (List.mem_reverse.mp ha)
  mem_of_step a b hab := List.mem_reverse.mpr (h.mem_of_step a b hab)

namespace Flow

/-! ### One recomputation -/

/-- A step keeps the capacity of the set. -/
theorem capacity_closureStep (direct : Edges) (table : SetTable) (id : Nat) :
    (closureStep direct table id).capacity = (table.at id).capacity := by
  unfold closureStep
  generalize table.at id = acc
  induction direct.at id generalizing acc with
  | nil => rfl
  | cons next rest ih =>
    rw [List.foldl_cons, ih]
    split <;> rfl

/-- **What a step puts into a set**: its members, and those of the sets that an edge leads to. -/
theorem mem_closureStep {direct : Edges} {table : SetTable} {id x : Nat} :
    x ∈ closureStep direct table id ↔ x ∈ table.at id ∨
      x < (table.at id).capacity ∧ ∃ next ∈ direct.at id, next ≠ id ∧ x ∈ table.at next := by
  unfold closureStep
  generalize table.at id = acc
  induction direct.at id generalizing acc with
  | nil => simp
  | cons next rest ih =>
    rw [List.foldl_cons, ih]
    by_cases hnext : next = id
    · simp [hnext]
    · rw [if_neg hnext, LabelSet.mem_union, LabelSet.capacity_union]
      simp only [List.exists_mem_cons_iff, hnext, ne_eq, not_false_eq_true, true_and]
      constructor
      · rintro (⟨hc, hx | hx⟩ | ⟨hc, hx⟩)
        · exact Or.inl hx
        · exact Or.inr ⟨hc, Or.inl hx⟩
        · exact Or.inr ⟨hc, Or.inr hx⟩
      · rintro (hx | ⟨hc, hx | hx⟩)
        · exact Or.inl ⟨LabelSet.lt_capacity_of_mem hx, Or.inl hx⟩
        · exact Or.inl ⟨hc, Or.inr hx⟩
        · exact Or.inr ⟨hc, hx⟩

/-- A step loses no member. -/
theorem subset_closureStep {direct : Edges} {table : SetTable} {id x : Nat}
    (h : x ∈ table.at id) : x ∈ closureStep direct table id := mem_closureStep.mpr (Or.inl h)

/-- A recomputation only reads the sets of the neighbours and, adding to it, the
set of the label itself. -/
theorem closureStep_set_of_notMem {direct reverse : Edges} (h : Edges.Inverse direct reverse)
    {table : SetTable} {id a : Nat} (hid : id < table.length) (ha : a ∉ reverse.at id) :
    closureStep direct (table.set id (closureStep direct table id)) a =
      closureStep direct table a := by
  have hne : ∀ next ∈ direct.at a, next ≠ id := by
    rintro next hn rfl
    exact ha ((h.mem_reverse a next).mpr hn)
  refine LabelSet.ext_mem ?_ fun x => ?_
  · rw [capacity_closureStep, capacity_closureStep, SetTable.at_set hid]
    split
    next he => rw [he, capacity_closureStep]
    next => rfl
  · have hnext : ∀ next ∈ direct.at a,
        SetTable.at (table.set id (closureStep direct table id)) next = table.at next :=
      fun next hn => by rw [SetTable.at_set hid, if_neg (hne next hn)]
    have hread : (∃ next ∈ direct.at a, next ≠ a ∧
          x ∈ SetTable.at (table.set id (closureStep direct table id)) next) ↔
        ∃ next ∈ direct.at a, next ≠ a ∧ x ∈ table.at next :=
      ⟨fun ⟨next, hn, hna, hx⟩ => ⟨next, hn, hna, hnext next hn ▸ hx⟩,
        fun ⟨next, hn, hna, hx⟩ => ⟨next, hn, hna, (hnext next hn).symm ▸ hx⟩⟩
    rw [mem_closureStep, mem_closureStep, hread, SetTable.at_set hid]
    by_cases he : a = id
    · subst he
      rw [if_pos rfl, capacity_closureStep, mem_closureStep]
      constructor
      · rintro (hx | hx)
        · exact hx
        · exact Or.inr hx
      · exact Or.inl
    · rw [if_neg he]

/-! ### The invariant of the repair -/

/-- The table lies between the direct neighbours and reachability, and its
equations hold but for the labels queued. -/
structure ClosureInvariant (direct : Edges) (w : Worklist) : Prop where
  /-- The worklist is one over the labels. -/
  proper : w.Proper direct.length
  /-- What is not queued is up to date. -/
  settled : w.Settled (closureStep direct) (· < direct.length)
  /-- Neighbours are recorded. -/
  direct_mem : ∀ a b, direct.Step a b → b ∈ w.table.at a
  /-- Only what a walk leads to is recorded. -/
  sound : ∀ a b, b ∈ w.table.at a → TransGen direct.Step a b

/-- A closure starts from the edges themselves. -/
theorem at_closureStart {queue : List Nat} {direct : Edges} {a : Nat} (ha : a < direct.length) :
    (closureStart queue direct).table.at a = LabelSet.ofIds direct.length (direct.at a) := by
  simp [closureStart, SetTable.at, Edges.at, List.getD_eq_getElem?_getD, ha]

/-- Outside the table there is nothing to start from. -/
theorem at_closureStart_of_le {queue : List Nat} {direct : Edges} {a : Nat}
    (ha : direct.length ≤ a) : (closureStart queue direct).table.at a = LabelSet.empty 0 := by
  simp [closureStart, SetTable.at, List.getD_eq_getElem?_getD, ha]

/-- The invariant of a closure holds at its start. -/
theorem closureInvariant_start {queue : List Nat} {direct reverse : Edges}
    (h : Edges.Inverse direct reverse) (hq : direct.Queues queue) :
    ClosureInvariant direct (closureStart queue direct) where
  proper :=
    { length_table := by simp [closureStart]
      capacity_at := fun id hid => by rw [at_closureStart hid, LabelSet.capacity_ofIds]
      nodup_queue := hq.nodup
      queue_lt := hq.lt_length }
  settled := by
    intro id _ hid
    -- an unqueued label has no edges, so nothing is added to its set
    have hnone : ∀ b, b ∉ direct.at id := fun b hb => hid (hq.mem_of_step id b hb)
    rw [closureStep, List.eq_nil_iff_forall_not_mem.mpr hnone, List.foldl_nil]
  direct_mem a b hb := by
    rw [at_closureStart (Edges.lt_length_of_mem hb), LabelSet.mem_ofIds]
    exact ⟨hb, h.target_lt a b hb⟩
  sound a b hb := by
    by_cases ha : a < direct.length
    · rw [at_closureStart ha, LabelSet.mem_ofIds] at hb
      exact TransGen.single hb.1
    · rw [at_closureStart_of_le (Nat.not_lt.mp ha)] at hb
      exact absurd hb LabelSet.not_mem_empty

/-- What a step adds can be reached, if what was there could. -/
theorem sound_closureStep {direct : Edges} {table : SetTable}
    (h : ∀ a b, b ∈ table.at a → TransGen direct.Step a b) {id x : Nat}
    (hx : x ∈ closureStep direct table id) : TransGen direct.Step id x := by
  rcases mem_closureStep.mp hx with hx | ⟨_, next, hn, _, hx⟩
  · exact h id x hx
  · exact TransGen.head hn (h next x hx)

/-- **A turn of the closure keeps its invariant.** -/
theorem ClosureInvariant.process {direct reverse : Edges} (h : Edges.Inverse direct reverse)
    {w : Worklist} (hw : ClosureInvariant direct w) {id : Nat} (hid : id < direct.length) :
    ClosureInvariant direct (w.process (closureStep direct) reverse.at id) where
  proper := by
    refine hw.proper.process hid ?_ fun a ha => Edges.lt_length_of_mem ((h.mem_reverse a id).mp ha)
    rw [capacity_closureStep, hw.proper.capacity_at id hid]
  settled := hw.settled.process hw.proper hid fun a _ ha =>
    closureStep_set_of_notMem h (hw.proper.length_table.symm ▸ hid) ha
  direct_mem a b hb := by
    rw [hw.proper.at_process hid]
    split
    next he =>
      subst he
      exact subset_closureStep (hw.direct_mem a b hb)
    next => exact hw.direct_mem a b hb
  sound a b hb := by
    rw [hw.proper.at_process hid] at hb
    split at hb
    next he =>
      subst he
      exact sound_closureStep hw.sound hb
    next => exact hw.sound a b hb

/-- The room that the closure of a label leaves. -/
def closureRoom (n : Nat) (s : LabelSet) : Nat := n - s.toFinset.card

/-- A change of a set adds to it. -/
theorem ssubset_closureStep {direct : Edges} {table : SetTable} {id : Nat}
    (hchange : closureStep direct table id ≠ table.at id) :
    (table.at id).toFinset ⊂ (closureStep direct table id).toFinset :=
  LabelSet.toFinset_ssubset (capacity_closureStep direct table id).symm
    (fun _ => subset_closureStep) hchange.symm

/-- A step that changes a set leaves less room in it. -/
theorem closureRoom_closureStep_lt {direct : Edges} {table : SetTable} {id n : Nat}
    (hcap : (table.at id).capacity = n)
    (hchange : closureStep direct table id ≠ table.at id) :
    closureRoom n (closureStep direct table id) < closureRoom n (table.at id) := by
  have hlt := Finset.card_lt_card (ssubset_closureStep hchange)
  have hle := LabelSet.card_le_capacity (closureStep direct table id)
  rw [capacity_closureStep, hcap] at hle
  unfold closureRoom
  omega

/-- **A step keeps the invariant and takes something away**, room in a set or an id of the
queue. -/
theorem ClosureInvariant.process_lt {direct reverse : Edges} (h : Edges.Inverse direct reverse)
    {w : Worklist} (hw : ClosureInvariant direct w) {id : Nat} (hid : id ∈ w.queue) :
    ClosureInvariant direct (w.process (closureStep direct) reverse.at id) ∧
      Worklist.potential (closureRoom direct.length) direct.length
          (w.process (closureStep direct) reverse.at id) <
        Worklist.potential (closureRoom direct.length) direct.length w := by
  have hlt := hw.proper.queue_lt id hid
  have hw' := hw.process h hlt
  exact ⟨hw', hw.proper.potential_process_lt hw'.proper hid
    (closureRoom_closureStep_lt (hw.proper.capacity_at id hlt))⟩

/-- The work that a closure starts with is bounded. -/
theorem potential_closureStart_le {queue : List Nat} {direct reverse : Edges}
    (h : Edges.Inverse direct reverse) (hq : direct.Queues queue) :
    Worklist.potential (closureRoom direct.length) direct.length (closureStart queue direct) ≤
      Worklist.stepBound direct.length :=
  Worklist.potential_le_stepBound (closureInvariant_start h hq).proper fun _ _ => Nat.sub_le _ _

/-- **At an empty queue a set holds what walks of one edge or more lead to.** -/
theorem ClosureInvariant.mem_iff {direct reverse : Edges} (h : Edges.Inverse direct reverse)
    {w : Worklist} (hw : ClosureInvariant direct w) (hdone : w.queue = []) {a b : Nat} :
    b ∈ w.table.at a ↔ TransGen direct.Step a b := by
  refine ⟨hw.sound a b, fun hab => ?_⟩
  induction hab using TransGen.head_induction_on with
  | single hstep => exact hw.direct_mem _ _ hstep
  | @head a c hstep hcb ih =>
    by_cases hc : c = a
    · exact hc ▸ ih
    · have hlt := Edges.lt_length_of_mem hstep
      have heq := hw.settled a hlt (hdone ▸ List.not_mem_nil)
      rw [← heq, mem_closureStep]
      refine Or.inr ⟨?_, c, hstep, hc, ih⟩
      rw [hw.proper.capacity_at a hlt, ← hw.proper.capacity_at c (h.target_lt a c hstep)]
      exact LabelSet.lt_capacity_of_mem ih

/-- **The closure of a label holds what walks of one edge or more lead to.** -/
theorem mem_closure {queue : List Nat} {direct reverse : Edges}
    (h : Edges.Inverse direct reverse) (hq : direct.Queues queue) {a b : Nat} :
    b ∈ (closure queue direct reverse).at a ↔ TransGen direct.Step a b := by
  obtain ⟨hinv, hdone⟩ := Worklist.drain_spec (fun w id hw hid => hw.process_lt h hid)
    (closureInvariant_start h hq) (potential_closureStart_le h hq)
  exact hinv.mem_iff h hdone

end Flow
end StructuredFlow
