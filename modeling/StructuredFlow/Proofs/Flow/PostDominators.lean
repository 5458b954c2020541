/-
# The post-dominator table

`Flow.postDominators` starts from a table that is too large and replaces a set
by what its equation makes of it.  That every replacement shrinks a set is no
matter of form; it follows from an invariant: the recomputed set of a label that
can end, but does not end paths, lies within its set.  The recomputation only
grows when the table does, so a smaller table keeps this.  The number of members
is then the potential, and at the empty queue every equation holds.

A label on every walk to an end is in particular on one of them, so the members
of the drained sets can be reached (`reach_of_mem_postDominators`).
-/

import StructuredFlow.Proofs.Flow.Closure

namespace StructuredFlow
namespace Flow

open Relation

/-- What the post-dominators of a region are computed from: its edges, the labels
that end paths and the labels that can end. -/
structure Ending (out into : Edges) (exits ends : LabelSet) : Prop where
  /-- Edges are seen from both ends. -/
  inverse : Edges.Inverse out into
  /-- The labels that can end are labels. -/
  capacity_exits : exits.capacity = out.length
  /-- A label can end if a walk leads from it to one that ends paths. -/
  mem_exits : ∀ a, a ∈ exits ↔ ∃ e ∈ ends, ReflTransGen out.Step a e

namespace Ending

variable {out into : Edges} {exits ends : LabelSet}

/-- An end is an exit. -/
theorem mem_of_mem_ends (h : Ending out into exits ends) {e : Nat} (he : e ∈ ends) : e ∈ exits :=
  (h.mem_exits e).mpr ⟨e, he, ReflTransGen.refl⟩

/-- An exit is a label of the table. -/
theorem lt_of_mem (h : Ending out into exits ends) {a : Nat} (ha : a ∈ exits) : a < out.length :=
  h.capacity_exits ▸ LabelSet.lt_capacity_of_mem ha

/-- A label that can end and does not end paths has a successor that can end. -/
theorem exists_step (h : Ending out into exits ends) {a : Nat} (ha : a ∈ exits) (hn : a ∉ ends) :
    ∃ b ∈ exits, out.Step a b := by
  obtain ⟨e, he, hw⟩ := (h.mem_exits a).mp ha
  rcases hw.cases_head with rfl | ⟨b, hab, hbe⟩
  · exact absurd he hn
  · exact ⟨b, (h.mem_exits b).mpr ⟨e, he, hbe⟩, hab⟩

end Ending

/-- The members that can end are those that reach a label that ends paths. -/
theorem ending_exits {out into : Edges} {members queue : List Nat} {ends : LabelSet}
    (h : Edges.Inverse out into) (hq : out.Queues queue) (hmem : ∀ a ∈ queue, a ∈ members)
    (hends : ∀ e ∈ ends, e ∈ members ∧ e < out.length) :
    Ending out into (exits members out.length ends (closure queue out into)) ends where
  inverse := h
  capacity_exits := by rw [exits, LabelSet.capacity_ofIds]
  mem_exits a := by
    rw [exits, LabelSet.mem_ofIds, List.mem_filter, Bool.or_eq_true, LabelSet.contains_iff_mem,
      Bool.not_eq_true', ← Bool.not_eq_true, LabelSet.disjoint_iff]
    push Not
    constructor
    · rintro ⟨⟨_, he | ⟨b, hb, he⟩⟩, _⟩
      · exact ⟨a, he, ReflTransGen.refl⟩
      · exact ⟨b, he, ((mem_closure h hq).mp hb).to_reflTransGen⟩
    · rintro ⟨e, he, hw⟩
      rcases reflTransGen_iff_eq_or_transGen.mp hw with rfl | hw
      · exact ⟨⟨(hends e he).1, Or.inl he⟩, (hends e he).2⟩
      · obtain ⟨b, hab, _⟩ := TransGen.head'_iff.mp hw
        exact ⟨⟨hmem a (hq.mem_of_step a b hab), Or.inr ⟨e, (mem_closure h hq).mpr hw, he⟩⟩,
          Edges.lt_length_of_mem hab⟩

/-! ### One recomputation -/

/-- An intersection holds what all of its sets do. -/
theorem mem_foldl_inter {ids : List Nat} {table : SetTable} {acc : LabelSet} {x : Nat} :
    x ∈ ids.foldl (fun acc s => acc.inter (table.at s)) acc ↔
      x ∈ acc ∧ ∀ s ∈ ids, x ∈ table.at s := by
  induction ids generalizing acc with
  | nil => simp
  | cons id ids ih => rw [List.foldl_cons, ih, LabelSet.mem_inter, List.forall_mem_cons, and_assoc]

/-- An intersection keeps its capacity. -/
theorem capacity_foldl_inter (ids : List Nat) (table : SetTable) (acc : LabelSet) :
    (ids.foldl (fun acc s => acc.inter (table.at s)) acc).capacity = acc.capacity := by
  induction ids generalizing acc with
  | nil => rfl
  | cons id ids ih => rw [List.foldl_cons, ih, LabelSet.capacity_inter]

/-- The successors that can end. -/
def endingSuccessors (out : Edges) (exits : LabelSet) (id : Nat) : List Nat :=
  (out.at id).filter exits.contains

/-- The successors that count are those from which an end can be reached. -/
theorem mem_endingSuccessors {out : Edges} {exits : LabelSet} {id s : Nat} :
    s ∈ endingSuccessors out exits id ↔ out.Step id s ∧ s ∈ exits := List.mem_filter

/-- A step gives a set of the capacity of the table. -/
theorem capacity_postDominatorStep {out : Edges} {exits : LabelSet} {table : SetTable} {id : Nat}
    (hcap : ∀ s ∈ endingSuccessors out exits id, (table.at s).capacity = out.length) :
    (postDominatorStep out exits table id).capacity = out.length := by
  unfold postDominatorStep endingSuccessors at *
  cases h : (out.at id).filter exits.contains with
  | nil => rfl
  | cons next rest =>
    rw [LabelSet.capacity_insert, capacity_foldl_inter]
    exact hcap next (h ▸ List.mem_cons_self)

/-- What every successor that can end has in its set, and the label itself. -/
theorem mem_postDominatorStep {out : Edges} {exits : LabelSet} {table : SetTable} {id x : Nat}
    (hcap : ∀ s ∈ endingSuccessors out exits id, (table.at s).capacity = out.length)
    (hid : id < out.length) :
    x ∈ postDominatorStep out exits table id ↔
      x = id ∨ endingSuccessors out exits id ≠ [] ∧
        ∀ s ∈ endingSuccessors out exits id, x ∈ table.at s := by
  unfold postDominatorStep endingSuccessors at *
  cases h : (out.at id).filter exits.contains with
  | nil => simp [hid]
  | cons next rest =>
    have hcap' := hcap next (h ▸ List.mem_cons_self)
    rw [LabelSet.mem_insert, capacity_foldl_inter, mem_foldl_inter, hcap']
    simp only [hid, and_true, List.forall_mem_cons, ne_eq, reduceCtorEq, not_false_eq_true,
      true_and]
    exact Or.comm

/-- A step depends on the sets of the successors that count only. -/
theorem postDominatorStep_congr {out : Edges} {exits : LabelSet} {table table' : SetTable}
    {id : Nat} (h : ∀ s ∈ endingSuccessors out exits id, table.at s = table'.at s) :
    postDominatorStep out exits table id = postDominatorStep out exits table' id := by
  unfold postDominatorStep endingSuccessors at *
  cases hs : (out.at id).filter exits.contains with
  | nil => rfl
  | cons next rest =>
    rw [hs] at h
    have hfold : rest.foldl (fun acc s => acc.inter (table.at s)) (table.at next) =
        rest.foldl (fun acc s => acc.inter (table'.at s)) (table'.at next) := by
      rw [h next List.mem_cons_self]
      exact List.foldl_ext _ _ _ fun acc s hm => by rw [h s (List.mem_cons_of_mem _ hm)]
    exact congrArg (LabelSet.insert · id) hfold

/-! ### The invariant of the repair -/

/-- The table lies above its equations, the equations hold but for the labels
queued, and nothing but labels that can end is recorded. -/
structure PostDominatorInvariant (out : Edges) (exits ends : LabelSet) (w : Worklist) : Prop where
  /-- The worklist is one over the labels. -/
  proper : w.Proper out.length
  /-- Only labels that can end and do not end paths are looked at again. -/
  queue_mem : ∀ id ∈ w.queue, id ∈ exits ∧ id ∉ ends
  /-- What is not queued is up to date. -/
  settled : w.Settled (postDominatorStep out exits) fun id => id ∈ exits ∧ id ∉ ends
  /-- A recomputed set lies within the old one. -/
  step_subset : ∀ id, id ∈ exits → id ∉ ends →
    ∀ x ∈ postDominatorStep out exits w.table id, x ∈ w.table.at id
  /-- A label that ends paths has itself alone. -/
  at_ends : ∀ id, id ∈ ends → ∀ x, x ∈ w.table.at id ↔ x = id
  /-- A label that cannot end has none. -/
  at_outside : ∀ id, id ∉ exits → ∀ x, x ∉ w.table.at id

section Repair

variable {out into : Edges} {exits ends : LabelSet} {w : Worklist} {id : Nat}

/-- The sets that a step looks up have the capacity of the table. -/
theorem PostDominatorInvariant.capacity_at (hw : PostDominatorInvariant out exits ends w)
    (h : Ending out into exits ends) :
    ∀ a, ∀ s ∈ endingSuccessors out exits a, (w.table.at s).capacity = out.length :=
  fun _ s hs => hw.proper.capacity_at s (h.lt_of_mem (mem_endingSuccessors.mp hs).2)

/-- Where the post-dominators start: an end has itself, another exit all exits, any other label
nothing. -/
theorem at_postDominatorStart (hid : id < out.length) :
    (postDominatorStart out exits ends).table.at id =
      if id ∉ exits then .empty out.length
      else if id ∈ ends then (LabelSet.empty out.length).insert id
      else exits := by
  simp [postDominatorStart, SetTable.at, List.getD_eq_getElem?_getD, hid]

/-- Outside the table there is nothing to start from. -/
theorem at_postDominatorStart_of_le (hid : out.length ≤ id) :
    (postDominatorStart out exits ends).table.at id = .empty 0 := by
  simp [postDominatorStart, SetTable.at, List.getD_eq_getElem?_getD, hid]

/-- The start table: all labels that can end, for those that can and do not end
paths. -/
theorem mem_at_postDominatorStart (h : Ending out into exits ends) {x : Nat} :
    x ∈ (postDominatorStart out exits ends).table.at id ↔
      id ∈ exits ∧ if id ∈ ends then x = id else x ∈ exits := by
  by_cases hid : id < out.length
  · rw [at_postDominatorStart hid]
    by_cases he : id ∈ exits
    · rw [if_neg (not_not.mpr he)]
      by_cases hn : id ∈ ends
      · rw [if_pos hn, if_pos hn, LabelSet.mem_insert, LabelSet.capacity_empty]
        simp [he, hid]
      · rw [if_neg hn, if_neg hn]
        simp [he]
    · rw [if_pos he]
      simp [he]
  · rw [at_postDominatorStart_of_le (Nat.not_lt.mp hid)]
    have : id ∉ exits := fun he => hid (h.lt_of_mem he)
    simp [this]

/-- The invariant of the post-dominators holds at their start. -/
theorem postDominatorInvariant_start (h : Ending out into exits ends) :
    PostDominatorInvariant out exits ends (postDominatorStart out exits ends) := by
  have hqueue : ∀ a, a ∈ (postDominatorStart out exits ends).queue ↔ a ∈ exits ∧ a ∉ ends := by
    intro a
    simp [postDominatorStart]
  have hproper : (postDominatorStart out exits ends).Proper out.length :=
    { length_table := by simp [postDominatorStart]
      capacity_at := fun a ha => by
        rw [at_postDominatorStart ha]
        split
        · rfl
        · split
          · rfl
          · exact h.capacity_exits
      nodup_queue := List.nodup_reverse.mpr ((LabelSet.nodup_toList exits).filter _)
      queue_lt := fun a ha => h.lt_of_mem ((hqueue a).mp ha).1 }
  exact
    { proper := hproper
      queue_mem := fun a ha => (hqueue a).mp ha
      settled := fun a ha hq => absurd ((hqueue a).mpr ha) hq
      step_subset := fun a ha hn x hx => by
        rw [mem_at_postDominatorStart h, if_neg hn]
        refine ⟨ha, ?_⟩
        have hcap : ∀ s ∈ endingSuccessors out exits a,
            ((postDominatorStart out exits ends).table.at s).capacity = out.length :=
          fun s hs => hproper.capacity_at s (h.lt_of_mem (mem_endingSuccessors.mp hs).2)
        rcases (mem_postDominatorStep hcap (h.lt_of_mem ha)).mp hx with rfl | ⟨hne, hall⟩
        · exact ha
        · obtain ⟨s, hs⟩ := List.exists_mem_of_ne_nil _ hne
          obtain ⟨hse, hxs⟩ := (mem_at_postDominatorStart h).mp (hall s hs)
          split at hxs
          · exact hxs ▸ hse
          · exact hxs
      at_ends := fun a ha x => by
        rw [mem_at_postDominatorStart h, if_pos ha]
        exact and_iff_right (h.mem_of_mem_ends ha)
      at_outside := fun a ha x hx => ha ((mem_at_postDominatorStart h).mp hx).1 }

/-- The sets after a step, read through membership. -/
theorem PostDominatorInvariant.mem_at_process (hw : PostDominatorInvariant out exits ends w)
    (h : Ending out into exits ends) (hid : id ∈ exits) (hn : id ∉ ends) {a x : Nat}
    (hx : x ∈ (w.process (postDominatorStep out exits)
      (postDominatorDependents into exits ends) id).table.at a) : x ∈ w.table.at a := by
  rw [hw.proper.at_process (h.lt_of_mem hid)] at hx
  split at hx
  next he => exact he ▸ hw.step_subset id hid hn x (he ▸ hx)
  next => exact hx

/-- A table that shrinks has smaller recomputed sets. -/
theorem PostDominatorInvariant.step_process_subset (hw : PostDominatorInvariant out exits ends w)
    (h : Ending out into exits ends) (hid : id ∈ exits) (hn : id ∉ ends)
    (hw' : (w.process (postDominatorStep out exits)
      (postDominatorDependents into exits ends) id).Proper out.length) {a x : Nat}
    (ha : a ∈ exits)
    (hx : x ∈ postDominatorStep out exits (w.process (postDominatorStep out exits)
      (postDominatorDependents into exits ends) id).table a) :
    x ∈ postDominatorStep out exits w.table a := by
  have hlt := h.lt_of_mem ha
  have hcap' : ∀ s ∈ endingSuccessors out exits a,
      ((w.process (postDominatorStep out exits)
        (postDominatorDependents into exits ends) id).table.at s).capacity = out.length :=
    fun s hs => hw'.capacity_at s (h.lt_of_mem (mem_endingSuccessors.mp hs).2)
  rw [mem_postDominatorStep (hw.capacity_at h a) hlt]
  rcases (mem_postDominatorStep hcap' hlt).mp hx with rfl | ⟨hne, hall⟩
  · exact Or.inl rfl
  · exact Or.inr ⟨hne, fun s hs => hw.mem_at_process h hid hn (hall s hs)⟩

/-- **A turn of the post-dominators keeps their invariant.** -/
theorem PostDominatorInvariant.process (hw : PostDominatorInvariant out exits ends w)
    (h : Ending out into exits ends) (hid : id ∈ exits) (hn : id ∉ ends) :
    PostDominatorInvariant out exits ends (w.process (postDominatorStep out exits)
      (postDominatorDependents into exits ends) id) := by
  have hlt := h.lt_of_mem hid
  have hdep : ∀ a ∈ postDominatorDependents into exits ends id, a ∈ exits ∧ a ∉ ends := by
    intro a ha
    simpa using (List.mem_filter.mp ha).2
  have hproper : (w.process (postDominatorStep out exits)
      (postDominatorDependents into exits ends) id).Proper out.length :=
    hw.proper.process hlt (capacity_postDominatorStep (hw.capacity_at h id))
      fun a ha => h.lt_of_mem (hdep a ha).1
  exact
    { proper := hproper
      queue_mem := fun a ha => by
        rcases (Worklist.mem_queue_process _ _).mp ha with ha | ⟨_, ha⟩
        · exact hw.queue_mem a (List.mem_of_mem_erase ha)
        · exact hdep a ha
      settled := hw.settled.process hw.proper hlt fun a ha hnd => by
        refine postDominatorStep_congr fun s hs => ?_
        rw [SetTable.at_set (hw.proper.length_table.symm ▸ hlt), if_neg]
        rintro rfl
        refine hnd (List.mem_filter.mpr ⟨(h.inverse.mem_reverse a s).mpr
          (mem_endingSuccessors.mp hs).1, ?_⟩)
        simpa using ha
      step_subset := fun a ha hna x hx => by
        have hold := hw.step_process_subset h hid hn hproper ha hx
        rw [hw.proper.at_process hlt]
        split
        next he => exact he ▸ hold
        next => exact hw.step_subset a ha hna x hold
      at_ends := fun a ha x => by
        have hne : a ≠ id := fun he => hn (he ▸ ha)
        rw [hw.proper.at_process hlt, if_neg hne]
        exact hw.at_ends a ha x
      at_outside := fun a ha x hx =>
        hw.at_outside a ha x (hw.mem_at_process h hid hn hx) }

/-- A change of a set takes members away from it. -/
theorem PostDominatorInvariant.ssubset_step (hw : PostDominatorInvariant out exits ends w)
    (h : Ending out into exits ends) (hid : id ∈ exits) (hn : id ∉ ends)
    (hchange : postDominatorStep out exits w.table id ≠ w.table.at id) :
    (postDominatorStep out exits w.table id).toFinset ⊂ (w.table.at id).toFinset := by
  refine LabelSet.toFinset_ssubset ?_ (hw.step_subset id hid hn) hchange
  rw [capacity_postDominatorStep (hw.capacity_at h id),
    hw.proper.capacity_at id (h.lt_of_mem hid)]

/-- **A step keeps the invariant and takes something away**, a member of a set or an id of
the queue. -/
theorem PostDominatorInvariant.process_lt (hw : PostDominatorInvariant out exits ends w)
    (h : Ending out into exits ends) (hid : id ∈ w.queue) :
    PostDominatorInvariant out exits ends (w.process (postDominatorStep out exits)
        (postDominatorDependents into exits ends) id) ∧
      Worklist.potential (fun s => s.toFinset.card) out.length
          (w.process (postDominatorStep out exits) (postDominatorDependents into exits ends) id) <
        Worklist.potential (fun s => s.toFinset.card) out.length w := by
  obtain ⟨he, hn⟩ := hw.queue_mem id hid
  have hw' := hw.process h he hn
  exact ⟨hw', hw.proper.potential_process_lt hw'.proper hid fun hchange =>
    Finset.card_lt_card (hw.ssubset_step h he hn hchange)⟩

/-- The work that the post-dominators start with is bounded. -/
theorem potential_postDominatorStart_le (h : Ending out into exits ends) :
    Worklist.potential (fun s => s.toFinset.card) out.length (postDominatorStart out exits ends) ≤
      Worklist.stepBound out.length :=
  have hproper := (postDominatorInvariant_start h).proper
  Worklist.potential_le_stepBound hproper fun a ha =>
    (LabelSet.card_le_capacity _).trans (hproper.capacity_at a ha).le

/-- The drained table, every equation of which holds. -/
theorem postDominators_drained (h : Ending out into exits ends) :
    ∃ w : Worklist, PostDominatorInvariant out exits ends w ∧ w.queue = [] ∧
      postDominators out into exits ends = w.table := by
  obtain ⟨hinv, hempty⟩ := Worklist.drain_spec (fun w id hw hid => hw.process_lt h hid)
    (postDominatorInvariant_start h) (potential_postDominatorStart_le h)
  exact ⟨_, hinv, hempty, rfl⟩

/-! ### The drained table -/

/-- Each label has a set of post-dominators. -/
theorem length_postDominators (h : Ending out into exits ends) :
    (postDominators out into exits ends).length = out.length := by
  obtain ⟨w, hw, _, htable⟩ := postDominators_drained h
  rw [htable, hw.proper.length_table]

/-- **A post-dominator is the label itself or the post-dominator of each
successor that can end.** -/
theorem mem_postDominators (h : Ending out into exits ends) (hid : id ∈ exits) (hn : id ∉ ends)
    {x : Nat} : x ∈ (postDominators out into exits ends).at id ↔ x = id ∨
      ∀ s ∈ endingSuccessors out exits id, x ∈ (postDominators out into exits ends).at s := by
  obtain ⟨w, hw, hempty, htable⟩ := postDominators_drained h
  rw [htable, ← hw.settled id ⟨hid, hn⟩ (hempty ▸ List.not_mem_nil),
    mem_postDominatorStep (hw.capacity_at h id) (h.lt_of_mem hid)]
  obtain ⟨s, hs, hstep⟩ := h.exists_step hid hn
  have hne : endingSuccessors out exits id ≠ [] :=
    List.ne_nil_of_mem (mem_endingSuccessors.mpr ⟨hstep, hs⟩)
  exact or_congr_right (and_iff_right hne)

/-- An end must pass itself and nothing else. -/
theorem mem_postDominators_of_mem_ends (h : Ending out into exits ends) (hid : id ∈ ends)
    {x : Nat} : x ∈ (postDominators out into exits ends).at id ↔ x = id := by
  obtain ⟨w, hw, _, htable⟩ := postDominators_drained h
  rw [htable]
  exact hw.at_ends id hid x

/-- A label from which no end can be reached has no post-dominators. -/
theorem not_mem_postDominators (h : Ending out into exits ends) (hid : id ∉ exits) {x : Nat} :
    x ∉ (postDominators out into exits ends).at id := by
  obtain ⟨w, hw, _, htable⟩ := postDominators_drained h
  rw [htable]
  exact hw.at_outside id hid x

/-- **A walk leads to every post-dominator**, since a walk to an end passes it. -/
theorem reach_of_mem_postDominators (h : Ending out into exits ends) {x : Nat}
    (hx : x ∈ (postDominators out into exits ends).at id) : ReflTransGen out.Step id x := by
  have hid : id ∈ exits := by
    by_contra hn
    exact not_mem_postDominators h hn hx
  obtain ⟨e, he, hw⟩ := (h.mem_exits id).mp hid
  induction hw using ReflTransGen.head_induction_on with
  | refl => exact (mem_postDominators_of_mem_ends h he).mp hx ▸ ReflTransGen.refl
  | @head a b hab hbe ih =>
    by_cases ha : a ∈ ends
    · exact (mem_postDominators_of_mem_ends h ha).mp hx ▸ ReflTransGen.refl
    · have hb : b ∈ exits := (h.mem_exits b).mpr ⟨e, he, hbe⟩
      rcases (mem_postDominators h hid ha).mp hx with rfl | hall
      · exact ReflTransGen.refl
      · exact ReflTransGen.head hab (ih (hall b (mem_endingSuccessors.mpr ⟨hab, hb⟩)) hb)

/-! ### The labels that every path must get to -/

/-- From the set of an exit the exit itself is taken. -/
theorem at_mustGetToTable (h : Ending out into exits ends) (hid : id < out.length) :
    (mustGetToTable out into exits ends).at id =
      if id ∈ exits then ((postDominators out into exits ends).at id).erase id
      else (postDominators out into exits ends).at id := by
  have hlen : id < (postDominators out into exits ends).length :=
    (length_postDominators h).symm ▸ hid
  simp only [mustGetToTable, SetTable.at, List.getD_eq_getElem?_getD, List.getElem?_map,
    List.getElem?_zipIdx, List.getElem?_eq_getElem hlen, Option.map_some, Nat.zero_add,
    Option.getD_some, LabelSet.contains_iff_mem]

/-- The table has the post-dominators of a label apart from itself. -/
theorem mem_mustGetToTable (h : Ending out into exits ends) (hid : id < out.length) {x : Nat} :
    x ∈ (mustGetToTable out into exits ends).at id ↔
      x ∈ (postDominators out into exits ends).at id ∧ x ≠ id := by
  rw [at_mustGetToTable h hid]
  split
  next he => rw [LabelSet.mem_erase]
  next he =>
    have hnone : ∀ y, y ∉ (postDominators out into exits ends).at id :=
      fun _ => not_mem_postDominators h he
    exact ⟨fun hx => absurd hx (hnone x), fun hx => absurd hx.1 (hnone x)⟩

end Repair

end Flow
end StructuredFlow
