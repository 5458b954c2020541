/-
# Look-ups that can fail

The tables of an analysis are read with a default for positions without an entry.  Here they
are read by `entry`, which fails at such a position and says which it was.  A loop of look-ups
is what it is with defaults, as long as each finds its entry (`foldlM_eq_ok`); writing entries
anew fails at the first position that has none (`update_eq`).

A worklist run with such look-ups never fails if the ids that wait, and those that come to
wait, are positions in its table (`drain_eq`).  Whether an id waits is looked up in a table of
flags as well.
-/

import StructuredFlow.Proofs.Flow.Worklist

namespace StructuredFlow

/-- A position at which a list has no entry. -/
structure MissingEntry where
  /-- The length of the list. -/
  length : Nat
  /-- The position asked for. -/
  position : Nat
deriving DecidableEq, Repr

/-- A worklist whose table has `n` entries and whose queue holds positions in it. -/
structure Worklist.InRange (n : Nat) (w : Worklist) : Prop where
  /-- There are `n` sets. -/
  length_table : w.table.length = n
  /-- Only their positions wait. -/
  queue_lt : ∀ id ∈ w.queue, id < n

namespace Checked

variable {α β : Type}

/-- The entry at a position. -/
def entry (list : List α) (i : Nat) : Except MissingEntry α :=
  match list[i]? with
  | some a => .ok a
  | none => .error ⟨list.length, i⟩

/-- Writes entries anew, one position after the other. -/
def update (f : Nat → α → Except MissingEntry α) (ids : List Nat) (list : List α) :
    Except MissingEntry (List α) :=
  ids.foldlM (fun list id => do return list.set id (← f id (← entry list id))) list

/-- What succeeds goes on with its result. -/
theorem ok_bind (a : α) (f : α → Except MissingEntry β) : (.ok a >>= f) = f a := rfl

/-- An entry within the list is found. -/
theorem entry_eq_getD {list : List α} {i : Nat} (h : i < list.length) (default : α) :
    entry list i = .ok (list.getD i default) := by
  rw [entry, List.getElem?_eq_getElem h, List.getD_eq_getElem?_getD, List.getElem?_eq_getElem h]
  rfl

/-- An entry beyond the list is missing. -/
theorem entry_of_length_le {list : List α} {i : Nat} (h : list.length ≤ i) :
    entry list i = .error ⟨list.length, i⟩ := by
  rw [entry, List.getElem?_eq_none h]

/-- The edges out of a label of the table are found. -/
theorem entry_edges {edges : Edges} {id : Nat} (h : id < edges.length) :
    entry edges id = .ok (edges.at id) := entry_eq_getD h []

/-- The set of a label of the table is found. -/
theorem entry_table {table : SetTable} {id : Nat} (h : id < table.length) :
    entry table id = .ok (table.at id) := entry_eq_getD h (LabelSet.empty 0)

/-- A loop none of whose steps fails runs as the steps do. -/
theorem foldlM_eq_ok {f : β → α → Except MissingEntry β} {g : β → α → β} {list : List α}
    (hstep : ∀ a ∈ list, ∀ b, f b a = .ok (g b a)) (b : β) :
    list.foldlM f b = .ok (list.foldl g b) := by
  induction list generalizing b with
  | nil => rfl
  | cons a list ih =>
    rw [List.foldlM_cons, hstep a List.mem_cons_self, List.foldl_cons]
    exact ih (fun a ha => hstep a (List.mem_cons_of_mem _ ha)) (g b a)

/-! ### Entries written anew -/

section Update

variable {f : Nat → α → Except MissingEntry α} {g : Nat → α → α} {ids : List Nat} {list : List α}

/-- The entries as they are after all of them are written. -/
def updated (g : Nat → α → α) (ids : List Nat) (list : List α) : List α :=
  list.mapIdx fun i a => if i ∈ ids then g i a else a

/-- An update keeps the length. -/
@[simp] theorem length_updated : (updated g ids list).length = list.length :=
  List.length_mapIdx

/-- An update changes the positions listed and no others. -/
theorem getElem?_updated (i : Nat) : (updated g ids list)[i]? =
    list[i]?.map fun a => if i ∈ ids then g i a else a := List.getElem?_mapIdx

/-- The first entry to be written is written before the others are. -/
theorem updated_cons {id : Nat} (hid : id ∉ ids) (hlt : id < list.length) :
    updated g ids (list.set id (g id list[id])) = updated g (id :: ids) list := by
  refine List.ext_getElem? fun i => ?_
  rw [getElem?_updated, getElem?_updated, List.getElem?_set]
  by_cases hi : id = i
  · subst hi
    simp [hid, hlt]
  · simp [hi, Ne.symm hi]

/-- **Writing entries fails at the first position that has none**, and at no other. -/
theorem update_eq (hids : ids.Nodup) (hf : ∀ id ∈ ids, ∀ a, f id a = .ok (g id a)) :
    update f ids list =
      match ids.find? fun id => decide (list.length ≤ id) with
      | some id => .error ⟨list.length, id⟩
      | none => .ok (updated g ids list) := by
  induction ids generalizing list with
  | nil =>
    refine congrArg Except.ok (List.ext_getElem? fun i => ?_)
    rw [getElem?_updated]
    simp
  | cons id ids ih =>
    obtain ⟨hid, hids⟩ := List.nodup_cons.mp hids
    rw [update, List.foldlM_cons]
    by_cases hlt : id < list.length
    · have hfirst : entry list id = .ok list[id] := by rw [entry, List.getElem?_eq_getElem hlt]
      have hrest := @ih (list.set id (g id list[id])) hids
        fun id hid => hf id (List.mem_cons_of_mem _ hid)
      rw [List.length_set, updated_cons hid hlt] at hrest
      rw [hfirst, ok_bind, hf id List.mem_cons_self, ok_bind,
        List.find?_cons_of_neg (by simpa using hlt)]
      exact hrest
    · rw [entry_of_length_le (Nat.not_lt.mp hlt),
        List.find?_cons_of_pos (by simpa using hlt)]
      rfl

/-- Writing entries at positions that have one. -/
theorem update_eq_ok (hids : ids.Nodup) (hlt : ∀ id ∈ ids, id < list.length)
    (hf : ∀ id ∈ ids, ∀ a, f id a = .ok (g id a)) :
    update f ids list = .ok (updated g ids list) := by
  rw [update_eq hids hf, List.find?_eq_none.mpr fun id hid => by simpa using hlt id hid]

end Update

/-! ### Worklists -/

/-- Whether each of `n` ids waits. -/
def waiting (n : Nat) (queue : List Nat) : List Bool := (List.range n).map queue.contains

/-- Appends the ids that do not wait. -/
def enqueue (n : Nat) (queue ids : List Nat) : Except MissingEntry (List Nat) :=
  ids.foldlM (fun queue id => do
    return if ← entry (waiting n queue) id then queue else queue ++ [id]) queue

/-- Recomputes the set of one id and queues its dependents if it changed. -/
def process (recompute : SetTable → Nat → Except MissingEntry LabelSet)
    (dependents : Nat → Except MissingEntry (List Nat)) (w : Worklist) (id : Nat) :
    Except MissingEntry Worklist := do
  let queue := w.queue.erase id
  let value ← recompute w.table id
  if value = (← entry w.table id) then return { w with queue }
  else return ⟨w.table.set id value, ← enqueue w.table.length queue (← dependents id)⟩

/-- Processes the queue from its front, at most `fuel` times. -/
def drain (recompute : SetTable → Nat → Except MissingEntry LabelSet)
    (dependents : Nat → Except MissingEntry (List Nat)) :
    Nat → Worklist → Except MissingEntry Worklist
  | 0, w => pure w
  | fuel + 1, w =>
    match w.queue with
    | [] => pure w
    | id :: _ => do drain recompute dependents fuel (← process recompute dependents w id)

/-- The checked queue takes on the same labels, if all are within the table. -/
theorem enqueue_eq {n : Nat} {ids : List Nat} (hids : ∀ id ∈ ids, id < n) (queue : List Nat) :
    enqueue n queue ids = .ok (Worklist.enqueue queue ids) := by
  refine foldlM_eq_ok (fun id hid queue => ?_) queue
  have hwaits : entry (waiting n queue) id = .ok (queue.contains id) := by
    rw [entry, waiting, List.getElem?_map, List.getElem?_range (hids id hid)]
    rfl
  rw [hwaits]
  rfl

section Drain

variable {recompute : SetTable → Nat → LabelSet} {dependents : Nat → List Nat}
  {checked : SetTable → Nat → Except MissingEntry LabelSet}
  {checkedDependents : Nat → Except MissingEntry (List Nat)} {n : Nat}

/-- Look-ups of a step that find their entries, and dependents that have one. -/
structure Finds (recompute : SetTable → Nat → LabelSet) (dependents : Nat → List Nat)
    (checked : SetTable → Nat → Except MissingEntry LabelSet)
    (checkedDependents : Nat → Except MissingEntry (List Nat)) (n : Nat) : Prop where
  /-- No look-up for a new set fails. -/
  recompute_eq : ∀ table : SetTable, table.length = n → ∀ id < n,
    checked table id = .ok (recompute table id)
  /-- Nor does one for the dependents. -/
  dependents_eq : ∀ id < n, checkedDependents id = .ok (dependents id)
  /-- The dependents are positions in the table. -/
  dependents_lt : ∀ id < n, ∀ a ∈ dependents id, a < n

/-- **The checked turn of a worklist is the turn**, if what it looks up is there. -/
theorem process_eq (h : Finds recompute dependents checked checkedDependents n) {w : Worklist}
    (hw : w.InRange n) {id : Nat} (hid : id < n) :
    process checked checkedDependents w id = .ok (w.process recompute dependents id) := by
  have hlt : id < w.table.length := hw.length_table.symm ▸ hid
  rw [process, h.recompute_eq w.table hw.length_table id hid, ok_bind, entry_table hlt, ok_bind,
    Worklist.process]
  split
  · rfl
  · rw [h.dependents_eq id hid, ok_bind,
      enqueue_eq (hw.length_table.symm ▸ h.dependents_lt id hid)]
    rfl

/-- A step keeps to the table. -/
theorem inRange_process (h : Finds recompute dependents checked checkedDependents n) {w : Worklist}
    (hw : w.InRange n) {id : Nat} (hid : id < n) :
    (w.process recompute dependents id).InRange n := by
  constructor
  · rw [Worklist.table_process, List.length_set, hw.length_table]
  · intro a ha
    rcases (Worklist.mem_queue_process recompute dependents).mp ha with ha | ⟨-, ha⟩
    · exact hw.queue_lt a (List.mem_of_mem_erase ha)
    · exact h.dependents_lt id hid a ha

/-- **No look-up of a worklist fails** if its queue starts within the table and steps find
what they look up. -/
theorem drain_eq (h : Finds recompute dependents checked checkedDependents n) {w : Worklist}
    (hw : w.InRange n) (fuel : Nat) :
    drain checked checkedDependents fuel w = .ok (w.drain recompute dependents fuel) ∧
      (w.drain recompute dependents fuel).InRange n := by
  induction fuel generalizing w with
  | zero => exact ⟨rfl, hw⟩
  | succ fuel ih =>
    cases hqueue : w.queue with
    | nil =>
      simp only [drain, Worklist.drain, hqueue]
      exact ⟨rfl, hw⟩
    | cons id rest =>
      have hid : id < n := hw.queue_lt id (hqueue ▸ List.mem_cons_self)
      simp only [drain, Worklist.drain, hqueue]
      rw [process_eq h hw hid, ok_bind]
      exact ih (inRange_process h hw hid)

end Drain
end Checked
end StructuredFlow
