/-
# What the analysis of a set records

`Flow.analyze ts set` records for each member the edges between members
(`Transfers.JumpsWithin`) and the walks along them:

| field of the record of `a` | holds `b` exactly when |
| --- | --- |
| `outLabels` | `a` jumps to `b` within the set |
| `inLabels` | `b` jumps to `a` within the set |
| `allOut` | a walk of one edge or more leads from `a` to `b` |
| `allIn` | a walk of one edge or more leads from `b` to `a` |

Of `mustGetTo` it is shown here that it holds only other labels that a walk
leads to.  The set may have any capacity, as long as its members are labels.
-/

import StructuredFlow.Proofs.Flow.PostDominators
import StructuredFlow.Proofs.Transfers

namespace StructuredFlow
namespace Flow

open Relation Structuring

variable {ts : Transfers} {set : LabelSet}

/-! ### Edges -/

/-- The successors are the labels of the set among the targets. -/
theorem mem_successors {t : Option Transfer} {b : Nat} :
    b ∈ successors set t ↔
      b ∈ set ∧ Target.label b ∈ (t.map Transfer.targets).getD [] := by
  rw [successors, List.mem_eraseDups, List.mem_filter, LabelSet.contains_iff_mem, and_comm]
  refine and_congr_right fun _ => ?_
  cases t with
  | none => simp
  | some t => exact Transfers.mem_filterMap_label?

/-- The edges out of a label of the set are its successors, and other labels have none. -/
theorem at_outEdges (hset : ∀ id ∈ set, id < ts.length) (a : Nat) :
    (outEdges ts set).at a = if a ∈ set then successors set (ts.at? a) else [] := by
  unfold outEdges Edges.at Transfers.at?
  simp only [List.getD_eq_getElem?_getD, List.getElem?_map, List.getElem?_zipIdx, Nat.zero_add]
  by_cases ha : a < ts.length
  · simp [List.getElem?_eq_getElem ha]
  · have hn : a ∉ set := fun h => ha (hset a h)
    simp [List.getElem?_eq_none (Nat.not_lt.mp ha), hn]

/-- Each label of the table has a list of edges. -/
@[simp] theorem length_outEdges (ts : Transfers) (set : LabelSet) :
    (outEdges ts set).length = ts.length := by
  simp [outEdges]

/-- The edges of the table are the jumps within the set. -/
theorem step_outEdges (hset : ∀ id ∈ set, id < ts.length) :
    (outEdges ts set).Step = ts.JumpsWithin set := by
  funext a b
  rw [Edges.Step, at_outEdges hset, eq_iff_iff]
  by_cases ha : a ∈ set
  · rw [if_pos ha, mem_successors]
    exact (and_iff_right ha).symm
  · rw [if_neg ha]
    exact ⟨fun h => absurd h List.not_mem_nil, fun h => absurd h.1 ha⟩

/-- Turned around, the edges are those of as many labels. -/
@[simp] theorem length_reverseEdges (edges : Edges) :
    (reverseEdges edges).length = edges.length := by
  simp [reverseEdges]

/-- Turned around, the edges come from the labels that have them, in order. -/
theorem at_reverseEdges {edges : Edges} {b : Nat} (hb : b < edges.length) :
    (reverseEdges edges).at b =
      (List.range edges.length).filter fun a => (edges.at a).contains b := by
  have hzip : edges.zipIdx = (List.range edges.length).map fun a => (edges.at a, a) := by
    refine List.ext_getElem (by simp) fun i h₁ h₂ => ?_
    have hi : i < edges.length := by simpa using h₁
    simp [Edges.at, List.getD_eq_getElem?_getD, hi]
  unfold reverseEdges
  rw [Edges.at, List.getD_eq_getElem?_getD, List.getElem?_map, List.getElem?_range hb,
    Option.map_some, Option.getD_some, hzip, List.filterMap_map]
  exact congrFun List.filterMap_eq_filter (List.range edges.length)

/-- An edge turned around is an edge. -/
theorem mem_reverseEdges {edges : Edges} (hlt : ∀ a, ∀ b ∈ edges.at a, b < edges.length)
    {a b : Nat} : a ∈ (reverseEdges edges).at b ↔ b ∈ edges.at a := by
  by_cases hb : b < edges.length
  · rw [at_reverseEdges hb, List.mem_filter, List.contains_iff_mem, List.mem_range]
    exact and_iff_right_of_imp Edges.lt_length_of_mem
  · constructor
    · intro h
      exact absurd (length_reverseEdges edges ▸ Edges.lt_length_of_mem h) hb
    · intro h
      exact absurd (hlt a b h) hb

/-- Edges lead to labels of the table. -/
theorem target_lt_outEdges (hset : ∀ id ∈ set, id < ts.length) (a b : Nat)
    (h : b ∈ (outEdges ts set).at a) : b < (outEdges ts set).length := by
  have h' : ts.JumpsWithin set a b := step_outEdges hset ▸ h
  rw [length_outEdges]
  exact hset b h'.2.1

/-- The edges turned around are inverse to the edges. -/
theorem inverse_outEdges (hset : ∀ id ∈ set, id < ts.length) :
    Edges.Inverse (outEdges ts set) (reverseEdges (outEdges ts set)) where
  target_lt := target_lt_outEdges hset
  mem_reverse _ _ := mem_reverseEdges (target_lt_outEdges hset)

/-- The edges are inverse to those turned around. -/
theorem inverse_reverseEdges (hset : ∀ id ∈ set, id < ts.length) :
    Edges.Inverse (reverseEdges (outEdges ts set)) (outEdges ts set) where
  target_lt a b h := by
    rw [length_reverseEdges]
    exact Edges.lt_length_of_mem ((mem_reverseEdges (target_lt_outEdges hset)).mp h)
  mem_reverse _ _ := (mem_reverseEdges (target_lt_outEdges hset)).symm

/-- Turned around, the edges are the jumps backward. -/
theorem step_reverseEdges (hset : ∀ id ∈ set, id < ts.length) :
    (reverseEdges (outEdges ts set)).Step = Function.swap (ts.JumpsWithin set) := by
  funext a b
  rw [Edges.Step, mem_reverseEdges (target_lt_outEdges hset), ← step_outEdges hset]
  rfl

/-! ### Members -/

/-- The members considered are those of the set in the table. -/
theorem mem_members {count id : Nat} : id ∈ members set count ↔ id ∈ set ∧ id < count := by
  simp [members]

/-- No member is considered twice. -/
theorem nodup_members (set : LabelSet) (count : Nat) : (members set count).Nodup :=
  (LabelSet.nodup_toList set).filter _

/-- The queue holds every label that has edges. -/
theorem queues_outEdges (hset : ∀ id ∈ set, id < ts.length) :
    (outEdges ts set).Queues (members set ts.length).reverse where
  nodup := List.nodup_reverse.mpr (nodup_members set _)
  lt_length a ha := by
    rw [length_outEdges]
    exact (mem_members.mp (List.mem_reverse.mp ha)).2
  mem_of_step a b h := by
    rw [step_outEdges hset] at h
    exact List.mem_reverse.mpr (mem_members.mpr ⟨h.1, hset a h.1⟩)

/-- The queue holds every label that edges lead to. -/
theorem queues_reverseEdges (hset : ∀ id ∈ set, id < ts.length) :
    (reverseEdges (outEdges ts set)).Queues (members set ts.length).reverse where
  nodup := List.nodup_reverse.mpr (nodup_members set _)
  lt_length a ha := by
    rw [length_reverseEdges, length_outEdges]
    exact (mem_members.mp (List.mem_reverse.mp ha)).2
  mem_of_step a b h := by
    rw [step_reverseEdges hset] at h
    exact List.mem_reverse.mpr (mem_members.mpr ⟨h.2.1, hset a h.2.1⟩)

/-! ### Ends of paths -/

/-- The members that end paths. -/
def pathEnds (ts : Transfers) (set : LabelSet) : LabelSet :=
  .ofIds ts.length <| (members set ts.length).filter fun id => endsPaths set (ts.at? id)

/-- The ends of paths are the labels of the set that are tested to be. -/
theorem mem_pathEnds (hset : ∀ id ∈ set, id < ts.length) {id : Nat} :
    id ∈ pathEnds ts set ↔ id ∈ set ∧ endsPaths set (ts.at? id) = true := by
  rw [pathEnds, LabelSet.mem_ofIds, List.mem_filter, mem_members]
  constructor
  · rintro ⟨⟨⟨hm, _⟩, he⟩, _⟩
    exact ⟨hm, he⟩
  · rintro ⟨hm, he⟩
    exact ⟨⟨⟨hm, hset id hm⟩, he⟩, hset id hm⟩

/-- The closures of the analysis: what each label reaches. -/
def reached (ts : Transfers) (set : LabelSet) : SetTable :=
  closure (members set ts.length).reverse (outEdges ts set) (reverseEdges (outEdges ts set))

/-- A label is reached exactly if jumps within the set lead to it. -/
theorem mem_reached (hset : ∀ id ∈ set, id < ts.length) {a b : Nat} :
    b ∈ (reached ts set).at a ↔ TransGen (ts.JumpsWithin set) a b := by
  rw [reached, mem_closure (inverse_outEdges hset) (queues_outEdges hset), step_outEdges hset]

/-- The members that can end. -/
def canEnd (ts : Transfers) (set : LabelSet) : LabelSet :=
  exits (members set ts.length) ts.length (pathEnds ts set) (reached ts set)

/-- A label can end exactly when a walk leads from it to one that ends paths. -/
theorem ending_analyze (hset : ∀ id ∈ set, id < ts.length) :
    Ending (outEdges ts set) (reverseEdges (outEdges ts set)) (canEnd ts set)
      (pathEnds ts set) := by
  have hlen : (outEdges ts set).length = ts.length := length_outEdges ..
  rw [canEnd, reached, ← hlen]
  refine ending_exits (inverse_outEdges hset) (hlen ▸ queues_outEdges hset)
    (fun a => List.mem_reverse.mp) fun e he => ?_
  have he := ((mem_pathEnds hset).mp he).1
  exact ⟨mem_members.mpr ⟨he, hlen.symm ▸ hset e he⟩, hlen.symm ▸ hset e he⟩

/-! ### The records -/

/-- **The record of a label of the set**, field by field. -/
theorem flowAt_analyze (ts : Transfers) {id : Nat} (hid : id ∈ set) (hlt : id < ts.length) :
    flowAt (analyze ts set) id =
      { outLabels := (outEdges ts set).at id
        inLabels := (reverseEdges (outEdges ts set)).at id
        allOut := (reached ts set).at id
        allIn := (closure (members set ts.length).reverse (reverseEdges (outEdges ts set))
          (outEdges ts set)).at id
        mustGetTo := (mustGetToTable (outEdges ts set) (reverseEdges (outEdges ts set))
          (canEnd ts set) (pathEnds ts set)).at id
        hasReturn := returns (ts.at? id)
        hasMarker := marks (ts.at? id) } := by
  simp only [flowAt, analyze, List.getD_eq_getElem?_getD, List.getElem?_map, List.getElem?_zipIdx,
    List.getElem?_eq_getElem hlt, Option.map_some, Nat.zero_add, Option.getD_some,
    LabelSet.contains_iff_mem, hid, if_true, Transfers.at?]
  rfl

/-- Nothing is recorded of a label outside the set. -/
theorem flowAt_analyze_of_notMem (ts : Transfers) {id : Nat} (hid : id ∉ set) :
    ∃ count, flowAt (analyze ts set) id = fresh count := by
  by_cases hlt : id < ts.length
  · refine ⟨ts.length, ?_⟩
    simp [flowAt, analyze, List.getD_eq_getElem?_getD, List.getElem?_eq_getElem hlt,
      LabelSet.contains_iff_mem, hid]
  · refine ⟨0, ?_⟩
    simp [flowAt, analyze, List.getD_eq_getElem?_getD,
      List.getElem?_eq_none (Nat.not_lt.mp hlt)]

section Records

variable (hset : ∀ id ∈ set, id < ts.length) {a b : Nat}
include hset

/-- A label is listed as a target exactly if there is a jump to it. -/
theorem mem_outLabels (ha : a ∈ set) :
    b ∈ (flowAt (analyze ts set) a).outLabels ↔ ts.JumpsWithin set a b := by
  rw [flowAt_analyze ts ha (hset a ha), ← step_outEdges hset]
  rfl

/-- No target is listed twice. -/
theorem nodup_outLabels (ha : a ∈ set) : (flowAt (analyze ts set) a).outLabels.Nodup := by
  rw [flowAt_analyze ts ha (hset a ha)]
  simp only [at_outEdges hset, ha, if_true, successors]
  exact nodup_eraseDups _

/-- A label is listed as a source exactly if there is a jump from it. -/
theorem mem_inLabels (ha : a ∈ set) :
    b ∈ (flowAt (analyze ts set) a).inLabels ↔ ts.JumpsWithin set b a := by
  rw [flowAt_analyze ts ha (hset a ha)]
  exact iff_of_eq (congrFun (congrFun (step_reverseEdges hset) a) b)

/-- **The labels that a label reaches** are those that walks within the set lead to. -/
theorem mem_allOut (ha : a ∈ set) :
    b ∈ (flowAt (analyze ts set) a).allOut ↔ TransGen (ts.JumpsWithin set) a b := by
  rw [flowAt_analyze ts ha (hset a ha)]
  exact mem_reached hset

/-- **The labels that reach a label** are those that walks within the set start at. -/
theorem mem_allIn (ha : a ∈ set) :
    b ∈ (flowAt (analyze ts set) a).allIn ↔ TransGen (ts.JumpsWithin set) b a := by
  rw [flowAt_analyze ts ha (hset a ha)]
  rw [mem_closure (inverse_reverseEdges hset) (queues_reverseEdges hset), step_reverseEdges hset,
    transGen_swap]

/-- A walk within the set leads to every label that must be gotten to, which is
another one. -/
theorem transGen_of_mem_mustGetTo (ha : a ∈ set)
    (hb : b ∈ (flowAt (analyze ts set) a).mustGetTo) :
    TransGen (ts.JumpsWithin set) a b ∧ b ≠ a := by
  rw [flowAt_analyze ts ha (hset a ha)] at hb
  have hend := ending_analyze hset
  have hlt : a < (outEdges ts set).length := length_outEdges ts set ▸ hset a ha
  obtain ⟨hb, hne⟩ := (mem_mustGetToTable hend hlt).mp hb
  have hw := reach_of_mem_postDominators hend hb
  rw [step_outEdges hset] at hw
  exact ⟨(reflTransGen_iff_eq_or_transGen.mp hw).resolve_left hne, hne⟩

end Records

/-- A walk within a set stays in it. -/
theorem mem_of_transGen {a b : Nat} (h : TransGen (ts.JumpsWithin set) a b) :
    a ∈ set ∧ b ∈ set := by
  obtain ⟨_, hhead, _⟩ := TransGen.head'_iff.mp h
  obtain ⟨_, _, htail⟩ := TransGen.tail'_iff.mp h
  exact ⟨hhead.1, htail.2.1⟩

end Flow
end StructuredFlow
