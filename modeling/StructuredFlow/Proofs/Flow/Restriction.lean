/-
# Ids without a label

A set may have members that are no positions of labels.  Such an id is passed over as long as
no member jumps to it: the records are those that the labels of the set alone give, whatever
the capacities (`refresh_eq_of_labelsOf`).  If a member does, the id has no list of
predecessors that the member could be entered in, and the analysis fails
(`overreaching_error`).  It fails in no other case, and no other look-up of it does
(`refresh_labelsOf`).
-/

import StructuredFlow.Proofs.Flow.Bounds

namespace StructuredFlow
namespace Flow

variable {ts : Transfers} {set labels : LabelSet}

/-- The members of a set that are positions below `count`, as a set of any capacity. -/
def LabelsOf (count : Nat) (set labels : LabelSet) : Prop :=
  ∀ id, id ∈ labels ↔ id ∈ set ∧ id < count

/-! ### Dangling targets -/

/-- Only labels of the table jump. -/
theorem lt_of_jumps {a b : Nat} (h : ts.Jumps a b) : a < ts.length := by
  by_contra ha
  rw [Transfers.Jumps, Transfers.targets, Transfers.at?, List.getD_eq_getElem?_getD,
    List.getElem?_eq_none (Nat.not_lt.mp ha)] at h
  exact absurd h List.not_mem_nil

/-- An edge leads to a label exactly if there is a jump to it within the set. -/
theorem mem_flatten_outEdges {b : Nat} :
    b ∈ (outEdges ts set).flatten ↔ ∃ a, ts.JumpsWithin set a b := by
  rw [Edges.flatten_eq_flatMap_at, length_outEdges, List.mem_flatMap]
  constructor
  · rintro ⟨a, ha, hb⟩
    rw [at_outEdges_of_lt (List.mem_range.mp ha)] at hb
    split at hb
    next hmem => exact ⟨a, hmem, mem_successors.mp hb⟩
    next => exact absurd hb List.not_mem_nil
  · rintro ⟨a, hmem, hjump⟩
    have ha := lt_of_jumps hjump.2
    refine ⟨a, List.mem_range.mpr ha, ?_⟩
    rw [at_outEdges_of_lt ha, if_pos hmem]
    exact mem_successors.mpr hjump

/-- The end of a jump between members that is no label. -/
theorem dangling_of_eq_some {b : Nat} (h : danglingTarget? ts set = some b) :
    ts.length ≤ b ∧ ∃ a, ts.JumpsWithin set a b :=
  ⟨by simpa using List.find?_some h, mem_flatten_outEdges.mp (List.mem_of_find?_eq_some h)⟩

/-- No jump between members leads past the labels. -/
theorem danglingTarget?_eq_none_iff :
    danglingTarget? ts set = none ↔ ∀ a ∈ set, ∀ b ∈ set, ts.Jumps a b → b < ts.length := by
  constructor
  · intro h a ha b hb hjump
    simpa using List.find?_eq_none.mp h b (mem_flatten_outEdges.mpr ⟨a, ha, hb, hjump⟩)
  · intro h
    refine List.find?_eq_none.mpr fun b hb => ?_
    obtain ⟨a, ha, hb, hjump⟩ := mem_flatten_outEdges.mp hb
    simpa using h a ha b hb hjump

/-! ### The labels of a set -/

section LabelsOf

variable (hl : LabelsOf ts.length set labels)
include hl

/-- Both sets hold the same labels of the table. -/
theorem contains_eq_of_labelsOf {id : Nat} (hid : id < ts.length) :
    labels.contains id = set.contains id := by
  rw [Bool.eq_iff_iff]
  exact (hl id).trans (and_iff_left hid)

/-- Of both sets the same members are considered. -/
theorem members_eq_of_labelsOf : members labels ts.length = members set ts.length := by
  refine eq_of_pairwise_lt ((LabelSet.pairwise_toList _).filter _)
    ((LabelSet.pairwise_toList _).filter _) fun id => ?_
  rw [mem_members, mem_members, hl id, and_assoc, and_self_iff]

/-- Where only labels of the table are left no jump leaves it. -/
theorem danglingTarget?_labelsOf : danglingTarget? ts labels = none :=
  danglingTarget?_eq_none_iff.mpr fun _ _ b hb _ => ((hl b).mp hb).2

variable (h : danglingTarget? ts set = none)
include h

/-- No jump of a member leads to an id that only the set has. -/
theorem successors_eq_of_labelsOf {a : Nat} (ha : a ∈ set) :
    successors labels (ts.at? a) = successors set (ts.at? a) := by
  refine congrArg List.eraseDups (List.filter_congr fun b hb => ?_)
  rw [Bool.eq_iff_iff]
  refine (hl b).trans (and_iff_left_of_imp fun hmem => ?_)
  refine danglingTarget?_eq_none_iff.mp h a ha b hmem ?_
  have hsuccessor : b ∈ successors set (ts.at? a) :=
    List.mem_eraseDups.mpr (List.mem_filter.mpr ⟨hb, hmem⟩)
  exact (mem_successors.mp hsuccessor).2

/-- Both sets have the same edges. -/
theorem outEdges_eq_of_labelsOf : outEdges ts labels = outEdges ts set := by
  refine List.ext_getElem (by simp) fun a ha _ => ?_
  have hlt : a < ts.length := by simpa using ha
  have hat : ts[a] = ts.at? a := by
    rw [Transfers.at?, List.getD_eq_getElem?_getD, List.getElem?_eq_getElem hlt, Option.getD_some]
  simp only [outEdges, List.getElem_map, List.getElem_zipIdx, Nat.zero_add,
    contains_eq_of_labelsOf hl hlt, hat]
  split
  next hmem => exact successors_eq_of_labelsOf hl h hmem
  next => rfl

/-- Both sets have the same ends of paths. -/
theorem pathEnds_eq_of_labelsOf : pathEnds ts labels = pathEnds ts set := by
  rw [pathEnds, pathEnds, members_eq_of_labelsOf hl]
  refine congrArg (LabelSet.ofIds ts.length) (List.filter_congr fun id hid => ?_)
  rw [endsPaths, endsPaths, successors_eq_of_labelsOf hl h (mem_members.mp hid).1]

/-- **Ids without a label are passed over**: the records are those of the labels in the set. -/
theorem tables_eq_of_labelsOf : tables ts labels = tables ts set := by
  simp only [tables, reached, canEnd, outEdges_eq_of_labelsOf hl h, pathEnds_eq_of_labelsOf hl h,
    members_eq_of_labelsOf hl]

/-- **The labels of a set alone give its records**, whatever else it holds. -/
theorem refresh_eq_of_labelsOf {flows : List Flow} (hlen : flows.length = ts.length) :
    refresh ts labels flows = refresh ts set flows := by
  rw [refresh, refresh, danglingTarget?_labelsOf hl, h]
  refine congrArg Except.ok (List.map_congr_left fun p hp => ?_)
  obtain ⟨old, id⟩ := p
  have hlt : id < ts.length := by
    rw [← hlen]
    exact (List.mem_zipIdx' hp).1
  have hcontains := contains_eq_of_labelsOf hl hlt
  dsimp only
  rw [hcontains]
  split
  next hmem =>
    rw [List.getD_eq_getElem?_getD, getElem?_analyze hlt (hcontains.trans hmem),
      List.getD_eq_getElem?_getD, getElem?_analyze hlt hmem, tables_eq_of_labelsOf hl h]
  next => rfl

end LabelsOf

/-! ### The analysis of any set -/

/-- **A set is analyzed as its labels are, unless a member jumps to a member that is no label.**
For all transfers and all sets of any capacity: the analysis of the labels of the set
succeeds, and that of the set gives the same records exactly if every jump between members
ends at a label.  Otherwise it fails, and names the end of a jump between members that is no
label.  Every look-up but that of the end of a jump finds its entry. -/
theorem refresh_labelsOf (ts : Transfers) (set labels : LabelSet)
    (hl : LabelsOf ts.length set labels) (flows : List Flow) (hlen : flows.length = ts.length) :
    (∃ after, refresh ts labels flows = .ok after) ∧
      (refresh ts set flows = refresh ts labels flows ↔
        ∀ a ∈ set, ∀ b ∈ set, ts.Jumps a b → b < ts.length) ∧
      (∀ e, refresh ts set flows = .error e →
        e.count = ts.length ∧ ts.length ≤ e.target ∧ ∃ a, ts.JumpsWithin set a e.target) ∧
      Checked.refresh ts set flows =
        (refresh ts set flows).mapError fun e => ⟨e.count, e.target⟩ := by
  have hlabels : ∃ after, refresh ts labels flows = .ok after := by
    rw [refresh, danglingTarget?_labelsOf hl]
    exact ⟨_, rfl⟩
  refine ⟨hlabels, ⟨fun heq => ?_, fun hjumps => ?_⟩, fun e he => ?_,
    Checked.refresh_eq ts set flows hlen⟩
  · obtain ⟨after, hafter⟩ := hlabels
    rw [← danglingTarget?_eq_none_iff]
    cases hdangling : danglingTarget? ts set with
    | none => rfl
    | some b =>
      rw [hafter, refresh, hdangling] at heq
      exact absurd heq (by simp)
  · exact (refresh_eq_of_labelsOf hl (danglingTarget?_eq_none_iff.mpr hjumps) hlen).symm
  · rw [refresh] at he
    split at he
    next b hdangling =>
      obtain rfl := Except.error.inj he
      exact ⟨rfl, dangling_of_eq_some hdangling⟩
    next => exact absurd he (by simp)

/-- The members below a count, in a set of the same capacity. -/
theorem labelsOf_inter_full (count : Nat) (set : LabelSet) :
    LabelsOf count set (set.inter (.full count)) := fun id => by
  rw [LabelSet.mem_inter, LabelSet.mem_full]

/-- A label that chooses between another and an id that is no label, and one that returns. -/
def overreaching : Transfers :=
  [some (.condBranch (.ssa "c") (.label 1) (.label 2)), some (.ret none)]

/-- The first label of the example jumps to the second and to a position without a label. -/
theorem jumps_overreaching {a b : Nat} : overreaching.Jumps a b ↔ a = 0 ∧ (b = 1 ∨ b = 2) := by
  rcases a with - | - | a <;>
    simp [Transfers.Jumps, Transfers.targets, Transfers.at?, overreaching, Transfer.targets]

/-- The set has ids that are no labels, but not the one that is jumped to. -/
theorem refresh_overreaching : LabelsOf overreaching.length (.ofIds 130 [0, 1, 3, 129])
      ((LabelSet.ofIds 130 [0, 1, 3, 129]).inter (.full overreaching.length)) ∧
    [Flow.fresh 2, .fresh 2].length = overreaching.length ∧ overreaching.Jumps 0 2 ∧
    ∃ after, refresh overreaching (.ofIds 130 [0, 1, 3, 129]) [.fresh 2, .fresh 2] =
      .ok after := by
  have hl := labelsOf_inter_full overreaching.length (.ofIds 130 [0, 1, 3, 129])
  obtain ⟨⟨after, hafter⟩, hsame, -, -⟩ := refresh_labelsOf overreaching
    (.ofIds 130 [0, 1, 3, 129]) _ hl [.fresh 2, .fresh 2] rfl
  refine ⟨hl, rfl, jumps_overreaching.mpr ⟨rfl, Or.inr rfl⟩, after,
    (hsame.mpr fun a _ b hb hjump => ?_).trans hafter⟩
  obtain ⟨-, rfl | rfl⟩ := jumps_overreaching.mp hjump
  · decide
  · simp at hb

/-- If the id that is no label belongs to the set, it is not passed over. -/
theorem overreaching_error :
    LabelsOf overreaching.length (.ofIds 3 [0, 1, 2]) (.ofIds 2 [0, 1]) ∧
      refresh overreaching (.ofIds 3 [0, 1, 2]) [.fresh 2, .fresh 2] = .error ⟨2, 2⟩ ∧
      ∃ after, refresh overreaching (.ofIds 2 [0, 1]) [.fresh 2, .fresh 2] = .ok after ∧
        after.map Flow.outLabels = [[1], []] := by
  refine ⟨fun id => ?_, by decide, _, rfl, by decide⟩
  have hlength : overreaching.length = 2 := rfl
  rw [LabelSet.mem_ofIds, LabelSet.mem_ofIds, hlength]
  simp only [List.mem_cons, List.not_mem_nil]
  omega

end Flow
end StructuredFlow
