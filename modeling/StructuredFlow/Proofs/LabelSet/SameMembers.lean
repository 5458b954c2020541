/-
# Sets with the same members

A set knows the capacity that it was made with.  Two sets with the same members may differ
in it, and yet every test and listing gives the same for both (`SameMembers.toList_eq` and
so on); an operation keeps to the same members as long as none is cut off at a capacity.
-/

import StructuredFlow.Proofs.LabelSet.Members

namespace StructuredFlow

/-- A strictly ascending list is known by its members. -/
theorem eq_of_pairwise_lt {l l' : List Nat} (hl : l.Pairwise (· < ·)) (hl' : l'.Pairwise (· < ·))
    (h : ∀ a, a ∈ l ↔ a ∈ l') : l = l' := by
  have hperm : l.Perm l' := (List.perm_ext_iff_of_nodup (hl.imp Nat.ne_of_lt)
    (hl'.imp Nat.ne_of_lt)).mpr h
  exact hperm.eq_of_pairwise (fun a b _ _ hab hba => absurd hab (Nat.lt_asymm hba)) hl hl'

namespace LabelSet

/-- The same ids are members of both sets. -/
def SameMembers (s t : LabelSet) : Prop := ∀ i, i ∈ s ↔ i ∈ t

namespace SameMembers

variable {s s' t t' : LabelSet}

/-! ### Tests and listings -/

/-- Sets of the same members test alike. -/
theorem contains_eq (h : SameMembers s t) : s.contains = t.contains := by
  funext i
  exact Bool.eq_iff_iff.mpr (h i)

/-- Sets of the same members are listed alike. -/
theorem toList_eq (h : SameMembers s t) : s.toList = t.toList :=
  eq_of_pairwise_lt (pairwise_toList s) (pairwise_toList t) fun i => by
    rw [mem_toList, mem_toList, h i]

/-- Sets of the same members have the same finite set. -/
theorem toFinset_eq (h : SameMembers s t) : s.toFinset = t.toFinset :=
  congrArg List.toFinset h.toList_eq

/-- Sets of the same members are of one size. -/
theorem size_eq (h : SameMembers s t) : s.size = t.size := by
  rw [size_eq_card, size_eq_card, h.toFinset_eq]

/-- Sets of the same members are empty alike. -/
theorem isEmpty_eq (h : SameMembers s t) : s.isEmpty = t.isEmpty := by
  rw [Bool.eq_iff_iff, isEmpty_iff, isEmpty_iff]
  exact forall_congr' fun i => not_congr (h i)

/-- Whether sets are disjoint depends on their members only. -/
theorem disjoint_eq (h : SameMembers s s') (h' : SameMembers t t') :
    s.disjoint t = s'.disjoint t' := by
  rw [Bool.eq_iff_iff, disjoint_iff, disjoint_iff]
  exact forall_congr' fun i => imp_congr (h i) (not_congr (h' i))

/-! ### Operations -/

/-- Empty sets have the same members. -/
theorem empty (c c' : Nat) : SameMembers (.empty c) (.empty c') := fun _ =>
  iff_of_false not_mem_empty not_mem_empty

/-- What is left without an id depends on the members only. -/
theorem erase (h : SameMembers s t) (i : Nat) : SameMembers (s.erase i) (t.erase i) := fun j => by
  rw [mem_erase, mem_erase, h j]

/-- An intersection depends on the members only. -/
theorem inter (h : SameMembers s s') (h' : SameMembers t t') :
    SameMembers (s.inter t) (s'.inter t') := fun i => by
  rw [mem_inter, mem_inter, h i, h' i]

/-- A difference depends on the members only. -/
theorem diff (h : SameMembers s s') (h' : SameMembers t t') :
    SameMembers (s.diff t) (s'.diff t') := fun i => by
  rw [mem_diff, mem_diff, h i, h' i]

/-- What is inserted below both capacities is in both. -/
theorem insert (h : SameMembers s t) {i : Nat} (hs : i < s.capacity) (ht : i < t.capacity) :
    SameMembers (s.insert i) (t.insert i) := fun j => by
  rw [mem_insert, mem_insert, h j, and_iff_left hs, and_iff_left ht]

/-- A union depends on the members only, if both capacities hold them. -/
theorem union (h : SameMembers s s') (h' : SameMembers t t') (ht : ∀ i ∈ t, i < s.capacity)
    (ht' : ∀ i ∈ t', i < s'.capacity) : SameMembers (s.union t) (s'.union t') := fun i => by
  have hs : i ∈ s.union t ↔ i ∈ s ∨ i ∈ t :=
    mem_union.trans (and_iff_right_of_imp fun hi => hi.elim lt_capacity_of_mem (ht i))
  have hs' : i ∈ s'.union t' ↔ i ∈ s' ∨ i ∈ t' :=
    mem_union.trans (and_iff_right_of_imp fun hi => hi.elim lt_capacity_of_mem (ht' i))
  rw [hs, hs', h i, h' i]

/-- Ids below both capacities make sets of the same members. -/
theorem ofIds {c c' : Nat} {ids : List Nat} (h : ∀ i ∈ ids, i < c) (h' : ∀ i ∈ ids, i < c') :
    SameMembers (.ofIds c ids) (.ofIds c' ids) := fun i => by
  rw [mem_ofIds, mem_ofIds, and_iff_left_of_imp (h i), and_iff_left_of_imp (h' i)]

/-- An id below both capacities makes sets of the same member. -/
theorem single {c c' i : Nat} (h : i < c) (h' : i < c') :
    SameMembers (.single c i) (.single c' i) := fun j => by
  rw [mem_single, mem_single, and_iff_left h, and_iff_left h']

end SameMembers
end LabelSet
end StructuredFlow
