/-
# Looking for a member of a dispatch

`Dispatch.holds` halves the members until one is left.  If they ascend, it finds every
one of them (`holds_iff`): an id among the members in view is also among those that are
kept, since the members before the middle are smaller than the one there.
-/

import Mathlib.Data.List.GetD
import Mathlib.Data.List.Nodup
import StructuredFlow.Code.Emission

namespace StructuredFlow
namespace Dispatch

variable {members : List Nat} {id : Nat}

/-- A member compares with another as their places do. -/
theorem lt_getD_iff (h : members.Pairwise (· < ·)) {i place : Nat} (hi : members[i]? = some id)
    (hplace : place < members.length) : id < members.getD place 0 ↔ i < place := by
  obtain ⟨hlt, rfl⟩ := List.getElem?_eq_some_iff.mp hi
  rw [List.getD_eq_getElem _ _ hplace]
  refine ⟨fun hid => ?_, List.pairwise_iff_getElem.mp h i place hlt hplace⟩
  by_contra hle
  rcases Nat.lt_or_eq_of_le (Nat.not_lt.mp hle) with hlt' | rfl
  · exact Nat.lt_asymm hid (List.pairwise_iff_getElem.mp h _ _ hplace hlt hlt')
  · exact Nat.lt_irrefl _ hid

/-- What stands in view is found, and nothing else. -/
theorem holdsFrom_iff (h : members.Pairwise (· < ·)) {base size : Nat} (hsize : 0 < size)
    (hbase : base + size ≤ members.length) : holdsFrom members id base size = true ↔
      ∃ i, base ≤ i ∧ i < base + size ∧ members[i]? = some id := by
  induction size using Nat.strongRecOn generalizing base with
  | ind size ih =>
    rw [holdsFrom]
    split
    next hone =>
      have hlt : base < members.length := by omega
      rw [List.getD_eq_getElem _ _ hlt, beq_iff_eq]
      constructor
      · intro heq
        exact ⟨base, Nat.le_refl base, by omega, List.getElem?_eq_some_iff.mpr ⟨hlt, heq⟩⟩
      · rintro ⟨i, hle, hi, hget⟩
        obtain rfl : i = base := by omega
        exact (List.getElem?_eq_some_iff.mp hget).2
    next hmany =>
      have hplace : base + size / 2 < members.length := by omega
      dsimp only
      split
      next hid =>
        rw [ih (size - size / 2) (by omega) (by omega) (by omega)]
        refine exists_congr fun i => and_congr_right fun _ => and_congr_left fun hget => ?_
        have := (lt_getD_iff h hget hplace).mp hid
        omega
      next hid =>
        rw [ih (size - size / 2) (by omega) (by omega) (by omega)]
        refine exists_congr fun i => ?_
        rw [← and_assoc, ← and_assoc]
        refine and_congr_left fun hget => ?_
        have := (lt_getD_iff h hget hplace).not.mp hid
        omega

/-- **Halving finds every member**, and nothing else, if the members ascend. -/
theorem holds_iff {d : Dispatch} (h : d.members.Pairwise (· < ·)) :
    d.holds id = true ↔ id ∈ d.members := by
  rw [holds, Bool.and_eq_true, List.mem_iff_getElem?]
  cases hm : d.members with
  | nil => simp
  | cons first rest =>
    rw [← hm, holdsFrom_iff h (by simp [hm]) (by simp)]
    constructor
    · rintro ⟨_, i, _, _, hget⟩
      exact ⟨i, hget⟩
    · rintro ⟨i, hget⟩
      have hlt := (List.getElem?_eq_some_iff.mp hget).1
      exact ⟨by simp [hm], i, Nat.zero_le i, by omega, hget⟩

end Dispatch
end StructuredFlow
