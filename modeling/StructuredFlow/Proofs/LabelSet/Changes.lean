/-
# Reported changes of a set

A union, an intersection and a difference report a change if the loop over the words left
one of them different.  For the last two this is whether the members changed
(`interAlters_iff`, `diffAlters_iff`).  The loop of a union writes whole words, which are cut
to the capacity only afterwards, and so it reports as well what the cut takes away again
(`unionAlters_iff`): the members of the other set that lie above the capacity and yet in the
last word (`Overhangs`).

| operation | reports a change for |
| --- | --- |
| `s.union t` | each id of `t` that is not in `s` and lies in a word of `s` |
| `s.inter t` | each id of `s` that is not in `t` |
| `s.diff t` | each id of `s` that is in `t` |

Sets of one capacity, as those of one function are, have no such members
(`unionAlters_iff_of_capacity_le`).
-/

import StructuredFlow.Proofs.LabelSet.SameMembers

namespace StructuredFlow
namespace LabelSet

variable {s t : LabelSet} {f : Nat → UInt64}

/-- A member at or above the capacity of another set, in a word that the other set has. -/
def Overhangs (t s : LabelSet) : Prop :=
  ∃ i ∈ t, s.capacity ≤ i ∧ i / 64 < wordCount s.capacity

/-- Words differ where a bit of theirs does. -/
theorem altersWord_iff : s.altersWord f = true ↔
    ∃ i, i / 64 < wordCount s.capacity ∧ wordBit (f (i / 64)) (i % 64) ≠ s.contains i := by
  simp only [altersWord, List.any_eq_true, List.mem_range, bne_iff_ne]
  constructor
  · rintro ⟨k, hk, hne⟩
    obtain ⟨j, hj, hbit⟩ : ∃ j < 64, wordBit (f k) j ≠ wordBit (s.word k) j := by
      by_contra hsame
      push Not at hsame
      exact hne (word_eq_of_wordBit_eq hsame)
    have hdiv : (64 * k + j) / 64 = k := by omega
    have hmod : (64 * k + j) % 64 = j := by omega
    refine ⟨64 * k + j, hdiv.symm ▸ hk, ?_⟩
    rwa [contains_eq_wordBit, hdiv, hmod]
  · rintro ⟨i, hi, hbit⟩
    refine ⟨i / 64, hi, fun heq => hbit ?_⟩
    rw [heq, contains_eq_wordBit]

/-! ### The ids for which a change is reported -/

/-- A union reports a change for a new member in a word that is there. -/
theorem unionAlters_iff_exists :
    s.unionAlters t = true ↔ ∃ i ∈ t, i ∉ s ∧ i / 64 < wordCount s.capacity := by
  rw [unionAlters, altersWord_iff]
  refine exists_congr fun i => ?_
  have hbit : wordBit (s.word (i / 64) ||| t.word (i / 64)) (i % 64) =
      (s.contains i || t.contains i) := wordBit_or ..
  rw [hbit, ← contains_iff_mem (s := t), ← contains_iff_mem (s := s)]
  cases s.contains i <;> cases t.contains i <;> simp

/-- An intersection reports a change for a member that the other set lacks. -/
theorem interAlters_iff_exists : s.interAlters t = true ↔ ∃ i ∈ s, i ∉ t := by
  rw [interAlters, altersWord_iff]
  refine exists_congr fun i => ?_
  have hbit : wordBit (s.word (i / 64) &&& t.word (i / 64)) (i % 64) =
      (s.contains i && t.contains i) := wordBit_and ..
  have hplace : s.contains i = true → i / 64 < wordCount s.capacity := div_lt_wordCount_of_mem
  rw [hbit, ← contains_iff_mem (s := t), ← contains_iff_mem (s := s)]
  cases hs : s.contains i <;> cases t.contains i <;> simp [hs] at hplace ⊢
  exact hplace

/-- A difference reports a change for a member that the other set has. -/
theorem diffAlters_iff_exists : s.diffAlters t = true ↔ ∃ i ∈ s, i ∈ t := by
  rw [diffAlters, altersWord_iff]
  refine exists_congr fun i => ?_
  have hmod : i % 64 < 64 := Nat.mod_lt _ (by decide)
  have hbit : wordBit (s.word (i / 64) &&& ~~~t.word (i / 64)) (i % 64) =
      (s.contains i && !t.contains i) := by
    rw [wordBit_and, wordBit_not, decide_eq_true hmod, Bool.true_and]
    rfl
  have hplace : s.contains i = true → i / 64 < wordCount s.capacity := div_lt_wordCount_of_mem
  rw [hbit, ← contains_iff_mem (s := t), ← contains_iff_mem (s := s)]
  cases hs : s.contains i <;> cases t.contains i <;> simp [hs] at hplace ⊢
  exact hplace

/-! ### Reported and real changes -/

/-- **An intersection reports a change exactly if it changed the members.** -/
theorem interAlters_iff : s.interAlters t = true ↔ ¬(s.inter t).SameMembers s := by
  rw [interAlters_iff_exists, SameMembers, not_forall]
  refine exists_congr fun i => ?_
  rw [mem_inter]
  tauto

/-- **A difference reports a change exactly if it changed the members.** -/
theorem diffAlters_iff : s.diffAlters t = true ↔ ¬(s.diff t).SameMembers s := by
  rw [diffAlters_iff_exists, SameMembers, not_forall]
  refine exists_congr fun i => ?_
  rw [mem_diff]
  tauto

/-- **A union reports a change if it changed the members, or if the other set overhangs.** -/
theorem unionAlters_iff :
    s.unionAlters t = true ↔ ¬(s.union t).SameMembers s ∨ t.Overhangs s := by
  have hchange : ¬(s.union t).SameMembers s ↔ ∃ i ∈ t, i ∉ s ∧ i < s.capacity := by
    rw [SameMembers, not_forall]
    refine exists_congr fun i => ?_
    have hlt : i ∈ s → i < s.capacity := lt_capacity_of_mem
    rw [mem_union]
    tauto
  rw [unionAlters_iff_exists, hchange, Overhangs, ← exists_or]
  refine exists_congr fun i => ?_
  have hlt : i ∈ s → i < s.capacity := lt_capacity_of_mem
  have hplace : i < s.capacity → i / 64 < wordCount s.capacity := by
    intro hi
    unfold wordCount
    omega
  rcases Nat.lt_or_ge i s.capacity with hi | hi
  · have := hplace hi
    have := Nat.not_le.mpr hi
    tauto
  · have := Nat.not_lt.mpr hi
    tauto

/-- A set of no greater capacity does not overhang. -/
theorem not_overhangs_of_capacity_le (h : t.capacity ≤ s.capacity) : ¬t.Overhangs s := by
  rintro ⟨i, hi, hle, -⟩
  exact Nat.not_lt.mpr (h.trans hle) (lt_capacity_of_mem hi)

/-- **Within one capacity a union reports a change exactly if it changed the members.** -/
theorem unionAlters_iff_of_capacity_le (h : t.capacity ≤ s.capacity) :
    s.unionAlters t = true ↔ ¬(s.union t).SameMembers s := by
  rw [unionAlters_iff, or_iff_left (not_overhangs_of_capacity_le h)]

/-- **What is reported of two sets.**  Whatever their capacities, also of a set with itself: an
intersection and a difference report a change exactly if the members changed; a union does
exactly if they changed or the other set overhangs, and so exactly if they changed where the
other capacity is no larger. -/
theorem alters_iff (s t : LabelSet) :
    (s.interAlters t = true ↔ ¬(s.inter t).SameMembers s) ∧
      (s.diffAlters t = true ↔ ¬(s.diff t).SameMembers s) ∧
      (s.unionAlters t = true ↔ ¬(s.union t).SameMembers s ∨ t.Overhangs s) ∧
      (t.capacity ≤ s.capacity → (s.unionAlters t = true ↔ ¬(s.union t).SameMembers s)) :=
  ⟨interAlters_iff, diffAlters_iff, unionAlters_iff, unionAlters_iff_of_capacity_le⟩

/-- Joining four ids into a full set of three reports a change and changes nothing: the fourth
is written into the word and cut off again. -/
theorem unionAlters_overhanging :
    ¬((full 3).unionAlters (full 4) = true ↔ ¬((full 3).union (full 4)).SameMembers (full 3)) := by
  have hreported : (full 3).unionAlters (full 4) = true :=
    unionAlters_iff_exists.mpr ⟨3, by simp, by simp, by decide⟩
  have hsame : ((full 3).union (full 4)).SameMembers (full 3) := by
    intro i
    have hcapacity : (full 3).capacity = 3 := rfl
    rw [mem_union, mem_full, mem_full, hcapacity]
    omega
  exact fun h => h.mp hreported hsame

end LabelSet
end StructuredFlow
