/-
# The members of a label set

The tests and listings of a `LabelSet` work word by word.  Here each is read
through membership: a word is zero when it has no set bit, so two sets are
disjoint exactly when they share no member, a set is empty exactly when it has
none, and `toList` lists the members in ascending order.

`toFinset` is the view used for counting; a proper subset has fewer members.
-/

import StructuredFlow.LabelSet
import Mathlib.Data.Finset.Card
import Mathlib.Data.List.Sort

namespace StructuredFlow
namespace LabelSet

/-- The test of a set is its membership. -/
@[simp] theorem contains_iff_mem {s : LabelSet} {i : Nat} : s.contains i = true ↔ i ∈ s := Iff.rfl

/-- Where the test fails the id is no member. -/
@[simp] theorem contains_eq_false_iff {s : LabelSet} {i : Nat} :
    s.contains i = false ↔ i ∉ s := by
  rw [← Bool.not_eq_true, contains_iff_mem]

/-! ### Capacities -/

@[simp] theorem capacity_empty (c : Nat) : (empty c).capacity = c := rfl

@[simp] theorem capacity_insert (s : LabelSet) (i : Nat) : (s.insert i).capacity = s.capacity := rfl

@[simp] theorem capacity_erase (s : LabelSet) (i : Nat) : (s.erase i).capacity = s.capacity := rfl

@[simp] theorem capacity_union (s t : LabelSet) : (s.union t).capacity = s.capacity := rfl

@[simp] theorem capacity_inter (s t : LabelSet) : (s.inter t).capacity = s.capacity := rfl

@[simp] theorem capacity_diff (s t : LabelSet) : (s.diff t).capacity = s.capacity := rfl

/-- Inserting ids keeps the capacity. -/
theorem capacity_foldl_insert (ids : List Nat) (s : LabelSet) :
    (ids.foldl insert s).capacity = s.capacity := by
  induction ids generalizing s with
  | nil => rfl
  | cons i ids ih => rw [List.foldl_cons, ih, capacity_insert]

@[simp] theorem capacity_ofIds (c : Nat) (ids : List Nat) : (ofIds c ids).capacity = c :=
  capacity_foldl_insert ids _

@[simp] theorem capacity_single (c i : Nat) : (single c i).capacity = c := capacity_ofIds c [i]

/-! ### Sets of listed ids -/

/-- After inserting ids the members are the old ones and the ids below the capacity. -/
theorem mem_foldl_insert {ids : List Nat} {s : LabelSet} {i : Nat} :
    i ∈ ids.foldl insert s ↔ i ∈ s ∨ i ∈ ids ∧ i < s.capacity := by
  induction ids generalizing s with
  | nil => simp
  | cons j ids ih =>
    rw [List.foldl_cons, ih, mem_insert, capacity_insert, List.mem_cons]
    constructor
    · rintro ((h | ⟨rfl, h⟩) | ⟨h, hc⟩)
      · exact Or.inl h
      · exact Or.inr ⟨Or.inl rfl, h⟩
      · exact Or.inr ⟨Or.inr h, hc⟩
    · rintro (h | ⟨rfl | h, hc⟩)
      · exact Or.inl (Or.inl h)
      · exact Or.inl (Or.inr ⟨rfl, hc⟩)
      · exact Or.inr ⟨h, hc⟩

/-- A set made of ids holds those below the capacity. -/
@[simp] theorem mem_ofIds {c : Nat} {ids : List Nat} {i : Nat} :
    i ∈ ofIds c ids ↔ i ∈ ids ∧ i < c := by
  rw [ofIds, mem_foldl_insert]
  simp

/-- A set made of one id holds it, if it is below the capacity. -/
@[simp] theorem mem_single {c i j : Nat} : j ∈ single c i ↔ j = i ∧ i < c := by
  rw [single, mem_ofIds, List.mem_singleton]
  constructor
  · rintro ⟨rfl, h⟩
    exact ⟨rfl, h⟩
  · rintro ⟨rfl, h⟩
    exact ⟨rfl, h⟩

/-! ### Words and bits -/

/-- A word is zero exactly if it has no bit. -/
theorem word_eq_zero_iff {w : UInt64} : w = 0 ↔ ∀ j < 64, wordBit w j = false := by
  constructor
  · rintro rfl j _
    exact wordBit_zero j
  · intro h
    exact word_eq_of_wordBit_eq fun j hj => by rw [h j hj, wordBit_zero]

/-- Bit `j` of word `k` tells whether id `64 * k + j` is a member. -/
theorem mem_iff_bit {s : LabelSet} {k j : Nat} (hj : j < 64) :
    64 * k + j ∈ s ↔ wordBit (s.word k) j = true := by
  rw [mem_def, contains_eq_wordBit, show (64 * k + j) / 64 = k by omega,
    show (64 * k + j) % 64 = j by omega]

/-- A member lies in one of the words of the set. -/
theorem div_lt_wordCount_of_mem {s : LabelSet} {i : Nat} (h : i ∈ s) :
    i / 64 < wordCount s.capacity := by
  have := lt_capacity_of_mem h
  unfold wordCount
  omega

/-- A member has a bit in its word. -/
theorem wordBit_of_mem {s : LabelSet} {i : Nat} (h : i ∈ s) :
    wordBit (s.word (i / 64)) (i % 64) = true := h

/-! ### Tests -/

/-- **Two sets are disjoint when they share no member**, whatever their capacities. -/
theorem disjoint_iff {s t : LabelSet} : s.disjoint t = true ↔ ∀ i ∈ s, i ∉ t := by
  simp only [disjoint, List.all_eq_true, List.mem_range, beq_iff_eq, word_eq_zero_iff, wordBit_and]
  constructor
  · intro h i hs ht
    have := h (i / 64) (div_lt_wordCount_of_mem hs) (i % 64) (Nat.mod_lt _ (by decide))
    rw [wordBit_of_mem hs, wordBit_of_mem ht] at this
    exact absurd this (by decide)
  · intro h k _ j hj
    by_contra hn
    rw [Bool.not_eq_false, Bool.and_eq_true, ← mem_iff_bit hj, ← mem_iff_bit hj] at hn
    exact h _ hn.1 hn.2

/-- **A set lies within another when each of its members does**, whatever their capacities. -/
theorem subset_iff {s t : LabelSet} : s.subset t = true ↔ ∀ i ∈ s, i ∈ t := by
  simp only [subset, List.all_eq_true, List.mem_range, beq_iff_eq, word_eq_zero_iff, wordBit_and,
    wordBit_not]
  constructor
  · intro h i hs
    have hj : i % 64 < 64 := Nat.mod_lt _ (by decide)
    have hbit := h (i / 64) (div_lt_wordCount_of_mem hs) (i % 64) hj
    rw [wordBit_of_mem hs, decide_eq_true hj, Bool.true_and, Bool.true_and,
      Bool.not_eq_false'] at hbit
    exact hbit
  · intro h k _ j hj
    by_contra hn
    rw [Bool.not_eq_false, decide_eq_true hj, Bool.true_and, Bool.and_eq_true, ← mem_iff_bit hj,
      Bool.not_eq_true', ← Bool.not_eq_true, ← mem_iff_bit hj] at hn
    exact hn.2 (h _ hn.1)

/-- The word at a position is the one that is stored there. -/
theorem word_eq_getElem {s : LabelSet} {k : Nat} (h : k < s.words.length) :
    s.word k = s.words[k] := by
  simp [word, List.getD_eq_getElem?_getD, h]

/-- A set is empty exactly if it has no members. -/
theorem isEmpty_iff {s : LabelSet} : s.isEmpty = true ↔ ∀ i, i ∉ s := by
  simp only [isEmpty, List.all_eq_true, beq_iff_eq]
  constructor
  · intro h i hi
    have hk : i / 64 < s.words.length := s.length_words ▸ div_lt_wordCount_of_mem hi
    have hw : s.word (i / 64) = 0 := by
      rw [word_eq_getElem hk]
      exact h _ (List.getElem_mem hk)
    have := wordBit_of_mem hi
    rw [hw, wordBit_zero] at this
    exact absurd this (by decide)
  · intro h w hw
    obtain ⟨k, hk, rfl⟩ := List.getElem_of_mem hw
    rw [← word_eq_getElem hk, word_eq_zero_iff]
    intro j hj
    by_contra hn
    rw [Bool.not_eq_false, ← mem_iff_bit hj] at hn
    exact h _ hn

/-! ### The ascending list of members -/

/-- The bits listed are those that are set. -/
@[simp] theorem mem_bitsOf {w : UInt64} {j : Nat} : j ∈ bitsOf w ↔ j < 64 ∧ wordBit w j = true := by
  simp [bitsOf]

/-- **What is listed are the members.** -/
@[simp] theorem mem_toList {s : LabelSet} {i : Nat} : i ∈ s.toList ↔ i ∈ s := by
  simp only [toList, List.mem_flatMap, List.mem_range, List.mem_map, mem_bitsOf]
  constructor
  · rintro ⟨k, _, j, ⟨hj, hb⟩, rfl⟩
    exact (mem_iff_bit hj).mpr hb
  · intro h
    exact ⟨i / 64, div_lt_wordCount_of_mem h, i % 64,
      ⟨Nat.mod_lt _ (by decide), wordBit_of_mem h⟩, Nat.div_add_mod i 64⟩

/-- The bits of a word are listed in ascending order. -/
theorem pairwise_bitsOf (w : UInt64) : (bitsOf w).Pairwise (· < ·) :=
  List.pairwise_lt_range.filter _

/-- The members are listed in ascending order. -/
theorem pairwise_toList (s : LabelSet) : s.toList.Pairwise (· < ·) := by
  unfold toList
  refine List.pairwise_flatMap.mpr ⟨fun k _ => ?_, ?_⟩
  · exact List.pairwise_map.mpr ((pairwise_bitsOf _).imp fun h => by omega)
  · refine List.pairwise_lt_range.imp fun {a b} hab x hx y hy => ?_
    obtain ⟨i, hi, rfl⟩ := List.mem_map.mp hx
    obtain ⟨j, _, rfl⟩ := List.mem_map.mp hy
    have := (mem_bitsOf.mp hi).1
    omega

/-- No member is listed twice. -/
theorem nodup_toList (s : LabelSet) : s.toList.Nodup :=
  (pairwise_toList s).imp fun h => Nat.ne_of_lt h

/-! ### Counting -/

/-- The members as a finite set. -/
def toFinset (s : LabelSet) : Finset Nat := s.toList.toFinset

/-- The finite set of a label set has its members. -/
@[simp] theorem mem_toFinset {s : LabelSet} {i : Nat} : i ∈ s.toFinset ↔ i ∈ s := by
  simp [toFinset]

/-- The number of members counted word by word. -/
theorem size_eq_card (s : LabelSet) : s.size = s.toFinset.card := by
  have hwords : s.words = (List.range (wordCount s.capacity)).map s.word := by
    refine List.ext_getElem (by simp [s.length_words]) fun k hk _ => ?_
    rw [List.getElem_map, List.getElem_range, word_eq_getElem hk]
  have hcount : ∀ ks : List Nat, (ks.map s.word).foldr (fun w n => popCount w + n) 0 =
      (ks.flatMap fun k => (bitsOf (s.word k)).map (64 * k + ·)).length := by
    intro ks
    induction ks with
    | nil => rfl
    | cons k ks ih =>
      rw [List.map_cons, List.foldr_cons, ih, List.flatMap_cons, List.length_append,
        List.length_map, bitsOf, popCount, List.countP_eq_length_filter]
  rw [toFinset, List.toFinset_card_of_nodup s.nodup_toList, toList, ← hcount, size, ← hwords]

/-- The members are below the capacity. -/
theorem toFinset_subset_range (s : LabelSet) : s.toFinset ⊆ Finset.range s.capacity := fun _ hi =>
  Finset.mem_range.mpr (lt_capacity_of_mem (mem_toFinset.mp hi))

/-- There are no more members than the capacity says. -/
theorem card_le_capacity (s : LabelSet) : s.toFinset.card ≤ s.capacity := by
  simpa using Finset.card_le_card s.toFinset_subset_range

/-- A set that holds no more has no more members. -/
theorem card_le_of_subset {s t : LabelSet} (h : ∀ i ∈ s, i ∈ t) :
    s.toFinset.card ≤ t.toFinset.card :=
  Finset.card_le_card fun _ hi => mem_toFinset.mpr (h _ (mem_toFinset.mp hi))

/-- A set that misses a member of a larger one has fewer members. -/
theorem card_lt_of_subset {s t : LabelSet} {i : Nat} (h : ∀ j ∈ s, j ∈ t) (ht : i ∈ t)
    (hs : i ∉ s) : s.toFinset.card < t.toFinset.card := by
  refine Finset.card_lt_card
    ⟨fun j hj => mem_toFinset.mpr (h j (mem_toFinset.mp hj)), fun hle => ?_⟩
  exact hs (mem_toFinset.mp (hle (mem_toFinset.mpr ht)))

/-- A set within another one of the same capacity is the other one or lies properly within it. -/
theorem toFinset_ssubset {s t : LabelSet} (hcap : s.capacity = t.capacity) (h : ∀ i ∈ s, i ∈ t)
    (hne : s ≠ t) : s.toFinset ⊂ t.toFinset := by
  refine ⟨fun i hi => mem_toFinset.mpr (h i (mem_toFinset.mp hi)), fun hle => hne ?_⟩
  exact ext_mem hcap fun i => ⟨h i, fun hi => mem_toFinset.mp (hle (mem_toFinset.mpr hi))⟩

end LabelSet
end StructuredFlow
