/-
# Label sets word by word

An operation on packed sets is a loop over words: a bit is set or cleared in one word, or
each word is combined with the word of the other set at its place, zero where that set has
none.  `setBit`, `clearBit`, `combine` and `clearExcess` are these loops.  Of all
operations only the full set and the union can leave a bit at or above the capacity, and
so only their last word is cut (`words_full`, `words_union`); the others leave their words
as the loop wrote them.

The members of a word are read off by taking its lowest set bit and clearing it, until the
word is zero (`drained`); this finds the set bits in ascending order (`drained_eq_bitsOf`).
-/

import Mathlib
import StructuredFlow.Proofs.LabelSet.SameMembers

namespace StructuredFlow
namespace LabelSet

/-! ### Loops -/

/-- Sets bit `i` if it is below the capacity. -/
def setBit (capacity : Nat) (words : List UInt64) (i : Nat) : List UInt64 :=
  if i < capacity then words.modify (i / 64) (· ||| bitMask (i % 64)) else words

/-- Clears bit `i` if it is below the capacity. -/
def clearBit (capacity : Nat) (words : List UInt64) (i : Nat) : List UInt64 :=
  if i < capacity then words.modify (i / 64) (· &&& ~~~bitMask (i % 64)) else words

/-- Combines each word with the other at its place, or with zero. -/
def combine (f : UInt64 → UInt64 → UInt64) (words others : List UInt64) : List UInt64 :=
  words.mapIdx fun k w => f w (others.getD k 0)

/-- Clears the bits of the last word at or above the capacity, if it is a partial one. -/
def clearExcess (capacity : Nat) (words : List UInt64) : List UInt64 :=
  if capacity % 64 = 0 then words
  else words.modify (words.length - 1) (· &&& UInt64.ofNat (2 ^ (capacity % 64) - 1))

variable {s t : LabelSet} {c i k j : Nat} {f : Nat → UInt64}

/-! ### Words as a function of their place -/

/-- No bit at or above the capacity is set. -/
theorem wordBit_word_of_le (hj : j < 64) (h : s.capacity ≤ 64 * k + j) :
    wordBit (s.word k) j = false := by
  rw [← Bool.not_eq_true, ← mem_iff_bit hj]
  exact fun hmem => Nat.not_lt.mpr h (lt_capacity_of_mem hmem)

/-- Words whose bits above the capacity are clear need no cut. -/
theorem words_ofWords (h : ∀ k j, j < 64 → c ≤ 64 * k + j → wordBit (f k) j = false) :
    (ofWords c f).words = (List.range (wordCount c)).map f := by
  refine List.map_congr_left fun k _ => word_eq_of_wordBit_eq fun j hj => ?_
  rw [wordBit_and, wordBit_wordMask, decide_eq_true hj, Bool.true_and]
  by_cases hc : 64 * k + j < c
  · rw [decide_eq_true hc, Bool.and_true]
  · rw [h k j hj (Nat.not_lt.mp hc), Bool.false_and]

/-- Changing one word leaves the others. -/
theorem modify_words (s : LabelSet) (i : Nat) (g : UInt64 → UInt64) :
    s.words.modify i g =
      (List.range (wordCount s.capacity)).map fun k =>
        if k = i then g (s.word k) else s.word k := by
  refine List.ext_getElem (by simp [s.length_words]) fun k hk _ => ?_
  rw [List.length_modify] at hk
  rw [List.getElem_modify, List.getElem_map, List.getElem_range, word_eq_getElem hk]
  exact if_congr eq_comm rfl rfl

/-- Words are combined one by one. -/
theorem combine_words (g : UInt64 → UInt64 → UInt64) (s t : LabelSet) :
    combine g s.words t.words =
      (List.range (wordCount s.capacity)).map fun k => g (s.word k) (t.word k) := by
  refine List.ext_getElem (by simp [combine, s.length_words]) fun k hk _ => ?_
  rw [combine, List.length_mapIdx] at hk
  simp only [combine, List.getElem_mapIdx, List.getElem_map, List.getElem_range,
    word_eq_getElem hk]
  rfl

/-! ### Operations that need no cut -/

/-- The words of an empty set are zero. -/
theorem words_empty (c : Nat) : (empty c).words = List.replicate (wordCount c) 0 := by
  rw [empty, words_ofWords fun _ _ _ _ => wordBit_zero _]
  rw [List.map_const', List.length_range]

/-- An id at or above the capacity is not inserted. -/
theorem insert_of_le (h : s.capacity ≤ i) : s.insert i = s :=
  ext_mem rfl fun j => by simp [Nat.not_lt.mpr h]

/-- An id at or above the capacity is not there to be erased. -/
theorem erase_of_le (h : s.capacity ≤ i) : s.erase i = s :=
  ext_mem rfl fun j => by
    rw [mem_erase, and_iff_left_of_imp]
    rintro hj rfl
    exact Nat.not_lt.mpr h (lt_capacity_of_mem hj)

/-- To insert an id sets its bit. -/
theorem words_insert (s : LabelSet) (i : Nat) :
    (s.insert i).words = setBit s.capacity s.words i := by
  rw [setBit]
  split
  next hi =>
    rw [modify_words, insert, words_ofWords]
    intro k j hj hc
    split
    next hk =>
      have hne : i % 64 ≠ j := by omega
      rw [wordBit_or, wordBit_word_of_le hj hc, wordBit_bitMask, decide_eq_false hne]
      simp
    next => exact wordBit_word_of_le hj hc
  next hi => rw [insert_of_le (Nat.not_lt.mp hi)]

/-- To erase an id clears its bit. -/
theorem words_erase (s : LabelSet) (i : Nat) :
    (s.erase i).words = clearBit s.capacity s.words i := by
  rw [clearBit]
  split
  next hi =>
    rw [modify_words, erase, words_ofWords]
    intro k j hj hc
    split
    next => rw [wordBit_and, wordBit_word_of_le hj hc, Bool.false_and]
    next => exact wordBit_word_of_le hj hc
  next hi => rw [erase_of_le (Nat.not_lt.mp hi)]

/-- An intersection is one of the words. -/
theorem words_inter (s t : LabelSet) :
    (s.inter t).words = combine (· &&& ·) s.words t.words := by
  rw [combine_words, inter, words_ofWords]
  intro k j hj hc
  rw [wordBit_and, wordBit_word_of_le hj hc, Bool.false_and]

/-- A difference is one of the words. -/
theorem words_diff (s t : LabelSet) :
    (s.diff t).words = combine (fun v w => v &&& ~~~w) s.words t.words := by
  rw [combine_words, diff, words_ofWords]
  intro k j hj hc
  rw [wordBit_and, wordBit_word_of_le hj hc, Bool.false_and]

/-! ### The cut of the last word -/

/-- The lowest bits of a word are those below a number. -/
theorem wordBit_lowBits {r : Nat} (hr : r ≤ 64) :
    wordBit (UInt64.ofNat (2 ^ r - 1)) j = decide (j < r) := by
  have hlt : 2 ^ r - 1 < 2 ^ 64 :=
    Nat.lt_of_lt_of_le (Nat.sub_lt (Nat.two_pow_pos r) Nat.one_pos)
      (Nat.pow_le_pow_right (by decide) hr)
  change ((2 ^ r - 1) % 2 ^ 64).testBit j = _
  rw [Nat.mod_eq_of_lt hlt, Nat.testBit_two_pow_sub_one]

/-- Only the last word can hold bits above the capacity, and only if it is a partial one. -/
theorem clearExcess_map (f : Nat → UInt64) (c : Nat) :
    clearExcess c ((List.range (wordCount c)).map f) = (ofWords c f).words := by
  have hwhole : ∀ k, 64 * (k + 1) ≤ c → f k &&& wordMask c k = f k := by
    refine fun k hk => word_eq_of_wordBit_eq fun j hj => ?_
    rw [wordBit_and, wordBit_wordMask, decide_eq_true hj, decide_eq_true (by omega),
      Bool.and_self, Bool.and_true]
  have hpartial : ∀ k, c % 64 ≠ 0 → k = wordCount c - 1 →
      f k &&& UInt64.ofNat (2 ^ (c % 64) - 1) = f k &&& wordMask c k := by
    intro k hc hk
    refine word_eq_of_wordBit_eq fun j hj => ?_
    have hiff : j < c % 64 ↔ 64 * k + j < c := by unfold wordCount at hk; omega
    rw [wordBit_and, wordBit_and, wordBit_lowBits (by omega), wordBit_wordMask, decide_eq_true hj,
      Bool.true_and, decide_eq_decide.mpr hiff]
  rw [clearExcess]
  split
  next hc =>
    refine List.map_congr_left fun k hk => (hwhole k ?_).symm
    have := List.mem_range.mp hk
    unfold wordCount at this
    omega
  next hc =>
    refine List.ext_getElem (by simp [ofWords, cutWords]) fun k hk _ => ?_
    rw [List.length_modify, List.length_map, List.length_range] at hk
    simp only [List.getElem_modify, List.length_map, List.length_range, List.getElem_map,
      List.getElem_range, ofWords, cutWords]
    split
    next hlast => exact hpartial k hc hlast.symm
    next hlast => exact (hwhole k (by unfold wordCount at hk hlast; omega)).symm

/-- A full set has all bits but those in excess. -/
theorem words_full (c : Nat) :
    (full c).words = clearExcess c (List.replicate (wordCount c) (~~~0)) := by
  have hones : List.replicate (wordCount c) (~~~0) =
      (List.range (wordCount c)).map fun _ => (~~~0 : UInt64) := by
    rw [List.map_const', List.length_range]
  rw [hones, clearExcess_map]
  refine congrArg words (ext_mem rfl fun i => ?_)
  have hmod : i % 64 < 64 := Nat.mod_lt _ (by decide)
  rw [mem_full, mem_ofWords, wordBit_not, wordBit_zero, decide_eq_true hmod]
  simp

/-- A union is one of the words, with the bits in excess cleared. -/
theorem words_union (s t : LabelSet) :
    (s.union t).words = clearExcess s.capacity (combine (· ||| ·) s.words t.words) := by
  rw [combine_words, clearExcess_map]
  rfl

/-! ### Reading a word off from its lowest bit -/

/-- Taking one away clears the lowest set bit and leaves those above it as they are. -/
theorem testBit_and_pred {n l : Nat} (hlow : ∀ i < l, n.testBit i = false)
    (hl : n.testBit l = true) (i : Nat) :
    (n &&& (n - 1)).testBit i = (decide (l < i) && n.testBit i) := by
  have hmod : n % 2 ^ l = 0 := Nat.eq_of_testBit_eq fun i => by
    rw [Nat.testBit_mod_two_pow, Nat.zero_testBit]
    by_cases hi : i < l
    · rw [hlow i hi, Bool.and_false]
    · rw [decide_eq_false hi, Bool.false_and]
  have hodd : n / 2 ^ l % 2 = 1 := by
    rw [Nat.mod_two_eq_one_iff_testBit_zero, Nat.testBit_div_two_pow, Nat.zero_add, hl]
  obtain ⟨q, hq⟩ : ∃ q, n / 2 ^ l = 2 * q + 1 := ⟨n / 2 ^ l / 2, by omega⟩
  have hn : n = 2 ^ l * (2 * q + 1) := by
    rw [← hq, Nat.mul_div_cancel' (Nat.dvd_of_mod_eq_zero hmod)]
  have hpred : n - 1 = 2 ^ l * (2 * q) + (2 ^ l - 1) := by
    have := Nat.two_pow_pos l
    rw [hn, Nat.mul_add, Nat.mul_one]
    omega
  rw [Nat.testBit_and]
  rcases Nat.lt_trichotomy i l with hi | rfl | hi
  · rw [hlow i hi, Bool.false_and, Bool.and_false]
  · rw [hpred, Nat.testBit_two_pow_mul_add _ (Nat.sub_lt (Nat.two_pow_pos i) Nat.one_pos)]
    simp
  · obtain ⟨m, rfl⟩ := Nat.exists_eq_add_of_lt hi
    rw [hpred, Nat.testBit_two_pow_mul_add _ (Nat.sub_lt (Nat.two_pow_pos l) Nat.one_pos), hn,
      Nat.testBit_two_pow_mul, if_neg (by omega), Nat.add_assoc, Nat.add_sub_cancel_left,
      Nat.testBit_succ, Nat.testBit_succ, Nat.mul_div_cancel_left q Nat.two_pos,
      Nat.mul_add_div Nat.two_pos]
    simp

/-- Where a word is not zero, one less than it does not wrap around. -/
theorem toNat_sub_one {w : UInt64} (hw : w ≠ 0) : 0 < w.toNat ∧ (w - 1).toNat = w.toNat - 1 := by
  have hpos : 0 < w.toNat := Nat.pos_of_ne_zero fun h => hw (UInt64.toNat_inj.mp h)
  exact ⟨hpos, UInt64.toNat_sub_of_le _ _ (UInt64.le_iff_toNat_le.mpr hpos)⟩

/-- The positions of the set bits of a word, the lowest read and cleared again and again. -/
def drained (w : UInt64) : List Nat :=
  if w = 0 then [] else w.toBitVec.ctz.toNat :: drained (w &&& (w - 1))
termination_by w.toNat
decreasing_by
  rename_i hw
  obtain ⟨hpos, hpred⟩ := toNat_sub_one hw
  have hle : (w &&& (w - 1)).toNat ≤ (w - 1).toNat := UInt64.toNat_and .. ▸ Nat.and_le_right
  omega

/-- The lowest bit of a word is set. -/
theorem wordBit_ctz {w : UInt64} (hw : w ≠ 0) : wordBit w w.toBitVec.ctz.toNat = true :=
  BitVec.getLsbD_true_ctz_of_ne_zero fun h => hw (UInt64.toBitVec_inj.mp h)

/-- **Clearing the lowest bit leaves the bits above it.** -/
theorem wordBit_and_pred {w : UInt64} (hw : w ≠ 0) (j : Nat) :
    wordBit (w &&& (w - 1)) j = (decide (w.toBitVec.ctz.toNat < j) && wordBit w j) := by
  have h := testBit_and_pred (n := w.toNat) (fun i hi => BitVec.getLsbD_false_of_lt_ctz hi)
    (wordBit_ctz hw) j
  rwa [← (toNat_sub_one hw).2, ← UInt64.toNat_and] at h

/-- A word has 64 bits. -/
theorem lt_of_wordBit {w : UInt64} (h : wordBit w j = true) : j < 64 := BitVec.lt_of_getLsbD h

/-- **Reading a word off finds its set bits in ascending order.** -/
theorem drained_eq_bitsOf (w : UInt64) : drained w = bitsOf w := by
  induction w using drained.induct with
  | case1 => rw [drained, if_pos rfl]; rfl
  | case2 w hw ih =>
    rw [drained, if_neg hw, ih]
    refine eq_of_pairwise_lt (List.pairwise_cons.mpr ⟨fun j hj => ?_, pairwise_bitsOf _⟩)
      (pairwise_bitsOf w) fun j => ?_
    · rw [mem_bitsOf, wordBit_and_pred hw, Bool.and_eq_true, decide_eq_true_iff] at hj
      exact hj.2.1
    · rw [List.mem_cons, mem_bitsOf, mem_bitsOf, wordBit_and_pred hw, Bool.and_eq_true,
        decide_eq_true_iff]
      constructor
      · rintro (rfl | ⟨hj, -, hbit⟩)
        · exact ⟨lt_of_wordBit (wordBit_ctz hw), wordBit_ctz hw⟩
        · exact ⟨hj, hbit⟩
      · rintro ⟨hj, hbit⟩
        rcases Nat.lt_trichotomy w.toBitVec.ctz.toNat j with h | h | h
        · exact Or.inr ⟨hj, h, hbit⟩
        · exact Or.inl h.symm
        · exact absurd hbit (by rw [wordBit, BitVec.getLsbD_false_of_lt_ctz h]; decide)

/-- **The members are those of the words in order, each read off from its lowest bit.** -/
theorem toList_eq_drained (s : LabelSet) :
    s.toList = s.words.zipIdx.flatMap fun (w, k) => (drained w).map (64 * k + ·) := by
  have hzip : s.words.zipIdx = (List.range (wordCount s.capacity)).map fun k => (s.word k, k) := by
    refine List.ext_getElem (by simp [s.length_words]) fun k hk _ => ?_
    rw [List.length_zipIdx] at hk
    rw [List.getElem_zipIdx, List.getElem_map, List.getElem_range, word_eq_getElem hk, Nat.zero_add]
  simp only [hzip, List.flatMap_map, drained_eq_bitsOf]
  rfl

end LabelSet
end StructuredFlow
