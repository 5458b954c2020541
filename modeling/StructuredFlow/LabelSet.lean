/-
# Sets of labels

The labels of a function are numbered from zero in program order; a label id is
that number.  A `LabelSet` holds label ids below a fixed capacity, packed into 64-bit words:
id `i` is bit `i % 64` of word `i / 64`.  There are exactly `wordCount capacity`
words and no bit at or above the capacity is set; both facts are fields of the
type, so two sets are equal exactly when their capacities and members are.

| operation | members afterwards |
| --- | --- |
| `empty c`, `full c` | none, every id below `c` |
| `insert s i`, `erase s i` | those of `s` with, without `i` |
| `union s t`, `inter s t`, `diff s t` | `s ∪ t`, `s ∩ t`, `s \ t` |

Every result is cut to the capacity of the first set, also when the second set
is larger.  The functions `…Alters` answer whether an operation changes a word
of the first set; they look at whole words, before the cut.
-/

namespace StructuredFlow

/-- The text of a label id in messages: `L3`. -/
def labelText (id : Nat) : String := s!"L{id}"

/-- Number of 64-bit words that hold `capacity` bits. -/
def wordCount (capacity : Nat) : Nat := (capacity + 63) / 64

/-- Bit `j` of a word, counted from the least; false from 64 on. -/
def wordBit (w : UInt64) (j : Nat) : Bool := w.toBitVec.getLsbD j

/-- Bit `i` of a list of words, the first word holding bits 0 to 63; bits past
the last word are clear. -/
def bitAt (words : List UInt64) (i : Nat) : Bool := wordBit (words.getD (i / 64) 0) (i % 64)

/-- A set of label ids below `capacity`. -/
structure LabelSet where
  /-- One more than the largest id the set can hold. -/
  capacity : Nat
  /-- The packed members. -/
  words : List UInt64
  /-- The words cover the capacity and nothing more. -/
  length_words : words.length = wordCount capacity
  /-- No id at or above the capacity is a member. -/
  bitAt_of_le : ∀ i, capacity ≤ i → bitAt words i = false
deriving DecidableEq

namespace LabelSet

/-- The word whose only set bit is bit `j`. -/
def bitMask (j : Nat) : UInt64 := UInt64.ofBitVec (BitVec.twoPow 64 j)

/-- The bits of word `k` that lie below `capacity`. -/
def wordMask (capacity k : Nat) : UInt64 :=
  UInt64.ofBitVec ((BitVec.allOnes (min 64 (capacity - 64 * k))).setWidth 64)

@[simp] theorem wordBit_zero (j : Nat) : wordBit 0 j = false := by simp [wordBit]

@[simp] theorem wordBit_or (v w : UInt64) (j : Nat) :
    wordBit (v ||| w) j = (wordBit v j || wordBit w j) := by simp [wordBit]

@[simp] theorem wordBit_and (v w : UInt64) (j : Nat) :
    wordBit (v &&& w) j = (wordBit v j && wordBit w j) := by simp [wordBit]

@[simp] theorem wordBit_not (w : UInt64) (j : Nat) :
    wordBit (~~~w) j = (decide (j < 64) && !wordBit w j) := by
  by_cases h : j < 64 <;> simp [wordBit, h]

@[simp] theorem wordBit_bitMask (i j : Nat) :
    wordBit (bitMask i) j = (decide (i < 64) && decide (i = j)) := by
  simp [wordBit, bitMask, BitVec.getLsbD_twoPow]

@[simp] theorem wordBit_wordMask (capacity k j : Nat) :
    wordBit (wordMask capacity k) j = (decide (j < 64) && decide (64 * k + j < capacity)) := by
  simp only [wordBit, wordMask, BitVec.getLsbD_setWidth, BitVec.getLsbD_allOnes]
  by_cases h : j < 64
  · simp only [h, decide_true, Bool.true_and, decide_eq_decide]
    omega
  · simp [h]

/-- Words with the same 64 bits are equal. -/
theorem word_eq_of_wordBit_eq {v w : UInt64} (h : ∀ j < 64, wordBit v j = wordBit w j) : v = w :=
  UInt64.toBitVec_inj.mp (BitVec.eq_of_getLsbD_eq h)

/-- The words `f 0, f 1, …` cut to `capacity`. -/
def cutWords (capacity : Nat) (f : Nat → UInt64) : List UInt64 :=
  (List.range (wordCount capacity)).map fun k => f k &&& wordMask capacity k

/-- The bits of words that were cut: those below the capacity stay. -/
theorem bitAt_cutWords (capacity : Nat) (f : Nat → UInt64) (i : Nat) :
    bitAt (cutWords capacity f) i = (decide (i < capacity) && wordBit (f (i / 64)) (i % 64)) := by
  have hmod : i % 64 < 64 := Nat.mod_lt _ (by decide)
  have hsum : 64 * (i / 64) + i % 64 = i := Nat.div_add_mod i 64
  unfold bitAt cutWords
  by_cases hk : i / 64 < wordCount capacity
  · rw [List.getD_eq_getElem?_getD, List.getElem?_map, List.getElem?_range hk]
    simp [hmod, hsum, Bool.and_comm]
  · have h : ¬i < capacity := by unfold wordCount at hk; omega
    rw [List.getD_eq_getElem?_getD, List.getElem?_eq_none (by simpa using hk)]
    simp [h]

/-- The set whose words are `f 0, f 1, …`, cut to `capacity`. -/
def ofWords (capacity : Nat) (f : Nat → UInt64) : LabelSet where
  capacity := capacity
  words := cutWords capacity f
  length_words := by simp [cutWords]
  bitAt_of_le i h := by simp [bitAt_cutWords, Nat.not_lt.mpr h]

/-- The `k`-th word of a set, zero past the end. -/
def word (s : LabelSet) (k : Nat) : UInt64 := s.words.getD k 0

/-- Tests whether an id is a member; ids at or above the capacity never are. -/
def contains (s : LabelSet) (i : Nat) : Bool := bitAt s.words i

instance : Membership Nat LabelSet := ⟨fun s i => s.contains i = true⟩

instance (i : Nat) (s : LabelSet) : Decidable (i ∈ s) :=
  inferInstanceAs (Decidable (s.contains i = true))

/-- The set without members. -/
def empty (capacity : Nat) : LabelSet := ofWords capacity fun _ => 0

/-- The set of every id below the capacity. -/
def full (capacity : Nat) : LabelSet := ofWords capacity (wordMask capacity)

/-- Adds one id; an id at or above the capacity is ignored. -/
def insert (s : LabelSet) (i : Nat) : LabelSet :=
  ofWords s.capacity fun k => if k = i / 64 then s.word k ||| bitMask (i % 64) else s.word k

/-- Removes one id. -/
def erase (s : LabelSet) (i : Nat) : LabelSet :=
  ofWords s.capacity fun k => if k = i / 64 then s.word k &&& ~~~bitMask (i % 64) else s.word k

/-- The ids of a list that lie below the capacity. -/
def ofIds (capacity : Nat) (ids : List Nat) : LabelSet := ids.foldl insert (empty capacity)

/-- The set of one id. -/
def single (capacity : Nat) (i : Nat) : LabelSet := ofIds capacity [i]

/-- Adds the members of `t` that lie below the capacity of `s`. -/
def union (s t : LabelSet) : LabelSet := ofWords s.capacity fun k => s.word k ||| t.word k

/-- Keeps the members of `s` that are in `t`. -/
def inter (s t : LabelSet) : LabelSet := ofWords s.capacity fun k => s.word k &&& t.word k

/-- Removes the members of `t` from `s`. -/
def diff (s t : LabelSet) : LabelSet := ofWords s.capacity fun k => s.word k &&& ~~~t.word k

/-- Removes every member and keeps the capacity. -/
def clear (s : LabelSet) : LabelSet := empty s.capacity

/-- Tests whether `insert s i` adds a member. -/
def insertAlters (s : LabelSet) (i : Nat) : Bool := decide (i < s.capacity) && !s.contains i

/-- Tests whether `erase s i` removes a member. -/
def eraseAlters (s : LabelSet) (i : Nat) : Bool := s.contains i

/-- Tests whether some word of `s` differs from what `f` puts in its place. -/
def altersWord (s : LabelSet) (f : Nat → UInt64) : Bool :=
  (List.range (wordCount s.capacity)).any fun k => f k != s.word k

/-- Tests whether joining the words of `t` into those of `s` changes a word, bits
above the capacity of `s` included. -/
def unionAlters (s t : LabelSet) : Bool := s.altersWord fun k => s.word k ||| t.word k

/-- Tests whether keeping only the words of `t` changes a word of `s`. -/
def interAlters (s t : LabelSet) : Bool := s.altersWord fun k => s.word k &&& t.word k

/-- Tests whether clearing the words of `t` changes a word of `s`. -/
def diffAlters (s t : LabelSet) : Bool := s.altersWord fun k => s.word k &&& ~~~t.word k

/-- Tests whether no word of the one set meets the word of the other. -/
def disjoint (s t : LabelSet) : Bool :=
  (List.range (wordCount s.capacity)).all fun k => s.word k &&& t.word k == 0

/-- Tests whether every word of `s` lies within that of `t`. -/
def subset (s t : LabelSet) : Bool :=
  (List.range (wordCount s.capacity)).all fun k => s.word k &&& ~~~t.word k == 0

/-- Tests whether every word is zero. -/
def isEmpty (s : LabelSet) : Bool := s.words.all (· == 0)

/-- The positions of the set bits of a word, ascending. -/
def bitsOf (w : UInt64) : List Nat := (List.range 64).filter (wordBit w)

/-- The members, ascending. -/
def toList (s : LabelSet) : List Nat :=
  (List.range (wordCount s.capacity)).flatMap fun k => (bitsOf (s.word k)).map (64 * k + ·)

/-- The number of set bits of a word. -/
def popCount (w : UInt64) : Nat := (List.range 64).countP (wordBit w)

/-- The number of members. -/
def size (s : LabelSet) : Nat := s.words.foldr (fun w n => popCount w + n) 0

/-- The smallest member. -/
def first? (s : LabelSet) : Option Nat := s.toList.head?

/-- The members in braces: `{L1, L64}`. -/
def text (s : LabelSet) : String :=
  "\x7b" ++ String.intercalate ", " (s.toList.map labelText) ++ "\x7d"

/-! ### Membership after each operation -/

/-- Members are what the test for them accepts. -/
theorem mem_def {s : LabelSet} {i : Nat} : i ∈ s ↔ s.contains i = true := Iff.rfl

/-- The bit of an id is in the word of its block of 64. -/
theorem contains_eq_wordBit (s : LabelSet) (i : Nat) :
    s.contains i = wordBit (s.word (i / 64)) (i % 64) := rfl

/-- Members are below the capacity. -/
theorem lt_capacity_of_mem {s : LabelSet} {i : Nat} (h : i ∈ s) : i < s.capacity := by
  by_cases hi : i < s.capacity
  · exact hi
  · rw [mem_def, contains, s.bitAt_of_le i (Nat.not_lt.mp hi)] at h
    exact absurd h (by decide)

/-- The members of a set made of words are the bits below the capacity. -/
theorem mem_ofWords {c : Nat} {f : Nat → UInt64} {i : Nat} :
    i ∈ ofWords c f ↔ i < c ∧ wordBit (f (i / 64)) (i % 64) = true := by
  rw [mem_def, contains, ofWords, bitAt_cutWords, Bool.and_eq_true, decide_eq_true_iff]

/-- Members are the bits of words, and below the capacity. -/
theorem mem_iff_wordBit {s : LabelSet} {i : Nat} :
    i ∈ s ↔ i < s.capacity ∧ wordBit (s.word (i / 64)) (i % 64) = true :=
  ⟨fun h => ⟨lt_capacity_of_mem h, h⟩, fun h => h.2⟩

@[simp] theorem not_mem_empty {c : Nat} {i : Nat} : i ∉ empty c := by
  simp [empty, mem_ofWords]

@[simp] theorem mem_full {c : Nat} {i : Nat} : i ∈ full c ↔ i < c := by
  have hmod : i % 64 < 64 := Nat.mod_lt _ (by decide)
  simp [full, mem_ofWords, hmod, Nat.div_add_mod]

@[simp] theorem mem_insert {s : LabelSet} {i j : Nat} :
    j ∈ s.insert i ↔ j ∈ s ∨ j = i ∧ i < s.capacity := by
  have hi : i % 64 < 64 := Nat.mod_lt _ (by decide)
  rw [insert, mem_ofWords, mem_iff_wordBit]
  by_cases h : j = i
  · subst h
    by_cases hc : j < s.capacity <;> simp [hi, hc]
  · by_cases hk : j / 64 = i / 64
    · have hm : ¬i % 64 = j % 64 := fun hm => h (by omega)
      simp [h, hk, hm]
    · simp [h, hk]

@[simp] theorem mem_erase {s : LabelSet} {i j : Nat} : j ∈ s.erase i ↔ j ∈ s ∧ j ≠ i := by
  have hi : i % 64 < 64 := Nat.mod_lt _ (by decide)
  have hj : j % 64 < 64 := Nat.mod_lt _ (by decide)
  rw [erase, mem_ofWords, mem_iff_wordBit]
  by_cases h : j = i
  · subst h
    simp [hi]
  · by_cases hk : j / 64 = i / 64
    · have hm : ¬i % 64 = j % 64 := fun hm => h (by omega)
      simp [h, hk, hm, hj]
    · simp [h, hk]

@[simp] theorem mem_union {s t : LabelSet} {i : Nat} :
    i ∈ s.union t ↔ i < s.capacity ∧ (i ∈ s ∨ i ∈ t) := by
  rw [union, mem_ofWords, wordBit_or, Bool.or_eq_true]
  rfl

@[simp] theorem mem_inter {s t : LabelSet} {i : Nat} : i ∈ s.inter t ↔ i ∈ s ∧ i ∈ t := by
  rw [inter, mem_ofWords, wordBit_and, Bool.and_eq_true, ← and_assoc, ← mem_iff_wordBit]
  rfl

@[simp] theorem mem_diff {s t : LabelSet} {i : Nat} : i ∈ s.diff t ↔ i ∈ s ∧ i ∉ t := by
  have hmod : i % 64 < 64 := Nat.mod_lt _ (by decide)
  rw [diff, mem_ofWords, wordBit_and, Bool.and_eq_true, ← and_assoc, ← mem_iff_wordBit]
  simp [hmod, mem_def, contains_eq_wordBit]

/-- **A set is its capacity and its members.** -/
theorem ext_mem {s t : LabelSet} (hc : s.capacity = t.capacity) (h : ∀ i, i ∈ s ↔ i ∈ t) :
    s = t := by
  have hw : s.words = t.words := by
    refine List.ext_getElem (by rw [s.length_words, t.length_words, hc]) fun k hs ht => ?_
    refine word_eq_of_wordBit_eq fun j hj => ?_
    have := h (64 * k + j)
    rw [mem_def, mem_def, contains_eq_wordBit, contains_eq_wordBit,
      show (64 * k + j) / 64 = k by omega, show (64 * k + j) % 64 = j by omega] at this
    have hsk : s.word k = s.words[k] := by simp [word, List.getD_eq_getElem?_getD, hs]
    have htk : t.word k = t.words[k] := by simp [word, List.getD_eq_getElem?_getD, ht]
    rw [hsk, htk] at this
    exact Bool.eq_iff_iff.mpr this
  cases s
  cases t
  obtain rfl : _ = _ := hc
  obtain rfl : _ = _ := hw
  rfl

/-! ### Room left in a set -/

/-- The number of ids below the capacity that are not members. -/
def room (s : LabelSet) : Nat := (List.range s.capacity).countP fun i => !s.contains i

/-- **A new member takes room**: what only inserts ends. -/
theorem room_insert_lt {s : LabelSet} {i : Nat} (hi : i < s.capacity) (hn : i ∉ s) :
    (s.insert i).room < s.room := by
  have hsub : ∀ j, (!(s.insert i).contains j) = true → (!s.contains j) = true := by
    intro j hj
    simp only [Bool.not_eq_true', ← Bool.not_eq_true] at hj ⊢
    exact fun h => hj (mem_insert.mpr (Or.inl h))
  have hsplit : List.range s.capacity =
      List.range i ++ i :: (List.range s.capacity).drop (i + 1) := by
    have hd := List.drop_eq_getElem_cons (l := List.range s.capacity) (i := i) (by simpa using hi)
    rw [List.getElem_range] at hd
    rw [← hd, ← Nat.min_eq_left (Nat.le_of_lt hi), ← List.take_range,
      Nat.min_eq_left (Nat.le_of_lt hi),
      List.take_append_drop]
  unfold room
  change (List.range s.capacity).countP _ < _
  rw [hsplit, List.countP_append, List.countP_append, List.countP_cons, List.countP_cons]
  have h₁ := List.countP_mono_left (l := List.range i) fun j _ => hsub j
  have h₂ := List.countP_mono_left (l := (List.range s.capacity).drop (i + 1)) fun j _ => hsub j
  have hin : (!(s.insert i).contains i) = false := by
    simpa using mem_def.mp (mem_insert.mpr (Or.inr ⟨rfl, hi⟩))
  have hout : (!s.contains i) = true := by simpa [mem_def] using hn
  rw [if_neg (by simp [hin]), if_pos hout]
  omega

end LabelSet

end StructuredFlow
