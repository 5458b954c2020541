/-
# Named sets do what finite sets do

An `IdSet` is a finite set of ids with the capacity below which they are kept.  What a
step makes of finite sets is said with the operations of sets alone, and the result is cut
to the capacity of the subject (`Step.ideal?`).  A label set `Represents` a finite set if
each of its tests and listings gives what the finite set has; the capacity and the members
suffice for that (`Represents.of_mem`).

So each step keeps the bank in step with the finite sets (`rel_outcome`), and with it any
number of steps (`represents_run`).  Whether a union, an intersection or a difference
reports a change is left open here.
-/

import StructuredFlow.LabelSet.Bank
import StructuredFlow.Proofs.LabelSet.Words

namespace StructuredFlow
namespace LabelSet

/-! ### Finite sets of ids -/

/-- A finite set of ids and the capacity below which they are kept. -/
structure IdSet where
  /-- One more than the largest id that is kept. -/
  capacity : Nat
  /-- The ids. -/
  ids : Finset Nat
deriving DecidableEq

/-- The ids below a capacity. -/
def IdSet.cut (capacity : Nat) (ids : Finset Nat) : IdSet := ⟨capacity, ids.filter (· < capacity)⟩

/-- What is cut holds the ids below the capacity. -/
@[simp] theorem IdSet.mem_cut {c i : Nat} {ids : Finset Nat} :
    i ∈ (IdSet.cut c ids).ids ↔ i ∈ ids ∧ i < c := Finset.mem_filter

/-- What a step makes of finite sets: its subject afterwards and the answer, as far as it is
determined; `none` if the step needs a set that there is not. -/
def Step.ideal? (sets : String → Option IdSet) : Step → Option (IdSet × Option Bool)
  | .new _ capacity => some (.cut capacity ∅, none)
  | .full _ capacity => some (.cut capacity (Finset.range capacity), none)
  | .ofIds _ capacity ids => some (.cut capacity ids.toFinset, none)
  | .copy _ b => do return (← sets b, none)
  | .clear a => do return (.cut (← sets a).capacity ∅, none)
  | .insert a id => do
    let s ← sets a
    let after := IdSet.cut s.capacity (s.ids ∪ {id})
    return (after, some (decide (after.ids ≠ s.ids)))
  | .remove a id => do
    let s ← sets a
    let after := IdSet.cut s.capacity (s.ids.erase id)
    return (after, some (decide (after.ids ≠ s.ids)))
  | .contains a id => do
    let s ← sets a
    return (s, some (decide (id ∈ s.ids)))
  | .union a b => do
    let s ← sets a
    return (.cut s.capacity (s.ids ∪ (← sets b).ids), none)
  | .inter a b => do
    let s ← sets a
    return (.cut s.capacity (s.ids ∩ (← sets b).ids), none)
  | .diff a b => do
    let s ← sets a
    return (.cut s.capacity (s.ids \ (← sets b).ids), none)
  | .disjoint a b => do
    let s ← sets a
    return (s, some (decide (Disjoint s.ids (← sets b).ids)))
  | .subset a b => do
    let s ← sets a
    return (s, some (decide (s.ids ⊆ (← sets b).ids)))
  | .equal a b => do
    let s ← sets a
    let t ← sets b
    return (s, some (decide (s.capacity = t.capacity ∧ s.ids = t.ids)))

/-! ### What a label set says of its members -/

/-- The words, the tests and the listings of a label set are those of a finite set. -/
structure Represents (s : LabelSet) (m : IdSet) : Prop where
  /-- The capacities agree. -/
  capacity : s.capacity = m.capacity
  /-- There are as many words as the capacity takes. -/
  words : s.words.length = m.capacity ⌈/⌉ 64
  /-- No bit at or above the capacity is set. -/
  excess : ∀ k w, s.words[k]? = some w → ∀ j, wordBit w j = true → 64 * k + j < m.capacity
  /-- An id is contained if it is a member. -/
  contains : ∀ i, s.contains i = decide (i ∈ m.ids)
  /-- The size is the number of members. -/
  size : s.size = m.ids.card
  /-- The set is empty if it has no members. -/
  isEmpty : s.isEmpty = decide (m.ids = ∅)
  /-- The first is the smallest member. -/
  first : ∀ i, s.first? = some i ↔ i ∈ m.ids ∧ ∀ j ∈ m.ids, i ≤ j
  /-- The listing goes through the words, reading each off from its lowest bit. -/
  iterated : s.toList = s.words.zipIdx.flatMap fun (w, k) => (drained w).map (64 * k + ·)
  /-- It ascends strictly. -/
  ascending : s.toList.Pairwise (· < ·)
  /-- It is complete. -/
  complete : ∀ i, i ∈ s.toList ↔ i ∈ m.ids

variable {s t : LabelSet} {m m' : IdSet} {c i : Nat} {ids : Finset Nat}

/-- A label set has the members that it represents. -/
theorem Represents.mem_iff (h : s.Represents m) : i ∈ s ↔ i ∈ m.ids := by
  rw [mem_def, h.contains, decide_eq_true_iff]

/-- The first of an ascending list is its least. -/
theorem head?_eq_some_iff {l : List Nat} (h : l.Pairwise (· < ·)) :
    l.head? = some i ↔ i ∈ l ∧ ∀ j ∈ l, i ≤ j := by
  cases l with
  | nil => simp
  | cons a l =>
    have hle : ∀ j ∈ a :: l, a ≤ j :=
      List.forall_mem_cons.mpr ⟨Nat.le_refl a, fun j hj => (List.rel_of_pairwise_cons h hj).le⟩
    rw [List.head?_cons, Option.some.injEq]
    constructor
    · rintro rfl
      exact ⟨List.mem_cons_self, hle⟩
    · exact fun hi => Nat.le_antisymm (hle i hi.1) (hi.2 a List.mem_cons_self)

/-- **The capacity and the members say everything of a label set.** -/
theorem Represents.of_mem (hc : s.capacity = m.capacity) (h : ∀ i, i ∈ s ↔ i ∈ m.ids) :
    s.Represents m where
  capacity := hc
  words := by
    rw [s.length_words, wordCount, hc, Nat.ceilDiv_eq_add_pred_div]
    rfl
  excess k w hw j hj := by
    have hword : s.word k = w := by rw [word, List.getD_eq_getElem?_getD, hw, Option.getD_some]
    rw [← hword] at hj
    exact hc ▸ lt_capacity_of_mem ((mem_iff_bit (lt_of_wordBit hj)).mpr hj)
  contains i := by
    rw [Bool.eq_iff_iff, decide_eq_true_iff]
    exact h i
  size := by rw [size_eq_card, Finset.ext fun i => mem_toFinset.trans (h i)]
  isEmpty := by
    rw [Bool.eq_iff_iff, isEmpty_iff, decide_eq_true_iff, Finset.eq_empty_iff_forall_notMem]
    exact forall_congr' fun i => not_congr (h i)
  first i := by
    rw [first?, head?_eq_some_iff (pairwise_toList s)]
    simp only [mem_toList, h]
  iterated := toList_eq_drained s
  ascending := pairwise_toList s
  complete i := mem_toList.trans (h i)

/-- Cut to the capacity of the label set, ids are represented if it holds those of them that are
left. -/
theorem Represents.cut (hc : s.capacity = c) (h : ∀ i, i ∈ s ↔ i ∈ ids ∧ i < c) :
    s.Represents (.cut c ids) :=
  .of_mem hc fun i => (h i).trans IdSet.mem_cut.symm

/-- What is represented lies below its capacity already. -/
theorem Represents.lt_capacity (h : s.Represents m) (hi : i ∈ m.ids) : i < m.capacity :=
  h.capacity ▸ lt_capacity_of_mem (h.mem_iff.mpr hi)

/-- Label sets are equal exactly if what they represent is. -/
theorem Represents.eq_iff (h : s.Represents m) (h' : t.Represents m') :
    s = t ↔ m.capacity = m'.capacity ∧ m.ids = m'.ids := by
  rw [← h.capacity, ← h'.capacity, Finset.ext_iff]
  simp only [← h.mem_iff, ← h'.mem_iff]
  constructor
  · rintro rfl
    exact ⟨rfl, fun _ => Iff.rfl⟩
  · exact fun h => ext_mem h.1 h.2

/-! ### Steps -/

/-- An answer is the one that is determined, if one is. -/
def Answers (answer ideal : Option Bool) : Prop := ∀ b, ideal = some b → answer = some b

/-- A test answers what the finite sets do if it holds exactly where that holds. -/
theorem Answers.of_iff {a : Bool} {p : Prop} [Decidable p] (h : a = true ↔ p) :
    Answers (some a) (some (decide p)) := by
  rintro b hb
  rw [← hb, Option.some.injEq, Bool.eq_iff_iff, decide_eq_true_iff]
  exact h

/-- Where no answer is determined any will do. -/
theorem Answers.none (answer : Option Bool) : Answers answer .none := by
  rintro b hb
  exact absurd hb (by simp)

/-- A step leaves its subject representing the finite set, and answers as it does. -/
def Agrees (outcome : LabelSet × Option Bool) (ideal : IdSet × Option Bool) : Prop :=
  outcome.1.Represents ideal.1 ∧ Answers outcome.2 ideal.2

/-- Steps that go on alike from related results have related results. -/
theorem rel_bind {α β γ δ : Type} {R : α → β → Prop} {S : γ → δ → Prop} {x : Option α}
    {y : Option β} {f : α → Option γ} {g : β → Option δ} (h : Option.Rel R x y)
    (hf : ∀ a b, R a b → Option.Rel S (f a) (g b)) : Option.Rel S (x >>= f) (y >>= g) := by
  cases h with
  | none => exact .none
  | some h => exact hf _ _ h

/-- The sets of a bank represent finite sets, name by name. -/
def Bank.Matches (bank : Bank) (sets : String → Option IdSet) : Prop :=
  ∀ name, Option.Rel Represents (bank.get? name) (sets name)

/-- An insertion answers whether it changed the members. -/
theorem insertAlters_iff (h : s.Represents m) (i : Nat) :
    s.insertAlters i = true ↔ (IdSet.cut m.capacity (m.ids ∪ {i})).ids ≠ m.ids := by
  rw [insertAlters, Bool.and_eq_true, decide_eq_true_iff, Bool.not_eq_true', contains_eq_false_iff,
    h.mem_iff, h.capacity]
  constructor
  · rintro ⟨hi, hn⟩ heq
    exact hn (heq ▸ IdSet.mem_cut.mpr ⟨by simp, hi⟩)
  · refine fun hne => Decidable.byContradiction fun hno => hne (Finset.ext fun j => ?_)
    rw [IdSet.mem_cut, Finset.mem_union, Finset.mem_singleton]
    constructor
    · rintro ⟨hj | rfl, hlt⟩
      · exact hj
      · exact Decidable.byContradiction fun hn => hno ⟨hlt, hn⟩
    · exact fun hj => ⟨Or.inl hj, h.lt_capacity hj⟩

/-- A removal answers whether it changed the members. -/
theorem eraseAlters_iff (h : s.Represents m) (i : Nat) :
    s.eraseAlters i = true ↔ (IdSet.cut m.capacity (m.ids.erase i)).ids ≠ m.ids := by
  rw [eraseAlters, contains_iff_mem, h.mem_iff]
  constructor
  · intro hi heq
    rw [← heq] at hi
    exact Finset.notMem_erase i m.ids (IdSet.mem_cut.mp hi).1
  · refine fun hne => Decidable.byContradiction fun hno => hne (Finset.ext fun j => ?_)
    rw [IdSet.mem_cut, Finset.erase_eq_of_notMem hno]
    exact and_iff_left_of_imp h.lt_capacity

/-- **A step does to a bank what it does to finite sets.** -/
theorem rel_outcome {bank : Bank} {sets : String → Option IdSet} (h : bank.Matches sets)
    (step : Step) : Option.Rel Agrees (step.outcome? bank) (step.ideal? sets) := by
  cases step with
  | new a capacity => exact .some ⟨.cut rfl fun i => by simp, .none _⟩
  | full a capacity => exact .some ⟨.cut rfl fun i => by simp, .none _⟩
  | ofIds a capacity ids => exact .some ⟨.cut (capacity_ofIds ..) fun i => by simp, .none _⟩
  | copy a b => exact rel_bind (h b) fun s m hs => .some ⟨hs, .none _⟩
  | clear a =>
    exact rel_bind (h a) fun s m hs => .some ⟨.cut hs.capacity fun i => by simp [clear], .none _⟩
  | insert a id =>
    refine rel_bind (h a) fun s m hs =>
      .some ⟨.cut hs.capacity fun i => ?_, .of_iff (insertAlters_iff hs id)⟩
    rw [mem_insert, hs.mem_iff, hs.capacity, Finset.mem_union, Finset.mem_singleton]
    constructor
    · rintro (hi | ⟨rfl, hi⟩)
      · exact ⟨Or.inl hi, hs.lt_capacity hi⟩
      · exact ⟨Or.inr rfl, hi⟩
    · rintro ⟨hi | rfl, hlt⟩
      · exact Or.inl hi
      · exact Or.inr ⟨rfl, hlt⟩
  | remove a id =>
    refine rel_bind (h a) fun s m hs =>
      .some ⟨.cut hs.capacity fun i => ?_, .of_iff (eraseAlters_iff hs id)⟩
    rw [mem_erase, hs.mem_iff, Finset.mem_erase, and_comm (a := i ≠ id)]
    exact (and_iff_left_of_imp fun hi => hs.lt_capacity hi.1).symm
  | contains a id => exact rel_bind (h a) fun s m hs => .some ⟨hs, .of_iff hs.mem_iff⟩
  | union a b =>
    refine rel_bind (h a) fun s m hs => rel_bind (h b) fun t m' ht =>
      .some ⟨.cut hs.capacity fun i => ?_, .none _⟩
    rw [mem_union, hs.mem_iff, ht.mem_iff, hs.capacity, Finset.mem_union, and_comm]
  | inter a b =>
    refine rel_bind (h a) fun s m hs => rel_bind (h b) fun t m' ht =>
      .some ⟨.cut hs.capacity fun i => ?_, .none _⟩
    rw [mem_inter, hs.mem_iff, ht.mem_iff, Finset.mem_inter]
    exact (and_iff_left_of_imp fun hi => hs.lt_capacity hi.1).symm
  | diff a b =>
    refine rel_bind (h a) fun s m hs => rel_bind (h b) fun t m' ht =>
      .some ⟨.cut hs.capacity fun i => ?_, .none _⟩
    rw [mem_diff, hs.mem_iff, ht.mem_iff, Finset.mem_sdiff]
    exact (and_iff_left_of_imp fun hi => hs.lt_capacity hi.1).symm
  | disjoint a b =>
    refine rel_bind (h a) fun s m hs => rel_bind (h b) fun t m' ht => .some ⟨hs, .of_iff ?_⟩
    simp only [disjoint_iff, Finset.disjoint_left, hs.mem_iff, ht.mem_iff]
  | subset a b =>
    refine rel_bind (h a) fun s m hs => rel_bind (h b) fun t m' ht => .some ⟨hs, .of_iff ?_⟩
    simp only [subset_iff, Finset.subset_iff, hs.mem_iff, ht.mem_iff]
  | equal a b =>
    refine rel_bind (h a) fun s m hs => rel_bind (h b) fun t m' ht => .some ⟨hs, .of_iff ?_⟩
    rw [decide_eq_true_iff, hs.eq_iff ht]

/-! ### The words that a step leaves -/

/-- Inserting ids sets their bits one after the other. -/
theorem words_foldl_insert (ids : List Nat) (s : LabelSet) :
    (ids.foldl insert s).words = ids.foldl (setBit s.capacity) s.words := by
  induction ids generalizing s with
  | nil => rfl
  | cons i ids ih => rw [List.foldl_cons, List.foldl_cons, ih, words_insert, capacity_insert]

/-- What the loop of a step over the words of its sets leaves. -/
def Step.loop? (bank : Bank) : Step → Option (List UInt64)
  | .new _ capacity => some (List.replicate (wordCount capacity) 0)
  | .full _ capacity => some (clearExcess capacity (List.replicate (wordCount capacity) (~~~0)))
  | .ofIds _ capacity ids =>
    some (ids.foldl (setBit capacity) (List.replicate (wordCount capacity) 0))
  | .copy _ b => do return (← bank.get? b).words
  | .clear a => do return (← bank.get? a).words.map fun _ => 0
  | .insert a id => do
    let s ← bank.get? a
    return setBit s.capacity s.words id
  | .remove a id => do
    let s ← bank.get? a
    return clearBit s.capacity s.words id
  | .union a b => do
    let s ← bank.get? a
    return clearExcess s.capacity (combine (· ||| ·) s.words (← bank.get? b).words)
  | .inter a b => do return combine (· &&& ·) (← bank.get? a).words (← bank.get? b).words
  | .diff a b => do return combine (fun v w => v &&& ~~~w) (← bank.get? a).words (← bank.get? b).words
  | .contains a _ => do return (← bank.get? a).words
  | .disjoint a b | .subset a b | .equal a b => do
    let s ← bank.get? a
    let _ ← bank.get? b
    return s.words

/-- To read words off behind a step is to read them off what it leads to. -/
theorem map_bind_congr {α β γ : Type} {x : Option α} {f : α → Option β} {g : α → Option γ}
    {words : β → γ} (h : ∀ a, (f a).map words = g a) : (x >>= f).map words = x >>= g := by
  cases x with
  | none => rfl
  | some a => exact h a

/-- **A step leaves the words that its loop writes.** -/
theorem words_outcome (bank : Bank) (step : Step) :
    ((step.outcome? bank).map fun outcome => outcome.1.words) = step.loop? bank := by
  cases step with
  | new a capacity => exact congrArg some (words_empty capacity)
  | full a capacity => exact congrArg some (words_full capacity)
  | ofIds a capacity ids =>
    refine congrArg some ((words_foldl_insert ids _).trans ?_)
    rw [words_empty]
    rfl
  | copy a b => exact map_bind_congr fun t => rfl
  | clear a =>
    refine map_bind_congr fun s => congrArg some ((words_empty s.capacity).trans ?_)
    rw [List.map_const', s.length_words]
  | insert a id => exact map_bind_congr fun s => congrArg some (words_insert s id)
  | remove a id => exact map_bind_congr fun s => congrArg some (words_erase s id)
  | contains a id => exact map_bind_congr fun s => rfl
  | union a b =>
    exact map_bind_congr fun s => map_bind_congr fun t => congrArg some (words_union s t)
  | inter a b =>
    exact map_bind_congr fun s => map_bind_congr fun t => congrArg some (words_inter s t)
  | diff a b => exact map_bind_congr fun s => map_bind_congr fun t => congrArg some (words_diff s t)
  | disjoint a b | subset a b | equal a b =>
    exact map_bind_congr fun s => map_bind_congr fun t => rfl

/-! ### Any number of steps -/

/-- Takes steps one after the other: the answers and what there is afterwards. -/
def takeAll {σ : Type} (take? : σ → Step → Option (Option Bool × σ)) :
    σ → List Step → Option (List (Option Bool) × σ)
  | start, [] => some ([], start)
  | start, step :: rest => do
    let (answer, after) ← take? start step
    let (answers, last) ← takeAll take? after rest
    return (answer :: answers, last)

/-- What each step of two keeps, and what their answers have in common, runs do. -/
theorem rel_takeAll {σ τ : Type} {R : σ → τ → Prop}
    {take? : σ → Step → Option (Option Bool × σ)} {take'? : τ → Step → Option (Option Bool × τ)}
    (hstep : ∀ a b, R a b → ∀ step, Option.Rel (fun x y => Answers x.1 y.1 ∧ R x.2 y.2)
      (take? a step) (take'? b step)) {a : σ} {b : τ} (h : R a b) (steps : List Step) :
    Option.Rel (fun x y => List.Forall₂ Answers x.1 y.1 ∧ R x.2 y.2)
      (takeAll take? a steps) (takeAll take'? b steps) := by
  induction steps generalizing a b with
  | nil => exact .some ⟨.nil, h⟩
  | cons step rest ih =>
    refine rel_bind (hstep a b h step) ?_
    rintro ⟨answer, after⟩ ⟨answer', after'⟩ ⟨hanswer, hafter⟩
    refine rel_bind (ih hafter) ?_
    rintro ⟨answers, last⟩ ⟨answers', last'⟩ ⟨hanswers, hlast⟩
    exact .some ⟨.cons hanswer hanswers, hlast⟩

/-- A step taken in a bank: the answer and the bank afterwards. -/
def Bank.take? (bank : Bank) (step : Step) : Option (Option Bool × Bank) :=
  (bank.step? step).map fun (answer, _, after) => (answer, after)

/-- A step taken with finite sets: the answer and the sets afterwards. -/
def idealTake? (sets : String → Option IdSet) (step : Step) :
    Option (Option Bool × (String → Option IdSet)) :=
  (step.ideal? sets).map fun (after, answer) =>
    (answer, Function.update sets step.subject (some after))

/-- A bank stays in step with the finite sets when a set is stored in both. -/
theorem Bank.Matches.put {bank : Bank} {sets : String → Option IdSet} (h : bank.Matches sets)
    (hs : s.Represents m) (name : String) :
    (bank.put name s).Matches (Function.update sets name (some m)) := by
  intro other
  by_cases ho : other = name
  · subst ho
    rw [get?_put_self, Function.update_self]
    exact .some hs
  · rw [get?_put_of_ne s ho, Function.update_of_ne ho]
    exact h other

/-- A step keeps a bank in step with finite sets. -/
theorem Bank.Matches.take? {bank : Bank} {sets : String → Option IdSet} (h : bank.Matches sets)
    (step : Step) : Option.Rel (fun x y => Answers x.1 y.1 ∧ Bank.Matches x.2 y.2)
      (bank.take? step) (idealTake? sets step) := by
  have hrel := rel_outcome h step
  unfold Bank.take? Bank.step? idealTake?
  generalize step.outcome? bank = outcome at hrel ⊢
  generalize step.ideal? sets = ideal at hrel ⊢
  cases hrel with
  | none => exact .none
  | some hagrees => exact .some ⟨hagrees.2, h.put hagrees.1 _⟩

/-- **Packed sets do what finite sets do, whatever their capacities.**  However many steps are
taken, from no sets at all: they are possible for a bank if they are for finite sets, they
give the answers that are determined, and each set of the bank then represents the finite
set of its name, cut to the capacity of its own.  Each step writes the words that its loop
over the words of its sets leaves. -/
theorem represents_run (steps : List Step) :
    Option.Rel (fun run ideal => List.Forall₂ Answers run.1 ideal.1 ∧
        ∀ name, Option.Rel Represents (run.2.get? name) (ideal.2 name))
      (takeAll Bank.take? [] steps) (takeAll idealTake? (fun _ => none) steps) ∧
    ∀ (bank : Bank) (step : Step),
      ((step.outcome? bank).map fun outcome => outcome.1.words) = step.loop? bank :=
  ⟨rel_takeAll (R := Bank.Matches) (fun _ _ h => h.take?) (fun _ => .none) steps, words_outcome⟩

/-- A larger set joined into a smaller one is cut to the smaller capacity, and the two then
differ although one lies within the other. -/
example :
    (takeAll Bank.take? []
      [.ofIds "a" 3 [0], .full "b" 65, .union "a" "b", .subset "a" "b",
        .equal "a" "b"]).map Prod.fst =
        some [none, none, some true, some true, some false] := by
  decide_cbv

end LabelSet
end StructuredFlow
