/-
# What the search for reachable ids finds

`reach next stack seen` adds to `seen` the ids of the stack and what they lead
to.  The search keeps that whatever a found id leads to has been found or waits
on the stack, so at an empty stack the result is closed under `next`; and it
only ever adds ids that a walk leads to.  From an empty set it therefore finds
exactly the ids below the capacity that walks through such ids reach
(`mem_reach_empty`).
-/

import StructuredFlow.Transfers
import StructuredFlow.Proofs.LabelSet.Members
import Mathlib.Logic.Relation

namespace StructuredFlow

open Relation

/-- One step of a search that keeps to ids below a bound. -/
def StepBelow (next : Nat → List Nat) (bound a b : Nat) : Prop := b ∈ next a ∧ b < bound

/-- The search keeps the capacity. -/
@[simp] theorem capacity_reach (next : Nat → List Nat) (stack : List Nat) (seen : LabelSet) :
    (reach next stack seen).capacity = seen.capacity := by
  fun_induction reach next stack seen with
  | case1 seen => rfl
  | case2 seen id rest h ih => rw [ih, LabelSet.capacity_insert]
  | case3 seen id rest h ih => exact ih

/-- What has been found stays found. -/
theorem mem_reach_of_mem {next : Nat → List Nat} {stack : List Nat} {seen : LabelSet} {i : Nat}
    (h : i ∈ seen) : i ∈ reach next stack seen := by
  fun_induction reach next stack seen with
  | case1 seen => exact h
  | case2 seen id rest hn ih => exact ih (LabelSet.mem_insert.mpr (Or.inl h))
  | case3 seen id rest hn ih => exact ih h

/-- The search finds only what was seen before or is reached from the stack. -/
theorem reach_sound {next : Nat → List Nat} {stack : List Nat} {seen : LabelSet} {i : Nat}
    (h : i ∈ reach next stack seen) :
    i ∈ seen ∨ ∃ s ∈ stack, s < seen.capacity ∧
      ReflTransGen (StepBelow next seen.capacity) s i := by
  fun_induction reach next stack seen with
  | case1 seen => exact Or.inl h
  | case2 seen id rest hn ih =>
    rw [LabelSet.capacity_insert] at ih
    rcases ih h with hs | ⟨s, hs, hc, hw⟩
    · rcases LabelSet.mem_insert.mp hs with hs | ⟨rfl, _⟩
      · exact Or.inl hs
      · exact Or.inr ⟨i, List.mem_cons_self, hn.1, ReflTransGen.refl⟩
    · rcases List.mem_append.mp hs with hs | hs
      · exact Or.inr ⟨id, List.mem_cons_self, hn.1, ReflTransGen.head ⟨hs, hc⟩ hw⟩
      · exact Or.inr ⟨s, List.mem_cons_of_mem _ hs, hc, hw⟩
  | case3 seen id rest hn ih =>
    rcases ih h with hs | ⟨s, hs, hc, hw⟩
    · exact Or.inl hs
    · exact Or.inr ⟨s, List.mem_cons_of_mem _ hs, hc, hw⟩

/-- The search finds the stack, and what it has found is closed under `next`,
provided that everything seen before leads to what is seen or on the stack. -/
theorem reach_closed {next : Nat → List Nat} {stack : List Nat} {seen : LabelSet}
    (hinv : ∀ a ∈ seen, ∀ b ∈ next a, b < seen.capacity → b ∈ seen ∨ b ∈ stack) :
    (∀ s ∈ stack, s < seen.capacity → s ∈ reach next stack seen) ∧
      ∀ a ∈ reach next stack seen, ∀ b ∈ next a, b < seen.capacity →
        b ∈ reach next stack seen := by
  fun_induction reach next stack seen with
  | case1 seen =>
    refine ⟨fun s hs => absurd hs List.not_mem_nil, fun a ha b hb hc => ?_⟩
    exact (hinv a ha b hb hc).resolve_right List.not_mem_nil
  | case2 seen id rest hn ih =>
    have hkeep : ∀ a ∈ seen.insert id, ∀ b ∈ next a, b < (seen.insert id).capacity →
        b ∈ seen.insert id ∨ b ∈ next id ++ rest := by
      intro a ha b hb hc
      rcases LabelSet.mem_insert.mp ha with ha | ⟨rfl, _⟩
      · rcases hinv a ha b hb hc with hs | hs
        · exact Or.inl (LabelSet.mem_insert.mpr (Or.inl hs))
        · rcases List.mem_cons.mp hs with rfl | hs
          · exact Or.inl (LabelSet.mem_insert.mpr (Or.inr ⟨rfl, hn.1⟩))
          · exact Or.inr (List.mem_append_right _ hs)
      · exact Or.inr (List.mem_append_left _ hb)
    obtain ⟨hstack, hclosed⟩ := ih hkeep
    refine ⟨fun s hs hc => ?_, hclosed⟩
    rcases List.mem_cons.mp hs with rfl | hs
    · exact mem_reach_of_mem (LabelSet.mem_insert.mpr (Or.inr ⟨rfl, hn.1⟩))
    · exact hstack s (List.mem_append_right _ hs) hc
  | case3 seen id rest hn ih =>
    have hseen : id < seen.capacity → id ∈ seen := fun hc => by
      by_contra hs
      exact hn ⟨hc, hs⟩
    have hkeep : ∀ a ∈ seen, ∀ b ∈ next a, b < seen.capacity → b ∈ seen ∨ b ∈ rest := by
      intro a ha b hb hc
      rcases hinv a ha b hb hc with hs | hs
      · exact Or.inl hs
      · rcases List.mem_cons.mp hs with rfl | hs
        · exact Or.inl (hseen hc)
        · exact Or.inr hs
    obtain ⟨hstack, hclosed⟩ := ih hkeep
    refine ⟨fun s hs hc => ?_, hclosed⟩
    rcases List.mem_cons.mp hs with rfl | hs
    · exact mem_reach_of_mem (hseen hc)
    · exact hstack s hs hc

/-- **From nothing the search finds exactly what the stack reaches.** -/
theorem mem_reach_empty {next : Nat → List Nat} {stack : List Nat} {c i : Nat} :
    i ∈ reach next stack (.empty c) ↔
      ∃ s ∈ stack, s < c ∧ ReflTransGen (StepBelow next c) s i := by
  constructor
  · intro h
    rcases reach_sound h with hs | hs
    · exact absurd hs LabelSet.not_mem_empty
    · exact hs
  · rintro ⟨s, hs, hc, hw⟩
    obtain ⟨hstack, hclosed⟩ := @reach_closed next stack (.empty c)
      fun a ha => absurd ha LabelSet.not_mem_empty
    induction hw with
    | refl => exact hstack s hs hc
    | tail _ hstep ih => exact hclosed _ ih _ hstep.1 hstep.2

end StructuredFlow
