/-
# Paths through a lowered program

In a set of labels that holds a lowered program and what follows it, paths end behind the
program or, if what follows is expressed by nesting, at its last statement
(`Lowered.exists_walk_iff`).  So a part of a program that continues at a label must get to
this label, if paths end behind it at all (`Lowered.mustPass_after`).
-/

import StructuredFlow.Proofs.Flow.MustOrder
import StructuredFlow.Proofs.Program.Lowering

namespace StructuredFlow

open Relation

/-- A label returns. -/
def Transfers.Returns (ts : Transfers) (a : Nat) : Prop := ∃ value, ts.at? a = some (.ret value)

/-- A label that returns does not jump. -/
theorem Transfers.Returns.not_jumps {ts : Transfers} {a b : Nat} (h : ts.Returns a) :
    ¬ts.Jumps a b := by
  obtain ⟨value, h⟩ := h
  rw [Transfers.Jumps, Transfers.targets, h]
  exact List.not_mem_nil

/-- A label of a program, or the one that follows it. -/
def Onward (ids : List Nat) (after : Target) (a : Nat) : Prop := a ∈ ids ∨ after = .label a

namespace Lowered

open Transfers

variable {ts : Transfers} {set : LabelSet} {p : Program} {after start : Target} {ids : List Nat}
  {s : Nat}

/-- Jumps from a program and the return behind it lead nowhere else. -/
theorem onward_jumps (h : Lowered ts p after start ids)
    (hafter : ∀ k, after = .label k → ts.Returns k) {x y : Nat} (hx : Onward ids after x)
    (hxy : ts.Jumps x y) : Onward ids after y := by
  rcases hx with hx | hx
  · exact h.jumps_mem hx hxy
  · exact absurd hxy (hafter x hx).not_jumps

section Within

variable (hids : ∀ x ∈ ids, x ∈ set)
include hids

/-- **Paths from the start of a program end** behind it, or at its last statement. -/
theorem exists_walk_iff (h : Lowered ts p after (.label s) ids)
    (hafter : ∀ k, after = .label k → k ∈ set ∧ ts.Returns k) :
    (∃ walk, EndingWalk (ts.JumpsWithin set) (ts.EndsPaths set) s walk) ↔
      after.isMarker = false ∨ p.ends = true := by
  constructor
  · rintro ⟨walk, hwalk⟩
    obtain ⟨x, hx, hend⟩ := hwalk.exists_end
    have honward := hwalk.subset (P := Onward ids after)
      (fun _ _ hx hxy => h.onward_jumps (fun k hk => (hafter k hk).2) hx hxy.2.2) (h.start_mem rfl)
    rcases honward x hx with hx | rfl
    · exact Or.inr (h.ends_of_endsPaths hids (fun k hk => (hafter k hk).1) hx hend).2
    · exact Or.inl rfl
  · rw [EndingWalk.exists_iff]
    by_cases hmarker : after.isMarker = true
    · intro hends
      obtain ⟨x, hx, hend⟩ : ∃ x ∈ ids, ts.EndsPaths set x := h.exists_endsPaths hmarker
        (hends.resolve_left (by rw [hmarker]; exact Bool.true_eq_false.mp))
      exact ⟨x, hend, h.reached (fun x hx y hy hxy => ⟨hids x hx, hids y hy, hxy⟩) s rfl x hx⟩
    · intro _
      obtain ⟨k, rfl⟩ := Target.exists_eq_label hmarker
      obtain ⟨hk, hreturns⟩ := hafter k rfl
      refine ⟨k, Or.inl hreturns, h.start_reaches rfl (h.reaches rfl fun x hx y hxy => ?_) rfl⟩
      refine ⟨hids x hx, ?_, hxy⟩
      rcases h.jumps_mem hx hxy with hy | hy
      · exact hids y hy
      · exact (hafter y hy).1

/-- A walk to an end from behind a program is one from its start. -/
theorem exists_walk_before {b : Nat} (h : Lowered ts p (.label s) (.label b) ids) (hs : s ∈ set)
    {walk : List Nat} (hwalk : EndingWalk (ts.JumpsWithin set) (ts.EndsPaths set) s walk) :
    ∃ longer, EndingWalk (ts.JumpsWithin set) (ts.EndsPaths set) b longer ∧
      ∀ x ∈ longer, x ∈ ids ∨ x ∈ walk := by
  refine hwalk.exists_before (h.start_reaches rfl (h.reaches rfl fun x hx y hxy => ?_) rfl)
  refine ⟨hx, hids x hx, ?_, hxy⟩
  rcases h.jumps_mem hx hxy with hy | hy
  · exact hids y hy
  · exact Target.label.inj hy ▸ hs

/-- All walks to an end from a program go on behind it, if what follows is a label. -/
theorem mem_of_walk (h : Lowered ts p (.label s) start ids) (hs : s ∈ set) {x : Nat}
    (hx : x ∈ ids) {walk : List Nat}
    (hwalk : EndingWalk (ts.JumpsWithin set) (ts.EndsPaths set) x walk) :
    ∃ rest, EndingWalk (ts.JumpsWithin set) (ts.EndsPaths set) s rest ∧ rest ⊆ walk := by
  obtain ⟨e, he, hend⟩ := hwalk.exists_end
  refine hwalk.exists_of_leaves (P := (· ∈ ids)) (fun x y hx hxy => ?_) hx ⟨e, he, fun hin => ?_⟩
  · exact (h.jumps_mem hx hxy.2.2).imp_right fun hy => (Target.label.inj hy).symm
  · have hback := h.ends_of_endsPaths hids (fun k hk => Target.label.inj hk ▸ hs) hin hend
    exact absurd hback.1 Bool.false_ne_true

/-- **A program that continues at a label must get to it**, if paths end behind it. -/
theorem mustPass_after {b : Nat} (h : Lowered ts p (.label s) (.label b) ids) (hs : s ∈ set)
    (hb : b ∈ ids) (hne : s ∉ ids)
    (hwalk : ∃ walk, EndingWalk (ts.JumpsWithin set) (ts.EndsPaths set) s walk) :
    MustPass (ts.JumpsWithin set) (ts.EndsPaths set) b s := by
  obtain ⟨walk, hwalk⟩ := hwalk
  obtain ⟨longer, hlonger, -⟩ := h.exists_walk_before hids hs hwalk
  refine ⟨fun heq => hne (heq ▸ hb), ⟨longer, hlonger⟩, fun walk hwalk => ?_⟩
  obtain ⟨rest, hrest, hsub⟩ := h.mem_of_walk hids hs hb hwalk
  exact hsub hrest.head_mem

end Within

end Lowered
end StructuredFlow
