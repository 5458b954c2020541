/-
# Regions that hold a program

A region may hold a lowered program with what follows it, a marker or a label that returns
(`ProgramRegion`).  If its entry is no choice, then it is a block of its own, behind which is
a region of the same kind (`ProgramRegion.plain`, `programRegion_next`).
-/

import StructuredFlow.Proofs.Program.Paths
import StructuredFlow.Proofs.Structuring.Fit

namespace StructuredFlow

open Relation Structuring Transfers

variable {ts ts' : Transfers} {set : LabelSet} {p : Program} {after start : Target}
  {ids : List Nat} {a b c s : Nat}

/-- A lowered program with different labels, behind which is a marker or a return. -/
structure Concludes (ts : Transfers) (p : Program) (after start : Target) (ids : List Nat) :
    Prop where
  /-- The labels are the program. -/
  lowered : Lowered ts p after start ids
  /-- They differ. -/
  nodup : ids.Nodup
  /-- What follows is none of them. -/
  after_ne : ∀ x ∈ ids, after ≠ .label x
  /-- It returns if it is a label. -/
  returns : ∀ k, after = .label k → ts.Returns k

namespace Concludes

/-- What follows a label of a program that concludes is in it, or is where it continues. -/
theorem onward_jumps (h : Concludes ts p after start ids) {x y : Nat} (hx : Onward ids after x)
    (hxy : ts.Jumps x y) : Onward ids after y :=
  h.lowered.onward_jumps h.returns hx hxy

/-- A program that concludes is entered at its labels, or where it continues. -/
theorem onward_start (h : Concludes ts p after (.label s) ids) : Onward ids after s :=
  h.lowered.start_mem rfl

/-- Whether a program concludes depends on the control transfers of its labels only. -/
theorem congr (h : Concludes ts p after start ids)
    (hat : ∀ x, Onward ids after x → ts'.at? x = ts.at? x) : Concludes ts' p after start ids where
  lowered := h.lowered.congr fun x hx => hat x (Or.inl hx)
  nodup := h.nodup
  after_ne := h.after_ne
  returns k hk := by
    obtain ⟨value, hret⟩ := h.returns k hk
    exact ⟨value, (hat k (Or.inr hk)).trans hret⟩

/-- What the start of a program reaches is the program and what follows. -/
theorem onward_of_reaches (h : Concludes ts p after (.label s) ids) {x : Nat}
    (hx : x = s ∨ TransGen (ts.JumpsWithin set) s x) : Onward ids after x := by
  rcases hx with rfl | hw
  · exact h.onward_start
  · induction hw with
    | single hstep => exact h.onward_jumps h.onward_start hstep.2.2
    | tail _ hstep ih => exact h.onward_jumps ih hstep.2.2

/-- Paths from the start of a program end exactly if a conditional before it can join. -/
theorem exists_walk_iff (h : Concludes ts p after (.label s) ids)
    (hset : ∀ x, Onward ids after x → x ∈ set) :
    (∃ walk, EndingWalk (ts.JumpsWithin set) (ts.EndsPaths set) s walk) ↔
      p.canJoin (!after.isMarker) = true := by
  rw [h.lowered.exists_walk_iff (fun x hx => hset x (Or.inl hx))
    fun k hk => ⟨hset k (Or.inr hk), h.returns k hk⟩, Program.canJoin_iff]
  refine (or_iff_right_of_imp ?_).symm
  rintro rfl
  have hl := h.lowered
  cases hl
  exact Or.inl rfl

/-- A walk from behind a program stays behind it. -/
theorem onward_of_walk (h : Concludes ts p after (.label s) ids) {walk : List Nat}
    (hwalk : EndingWalk (ts.JumpsWithin set) (ts.EndsPaths set) s walk) :
    ∀ x ∈ walk, Onward ids after x :=
  hwalk.subset (fun _ _ hx hxy => h.onward_jumps hx hxy.2.2) h.onward_start

end Concludes

/-- A region whose labels are a lowered program and what follows it. -/
structure ProgramRegion (ts : Transfers) (set : LabelSet) (entry : Nat) (p : Program)
    (after : Target) (ids : List Nat) : Prop where
  /-- The labels are a region. -/
  region : Region ts set entry
  /-- The program is entered at the entry. -/
  concludes : Concludes ts p after (.label entry) ids
  /-- The members are the labels of the program and what follows. -/
  mem_iff : ∀ x, x ∈ set ↔ Onward ids after x

namespace ProgramRegion

/-- A region holds the same program while other labels lose jumps. -/
theorem marks (h : ProgramRegion ts set a p after ids) {q : Nat → Prop}
    (hm : MarksWithin q ts ts') (hq : ∀ x ∈ set, ¬q x) : ProgramRegion ts' set a p after ids where
  region := h.region.marks hm hq
  concludes := h.concludes.congr fun x hx => hm.at?_eq x (hq x ((h.mem_iff x).mpr hx))
  mem_iff := h.mem_iff

/-- Without statements the region is the return behind them. -/
theorem eq_entry_of_done (h : ProgramRegion ts set a .done after ids) :
    (∀ x ∈ set, x = a) ∧ ¬ts.Jumps a a := by
  obtain ⟨-, ⟨hl, -, -, hreturns⟩, hmem⟩ := h
  cases hl
  refine ⟨fun x hx => ?_, (hreturns a rfl).not_jumps⟩
  exact (((hmem x).mp hx).resolve_left List.not_mem_nil |> Target.label.inj).symm

end ProgramRegion

/-! ### A label before a program -/

/-- An entry that leads to the start of a program is a block of its own. -/
theorem programRegion_next (hr : Region ts set a) (h : Concludes ts p after (.label s) ids)
    (hmem : ∀ x, x ∈ set ↔ x = a ∨ Onward ids after x) (hnot : ¬Onward ids after a)
    (hjumps : ∀ x ∈ set, ts.Jumps a x ↔ x = s) :
    choosePattern ts set a = (.simple (some s), []) ∧
      ProgramRegion (fallInto ts a (some s)) (set.erase a) s p after ids := by
  have hno : ∀ x ∈ set, ¬ts.Jumps x a := by
    intro x hx hxa
    rcases (hmem x).mp hx with rfl | honward
    · exact hnot ((hjumps x hx).mp hxa ▸ h.onward_start)
    · exact hnot (h.onward_jumps honward hxa)
  have hpattern := choosePattern_of_next hr hno ((hmem s).mpr (Or.inr h.onward_start)) hjumps
  have hsplit := splits_choosePattern hr
  rw [hpattern] at hsplit
  have hne : ∀ x, Onward ids after x → x ≠ a := by
    rintro x hx rfl
    exact hnot hx
  refine ⟨hpattern, SimpleSplit.region_next hr hsplit,
    h.congr fun x hx => (marks_fallInto ts a (some s)).at?_eq x (hne x hx), fun x => ?_⟩
  rw [LabelSet.mem_erase, hmem]
  exact ⟨fun h => h.1.resolve_left h.2, fun h => ⟨Or.inr h, hne x h⟩⟩

/-- A plain statement is alone or leads to what follows. -/
theorem ProgramRegion.plain {next : Program} (h : ProgramRegion ts set a (.plain next) after ids) :
    (next = .done ∧ (∀ x ∈ set, x = a) ∧ ¬ts.Jumps a a) ∨
      ∃ s ids, choosePattern ts set a = (.simple (some s), []) ∧
        ProgramRegion (fallInto ts a (some s)) (set.erase a) s next after ids := by
  obtain ⟨hr, ⟨hl, hnodup, hne, hreturns⟩, hmem⟩ := h
  cases hl with
  | @plain _ _ start ids _ hnext hat =>
    have htargets : ∀ x, ts.Jumps a x ↔ .label x = start := fun x => mem_targets_branch hat
    by_cases hmarker : start.isMarker = true
    · obtain ⟨rfl, rfl⟩ := hnext.eq_done_of_isMarker hmarker
      have hnot := Target.ne_label hmarker
      cases hnext
      refine Or.inl ⟨rfl, fun x hx => ?_, fun haa => hnot a ((htargets a).mp haa).symm⟩
      exact List.mem_singleton.mp (((hmem x).mp hx).resolve_right (hnot x))
    · obtain ⟨s, rfl⟩ := Target.exists_eq_label hmarker
      have htail : Concludes ts next after (.label s) ids :=
        ⟨hnext, hnodup.of_cons, fun x hx => hne x (List.mem_cons_of_mem _ hx), hreturns⟩
      have hsplit : ∀ x, x ∈ set ↔ x = a ∨ Onward ids after x := fun x => by
        rw [hmem, Onward, List.mem_cons, or_assoc, Onward]
      refine Or.inr ⟨s, ids, programRegion_next hr htail hsplit ?_ fun x _ => ?_⟩
      · rintro (h | h)
        · exact (List.nodup_cons.mp hnodup).1 h
        · exact hne a List.mem_cons_self h
      · rw [htargets, Target.label.injEq]

end StructuredFlow
