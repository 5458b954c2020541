/-
# What each pass turns into markers

Structuring changes the table of transfers in five passes: `fallInto`, and for
loops and conditionals one pass that marks jumps and one that relaxes markers
afterwards.  For each of them it is shown which labels it touches (`marks_…`) and,
for those that mark jumps, which jumps remain (`jumps_…`).

No pass makes or removes a break out of another construct than the one being
made, which is what the tag of a conditional depends on (`KeepsBreaks`).
-/

import StructuredFlow.Proofs.Transfers

namespace StructuredFlow
namespace Structuring

open Transfers

variable {ts ts' ts'' : Transfers} {entry : Nat}

/-! ### The functions on targets -/

/-- In a loop only jumps to the pivot and the entry are exchanged, for markers. -/
theorem onlyMarks_loopTarget (entry : Nat) (pivot : Option Nat) :
    OnlyMarks (loopTarget entry pivot) := by
  intro target
  cases target with
  | label id =>
    rw [loopTarget]
    split
    · exact Or.inr rfl
    · split
      · exact Or.inr rfl
      · exact Or.inl rfl
  | _ => exact Or.inl rfl

/-- In an arm only jumps to the join are exchanged, for markers. -/
theorem onlyMarks_armTarget (entry : Nat) (join : Option Nat) :
    OnlyMarks (armTarget entry join) := by
  intro target
  cases target with
  | label id =>
    rw [armTarget]
    split
    · exact Or.inr rfl
    · exact Or.inl rfl
  | _ => exact Or.inl rfl

/-- In a check only jumps to the arms are exchanged, for markers. -/
theorem onlyMarks_checkTarget (onTrue onFalse : Nat) : OnlyMarks (checkTarget onTrue onFalse) := by
  intro target
  cases target with
  | label id =>
    rw [checkTarget]
    split
    · exact Or.inr rfl
    · exact Or.inl rfl
  | _ => exact Or.inl rfl

/-- A jump that a function on targets leaves was there before. -/
theorem label_mem_map {f : Target → Target} (hf : OnlyMarks f) {targets : List Target} {b : Nat} :
    Target.label b ∈ targets.map f ↔ Target.label b ∈ targets ∧ f (.label b) = .label b := by
  rw [List.mem_map]
  constructor
  · rintro ⟨target, hm, hl⟩
    obtain rfl := hf.eq_of_label hl
    exact ⟨hm, hl⟩
  · rintro ⟨hm, hl⟩
    exact ⟨_, hm, hl⟩

/-- The jumps that are left are those to labels that are not exchanged. -/
theorem jumps_retarget {f : Target → Target} (hf : OnlyMarks f) (q : Nat → Bool) {a b : Nat} :
    (ts.retarget q f).Jumps a b ↔ ts.Jumps a b ∧ (q a = true → f (.label b) = .label b) := by
  rw [Jumps, targets_retarget]
  split
  next hq => rw [label_mem_map hf, Jumps, hq]; simp
  next hq => exact (and_iff_left fun h => absurd h hq).symm

/-! ### Falling through to the next label -/

/-- Falling into what follows exchanges targets of the entry only. -/
theorem marks_fallInto (ts : Transfers) (entry : Nat) (next : Option Nat) :
    MarksWithin (· = entry) ts (fallInto ts entry next) := by
  cases next with
  | none => exact MarksWithin.refl _ ts
  | some next =>
    have hf : OnlyMarks (Target.replace (.label next) .nop) := onlyMarks_replace _ rfl
    refine MarksWithin.retargetAt hf ?_ ts
    rfl

/-- Falling into what follows leaves all jumps but those from the entry to it. -/
theorem jumps_fallInto {next : Option Nat} {a b : Nat} :
    (fallInto ts entry next).Jumps a b ↔ ts.Jumps a b ∧ (a = entry → next ≠ some b) := by
  cases next with
  | none => simp [fallInto]
  | some next =>
    have hf : OnlyMarks (Target.replace (.label next) .nop) := onlyMarks_replace _ rfl
    rw [fallInto, retargetAt, jumps_retarget hf, beq_iff_eq]
    simp [Target.replace, eq_comm]

/-! ### Loops -/

/-- Marking a loop exchanges targets in its body only. -/
theorem marks_markLoop (ts : Transfers) (entry : Nat) (plan : LoopPlan) :
    MarksWithin (· ∈ plan.body) ts (markLoop ts entry plan) :=
  MarksWithin.retarget (onlyMarks_loopTarget entry plan.pivot) (fun _ h => h) ts

/-- Marking a loop leaves all jumps but those from its body to the pivot and the entry. -/
theorem jumps_markLoop {plan : LoopPlan} {a b : Nat} : (markLoop ts entry plan).Jumps a b ↔
    ts.Jumps a b ∧ (a ∈ plan.body → plan.pivot ≠ some b ∧ b ≠ entry) := by
  rw [markLoop, jumps_retarget (onlyMarks_loopTarget entry plan.pivot), LabelSet.contains_iff_mem]
  refine and_congr_right fun _ => imp_congr_right fun _ => ?_
  rw [loopTarget]
  split
  next h => simp [h]
  next h =>
    split
    next h' => simp [h']
    next h' => simp [h', Ne.symm h]

/-- The tree that a loop body ends with. -/
def loopTail (inc body : BlockTree) : BlockTree := if body.isNil then inc else body

/-- Relaxing a loop exchanges markers at the end of its body only. -/
theorem marks_relaxLoop (ts : Transfers) (entry : Nat) (inc body : BlockTree) :
    MarksWithin (· ∈ (loopTail inc body).trailingLabels) ts (relaxLoop ts entry inc body) :=
  MarksWithin.retarget (onlyMarks_replace _ rfl) (fun _ h => List.contains_iff_mem.mp h) ts

/-! ### Conditionals -/

/-- Marking a conditional exchanges targets of its entry and its arms only. -/
theorem marks_markCond (ts : Transfers) (entry : Nat) (plan : CondPlan) :
    MarksWithin (fun a => a = entry ∨ a ∈ plan.regions) ts (markCond ts entry plan) :=
  (MarksWithin.retarget (onlyMarks_armTarget entry plan.join) (fun _ h => Or.inr h) ts).trans
    (MarksWithin.retargetAt (onlyMarks_checkTarget _ _) (Or.inl rfl) _)

/-- Marking a conditional leaves all jumps but those from its arms to the join and from its entry
to the arms. -/
theorem jumps_markCond {plan : CondPlan} {a b : Nat} :
    (markCond ts entry plan).Jumps a b ↔ ts.Jumps a b ∧ (a ∈ plan.regions → plan.join ≠ some b) ∧
      (a = entry → b ≠ plan.onTrue ∧ b ≠ plan.onFalse) := by
  rw [markCond, retargetAt, jumps_retarget (onlyMarks_checkTarget _ _),
    jumps_retarget (onlyMarks_armTarget entry plan.join), LabelSet.contains_iff_mem, beq_iff_eq,
    and_assoc]
  refine and_congr_right fun _ => and_congr ?_ ?_
  · refine imp_congr_right fun _ => ?_
    rw [armTarget]
    split
    next h => simp [h]
    next h => simp [Ne.symm h]
  · refine imp_congr_right fun _ => ?_
    rw [checkTarget]
    split
    next h =>
      rw [Bool.or_eq_true, decide_eq_true_eq, decide_eq_true_eq] at h
      simpa [← not_or] using h
    next h =>
      rw [Bool.or_eq_true, decide_eq_true_eq, decide_eq_true_eq, not_or] at h
      simpa using h

/-- Relaxing a conditional exchanges markers at the ends of its arms only. -/
theorem marks_relaxCond (ts : Transfers) (entry : Nat) (plan : CondPlan)
    (first second : BlockTree) :
    MarksWithin (· ∈ first.trailingLabels ++ second.trailingLabels) ts
      (relaxCond ts entry plan first second) := by
  rw [relaxCond]
  split
  · exact MarksWithin.refl _ ts
  · exact MarksWithin.retarget (onlyMarks_replace _ rfl) (fun _ h => List.contains_iff_mem.mp h) ts

/-! ### Breaks out of other constructs -/

/-- A table with the same breaks out of a construct as another. -/
def KeepsBreaks (e : Nat) (ts ts' : Transfers) : Prop :=
  ∀ a, Target.breakOf e ∈ ts'.targets a ↔ Target.breakOf e ∈ ts.targets a

namespace KeepsBreaks

variable {e : Nat}

/-- A table keeps its own breaks. -/
protected theorem refl (e : Nat) (ts : Transfers) : KeepsBreaks e ts ts := fun _ => Iff.rfl

/-- What is kept twice is kept. -/
protected theorem trans (h : KeepsBreaks e ts ts') (h' : KeepsBreaks e ts' ts'') :
    KeepsBreaks e ts ts'' := fun a => (h' a).trans (h a)

/-- Exchanging other targets keeps breaks. -/
protected theorem retarget {f : Target → Target}
    (hf : ∀ target, f target = .breakOf e ↔ target = .breakOf e) (q : Nat → Bool) (ts : Transfers) :
    KeepsBreaks e ts (ts.retarget q f) := by
  intro a
  rw [targets_retarget]
  split
  · simp [hf]
  · exact Iff.rfl

/-- To exchange one target for another, neither of them this break, neither adds nor removes
it. -/
theorem replace_eq_breakOf_iff {old new target : Target} (hold : old ≠ .breakOf e)
    (hnew : new ≠ .breakOf e) :
    Target.replace old new target = .breakOf e ↔ target = .breakOf e := by
  rw [Target.replace]
  split
  next h => simp [h, hold, hnew]
  next => exact Iff.rfl

/-- Falling into what follows keeps breaks. -/
protected theorem fallInto (ts : Transfers) (entry : Nat) (next : Option Nat) :
    KeepsBreaks e ts (fallInto ts entry next) := by
  cases next with
  | none => exact KeepsBreaks.refl e ts
  | some next =>
    exact KeepsBreaks.retarget (fun _ => replace_eq_breakOf_iff (by simp) (by simp)) _ ts

/-- Marking a loop keeps the breaks of other constructs. -/
protected theorem markLoop (h : e ≠ entry) (ts : Transfers) (plan : LoopPlan) :
    KeepsBreaks e ts (markLoop ts entry plan) := by
  refine KeepsBreaks.retarget (fun target => ?_) _ ts
  cases target with
  | label id =>
    rw [loopTarget]
    split
    · simp [h.symm]
    · split <;> simp
  | _ => simp [loopTarget]

/-- Relaxing a loop keeps breaks. -/
protected theorem relaxLoop (ts : Transfers) (entry : Nat) (inc body : BlockTree) :
    KeepsBreaks e ts (relaxLoop ts entry inc body) :=
  KeepsBreaks.retarget (fun _ => replace_eq_breakOf_iff (by simp) (by simp)) _ ts

/-- Marking a conditional keeps the breaks of other constructs. -/
protected theorem markCond (h : e ≠ entry) (ts : Transfers) (plan : CondPlan) :
    KeepsBreaks e ts (markCond ts entry plan) := by
  refine (KeepsBreaks.retarget (fun target => ?_) _ ts).trans
    (KeepsBreaks.retarget (fun target => ?_) _ _)
  · cases target with
    | label id =>
      rw [armTarget]
      split
      · simp [h.symm]
      · simp
    | _ => simp [armTarget]
  · cases target with
    | label id =>
      rw [checkTarget]
      split <;> simp
    | _ => simp [checkTarget]

/-- Relaxing a conditional keeps the breaks of other constructs. -/
protected theorem relaxCond (h : e ≠ entry) (ts : Transfers) (plan : CondPlan)
    (first second : BlockTree) : KeepsBreaks e ts (relaxCond ts entry plan first second) := by
  rw [relaxCond]
  split
  · exact KeepsBreaks.refl e ts
  · exact KeepsBreaks.retarget
      (fun _ => replace_eq_breakOf_iff (by simpa using h.symm) (by simp)) _ ts

end KeepsBreaks

end Structuring
end StructuredFlow
