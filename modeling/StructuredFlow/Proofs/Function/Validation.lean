/-
# What a validated function is known to hold

A function that passes `Function.validate` meets its contract (`validate_eq_ok_iff`).
What the structuring of the branch graph relies on follows: the entry is a label, and
every jump leads to one.
-/

import StructuredFlow.Proofs.Function.Contract
import StructuredFlow.Proofs.Transfers

namespace StructuredFlow

namespace Function

variable {f : Function}

/-- The entry of a validated function is a label. -/
theorem entry_lt_of_validate (h : f.validate = .ok ()) : f.entry < f.labels.length :=
  (validate_eq_ok_iff.mp h).entry_lt

/-- Every jump of a validated function leads to a label. -/
theorem target_lt_of_validate (h : f.validate = .ok ()) :
    ∀ label ∈ f.labels, ∀ target ∈ label.realTargets, target < f.labels.length :=
  (validate_eq_ok_iff.mp h).target_lt

/-- Every label of a validated function ends in its only control transfer. -/
theorem terminated_of_validate (h : f.validate = .ok ()) {label : Label} (hl : label ∈ f.labels) :
    ∃ body last, label.instructions = body ++ [last] ∧ last.isTransfer = true ∧
      ∀ inst ∈ body, inst.isTransfer = false :=
  (validate_eq_ok_iff.mp h).terminated label hl

/-! ### The branch graph -/

/-- Each label has a control transfer or none. -/
@[simp] theorem length_transfers (f : Function) : f.transfers.length = f.labels.length :=
  List.length_map _

/-- The control transfer of a position is that of its label. -/
theorem at?_transfers (f : Function) (a : Nat) :
    Transfers.at? f.transfers a = f.labels[a]?.bind Label.transfer? := by
  rw [Transfers.at?, transfers, List.getD_eq_getElem?_getD, List.getElem?_map]
  cases f.labels[a]? <;> rfl

/-- The targets of a position are those of the control transfer of its label. -/
theorem targets_transfers (f : Function) (a : Nat) : Transfers.targets f.transfers a =
    ((f.labels[a]?.bind Label.transfer?).map Transfer.targets).getD [] := by
  rw [Transfers.targets, at?_transfers]

/-- The jumps of a validated function are edges between labels. -/
theorem lt_of_jumps (h : f.validate = .ok ()) {a b : Nat} (hab : Transfers.Jumps f.transfers a b) :
    b < f.labels.length := by
  rw [Transfers.Jumps, targets_transfers] at hab
  cases hl : f.labels[a]? with
  | none => simp [hl] at hab
  | some label =>
    refine target_lt_of_validate h label (List.mem_of_getElem? hl) b ?_
    rw [hl, Option.bind_some] at hab
    rw [Label.realTargets]
    cases ht : label.transfer? with
    | none => simp [ht] at hab
    | some t =>
      rw [ht] at hab
      exact Transfers.mem_filterMap_label?.mpr hab

/-- A function without markers has only jumps for targets. -/
theorem exists_targets_eq (h : f.NoMarkers) (a : Nat) :
    ∃ ids : List Nat, Transfers.targets f.transfers a = ids.map Target.label := by
  have hlabel : ∀ target ∈ Transfers.targets f.transfers a, ∃ id, target = Target.label id := by
    intro target ht
    rw [targets_transfers] at ht
    cases hl : f.labels[a]? with
    | none => simp [hl] at ht
    | some label =>
      rw [hl, Option.bind_some] at ht
      cases htr : label.transfer? with
      | none => simp [htr] at ht
      | some t =>
        rw [htr] at ht
        have hmarker := h label (List.mem_of_getElem? hl) t htr target ht
        cases target with
        | label id => exact ⟨id, rfl⟩
        | _ => exact absurd rfl hmarker
  generalize Transfers.targets f.transfers a = targets at hlabel
  induction targets with
  | nil => exact ⟨[], rfl⟩
  | cons target targets ih =>
    obtain ⟨id, rfl⟩ := hlabel target List.mem_cons_self
    obtain ⟨ids, rfl⟩ := ih fun t ht => hlabel t (List.mem_cons_of_mem _ ht)
    exact ⟨id :: ids, rfl⟩

/-! ### A loop over one label -/

/-- A function whose first label repeats itself as long as its parameter holds. -/
def repeating : Function :=
  .ofLabels "repeating" ["n"]
    [("head", [{ action := .transfer (.condBranch (.ssa "n") (.label 0) (.label 1)) }]),
      ("done", [{ action := .transfer (.ret none) }])]

/-- It keeps the contract. -/
theorem validate_repeating : repeating.validate = .ok () := by decide

/-- It has no markers. -/
theorem noMarkers_repeating : repeating.NoMarkers := by
  unfold NoMarkers
  decide

end Function
end StructuredFlow
