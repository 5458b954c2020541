/-
# What structuring leaves of a function

Structuring changes a function only in the targets of the transfers that end its labels
(`Function.OnlyRetargeted`).

| label | its targets afterwards |
| --- | --- |
| reached from the entry | as they were, or markers |
| left out | `nop` |
| reached, all labels being put into one dispatch | as they were |

That rests on the table of transfers alone: what structuring makes of it comes from it by
making markers (`marks_structureLive`), and a label takes its transfer back from the table
(`Label.onlyRetargeted_withTransfer`).  A marker that the function already holds is a target
like any other, so no contract is needed.
-/

import StructuredFlow.Proofs.Structuring.Partition

namespace StructuredFlow

/-- The literals that a transfer compares with, in order. -/
def Transfer.caseTexts : Transfer → List String
  | .switch _ _ cases => cases.map Prod.fst
  | _ => []

/-- The literals that an action compares with, in order. -/
def Action.caseTexts : Action → List String
  | .operation _ => []
  | .transfer t => t.caseTexts

/-- A target that is as it was, or a marker. -/
def Target.KeptOrMarker (target target' : Target) : Prop :=
  target' = target ∨ target'.isMarker = true

/-- An instruction as it was, but for targets that have become markers. -/
structure Instruction.OnlyRetargeted (inst inst' : Instruction) : Prop where
  /-- It has its place in the listing. -/
  position_eq : inst'.position = inst.position
  /-- It belongs to its label. -/
  label_eq : inst'.label = inst.label
  /-- It belongs to its function. -/
  function_eq : inst'.function = inst.function
  /-- It defines what it defined. -/
  result_eq : inst'.result = inst.result
  /-- It is of its kind. -/
  opcode_eq : inst'.opcode = inst.opcode
  /-- It reads what it read. -/
  operands_eq : inst'.action.operands = inst.action.operands
  /-- It compares with what it compared with. -/
  caseTexts_eq : inst'.action.caseTexts = inst.action.caseTexts
  /-- It has its targets, in order, apart from markers. -/
  targets : List.Forall₂ Target.KeptOrMarker inst.action.targets inst'.action.targets
  /-- An operation is as it was. -/
  eq_of_operation : inst.isTransfer = false → inst' = inst

/-- A label as it was, but for targets of its last instruction that have become markers. -/
structure Label.OnlyRetargeted (label label' : Label) : Prop where
  /-- It has its id. -/
  id_eq : label'.id = label.id
  /-- It has its name. -/
  name_eq : label'.name = label.name
  /-- It has its instructions, in order, apart from targets. -/
  instructions : List.Forall₂ Instruction.OnlyRetargeted label.instructions label'.instructions
  /-- Those before the last one are as they were. -/
  dropLast_eq : label'.instructions.dropLast = label.instructions.dropLast

/-- A function structured from an entry has the labels of the function, but for targets. -/
structure Function.OnlyRetargeted (f : Function) (entry : Nat) (result : Structured) : Prop where
  /-- The labels are those of the function, in order, apart from targets. -/
  labels : List.Forall₂ Label.OnlyRetargeted f.labels (f.withTransfers result.transfers)
  /-- The labels left out are those that the entry does not reach. -/
  mem_pruned : ∀ id, id ∈ result.pruned ↔
    id < f.labels.length ∧ ¬Transfers.Reaches f.transfers entry id
  /-- A label left out falls through. -/
  pruned : ∀ id ∈ result.pruned, ∀ label ∈ (f.withTransfers result.transfers)[id]?,
    ∀ last ∈ label.instructions.getLast?, ∀ target ∈ last.action.targets, target = .nop

/-! ### Instructions and labels -/

/-- Exchanging targets leaves the values of cases alone. -/
theorem Transfer.caseTexts_mapTargets (f : Target → Target) (t : Transfer) :
    (t.mapTargets f).caseTexts = t.caseTexts := by
  cases t <;> simp [Transfer.mapTargets, Transfer.caseTexts]

/-- Targets that stay are kept. -/
theorem Target.keptOrMarker_refl (targets : List Target) :
    List.Forall₂ KeptOrMarker targets targets :=
  List.forall₂_same.mpr fun _ _ => Or.inl rfl

/-- Where targets are exchanged for markers only each is kept or a marker. -/
theorem OnlyMarks.forall₂_map {g : Target → Target} (hg : OnlyMarks g) (targets : List Target) :
    List.Forall₂ Target.KeptOrMarker targets (targets.map g) :=
  List.forall₂_map_right_iff.mpr (List.forall₂_same.mpr fun target _ => hg target)

namespace Instruction

/-- An instruction that stays is only retargeted. -/
theorem OnlyRetargeted.refl (inst : Instruction) : inst.OnlyRetargeted inst where
  position_eq := rfl
  label_eq := rfl
  function_eq := rfl
  result_eq := rfl
  opcode_eq := rfl
  operands_eq := rfl
  caseTexts_eq := rfl
  targets := Target.keptOrMarker_refl _
  eq_of_operation _ := rfl

/-- A transfer with targets made markers. -/
theorem onlyRetargeted_mapTargets {inst : Instruction} {t : Transfer}
    (ht : inst.action = .transfer t) {g : Target → Target} (hg : OnlyMarks g) :
    inst.OnlyRetargeted { inst with action := .transfer (t.mapTargets g) } where
  position_eq := rfl
  label_eq := rfl
  function_eq := rfl
  result_eq := rfl
  opcode_eq := by
    rw [opcode, opcode, ht]
    cases t <;> rfl
  operands_eq := by
    rw [ht]
    exact Transfer.operands_mapTargets g t
  caseTexts_eq := by
    rw [ht]
    exact Transfer.caseTexts_mapTargets g t
  targets := by
    rw [ht]
    simpa [Action.targets] using hg.forall₂_map t.targets
  eq_of_operation h := by
    rw [isTransfer, transfer?, ht] at h
    exact absurd h (by simp [Action.transfer?])

end Instruction

namespace Label

/-- A label that stays is only retargeted. -/
theorem OnlyRetargeted.refl (label : Label) : label.OnlyRetargeted label where
  id_eq := rfl
  name_eq := rfl
  instructions := List.forall₂_same.mpr fun inst _ => Instruction.OnlyRetargeted.refl inst
  dropLast_eq := rfl

/-- A label that ends in a transfer. -/
theorem exists_of_transfer?_eq_some {label : Label} {t : Transfer} (h : label.transfer? = some t) :
    ∃ body last, label.instructions = body ++ [last] ∧ last.action = .transfer t := by
  obtain ⟨last, hlast, ht⟩ := Option.bind_eq_some_iff.mp h
  obtain ⟨body, hbody⟩ := List.getLast?_eq_some_iff.mp hlast
  refine ⟨body, last, hbody, ?_⟩
  cases haction : last.action with
  | operation op => simp [Instruction.transfer?, haction, Action.transfer?] at ht
  | transfer t' =>
    rw [Instruction.transfer?, haction] at ht
    exact congrArg Action.transfer (Option.some.inj ht)

/-- A label with another transfer has it in the place of its last instruction's. -/
theorem withTransfer_eq {label : Label} {body : List Instruction} {last : Instruction}
    {t : Transfer} (hbody : label.instructions = body ++ [last]) (ht : last.action = .transfer t)
    (t' : Transfer) : label.withTransfer t' =
      { label with instructions := body ++ [{ last with action := .transfer t' }] } := by
  have hlast : last.isTransfer = true := by
    simp [Instruction.isTransfer, Instruction.transfer?, ht, Action.transfer?]
  simp only [withTransfer, hbody, List.getLast?_concat, hlast, if_true, List.dropLast_concat]

/-- **A label only has targets exchanged** when it gets its transfer back with some of them
made markers. -/
theorem onlyRetargeted_withTransfer {label : Label} {t : Transfer} (h : label.transfer? = some t)
    {g : Target → Target} (hg : OnlyMarks g) :
    label.OnlyRetargeted (label.withTransfer (t.mapTargets g)) := by
  obtain ⟨body, last, hbody, ht⟩ := exists_of_transfer?_eq_some h
  rw [withTransfer_eq hbody ht]
  refine ⟨rfl, rfl, ?_, ?_⟩
  · rw [hbody]
    refine List.rel_append (List.forall₂_same.mpr fun inst _ =>
      Instruction.OnlyRetargeted.refl inst) (.cons ?_ .nil)
    exact Instruction.onlyRetargeted_mapTargets ht hg
  · rw [hbody, List.dropLast_concat, List.dropLast_concat]

/-- A label with the control transfer that it has is itself. -/
theorem withTransfer_self {label : Label} {t : Transfer} (h : label.transfer? = some t) :
    label.withTransfer t = label := by
  obtain ⟨body, last, hbody, ht⟩ := exists_of_transfer?_eq_some h
  rw [withTransfer_eq hbody ht, ← ht, ← hbody]

end Label

namespace Function

variable {f : Function} {ts : Transfers}

/-- Each label is given the control transfer of its position. -/
theorem getElem?_withTransfers (f : Function) (ts : Transfers) (id : Nat) :
    (f.withTransfers ts)[id]? = f.labels[id]?.map fun label =>
      match ts.at? id with
      | some t => label.withTransfer t
      | none => label :=
  List.getElem?_mapIdx

/-- A label of the function with targets made markers, in a table that comes from its own. -/
theorem getElem?_withTransfers_eq {id : Nat} {label : Label} (hlabel : f.labels[id]? = some label)
    {g : Target → Target} (h : ts.at? id =
      (Transfers.at? f.transfers id).map (Transfer.mapTargets g)) :
    (f.withTransfers ts)[id]? = some ((label.transfer?.map (Transfer.mapTargets g)).elim label
      label.withTransfer) := by
  rw [getElem?_withTransfers, hlabel, Option.map_some, h, at?_transfers, hlabel, Option.bind_some]
  cases label.transfer? <;> rfl

/-- **Where targets are exchanged for markers only the labels are only retargeted.** -/
theorem forall₂_onlyRetargeted {p : Nat → Prop} (h : Transfers.MarksWithin p f.transfers ts) :
    List.Forall₂ Label.OnlyRetargeted f.labels (f.withTransfers ts) := by
  refine List.forall₂_iff_get.mpr ⟨by simp [withTransfers], fun id hid hid' => ?_⟩
  obtain ⟨g, hg, heq⟩ := h.marks id
  have hget := getElem?_withTransfers_eq (List.getElem?_eq_getElem hid) heq
  rw [List.getElem?_eq_getElem hid'] at hget
  rw [List.get_eq_getElem, List.get_eq_getElem, Option.some.inj hget]
  cases ht : f.labels[id].transfer? with
  | none => exact Label.OnlyRetargeted.refl _
  | some t => exact Label.onlyRetargeted_withTransfer ht hg

/-- A label all of whose targets are made `nop` falls through. -/
theorem eq_nop_of_mem_targets {id : Nat} (h : ts.at? id =
      (Transfers.at? f.transfers id).map (Transfer.mapTargets fun _ => .nop))
    {label : Label} (hlabel : label ∈ (f.withTransfers ts)[id]?) {last : Instruction}
    (hlast : last ∈ label.instructions.getLast?) :
    ∀ target ∈ last.action.targets, target = .nop := by
  cases hold : f.labels[id]? with
  | none =>
    rw [getElem?_withTransfers, hold] at hlabel
    exact absurd hlabel (by simp)
  | some old =>
    rw [getElem?_withTransfers_eq hold h] at hlabel
    obtain rfl := Option.some.inj hlabel
    cases ht : old.transfer? with
    | none =>
      -- a label that does not end in a transfer ends in an operation, which has no targets
      rw [ht] at hlast
      have hlast : old.instructions.getLast? = some last := hlast
      rw [Label.transfer?, hlast, Option.bind_some, Instruction.transfer?] at ht
      cases haction : last.action with
      | operation op => exact fun target htarget => absurd htarget List.not_mem_nil
      | transfer t =>
        rw [haction] at ht
        exact absurd ht (by simp [Action.transfer?])
    | some t =>
      obtain ⟨body, final, hbody, hfinal⟩ := Label.exists_of_transfer?_eq_some ht
      rw [ht, Option.map_some, Option.elim_some, Label.withTransfer_eq hbody hfinal,
        List.getLast?_concat] at hlast
      obtain rfl := Option.some.inj hlast
      simp [Action.targets]

end Function

/-! ### Structured functions -/

namespace Structuring

open Transfers

variable {build : Transfers → LabelSet → Nat → Outcome} {ts : Transfers}

/-- **Structuring makes markers of targets**, and of labels that the entry does not reach
no more than leaving them out does. -/
theorem marks_structureLive (hb : Builder build) (ts : Transfers) (entry : Nat) :
    MarksWithin (· ∈ ts.live entry) (liveTable ts entry)
      (structureLive build ts entry).1.transfers := by
  by_cases hentry : entry < ts.length
  · obtain ⟨outcome, hbuilds, -, htransfers, -⟩ := (structuresLive hb hentry).builds
    rw [htransfers]
    exact hbuilds.marks
  · rw [structureLive_of_le (Nat.not_lt.mp hentry)]
    exact MarksWithin.refl _ _

/-- What the entry does not reach falls through at all its targets. -/
theorem at?_liveTable_of_notMem {entry id : Nat} (hid : id ∉ ts.live entry) :
    (liveTable ts entry).at? id = (ts.at? id).map (Transfer.mapTargets fun _ => .nop) := by
  rw [liveTable, at?_retarget, if_pos (by simpa using hid)]

/-- **Structuring only retargets**, whatever builds it. -/
theorem onlyRetargeted_structureLive (hb : Builder build) (f : Function) (entry : Nat) :
    f.OnlyRetargeted entry (structureLive build f.transfers entry).1 := by
  have hmarks := marks_structureLive hb f.transfers entry
  have hpruned : ∀ id, id ∈ (structureLive build f.transfers entry).1.pruned ↔
      id < f.labels.length ∧ ¬Transfers.Reaches f.transfers entry id := fun id => by
    rw [← Function.length_transfers]
    exact mem_unreached
  refine ⟨?_, hpruned, fun id hid label hlabel last hlast => ?_⟩
  · refine Function.forall₂_onlyRetargeted (p := fun _ => True) ?_
    exact ((marks_liveTable _ _).mono fun _ _ => trivial).trans (hmarks.mono fun _ _ => trivial)
  · have hdead : id ∉ Transfers.live f.transfers entry := fun h =>
      ((hpruned id).mp hid).2 (mem_live_iff_reaches.mp h)
    refine Function.eq_nop_of_mem_targets ?_ hlabel hlast
    rw [hmarks.at?_eq id hdead, at?_liveTable_of_notMem hdead]

/-- **Structuring touches nothing but targets.**  The labels of a structured function are
those of the function, with their ids, names and instructions, except that targets of the
transfers that end labels may have become markers; in a label left out all of them are
`nop`.  Putting all labels into one dispatch leaves every label that the entry reaches as it
is. -/
theorem onlyRetargeted_structured (f : Function) (entry : Nat) :
    f.OnlyRetargeted entry (run f.transfers entry).1 ∧
      f.OnlyRetargeted entry (flat f.transfers entry).1 ∧
      ∀ id, Transfers.Reaches f.transfers entry id →
        (f.withTransfers (flat f.transfers entry).1.transfers)[id]? = f.labels[id]? := by
  refine ⟨onlyRetargeted_structureLive (builder_structureRegion _) f entry,
    onlyRetargeted_structureLive builder_dispatch f entry, fun id hid => ?_⟩
  have hflat : (flat f.transfers entry).1.transfers = liveTable f.transfers entry := by
    unfold flat structureLive
    dsimp only
    split <;> rfl
  cases hlabel : f.labels[id]? with
  | none => rw [Function.getElem?_withTransfers, hlabel, Option.map_none]
  | some label =>
    rw [Function.getElem?_withTransfers, hlabel, Option.map_some, hflat,
      (marks_liveTable f.transfers entry).at?_eq id (not_not_intro (mem_live_iff_reaches.mpr hid)),
      Function.at?_transfers, hlabel, Option.bind_some]
    cases ht : label.transfer? with
    | none => rfl
    | some t => exact congrArg some (Label.withTransfer_self ht)

end Structuring
end StructuredFlow
