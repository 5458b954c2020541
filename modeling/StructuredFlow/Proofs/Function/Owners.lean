/-
# Owners set anew

`Function.assignOwners` puts every instruction under its label and function and numbers
the instructions through.  It leaves the content of the labels alone, that is all but owners
and positions (`SameContent`), and what the contract asks beside the owners only depends on
that content.  So whatever owners a function came with, it meets its contract under the new
ones exactly if it meets the rest of it.
-/

import Mathlib.Data.List.Basic
import StructuredFlow.Proofs.Function.Contract
import StructuredFlow.Proofs.Transfers

namespace StructuredFlow

/-- What an instruction defines and does, without its place and owners. -/
def Instruction.content (inst : Instruction) : Option Definition × Action :=
  (inst.result, inst.action)

/-- A label without the places and owners of its instructions. -/
def Label.content (label : Label) : Nat × String × List (Option Definition × Action) :=
  (label.id, label.name, label.instructions.map Instruction.content)

namespace Function

/-! ### The conditions of the contract -/

/-- Control enters at a label. -/
def Entered (f : Function) : Prop := f.entry < f.labels.length

/-- The id of a label is its position. -/
def Numbered (f : Function) : Prop :=
  ∀ (i : Nat) (label : Label), f.labels[i]? = some label → label.id = i

/-- A label ends in its only control transfer. -/
def Terminated (f : Function) : Prop :=
  ∀ label ∈ f.labels, ∃ body last, label.instructions = body ++ [last] ∧
    last.isTransfer = true ∧ ∀ inst ∈ body, inst.isTransfer = false

/-- An instruction names the label and the function it is in. -/
def Owned (f : Function) : Prop :=
  ∀ label ∈ f.labels, ∀ inst ∈ label.instructions, inst.label = label.id ∧ inst.function = f.id

/-- No two instructions define the same name. -/
def DefinesOnce (f : Function) : Prop :=
  (f.instructions.filterMap Instruction.definedName?).Nodup

/-- Every jump of every control transfer leads to a label. -/
def JumpsInside (f : Function) : Prop :=
  ∀ inst ∈ f.instructions, ∀ target, .label target ∈ inst.action.targets →
    target < f.labels.length

variable {f g : Function} {label label' : Label} {inst inst' : Instruction} {start id target : Nat}
  {labels : List Label}

/-- An instruction that transfers no control has no targets. -/
theorem targets_eq_nil (h : inst.isTransfer = false) : inst.action.targets = [] := by
  rw [Instruction.isTransfer, Instruction.transfer?] at h
  cases haction : inst.action with
  | operation op => rfl
  | transfer t => simp [haction, Action.transfer?] at h

/-- The jumps of a label that ends in its only control transfer are those of its instructions. -/
theorem mem_realTargets_iff {body : List Instruction} {last : Instruction}
    (h : label.instructions = body ++ [last]) (hbody : ∀ inst ∈ body, inst.isTransfer = false) :
    target ∈ label.realTargets ↔
      ∃ inst ∈ label.instructions, .label target ∈ inst.action.targets := by
  have hlast : label.realTargets = last.action.targets.filterMap Target.label? := by
    rw [Label.realTargets, Label.transfer?, h, List.getLast?_concat, Option.bind_some,
      Instruction.transfer?]
    cases last.action <;> rfl
  rw [hlast, Transfers.mem_filterMap_label?, h]
  constructor
  · exact fun ht => ⟨last, List.mem_concat_self, ht⟩
  · rintro ⟨inst, hinst, ht⟩
    rcases List.mem_append.mp hinst with hinst | hinst
    · rw [targets_eq_nil (hbody inst hinst)] at ht
      exact absurd ht List.not_mem_nil
    · rwa [List.mem_singleton.mp hinst] at ht

/-- Where each label ends in its only control transfer, its jumps are those of this one. -/
theorem jumpsInside_iff (h : f.Terminated) : f.JumpsInside ↔
    ∀ label ∈ f.labels, ∀ target ∈ label.realTargets, target < f.labels.length := by
  constructor
  · intro hf label hl target ht
    obtain ⟨body, last, hinst, -, hbody⟩ := h label hl
    obtain ⟨inst, hmem, ht⟩ := (mem_realTargets_iff hinst hbody).mp ht
    exact hf inst (List.mem_flatMap.mpr ⟨label, hl, hmem⟩) target ht
  · intro hf inst hmem target ht
    obtain ⟨label, hl, hmem⟩ := List.mem_flatMap.mp hmem
    obtain ⟨body, last, hinst, -, hbody⟩ := h label hl
    exact hf label hl target ((mem_realTargets_iff hinst hbody).mpr ⟨inst, hmem, ht⟩)

/-- The contract is these six conditions. -/
theorem contract_iff_conditions : f.Contract ↔ f.Entered ∧ f.Numbered ∧ f.Terminated ∧ f.Owned ∧
    f.DefinesOnce ∧ f.JumpsInside := by
  constructor
  · intro h
    exact ⟨h.entry_lt, h.id_eq, h.terminated, h.owned, h.nodup_defined,
      (jumpsInside_iff h.terminated).mpr h.target_lt⟩
  · rintro ⟨hentry, hid, hterminated, howned, hdefined, hinside⟩
    exact ⟨hentry, hid, hterminated, howned, hdefined, (jumpsInside_iff hterminated).mp hinside⟩

/-! ### The content of a function -/

/-- Two functions that differ in ids, places and owners only. -/
structure SameContent (f g : Function) : Prop where
  /-- Control enters both at the same position. -/
  entry_eq : f.entry = g.entry
  /-- The labels are the same up to places and owners. -/
  labels_eq : f.labels.map Label.content = g.labels.map Label.content

/-- Instructions of the same content transfer control alike. -/
theorem isTransfer_eq (h : inst.content = inst'.content) : inst.isTransfer = inst'.isTransfer := by
  rw [Instruction.isTransfer, Instruction.transfer?, (Prod.mk.inj h).2]
  rfl

namespace SameContent

/-- To have the same content is symmetric. -/
theorem symm (h : SameContent f g) : SameContent g f := ⟨h.entry_eq.symm, h.labels_eq.symm⟩

/-- Functions of the same content have as many labels. -/
theorem length_eq (h : SameContent f g) : f.labels.length = g.labels.length := by
  simpa using congrArg List.length h.labels_eq

/-- To each label there is one of the same content. -/
theorem exists_label (h : SameContent f g) (hl : label ∈ g.labels) :
    ∃ label' ∈ f.labels, label'.content = label.content := by
  have hmem : label.content ∈ f.labels.map Label.content := h.labels_eq ▸ List.mem_map_of_mem hl
  exact List.mem_map.mp hmem

/-- The instructions have the same contents. -/
theorem contents_eq (h : SameContent f g) :
    f.instructions.map Instruction.content = g.instructions.map Instruction.content := by
  have hflat := congrArg (List.flatMap fun content => content.2.2) h.labels_eq
  rw [List.flatMap_map, List.flatMap_map] at hflat
  rw [instructions, instructions, List.map_flatMap, List.map_flatMap]
  exact hflat

/-- The entry is a label of either function or of none. -/
theorem entered (h : SameContent f g) (hf : f.Entered) : g.Entered := by
  rw [Entered, ← h.entry_eq, ← h.length_eq]
  exact hf

/-- The ids of labels are part of the content. -/
theorem numbered (h : SameContent f g) (hf : f.Numbered) : g.Numbered := by
  intro i label hi
  have hcontent : (f.labels.map Label.content)[i]? = some label.content := by
    rw [h.labels_eq, List.getElem?_map, hi, Option.map_some]
  rw [List.getElem?_map, Option.map_eq_some_iff] at hcontent
  obtain ⟨label', hi', heq⟩ := hcontent
  rw [← (Prod.mk.inj heq).1]
  exact hf i label' hi'

/-- Where labels end is part of the content. -/
theorem terminated (h : SameContent f g) (hf : f.Terminated) : g.Terminated := by
  intro label hl
  obtain ⟨label', hl', heq⟩ := h.exists_label hl
  obtain ⟨body, last, hinst, hlast, hbody⟩ := hf label' hl'
  have hmap : label.instructions.map Instruction.content =
      body.map Instruction.content ++ [last.content] := by
    rw [← (Prod.mk.inj (Prod.mk.inj heq).2).2, hinst, List.map_append, List.map_singleton]
  -- a split of the contents is the contents of a split
  obtain ⟨body', rest, hinst', hbody', hrest⟩ := List.map_eq_append_iff.mp hmap
  obtain ⟨last', rfl, hlast'⟩ := List.map_eq_singleton_iff.mp hrest
  refine ⟨body', last', hinst', (isTransfer_eq hlast').trans hlast, fun inst hmem => ?_⟩
  have hcontent : inst.content ∈ body.map Instruction.content := hbody' ▸ List.mem_map_of_mem hmem
  obtain ⟨inst', hmem', heq'⟩ := List.mem_map.mp hcontent
  exact (isTransfer_eq heq'.symm).trans (hbody inst' hmem')

/-- The names defined are part of the content. -/
theorem definesOnce (h : SameContent f g) (hf : f.DefinesOnce) : g.DefinesOnce := by
  have hnames : ∀ insts : List Instruction, insts.filterMap Instruction.definedName? =
      (insts.map Instruction.content).filterMap fun content => content.1.map Definition.name := by
    intro insts
    rw [List.filterMap_map]
    rfl
  rw [DefinesOnce, hnames, ← h.contents_eq, ← hnames]
  exact hf

/-- Where labels jump to is part of the content. -/
theorem jumpsInside (h : SameContent f g) (hf : f.JumpsInside) : g.JumpsInside := by
  intro inst hinst target htarget
  have hcontent : inst.content ∈ f.instructions.map Instruction.content :=
    h.contents_eq ▸ List.mem_map_of_mem hinst
  obtain ⟨inst', hinst', heq⟩ := List.mem_map.mp hcontent
  rw [← h.length_eq]
  refine hf inst' hinst' target ?_
  rw [(Prod.mk.inj heq).2]
  exact htarget

end SameContent

/-! ### Placing -/

/-- To place a label changes none of its content. -/
theorem content_placed (id start : Nat) (label : Label) :
    (label.placed id start).content = label.content := by
  rw [Label.content, Label.content, Label.placed, List.map_map]
  have hfst : label.instructions.map Instruction.content =
      (label.instructions.zipIdx start).map (Instruction.content ∘ Prod.fst) := by
    rw [← List.map_map, List.zipIdx_map_fst]
  rw [hfst]
  rfl

/-- The instructions of a placed label are numbered from its start. -/
theorem map_position_placed (id start : Nat) (label : Label) :
    (label.placed id start).instructions.map Instruction.position =
      List.range' start label.instructions.length := by
  rw [Label.placed, List.map_map, ← List.zipIdx_map_snd]
  rfl

/-- To place labels changes none of their content. -/
theorem map_content_placeLabels (id start : Nat) (labels : List Label) :
    (placeLabels id start labels).map Label.content = labels.map Label.content := by
  induction labels generalizing start with
  | nil => rfl
  | cons label rest ih => rw [placeLabels, List.map_cons, List.map_cons, content_placed, ih]

/-- The instructions of placed labels are numbered one label after the other. -/
theorem map_position_placeLabels (id start : Nat) (labels : List Label) :
    ((placeLabels id start labels).flatMap Label.instructions).map Instruction.position =
      List.range' start (labels.flatMap Label.instructions).length := by
  induction labels generalizing start with
  | nil => rfl
  | cons label rest ih =>
    rw [placeLabels, List.flatMap_cons, List.map_append, map_position_placed, ih,
      List.flatMap_cons, List.length_append, List.range'_append_1]

/-- The instructions of a placed label belong to it. -/
theorem owned_placed (id start : Nat) (label : Label) :
    ∀ inst ∈ (label.placed id start).instructions, inst.label = label.id ∧ inst.function = id := by
  intro inst hinst
  obtain ⟨_, -, rfl⟩ := List.mem_map.mp hinst
  exact ⟨rfl, rfl⟩

/-- The instructions of each placed label belong to it. -/
theorem owned_placeLabels (hl : label ∈ placeLabels id start labels)
    (hinst : inst ∈ label.instructions) : inst.label = label.id ∧ inst.function = id := by
  induction labels generalizing start with
  | nil => exact absurd hl List.not_mem_nil
  | cons first rest ih =>
    rcases List.mem_cons.mp hl with rfl | hl
    · exact owned_placed id start first inst hinst
    · exact ih hl

/-! ### Owners -/

/-- What setting the owners of a function anew comes to. -/
structure Reowned (f : Function) (id : Nat) (g : Function) : Prop where
  /-- The function has the id. -/
  id_eq : g.id = id
  /-- Its instructions name it and their labels. -/
  owned : g.Owned
  /-- Its instructions are numbered in program order. -/
  positions_eq : g.instructions.map Instruction.position = List.range g.instructions.length
  /-- It is the function that it was, up to places and owners. -/
  same : SameContent f g
  /-- It is entered at a label if it was. -/
  entered_iff : g.Entered ↔ f.Entered
  /-- Its labels are numbered if they were. -/
  numbered_iff : g.Numbered ↔ f.Numbered
  /-- Its labels end in their only control transfers if they did. -/
  terminated_iff : g.Terminated ↔ f.Terminated
  /-- It defines no name twice if it did not. -/
  definesOnce_iff : g.DefinesOnce ↔ f.DefinesOnce
  /-- Its jumps lead to labels if they did. -/
  jumpsInside_iff : g.JumpsInside ↔ f.JumpsInside

/-- Assigning owners changes none of the content. -/
theorem sameContent_assignOwners (f : Function) (id : Nat) : SameContent f (f.assignOwners id) :=
  ⟨rfl, (map_content_placeLabels id 0 f.labels).symm⟩

/-- After owners have been assigned the instructions are numbered through. -/
theorem positions_assignOwners (f : Function) (id : Nat) :
    (f.assignOwners id).instructions.map Instruction.position =
      List.range (f.assignOwners id).instructions.length := by
  have hpositions := map_position_placeLabels id 0 f.labels
  have hlength : (f.assignOwners id).instructions.length = f.instructions.length := by
    simpa using (congrArg List.length (sameContent_assignOwners f id).contents_eq).symm
  rw [hlength, List.range_eq_range']
  exact hpositions

/-- **Assigning owners** leaves the content, and sets the owners and the positions. -/
theorem reowned_assignOwners (f : Function) (id : Nat) : f.Reowned id (f.assignOwners id) := by
  have hsame := sameContent_assignOwners f id
  exact ⟨rfl, fun _ hl _ hinst => owned_placeLabels hl hinst, positions_assignOwners f id, hsame,
    ⟨hsame.symm.entered, hsame.entered⟩, ⟨hsame.symm.numbered, hsame.numbered⟩,
    ⟨hsame.symm.terminated, hsame.terminated⟩, ⟨hsame.symm.definesOnce, hsame.definesOnce⟩,
    ⟨hsame.symm.jumpsInside, hsame.jumpsInside⟩⟩

/-- **Validation decides the contract, and setting owners anew only makes the owners right.** -/
theorem validate_decides (f : Function) :
    (f.validate = .ok () ↔ f.labels ≠ [] ∧ f.Entered ∧ f.Numbered ∧ f.Terminated ∧ f.Owned ∧
      f.DefinesOnce ∧ f.JumpsInside) ∧
      (∀ id, f.Reowned id (f.assignOwners id)) ∧
        (∀ m : Module, ∃ g, (m.add f).functions = m.functions ++ [g] ∧
          f.Reowned m.functions.length g) ∧
          ∀ (name : String) (params : List String) (labels : List (String × List Instruction)),
            ∃ raw : Function, raw.entry = 0 ∧ raw.Numbered ∧
              raw.labels.map (fun label => (label.name, label.instructions)) = labels ∧
                raw.Reowned 0 (ofLabels name params labels) := by
  refine ⟨?_, reowned_assignOwners f, fun m => ⟨_, rfl, reowned_assignOwners f _⟩,
    fun name params labels => ⟨_, rfl, ?_, ?_, reowned_assignOwners _ 0⟩⟩
  · rw [validate_eq_ok_iff, contract_iff_conditions, iff_and_self]
    exact fun h => List.ne_nil_of_length_pos (Nat.zero_lt_of_lt h.1)
  · intro i label hi
    simp only [List.getElem?_map, List.getElem?_zipIdx, Option.map_map,
      Option.map_eq_some_iff] at hi
    obtain ⟨_, -, rfl⟩ := hi
    exact Nat.zero_add i
  · rw [List.map_map]
    exact List.zipIdx_map_fst 0 labels

end Function
end StructuredFlow
