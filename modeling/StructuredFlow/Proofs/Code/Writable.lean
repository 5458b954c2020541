/-
# What structuring leaves can be written

The code of a label is written from the label as structuring left it: the operations
of the function, and its control transfer with some targets turned into markers
(`Retargets`).  In a structured function each of these targets has a jump at its place:
a jump leads to a member of the dispatch it stands in, and a marker names a construct
around it, which is entered at a label (`writableBlock`).
-/

import StructuredFlow.Proofs.Code.Written
import StructuredFlow.Proofs.Structuring.Partition
import StructuredFlow.Proofs.Structuring.Scoping
import StructuredFlow.Proofs.Text.Identifier

namespace StructuredFlow

open Structuring

/-! ### Labels with their targets exchanged -/

namespace Function

variable {f : Function} {ts : Transfers} {a : Nat}

/-- A label that ends in the transfer `t`, and the same label with targets exchanged. -/
structure Retargets (f : Function) (ts : Transfers) (a : Nat) (label : Label)
    (body : List Instruction) (last : Instruction) (t : Transfer) (g : Target → Target) :
    Prop where
  /-- It is the label at the position. -/
  label_eq : f.labels[a]? = some label
  /-- It ends in an instruction. -/
  instructions_eq : label.instructions = body ++ [last]
  /-- Those before it are operations. -/
  operations : ∀ inst ∈ body, ∃ op, inst.action = .operation op
  /-- It is the transfer. -/
  action_eq : last.action = .transfer t
  /-- The table holds the transfer with targets exchanged. -/
  at?_eq : ts.at? a = some (t.mapTargets g)
  /-- That is what the other label ends in. -/
  getElem?_eq : (f.withTransfers ts)[a]? = some
    { label with instructions := body ++ [{ last with action := .transfer (t.mapTargets g) }] }

/-- **A label of a validated function only has targets exchanged.** -/
theorem exists_retargets (hf : f.validate = .ok ()) {p : Nat → Prop}
    (hmarks : Transfers.MarksWithin p f.transfers ts) (ha : a < f.labels.length) :
    ∃ label body last t g, f.Retargets ts a label body last t g := by
  have hlabel : f.labels[a]? = some f.labels[a] := List.getElem?_eq_getElem ha
  obtain ⟨body, last, hinst, hlast, hbody⟩ :=
    terminated_of_validate hf (List.mem_of_getElem? hlabel)
  obtain ⟨t, ht⟩ : ∃ t, last.action = .transfer t := by
    cases h : last.action with
    | operation op =>
      simp [Instruction.isTransfer, Instruction.transfer?, h, Action.transfer?] at hlast
    | transfer t => exact ⟨t, rfl⟩
  obtain ⟨g, -, hg⟩ := hmarks.marks a
  have hat : Transfers.at? f.transfers a = some t := by
    rw [at?_transfers, hlabel, Option.bind_some, Label.transfer?, hinst, List.getLast?_concat]
    simp [Instruction.transfer?, ht, Action.transfer?]
  rw [hat, Option.map_some] at hg
  refine ⟨f.labels[a], body, last, t, g, hlabel, hinst, fun inst hi => ?_, ht, hg, ?_⟩
  · have hop := hbody inst hi
    cases h : inst.action with
    | operation op => exact ⟨op, rfl⟩
    | transfer t => simp [Instruction.isTransfer, Instruction.transfer?, h, Action.transfer?] at hop
  · rw [withTransfers, List.getElem?_mapIdx, hlabel, Option.map_some, hg]
    simp only [Label.withTransfer, hinst, List.getLast?_concat, hlast, if_true,
      List.dropLast_concat]

/-- Structuring keeps the number of labels. -/
@[simp] theorem length_withTransfers (f : Function) (ts : Transfers) :
    (f.withTransfers ts).length = f.labels.length := by
  simp [withTransfers]

end Function

namespace Function.Retargets

variable {f : Function} {ts : Transfers} {a : Nat} {label : Label} {body : List Instruction}
  {last : Instruction} {t : Transfer} {g : Target → Target}

/-- The targets of a label are those of its exchanged control transfer. -/
theorem targets_eq (h : f.Retargets ts a label body last t g) :
    ts.targets a = (t.mapTargets g).targets := by
  rw [Transfers.targets, h.at?_eq]
  rfl

/-- The control transfer of a label is its last instruction. -/
theorem transfer?_eq (h : f.Retargets ts a label body last t g) : label.transfer? = some t := by
  rw [Label.transfer?, h.instructions_eq, List.getLast?_concat]
  simp [Instruction.transfer?, h.action_eq, Action.transfer?]

/-- The labels that a label jumps to are those of its exchanged control transfer. -/
theorem realTargets_eq (h : f.Retargets ts a label body last t g) :
    ({ label with instructions := body ++
      [{ last with action := .transfer (t.mapTargets g) }] } : Label).realTargets =
      (ts.targets a).filterMap Target.label? := by
  rw [h.targets_eq, Label.realTargets, Label.transfer?, List.getLast?_concat]
  rfl

/-- Exchanging targets does not matter to what can be written. -/
theorem refusal?_eq (h : f.Retargets ts a label body last t g) :
    ({ label with instructions := body ++
      [{ last with action := .transfer (t.mapTargets g) }] } : Label).refusal? =
        label.refusal? := by
  rw [Label.refusal?, Label.refusal?, h.instructions_eq]
  simp [List.findSome?_append, Instruction.refusal?, h.action_eq]

end Function.Retargets

/-- The label at a position is the one that is found there. -/
theorem Emission.Source.label_eq {s : Emission.Source} {a : Nat} {label : Label}
    (h : s.labels[a]? = some label) : s.label a = label := by
  rw [Emission.Source.label, List.getD_eq_getElem?_getD, h, Option.getD_some]

namespace BlockTree

/-- Each block of a tree whose blocks hold their entries holds its entry. -/
theorem EntriesHeld.of_mem_preorder {t b : BlockTree} (h : t.EntriesHeld) (hb : b ∈ t.preorder) :
    b.EntriesHeld := by
  induction t with
  | nil => exact absurd hb List.not_mem_nil
  | leaf kind entry labels next ih =>
    rcases List.mem_cons.mp hb with rfl | hnext
    · exact h
    · cases kind <;> exact ih h.2 hnext
  | loop entry labels inc rest next ihInc ihRest ihNext =>
    rcases List.mem_cons.mp hb with rfl | hb
    · exact h
    · obtain ⟨hinc, hrest, hnext⟩ := h
      rcases List.mem_append.mp hb with hb | hb
      · exact (List.mem_append.mp hb).elim (ihInc hinc) (ihRest hrest)
      · exact ihNext hnext hb
  | cond entry labels breaking test check ifTrue ifFalse next ihCheck ihTrue ihFalse ihNext =>
    rcases List.mem_cons.mp hb with rfl | hb
    · exact h
    · obtain ⟨hcheck, htrue, hfalse, hnext⟩ := h
      rcases List.mem_append.mp hb with hb | hb
      · rcases List.mem_append.mp hb with hb | hb
        · exact (List.mem_append.mp hb).elim (ihCheck hcheck) (ihTrue htrue)
        · exact ihFalse hfalse hb
      · exact ihNext hnext hb

/-- The labels of a leaf are leaf labels of its tree. -/
theorem mem_leafLabels_of_mem_preorder {t next : BlockTree} {kind : LeafKind} {entry : Nat}
    {labels : List Nat} (h : leaf kind entry labels next ∈ t.preorder) {a : Nat} (ha : a ∈ labels) :
    a ∈ t.leafLabels := by
  rw [leafLabels, descendants_eq_preorder]
  exact List.mem_flatMap.mpr ⟨_, h, ha⟩

/-- What catches a break or a continue is entered at the label that it names. -/
theorem Catches.constructEntry?_eq {b : BlockTree} {marker : Target} {a e : Nat}
    (h : b.Catches marker a) (hm : marker = .breakOf e ∨ marker = .continueOf e) :
    b.constructEntry? = some e := by
  cases b with
  | loop entry labels inc rest next =>
    obtain ⟨rfl | rfl, -⟩ := h <;> rcases hm with hm | hm <;> simp_all [ constructEntry?]
  | cond entry labels breaking test check ifTrue ifFalse next =>
    obtain ⟨-, rfl, -⟩ := h
    rcases hm with hm | hm <;> simp_all [ constructEntry?]
  | nil => exact absurd h id
  | leaf => exact absurd h id

end BlockTree

namespace Structuring
namespace StructuresLive

variable {f : Function} {entry : Nat} {result : Structured × List Event}
  (h : StructuresLive f.transfers entry result)
include h

/-- Structuring exchanges targets for markers only. -/
theorem marks : Transfers.MarksWithin (fun _ => True) f.transfers result.1.transfers := by
  obtain ⟨outcome, hbuilds, -, htransfers, -⟩ := h.builds
  rw [htransfers]
  exact ((marks_liveTable f.transfers entry).mono fun _ _ => trivial).trans
    (hbuilds.marks.mono fun _ _ => trivial)

/-- Each leaf label is a position of the function. -/
theorem lt_of_mem_leafLabels {a : Nat} (ha : a ∈ result.1.tree.leafLabels) :
    a < f.labels.length := by
  obtain ⟨outcome, hbuilds, htree, -, -⟩ := h.builds
  rw [htree, hbuilds.mem_leafLabels] at ha
  have hlt := LabelSet.lt_capacity_of_mem (show a ∈ Transfers.live f.transfers entry from ha)
  rwa [Transfers.capacity_live, Function.length_transfers] at hlt

/-- Loops and conditionals are entered at labels. -/
theorem lt_of_constructEntry {b : BlockTree} (hb : b ∈ result.1.tree.preorder) {e : Nat}
    (he : b.constructEntry? = some e) : e < f.labels.length := by
  obtain ⟨outcome, hbuilds, htree, -, -⟩ := h.builds
  rw [htree] at hb
  refine h.lt_of_mem_leafLabels ?_
  rw [htree, hbuilds.mem_leafLabels]
  exact hbuilds.inRequest_of_constructEntry hb he

/-- Each leaf holds its entry. -/
theorem entriesHeld : result.1.tree.EntriesHeld := by
  obtain ⟨outcome, hbuilds, htree, -, -⟩ := h.builds
  rw [htree]
  exact hbuilds.entriesHeld

/-- Each block divides up its labels. -/
theorem blocks : ∀ b ∈ result.1.tree.preorder, b.BlockPartitions := by
  obtain ⟨outcome, hbuilds, htree, -, -⟩ := h.builds
  rw [htree]
  exact hbuilds.blocks

/-- A marker names a construct that is entered at a label. -/
theorem lt_of_marker (hf : f.validate = .ok ()) (hm : f.NoMarkers) {a e : Nat}
    (ha : a ∈ result.1.tree.leafLabels) {target : Target}
    (ht : target ∈ result.1.transfers.targets a)
    (he : target = .breakOf e ∨ target = .continueOf e) : e < f.labels.length := by
  obtain ⟨b, hb, hcatches⟩ := (h.scoped hf hm).caught a ha target ht e he
  rw [BlockTree.descendants_eq_preorder] at hb
  exact h.lt_of_constructEntry hb (hcatches.constructEntry?_eq he)

/-- The leaf of a single label that jumps is a dispatch. -/
theorem around_of_jumps (hf : f.validate = .ok ()) (hm : f.NoMarkers) {s : Emission.Source}
    (hs : s.labels = f.withTransfers result.1.transfers) {kind : LeafKind} {entry a b : Nat}
    {labels : List Nat} {next : BlockTree}
    (hleaf : .leaf kind entry labels next ∈ result.1.tree.preorder) (hentry : entry ∈ labels)
    (ha : a ∈ labels) (hab : result.1.transfers.Jumps a b) :
    s.around kind entry labels = some (s.dispatch entry labels) ∧ b ∈ labels := by
  have hdescendant := BlockTree.descendants_eq_preorder result.1.tree ▸ hleaf
  have hclosed : BlockTree.LeafClosed _ (.leaf kind entry labels next) :=
    (h.scoped hf hm).leafClosed _ hdescendant
  obtain ⟨rfl, hb⟩ := hclosed a ha b (Transfers.mem_realTargets.mpr hab)
  refine ⟨if_pos ?_, hb⟩
  rw [Emission.Source.dispatches, Bool.not_eq_true', Bool.and_eq_false_imp, decide_eq_true_eq]
  intro hone
  obtain ⟨c, rfl⟩ := List.length_eq_one_iff.mp hone
  obtain rfl := List.mem_singleton.mp hentry
  obtain rfl := List.mem_singleton.mp ha
  have hlt := h.lt_of_mem_leafLabels (BlockTree.mem_leafLabels_of_mem_preorder hleaf ha)
  obtain ⟨label, body, last, t, g, hr⟩ := Function.exists_retargets hf h.marks hlt
  rw [Emission.Source.label_eq (hs ▸ hr.getElem?_eq), hr.realTargets_eq, List.isEmpty_eq_false_iff]
  exact List.ne_nil_of_mem (Transfers.mem_filterMap_label?.mpr hab)

/-- **Every target of a structured function has a jump at its place.** -/
theorem writableBlock (hf : f.validate = .ok ()) (hm : f.NoMarkers) {s : Emission.Source}
    (hs : s.labels = f.withTransfers result.1.transfers)
    (hnames : s.identifiers.length = s.labels.length) :
    ∀ b ∈ result.1.tree.preorder, Emission.WritableBlock s b := by
  have hlength : s.labels.length = f.labels.length := by rw [hs, Function.length_withTransfers]
  intro b hb
  cases b with
  | nil => trivial
  | loop entry labels inc rest next =>
    rw [Emission.WritableBlock, hnames, hlength]
    exact h.lt_of_constructEntry hb rfl
  | cond entry labels breaking test check ifTrue ifFalse next =>
    rw [Emission.WritableBlock, hnames, hlength]
    exact h.lt_of_constructEntry hb rfl
  | leaf kind entry labels next =>
    have hheld := h.entriesHeld.of_mem_preorder hb
    have hentry : entry ∈ labels := by
      cases kind with
      | simple => exact hheld.1 ▸ List.mem_singleton_self entry
      | dispatch => exact hheld.1
    refine ⟨hentry, (h.blocks _ hb).pairwise_labels, fun hflat => ?_, fun a ha => ?_⟩
    · cases kind with
      | simple => exact hheld.1
      | dispatch =>
        rw [Emission.Source.dispatches, Bool.not_eq_false', Bool.and_eq_true,
          decide_eq_true_eq] at hflat
        obtain ⟨b, rfl⟩ := List.length_eq_one_iff.mp hflat.1
        rw [List.mem_singleton.mp hentry]
    · have hleaf := BlockTree.mem_leafLabels_of_mem_preorder hb ha
      have hlt := h.lt_of_mem_leafLabels hleaf
      obtain ⟨label, body, last, t, g, hr⟩ := Function.exists_retargets hf h.marks hlt
      refine ⟨hlength ▸ hlt, fun inst hinst target ht => ?_⟩
      rw [Emission.Source.label_eq (hs ▸ hr.getElem?_eq)] at hinst
      have htarget : target ∈ result.1.transfers.targets a := by
        rcases List.mem_append.mp hinst with hinst | hinst
        · obtain ⟨op, hop⟩ := hr.operations inst hinst
          rw [hop] at ht
          exact absurd ht List.not_mem_nil
        · rw [List.mem_singleton.mp hinst] at ht
          exact hr.targets_eq ▸ ht
      cases target with
      | label b =>
        obtain ⟨haround, hmem⟩ := h.around_of_jumps hf hm hs hb hentry ha htarget
        exact ⟨_, haround, hmem⟩
      | breakOf e =>
        rw [Emission.Writable, hnames, hlength]
        exact h.lt_of_marker hf hm hleaf htarget (Or.inl rfl)
      | continueOf e =>
        rw [Emission.Writable, hnames, hlength]
        exact h.lt_of_marker hf hm hleaf htarget (Or.inr rfl)
      | nop => trivial

end StructuresLive
end Structuring

end StructuredFlow
