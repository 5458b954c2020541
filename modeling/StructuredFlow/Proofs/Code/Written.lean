/-
# What is written

Writing code draws on the registry, stops at the first fault and fails on targets that
have no jump.  Each of its functions has a written form that does none of this: what is
written when the index of every label is known.  Of each function it is shown at once
which indices it asks for, which fault it reports, and that otherwise it writes the
written form, under the indices of any registry that the present one grows into
(`Does`).

| part | asks for | is refused for |
| --- | --- | --- |
| a target | the label that it jumps to | nothing |
| a switch | its cases, then the default | nothing |
| a label | what its instructions ask for | its first instruction that is |
| a dispatch | its entry, then each member before its targets | its first member that is |
| a tree | what its leaves ask for, in preorder | the first of its leaf labels that is |

This presumes that each target can be written at its place (`Writable`).
-/

import StructuredFlow.BlockTree.Traversal
import StructuredFlow.Proofs.Code.Expression
import StructuredFlow.Proofs.Code.Search
import StructuredFlow.Proofs.BlockTree.Leaves
import StructuredFlow.Proofs.Registry

namespace StructuredFlow
namespace Emission

/-! ### The written form -/

namespace Source

variable (s : Source)

/-- The label at a position. -/
def label (id : Nat) : Label := s.labels.getD id default

/-- The name of the construct entered at a label. -/
def construct (entry : Nat) : String := "L_" ++ s.identifiers.getD entry ""

/-- The dispatch entered at a label. -/
def dispatch (entry : Nat) (labels : List Nat) : Dispatch :=
  ⟨"D_" ++ s.identifiers.getD entry "", labels⟩

/-- The statement of an instruction. -/
def statement (inst : Instruction) : String :=
  match inst.statement s.bindings with
  | .ok text => text
  | .error _ => ""

/-- Tests whether labels are printed as a dispatch. -/
def dispatches (kind : LeafKind) (entry : Nat) (labels : List Nat) : Bool :=
  match kind with
  | .simple => false
  | .dispatch => !(decide (labels.length = 1) && (s.label entry).realTargets.isEmpty)

/-- The dispatch around the labels of a leaf, if they are printed as one. -/
def around (kind : LeafKind) (entry : Nat) (labels : List Nat) : Option Dispatch :=
  if s.dispatches kind entry labels then some (s.dispatch entry labels) else none

/-- The first instruction of labels that cannot be written. -/
def refusal? (ids : List Nat) : Option StatementError :=
  ids.findSome? fun id => (s.label id).refusal?

end Source

namespace Written

variable (s : Source) (index : Nat → Nat) (around : Option Dispatch)

/-- The jump to a target. -/
def jump : Target → Option Jump
  | .label id => around.map fun d => .redirect s.config.dispatchVariable (index id) d.name
  | .breakOf entry => some (.leave (s.construct entry))
  | .continueOf entry => some (.restart (s.construct entry))
  | .nop => around.map fun d => .leave d.name

/-- The statements of a control transfer. -/
def transfer (inst : Instruction) : Transfer → List Statement
  | .branch target => ((jump s index around target).map Statement.jump).toList
  | .condBranch condition ifTrue ifFalse =>
    twoWay ⟨condition.expression, false⟩ (jump s index around ifTrue) (jump s index around ifFalse)
  | .switch scrutinee default cases =>
    manyWay
      (cases.map fun (value, target) =>
        (⟨s!"{scrutinee.expression} == {value}", false⟩, jump s index around target))
      (jump s index around default)
  | .invoke _ _ normal unwind =>
    .action (s.statement inst) :: twoWay ⟨"!" ++ s.config.exceptionFlag, false⟩
      (jump s index around normal) (jump s index around unwind)
  | .ret value => [.ret (value.map Operand.expression)]
  | .unreachable => []

/-- The statements of an instruction. -/
def instruction (inst : Instruction) : List Statement :=
  match inst.action with
  | .operation _ => [.action (s.statement inst)]
  | .transfer t => transfer s index around inst t

/-- The statements of a label. -/
def label (id : Nat) : List Statement :=
  let body := (s.label id).instructions.flatMap (instruction s index around)
  if s.config.annotate && around.isNone then .comment (s.label id).name :: body else body

/-- A case of a dispatch. -/
def dispatchCase (d : Dispatch) (id : Nat) : Case :=
  ⟨index id, if s.config.annotate then some (s.label id).name else none, label s index (some d) id⟩

/-- The code of a block without parts. -/
def leaf (kind : LeafKind) (entry : Nat) (labels : List Nat) : Code :=
  match s.around kind entry labels with
  | some d =>
    .dispatch d.name s.config.dispatchVariable (index entry) (labels.map (dispatchCase s index d))
      .done
  | none => .statements (label s index none entry) .done

/-- The code of a chain of blocks. -/
def tree : BlockTree → Code
  | .nil => .done
  | .leaf kind entry labels next => leaf s index kind entry labels ++ tree next
  | .loop entry _ inc rest next =>
    .loop (s.construct entry) (tree inc ++ tree rest) (tree next)
  | .cond _ _ false test check ifTrue ifFalse next =>
    tree check ++ conditional test ifFalse (tree ifTrue) (tree ifFalse) ++ tree next
  | .cond entry _ true test check ifTrue ifFalse next =>
    tree check ++
      .once (s.construct entry) (conditional test ifFalse (tree ifTrue) (tree ifFalse)) .done ++
      tree next

end Written

/-! ### The indices asked for -/

end Emission

/-- The targets in the order in which they are written: cases before the default. -/
def Transfer.writtenTargets : Transfer → List Target
  | .switch _ default cases => cases.map Prod.snd ++ [default]
  | t => t.targets

/-- The targets that are written are the targets. -/
theorem Transfer.mem_writtenTargets {t : Transfer} {target : Target} :
    target ∈ t.writtenTargets ↔ target ∈ t.targets := by
  cases t with
  | switch scrutinee default cases => simp [writtenTargets, targets, or_comm]
  | _ => rfl

/-- The label whose index a target asks for, if it is one. -/
def Target.requests (target : Target) : List Nat := target.label?.toList

/-- The labels whose indices an instruction asks for. -/
def Instruction.requests (inst : Instruction) : List Nat :=
  match inst.action with
  | .operation _ => []
  | .transfer t => t.writtenTargets.flatMap Target.requests

/-- The labels whose indices a label asks for. -/
def Label.requests (label : Label) : List Nat := label.instructions.flatMap Instruction.requests

namespace Emission

/-- The labels whose indices members of a dispatch ask for. -/
def Source.caseRequests (s : Source) (labels : List Nat) : List Nat :=
  labels.flatMap fun id => id :: (s.label id).requests

/-- The labels whose indices the first block itself asks for. -/
def Source.blockRequests (s : Source) : BlockTree → List Nat
  | .leaf kind entry labels _ =>
    if s.dispatches kind entry labels then entry :: s.caseRequests labels else []
  | _ => []

/-- The labels whose indices a tree asks for, in order. -/
def Source.requests (s : Source) (t : BlockTree) : List Nat :=
  t.descendants.flatMap s.blockRequests

section Requests

variable (s : Source) (kind : LeafKind) (entry : Nat) (labels : List Nat) (breaking : Bool)
  (test : Condition) (inc rest check ifTrue ifFalse next : BlockTree)

/-- Where nothing is written nothing is asked for. -/
@[simp] theorem requests_nil : s.requests .nil = [] := by
  simp [Source.requests, BlockTree.descendants_eq_preorder, BlockTree.preorder]

/-- A leaf asks before what follows it. -/
@[simp] theorem requests_leaf : s.requests (.leaf kind entry labels next) =
    s.blockRequests (.leaf kind entry labels .nil) ++ s.requests next := by
  simp [Source.requests, BlockTree.descendants_eq_preorder, BlockTree.preorder,
    Source.blockRequests]

/-- A loop asks for what its parts do, and then what follows it. -/
@[simp] theorem requests_loop : s.requests (.loop entry labels inc rest next) =
    s.requests inc ++ s.requests rest ++ s.requests next := by
  simp [Source.requests, BlockTree.descendants_eq_preorder, BlockTree.preorder,
    Source.blockRequests]

/-- A conditional asks for what its check and its arms do, and then what follows it. -/
@[simp] theorem requests_cond :
    s.requests (.cond entry labels breaking test check ifTrue ifFalse next) =
      s.requests check ++ s.requests ifTrue ++ s.requests ifFalse ++ s.requests next := by
  simp [Source.requests, BlockTree.descendants_eq_preorder, BlockTree.preorder,
    Source.blockRequests]

end Requests

/-! ### What an emission does -/

/-- An emission asks for the indices of labels of a function, in order, and gives
`value` of the indices; or it reports a fault. -/
def Does {α : Type} (function : Nat) (ids : List Nat) (fault : Option EmissionError)
    (value : (Nat → Nat) → α) (x : Emission α) : Prop :=
  ∀ r : Registry, match fault with
    | none => ∃ a, x.run.run r = (.ok a, r.assignAll (ids.map (Prod.mk function))) ∧
      ∀ r' : Registry, (r.assignAll (ids.map (Prod.mk function))).keys <+: r'.keys →
        a = value (r'.index function)
    | some error => ∃ r', x.run.run r = (.error error, r')

namespace Does

variable {α β : Type} {function : Nat} {ids ids' : List Nat} {fault fault' : Option EmissionError}
  {value : (Nat → Nat) → α} {value' : α → (Nat → Nat) → β} {x : Emission α} {f : α → Emission β}

/-- A result that is there asks for nothing. -/
theorem pure (function : Nat) (a : α) :
    Does function [] none (fun _ => a) (Pure.pure a : Emission α) :=
  fun _ => ⟨a, rfl, fun _ _ => rfl⟩

/-- A fault that is reported leaves the rest unwritten. -/
theorem throw (function : Nat) (ids : List Nat) (error : EmissionError)
    (value : (Nat → Nat) → α) :
    Does function ids (some error) value (MonadExcept.throw error : Emission α) :=
  fun r => ⟨r, rfl⟩

/-- One emission after another: the requests add up, the first fault counts. -/
theorem bind (hx : Does function ids fault value x)
    (hf : ∀ a, Does function ids' fault' (value' a) (f a)) :
    Does function (ids ++ ids') (fault.or fault') (fun index => value' (value index) index)
      (x >>= f) := by
  intro r
  have hrun : (x >>= f).run.run r = match x.run.run r with
      | (.ok a, r') => (f a).run.run r'
      | (.error error, r') => (.error error, r') := by
    rw [ExceptT.run_bind, StateT.run_bind]
    cases x.run.run r with
    | mk result r' => cases result <;> rfl
  cases fault with
  | some error =>
    obtain ⟨r', hr'⟩ := hx r
    exact ⟨r', by rw [hrun, hr']⟩
  | none =>
    obtain ⟨a, ha, hvalue⟩ := hx r
    have hnext := hf a (r.assignAll (ids.map (Prod.mk function)))
    rw [Option.none_or, hrun, ha, List.map_append, Registry.assignAll_append]
    cases fault' with
    | some error => exact hnext
    | none =>
      obtain ⟨b, hb, hvalue'⟩ := hnext
      refine ⟨b, hb, fun r' hr' => ?_⟩
      have hgrown := (Registry.prefix_assignAll _ _).trans hr'
      rw [hvalue' r' hr', hvalue r' hgrown]

/-- An emission may be described in other words. -/
theorem congr {value'' : (Nat → Nat) → α} (h : Does function ids fault value x) (hids : ids = ids')
    (hfault : fault = fault') (hvalue : ∀ index, value index = value'' index) :
    Does function ids' fault' value'' x := by
  obtain rfl : value = value'' := funext hvalue
  subst hids hfault
  exact h

end Does

/-! ### Targets that can be written -/

/-- A target has a jump among the labels of a dispatch, if one is around. -/
def Writable (s : Source) (around : Option Dispatch) : Target → Prop
  | .label id => ∃ d, around = some d ∧ id ∈ d.members
  | .breakOf entry | .continueOf entry => entry < s.identifiers.length
  | .nop => True

/-- No jump leads to a label where no dispatch is around. -/
theorem not_writable_label {s : Source} {id : Nat} : ¬Writable s none (.label id) := by
  rintro ⟨d, hd, -⟩
  exact absurd hd (by simp)

/-- The labels of a dispatch ascend, if one is around. -/
def Ascends (around : Option Dispatch) : Prop :=
  ∀ d, around = some d → d.members.Pairwise (· < ·)

/-- What a jump to a target needs is found: the label among those of the dispatch around it,
the identifier that names the construct. -/
def Found (s : Source) (around : Option Dispatch) : Target → Prop
  | .label id => ∃ d, around = some d ∧ d.holds id = true
  | .breakOf entry | .continueOf entry => entry < s.identifiers.length
  | .nop => True

section Parts

variable {s : Source} {around : Option Dispatch} {target : Target}

/-- A request asks for its label and gives its index. -/
theorem does_requestIndex (s : Source) (id : Nat) :
    Does s.function [id] none (fun index => index id) (requestIndex s id) := by
  intro r
  refine ⟨r.index s.function id, rfl, fun r' hr' => ?_⟩
  exact (Registry.index_of_assign_grown hr').symm

/-- A construct has the name of the label that it is entered at. -/
theorem constructName_eq {entry : Nat} (h : entry < s.identifiers.length) :
    constructName s entry = Pure.pure (s.construct entry) := by
  simp [constructName, identifierAt, Source.construct, List.getElem?_eq_getElem h]

/-- In a dispatch whose labels ascend the search finds each of them. -/
theorem Writable.found (h : Writable s around target) (hup : Ascends around) :
    Found s around target := by
  cases target with
  | label id =>
    obtain ⟨d, rfl, hmem⟩ := h
    exact ⟨d, rfl, (Dispatch.holds_iff (hup d rfl)).mpr hmem⟩
  | _ => exact h

/-- **What the jump to a target does**: it asks for the label that it goes to, if it goes to
one. -/
theorem does_jumpTo (h : Found s around target) :
    Does s.function target.requests none (fun index => Written.jump s index around target)
      (jumpTo s around target) := by
  cases target with
  | label id =>
    obtain ⟨d, rfl, hholds⟩ := h
    have hfound : (some d).filter (fun d => d.holds id) = some d := by simp [hholds]
    rw [jumpTo, jumpToLabel, hfound]
    exact (does_requestIndex s id).bind fun i => Does.pure _ _
  | breakOf entry =>
    rw [jumpTo, constructName_eq h, pure_bind]
    exact Does.pure _ _
  | continueOf entry =>
    rw [jumpTo, constructName_eq h, pure_bind]
    exact Does.pure _ _
  | nop => exact Does.pure _ _

/-- What the arms of a switch do: they ask for what their targets do, in order. -/
theorem does_caseArms (scrutinee : String) {cases : List (String × Target)}
    (h : ∀ target ∈ cases.map Prod.snd, Found s around target) :
    Does s.function ((cases.map Prod.snd).flatMap Target.requests) none
      (fun index => cases.map fun (value, target) =>
        (⟨s!"{scrutinee} == {value}", false⟩, Written.jump s index around target))
      (caseArms s around scrutinee cases) := by
  induction cases with
  | nil => exact Does.pure _ _
  | cons first rest ih =>
    obtain ⟨value, target⟩ := first
    exact ((does_jumpTo (h target (by simp))).bind fun jump =>
      (ih fun target ht => h target (by simp_all)).bind fun arms => Does.pure _ _).congr
        (by simp) rfl fun index => rfl

/-- What the statement of an instruction does: it asks for nothing, and is refused if the
instruction is. -/
theorem does_statementText {inst : Instruction}
    (h : ∀ error, inst.statement s.bindings = .error error ↔ inst.refusal? = some error) :
    Does s.function [] (inst.refusal?.map .statement) (fun _ => s.statement inst)
      (statementText s inst) := by
  rw [statementText, Source.statement]
  cases hs : inst.statement s.bindings with
  | error error =>
    rw [(h error).mp hs]
    exact Does.throw _ _ _ _
  | ok text =>
    have hnone : inst.refusal? = none := by
      refine Option.eq_none_iff_forall_not_mem.mpr fun error herror => ?_
      exact absurd ((h error).mpr herror) (by simp [hs])
    rw [hnone]
    exact Does.pure _ _

/-- **What a control transfer does**: it asks for what its targets do, in the order in which they
are written, and is never refused. -/
theorem does_transferStatements {inst : Instruction} {t : Transfer}
    (ht : inst.action = .transfer t) (h : ∀ target ∈ t.targets, Found s around target) :
    Does s.function (t.writtenTargets.flatMap Target.requests) none
      (fun index => Written.transfer s index around inst t)
      (transferStatements s around inst t) := by
  have htwo : ∀ first second : Target, Found s around first → Found s around second →
      ∀ {α : Type} (k : Option Jump → Option Jump → α),
      Does s.function ([first, second].flatMap Target.requests) none
        (fun index => k (Written.jump s index around first) (Written.jump s index around second))
        (do
          let first ← jumpTo s around first
          let second ← jumpTo s around second
          return k first second) := by
    intro first second hfirst hsecond α k
    exact ((does_jumpTo hfirst).bind fun _ => (does_jumpTo hsecond).bind fun _ =>
      Does.pure _ _).congr (by simp) rfl fun _ => rfl
  cases t with
  | branch target =>
    exact ((does_jumpTo (h target (by simp [Transfer.targets]))).bind fun _ =>
      Does.pure _ _).congr (by simp [Transfer.writtenTargets, Transfer.targets]) rfl fun _ => rfl
  | condBranch condition ifTrue ifFalse =>
    exact htwo ifTrue ifFalse (h _ (by simp [Transfer.targets]))
      (h _ (by simp [Transfer.targets])) _
  | switch scrutinee default cases =>
    exact ((does_caseArms _ fun target ht => h target (by simp_all [Transfer.targets])).bind
      fun _ => (does_jumpTo (h default (by simp [Transfer.targets]))).bind fun _ =>
        Does.pure _ _).congr (by simp [Transfer.writtenTargets]) rfl fun _ => rfl
  | invoke callee args normal unwind =>
    have hcall : ∀ error, inst.statement s.bindings = .error error ↔
        inst.refusal? = some error := by
      simp [Instruction.statement, Instruction.refusal?, ht]
    have hnone : inst.refusal? = none := by rw [Instruction.refusal?, ht]
    refine ((does_statementText hcall).bind fun _ =>
      htwo normal unwind (h _ (by simp [Transfer.targets])) (h _ (by simp [Transfer.targets]))
        _).congr rfl ?_ fun _ => rfl
    rw [hnone]
    rfl
  | ret value => exact Does.pure _ _
  | unreachable => exact Does.pure _ _

/-- What an instruction does: it asks for what its targets do, and is refused if it cannot be
written. -/
theorem does_instructionStatements (hup : Ascends around) {inst : Instruction}
    (h : ∀ target ∈ inst.action.targets, Writable s around target) :
    Does s.function inst.requests (inst.refusal?.map .statement)
      (fun index => Written.instruction s index around inst)
      (instructionStatements s around inst) := by
  rw [instructionStatements, Instruction.requests]
  unfold Written.instruction
  cases ha : inst.action with
  | operation op =>
    refine ((does_statementText fun _ => Instruction.statement_eq_error_iff ha).bind fun _ =>
      Does.pure _ _).congr rfl ?_ fun _ => rfl
    rw [Option.or_none]
  | transfer t =>
    have hnone : inst.refusal? = none := by rw [Instruction.refusal?, ha]
    rw [hnone]
    rw [ha] at h
    exact does_transferStatements ha fun target ht => (h target ht).found hup

/-- What instructions do: they ask one after the other, and the first that is refused counts. -/
theorem does_bodyStatements (hup : Ascends around) {insts : List Instruction}
    (h : ∀ inst ∈ insts, ∀ target ∈ inst.action.targets, Writable s around target) :
    Does s.function (insts.flatMap Instruction.requests)
      ((insts.findSome? Instruction.refusal?).map .statement)
      (fun index => insts.flatMap (Written.instruction s index around))
      (bodyStatements s around insts) := by
  induction insts with
  | nil => exact Does.pure _ _
  | cons inst rest ih =>
    refine ((does_instructionStatements hup (h inst List.mem_cons_self)).bind fun _ =>
      (ih fun inst hinst => h inst (List.mem_cons_of_mem _ hinst)).bind fun _ =>
        Does.pure _ _).congr (by simp) ?_ fun _ => by rw [List.flatMap_cons]
    rw [List.findSome?_cons, Option.or_none]
    cases inst.refusal? <;> rfl

/-- There is a label, and each of its targets can be written. -/
structure WritableLabel (s : Source) (around : Option Dispatch) (id : Nat) : Prop where
  /-- The position is one of a label. -/
  lt_length : id < s.labels.length
  /-- Its targets have jumps. -/
  targets : ∀ inst ∈ (s.label id).instructions, ∀ target ∈ inst.action.targets,
    Writable s around target

/-- The label at a position is found. -/
theorem WritableLabel.getElem?_eq {id : Nat} (h : WritableLabel s around id) :
    s.labels[id]? = some (s.label id) := by
  simp [Source.label, List.getElem?_eq_getElem h.lt_length]

/-- A label that is in no dispatch asks for nothing. -/
theorem WritableLabel.requests_eq {id : Nat} (h : WritableLabel s none id) :
    (s.label id).requests = [] := by
  refine List.flatMap_eq_nil_iff.mpr fun inst hinst => ?_
  have htargets := h.targets inst hinst
  rw [Instruction.requests]
  cases ha : inst.action with
  | operation op => rfl
  | transfer t =>
    refine List.flatMap_eq_nil_iff.mpr fun target ht => ?_
    rw [ha] at htargets
    have hwritable := htargets target (Transfer.mem_writtenTargets.mp ht)
    cases target with
    | label id => exact absurd hwritable not_writable_label
    | _ => rfl

/-- What a label does: it asks for what its instructions do, and its first instruction that is
refused counts. -/
theorem does_labelStatements (hup : Ascends around) {id : Nat} (h : WritableLabel s around id) :
    Does s.function (s.label id).requests ((s.label id).refusal?.map .statement)
      (fun index => Written.label s index around id) (labelStatements s around id) := by
  have hlabel : labelAt s id = Pure.pure (s.label id) := by rw [labelAt, h.getElem?_eq]
  rw [labelStatements, hlabel, pure_bind]
  exact ((does_bodyStatements hup h.targets).bind fun _ => Does.pure _ _).congr
    (by rw [List.append_nil]; rfl) (by rw [Option.or_none]; rfl) fun _ => rfl

/-- Of labels the first that is refused counts. -/
theorem refusal?_cons (s : Source) (id : Nat) (ids : List Nat) :
    s.refusal? (id :: ids) = ((s.label id).refusal?).or (s.refusal? ids) := by
  rw [Source.refusal?, List.findSome?_cons]
  cases (s.label id).refusal? <;> rfl

/-- Of labels in two parts the first that is refused counts. -/
theorem refusal?_append (s : Source) (ids ids' : List Nat) :
    s.refusal? (ids ++ ids') = (s.refusal? ids).or (s.refusal? ids') := List.findSome?_append

/-- What the cases of a dispatch do: each asks for its label before the targets of it. -/
theorem does_dispatchCases {d : Dispatch} (hup : d.members.Pairwise (· < ·)) {labels : List Nat}
    (h : ∀ id ∈ labels, WritableLabel s (some d) id) :
    Does s.function (s.caseRequests labels) ((s.refusal? labels).map .statement)
      (fun index => labels.map (Written.dispatchCase s index d)) (dispatchCases s d labels) := by
  have hascends : Ascends (some d) := fun d' hd' => Option.some.inj hd' ▸ hup
  induction labels with
  | nil => exact Does.pure _ _
  | cons id rest ih =>
    have hid := h id List.mem_cons_self
    have hrest := ih fun a ha => h a (List.mem_cons_of_mem _ ha)
    refine ((does_requestIndex s id).bind fun _ => (does_labelStatements hascends hid).bind fun _ =>
      hrest.bind fun _ => Does.pure _ _).congr (by simp [Source.caseRequests]) ?_ fun index => ?_
    · rw [refusal?_cons, Option.or_none, Option.none_or, Option.map_or]
    · rw [List.map_cons, Written.dispatchCase, hid.getElem?_eq, Option.map_some]

end Parts

/-! ### Blocks -/

/-- The first block can be written: its labels, or the name of its construct. -/
def WritableBlock (s : Source) : BlockTree → Prop
  | .nil => True
  | .leaf kind entry labels _ => entry ∈ labels ∧ labels.Pairwise (· < ·) ∧
    (s.dispatches kind entry labels = false → labels = [entry]) ∧
    ∀ a ∈ labels, WritableLabel s (s.around kind entry labels) a
  | .loop entry .. | .cond entry .. => entry < s.identifiers.length

section Blocks

variable {s : Source}

/-- What a dispatch does: it asks for its entry and then for what its cases do. -/
theorem does_dispatchCode {entry : Nat} {labels : List Nat} (hentry : entry < s.identifiers.length)
    (hup : labels.Pairwise (· < ·))
    (h : ∀ a ∈ labels, WritableLabel s (some (s.dispatch entry labels)) a) :
    Does s.function (entry :: s.caseRequests labels) ((s.refusal? labels).map .statement)
      (fun index => .dispatch (s.dispatch entry labels).name s.config.dispatchVariable (index entry)
        (labels.map (Written.dispatchCase s index (s.dispatch entry labels))) .done)
      (dispatchCode s entry labels) := by
  have hname : dispatchName s entry = Pure.pure (s.dispatch entry labels).name := by
    simp [dispatchName, identifierAt, Source.dispatch, List.getElem?_eq_getElem hentry]
  have hcases := does_dispatchCases (d := s.dispatch entry labels) hup h
  simp only [dispatchCode, hname, pure_bind]
  exact ((does_requestIndex s entry).bind fun _ => hcases.bind fun _ => Does.pure _ _).congr
    (by simp) (by rw [Option.none_or, Option.or_none]) fun _ => rfl

/-- Whether a leaf is a dispatch is found without asking for anything. -/
theorem leafCode_eq {kind : LeafKind} {entry : Nat} {labels : List Nat}
    (h : s.labels[entry]? = some (s.label entry)) : leafCode s kind entry labels =
      if s.dispatches kind entry labels then dispatchCode s entry labels
      else do return .statements (← labelStatements s none entry) .done := by
  cases kind with
  | simple => rfl
  | dispatch =>
    by_cases hone : labels.length = 1
    · cases hempty : (s.label entry).realTargets.isEmpty <;>
        simp [leafCode, isLone, labelAt, h, Source.dispatches, hone, hempty]
    · simp [leafCode, isLone, Source.dispatches, hone]

/-- What a leaf does, as a dispatch or not. -/
theorem does_leafCode (hnames : s.identifiers.length = s.labels.length) {kind : LeafKind}
    {entry : Nat} {labels : List Nat} {next : BlockTree}
    (h : WritableBlock s (.leaf kind entry labels next)) :
    Does s.function (s.blockRequests (.leaf kind entry labels next))
      ((s.refusal? labels).map .statement)
      (fun index => Written.leaf s index kind entry labels) (leafCode s kind entry labels) := by
  obtain ⟨hentry, hup, hflat, hlabels⟩ := h
  rw [leafCode_eq (hlabels entry hentry).getElem?_eq, Source.blockRequests]
  unfold Written.leaf
  rw [Source.around] at hlabels ⊢
  split
  next hdispatch =>
    rw [if_pos hdispatch] at hlabels
    exact does_dispatchCode (hnames ▸ (hlabels entry hentry).lt_length) hup hlabels
  next hdispatch =>
    obtain rfl := hflat (by simpa using hdispatch)
    rw [if_neg hdispatch] at hlabels
    have hlabel := hlabels entry hentry
    refine ((does_labelStatements (fun d hd => absurd hd (by simp)) hlabel).bind fun _ =>
      Does.pure _ _).congr ?_ ?_ fun _ => rfl
    · rw [hlabel.requests_eq, List.append_nil]
    · rw [refusal?_cons, Option.or_none, Source.refusal?, List.findSome?_nil, Option.or_none]

/-- **What the writing of a tree does.** -/
theorem does_treeCode (hnames : s.identifiers.length = s.labels.length) {t : BlockTree}
    (h : ∀ b ∈ t.preorder, WritableBlock s b) :
    Does s.function (s.requests t) ((s.refusal? t.leafLabels).map .statement)
      (fun index => Written.tree s index t) (treeCode s t) := by
  induction t with
  | nil =>
    rw [requests_nil, BlockTree.leafLabels_nil]
    exact Does.pure _ _
  | leaf kind entry labels next ih =>
    have hfirst := does_leafCode hnames (h _ List.mem_cons_self)
    have hnext := ih fun b hb => h b (List.mem_cons_of_mem _ hb)
    refine (hfirst.bind fun _ => hnext.bind fun _ => Does.pure _ _).congr ?_ ?_ fun _ => rfl
    · rw [requests_leaf, List.append_nil]
      rfl
    · rw [BlockTree.leafLabels_leaf, refusal?_append, Option.or_none, Option.map_or]
  | loop entry labels inc rest next ihInc ihRest ihNext =>
    have hname := constructName_eq (h _ List.mem_cons_self)
    simp only [BlockTree.preorder, List.mem_cons, List.mem_append] at h
    have hinc := ihInc fun b hb => h b (Or.inr (Or.inl (Or.inl hb)))
    have hrest := ihRest fun b hb => h b (Or.inr (Or.inl (Or.inr hb)))
    have hnext := ihNext fun b hb => h b (Or.inr (Or.inr hb))
    rw [treeCode, hname, pure_bind]
    exact (hinc.bind fun _ => hrest.bind fun _ => hnext.bind fun _ => Does.pure _ _).congr (by simp)
      (by simp [refusal?_append, Option.map_or]) fun _ => rfl
  | cond entry labels breaking test check ifTrue ifFalse next ihCheck ihTrue ihFalse ihNext =>
    have hname := constructName_eq (h _ List.mem_cons_self)
    simp only [BlockTree.preorder, List.mem_cons, List.mem_append] at h
    have hcheck := ihCheck fun b hb => h b (Or.inr (Or.inl (Or.inl (Or.inl hb))))
    have htrue := ihTrue fun b hb => h b (Or.inr (Or.inl (Or.inl (Or.inr hb))))
    have hfalse := ihFalse fun b hb => h b (Or.inr (Or.inl (Or.inr hb)))
    have hnext := ihNext fun b hb => h b (Or.inr (Or.inr hb))
    cases breaking with
    | false =>
      exact (hcheck.bind fun _ => htrue.bind fun _ => hfalse.bind fun _ => hnext.bind fun _ =>
        Does.pure _ _).congr (by simp) (by simp [refusal?_append, Option.map_or]) fun _ => rfl
    | true =>
      simp only [treeCode, hname, pure_bind]
      exact (hcheck.bind fun _ => htrue.bind fun _ => hfalse.bind fun _ => hnext.bind fun _ =>
        Does.pure _ _).congr (by simp) (by simp [refusal?_append, Option.map_or]) fun _ => rfl

end Blocks

end Emission
end StructuredFlow
