/-
# The instructions that the code holds

The code of a function is written by going through its tree, the labels of its leaves are
listed by going through the tree with a stack.  Both meet the labels in the same order, so
the statements of instructions that stand in the code (`Code.actions`) are those of the leaf
labels one after the other (`actions_tree`).  They are the texts of the lines that are told
apart as such, from the first line to the last (`FunctionCode.instructions_lines`), and no
other line is anything but control.  As the leaves hold each label that the entry reaches
once and no other, no instruction is lost, doubled or moved (`Function.actions_emit`).

Of the control transfers only an invoke has a statement, its call
(`Instruction.isWritten`).  Structuring exchanges targets alone, and no statement is about
targets, so it does not matter whether instructions are taken from the function or from
what structuring left of it (`Retargets.map_statement_written`).
-/

import Mathlib
import StructuredFlow.Proofs.Code.Printing
import StructuredFlow.Proofs.Compilation

namespace StructuredFlow

open Relation Structuring

/-! ### The statements of instructions in code -/

/-- The texts of instructions in a statement. -/
def Statement.actions : Statement → List String
  | .action text => [text]
  | _ => []

namespace Code

/-- The texts of instructions in code, in the order of its lines. -/
def actions : Code → List String
  | .done => []
  | .statements list next => list.flatMap Statement.actions ++ next.actions
  | .loop _ body next | .once _ body next | .ifThen _ body next => body.actions ++ next.actions
  | .ifThenElse _ first second next => first.actions ++ second.actions ++ next.actions
  | .dispatch _ _ _ cases next =>
    (cases.flatMap fun c => c.body.flatMap Statement.actions) ++ next.actions

/-- Code behind other code adds its texts of instructions at the end. -/
theorem actions_append (a b : Code) : (a ++ b).actions = a.actions ++ b.actions := by
  change (a.append b).actions = _
  induction a <;> simp_all [append, actions]

end Code

/-- The text of an instruction, if a line is one. -/
def Line.instruction? : Line → Option String
  | .instruction _ text => some text
  | _ => none

section Lines

variable (depth : Nat)

/-- A line of code holds no instruction. -/
theorem instructions_code_cons (text : String) (lines : List Line) :
    (Line.code depth text :: lines).filterMap Line.instruction? =
      lines.filterMap Line.instruction? := rfl

/-- Lines of code hold no instruction. -/
theorem instructions_linesAt (texts : List String) :
    (linesAt depth texts).filterMap Line.instruction? = [] :=
  List.filterMap_eq_nil_iff.mpr fun line hline => by
    obtain ⟨text, -, rfl⟩ := List.mem_map.mp hline
    rfl

/-- The lines of a jump hold no instruction. -/
theorem instructions_jumpLines (way : Option Jump) :
    (jumpLines depth way).filterMap Line.instruction? = [] := instructions_linesAt depth _

/-- None of the lines of a conditional is that of an instruction. -/
theorem instructions_armLines (position : Nat) (arms : List (Test × Option Jump))
    (fallback : Option Jump) :
    (armLines depth position arms fallback).filterMap Line.instruction? = [] := by
  induction arms generalizing position with
  | nil =>
    cases fallback with
    | none => rfl
    | some way =>
      change (linesAt (depth + 1) way.lines ++ [Line.code depth closing]).filterMap _ = []
      rw [List.filterMap_append, instructions_linesAt]
      rfl
  | cons arm arms ih =>
    obtain ⟨test, way⟩ := arm
    rw [armLines_cons]
    change (jumpLines (depth + 1) way ++ armLines depth (position + 1) arms fallback).filterMap _ =
      []
    rw [List.filterMap_append, instructions_jumpLines, ih, List.append_nil]

/-- Of a statement the lines of instructions are its texts of instructions. -/
theorem Statement.instructions_lines (statement : Statement) :
    (statement.lines depth).filterMap Line.instruction? = statement.actions := by
  cases statement with
  | comment text => rfl
  | action text => rfl
  | jump way => exact instructions_linesAt depth _
  | choice arms fallback => exact instructions_armLines depth 0 arms fallback
  | ret value => cases value <;> rfl

/-- Of statements the lines of instructions are their texts of instructions. -/
theorem instructions_statementLines (list : List Statement) :
    (statementLines depth list).filterMap Line.instruction? = list.flatMap Statement.actions := by
  rw [statementLines, List.filterMap_flatMap]
  exact List.flatMap_congr fun statement _ => statement.instructions_lines depth

/-- Of a case the lines of instructions are the texts of instructions in its body. -/
theorem Case.instructions_lines (c : Case) :
    (c.lines depth).filterMap Line.instruction? = c.body.flatMap Statement.actions := by
  have hbody : (statementLines (depth + 1) c.body ++ [Line.code depth closing]).filterMap
      Line.instruction? = c.body.flatMap Statement.actions := by
    rw [List.filterMap_append, instructions_statementLines]
    exact List.append_nil _
  rw [Case.lines]
  cases c.note <;> exact hbody

/-- **The lines of instructions are the texts of instructions in the code**, each on a line of
its own and in this order. -/
theorem Code.instructions_lines (code : Code) :
    (code.lines depth).filterMap Line.instruction? = code.actions := by
  induction code generalizing depth with
  | done => rfl
  | statements list next ih =>
    rw [lines, List.filterMap_append, instructions_statementLines, ih, actions]
  | loop name body next ihBody ih | once name body next ihBody ih | ifThen test body next ihBody ih =>
    rw [lines, List.cons_append, instructions_code_cons, List.filterMap_append,
      instructions_code_cons, ihBody, ih, actions]
  | ifThenElse test first second next ihFirst ihSecond ih =>
    simp only [lines, List.cons_append, instructions_code_cons, List.filterMap_append, ihFirst,
      ihSecond, ih, actions]
  | dispatch name selector start cases next ih =>
    have hcases : (cases.flatMap (Case.lines (depth + 1))).filterMap Line.instruction? =
        cases.flatMap fun c => c.body.flatMap Statement.actions := by
      rw [List.filterMap_flatMap]
      exact List.flatMap_congr fun c _ => c.instructions_lines (depth + 1)
    simp only [lines, List.cons_append, instructions_code_cons, List.filterMap_append, hcases, ih,
      actions]

/-- The head of a function and its end are no instructions. -/
theorem FunctionCode.instructions_lines (code : FunctionCode) :
    code.lines.filterMap Line.instruction? = code.body.actions := by
  change (code.body.lines 1 ++ [Line.code 0 closing]).filterMap Line.instruction? = _
  rw [List.filterMap_append, code.body.instructions_lines]
  exact List.append_nil _

end Lines

/-! ### The instructions that are written -/

/-- Tests whether an instruction has a statement: an operation, or an invoke for its call. -/
def Instruction.isWritten (inst : Instruction) : Bool :=
  match inst.action with
  | .operation _ | .transfer (.invoke ..) => true
  | .transfer _ => false

/-- The instructions of a label that have statements, in program order. -/
def Label.written (label : Label) : List Instruction :=
  label.instructions.filter Instruction.isWritten

/-- The instructions of the label at a position that have statements. -/
def Function.writtenAt (f : Function) (id : Nat) : List Instruction :=
  ((f.label? id).map Label.written).getD []

/-- An instruction that has a statement and is not refused is written. -/
theorem Instruction.exists_statement_eq_ok {b : Bindings} {inst : Instruction}
    (hwritten : inst.isWritten = true) (hrefusal : inst.refusal? = none) :
    ∃ text, inst.statement b = .ok text := by
  rw [isWritten] at hwritten
  rw [refusal?] at hrefusal
  rw [statement]
  cases ha : inst.action with
  | operation op =>
    rw [ha] at hrefusal
    exact Operation.exists_statement_eq_ok hrefusal
  | transfer t =>
    rw [ha] at hwritten
    cases t with
    | invoke callee args normal unwind => exact ⟨_, rfl⟩
    | _ => exact absurd hwritten Bool.false_ne_true

/-- Exchanging targets matters neither to the instructions that are written nor to their
statements. -/
theorem Function.Retargets.map_statement_written {f : Function} {ts : Transfers} {a : Nat}
    {label : Label} {body : List Instruction} {last : Instruction} {t : Transfer}
    {g : Target → Target} (h : f.Retargets ts a label body last t g) (s : Emission.Source) :
    ({ label with instructions := body ++
      [{ last with action := .transfer (t.mapTargets g) }] } : Label).written.map s.statement =
      label.written.map s.statement := by
  have haction := h.action_eq
  have hwritten : Instruction.isWritten { last with action := .transfer (t.mapTargets g) } =
      last.isWritten := by
    rw [Instruction.isWritten, Instruction.isWritten, haction]
    cases t <;> rfl
  have hstatement : last.isWritten = true →
      s.statement { last with action := .transfer (t.mapTargets g) } = s.statement last := by
    intro hlast
    rw [Instruction.isWritten, haction] at hlast
    rw [Emission.Source.statement, Emission.Source.statement, Instruction.statement,
      Instruction.statement, haction]
    cases t with
    | invoke callee args normal unwind => rfl
    | _ => exact absurd hlast Bool.false_ne_true
  rw [Label.written, Label.written, h.instructions_eq, List.filter_append, List.filter_append,
    List.map_append, List.map_append, List.filter_cons, List.filter_cons, hwritten]
  split
  next hlast => rw [List.filter_nil, List.map_singleton, List.map_singleton, hstatement hlast]
  next => rfl

/-! ### The written form -/

namespace Emission

/-- A choice between two targets holds no instruction. -/
theorem actions_twoWay (test : Test) (first second : Option Jump) :
    (twoWay test first second).flatMap Statement.actions = [] := by
  cases first with
  | none => cases second <;> rfl
  | some first => rfl

/-- A choice between many targets holds no instruction. -/
theorem actions_manyWay (arms : List (Test × Option Jump)) (fallback : Option Jump) :
    (manyWay arms fallback).flatMap Statement.actions = [] := by
  unfold manyWay
  split
  · rfl
  · split
    · cases fallback <;> rfl
    · rfl

variable {s : Source} {index : Nat → Nat}

/-- Of an instruction nothing but its statement is written as one. -/
theorem actions_instruction (around : Option Dispatch) (inst : Instruction) :
    (Written.instruction s index around inst).flatMap Statement.actions =
      if inst.isWritten then [s.statement inst] else [] := by
  unfold Written.instruction Instruction.isWritten
  cases inst.action with
  | operation op => rfl
  | transfer t =>
    cases t with
    | branch target =>
      change ((Written.jump s index around target).map Statement.jump).toList.flatMap _ = _
      cases Written.jump s index around target <;> rfl
    | condBranch condition ifTrue ifFalse => exact actions_twoWay _ _ _
    | switch scrutinee default cases => exact actions_manyWay _ _
    | invoke callee args normal unwind =>
      exact congrArg (s.statement inst :: ·) (actions_twoWay _ _ _)
    | ret value => rfl
    | unreachable => rfl

/-- A label is written with the statements of its written instructions, in order. -/
theorem actions_label (around : Option Dispatch) (a : Nat) :
    (Written.label s index around a).flatMap Statement.actions =
      (s.label a).written.map s.statement := by
  have hbody : ∀ insts : List Instruction,
      (insts.flatMap (Written.instruction s index around)).flatMap Statement.actions =
        (insts.filter Instruction.isWritten).map s.statement := by
    intro insts
    induction insts with
    | nil => rfl
    | cons inst insts ih =>
      rw [List.flatMap_cons, List.flatMap_append, actions_instruction, ih, List.filter_cons]
      split <;> rfl
  rw [Written.label, Label.written, ← hbody]
  split <;> rfl

/-- A leaf is written with the statements of its labels, in order, as a dispatch or not. -/
theorem actions_leaf {kind : LeafKind} {entry : Nat} {labels : List Nat} {next : BlockTree}
    (h : WritableBlock s (.leaf kind entry labels next)) :
    (Written.leaf s index kind entry labels).actions =
      labels.flatMap fun a => (s.label a).written.map s.statement := by
  unfold Written.leaf Source.around
  cases hdispatch : s.dispatches kind entry labels with
  | true =>
    simp only [if_true, Code.actions, List.append_nil, List.flatMap_map, Written.dispatchCase,
      actions_label]
  | false =>
    rw [h.2.2.1 hdispatch]
    simp [Code.actions, actions_label]

/-- A conditional holds the instructions of its first arm and then those of the other, which is
left out if it is empty. -/
theorem actions_conditional (test : Condition) (ifFalse : BlockTree) (first : Code) :
    (conditional test ifFalse first (Written.tree s index ifFalse)).actions =
      first.actions ++ (Written.tree s index ifFalse).actions := by
  cases ifFalse <;> simp [conditional, BlockTree.isNil, Code.actions, Written.tree]

/-- **The code of a tree holds the statements of its leaf labels, in their order.** -/
theorem actions_tree {t : BlockTree} (h : ∀ b ∈ t.preorder, WritableBlock s b) :
    (Written.tree s index t).actions =
      t.leafLabels.flatMap fun a => (s.label a).written.map s.statement := by
  induction t with
  | nil => simp [Written.tree, Code.actions]
  | leaf kind entry labels next ih =>
    rw [Written.tree, Code.actions_append, actions_leaf (h _ List.mem_cons_self),
      ih fun b hb => h b (List.mem_cons_of_mem _ hb), BlockTree.leafLabels_leaf,
      List.flatMap_append]
  | loop entry labels inc rest next ihInc ihRest ihNext =>
    simp only [BlockTree.preorder, List.mem_cons, List.mem_append] at h
    rw [Written.tree, Code.actions, Code.actions_append, BlockTree.leafLabels_loop,
      ihInc fun b hb => h b (Or.inr (Or.inl (Or.inl hb))),
      ihRest fun b hb => h b (Or.inr (Or.inl (Or.inr hb))),
      ihNext fun b hb => h b (Or.inr (Or.inr hb)), List.flatMap_append, List.flatMap_append]
  | cond entry labels breaking test check ifTrue ifFalse next ihCheck ihTrue ihFalse ihNext =>
    simp only [BlockTree.preorder, List.mem_cons, List.mem_append] at h
    have hcheck := ihCheck fun b hb => h b (Or.inr (Or.inl (Or.inl (Or.inl hb))))
    have htrue := ihTrue fun b hb => h b (Or.inr (Or.inl (Or.inl (Or.inr hb))))
    have hfalse := ihFalse fun b hb => h b (Or.inr (Or.inl (Or.inr hb)))
    have hnext := ihNext fun b hb => h b (Or.inr (Or.inr hb))
    rw [BlockTree.leafLabels_cond, List.flatMap_append, List.flatMap_append, List.flatMap_append,
      ← hcheck, ← htrue, ← hfalse, ← hnext]
    cases breaking <;>
      simp [Written.tree, Code.actions_append, Code.actions, actions_conditional]

end Emission

/-! ### The code of a function -/

/-- What a label that is not refused is written as is what its instructions are written as
in the function. -/
theorem Function.map_statement_writtenAt {f : Function} (hf : f.validate = .ok ())
    {p : Nat → Prop} {ts : Transfers} (hmarks : Transfers.MarksWithin p f.transfers ts) {a : Nat}
    (ha : a < f.labels.length) (s : Emission.Source) (hs : s.labels = f.withTransfers ts)
    (hrefusal : (s.label a).refusal? = none) :
    (f.writtenAt a).map (fun inst => inst.statement s.bindings) =
      ((s.label a).written.map s.statement).map .ok := by
  obtain ⟨label, body, last, t, g, hr⟩ := exists_retargets hf hmarks ha
  have hlabel := Emission.Source.label_eq (hs ▸ hr.getElem?_eq)
  rw [hlabel, hr.refusal?_eq, Label.refusal?_eq_none_iff] at hrefusal
  rw [hlabel, hr.map_statement_written, writtenAt, label?, hr.label_eq, Option.map_some,
    Option.getD_some, List.map_map]
  refine List.map_congr_left fun inst hinst => ?_
  obtain ⟨hmem, hwritten⟩ := List.mem_filter.mp hinst
  obtain ⟨text, htext⟩ :=
    Instruction.exists_statement_eq_ok (b := s.bindings) hwritten (hrefusal inst hmem)
  rw [Function.comp_apply, Emission.Source.statement, htext]

/-- What is written for a structured function can be read, and the texts of instructions in
it are the statements of its leaf labels. -/
theorem Structuring.StructuresLive.instructions_emit {f : Function}
    {result : Structured × List Event} (hlive : StructuresLive f.transfers f.entry result)
    (hf : f.validate = .ok ()) (hm : f.NoMarkers) (config : Config) (types : TypeTable)
    (table : VariableTable) {r r' : Registry} {code : FunctionCode}
    (h : f.emit config types table (f.withTransfers result.1.transfers) result.1.tree r =
      (.ok code, r')) :
    let b := (f.source config types table (f.withTransfers result.1.transfers)).bindings
    (∃ script, Script.read? config.dispatchVariable code.lines = some script) ∧
      ((result.1.tree.leafLabels.flatMap f.writtenAt).map fun inst => inst.statement b) =
        (code.lines.filterMap Line.instruction?).map .ok := by
  let source := f.source config types table (f.withTransfers result.1.transfers)
  have hnames : source.identifiers.length = source.labels.length :=
    (Identifier.length_distinct _).trans (List.length_map _)
  have hwritable := hlive.writableBlock hf hm (s := source) rfl hnames
  have hdoes := Emission.does_treeCode hnames hwritable r
  cases hrefusal : source.refusal? result.1.tree.leafLabels with
  | some error =>
    rw [hrefusal] at hdoes
    obtain ⟨r'', hr''⟩ := hdoes
    exact absurd (congrArg Prod.fst ((Function.emit_eq hr'').symm.trans h)) (by simp [Except.map])
  | none =>
    rw [hrefusal] at hdoes
    obtain ⟨body, hbody, hwritten⟩ := hdoes
    obtain rfl := Except.ok.inj (congrArg Prod.fst ((Function.emit_eq hbody).symm.trans h))
    rw [hwritten _ List.prefix_rfl]
    refine ⟨⟨_, f.read?_written config types table _ _ _ _ _⟩, ?_⟩
    rw [FunctionCode.instructions_lines, Emission.actions_tree hwritable, List.map_flatMap,
      List.map_flatMap]
    refine List.flatMap_congr fun a ha => ?_
    exact Function.map_statement_writtenAt hf hlive.marks (hlive.lt_of_mem_leafLabels ha) source rfl
      (List.findSome?_eq_none_iff.mp hrefusal a ha)

/-- **No instruction is lost, repeated or reordered in the output.**  When the code of a
function is written, structured or put into one dispatch, the printed lines that are texts
of instructions are the statements of its written instructions, label by label in the order
of the leaves and in program order within a label; all other lines are read as control.  A
label that the entry reaches is among the leaves once, every other label not at all. -/
theorem Function.actions_emit {f : Function} (hf : f.validate = .ok ()) (hm : f.NoMarkers)
    (config : Config) (types : TypeTable) (table : VariableTable) {s : Structured}
    (hs : s = (run f.transfers f.entry).1 ∨ s = (flat f.transfers f.entry).1)
    {r r' : Registry} {code : FunctionCode}
    (h : f.emit config types table (f.withTransfers s.transfers) s.tree r = (.ok code, r')) :
    let b := (f.source config types table (f.withTransfers s.transfers)).bindings
    Shows config.indent code.lines (code.text config.indent) ∧
      (∃ script, Script.read? config.dispatchVariable code.lines = some script) ∧
      ((s.tree.leafLabels.flatMap f.writtenAt).map fun inst => inst.statement b) =
        (code.lines.filterMap Line.instruction?).map .ok ∧
      (∀ a, ReflTransGen (Transfers.Edge f.transfers) f.entry a → s.tree.leafLabels.count a = 1) ∧
      ∀ a, ¬ReflTransGen (Transfers.Edge f.transfers) f.entry a →
        s.tree.leafLabels.count a = 0 := by
  intro b
  have hentry : f.entry < f.transfers.length := by
    rw [length_transfers]
    exact entry_lt_of_validate hf
  obtain ⟨result, rfl, hlive⟩ : ∃ result : Structured × List Event,
      result.1 = s ∧ StructuresLive f.transfers f.entry result := by
    rcases hs with rfl | rfl
    · exact ⟨_, rfl, structuresLive_run hentry⟩
    · exact ⟨_, rfl, structuresLive_flat hentry⟩
  have hparts := hlive.partitions hentry
  obtain ⟨hread, hinstructions⟩ := hlive.instructions_emit hf hm config types table h
  refine ⟨code.shows_text _, hread, hinstructions, fun a ha => ?_, fun a ha => ?_⟩
  · exact List.count_eq_one_of_mem hparts.nodup_leafLabels ((hparts.mem_leafLabels a).mpr ha)
  · exact List.count_eq_zero_of_not_mem fun hmem => ha ((hparts.mem_leafLabels a).mp hmem)

/-- A function that asks until it gets an answer, and a label that it does not reach. -/
def Function.asking : Function :=
  .ofLabels "asking" []
    [("head", [{ result := some ⟨"x", .int 1⟩, action := .operation (.call (.symbol "ask") []) },
        { action := .transfer (.condBranch (.ssa "x") (.label 1) (.label 0)) }]),
      ("done", [{ action := .operation (.call (.symbol "use") [.ssa "x"]) },
        { action := .transfer (.ret none) }]),
      ("lost", [{ action := .operation (.call (.symbol "never") []) },
        { action := .transfer (.branch (.label 0)) }])]

/-- Of this function the two calls that the entry reaches are printed, each on one line. -/
theorem Function.actions_emit_asking :
    asking.validate = .ok () ∧ asking.NoMarkers ∧
      ∃ code r, asking.emit {} {} (asking.prepare {} {}).table (asking.prepare {} {}).labels
          (asking.prepare {} {}).structured.tree .empty = (.ok code, r) ∧
        code.lines.filterMap Line.instruction? = ["var $x = _ask();", "_use($x);"] := by
  have hf : asking.validate = .ok () := by decide
  have hm : asking.NoMarkers := by
    unfold NoMarkers
    decide
  have hrefusal : (asking.prepare {} {}).refusal? = none := by decide_cbv
  obtain ⟨code, hcode, -⟩ := emit_eq_ok hf hm {} {} hrefusal .empty
  refine ⟨hf, hm, code, _, hcode, ?_⟩
  have hactions := (actions_emit hf hm {} {} _ (Or.inl rfl) hcode).2.2.1
  have htexts : ((asking.prepare {} {}).structured.tree.leafLabels.flatMap asking.writtenAt).map
      (fun inst => inst.statement ((asking.prepare {} {}).source {} {}).bindings) =
      ["var $x = _ask();", "_use($x);"].map .ok := by decide_cbv
  exact List.map_injective_iff.mpr (fun _ _ => Except.ok.inj) (hactions.symm.trans htexts)

end StructuredFlow
