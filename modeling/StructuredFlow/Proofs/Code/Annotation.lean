/-
# Annotated code

A function can be written with the names of its labels in comments and without.  The two
runs ask for the same indices and meet the same fault (`Matches`), and their code differs in
comments only, each of which is the name of a label (`matches_treeCode`).  No statement of an
instruction is a comment (`matches_bodyStatements`), so comments stand nowhere but before
the statements of a label outside any dispatch, and behind the head of a case.

Names go into comments as they are, and a name may hold the end of a line.  What follows it
then stands on a line of its own and is code (`leaking_label`).  Deleting the comments gives
the code without exactly if no comment holds the end of a line (`annotates_emit`).
-/

import StructuredFlow.Code.Emission
import StructuredFlow.Function.Validation
import StructuredFlow.Proofs.Code.Comments

namespace StructuredFlow

/-! ### Lines of statements and code -/

/-- Tests for a comment. -/
def Statement.isComment : Statement → Bool
  | .comment _ => true
  | _ => false

/-- Lines of code have no comments. -/
theorem note?_linesAt {depth : Nat} {texts : List String} {line : Line}
    (h : line ∈ linesAt depth texts) : line.note? = none := by
  obtain ⟨text, -, rfl⟩ := List.mem_map.mp h
  rfl

/-- Only a comment is written as one. -/
theorem Statement.note?_lines {statement : Statement} (h : statement.isComment = false)
    {depth : Nat} {line : Line} (hline : line ∈ statement.lines depth) : line.note? = none := by
  cases statement with
  | comment text => exact absurd h (by simp [isComment])
  | action text => exact List.mem_singleton.mp hline ▸ rfl
  | jump way => exact note?_linesAt hline
  | choice arms fallback =>
    simp only [lines, List.mem_append] at hline
    rcases hline with (harm | hlast) | hclose
    · obtain ⟨⟨⟨test, way⟩, position⟩, -, hline⟩ := List.mem_flatMap.mp harm
      rcases List.mem_cons.mp hline with rfl | hjump
      · rfl
      · exact note?_linesAt hjump
    · cases fallback with
      | none => exact absurd hlast List.not_mem_nil
      | some way =>
        rcases List.mem_cons.mp hlast with rfl | hjump
        · rfl
        · exact note?_linesAt hjump
    · exact List.mem_singleton.mp hclose ▸ rfl
  | ret value => cases value <;> exact List.mem_singleton.mp hline ▸ rfl

variable {names : List String}

/-- Statements that are no comments are written without any. -/
theorem annotates_statementLines {list : List Statement}
    (h : ∀ statement ∈ list, statement.isComment = false) (depth : Nat) :
    Annotates names (statementLines depth list) (statementLines depth list) := by
  refine .refl fun line hline => ?_
  obtain ⟨statement, hstatement, hline⟩ := List.mem_flatMap.mp hline
  exact statement.note?_lines (h statement hstatement) hline

/-- Cases that differ from others in comments only. -/
def AnnotatedCases (names : List String) (cases plain : List Case) : Prop :=
  ∀ depth, Annotates names (cases.flatMap (Case.lines depth)) (plain.flatMap (Case.lines depth))

namespace Code

/-- Code that differs from another in comments only. -/
def Annotated (names : List String) (code plain : Code) : Prop :=
  ∀ depth, Annotates names (code.lines depth) (plain.lines depth)

namespace Annotated

variable {code plain code' plain' : Code}

/-- Where nothing is written there are no comments. -/
theorem done : Annotated names .done .done := fun _ => .nil

/-- Parts that differ in comments only make code that does. -/
theorem append (h : Annotated names code plain) (h' : Annotated names code' plain') :
    Annotated names (code ++ code') (plain ++ plain') := fun depth => by
  rw [lines_append, lines_append]
  exact (h depth).append (h' depth)

/-- Loops whose parts differ in comments only do so themselves. -/
theorem loop (name : String) (h : Annotated names code plain) (h' : Annotated names code' plain') :
    Annotated names (.loop name code code') (.loop name plain plain') := fun depth =>
  .code depth _ ((h (depth + 1)).append (.code depth _ (h' depth)))

/-- Bodies that run once and differ in comments only do so as constructs. -/
theorem once (name : String) (h : Annotated names code plain) :
    Annotated names (.once name code .done) (.once name plain .done) := fun depth =>
  .code depth _ ((h (depth + 1)).append (.code depth _ .nil))

/-- Conditionals whose arms differ in comments only do so themselves. -/
theorem conditional (test : Condition) (ifFalse : BlockTree) (h : Annotated names code plain)
    (h' : Annotated names code' plain') :
    Annotated names (Emission.conditional test ifFalse code code')
      (Emission.conditional test ifFalse plain plain') := fun depth => by
  unfold Emission.conditional
  split
  · exact .code depth _ ((h (depth + 1)).append (.code depth _ .nil))
  · exact .code depth _ (((h (depth + 1)).append (.code depth _ (h' (depth + 1)))).append
      (.code depth _ .nil))

/-- Dispatches whose cases differ in comments only do so themselves. -/
theorem dispatch (name selector : String) (start : Nat) {cases plain : List Case}
    (h : AnnotatedCases names cases plain) : Annotated names
      (.dispatch name selector start cases .done) (.dispatch name selector start plain .done) :=
  fun depth => .code depth _ (.code depth _ ((h (depth + 1)).append (.code depth _ .nil)))

end Annotated
end Code

/-! ### Two runs -/

namespace Emission

variable {α β γ δ : Type}

/-- Emissions that ask for the same indices and report the same fault, if one does; otherwise
their results are related. -/
def Matches (R : α → β → Prop) (x : Emission α) (y : Emission β) : Prop :=
  ∀ registry, ∃ after,
    (∃ error, x.run.run registry = (.error error, after) ∧
      y.run.run registry = (.error error, after)) ∨
    ∃ a b, x.run.run registry = (.ok a, after) ∧ y.run.run registry = (.ok b, after) ∧ R a b

namespace Matches

variable {R : α → β → Prop} {S : γ → δ → Prop} {x : Emission α} {y : Emission β}
  {f : α → Emission γ} {g : β → Emission δ}

/-- Results that are related need no indices. -/
theorem pure {a : α} {b : β} (h : R a b) : Matches R (Pure.pure a) (Pure.pure b) := fun registry =>
  ⟨registry, Or.inr ⟨a, b, rfl, rfl, h⟩⟩

/-- An emission matches itself. -/
theorem refl (x : Emission α) : Matches Eq x x := fun registry => by
  rcases hrun : x.run.run registry with ⟨error | a, after⟩
  · exact ⟨after, Or.inl ⟨error, rfl, rfl⟩⟩
  · exact ⟨after, Or.inr ⟨a, a, rfl, rfl, rfl⟩⟩

/-- Emissions that match, followed by such as match whenever the results are related, match. -/
theorem bind (h : Matches R x y) (hf : ∀ a b, R a b → Matches S (f a) (g b)) :
    Matches S (x >>= f) (y >>= g) := by
  intro registry
  obtain ⟨after, ⟨error, hx, hy⟩ | ⟨a, b, hx, hy, hR⟩⟩ := h registry
  · refine ⟨after, Or.inl ⟨error, ?_, ?_⟩⟩
    · rw [ExceptT.run_bind, StateT.run_bind, hx]
      rfl
    · rw [ExceptT.run_bind, StateT.run_bind, hy]
      rfl
  · have hfx : (x >>= f).run.run registry = (f a).run.run after := by
      rw [ExceptT.run_bind, StateT.run_bind, hx]
      rfl
    have hgy : (y >>= g).run.run registry = (g b).run.run after := by
      rw [ExceptT.run_bind, StateT.run_bind, hy]
      rfl
    rw [hfx, hgy]
    exact hf a b hR after

/-- Two emissions that start with the same one. -/
theorem after {g : α → Emission δ} (x : Emission α) (h : ∀ a, Matches S (f a) (g a)) :
    Matches S (x >>= f) (x >>= g) := by
  refine (refl x).bind ?_
  rintro a _ rfl
  exact h a

end Matches

/-- The source with labels named in comments, or not. -/
def Source.annotated (s : Source) (annotate : Bool) : Source :=
  { s with config := { s.config with annotate } }

section Runs

variable (s : Source) (annotate : Bool) (around : Option Dispatch)

/-- The arms of a switch do not depend on whether comments are written. -/
theorem caseArms_annotated (scrutinee : String) (cases : List (String × Target)) :
    caseArms (s.annotated annotate) around scrutinee cases = caseArms s around scrutinee cases := by
  induction cases with
  | nil => rfl
  | cons arm cases ih =>
    rw [caseArms, caseArms, ih]
    rfl

/-- The statements of a control transfer do not depend on whether comments are written. -/
theorem transferStatements_annotated (inst : Instruction) (t : Transfer) :
    transferStatements (s.annotated annotate) around inst t =
      transferStatements s around inst t := by
  cases t with
  | switch scrutinee default cases =>
    rw [transferStatements, transferStatements, caseArms_annotated]
    rfl
  | _ => rfl

/-- The statements of instructions do not depend on whether labels are named. -/
theorem bodyStatements_annotated (list : List Instruction) :
    bodyStatements (s.annotated annotate) around list = bodyStatements s around list := by
  induction list with
  | nil => rfl
  | cons inst list ih =>
    have hinst : instructionStatements (s.annotated annotate) around inst =
        instructionStatements s around inst := by
      unfold instructionStatements
      cases inst.action with
      | operation op => rfl
      | transfer t => exact transferStatements_annotated s annotate around inst t
    rw [bodyStatements, bodyStatements, hinst, ih]

/-! ### No statement of an instruction is a comment -/

/-- The same statements, none of which is a comment. -/
def SameCode (list plain : List Statement) : Prop :=
  list = plain ∧ ∀ statement ∈ list, statement.isComment = false

/-- A choice between two targets is no comment. -/
theorem isComment_twoWay (test : Test) (first second : Option Jump) :
    ∀ statement ∈ twoWay test first second, statement.isComment = false := by
  cases first <;> cases second <;> simp [twoWay, Statement.isComment]

/-- A choice between many targets is no comment. -/
theorem isComment_manyWay (arms : List (Test × Option Jump)) (fallback : Option Jump) :
    ∀ statement ∈ manyWay arms fallback, statement.isComment = false := by
  unfold manyWay
  split
  · simp
  · split <;> simp [Statement.isComment]

/-- The statements of a control transfer are the same in both runs, and none is a comment. -/
theorem matches_transferStatements (inst : Instruction) (t : Transfer) :
    Matches SameCode (transferStatements s around inst t) (transferStatements s around inst t) := by
  cases t with
  | branch target =>
    refine .after (jumpTo s around target) fun way => ?_
    exact .pure ⟨rfl, by simp [Statement.isComment]⟩
  | condBranch condition ifTrue ifFalse =>
    refine .after (jumpTo s around ifTrue) fun first => ?_
    refine .after (jumpTo s around ifFalse) fun second => ?_
    exact .pure ⟨rfl, isComment_twoWay _ _ _⟩
  | switch scrutinee default cases =>
    refine .after (caseArms s around scrutinee.expression cases) fun arms => ?_
    refine .after (jumpTo s around default) fun fallback => ?_
    exact .pure ⟨rfl, isComment_manyWay _ _⟩
  | invoke callee args normal unwind =>
    refine .after (statementText s inst) fun call => ?_
    refine .after (jumpTo s around normal) fun first => ?_
    refine .after (jumpTo s around unwind) fun second => ?_
    exact .pure ⟨rfl, List.forall_mem_cons.mpr ⟨rfl, isComment_twoWay _ _ _⟩⟩
  | ret value => exact .pure ⟨rfl, by simp [Statement.isComment]⟩
  | unreachable => exact .pure ⟨rfl, by simp⟩

/-- The statements of an instruction are the same in both runs, and none is a comment. -/
theorem matches_instructionStatements (inst : Instruction) :
    Matches SameCode (instructionStatements s around inst)
      (instructionStatements s around inst) := by
  unfold instructionStatements
  split
  next op _ =>
    refine .after (statementText s inst) fun text => ?_
    exact .pure ⟨rfl, by simp [Statement.isComment]⟩
  next t _ => exact matches_transferStatements s around inst t

/-- The statements of instructions are the same in both runs, and none is a comment. -/
theorem matches_bodyStatements (list : List Instruction) :
    Matches SameCode (bodyStatements s around list) (bodyStatements s around list) := by
  induction list with
  | nil => exact .pure ⟨rfl, by simp⟩
  | cons inst list ih =>
    refine (matches_instructionStatements s around inst).bind ?_
    rintro first _ ⟨rfl, hfirst⟩
    refine ih.bind ?_
    rintro rest _ ⟨rfl, hrest⟩
    exact .pure ⟨rfl, List.forall_mem_append.mpr ⟨hfirst, hrest⟩⟩

/-! ### Labels, dispatches and trees -/

/-- The names of the labels. -/
def Source.labelNames (s : Source) : List String := s.labels.map Label.name

/-- Both runs find the same label, or none. -/
theorem matches_labelAt (id : Nat) :
    Matches (fun label plain => label = plain ∧ label.name ∈ s.labelNames) (labelAt s id)
      (labelAt s id) := by
  unfold labelAt
  split
  next label hlabel =>
    exact .pure ⟨rfl, List.mem_map_of_mem (List.mem_of_getElem? hlabel)⟩
  next => exact fun registry => ⟨registry, Or.inl ⟨_, rfl, rfl⟩⟩

/-- Outside a dispatch a label is named before its statements. -/
theorem matches_flatLabel (id : Nat) :
    Matches (fun list plain => ∀ depth,
        Annotates s.labelNames (statementLines depth list) (statementLines depth plain))
      (labelStatements (s.annotated true) none id)
      (labelStatements (s.annotated false) none id) := by
  refine (matches_labelAt s id).bind ?_
  rintro label _ ⟨rfl, hname⟩
  rw [bodyStatements_annotated, bodyStatements_annotated]
  refine (matches_bodyStatements s none label.instructions).bind ?_
  rintro body _ ⟨rfl, hbody⟩
  exact .pure fun depth => .comment depth hname (annotates_statementLines hbody depth)

/-- Inside a dispatch it is not. -/
theorem matches_caseLabel (d : Dispatch) (id : Nat) :
    Matches SameCode (labelStatements (s.annotated true) (some d) id)
      (labelStatements (s.annotated false) (some d) id) := by
  refine (matches_labelAt s id).bind ?_
  rintro label _ ⟨rfl, -⟩
  rw [bodyStatements_annotated, bodyStatements_annotated]
  refine (matches_bodyStatements s (some d) label.instructions).bind ?_
  rintro body _ ⟨rfl, hbody⟩
  exact .pure ⟨rfl, hbody⟩

/-- A case with the name of its label behind its head differs in that from one without. -/
theorem annotates_case {body : List Statement}
    (hbody : ∀ statement ∈ body, statement.isComment = false) (index id depth : Nat) :
    Annotates s.labelNames (Case.lines depth ⟨index, s.labels[id]?.map Label.name, body⟩)
      (Case.lines depth ⟨index, none, body⟩) := by
  have hrest : Annotates s.labelNames (statementLines (depth + 1) body ++ [.code depth closing])
      (statementLines (depth + 1) body ++ [.code depth closing]) :=
    (annotates_statementLines hbody (depth + 1)).append (.code depth _ .nil)
  cases hlabel : s.labels[id]? with
  | none => exact .code depth _ hrest
  | some label =>
    exact .commented depth _ (List.mem_map_of_mem (List.mem_of_getElem? hlabel)) hrest

/-- The cases of a dispatch differ in the comments at their heads only. -/
theorem matches_dispatchCases (d : Dispatch) (ids : List Nat) :
    Matches (AnnotatedCases s.labelNames) (dispatchCases (s.annotated true) d ids)
      (dispatchCases (s.annotated false) d ids) := by
  induction ids with
  | nil => exact .pure fun _ => .nil
  | cons id ids ih =>
    refine .after (requestIndex s id) fun index => ?_
    refine (matches_caseLabel s d id).bind ?_
    rintro body _ ⟨rfl, hbody⟩
    refine ih.bind fun cases plain hcases => .pure fun depth => ?_
    exact (annotates_case s hbody index id depth).append (hcases depth)

/-- A dispatch differs in the comments at the heads of its cases only. -/
theorem matches_dispatchCode (entry : Nat) (labels : List Nat) :
    Matches (Code.Annotated s.labelNames) (dispatchCode (s.annotated true) entry labels)
      (dispatchCode (s.annotated false) entry labels) := by
  refine .after (requestIndex s entry) fun start => ?_
  refine .after (dispatchName s entry) fun name => ?_
  refine (matches_dispatchCases s ⟨name, labels⟩ labels).bind fun cases plain hcases => ?_
  exact .pure (.dispatch name s.config.dispatchVariable start hcases)

/-- A label outside any dispatch. -/
theorem matches_flatCode (id : Nat) :
    Matches (Code.Annotated s.labelNames)
      (labelStatements (s.annotated true) none id >>= fun list => pure (.statements list .done))
      (labelStatements (s.annotated false) none id >>= fun list => pure (.statements list .done)) :=
  (matches_flatLabel s id).bind fun _ _ hlist => .pure fun depth => (hlist depth).append .nil

/-- A leaf differs in the comments of its labels only. -/
theorem matches_leafCode (kind : LeafKind) (entry : Nat) (labels : List Nat) :
    Matches (Code.Annotated s.labelNames) (leafCode (s.annotated true) kind entry labels)
      (leafCode (s.annotated false) kind entry labels) := by
  unfold leafCode
  cases kind with
  | simple => exact matches_flatCode s entry
  | dispatch =>
    refine .after (isLone s entry labels) fun flat => ?_
    cases flat with
    | true => exact matches_flatCode s entry
    | false => exact matches_dispatchCode s entry labels

/-- **Naming labels changes the code of a tree in comments only**, and neither the indices that
are asked for nor the fault. -/
theorem matches_treeCode (tree : BlockTree) :
    Matches (Code.Annotated s.labelNames) (treeCode (s.annotated true) tree)
      (treeCode (s.annotated false) tree) := by
  induction tree with
  | nil => exact .pure .done
  | leaf kind entry labels next ih =>
    refine (matches_leafCode s kind entry labels).bind fun first plain hfirst => ?_
    exact ih.bind fun rest plainRest hrest => .pure (hfirst.append hrest)
  | loop entry labels inc rest next ihInc ihRest ihNext =>
    refine .after (constructName s entry) fun name => ?_
    refine ihInc.bind fun first plainFirst hfirst => ?_
    refine ihRest.bind fun second plainSecond hsecond => ?_
    exact ihNext.bind fun after plainAfter hafter =>
      .pure (.loop name (hfirst.append hsecond) hafter)
  | cond entry labels breaking test check ifTrue ifFalse next ihCheck ihTrue ihFalse ihNext =>
    cases breaking with
    | false =>
      refine ihCheck.bind fun before plainBefore hbefore => ?_
      refine ihTrue.bind fun first plainFirst hfirst => ?_
      refine ihFalse.bind fun second plainSecond hsecond => ?_
      exact ihNext.bind fun after plainAfter hafter =>
        .pure ((hbefore.append (.conditional test ifFalse hfirst hsecond)).append hafter)
    | true =>
      refine ihCheck.bind fun before plainBefore hbefore => ?_
      refine .after (constructName s entry) fun name => ?_
      refine ihTrue.bind fun first plainFirst hfirst => ?_
      refine ihFalse.bind fun second plainSecond hsecond => ?_
      exact ihNext.bind fun after plainAfter hafter => .pure
        ((hbefore.append (.once name (.conditional test ifFalse hfirst hsecond))).append hafter)

end Runs

end Emission

namespace Function

/-- The code of a function, with its labels named or not, is that of its tree. -/
theorem emit_annotated (f : Function) (config : Config) (types : TypeTable)
    (table : VariableTable) (labels : List Label) (tree : BlockTree) (registry : Registry)
    (annotate : Bool) : f.emit { config with annotate } types table labels tree registry =
      let run := (Emission.treeCode ((f.source config types table labels).annotated annotate)
        tree).run.run registry
      (run.1.map fun body => ⟨Identifier.ofGlobal f.name, f.params.map Identifier.ofLocal, body⟩,
        run.2) := rfl

/-- **Naming labels changes the code of a function in comments only.**  For all labels, blocks
and settings: whether they are named or not, the same indices are given out, and the same
error is reported, if one is.  Otherwise the lines without comments are those of the code
where labels are not named, and every comment is the name of a label.  The text without
comments, each deleted up to the end of its line, is that of the other code exactly if each
comment stays within its line. -/
theorem annotates_emit (f : Function) (config : Config) (types : TypeTable)
    (table : VariableTable) (labels : List Label) (tree : BlockTree) (registry : Registry) :
    ∃ after,
      (∃ error,
        f.emit { config with annotate := true } types table labels tree registry =
            (.error error, after) ∧
          f.emit { config with annotate := false } types table labels tree registry =
            (.error error, after)) ∨
      ∃ code plain,
        f.emit { config with annotate := true } types table labels tree registry =
            (.ok code, after) ∧
          f.emit { config with annotate := false } types table labels tree registry =
            (.ok plain, after) ∧
          code.lines.filterMap Line.withoutComment? = plain.lines ∧
          (∀ note ∈ code.notes, ∃ label ∈ labels, label.name = note) ∧
          ∀ e : LineEnds, code.uncommented e config.indent = plain.text config.indent ↔
            ∀ note ∈ code.notes, e.OneLine note := by
  obtain ⟨after, ⟨error, herror, herror'⟩ | ⟨body, plain, hbody, hplain, hlines⟩⟩ :=
    Emission.matches_treeCode (f.source config types table labels) tree registry
  · refine ⟨after, Or.inl ⟨error, ?_, ?_⟩⟩
    · rw [emit_annotated, herror]
      rfl
    · rw [emit_annotated, herror']
      rfl
  · have hannotates : Annotates (labels.map Label.name)
        (FunctionCode.lines ⟨Identifier.ofGlobal f.name, f.params.map Identifier.ofLocal, body⟩)
        (FunctionCode.lines ⟨Identifier.ofGlobal f.name, f.params.map Identifier.ofLocal, plain⟩) :=
      .code 0 _ ((hlines 1).append (.code 0 _ .nil))
    refine ⟨after, Or.inr ⟨_, _, ?_, ?_, hannotates.withoutComments, fun note hnote => ?_,
      fun e => FunctionCode.uncommented_eq_text_iff hannotates e config.indent⟩⟩
    · rw [emit_annotated, hbody]
      rfl
    · rw [emit_annotated, hplain]
      rfl
    · exact List.mem_map.mp (hannotates.note_mem note hnote)

/-- A function whose only label has a newline in its name. -/
def leaking : Function :=
  .ofLabels "leaking" [] [("entry\nreturn 1;", [{ action := .transfer (.ret none) }])]

/-- The end of a name becomes a statement: with the label named, the function returns 1. -/
theorem leaking_label : leaking.validate = .ok () ∧ ∃ code plain,
    leaking.emit { annotate := true } {} [] leaking.labels (.leaf .simple 0 [0] .nil) .empty =
        (.ok code, .empty) ∧
      leaking.emit { annotate := false } {} [] leaking.labels (.leaf .simple 0 [0] .nil) .empty =
        (.ok plain, .empty) ∧
      code.text "  " = "function _leaking() \x7b\n  // entry\nreturn 1;\n  return;\n\x7d\n" ∧
      code.uncommented ⟨(· == '\n'), rfl⟩ "  " =
        "function _leaking() \x7b\nreturn 1;\n  return;\n\x7d\n" ∧
      plain.text "  " = "function _leaking() \x7b\n  return;\n\x7d\n" := by
  refine ⟨by decide, _, _, rfl, rfl, ?_, ?_, ?_⟩ <;> decide

end Function
end StructuredFlow
